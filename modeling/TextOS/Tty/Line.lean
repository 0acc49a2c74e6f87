import TextOS.Lib.Run
import TextOS.Tty.Buffer

/-!
# Canonical mode: `kernel/dev/tty/tty.c`

Bytes are fed to a terminal and read from it line by line; a reader that finds no character waits for the next line.
Echo, flow control, polling and signals are left out: they do not change the input buffer.

- `edit` says what the bytes mean, whenever they are read: the completed lines and the line being typed;
- **over every careful run the bytes that have been read and the completed lines in the buffer are the completed lines
  of the input** (`lines_read`); otherwise completed lines are lost, and a line is read before it is complete
  (`lines_lost`).
-/

namespace TextOS.Tty

open Lib List

/-- The part of `termios` that matters for the input. -/
structure Termios where
  istrip : Bool
  igncr : Bool
  icrnl : Bool
  inlcr : Bool
  noflsh : Bool
  veof : Nat
  veol : Nat
  veol2 : Nat
  verase : Nat
  vkill : Nat
  vwerase : Nat
  vintr : Nat
  vquit : Nat
  vstart : Nat
  vstop : Nat
  vsusp : Nat

/-- `tty_register`. -/
def defaultTermios : Termios := ⟨false, false, true, false, false, 0x04, 0, 0, 0x7F, 0x15, 0, 0x03, 0x1C,
    0x11, 0x13, 0x1A⟩

/-- The reader: it is not in a call, waits in `task_block`, or has been woken; `rem` is what it still wants, `got` what
it has. -/
inductive Reader
  | idle
  | blocked (rem : Nat) (got : List Nat)
  | woken (rem : Nat) (got : List Nat)

/-- `tty_t`, the reader, and what its calls have returned. -/
structure Term where
  ibuf : Buf
  iwaiter : Bool
  reader : Reader
  out : List (List Nat)

/-! ## Input -/

/-- A control character is compared with a signed byte. -/
def isCc (v c : Nat) : Bool := decide (c < 128) && v == c

/-- What becomes of a byte before it is looked at. -/
def inputByte (tio : Termios) (c : Nat) : Option Nat :=
  let c := if 128 ≤ c ∧ tio.istrip = true then c % 128 else c
  if c = 13 ∧ tio.igncr = true then none
  else
    let c := if c = 13 ∧ tio.icrnl = true then 10 else c
    some (if c = 10 ∧ tio.inlcr = true then 13 else c)

def iputc (s : Term) (c : Nat) : Term := if bufRems s.ibuf ≠ 0 then { s with ibuf := bufPutc s.ibuf c } else s

/-- `unblock_and_clean` of the reader. -/
def unblock (s : Term) : Term :=
  if s.iwaiter then
    { s with
      iwaiter := false
      reader := match s.reader with
        | .blocked rem got => .woken rem got
        | r => r }
  else s

/-- `tty_c_deliver`. -/
def deliver (s : Term) : Term := unblock { s with ibuf := bufMark s.ibuf TTY_BF_END }

def tsig (tio : Termios) (s : Term) : Term := if tio.noflsh then s else { s with ibuf := bufKill s.ibuf }

/-- The part of `tty_feed` behind the treatment of carriage returns. -/
def feedChar (tio : Termios) (s : Term) (c : Nat) : Term :=
  if isCc tio.veof c then deliver s
  else if c = 10 ∨ isCc tio.veol c ∨ isCc tio.veol2 c then deliver (iputc s 10)
  else if isCc tio.verase c then { s with ibuf := bufErase s.ibuf }
  else if isCc tio.vkill c then if bufChrs s.ibuf = 0 then s else { s with ibuf := bufKill s.ibuf }
  else if isCc tio.vintr c then tsig tio s
  else if isCc tio.vquit c then tsig tio s
  else if isCc tio.vstart c then s
  else if isCc tio.vstop c then s
  else if isCc tio.vsusp c then tsig tio s
  else iputc s c

/-- `tty_feed` for one byte, with `ICANON`. -/
def feed (tio : Termios) (s : Term) (c : Nat) : Term :=
  match inputByte tio c with
  | none => s
  | some c => feedChar tio s c

/-! ## Reading -/

/-- The loop of `tty_fetch` up to the point where it returns or waits: the last number is what it still wants. -/
def fetch : Nat → Buf → List Nat → Buf × List Nat × Nat
  | 0, b, got => (b, got, 0)
  | rem + 1, b, got =>
    match bufGetc b with
    | none => (b, got, rem + 1)
    | some (c, e, b') => if isEnd e then (b', got ++ [c], 0) else fetch rem b' (got ++ [c])

/-- The call returns, or waits. -/
def settle (s : Term) : Buf × List Nat × Nat → Term
  | (b, got, 0) => { s with ibuf := b, reader := .idle, out := s.out ++ [got] }
  | (b, got, rem + 1) => { s with ibuf := b, reader := .blocked (rem + 1) got, iwaiter := true }

/-- `tty_fetch` after `task_block`. -/
def resume (s : Term) (rem : Nat) (got : List Nat) : Term :=
  match bufGetc s.ibuf with
  | none => settle s (s.ibuf, got, 0)
  | some (c, e, b') => settle s (if isEnd e then (b', got ++ [c], 0) else fetch (rem - 1) b' (got ++ [c]))

inductive Event
  | feed (c : Nat)
  | read (len : Nat)
  | resume

/-- A byte arrives, the reader makes a call, or goes on after it has been woken. -/
def step (tio : Termios) (s : Term) : Event → Option Term
  | .feed c => some (feed tio s c)
  | .read len =>
    match s.reader with
    | .idle => some (settle s (fetch len s.ibuf []))
    | _ => some s
  | .resume =>
    match s.reader with
    | .woken rem got => some (resume s rem got)
    | _ => some s

/-! ## What the input means -/

inductive Key
  | eof
  | eol
  | erase
  | kill
  | werase
  | sig
  | flow
  | data
deriving DecidableEq

/-- What a character is for. -/
def key (tio : Termios) (c : Nat) : Key :=
  if isCc tio.veof c then .eof
  else if c = 10 ∨ isCc tio.veol c ∨ isCc tio.veol2 c then .eol
  else if isCc tio.verase c then .erase
  else if isCc tio.vkill c then .kill
  else if isCc tio.vwerase c then .werase
  else if isCc tio.vintr c then .sig
  else if isCc tio.vquit c then .sig
  else if isCc tio.vstart c then .flow
  else if isCc tio.vstop c then .flow
  else if isCc tio.vsusp c then .sig
  else .data

/-- The completed lines and the line being typed. -/
structure Edit where
  lines : List (List Nat)
  cur : List Nat
deriving DecidableEq

def editChar (tio : Termios) (e : Edit) (c : Nat) : Edit :=
  match key tio c with
  | .eof => if e.cur = [] then e else ⟨e.lines ++ [e.cur], []⟩
  | .eol => ⟨e.lines ++ [e.cur ++ [10]], []⟩
  | .erase => ⟨e.lines, e.cur.dropLast⟩
  | .kill => ⟨e.lines, []⟩
  | .werase => ⟨e.lines, ((e.cur.reverse.dropWhile isspace).dropWhile fun c => !isspace c).reverse⟩
  | .sig => if tio.noflsh then e else ⟨e.lines, []⟩
  | .flow => e
  | .data => ⟨e.lines, e.cur ++ [c]⟩

def edit (tio : Termios) (e : Edit) (c : Nat) : Edit :=
  match inputByte tio c with
  | none => e
  | some c => editChar tio e c

/-- Reading is not editing. -/
def editEvent (tio : Termios) (e : Edit) : Event → Edit
  | .feed c => edit tio e c
  | _ => e

/-- The bytes that are fed in a run. -/
def fed (os : List Event) : List Nat := os.filterMap fun
  | .feed c => some c
  | _ => none

/-- There is a completed line in the buffer. -/
def hasLine (b : Buf) : Bool := (contents b).any Prod.snd

/-- What is typed and read with care. -/
def Careful (tio : Termios) (s : Term) : Event → Prop
  | .feed c => ∀ c' ∈ inputByte tio c,
    match key tio c' with
    | .kill => hasLine s.ibuf = false
    | .sig => tio.noflsh = true ∨ hasLine s.ibuf = false
    | .werase => False
    | .eol | .data => bufRems s.ibuf ≠ 0
    | _ => True
  | _ => contents s.ibuf = [] ∨ hasLine s.ibuf = true

instance (tio : Termios) (s : Term) (o : Event) : Decidable (Careful tio s o) := by
  unfold Careful
  split
  · have (c' : Nat) : Decidable (match key tio c' with
      | .kill => hasLine s.ibuf = false
      | .sig => tio.noflsh = true ∨ hasLine s.ibuf = false
      | .werase => False
      | .eol | .data => bufRems s.ibuf ≠ 0
      | _ => True) := by split <;> infer_instance
    infer_instance
  · infer_instance

/-! ## Lines in the buffer -/

/-- A completed line in the buffer: the last character has the flag. -/
def marks : List Nat → List (Nat × Bool)
  | [] => []
  | [c] => [(c, true)]
  | c :: d :: l => (c, false) :: marks (d :: l)

theorem marks_append (l : List Nat) (c : Nat) : marks (l ++ [c]) = l.map (·, false) ++ [(c, true)] := by
  induction l with
  | nil => rfl
  | cons d l ih =>
    cases l with
    | nil => rfl
    | cons d' l => rw [cons_append, cons_append, marks, ← cons_append, ih]; rfl

theorem any_marks {l : List Nat} (h : l ≠ []) : (marks l).any Prod.snd = true := by
  obtain ⟨l', c, rfl⟩ := (eq_nil_or_concat' l).resolve_left h
  rw [marks_append]
  simp

variable {tio : Termios} {s : Term} {e : Edit} {b : Buf} {c : Nat}

theorem contents_bufMark {l : List (Nat × Bool)} {d : Bool} (h : contents b = l ++ [(c, d)]) :
    contents (bufMark b TTY_BF_END) = l ++ [(c, true)] := by
  have hand : ∀ f : UInt8, (f ||| TTY_BF_END) &&& TTY_BF_END = TTY_BF_END := fun f => by
    apply UInt8.toBitVec_inj.1
    ext i hi
    simp
    tauto
  rw [contents, view_bufMark h, isEnd, hand]
  rfl

/-- A read takes from the first line only. -/
theorem fetch_line : ∀ {l : List Nat} {rem : Nat} {b : Buf} {rest : List (Nat × Bool)} (got : List Nat),
    contents b = marks l ++ rest → l ≠ [] → 0 < rem →
      ∃ b', fetch rem b got = (b', got ++ l.take rem, 0) ∧ contents b' = marks (l.drop rem) ++ rest
  | [], _, _, _, _, _, hne, _ => absurd rfl hne
  | [c], rem + 1, b, rest, got, hb, _, _ => by
    obtain ⟨f, b', hget, hf, hb'⟩ := bufGetc_eq_some (c := c) (e := true) (l := rest) hb
    refine ⟨b', ?_, by simpa [marks] using show contents b' = rest from hb'⟩
    rw [fetch, hget]
    simp [hf]
  | c :: d :: l, rem + 1, b, rest, got, hb, _, _ => by
    obtain ⟨f, b', hget, hf, hb'⟩ := bufGetc_eq_some (c := c) (e := false) (l := marks (d :: l) ++ rest) hb
    cases rem with
    | zero =>
      refine ⟨b', ?_, hb'⟩
      rw [fetch, hget]
      simp [hf, fetch]
    | succ rem =>
      obtain ⟨b1, hfetch, hb1⟩ := fetch_line (got ++ [c]) hb' (cons_ne_nil d l) (Nat.succ_pos rem)
      refine ⟨b1, ?_, hb1⟩
      rw [fetch, hget]
      dsimp only
      rw [hf, if_neg (by decide), hfetch]
      simp

/-- The terminal follows the editing of the input: the buffer has the completed lines that have not been read, all
others have been read, and a reader that waits has nothing yet. -/
structure Follows (s : Term) (e : Edit) : Prop where
  text : ∃ pend : List (List Nat), (∀ l ∈ pend, l ≠ []) ∧ contents s.ibuf = pend.flatMap marks ++ e.cur.map (·, false) ∧
    s.out.flatten ++ pend.flatten = e.lines.flatten
  waits : ∀ rem got, (s.reader = .blocked rem got ∨ s.reader = .woken rem got) → got = [] ∧ 0 < rem

theorem hasLine_iff {pend : List (List Nat)} (hne : ∀ l ∈ pend, l ≠ []) {cur : List Nat}
    (hb : contents b = pend.flatMap marks ++ cur.map (·, false)) : hasLine b = true ↔ pend ≠ [] := by
  rw [hasLine, hb, any_append]
  cases pend with
  | nil => simp
  | cons l pend => simp [any_marks (hne l mem_cons_self)]

namespace Follows

theorem no_line (h : Follows s e) (hline : hasLine s.ibuf = false) :
    contents s.ibuf = e.cur.map (·, false) ∧ s.out.flatten = e.lines.flatten := by
  obtain ⟨pend, hne, hb, htext⟩ := h.text
  have hnil : pend = [] := by
    by_contra hp
    rw [(hasLine_iff hne hb).2 hp] at hline
    cases hline
  subst hnil
  exact ⟨by simpa using hb, by simpa using htext⟩

theorem kill (h : Follows s e) (hline : hasLine s.ibuf = false) {b : Buf} (hb : contents b = []) :
    Follows { s with ibuf := b } ⟨e.lines, []⟩ :=
  ⟨⟨[], by simp, by simpa using hb, by simpa using (h.no_line hline).2⟩, h.waits⟩

theorem data (h : Follows s e) {b : Buf} (hb : contents b = contents s.ibuf ++ [(c, false)]) :
    Follows { s with ibuf := b } ⟨e.lines, e.cur ++ [c]⟩ := by
  obtain ⟨pend, hne, hbuf, htext⟩ := h.text
  refine ⟨⟨pend, hne, ?_, htext⟩, h.waits⟩
  rw [hb, hbuf, map_append, append_assoc, map_singleton]

theorem mark (h : Follows s e) (hcur : e.cur ≠ []) :
    Follows { s with ibuf := bufMark s.ibuf TTY_BF_END } ⟨e.lines ++ [e.cur], []⟩ := by
  obtain ⟨pend, hne, hbuf, htext⟩ := h.text
  obtain ⟨l, c, hl⟩ := (eq_nil_or_concat' e.cur).resolve_left hcur
  refine ⟨⟨pend ++ [e.cur], fun l' hl' => ?_, ?_, ?_⟩, h.waits⟩
  · rcases mem_append.1 hl' with hl' | hl'
    · exact hne l' hl'
    · rwa [mem_singleton.1 hl']
  · rw [hl, map_append, map_singleton, ← append_assoc] at hbuf
    rw [contents_bufMark hbuf, flatMap_append, flatMap_singleton, hl, marks_append]
    simp
  · rw [flatten_append, flatten_append, ← append_assoc, htext]

theorem ends (h : Follows s e) (hcur : e.cur = []) :
    contents s.ibuf = [] ∨ ∃ l c, contents s.ibuf = l ++ [(c, true)] := by
  obtain ⟨pend, hne, hbuf, -⟩ := h.text
  rw [hcur, map_nil, append_nil] at hbuf
  rcases eq_nil_or_concat' pend with hp | ⟨pend', l, hp⟩
  · rw [hp] at hbuf
    exact .inl hbuf
  obtain ⟨l', c, hl⟩ := (eq_nil_or_concat' l).resolve_left (hne l (by simp [hp]))
  rw [hp, flatMap_append, flatMap_singleton, hl, marks_append, ← append_assoc] at hbuf
  exact .inr ⟨_, c, hbuf⟩

theorem of_contents (h : Follows s e) {b : Buf} (hb : contents b = contents s.ibuf) :
    Follows { s with ibuf := b } e := by
  obtain ⟨pend, hne, hbuf, htext⟩ := h.text
  exact ⟨⟨pend, hne, hb.trans hbuf, htext⟩, h.waits⟩

theorem mark_nil (h : Follows s e) (hcur : e.cur = []) : Follows { s with ibuf := bufMark s.ibuf TTY_BF_END } e := by
  refine h.of_contents ?_
  rcases h.ends hcur with hnil | ⟨l, c, hl⟩
  · rw [bufMark, if_pos (view_eq_nil.1 hnil)]
  · rw [contents_bufMark hl, hl]

/-- Waking the reader changes no line. -/
theorem unblock (h : Follows s e) : Follows (unblock s) e := by
  rw [Tty.unblock]
  split
  next =>
    refine ⟨h.text, fun rem got hr => ?_⟩
    cases hreader : s.reader with
    | idle => simp [hreader] at hr
    | blocked rem' got' =>
      rw [hreader] at hr
      obtain ⟨rfl, rfl⟩ : rem' = rem ∧ got' = got := by simpa using hr
      exact h.waits rem' got' (.inl hreader)
    | woken rem' got' =>
      rw [hreader] at hr
      obtain ⟨rfl, rfl⟩ : rem' = rem ∧ got' = got := by simpa using hr
      exact h.waits rem' got' (.inr hreader)
  next => exact h

/-- Erasing drops the last character of the line being typed. -/
theorem erase (h : Follows s e) : Follows { s with ibuf := bufErase s.ibuf } ⟨e.lines, e.cur.dropLast⟩ := by
  rcases eq_nil_or_concat' e.cur with hcur | ⟨l, c, hcur⟩
  · have hsame : (⟨e.lines, e.cur.dropLast⟩ : Edit) = e := by rw [hcur, dropLast_nil, ← hcur]
    rw [hsame]
    refine h.of_contents ?_
    rcases h.ends hcur with hnil | ⟨l, c, hl⟩
    · rw [bufErase_of_nil hnil]
    · rw [bufErase_concat hl, if_pos (view_concat hl).2.2.2]
  obtain ⟨pend, hne, hbuf, htext⟩ := h.text
  refine ⟨⟨pend, hne, ?_, htext⟩, h.waits⟩
  rw [hcur, map_append, map_singleton, ← append_assoc] at hbuf
  obtain ⟨-, hback, -, hf⟩ := view_concat hbuf
  rw [bufErase_concat hbuf, hf, hcur, dropLast_concat]
  exact hback

end Follows

theorem contents_iputc (h : bufRems s.ibuf ≠ 0) :
    iputc s c = { s with ibuf := bufPutc s.ibuf c } ∧ contents (bufPutc s.ibuf c) = contents s.ibuf ++
    [(c, false)] := by
  refine ⟨if_pos h, view_bufPutc isEnd c fun he => h ?_⟩
  have hh := s.ibuf.head_lt
  have ht := s.ibuf.tail_lt
  rw [TTY_BUFSIZ] at he hh ht
  rw [bufRems, TTY_BUFSIZ]
  omega

/-- The parts of `tty_feed`, by the use of the character. -/
def feedKey (tio : Termios) (s : Term) (c : Nat) : Key → Term
  | .eof => deliver s
  | .eol => deliver (iputc s 10)
  | .erase => { s with ibuf := bufErase s.ibuf }
  | .kill => if bufChrs s.ibuf = 0 then s else { s with ibuf := bufKill s.ibuf }
  | .sig => tsig tio s
  | .flow => s
  | .werase | .data => iputc s c

/-- One test of both in their order. -/
theorem ite_feedKey {tio : Termios} {s x y : Term} {p : Prop} [Decidable p] {k k' : Key} (hx : x = feedKey tio s c k)
    (hy : k' ≠ .werase → y = feedKey tio s c k') (h : (if p then k else k') ≠ .werase) :
    (if p then x else y) = feedKey tio s c (if p then k else k') := by
  by_cases hp : p
  · rw [if_pos hp, if_pos hp, hx]
  · rw [if_neg hp] at h
    rw [if_neg hp, if_neg hp, hy h]

theorem feedChar_eq (tio : Termios) (s : Term) (h : key tio c ≠ .werase) :
    feedChar tio s c = feedKey tio s c (key tio c) := by
  rw [key] at h ⊢
  rw [feedChar]
  revert h
  refine ite_feedKey rfl <| ite_feedKey rfl <| ite_feedKey rfl <| ite_feedKey rfl fun h => ?_
  -- `feedChar` has no test for word erase
  have hw : ¬ isCc tio.vwerase c = true := fun hw => h (if_pos hw)
  rw [if_neg hw] at h ⊢
  revert h
  exact ite_feedKey rfl <| ite_feedKey rfl <| ite_feedKey rfl <| ite_feedKey rfl <| ite_feedKey rfl fun _ => rfl

namespace Follows

/-- A character typed does to the lines what it says. -/
theorem feed (h : Follows s e) (hc : Careful tio s (.feed c)) : Follows (feed tio s c) (edit tio e c) := by
  rw [Tty.feed, edit]
  cases hin : inputByte tio c with
  | none => exact h
  | some c' =>
    have hc' := hc c' hin
    have hw : key tio c' ≠ .werase := fun hk => by
      rw [hk] at hc'
      exact hc'
    dsimp only
    rw [feedChar_eq tio s hw, editChar]
    cases hk : key tio c' with
    | eof =>
      dsimp only
      split
      next hcur => exact (h.mark_nil hcur).unblock
      next hcur => exact (h.mark hcur).unblock
    | eol =>
      rw [hk] at hc'
      obtain ⟨hput, hcont⟩ := contents_iputc (s := s) (c := 10) hc'
      dsimp only [feedKey]
      rw [hput]
      exact ((h.data hcont).mark (by simp)).unblock
    | erase => exact h.erase
    | kill =>
      rw [hk] at hc'
      dsimp only [feedKey]
      split
      next h0 =>
        exact h.kill hc' (eq_nil_of_length_eq_zero ((length_view isEnd s.ibuf).trans h0))
      next => exact h.kill hc' (view_bufKill isEnd s.ibuf)
    | werase => exact absurd hk hw
    | sig =>
      rw [hk] at hc'
      dsimp only [feedKey]
      rw [tsig]
      split
      next => exact h
      next hn => exact h.kill (hc'.resolve_left hn) (view_bufKill isEnd s.ibuf)
    | flow => exact h
    | data =>
      rw [hk] at hc'
      obtain ⟨hput, hcont⟩ := contents_iputc (s := s) (c := c') hc'
      dsimp only [feedKey]
      rw [hput]
      exact h.data hcont

/-- A read returns nothing from an empty buffer and a line's part otherwise. -/
theorem fetch (h : Follows s e) (hc : contents s.ibuf = [] ∨ hasLine s.ibuf = true) {rem : Nat} (hrem : 0 < rem) :
    (Tty.fetch rem s.ibuf [] = (s.ibuf, [], rem) ∧ contents s.ibuf = []) ∨
    ∃ b got, Tty.fetch rem s.ibuf [] = (b, got, 0) ∧ got ≠ [] ∧
      Follows { s with ibuf := b, reader := .idle, out := s.out ++ [got] } e := by
  obtain ⟨pend, hne, hbuf, htext⟩ := h.text
  rcases hc with hnil | hline
  · left
    obtain ⟨k, rfl⟩ : ∃ k, rem = k + 1 := ⟨rem - 1, by omega⟩
    exact ⟨by rw [Tty.fetch, bufGetc_eq_none hnil], hnil⟩
  right
  obtain ⟨l, rest, rfl⟩ := exists_cons_of_ne_nil ((hasLine_iff hne hbuf).1 hline)
  have hl := hne l mem_cons_self
  rw [flatMap_cons, append_assoc] at hbuf
  obtain ⟨b, hfetch, hb⟩ := fetch_line [] hbuf hl hrem
  refine ⟨b, l.take rem, hfetch, fun h0 => ?_, ?_, nofun⟩
  · rcases take_eq_nil_iff.1 h0 with h0 | h0
    · omega
    · exact hl h0
  have hsplit : (s.out ++ [l.take rem]).flatten ++ (l.drop rem ++ rest.flatten) = e.lines.flatten := by
    rw [flatten_append, flatten_singleton, append_assoc, ← append_assoc (l.take rem),
      take_append_drop]
    exact htext
  by_cases hd : l.drop rem = []
  · rw [hd] at hb hsplit
    exact ⟨rest, fun l' hl' => hne l' (mem_cons_of_mem _ hl'), hb, hsplit⟩
  refine ⟨l.drop rem :: rest, fun l' hl' => ?_, ?_, hsplit⟩
  · rcases mem_cons.1 hl' with rfl | hl'
    · exact hd
    · exact hne l' (mem_cons_of_mem _ hl')
  · rw [hb, flatMap_cons, append_assoc]

/-- A read delivers or waits. -/
theorem read (h : Follows s e) (hc : contents s.ibuf = [] ∨ hasLine s.ibuf = true) (len : Nat) :
    Follows (settle s (Tty.fetch len s.ibuf [])) e := by
  cases len with
  | zero =>
    obtain ⟨pend, hne, hbuf, htext⟩ := h.text
    exact ⟨⟨pend, hne, hbuf, by simpa [settle, Tty.fetch] using htext⟩, nofun⟩
  | succ len =>
    rcases h.fetch hc (Nat.succ_pos len) with ⟨hfetch, -⟩ | ⟨b, got, hfetch, -, hf⟩
    · rw [hfetch]
      refine ⟨h.text, fun rem got hr => ?_⟩
      obtain ⟨rfl, rfl⟩ : len + 1 = rem ∧ [] = got := by simpa [settle] using hr
      exact ⟨rfl, Nat.succ_pos len⟩
    · rw [hfetch]
      exact hf

/-- A reader that has been woken returns nothing at the end of the input, and otherwise goes on as if it had just
called. -/
theorem resume (h : Follows s e) (hc : contents s.ibuf = [] ∨ hasLine s.ibuf = true) {rem : Nat} {got : List Nat}
    (hr : s.reader = .woken rem got) : Follows (resume s rem got) e := by
  obtain ⟨rfl, hrem⟩ := h.waits rem got (.inr hr)
  obtain ⟨k, rfl⟩ : ∃ k, rem = k + 1 := ⟨rem - 1, by omega⟩
  rw [Tty.resume]
  cases hget : bufGetc s.ibuf with
  | none =>
    obtain ⟨pend, hne, hbuf, htext⟩ := h.text
    exact ⟨⟨pend, hne, hbuf, by simpa [settle] using htext⟩, nofun⟩
  | some x =>
    have hread := h.read hc (k + 1)
    rw [Tty.fetch, hget] at hread
    exact hread

/-- One event of the terminal is one of the lines. -/
theorem step (h : Follows s e) {o : Event} (ho : Careful tio s o) :
    ∃ s', step tio s o = some s' ∧ Follows s' (editEvent tio e o) := by
  cases o with
  | feed c => exact ⟨_, rfl, h.feed ho⟩
  | read len =>
    rw [Tty.step]
    cases hr : s.reader with
    | idle => exact ⟨_, rfl, h.read ho len⟩
    | blocked rem got => exact ⟨s, rfl, h⟩
    | woken rem got => exact ⟨s, rfl, h⟩
  | resume =>
    rw [Tty.step]
    cases hr : s.reader with
    | idle => exact ⟨s, rfl, h⟩
    | blocked rem got => exact ⟨s, rfl, h⟩
    | woken rem got => exact ⟨_, rfl, h.resume ho hr⟩

end Follows

/-! ## Runs -/

theorem foldl_editEvent (tio : Termios) (os : List Event) (e : Edit) :
    os.foldl (editEvent tio) e = (fed os).foldl (edit tio) e := by
  induction os generalizing e with
  | nil => rfl
  | cons o os ih =>
    cases o with
    | feed c => exact ih (edit tio e c)
    | read len => exact ih e
    | resume => exact ih e

/-- A terminal with an empty buffer. -/
def Term.init (b : Buf) : Term := ⟨b, false, .idle, []⟩

/-- **Canonical mode**: over every careful run of bytes and calls of a reader, the bytes that the reader has got and the
completed lines that are still in the buffer are the completed lines of the input, whenever the calls are made, and what
is behind them in the buffer is the line being typed. -/
theorem lines_read (tio : Termios) (b : Buf) (hb : b.head = b.tail) (os : List Event)
    (hos : Meets (step tio) (Careful tio) (Term.init b) os) : ∃ s', ∃ pend : List (List Nat),
    run (step tio) (Term.init b) os = some s' ∧
      s'.out.flatten ++ pend.flatten = ((fed os).foldl (edit tio) ⟨[], []⟩).lines.flatten ∧
      contents s'.ibuf = pend.flatMap marks ++ ((fed os).foldl (edit tio) ⟨[], []⟩).cur.map (·, false) := by
  have h0 : Follows (Term.init b) ⟨[], []⟩ := ⟨⟨[], by simp, view_of_eq hb, rfl⟩, nofun⟩
  obtain ⟨s', hr, hf⟩ := run_meets_sim (fun _ _ _ hf hc => hf.step hc) h0 hos
  rw [foldl_editEvent] at hf
  obtain ⟨pend, -, hbuf, htext⟩ := hf.text
  exact ⟨s', pend, hr, htext, hbuf⟩

def emptyBuf : Buf := ⟨fun _ => 0, fun _ => 0, 0, 0, bufsiz_pos, bufsiz_pos⟩

/-- `ab`, erase, `c` and newline, of which two bytes are read; then `de`, kill, end of file, and the rest is read. -/
def typed : List Event :=
  [.read 2, .feed 97, .feed 98, .feed 127, .feed 99, .feed 10, .resume, .read 9, .feed 100, .feed 101,
  .feed 21, .feed 102,
    .feed 4, .feed 103, .read 9]

theorem lines_read_typed : ∃ s', ∃ pend : List (List Nat), run (step defaultTermios)
    (Term.init emptyBuf) typed = some s' ∧ s'.out.flatten ++ pend.flatten = [97, 99, 10, 102] ∧
    contents s'.ibuf = pend.flatMap marks ++ [(103, false)] := by
  have h := lines_read defaultTermios emptyBuf rfl typed (by decide +kernel)
  exact h

/-- A line is completed, and kill is typed in the next one: nothing is left to be read. A line is read before it is
complete: the character that is erased afterwards has been read. -/
theorem lines_lost : (run (step defaultTermios) (Term.init emptyBuf) [.feed 97, .feed 10, .feed 98, .feed 21]).map
        (fun s => (contents s.ibuf, s.out)) = some ([], []) ∧
      [97, 10, 98, 21].foldl (edit defaultTermios) ⟨[], []⟩ = ⟨[[97, 10]], []⟩ ∧
    (run (step defaultTermios) (Term.init emptyBuf) [.feed 97, .read 1, .feed 127, .feed 98, .feed 10]).map
        (fun s => (contents s.ibuf, s.out)) = some ([(98, false), (10, true)], [[97]]) ∧
      [97, 127, 98, 10].foldl (edit defaultTermios) ⟨[], []⟩ = ⟨[[98, 10]], []⟩ := by
  decide +kernel

end TextOS.Tty
