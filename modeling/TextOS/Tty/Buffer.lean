import TextOS.Lib.Ring
import Mathlib.Data.List.DropRight
import Mathlib.Logic.Function.Basic

/-!
# The input buffer of a terminal: `kernel/dev/tty/tty_buffer.c`

Characters are put at `head` and taken at `tail`; each has flags, of which `TTY_BF_END` says that it ends a line. `view
g` is what is in the buffer with the flags as `g` sees them, and each function has one lemma that says what it does to
it.

- **The buffer is a bounded list of characters with flags** over every run of calls (`buf_calls`).
-/

namespace TextOS.Tty

open Lib List Function

def TTY_BUFSIZ : Nat := 4096

def TTY_BF_END : UInt8 := 1

def isEnd (f : UInt8) : Bool := f &&& TTY_BF_END != 0

/-- `tty_buf_t`. -/
structure Buf where
  buf : Nat → Nat
  flags : Nat → UInt8
  head : Nat
  tail : Nat
  head_lt : head < TTY_BUFSIZ
  tail_lt : tail < TTY_BUFSIZ

theorem bufsiz_pos : 0 < TTY_BUFSIZ := by decide

/-- `tty_buf_chrs`. -/
def bufChrs (b : Buf) : Nat := (b.head + TTY_BUFSIZ - b.tail) % TTY_BUFSIZ

/-- `tty_buf_rems`. -/
def bufRems (b : Buf) : Nat := (b.tail + TTY_BUFSIZ - b.head - 1) % TTY_BUFSIZ

/-- `tty_buf_putc`. -/
def bufPutc (b : Buf) (c : Nat) : Buf :=
  if (b.head + 1) % TTY_BUFSIZ = b.tail then b
  else
    { b with
      buf := update b.buf b.head c
      flags := update b.flags b.head 0
      head := (b.head + 1) % TTY_BUFSIZ
      head_lt := Nat.mod_lt _ bufsiz_pos }

/-- `tty_buf_getc`: the character, its flags and the buffer without it. -/
def bufGetc (b : Buf) : Option (Nat × UInt8 × Buf) :=
  if b.head = b.tail then none
  else some (b.buf b.tail, b.flags b.tail,
    { b with tail := (b.tail + 1) % TTY_BUFSIZ, tail_lt := Nat.mod_lt _ bufsiz_pos })

/-- The place before `head`. -/
def bufPrev (b : Buf) : Nat := (b.head + TTY_BUFSIZ - 1) % TTY_BUFSIZ

/-- Without the newest character. -/
def bufBack (b : Buf) : Buf := { b with head := bufPrev b, head_lt := Nat.mod_lt _ bufsiz_pos }

/-- `tty_buf_mark`. -/
def bufMark (b : Buf) (flag : UInt8) : Buf :=
  if b.head = b.tail then b else { b with flags := update b.flags (bufPrev b) (b.flags (bufPrev b) ||| flag) }

/-- `tty_buf_kill`, and `tty_buf_init`. -/
def bufKill (b : Buf) : Buf := { b with head := 0, tail := 0, head_lt := bufsiz_pos, tail_lt := bufsiz_pos }

/-- `tty_buf_erase`. -/
def bufErase (b : Buf) : Buf :=
  if b.head = b.tail then b
  else if isEnd (b.flags (bufPrev b)) then b
  else bufBack b

def isspace (c : Nat) : Bool := c == 32 || c == 12 || c == 10 || c == 13 || c == 9 || c == 11

/-! ## Contents -/

variable {β : Type} {g : UInt8 → β} {b : Buf} {l : List (Nat × β)} {c : Nat} {e : β}

/-- The characters in the buffer with their flags, the oldest one first. -/
def view (g : UInt8 → β) (b : Buf) : List (Nat × β) :=
  (ringOf TTY_BUFSIZ b.tail b.head).map fun i => (b.buf i, g (b.flags i))

/-- The characters, each with whether it ends a line. -/
def contents (b : Buf) : List (Nat × Bool) := view isEnd b

theorem length_view (g : UInt8 → β) (b : Buf) : (view g b).length = bufChrs b := by
  rw [view, length_map, ringOf, length_map, length_range, fill, bufChrs]

theorem view_of_eq (h : b.head = b.tail) : view g b = [] := by rw [view, h, ringOf_self, map_nil]

theorem view_back (h : b.head ≠ b.tail) :
    view g b = view g (bufBack b) ++ [(b.buf (bufPrev b), g (b.flags (bufPrev b)))] := by
  rw [view, ringOf_back b.tail_lt b.head_lt h, map_append, map_singleton]
  simp only [view, bufBack, bufPrev]

theorem view_eq_nil : view g b = [] ↔ b.head = b.tail := by
  refine ⟨fun h => ?_, view_of_eq⟩
  by_contra hne
  rw [view_back hne] at h
  simp at h

theorem view_concat (h : view g b = l ++ [(c, e)]) : b.head ≠ b.tail ∧ view g (bufBack b) = l ∧
    b.buf (bufPrev b) = c ∧ g (b.flags (bufPrev b)) = e := by
  have hne : b.head ≠ b.tail := fun he => by
    rw [view_of_eq he] at h
    simp at h
  rw [view_back hne] at h
  obtain ⟨hl, hc⟩ := append_inj' h rfl
  exact ⟨hne, hl, Prod.mk.inj (List.cons.inj hc).1⟩

theorem view_bufKill (g : UInt8 → β) (b : Buf) : view g (bufKill b) = [] := view_of_eq rfl

theorem view_bufPutc (g : UInt8 → β) (c : Nat) (h : (b.head + 1) % TTY_BUFSIZ ≠ b.tail) :
    view g (bufPutc b c) = view g b ++ [(c, g 0)] := by
  rw [bufPutc, if_neg h, view, view]
  dsimp only
  rw [ringOf_push b.tail_lt b.head_lt h, map_append, map_singleton, update_self, update_self]
  congr 1
  refine map_congr_left fun i hi => ?_
  have hne := ne_head_of_mem_ringOf b.tail_lt b.head_lt hi
  rw [update_of_ne hne, update_of_ne hne]

theorem bufGetc_eq_none (h : view g b = []) : bufGetc b = none := if_pos (view_eq_nil.1 h)

theorem bufGetc_eq_some (h : view g b = (c, e) :: l) :
    ∃ f b', bufGetc b = some (c, f, b') ∧ g f = e ∧ view g b' = l := by
  have hne : b.head ≠ b.tail := fun he => by
    rw [view_of_eq he] at h
    cases h
  rw [view, ringOf_pop b.tail_lt b.head_lt hne, map_cons, List.cons.injEq, Prod.mk.injEq] at h
  obtain ⟨⟨hc, he⟩, hl⟩ := h
  rw [bufGetc, if_neg hne, hc]
  exact ⟨_, _, rfl, he, hl⟩

theorem view_bufMark (h : view g b = l ++ [(c, e)]) (f : UInt8) :
    view g (bufMark b f) = l ++ [(c, g (b.flags (bufPrev b) ||| f))] := by
  obtain ⟨hne, hl, hc, -⟩ := view_concat h
  have hprev : bufPrev b < TTY_BUFSIZ := Nat.mod_lt _ bufsiz_pos
  rw [bufMark, if_neg hne, ← hl, ← hc, view, view]
  dsimp only [bufBack]
  rw [ringOf_back b.tail_lt b.head_lt hne, map_append, map_singleton, ← bufPrev, update_self]
  congr 1
  refine map_congr_left fun i hi => ?_
  rw [update_of_ne (ne_head_of_mem_ringOf b.tail_lt hprev hi)]

theorem bufErase_of_nil (h : view g b = []) : bufErase b = b := if_pos (view_eq_nil.1 h)

theorem bufErase_concat (h : view g b = l ++ [(c, e)]) : bufErase b = if isEnd (b.flags (bufPrev b)) then b
    else bufBack b :=
  if_neg (view_concat h).1

theorem chrs_add_rems (b : Buf) : bufChrs b + bufRems b = TTY_BUFSIZ - 1 := by
  have hh := b.head_lt
  have ht := b.tail_lt
  rw [bufChrs, bufRems]
  rw [TTY_BUFSIZ] at *
  omega

/-! ## Words -/

theorem bufChrs_bufBack (h : b.head ≠ b.tail) : bufChrs b = bufChrs (bufBack b) + 1 := by
  rw [← length_view id, ← length_view id, view_back h, length_append, length_singleton]

/-- A loop of `tty_buf_erasew`: characters are erased while they satisfy `p`. -/
def eraseWhile (p : Nat → Bool) (b : Buf) (count : Nat) : Buf × Nat :=
  if h : b.head = b.tail then (b, count)
  else if isEnd (b.flags (bufPrev b)) then (b, count)
  else if !p (b.buf (bufPrev b)) then (b, count)
  else eraseWhile p (bufBack b) (count + 1)
termination_by bufChrs b
decreasing_by rw [bufChrs_bufBack h]; omega

/-- `tty_buf_erasew`: the spaces, then the word before them. -/
def bufErasew (b : Buf) : Buf × Nat :=
  let r := eraseWhile isspace b 0
  eraseWhile (fun c => !isspace c) r.1 r.2

/-- A character that `eraseWhile p` erases. -/
def erasable (p : Nat → Bool) (x : Nat × UInt8) : Bool := !isEnd x.2 && p x.1

/-- Erasing while a test holds drops a tail of the line. -/
theorem eraseWhile_spec (p : Nat → Bool) (b : Buf) (count : Nat) :
    view id (eraseWhile p b count).1 = (view id b).rdropWhile (erasable p) ∧
      (eraseWhile p b count).2 + bufChrs (eraseWhile p b count).1 = count + bufChrs b := by
  fun_induction eraseWhile p b count with
  | case1 b count h => rw [view_of_eq h]; exact ⟨rfl, rfl⟩
  | case2 b count h hend =>
    rw [view_back h, rdropWhile_concat_neg _ _ _ (by simp [erasable, hend])]
    exact ⟨rfl, rfl⟩
  | case3 b count h hend hp =>
    rw [view_back h, rdropWhile_concat_neg _ _ _ (by simp_all [erasable])]
    exact ⟨rfl, rfl⟩
  | case4 b count h hend hp ih =>
    rw [view_back h, rdropWhile_concat_pos _ _ _ (by simp_all [erasable]), bufChrs_bufBack h]
    exact ⟨ih.1, by omega⟩

/-! ## Runs -/

inductive BufOp
  | putc (c : Nat)
  | getc
  | mark (flag : UInt8)
  | erase
  | erasew
  | kill

/-- A call: the buffer after it, what it returns, and the character that it stores. -/
def bufCall (b : Buf) : BufOp → Buf × Int × Option Nat
  | .putc c => (bufPutc b c, if (b.head + 1) % TTY_BUFSIZ = b.tail then -1 else 0, none)
  | .getc =>
    match bufGetc b with
    | none => (b, -1, none)
    | some (c, f, b') => (b', f.toNat, some c)
  | .mark flag => (bufMark b flag, if b.head = b.tail then -1 else 0, none)
  | .erase => (bufErase b, if b.head = b.tail then -1 else 0, none)
  | .erasew => ((bufErasew b).1, (bufErasew b).2, none)
  | .kill => (bufKill b, 0, none)

/-- The same call on a list of characters with flags. -/
def listCall (l : List (Nat × UInt8)) : BufOp → List (Nat × UInt8) × Int × Option Nat
  | .putc c => if l.length = TTY_BUFSIZ - 1 then (l, -1, none) else (l ++ [(c, 0)], 0, none)
  | .getc =>
    match l with
    | [] => ([], -1, none)
    | (c, f) :: l => (l, f.toNat, some c)
  | .mark flag => (l.dropLast ++ l.getLast?.toList.map fun x => (x.1, x.2 ||| flag), if l = [] then -1 else 0, none)
  | .erase => (if l.getLast?.any fun x => isEnd x.2 then l else l.dropLast, if l = [] then -1 else 0, none)
  | .erasew =>
    let l' := (l.rdropWhile (erasable isspace)).rdropWhile (erasable fun c => !isspace c)
    (l', l.length - l'.length, none)
  | .kill => ([], 0, none)

/-- Calls one after another: the last state and what they gave. -/
def calls {σ ρ : Type} (call : σ → BufOp → σ × ρ) : σ → List BufOp → σ × List ρ
  | s, [] => (s, [])
  | s, o :: os => ((calls call (call s o).1 os).1, (call s o).2 :: (calls call (call s o).1 os).2)

/-- Every call on the ring is the call on the list. -/
theorem bufCall_eq (b : Buf) (o : BufOp) : (view id (bufCall b o).1, (bufCall b o).2) = listCall (view id b) o := by
  have hemp : ∀ x y : Int, (if b.head = b.tail then x else y) = if view id b = [] then x else y := fun x y =>
    if_congr view_eq_nil.symm rfl rfl
  cases o with
  | putc c =>
    have hfull : (b.head + 1) % TTY_BUFSIZ = b.tail ↔ (view id b).length = TTY_BUFSIZ - 1 := by
      have ht := b.tail_lt
      rw [length_view, bufChrs]
      rw [TTY_BUFSIZ] at *
      omega
    rw [bufCall, listCall]
    by_cases h : (b.head + 1) % TTY_BUFSIZ = b.tail
    · rw [if_pos h, if_pos (hfull.1 h), bufPutc, if_pos h]
    · rw [if_neg h, if_neg fun hl => h (hfull.2 hl), view_bufPutc id c h]
      rfl
  | getc =>
    rw [bufCall]
    cases hl : view id b with
    | nil =>
      rw [bufGetc_eq_none hl]
      exact Prod.ext hl rfl
    | cons x l =>
      obtain ⟨f, b', hget, rfl, rfl⟩ := bufGetc_eq_some hl
      rw [hget]
      rfl
  | mark flag =>
    rw [bufCall, listCall, hemp]
    rcases eq_nil_or_concat' (view id b) with hl | ⟨l, ⟨c, f⟩, hl⟩
    · rw [bufMark, if_pos (view_eq_nil.1 hl), hl]
      rfl
    · rw [view_bufMark hl, hl, ← (view_concat hl).2.2.2]
      simp
  | erase =>
    rw [bufCall, listCall, hemp]
    rcases eq_nil_or_concat' (view id b) with hl | ⟨l, ⟨c, f⟩, hl⟩
    · rw [bufErase_of_nil hl, hl]
      rfl
    obtain ⟨-, hback, -, rfl⟩ := view_concat hl
    rw [bufErase_concat hl, apply_ite (view id), hback, hl]
    simp
  | erasew =>
    obtain ⟨h1, hn1⟩ := eraseWhile_spec isspace b 0
    obtain ⟨h2, hn2⟩ := eraseWhile_spec (fun c => !isspace c) (eraseWhile isspace b 0).1 (eraseWhile isspace b 0).2
    rw [bufCall, listCall, bufErasew]
    dsimp only
    rw [← h1, ← h2, length_view, length_view]
    congr 2
    omega
  | kill => rw [bufCall, view_bufKill, listCall]

theorem calls_eq : ∀ (os : List BufOp) (b : Buf),
    (view id (calls bufCall b os).1, (calls bufCall b os).2) = calls listCall (view id b) os
  | [], _ => rfl
  | o :: os, b => by
    rw [calls, calls, ← bufCall_eq, ← calls_eq os]

/-- Characters are taken at the newest end, none with `TTY_BF_END`. -/
def Erases (b b' : Buf) : Prop := ∃ t, view id b = view id b' ++ t ∧ ∀ x ∈ t, isEnd x.2 = false

theorem Erases.trans {b b' b'' : Buf} : Erases b b' → Erases b' b'' → Erases b b''
  | ⟨t, h, ht⟩, ⟨t', h', ht'⟩ =>
    ⟨t' ++ t, by rw [h, h', append_assoc], fun x hx => (mem_append.1 hx).elim (ht' x) (ht x)⟩

theorem eraseWhile_erases (p : Nat → Bool) (b : Buf) (count : Nat) : Erases b (eraseWhile p b count).1 := by
  refine ⟨(view id b).rtakeWhile (erasable p), ?_, fun x hx => ?_⟩
  · rw [(eraseWhile_spec p b count).1, rdropWhile_append_rtakeWhile]
  have hx := mem_rtakeWhile_imp hx
  rw [erasable, Bool.and_eq_true, Bool.not_eq_true'] at hx
  exact hx.1

theorem bufErase_erases (b : Buf) : Erases b (bufErase b) := by
  have hnone : Erases b b := ⟨[], (append_nil _).symm, nofun⟩
  rw [bufErase]
  split_ifs with h hend
  · exact hnone
  · exact hnone
  · exact ⟨_, view_back h, fun x hx => by simpa [mem_singleton.1 hx] using hend⟩

/-- **The ring is a bounded list**: over every sequence of calls on an initialised buffer, the characters in it with
their flags, and all that the calls return, are those of the same calls on a list; what is in it and the space left are
`TTY_BUFSIZ - 1` together; and what erasing takes is at the newest end and without `TTY_BF_END`. -/
theorem buf_calls (b : Buf) (os : List BufOp) : ∃ b' rs, calls bufCall (bufKill b) os = (b', rs) ∧
    calls listCall [] os = (view id b', rs) ∧ bufChrs b' = (view id b').length ∧
    bufChrs b' + bufRems b' = TTY_BUFSIZ - 1 ∧ Erases b' (bufErase b') ∧ Erases b' (bufErasew b').1 := by
  refine ⟨_, _, rfl, ?_, (length_view id _).symm, chrs_add_rems _, bufErase_erases _,
    (eraseWhile_erases ..).trans (eraseWhile_erases ..)⟩
  rw [← view_bufKill id b, ← calls_eq]

end TextOS.Tty
