import TextOS.Lib.Fields

/-!
# The kernel command line: `kernel/cmdline.c`

A string in memory is a list of characters with its final 0, and nothing behind it can be read: `none` stands for a read
beyond the 0. A pointer into the command line is a position.

- `firstHit`: the line from the first token on at which `key_cmp` succeeds; `cmdlineSearch_eq`: what a search does;
- **`cmdline_search` tells whether a token is for the key, and where its value stands, if and only if this token is the
  right one** (`search_finds`); a flag that is not the last token is not found, a part of a key is taken for it, and a
  search without success reads beyond the line (`search_wrong`).
-/

namespace TextOS.Cmdline

open Lib List Option

/-! ## The code -/

/-- The loop of `strchrnul` from the position `str` on. -/
def strchrnulFrom (c : Char) (str : Nat) : List Char → Option Nat
  | [] => none
  | b :: rest => if b = c then some str else if b = '\x00' then some str else strchrnulFrom c (str + 1) rest

def strchrnul (mem : List Char) (str : Nat) (c : Char) : Option Nat := strchrnulFrom c str (mem.drop str)

/-- The loop of `key_cmp`. -/
def keyCmpFrom : List Char → List Char → Option Bool
  | [], _ => none
  | b :: str, key =>
    if b ≠ '=' ∧ b ≠ '\x00' then
      match key with
      | [] => none
      | k :: key => if b ≠ k then some false else keyCmpFrom str key
    else some true

def keyCmp (mem : List Char) (str : Nat) (key : List Char) : Option Bool := keyCmpFrom (mem.drop str) key

/-- What `cmdline_search` returns, and what it stores at `v` and `vend`: nothing, two `NULL`s or two pointers. -/
inductive Answer
  | no
  | yes
  | yesAt (v : Option (Nat × Nat))
deriving DecidableEq

/-- The loop of `cmdline_search`, at most `fuel` times; `want`: neither `v` nor `vend` is `NULL`. -/
def searchLoop (want : Bool) (mem key : List Char) : Nat → Nat → Option Answer
  | 0, _ => none
  | fuel + 1, s => do
    if (← mem[s]?) = '\x00' then return .no
    let s := (← strchrnul mem s ' ') + 1
    if (← mem[s]?) = '\x00' then return .no
    if ← keyCmp mem s key then
      if !want then return .yes
      let space ← strchrnul mem s ' '
      let equal ← strchrnul mem s '='
      if equal < space then return .yesAt (some (equal + 1, space))
      return .yesAt none
    searchLoop want mem key fuel s

/-- Each turn of the loop moves on by at least one character, and it reads one. -/
def cmdlineSearch (want : Bool) (cmdline key : List Char) : Option Answer :=
  searchLoop want cmdline key (cmdline.length + 1) 0

/-! ## Tokens -/

/-- `tok` is a token of the line with a space in front of it, and `pre` stands before this space. -/
def IsToken (line pre tok : List Char) : Prop :=
  ' ' ∉ tok ∧ ∃ rest, line = pre ++ ' ' :: (tok ++ rest) ∧ (rest = [] ∨ rest.head? = some ' ')

/-- The token is for the key. -/
def IsFor (key tok : List Char) : Prop := tok = key ∨ ∃ val, tok = key ++ '=' :: val

/-- A token after the first is for the key. -/
def Has (line key : List Char) : Prop := ∃ pre tok, IsToken line pre tok ∧ IsFor key tok

/-- The line from the first token on that `key_cmp` takes for the key: all up to the next `=`, or else up to the end of
the line, is the start of the key. -/
def firstHit (key : List Char) : List Char → Option (List Char)
  | [] => none
  | c :: l => if c = ' ' ∧ l ≠ [] ∧ field '=' l <+: key then some l else firstHit key l

variable {line key l w pre tok : List Char}

theorem read_eq (pre l : List Char) : (pre ++ l ++ ['\x00'])[pre.length]? = some (l.headD '\x00') := by
  rw [append_assoc, getElem?_append_right le_rfl, Nat.sub_self]
  cases l <;> rfl

theorem headD_ne (hne : l ≠ []) (h : '\x00' ∉ l) : l.headD '\x00' ≠ '\x00' := by
  cases l with
  | nil => exact absurd rfl hne
  | cons a l => exact fun ha => h (ha ▸ mem_cons_self)

theorem strchrnulFrom_eq (c : Char) : ∀ (l : List Char) (str : Nat) (rest : List Char), '\x00' ∉ l →
    strchrnulFrom c str (l ++ '\x00' :: rest) = some (str + (field c l).length)
  | [], str, rest, _ => by simp [strchrnulFrom, field]
  | b :: l, str, rest, h => by
    obtain ⟨hb, hl⟩ := not_or.1 (mt mem_cons.2 h)
    rw [cons_append, strchrnulFrom, if_neg (Ne.symm hb), strchrnulFrom_eq c l (str + 1) rest hl, field, field,
      takeWhile_cons]
    by_cases hbc : b = c
    · simp [hbc]
    · simp [hbc]
      omega

/-- **`strchrnul`** finds the end of the characters other than `c`. -/
theorem strchrnul_eq (pre : List Char) (c : Char) (h : '\x00' ∉ l) :
    strchrnul (pre ++ l ++ ['\x00']) pre.length c = some (pre.length + (field c l).length) := by
  rw [strchrnul, append_assoc, drop_left, strchrnulFrom_eq c l _ _ h]

/-- A key compares equal if the word's name is a beginning of it. -/
theorem keyCmpFrom_eq : ∀ (l key : List Char), '\x00' ∉ l →
    keyCmpFrom (l ++ ['\x00']) (key ++ ['\x00']) = some (decide (field '=' l <+: key))
  | [], key, _ => by simp [keyCmpFrom, field]
  | b :: l, key, h => by
    obtain ⟨hb, hl⟩ := not_or.1 (mt mem_cons.2 h)
    rw [cons_append, field, takeWhile_cons]
    unfold keyCmpFrom
    by_cases hbe : b = '='
    · simp [hbe]
    rw [if_pos ⟨hbe, Ne.symm hb⟩]
    cases key with
    | nil => simp [hbe, Ne.symm hb]
    | cons k key =>
      rw [cons_append]
      dsimp only
      by_cases hbk : b = k
      · subst hbk
        rw [if_neg (not_not.2 rfl), keyCmpFrom_eq l key hl]
        simp [hbe, field]
      · simp [hbk, hbe]

/-- **`key_cmp`** compares up to the next `=`, or else to the end of the line. -/
theorem keyCmp_eq (h : '\x00' ∉ l) :
    keyCmp (pre ++ l ++ ['\x00']) pre.length (key ++ ['\x00']) = some (decide (field '=' l <+: key)) := by
  rw [keyCmp, append_assoc, drop_left, keyCmpFrom_eq l key h]

theorem firstHit_append (hw : ' ' ∉ w) (l : List Char) :
    firstHit key (w ++ ' ' :: l) = if l ≠ [] ∧ field '=' l <+: key then some l else firstHit key l := by
  induction w with
  | nil => simp [firstHit]
  | cons c w ih =>
    obtain ⟨hc, hw⟩ := not_or.1 (mt mem_cons.2 hw)
    rw [cons_append, firstHit, if_neg fun h => hc h.1.symm, ih hw]

theorem firstHit_eq_none (h : ' ' ∉ l) : firstHit key l = none := by
  induction l with
  | nil => rfl
  | cons c l ih =>
    obtain ⟨hc, hl⟩ := not_or.1 (mt mem_cons.2 h)
    rw [firstHit, if_neg fun h => hc h.1.symm, ih hl]

theorem exists_of_firstHit : ∀ {line : List Char}, firstHit key line = some l →
    ∃ w, line = w ++ ' ' :: l ∧ field '=' l <+: key
  | c :: line, h => by
    rw [firstHit] at h
    split at h
    next hc =>
      cases h
      exact ⟨[], by rw [hc.1]; rfl, hc.2.2⟩
    next =>
      obtain ⟨w, rfl, hkey⟩ := exists_of_firstHit h
      exact ⟨c :: w, rfl, hkey⟩

/-- What is returned and stored for a token that is taken for the key; `l` is the line from it on, at `start`. -/
def answer (want : Bool) (start : Nat) (l : List Char) : Answer :=
  if want then
    .yesAt (if (field '=' l).length < (field ' ' l).length then
      some (start + (field '=' l).length + 1, start + (field ' ' l).length) else none)
  else .yes

/-- One turn: the next word is answered or passed over. -/
theorem searchLoop_turn (want : Bool) (fuel : Nat) (hw : ' ' ∉ w) (hne : l ≠ []) (hl : '\x00' ∉ w ++ ' ' :: l) :
    searchLoop want (pre ++ (w ++ ' ' :: l) ++ ['\x00']) (key ++ ['\x00']) (fuel + 1) pre.length =
      if field '=' l <+: key then some (answer want (pre.length + w.length + 1) l)
      else searchLoop want (pre ++ w ++ [' '] ++ l ++ ['\x00']) (key ++ ['\x00']) fuel (pre ++ w ++ [' ']).length := by
  have hmem : pre ++ (w ++ ' ' :: l) ++ ['\x00'] = pre ++ w ++ [' '] ++ l ++ ['\x00'] := by simp
  have hlen : pre.length + w.length + 1 = (pre ++ w ++ [' ']).length := by simp [Nat.add_assoc]
  have hl' : '\x00' ∉ l := fun h => hl (by simp [h])
  have hread := read_eq pre (w ++ ' ' :: l)
  have hread' := read_eq (pre ++ w ++ [' ']) l
  have hfirst := headD_ne (by simp) hl
  have hsecond := headD_ne hne hl'
  have hspace := strchrnul_eq pre ' ' hl
  rw [field_append hw] at hspace
  rw [searchLoop, hread, bind_eq_bind, bind_some, if_neg hfirst, hspace, bind_eq_bind, bind_some, hlen,
    hmem]
  dsimp only
  rw [hread', bind_some, if_neg hsecond, keyCmp_eq hl', strchrnul_eq _ _ hl', strchrnul_eq _ _ hl']
  by_cases hkey : field '=' l <+: key
  · cases want
    · simp [hkey, answer]
    · by_cases hlt : (field '=' l).length < (field ' ' l).length <;> simp [hkey, hlt, answer]
  · simp [hkey]

theorem searchLoop_end (want : Bool) (fuel : Nat) (hw : ' ' ∉ w) (hl : '\x00' ∉ w ++ [' ']) :
    searchLoop want (pre ++ (w ++ [' ']) ++ ['\x00']) (key ++ ['\x00']) (fuel + 1) pre.length = some .no := by
  have hspace := strchrnul_eq pre ' ' hl
  rw [field_append hw] at hspace
  have hread' := read_eq (pre ++ (w ++ [' '])) []
  rw [append_nil, length_append, length_append, length_singleton, ← Nat.add_assoc] at hread'
  rw [searchLoop, read_eq, bind_eq_bind, bind_some, if_neg (headD_ne (by simp) hl), hspace, bind_eq_bind,
    bind_some]
  dsimp only
  rw [hread', bind_some]
  exact if_pos rfl

/-- **The loop**, at the start of what is left of the line. -/
theorem searchLoop_eq (key : List Char) (want : Bool) : ∀ (fuel : Nat) (pre l : List Char),
    l.length < fuel → '\x00' ∉ l → searchLoop want (pre ++ l ++ ['\x00']) (key ++ ['\x00']) fuel pre.length =
      match firstHit key l with
      | some t => some (answer want (pre.length + (l.length - t.length)) t)
      | none => if l = [] ∨ l.getLast? = some ' ' then some .no else none := by
  intro fuel
  induction fuel with
  | zero => exact fun pre l hfuel => absurd hfuel (Nat.not_lt_zero _)
  | succ fuel ih =>
    intro pre l hfuel hl
    by_cases hsp : ' ' ∈ l
    · obtain ⟨w, l, rfl, hw⟩ := eq_append_cons_of_mem hsp
      rw [firstHit_append hw]
      by_cases hne : l = []
      · -- the line ends with this space
        subst hne
        rw [searchLoop_end want fuel hw hl]
        simp [firstHit]
      rw [searchLoop_turn want fuel hw hne hl]
      by_cases hkey : field '=' l <+: key
      · rw [if_pos hkey, if_pos ⟨hne, hkey⟩]
        simp only [length_append, length_cons]
        congr 2
        omega
      · have hlast : (w ++ ' ' :: l).getLast? = l.getLast? := by
          rw [append_cons, getLast?_append_of_ne_nil _ hne]
        rw [if_neg hkey, if_neg fun h => hkey h.2, ih _ _ (by simp at hfuel; omega) fun hm => hl (by simp [hm]), hlast]
        cases hhit : firstHit key l with
        | none => simp [hne]
        | some t =>
          obtain ⟨w', rfl, -⟩ := exists_of_firstHit hhit
          simp only [length_append, length_cons, length_nil]
          congr 2
          omega
    · rw [firstHit_eq_none hsp]
      dsimp only
      by_cases hne : l = []
      · subst hne
        rw [if_pos (.inl rfl), searchLoop, read_eq]
        rfl
      · -- the last token: what is read next lies beyond the line
        have hlast : ¬ (l = [] ∨ l.getLast? = some ' ') := not_or.2 ⟨hne, fun h => hsp (mem_of_getLast? h)⟩
        have hread : (pre ++ l ++ ['\x00'])[pre.length + l.length + 1]? = none := by
          rw [List.getElem?_eq_none_iff, length_append, length_append, length_singleton]
        rw [if_neg hlast, searchLoop, read_eq, bind_eq_bind, bind_some, if_neg (headD_ne hne hl),
          strchrnul_eq pre ' ' hl, bind_eq_bind, bind_some, field_eq_self hsp]
        dsimp only
        rw [hread]
        rfl

/-- **What a search does.** -/
theorem cmdlineSearch_eq (want : Bool) (hline : '\x00' ∉ line) :
    cmdlineSearch want (line ++ ['\x00']) (key ++ ['\x00']) =
      match firstHit key line with
      | some t => some (answer want (line.length - t.length) t)
      | none => if line = [] ∨ line.getLast? = some ' ' then some .no else none := by
  have h := searchLoop_eq key want ((line ++ ['\x00']).length + 1) [] line (by simp) hline
  simp only [nil_append, length_nil, Nat.zero_add] at h
  exact h

/-- The answer is right: true if and only if a token after the first is for the key, and `v` and `vend` as for such a
token. -/
structure Answers (line key : List Char) (want : Bool) (r : Answer) : Prop where
  found : r ≠ .no ↔ Has line key
  stored : want = true → r ≠ .yes
  value : ∀ v, r = .yesAt v → ∃ pre tok, IsToken line pre tok ∧ (tok = key ∧ v = none ∨
    ∃ val, tok = key ++ '=' :: val ∧ v = some (pre.length + 1 + key.length + 1, pre.length + 1 + tok.length))

/-- The name of a token is taken for the key: it is the key. -/
theorem name_eq {more rest : List Char} (hkey : l <+: key) (htok : ' ' ∉ key)
    (h : w ++ ' ' :: (l ++ more) = pre ++ ' ' :: (key ++ rest)) (hlen : pre.length + key.length = w.length + l.length) :
    l = key := by
  have hle := hkey.length_le
  have hpre : ¬ pre.length < w.length := by
    intro hlt
    -- the space in front of `l` would lie in the key
    have hat : (w ++ ' ' :: (l ++ more))[w.length]? = some ' ' := by simp
    rw [h, getElem?_append_right hlt.le] at hat
    obtain ⟨k, hk⟩ : ∃ k, w.length - pre.length = k + 1 := ⟨w.length - pre.length - 1, by omega⟩
    rw [hk, getElem?_cons_succ, getElem?_append_left (by omega)] at hat
    exact htok (mem_of_getElem? hat)
  exact hkey.eq_of_length (by omega)

theorem length_field_lt (l : List Char) : (field '=' l).length < (field ' ' l).length ↔ '=' ∈ field ' ' l := by
  induction l with
  | nil => simp [field]
  | cons c l ih =>
    unfold field at ih ⊢
    by_cases hsp : c = ' '
    · simp [hsp]
    by_cases heq : c = '='
    · simp [heq]
    · simp only [takeWhile_cons, ne_eq, hsp, heq, not_false_eq_true, decide_true, if_true, length_cons, mem_cons,
        Ne.symm heq, false_or, Nat.add_lt_add_iff_right]
      exact ih

/-- A token with a name and a value. -/
theorem exists_value (h : '=' ∈ field ' ' l) : ∃ val rest, l = field '=' l ++ '=' :: val ++ rest ∧
    field ' ' l = field '=' l ++ '=' :: val ∧ (rest = [] ∨ rest.head? = some ' ') := by
  obtain ⟨name, val, hfield, hname⟩ := eq_append_cons_of_mem h
  have hsplit : field ' ' l ++ l.dropWhile (· ≠ ' ') = l := takeWhile_append_dropWhile
  have hrest : l.dropWhile (· ≠ ' ') = [] ∨ (l.dropWhile (· ≠ ' ')).head? = some ' ' := by
    cases hd : l.dropWhile (· ≠ ' ') with
    | nil => exact .inl rfl
    | cons c rest =>
      have := head?_dropWhile_not (fun x => decide (x ≠ ' ')) l
      rw [hd] at this
      exact .inr (congrArg some (by simpa using this))
  have heq : field '=' l = name := by
    rw [← hsplit, hfield, append_assoc, cons_append, field_append hname]
  exact ⟨val, l.dropWhile (· ≠ ' '), by rw [heq, ← hfield, hsplit], by rw [heq, hfield], hrest⟩

/-- The answer for the token that is taken for the key. -/
theorem answers_hit (hhit : firstHit key line = some l) :
    Answers line key true (answer true (line.length - l.length) l) ↔
      if '=' ∈ field ' ' l then field '=' l = key else ∃ pre, IsToken line pre key := by
  obtain ⟨w, rfl, hkey⟩ := exists_of_firstHit hhit
  have hlen : (w ++ ' ' :: l).length - l.length = w.length + 1 := by
    rw [length_append, length_cons]
    omega
  rw [hlen, answer, if_pos rfl]
  simp only [length_field_lt]
  by_cases heq : '=' ∈ field ' ' l
  · rw [if_pos heq, if_pos heq]
    obtain ⟨val, rest, hl, hfield, hrest⟩ := exists_value heq
    have htok : IsToken (w ++ ' ' :: l) w (field ' ' l) :=
      ⟨sep_not_mem_field ' ' l, rest, by rw [hfield, ← hl], hrest⟩
    constructor
    · intro h
      obtain ⟨pre, tok, ⟨hsp, rest', hline, -⟩, ⟨-, hv⟩ | ⟨val', rfl, hv⟩⟩ := h.value _ rfl
      · cases hv
      rw [hl, append_assoc, append_assoc] at hline
      refine name_eq hkey (fun hm => hsp (mem_append_left _ hm)) hline ?_
      have := (Prod.mk.inj (some.inj hv)).1
      omega
    · intro hname
      rw [hname] at hfield
      refine ⟨⟨fun _ => ⟨w, _, htok, .inr ⟨val, hfield⟩⟩, fun _ => nofun⟩, nofun, fun v hv => ?_⟩
      obtain rfl := Answer.yesAt.inj hv
      exact ⟨w, _, htok, .inr ⟨val, hfield, by rw [hname]⟩⟩
  · rw [if_neg heq, if_neg heq]
    constructor
    · intro h
      obtain ⟨pre, tok, htok, ⟨rfl, -⟩ | ⟨-, -, hv⟩⟩ := h.value none rfl
      · exact ⟨pre, htok⟩
      · cases hv
    · rintro ⟨pre, htok⟩
      refine ⟨⟨fun _ => ⟨pre, key, htok, .inl rfl⟩, fun _ => nofun⟩, nofun, fun v hv => ?_⟩
      obtain rfl := Answer.yesAt.inj hv
      exact ⟨pre, key, htok, .inl ⟨rfl, rfl⟩⟩

/-- The first token that is taken for the key has the key as its name or, where it has no `=`, the key is a token; or
there is no such token, none is for the key, and the line is empty or ends with a space. -/
def Clear (want : Bool) (line key : List Char) : Prop :=
  match firstHit key line with
  | some l =>
    if want then if '=' ∈ field ' ' l then field '=' l = key else ∃ pre, IsToken line pre key
    else Has line key
  | none => ¬ Has line key ∧ (line = [] ∨ line.getLast? = some ' ')

/-- **Lookup on the command line**: `cmdline_search` reads nothing beyond the line and gives the right answer if and
only if it takes no other token for the key, misses none and finds the end of the line. -/
theorem search_finds (want : Bool) (line key : List Char) (hline : '\x00' ∉ line) :
    (∃ r, cmdlineSearch want (line ++ ['\x00']) (key ++ ['\x00']) = some r ∧ Answers line key want r) ↔
      Clear want line key := by
  rw [cmdlineSearch_eq want hline, Clear]
  cases hhit : firstHit key line with
  | none =>
    dsimp only
    split
    next hend =>
      simp only [some.injEq, exists_eq_left', hend, and_true]
      exact ⟨fun h hhas => h.found.2 hhas rfl, fun hno => ⟨⟨fun h => absurd rfl h, fun h => absurd h hno⟩,
        nofun, nofun⟩⟩
    next hend => simp [hend]
  | some l =>
    simp only [some.injEq, exists_eq_left']
    cases want with
    | false => exact ⟨fun h => h.found.1 nofun, fun h => ⟨⟨fun _ => h, nofun⟩, nofun, nofun⟩⟩
    | true => exact answers_hit hhit

/-- The key `root` on the line `k root=sda rw`. -/
theorem search_finds_root : cmdlineSearch true ("k root=sda rw".toList ++ ['\x00']) ("root".toList ++ ['\x00']) =
      some (.yesAt (some (7, 10))) ∧ Answers "k root=sda rw".toList "root".toList true (.yesAt (some (7, 10))) := by
  have hclear : Clear true "k root=sda rw".toList "root".toList := by
    rw [Clear, show firstHit "root".toList "k root=sda rw".toList = some "root=sda rw".toList by decide]
    dsimp only
    rw [if_pos rfl, if_pos (by decide)]
    decide
  obtain ⟨r, hr, hans⟩ := (search_finds true "k root=sda rw".toList "root".toList (by decide)).2 hclear
  have hrun : cmdlineSearch true ("k root=sda rw".toList ++ ['\x00'])
    ("root".toList ++ ['\x00']) = some (.yesAt (some (7, 10))) := by
    decide
  obtain rfl := some.inj (hr.symm.trans hrun)
  exact ⟨hrun, hans⟩

/-- **What goes wrong**: a flag in front of another token is not found, a part of the key is taken for the key, and a
search without success reads beyond the line. -/
theorem search_wrong : (Has "k quiet splash ".toList "quiet".toList ∧
      cmdlineSearch true ("k quiet splash ".toList ++ ['\x00']) ("quiet".toList ++ ['\x00']) = some .no) ∧
    (¬ Has "k qui=1".toList "quiet".toList ∧
      cmdlineSearch true ("k qui=1".toList ++ ['\x00']) ("quiet".toList ++ ['\x00']) = some (.yesAt (some (6, 7)))) ∧
    cmdlineSearch true ("k quiet".toList ++ ['\x00']) ("debug".toList ++ ['\x00']) = none := by
  refine ⟨⟨⟨['k'], "quiet".toList, ⟨by decide, " splash ".toList, by decide, .inr (by decide)⟩, .inl rfl⟩, by decide⟩,
    ⟨?_, by decide⟩, by decide⟩
  rintro ⟨pre, tok, ⟨-, rest, hline, -⟩, hfor⟩
  -- the line has no `t`
  have ht : 't' ∈ tok := by
    rcases hfor with rfl | ⟨val, rfl⟩
    · decide
    · exact mem_append_left _ (by decide)
  have hmem : 't' ∈ "k qui=1".toList := by
    rw [hline]
    simp [ht]
  exact absurd hmem (by decide)

end TextOS.Cmdline
