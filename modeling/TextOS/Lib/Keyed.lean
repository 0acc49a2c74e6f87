import Mathlib

/-!
# Lists as tables

Two ways a list stands for a table:

- a list of records with a key, none of them twice: finding, changing and removing the record of a key (`find?_key`,
  `mem_updFirst`, `mem_eraseP_key`) concerns that record only.
-/

namespace TextOS.Lib

open List

variable {α κ : Type} {p : α → Bool} {l : List α}

/-! ## Keys -/

/-- Change the first element that satisfies `p`. -/
def updFirst (p : α → Bool) (f : α → α) : List α → List α
  | [] => []
  | a :: l => if p a then f a :: l else a :: updFirst p f l

section Keys

variable [BEq κ] [LawfulBEq κ] {key : α → κ} {k : κ} {l : List α} {x : α}

theorem find?_key (h : (l.map key).Nodup) (hx : x ∈ l) (hk : key x = k) : (l.find? fun y => key y == k) = some x := by
  cases hf : l.find? fun y => key y == k with
  | none =>
    have := find?_eq_none.1 hf x hx
    simp [hk] at this
  | some y =>
    have hy : key y = k := by simpa using find?_some hf
    rw [inj_on_of_nodup_map h hx (mem_of_find?_eq_some hf) (hk.trans hy.symm)]

omit [LawfulBEq κ] in
theorem map_key_updFirst {f : α → α} (hf : ∀ y, key (f y) = key y) (l : List α) :
    (updFirst (fun y => key y == k) f l).map key = l.map key := by
  induction l with
  | nil => rfl
  | cons a l ih =>
    rw [updFirst]
    split
    · rw [map_cons, map_cons, hf]
    · rw [map_cons, map_cons, ih]

/-- Finding after an update under a key. -/
theorem find?_updFirst (f : α → α) (hf : ∀ y, key (f y) = key y) (l : List α) (k' : κ) :
    ((updFirst (fun y => key y == k) f l).find? fun y => key y == k') =
      if k' == k then (l.find? fun y => key y == k).map f else l.find? fun y => key y == k' := by
  induction l with
  | nil => simp [updFirst]
  | cons a l ih =>
    rw [updFirst]
    by_cases ha : key a = k
    · subst ha
      by_cases hk : k' = key a
      · simp [hk, hf]
      · simp [hk, hf, Ne.symm hk]
    have ha' : (key a == k) = false := beq_eq_false_iff_ne.2 ha
    rw [if_neg (by simpa using ha), find?_cons, ih, find?_cons, find?_cons, ha']
    by_cases hk : k' = k
    · subst hk
      simp [ha']
    · simp [hk]

theorem find?_eraseP_key {k' : κ} (hk : k' ≠ k) (l : List α) :
    ((l.eraseP fun y => key y == k).find? fun y => key y == k') = l.find? fun y => key y == k' := by
  induction l with
  | nil => rfl
  | cons a l ih =>
    by_cases ha : key a = k
    · subst ha
      simp [Ne.symm hk]
    · have ha' : (key a == k) = false := beq_eq_false_iff_ne.2 ha
      rw [eraseP_cons_of_neg (by simpa using ha), find?_cons, find?_cons, ih]

/-- Members after an update under a key. -/
theorem mem_updFirst {f : α → α} (h : (l.map key).Nodup) :
    x ∈ updFirst (fun y => key y == k) f l ↔ (x ∈ l ∧ key x ≠ k) ∨ ∃ y ∈ l, key y = k ∧ x = f y := by
  induction l with
  | nil => simp [updFirst]
  | cons a l ih =>
    rw [map_cons, nodup_cons] at h
    have hnot : ∀ y ∈ l, key y ≠ key a := fun y hy hk => h.1 (hk ▸ mem_map_of_mem hy)
    rw [updFirst]
    split
    · next ha =>
      obtain rfl : key a = k := by simpa using ha
      simp only [mem_cons]
      constructor
      · rintro (rfl | hx)
        · exact .inr ⟨a, .inl rfl, rfl, rfl⟩
        · exact .inl ⟨.inr hx, hnot x hx⟩
      rintro (⟨rfl | hx, hk⟩ | ⟨y, rfl | hy, hk, rfl⟩)
      · exact absurd rfl hk
      · exact .inr hx
      · exact .inl rfl
      · exact absurd hk (hnot y hy)
    · next ha =>
      have hak : key a ≠ k := by simpa using ha
      simp only [mem_cons, ih h.2]
      constructor
      · rintro (rfl | ⟨hx, hk⟩ | ⟨y, hy, hk, rfl⟩)
        · exact .inl ⟨.inl rfl, hak⟩
        · exact .inl ⟨.inr hx, hk⟩
        · exact .inr ⟨y, .inr hy, hk, rfl⟩
      rintro (⟨rfl | hx, hk⟩ | ⟨y, rfl | hy, hk, rfl⟩)
      · exact .inl rfl
      · exact .inr (.inl ⟨hx, hk⟩)
      · exact absurd hk hak
      · exact .inr (.inr ⟨y, hy, hk, rfl⟩)

/-- Members after erasing a key. -/
theorem mem_eraseP_key (h : (l.map key).Nodup) : x ∈ l.eraseP (fun y => key y == k) ↔ x ∈ l ∧ key x ≠ k := by
  by_cases hk : key x = k
  · refine iff_of_false (fun hx => ?_) fun hx => hx.2 hk
    have hx' := mem_of_mem_eraseP hx
    obtain ⟨y, l1, l2, -, hy, rfl, he⟩ := exists_of_eraseP hx' (p := fun y => key y == k) (by simp [hk])
    have hy' : y ∈ l1 ++ y :: l2 := by simp
    obtain rfl := inj_on_of_nodup_map h hx' hy' (hk.trans (beq_iff_eq.1 hy).symm)
    rw [map_append, map_cons] at h
    obtain ⟨-, h2, hdis⟩ := nodup_append.1 h
    rw [he, mem_append] at hx
    rcases hx with hx | hx
    · exact hdis _ (mem_map_of_mem hx) _ mem_cons_self rfl
    · exact (nodup_cons.1 h2).1 (mem_map_of_mem hx)
  · rw [mem_eraseP_of_neg (by simpa using hk)]
    exact ⟨fun hx => ⟨hx, hk⟩, fun hx => hx.1⟩

end Keys

/-! ## Slots -/

/-- The number of slots that satisfy `p` after one of them was written. -/
theorem countP_set_add {i : Nat} {a : α} (h : l[i]? = some a) (b : α) :
    (l.set i b).countP p + (if p a then 1 else 0) = l.countP p + if p b then 1 else 0 := by
  induction l generalizing i with
  | nil => cases h
  | cons c l ih =>
    cases i with
    | zero =>
      obtain rfl : c = a := by simpa using h
      rw [set_cons_zero, countP_cons, countP_cons]
      omega
    | succ i =>
      have := ih (i := i) (by simpa using h)
      rw [set_cons_succ, countP_cons, countP_cons]
      omega

theorem one_le_countP {i : Nat} {a : α} (h : l[i]? = some a) (ha : p a = true) :
    1 ≤ l.countP p := countP_pos_iff.2 ⟨a, mem_of_getElem? h, ha⟩

theorem two_le_countP {i j : Nat} {a b : α} (hij : i ≠ j) (hi : l[i]? = some a)
    (hj : l[j]? = some b) (ha : p a = true) (hb : p b = true) : 2 ≤ l.countP p := by
  induction l generalizing i j with
  | nil => cases hi
  | cons c l ih =>
    rw [countP_cons]
    cases i with
    | zero =>
      obtain rfl : c = a := by simpa using hi
      cases j with
      | zero => exact absurd rfl hij
      | succ j =>
        have := one_le_countP (i := j) (by simpa using hj) hb
        rw [if_pos ha]
        omega
    | succ i =>
      cases j with
      | zero =>
        obtain rfl : c = b := by simpa using hj
        have := one_le_countP (i := i) (by simpa using hi) ha
        rw [if_pos hb]
        omega
      | succ j =>
        have := ih (i := i) (j := j) (by omega) (by simpa using hi) (by simpa using hj)
        omega

end TextOS.Lib
