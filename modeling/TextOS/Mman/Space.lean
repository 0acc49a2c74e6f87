import TextOS.Lib.Intervals
import TextOS.Lib.Rounds
import TextOS.Mman.Balance

/-!
# Address spaces: `kernel/mm/mman/vma.c`

An area of an address space is linked into a list and into a red-black tree, and its limits change while it is. The
model keeps the areas in a memory `areas` and has their numbers in the list and in the tree.

- in a well-formed space (`Wf`) `vmm_sp_lowerbound`, `vmm_sp_upperbound` and `vmm_sp_containing` find what they are
  asked for (`vmmSpLowerbound_eq`, `vmmSpUpperbound_eq`, `vmmSpContaining_eq`).
-/

namespace TextOS.Mman

open Lib BinTree

/-- The labels `MAPL_…` of an area. -/
inductive Label where
  | user
  | file
  | stack
  | heap
  | bss
deriving DecidableEq

/-- `vm_area_t`, without its links. -/
structure Area where
  s : Nat
  t : Nat
  flgs : Nat
  prot : Nat
  label : Label
  foff : Nat
  node : Option Nat
deriving DecidableEq

namespace Area

/-- The area with another start. -/
def startAt (area : Area) (s : Nat) : Area := { area with s }

/-- The area with another end. -/
def endAt (area : Area) (t : Nat) : Area := { area with t }

end Area

/-- `vm_space_t`, with the areas allocated so far. -/
structure Space where
  areas : Nat → Area
  next : Nat
  list : List Nat
  tree : RbTree Nat

/-- Why a call does not return: its loop goes on, or it read through `NULL`. -/
inductive Stop where
  | hang
  | null
deriving DecidableEq

namespace Space

abbrev lo (sp : Space) (a : Nat) : Nat := (sp.areas a).s

abbrev hi (sp : Space) (a : Nat) : Nat := (sp.areas a).t

/-- The address is in the area. -/
def contains (sp : Space) (addr a : Nat) : Bool := sp.lo a ≤ addr ∧ addr < sp.hi a

/-- Store an area. -/
def put (sp : Space) (a : Nat) (area : Area) : Space := { sp with areas := Function.update sp.areas a area }

/-- A new area, in no list yet. -/
def alloc (sp : Space) (area : Area) : Space := { sp with next := sp.next + 1 }.put sp.next area

end Space

variable {sp sp' : Space} {a b n s t addr vma : Nat} {area : Area} {key : Nat → Nat} {t : RbTree Nat}

/-! ## The lists -/

/-- `list_insert_before` for a node `p` of the list. -/
def listInsertBefore (p n : Nat) : List Nat → List Nat
  | [] => []
  | a :: l => if a = p then n :: a :: l else a :: listInsertBefore p n l

/-- `a->list.next`, `none` for the head of the list. -/
def listNext (a : Nat) : List Nat → Option Nat
  | [] => none
  | b :: l => if b = a then l.head? else listNext a l

/-- `a->list.prev`, `none` for the head of the list. -/
def listPrev (a : Nat) : List Nat → Option Nat
  | b :: c :: l => if c = a then some b else listPrev a (c :: l)
  | _ => none

/-! ## Searching -/

def lowerboundFrom (key : Nat → Nat) (addr : Nat) : RbTree Nat → Option Nat → Option Nat
  | nil, c => c
  | node _ l a r, c => if addr ≤ key a then lowerboundFrom key addr l (some a) else lowerboundFrom key addr r c

def vmmSpLowerbound (sp : Space) (addr : Nat) : Option Nat := lowerboundFrom sp.lo addr sp.tree none

def upperboundFrom (key : Nat → Nat) (addr : Nat) : RbTree Nat → Option Nat → Option Nat
  | nil, c => c
  | node _ l a r, c => if addr < key a then upperboundFrom key addr l (some a) else upperboundFrom key addr r c

def vmmSpUpperbound (sp : Space) (addr : Nat) : Option Nat := upperboundFrom sp.lo addr sp.tree none

def containingFrom (sp : Space) (addr : Nat) : RbTree Nat → Option Nat
  | nil => none
  | node _ l a r =>
    if sp.contains addr a then some a
    else if addr < sp.lo a then containingFrom sp addr l else containingFrom sp addr r

def vmmSpContaining (sp : Space) (addr : Nat) : Option Nat := containingFrom sp addr sp.tree

/-! ## Registering -/

/-- The loop of `vmm_sp_regst` for at most the given number of rounds: the place for an area that starts at `s`. A node
that starts at `s` too sends the loop to none of its children. -/
def descend (key : Nat → Nat) (s : Nat) : Nat → RbTree Nat → Parents Nat → Option (Parents Nat)
  | 0, _, _ => none
  | _ + 1, nil, up => some up
  | n + 1, node c l a r, up =>
    if key a < s then descend key s n r (⟨.right, c, a, l⟩ :: up)
    else if s < key a then descend key s n l (⟨.left, c, a, r⟩ :: up)
    else descend key s n (node c l a r) up

def vmmSpRegst (n vma : Nat) (sp : Space) : Except Stop Space :=
  let list := match vmmSpUpperbound sp (sp.lo vma) with
    | some p => listInsertBefore p vma sp.list
    | none => sp.list ++ [vma]
  match descend sp.lo (sp.lo vma) n sp.tree [] with
  | none => .error .hang
  | some up =>
    match rbtreeFixup (rbtreeLink vma) up with
    | none => .error .null
    | some tree => .ok { sp with list, tree }

def vmmSpUnreg (vma : Nat) (sp : Space) : Except Stop Space :=
  match rbtreeDelete vma sp.tree with
  | none => .error .null
  | some tree => .ok { sp with list := sp.list.erase vma, tree }

/-! ## Well-formed spaces -/

/-- The areas are not empty, disjoint and sorted, the tree has the sequence of the list, and its root is black. -/
structure Wf (sp : Space) : Prop where
  ordered : Ordered sp.lo sp.hi sp.list
  inorder : sp.tree.toList = sp.list
  root : isred sp.tree = false
  old : ∀ a ∈ sp.list, a < sp.next

/-- Sorted by a key without repetition. -/
abbrev Sorted (key : Nat → Nat) (l : List Nat) : Prop := l.Pairwise fun a b => key a < key b

theorem Wf.sorted (h : Wf sp) : Sorted sp.lo sp.list :=
  h.ordered.2.imp_of_mem fun ha _ hab => (h.ordered.1 _ ha).trans_le hab

theorem Wf.nodup (h : Wf sp) : sp.list.Nodup := h.sorted.imp fun hlt heq => (heq ▸ hlt).false

/-! ## What the searches find -/

/-- The search returns the first area behind the address. -/
theorem upperboundFrom_eq {c : Option Nat} (h : Sorted key t.toList) :
    upperboundFrom key addr t c = (t.toList.find? fun a => addr < key a).or c := by
  induction t generalizing c with
  | nil => rfl
  | node color l a r ihl ihr =>
    rw [toList_node] at h ⊢
    obtain ⟨hl, har, hlar⟩ := List.pairwise_append.1 h
    obtain ⟨ha, hr⟩ := List.pairwise_cons.1 har
    rw [upperboundFrom, List.find?_append, List.find?_cons]
    split
    · next hlt => simp [ihl hl, hlt]
    next hlt =>
    have hnone : (l.toList.find? fun b => decide (addr < key b)) = none := by
      rw [List.find?_eq_none]
      intro b hb
      have := hlar b hb a List.mem_cons_self
      simp only [decide_eq_true_eq]
      omega
    simp [ihr hr, hlt, hnone]

theorem vmmSpUpperbound_eq (h : Wf sp) (addr : Nat) :
    vmmSpUpperbound sp addr = sp.list.find? fun a => addr < sp.lo a := by
  rw [vmmSpUpperbound, upperboundFrom_eq (h.inorder.symm ▸ h.sorted), h.inorder, Option.or_none]

theorem lowerboundFrom_eq (key : Nat → Nat) (addr : Nat) (t : RbTree Nat) (c : Option Nat) :
    lowerboundFrom key addr t c = upperboundFrom (fun a => key a + 1) addr t c := by
  induction t generalizing c with
  | nil => rfl
  | node color l a r ihl ihr => simp only [lowerboundFrom, upperboundFrom, ihl, ihr, Nat.lt_succ_iff]

theorem vmmSpLowerbound_eq (h : Wf sp) (addr : Nat) :
    vmmSpLowerbound sp addr = sp.list.find? fun a => addr ≤ sp.lo a := by
  have hsorted : Sorted (fun a => sp.lo a + 1) sp.tree.toList := by
    rw [h.inorder]
    exact h.sorted.imp Nat.succ_lt_succ
  rw [vmmSpLowerbound, lowerboundFrom_eq, upperboundFrom_eq hsorted, h.inorder, Option.or_none]
  simp only [Nat.lt_succ_iff]

/-- **`vmm_sp_containing` finds the area of an address.** -/
theorem vmmSpContaining_eq (h : Wf sp) (addr : Nat) : vmmSpContaining sp addr = sp.list.find? (sp.contains addr) := by
  have hfrom : ∀ {t : RbTree Nat}, Ordered sp.lo sp.hi t.toList →
      containingFrom sp addr t = t.toList.find? (sp.contains addr) := by
    intro t ht
    induction t with
    | nil => rfl
    | node color l a r ihl ihr =>
      rw [toList_node] at ht ⊢
      obtain ⟨hne, hpair⟩ := ht
      obtain ⟨hl, har, hlar⟩ := List.pairwise_append.1 hpair
      obtain ⟨ha, hr⟩ := List.pairwise_cons.1 har
      have hleft : sp.lo a ≤ addr → l.toList.find? (sp.contains addr) = none := fun hle => by
        simp only [List.find?_eq_none, Space.contains, decide_eq_true_eq]
        intro b hb
        have := hlar b hb a List.mem_cons_self
        omega
      have hright : addr < sp.lo a → r.toList.find? (sp.contains addr) = none := fun hlt => by
        simp only [List.find?_eq_none, Space.contains, decide_eq_true_eq]
        intro b hb
        have := ha b hb
        have := hne a (by simp)
        omega
      rw [containingFrom, List.find?_append, List.find?_cons]
      split
      · next hin => rw [hin, hleft (of_decide_eq_true hin).1, Option.none_or]
      next hin =>
      rw [Bool.not_eq_true] at hin
      rw [hin]
      split
      · next hlt => rw [ihl ⟨fun x hx => hne x (by simp [hx]), hl⟩, hright hlt, Option.or_none]
      · next hlt => rw [ihr ⟨fun x hx => hne x (by simp [hx]), hr⟩, hleft (by omega), Option.none_or]
  rw [vmmSpContaining, hfrom (h.inorder.symm ▸ h.ordered), h.inorder]

theorem vmmSpContaining_eq_some_iff (h : Wf sp) :
    vmmSpContaining sp addr = some a ↔ a ∈ sp.list ∧ sp.lo a ≤ addr ∧ addr < sp.hi a := by
  have hin : ∀ b, sp.contains addr b = true ↔ sp.lo b ≤ addr ∧ addr < sp.hi b := fun b => decide_eq_true_iff
  rw [vmmSpContaining_eq h]
  constructor
  · intro hfind
    exact ⟨List.mem_of_find?_eq_some hfind, (hin a).1 (List.find?_some hfind)⟩
  rintro ⟨ha, hina⟩
  obtain ⟨b, hb⟩ := Option.isSome_iff_exists.1
    ((List.find?_isSome (p := sp.contains addr)).2 ⟨a, ha, (hin a).2 hina⟩)
  rw [hb, h.ordered.eq_of_mem (List.mem_of_find?_eq_some hb) ha ((hin b).1 (List.find?_some hb)) hina]

/-! ## What registering does -/

/-- The descent ends at the free place for a key. -/
theorem descend_spec {s : Nat} (up : Parents Nat) (hn : t.toList.length < n)
    (ht : Sorted key t.toList) (hnew : ∀ a ∈ t.toList, key a ≠ s) (hb : ∀ a ∈ before up, key a < s)
    (ha : ∀ a ∈ after up, s < key a) :
    ∃ fs, descend key s n t up = some fs ∧ plug nil fs = plug t up ∧ (∀ a ∈ before fs, key a < s) ∧
      ∀ a ∈ after fs, s < key a := by
  induction t generalizing n up with
  | nil =>
    obtain ⟨n, rfl⟩ : ∃ k, n = k + 1 := ⟨n - 1, by omega⟩
    exact ⟨up, rfl, rfl, hb, ha⟩
  | node c l a r ihl ihr =>
    obtain ⟨n, rfl⟩ : ∃ k, n = k + 1 := ⟨n - 1, by omega⟩
    rw [toList_node] at hn ht hnew
    rw [List.length_append, List.length_cons] at hn
    obtain ⟨hl, har, hlar⟩ := List.pairwise_append.1 ht
    obtain ⟨hra, hr⟩ := List.pairwise_cons.1 har
    have hne := hnew a (by simp)
    rw [descend]
    split
    · next hlt =>
      refine ihr _ (by omega) hr (fun b hb => hnew b (by simp [hb])) ?_ ha
      intro b hb'
      simp only [before, List.mem_append, List.mem_singleton] at hb'
      rcases hb' with hb' | hb' | rfl
      · exact hb b hb'
      · exact (hlar b hb' a List.mem_cons_self).trans hlt
      · exact hlt
    next hlt =>
    have hgt : s < key a := by omega
    rw [if_pos hgt]
    refine ihl _ (by omega) hl (fun b hb => hnew b (by simp [hb])) hb ?_
    intro b hb'
    simp only [after, List.mem_cons, List.mem_append] at hb'
    rcases hb' with rfl | hb' | hb'
    · exact hgt
    · exact hgt.trans (hra b hb')
    · exact ha b hb'

/-- **The loop has no exit at a node that starts at the same address.** -/
theorem descend_equal (key : Nat → Nat) {c : Color} {l r : RbTree Nat} (hs : key a = s) (n : Nat) (up : Parents Nat) :
    descend key s n (node c l a r) up = none := by
  induction n with
  | zero => rfl
  | succ n ih => rw [descend, if_neg (by omega), if_neg (by omega), ih]

/-- More fuel changes nothing once the descent has ended. -/
theorem descend_mono {m : Nat} {up fs : Parents Nat} (hnm : n ≤ m)
    (h : descend key s n t up = some fs) : descend key s m t up = some fs := by
  induction n generalizing m t up with
  | zero => cases h
  | succ n ih =>
    obtain ⟨m, rfl⟩ : ∃ k, m = k + 1 := ⟨m - 1, by omega⟩
    cases t with
    | nil => exact h
    | node c l a r =>
      have hnm' : n ≤ m := by omega
      rw [descend] at h ⊢
      by_cases hlt : key a < s
      · rw [if_pos hlt] at h ⊢
        exact ih hnm' h
      rw [if_neg hlt] at h ⊢
      by_cases hgt : s < key a
      · rw [if_pos hgt] at h ⊢
        exact ih hnm' h
      · rw [if_neg hgt] at h ⊢
        exact ih hnm' h

theorem vmmSpRegst_stable (vma : Nat) (sp : Space) : Stable fun n => vmmSpRegst n vma sp := by
  intro n m sp' hnm h
  dsimp only [vmmSpRegst] at h ⊢
  cases hd : descend sp.lo (sp.lo vma) n sp.tree [] with
  | none =>
    rw [hd] at h
    cases h
  | some up =>
    rw [hd] at h
    rw [descend_mono hnm hd]
    exact h

theorem listInsertBefore_append {p : Nat} {l l' : List Nat} (h : p ∉ l) :
    listInsertBefore p a (l ++ p :: l') = l ++ a :: p :: l' := by
  induction l with
  | nil => exact if_pos rfl
  | cons b l ih =>
    rw [List.mem_cons, not_or] at h
    rw [List.cons_append, listInsertBefore, if_neg (Ne.symm h.1), ih h.2, List.cons_append]

/-- **Registering an area apart from all others.** -/
theorem vmmSpRegst_spec (vma : Nat) (h : Wf sp) (hne : sp.lo vma < sp.hi vma)
    (hapart : Apart sp.lo sp.hi sp.list (sp.lo vma) (sp.hi vma)) (hold : vma < sp.next) (hn : sp.list.length < n) :
    ∃ l l' tree, vmmSpRegst n vma sp = .ok { sp with list := l ++ vma :: l', tree } ∧ sp.list = l ++ l' ∧
      Wf { sp with list := l ++ vma :: l', tree } := by
  have hnew : ∀ a ∈ sp.tree.toList, sp.lo a ≠ sp.lo vma := by
    intro a ha heq
    rw [h.inorder] at ha
    have := h.ordered.1 a ha
    rcases hapart a ha with hle | hle
    · omega
    · omega
  obtain ⟨up, hup, hplug, hbefore, hafter⟩ := descend_spec (n := n) [] (by rw [h.inorder]; exact hn)
    (h.inorder.symm ▸ h.sorted) hnew (by simp [before]) (by simp [after])
  have hlist : sp.list = before up ++ after up := by
    have := congrArg toList hplug
    rw [toList_plug, plug_nil, h.inorder] at this
    simpa using this.symm
  obtain ⟨tree, htree, hinorder, hroot⟩ := rbtreeFixup_spec vma up (by rw [hplug]; exact h.root)
  refine ⟨before up, after up, tree, ?_, hlist, ?_⟩
  · have hinsert : (match vmmSpUpperbound sp (sp.lo vma) with
        | some p => listInsertBefore p vma sp.list
        | none => sp.list ++ [vma]) = before up ++ vma :: after up := by
      have hnone : ((before up).find? fun a => decide (sp.lo vma < sp.lo a)) = none := by
        rw [List.find?_eq_none]
        intro b hb
        have := hbefore b hb
        simp only [decide_eq_true_eq]
        omega
      rw [vmmSpUpperbound_eq h, hlist, List.find?_append, hnone, Option.none_or]
      cases hcase : after up with
      | nil => simp
      | cons p rest =>
        have hp := hafter p (by simp [hcase])
        rw [List.find?_cons, decide_eq_true hp]
        apply listInsertBefore_append
        intro hmem
        have := hbefore p hmem
        omega
    rw [vmmSpRegst, hinsert, hup]
    dsimp only
    rw [htree]
  · have hne' : ∀ a ∈ sp.list, sp.lo a < sp.hi a := h.ordered.1
    refine ⟨h.ordered.insert hlist hne ?_ ?_, hinorder, hroot, ?_⟩
    · intro a ha
      have := hbefore a ha
      have := hne' a (by simp [hlist, ha])
      rcases hapart a (by simp [hlist, ha]) with hle | hle
      · exact hle
      · omega
    · intro a ha
      have := hafter a ha
      have := hne' a (by simp [hlist, ha])
      rcases hapart a (by simp [hlist, ha]) with hle | hle
      · omega
      · exact hle
    intro a ha
    rw [List.mem_append, List.mem_cons] at ha
    rcases ha with ha | rfl | ha
    · exact h.old a (by simp [hlist, ha])
    · exact hold
    · exact h.old a (by simp [hlist, ha])

/-- **Unregistering an area of the list**: it is gone, unless `rbtree_delete` reads through `NULL`. -/
theorem vmmSpUnreg_spec (h : Wf sp) (hmem : vma ∈ sp.list) :
    (vmmSpUnreg vma sp = .error .null ∧ ¬ Deletes vma sp.tree) ∨
    ∃ tree, rbtreeDelete vma sp.tree = some tree ∧ Deletes vma sp.tree ∧
      vmmSpUnreg vma sp = .ok { sp with list := sp.list.erase vma, tree } ∧
      Wf { sp with list := sp.list.erase vma, tree } := by
  have hin := h.inorder
  rw [← hin] at hmem
  rw [← rbtreeDelete_isSome hmem]
  cases hdel : rbtreeDelete vma sp.tree with
  | none => exact .inl ⟨by rw [vmmSpUnreg, hdel], by simp⟩
  | some tree =>
    refine .inr ⟨tree, rfl, rfl, by rw [vmmSpUnreg, hdel], ?_⟩
    obtain ⟨hlist, hroot⟩ := rbtreeDelete_spec hmem (hin.symm ▸ h.nodup) hdel
    exact ⟨⟨fun a ha => h.ordered.1 a (List.mem_of_mem_erase ha), h.ordered.2.sublist List.erase_sublist⟩,
      hlist.trans (by rw [hin]), hroot h.root, fun a ha => h.old a (List.mem_of_mem_erase ha)⟩

end TextOS.Mman
