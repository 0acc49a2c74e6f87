import TextOS.Mman.Munmap

/-!
# Looking up areas: `kernel/mm/mman/vma.c`

New areas are registered in an empty space one after the other.

- **there the searches of the tree are scans of the list** (`lookup_scan`).
-/

namespace TextOS.Mman

open Lib BinTree List

/-- `vmm_new_space(NULL)`, with any memory. -/
def vmmNewSpace (areas : Nat → Area) (next : Nat) : Space := ⟨areas, next, [], nil⟩

/-- `vmm_sp_regst` of new areas, one after the other. -/
def regstAll (n : Nat) : List Area → Space → Except Stop Space
  | [], sp => .ok sp
  | area :: as, sp => (vmmSpRegst n sp.next (sp.alloc area)).bind (regstAll n as)

variable {sp sp' : Space} {n : Nat} {area : Area} {as : List Area}

/-- The areas are disjoint. -/
def Disj (a b : Area) : Prop := a.t ≤ b.s ∨ b.t ≤ a.s
deriving Decidable

theorem Disj.symm {a b : Area} (h : Disj a b) : Disj b a := Or.symm h
theorem wf_vmmNewSpace (areas : Nat → Area) (next : Nat) : Wf (vmmNewSpace areas next) :=
  ⟨ordered_nil, rfl, rfl, by simp [vmmNewSpace]⟩

/-- The areas of the list, in its order. -/
def Space.all (sp : Space) : List Area := sp.list.map sp.areas

/-- An area apart from the others is registered. -/
theorem regst_new (h : Wf sp) (hne : area.s < area.t) (hapart : ∀ b ∈ sp.all, Disj area b) (hn : sp.list.length < n) :
    ∃ sp', vmmSpRegst n sp.next (sp.alloc area) = .ok sp' ∧ Wf sp' ∧ sp'.all.Perm (area :: sp.all) ∧
      sp'.list.length = sp.list.length + 1 := by
  have hnew : (sp.alloc area).areas sp.next = area := put_self _ _ _
  have hold : ∀ b ∈ sp.list, (sp.alloc area).areas b = sp.areas b := fun b hb => alloc_of_ne sp area (h.old b hb).ne
  obtain ⟨l, l', tree, hreg, hlist, hwf⟩ := vmmSpRegst_spec sp.next (n := n) (h.alloc area)
    (by rw [Space.lo, Space.hi, hnew]; exact hne)
    (fun b hb => by
      rw [Space.lo, Space.hi, Space.lo, Space.hi, hnew, hold b hb]
      exact (hapart _ (mem_map_of_mem hb)).symm)
    (Nat.lt_succ_self _) hn
  have hlist : sp.list = l ++ l' := hlist
  refine ⟨_, hreg, hwf, ?_, by simp [hlist, Nat.add_assoc]⟩
  have hall : sp.all = l.map (sp.alloc area).areas ++ l'.map (sp.alloc area).areas := by
    rw [Space.all, ← map_append, ← hlist]
    exact map_congr_left fun b hb => (hold b hb).symm
  have hall' : Space.all { sp.alloc area with list := l ++ sp.next :: l', tree } =
      l.map (sp.alloc area).areas ++ area :: l'.map (sp.alloc area).areas := by
    simp [Space.all, hnew]
  rw [hall, hall']
  exact perm_middle

/-- **Registering areas that are disjoint.** -/
theorem regstAll_spec (h : Wf sp) (hne : ∀ a ∈ as, a.s < a.t) (hdis : as.Pairwise Disj)
    (hapart : ∀ a ∈ as, ∀ b ∈ sp.all, Disj a b) (hn : sp.list.length + as.length ≤ n) :
    ∃ sp', regstAll n as sp = .ok sp' ∧ Wf sp' ∧ sp'.all.Perm (as ++ sp.all) := by
  induction as generalizing sp with
  | nil => exact ⟨sp, rfl, h, .refl _⟩
  | cons area as ih =>
    obtain ⟨hd, hdis⟩ := pairwise_cons.1 hdis
    rw [length_cons] at hn
    obtain ⟨sp1, hreg, h1, hall, hlen⟩ := regst_new h (hne area mem_cons_self) (hapart area mem_cons_self)
      (n := n) (by omega)
    obtain ⟨sp', hok, h', hall'⟩ := ih h1 (fun a ha => hne a (mem_cons_of_mem _ ha)) hdis
      (fun a ha b hb => by
        rcases mem_cons.1 (hall.mem_iff.1 hb) with rfl | hb
        · exact (hd a ha).symm
        · exact hapart a (mem_cons_of_mem _ ha) b hb)
      (by omega)
    refine ⟨sp', by rw [regstAll, hreg]; exact hok, h', hall'.trans ?_⟩
    exact (hall.append_left as).trans perm_middle

/-- **After areas that are not empty and disjoint were registered, the searches of the tree are scans of the sorted
list.** -/
theorem lookup_scan (areas : Nat → Area) (next : Nat) (as : List Area) (hne : ∀ a ∈ as, a.s < a.t)
    (hdis : as.Pairwise Disj) (hn : as.length ≤ n) :
    ∃ sp, regstAll n as (vmmNewSpace areas next) = .ok sp ∧ sp.all.Perm as ∧ Sorted sp.lo sp.list ∧ ∀ addr,
      (vmmSpLowerbound sp addr = sp.list.find? fun a => addr ≤ sp.lo a) ∧
      (vmmSpUpperbound sp addr = sp.list.find? fun a => addr < sp.lo a) ∧
      ∀ a, vmmSpContaining sp addr = some a ↔ a ∈ sp.list ∧ sp.lo a ≤ addr ∧ addr < sp.hi a := by
  obtain ⟨sp, hok, h, hall⟩ := regstAll_spec (wf_vmmNewSpace areas next) hne hdis
    (by simp [Space.all, vmmNewSpace]) (n := n) (by simpa [vmmNewSpace] using hn)
  refine ⟨sp, hok, by simpa [Space.all, vmmNewSpace] using hall, h.sorted, fun addr => ?_⟩
  exact ⟨vmmSpLowerbound_eq h addr, vmmSpUpperbound_eq h addr, fun a => vmmSpContaining_eq_some_iff h⟩

/-- Three areas, registered in no order. -/
def threeAreas : List Area :=
  [⟨8192, 12288, 0, 3, .user, 0, none⟩, ⟨4096, 8192, 0, 1, .file, 0, some 7⟩, ⟨20480, 24576, 0, 3, .heap, 0, none⟩]

theorem lookup_scan_threeAreas : ∃ sp, regstAll 3 threeAreas (vmmNewSpace (fun _ => ⟨0, 0, 0, 0, .user, 0, none⟩) 0) =
    .ok sp ∧ sp.all.Perm threeAreas ∧ Sorted sp.lo sp.list ∧ ∀ addr,
      (vmmSpLowerbound sp addr = sp.list.find? fun a => addr ≤ sp.lo a) ∧
      (vmmSpUpperbound sp addr = sp.list.find? fun a => addr < sp.lo a) ∧
      ∀ a, vmmSpContaining sp addr = some a ↔ a ∈ sp.list ∧ sp.lo a ≤ addr ∧ addr < sp.hi a :=
  lookup_scan _ 0 threeAreas (by decide) (by decide) (by decide)

end TextOS.Mman
