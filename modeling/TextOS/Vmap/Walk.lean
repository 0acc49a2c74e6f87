import TextOS.Vmap.Defs

/-!
# Reaching the tables

A page table is `Good` when its entry 511 points to the table itself, no frame is a table in two places and no entry
maps a large page. In a good table:

- the address of `entryget` for a level is translated to the table of that level (`mmu_entryget`), whatever was
  installed before, so that `load` and `store` hit the entries meant (`load_entry`, `store_entry`).
-/

namespace TextOS.Vmap

open Lib Option

variable {m m' : Mem} {cr3 vrt va lv f i j e v new : Nat}

/-- The table an entry points to. -/
def child (e : Nat) : Option Nat := if present e then some (frame e) else none

/-- The paths outside the recursive slot. -/
def Below (p : List Nat) : Prop := p.length ≤ 3 ∧ (∀ i ∈ p, i < 512) ∧ p.head? ≠ some 511

/-- The indices on the way from the top to the table of level `lv`. -/
def path (va : Nat) : Nat → List Nat
  | 0 => [idx va 3, idx va 2, idx va 1]
  | 1 => [idx va 3, idx va 2]
  | 2 => [idx va 3]
  | _ => []

/-- The table of level `lv` for `va`. -/
abbrev tableAt (m : Mem) (cr3 va lv : Nat) : Option Nat := follow child m cr3 (path va lv)

structure Good (m : Mem) (cr3 : Nat) : Prop where
  self : child (m cr3 511) = some cr3
  sep : Separate child m cr3 Below
  small : ∀ p f j, Below p → p.length ≤ 2 → follow child m cr3 p = some f → j < 512 → present (m f j) = true →
    large (m f j) = false

/-! ## Entries and indices -/

theorem idx_lt (va lv : Nat) : idx va lv < 512 := Nat.mod_lt _ (by norm_num)

theorem child_eq_some : child e = some f ↔ present e = true ∧ frame e = f := by
  unfold child
  split
  · next h => simp [h]
  · next h => simp [h]

theorem child_eq_none : child e = none ↔ present e = false := by
  unfold child
  split
  · next h => simp [h]
  · next h => simpa using h

theorem link_entry (hf : f < 2 ^ 40) : child (addr (4096 * f) + 3) = some f ∧ large (addr (4096 * f) + 3) = false := by
  simp only [child_eq_some, present, frame, large, addr, beq_iff_eq, beq_eq_false_iff_ne, ne_eq]
  omega

/-- `PE_US` changes neither the child of an entry nor its size. -/
theorem orUs_entry (e : Nat) : child (orUs e) = child e ∧ present (orUs e) = present e ∧ large (orUs e) = large e := by
  unfold orUs
  split
  · exact ⟨rfl, rfl, rfl⟩
  have h1 : present (e + 4) = present e := by simp only [present, show (e + 4) % 2 = e % 2 by omega]
  have h2 : frame (e + 4) = frame e := by simp only [frame, show (e + 4) / 4096 = e / 4096 by omega]
  have h3 : large (e + 4) = large e := by simp only [large, show (e + 4) / 128 = e / 128 by omega]
  exact ⟨by rw [child, child, h1, h2], h1, h3⟩

theorem idx_vrtOf {a b c d : Nat} (ha : a < 512) (hb : b < 512) (hc : c < 512) (hd : d < 512) (hj : j < 512) :
    idx (vrtOf a b c d + 8 * j) 3 = a ∧ idx (vrtOf a b c d + 8 * j) 2 = b ∧ idx (vrtOf a b c d + 8 * j) 1 = c ∧
      idx (vrtOf a b c d + 8 * j) 0 = d ∧ (vrtOf a b c d + 8 * j) % 4096 = 8 * j := by
  simp only [idx, vrtOf, Nat.reduceMul, Nat.reduceAdd, Nat.reducePow, Nat.zero_mul, Nat.zero_add]
  split
  · omega
  · omega

theorem below_path (h : idx va 3 ≠ 511) (lv : Nat) : Below (path va lv) := by
  have h3 := idx_lt va 3
  have h2 := idx_lt va 2
  have h1 := idx_lt va 1
  unfold path
  split
  · simp [Below, h1, h2, h3, h]
  · simp [Below, h2, h3, h]
  · simp [Below, h3, h]
  · simp [Below]

theorem below_of_prefix (p q : List Nat) (h : p <+: q) (hq : Below q) : Below p := by
  refine ⟨h.length_le.trans hq.1, fun i hi => hq.2.1 i (h.subset hi), fun hp => hq.2.2 ?_⟩
  obtain ⟨r, rfl⟩ := h
  cases p with
  | nil => cases hp
  | cons a p => simpa using hp

theorem path_succ (va : Nat) (hlv : lv < 3) : path va lv = path va (lv + 1) ++ [idx va (lv + 1)] := by
  rcases lv with _ | _ | _ | lv
  · rfl
  · rfl
  · rfl
  · omega

theorem length_path (va : Nat) (hlv : lv ≤ 3) : (path va lv).length = 3 - lv := by
  rcases lv with _ | _ | _ | _ | lv
  · rfl
  · rfl
  · rfl
  · rfl
  · omega

/-! ## The recursive slot -/

theorem mmuWalk_succ (hp : child (m f (idx va (lv + 1))) = some i) (hl : large (m f (idx va (lv + 1))) = false) :
    mmuWalk m (lv + 1) f va = mmuWalk m lv i va := by
  obtain ⟨hp, hf⟩ := child_eq_some.1 hp
  simp only [mmuWalk, hp, if_true, hl, Bool.false_eq_true, and_false, if_false, hf]

theorem mmuWalk_zero (hp : child (m f (idx va 0)) = some i) : mmuWalk m 0 f va = some (4096 * i + va % 4096) := by
  obtain ⟨hp, hf⟩ := child_eq_some.1 hp
  simp only [mmuWalk, hp, if_true, hf]

/-- The top table points to itself, and the tables on the way to level `lv` map no large page. -/
structure Clear (m : Mem) (cr3 va lv : Nat) : Prop where
  self : child (m cr3 511) = some cr3
  selfSmall : large (m cr3 511) = false
  small : ∀ l, lv < l → l ≤ 3 → ∀ g, tableAt m cr3 va l = some g → child (m g (idx va l)) ≠ none →
    large (m g (idx va l)) = false

theorem Good.clear (hg : Good m cr3) (hva : idx va 3 ≠ 511) (lv : Nat) : Clear m cr3 va lv := by
  have hp : ∀ e, child e ≠ none → present e = true := fun e h => by
    by_contra hn
    exact h (child_eq_none.2 (by simpa using hn))
  refine ⟨hg.self, ?_, fun l hl hl3 g hgt hc => ?_⟩
  · exact hg.small [] cr3 511 (by simp [Below]) (by simp) rfl (by norm_num) (hp _ (by rw [hg.self]; simp))
  · exact hg.small _ g _ (below_path hva l) (by rw [length_path va hl3]; omega) hgt (idx_lt va l) (hp _ hc)

theorem mmu_vrtOf {a b c d f2 f1 f0 : Nat} (ha : a < 512) (hb : b < 512) (hc : c < 512) (hd : d < 512) (hj : j < 512)
    (h3 : child (m cr3 a) = some f2 ∧ large (m cr3 a) = false) (h2 : child (m f2 b) = some f1 ∧ large (m f2 b) = false)
    (h1 : child (m f1 c) = some f0 ∧ large (m f1 c) = false) (h0 : child (m f0 d) = some f) :
    mmu m cr3 (vrtOf a b c d + 8 * j) = some (4096 * f + 8 * j) := by
  obtain ⟨i3, i2, i1, i0, ho⟩ := idx_vrtOf ha hb hc hd hj
  rw [← i3] at h3
  rw [← i2] at h2
  rw [← i1] at h1
  rw [← i0] at h0
  rw [mmu, mmuWalk_succ h3.1 h3.2, mmuWalk_succ h2.1 h2.2, mmuWalk_succ h1.1 h1.2, mmuWalk_zero h0, ho]

/-- **The addresses of `entryget` lead to the tables.** -/
theorem mmu_entryget (hc : Clear m cr3 va lv) (hlv : lv ≤ 3) (hf : tableAt m cr3 va lv = some f) (hj : j < 512) :
    mmu m cr3 (entryget va lv + 8 * j) = some (4096 * f + 8 * j) := by
  have h511 : 511 < 512 := by norm_num
  have hself := And.intro hc.self hc.selfSmall
  rcases lv with _ | _ | _ | _ | lv
  · -- the table of level 0 is reached through the tables of level 2 and 1
    simp only [tableAt, path, follow, bind_eq_some_iff, some.injEq] at hf
    obtain ⟨f2, hf2, f1, hf1, f0, hf0, rfl⟩ := hf
    have hl2 := hc.small 3 (by norm_num) le_rfl cr3 rfl (by simp [hf2])
    have hl1 := hc.small 2 (by norm_num) (by norm_num) f2 (by simp [tableAt, path, follow, hf2]) (by simp [hf1])
    exact mmu_vrtOf h511 (idx_lt va 3) (idx_lt va 2) (idx_lt va 1) hj hself ⟨hf2, hl2⟩ ⟨hf1, hl1⟩ hf0
  · simp only [tableAt, path, follow, bind_eq_some_iff, some.injEq] at hf
    obtain ⟨f2, hf2, f1, hf1, rfl⟩ := hf
    have hl2 := hc.small 3 (by norm_num) le_rfl cr3 rfl (by simp [hf2])
    exact mmu_vrtOf h511 h511 (idx_lt va 3) (idx_lt va 2) hj hself hself ⟨hf2, hl2⟩ hf1
  · simp only [tableAt, path, follow, bind_eq_some_iff, some.injEq] at hf
    obtain ⟨f2, hf2, rfl⟩ := hf
    exact mmu_vrtOf h511 h511 h511 (idx_lt va 3) hj hself hself hself hf2
  · obtain rfl : cr3 = f := some.inj hf
    exact mmu_vrtOf h511 h511 h511 h511 hj hself hself hself hc.self
  · omega

section Access

variable (hc : Clear m cr3 va lv) (hlv : lv ≤ 3) (hf : tableAt m cr3 va lv = some f)
include hc hlv hf

theorem load_at (hj : j < 512) : load m cr3 (entryget va lv + 8 * j) = some (m f j) := by
  rw [load, mmu_entryget hc hlv hf hj, map_some, show (4096 * f + 8 * j) / 4096 = f by omega,
    show (4096 * f + 8 * j) % 4096 / 8 = j by omega]

theorem load_entry : load m cr3 (entryOf va lv) = some (m f (idx va lv)) := load_at hc hlv hf (idx_lt va lv)

theorem store_entry (v : Nat) : store m cr3 (entryOf va lv) v = some (setAt m f (idx va lv) v) := by
  have hi := idx_lt va lv
  rw [store, entryOf, mmu_entryget hc hlv hf hi, map_some, show (4096 * f + 8 * idx va lv) / 4096 = f by omega,
    show (4096 * f + 8 * idx va lv) % 4096 / 8 = idx va lv by omega]

theorem clearPage_entryget : clearPage m cr3 (entryget va lv) = some (fillAt m f 0) := by
  have h := mmu_entryget hc hlv hf (show 0 < 512 by norm_num)
  rw [clearPage, show entryget va lv = entryget va lv + 8 * 0 by omega, h, map_some,
    show (4096 * f + 8 * 0) / 4096 = f by omega]

end Access

/-! ## The translation of an address -/

/-- The last entry for `va`, 0 if a table is missing on the way. -/
def entryAt (m : Mem) (cr3 va : Nat) : Nat :=
  match tableAt m cr3 va 0 with
  | some f => m f (idx va 0)
  | none => 0

theorem tableAt_succ (m : Mem) (cr3 va : Nat) (hlv : lv < 3) :
    tableAt m cr3 va lv = (tableAt m cr3 va (lv + 1)).bind fun f => child (m f (idx va (lv + 1))) := by
  rw [tableAt, path_succ va hlv, follow_concat]

theorem tableAt_none (h : tableAt m cr3 va lv = none) : tableAt m cr3 va 0 = none := by
  rcases lv with _ | _ | _ | lv
  · exact h
  · rw [tableAt_succ _ _ _ (by norm_num), h, bind_none]
  · rw [tableAt_succ _ _ _ (by norm_num), tableAt_succ _ _ _ (by norm_num), h, bind_none, bind_none]
  · cases h

theorem entryAt_none (h : tableAt m cr3 va lv = none) : entryAt m cr3 va = 0 := by rw [entryAt, tableAt_none h]

/-- The hardware walk ends at the entry. -/
theorem mmuWalk_eq (hg : Good m cr3) (hva : idx va 3 ≠ 511) (hlv : lv ≤ 3) (hf : tableAt m cr3 va lv = some f) :
    mmuWalk m lv f va = if present (entryAt m cr3 va) then some (4096 * frame (entryAt m cr3 va) + va % 4096)
      else none := by
  induction lv generalizing f with
  | zero => rw [mmuWalk, entryAt, hf]
  | succ lv ih =>
    have hnext := tableAt_succ m cr3 va (show lv < 3 by omega)
    rw [hf, bind_some] at hnext
    cases hc : child (m f (idx va (lv + 1))) with
    | none =>
      rw [entryAt_none (hnext.trans hc), mmuWalk, if_neg (by simp [child_eq_none.1 hc])]
      rfl
    | some g =>
      have hl := (hg.clear hva lv).small (lv + 1) (by omega) hlv f hf (by simp [hc])
      rw [mmuWalk_succ hc hl]
      exact ih (by omega) (hnext.trans hc)

/-- **What the processor does with an address** depends on its last entry only. -/
theorem mmu_eq (hg : Good m cr3) (hva : idx va 3 ≠ 511) : mmu m cr3 va =
    if present (entryAt m cr3 va) then some (4096 * frame (entryAt m cr3 va) + va % 4096) else none :=
  mmuWalk_eq hg hva le_rfl rfl

/-- The query through the windows ends at the same entry. -/
theorem qryWalk_eq (hg : Good m cr3) (hva : idx va 3 ≠ 511) (hlv : lv ≤ 3) (hf : tableAt m cr3 va lv = some f) :
    qryWalk m cr3 va lv = some (if present (entryAt m cr3 va) then addr (entryAt m cr3 va) ||| va % 4096 else 0) := by
  induction lv generalizing f with
  | zero => rw [qryWalk, load_entry (hg.clear hva 0) hlv hf, entryAt, hf, map_some]
  | succ lv ih =>
    have hnext := tableAt_succ m cr3 va (show lv < 3 by omega)
    rw [hf, bind_some] at hnext
    rw [qryWalk, load_entry (hg.clear hva _) hlv hf, bind_some]
    cases hc : child (m f (idx va (lv + 1))) with
    | none =>
      rw [entryAt_none (hnext.trans hc), child_eq_none.1 hc]
      rfl
    | some g =>
      have hl := (hg.clear hva lv).small (lv + 1) (by omega) hlv f hf (by simp [hc])
      rw [(child_eq_some.1 hc).1, hl, if_neg (by simp), if_neg (by simp)]
      exact ih (by omega) (hnext.trans hc)

/-- **The answer of `vmap_query`** depends on the last entry only. -/
theorem vmapQuery_eq (hg : Good m cr3) (hva : idx va 3 ≠ 511) : vmapQuery m cr3 va =
    some (if present (entryAt m cr3 va) then addr (entryAt m cr3 va) ||| va % 4096 else 0) :=
  qryWalk_eq hg hva le_rfl rfl

end TextOS.Vmap
