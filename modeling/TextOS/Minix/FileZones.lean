import TextOS.Minix.Zone

/-!
# The zones of one file: `kernel/fs/minix/minix.c`

A file has seven direct zones and then one tree of blocks for each level.

- **`minix_zget` finds the zones of a file** (`minixZget_rep`);
- **`minix_zext` adds one zone at the end of a file** (`minixZext_rep`), if the bitmap has the zones that it takes
  (`neededFor`).
-/

namespace TextOS.Minix

open Lib List Function

variable {g : ZGeo} {d d' : Zones} {blk blk' : Nat → Bytes} {zone : Nat → Nat} {l n idx z : Nat}

/-! ## The zones of a file -/

/-- The tree of level `l` at `z`; there is none if `z` is zero. -/
def Top (g : ZGeo) (blk : Nat → Bytes) (z l : Nat) (ds is : List Nat) : Prop :=
  (z = 0 ∧ ds = [] ∧ is = []) ∨ (z ≠ 0 ∧ ds ≠ [] ∧ Rep g blk l ⟨z, ds, is⟩)

/-- The trees of `n` levels from `l` on, one behind the other. -/
def Tops (g : ZGeo) (blk : Nat → Bytes) (zone : Nat → Nat) : Nat → Nat → List Nat → List Nat → Prop
  | 0, _, ds, is => ds = [] ∧ is = []
  | n + 1, l, ds, is => ∃ ds₁ is₁ ds₂ is₂, ds = ds₁ ++ ds₂ ∧ is = is₁ ++ is₂ ∧ Top g blk (zone (l + 6)) l ds₁ is₁ ∧
      (ds₂ ≠ [] → ds₁.length = g.m ^ l) ∧ Tops g blk zone n (l + 1) ds₂ is₂

/-- The data zones of a file and its blocks with numbers. There are no holes. -/
structure FileRep (g : ZGeo) (blk : Nat → Bytes) (zone : Nat → Nat) (ds is : List Nat) : Prop where
  direct : ∀ i < 7, zone i = ds[i]?.getD 0
  nonzero : ∀ z ∈ ds.take 7, z ≠ 0
  tops : Tops g blk zone g.levels 1 (ds.drop 7) is

/-- The zones that `n` levels from `l` on can have. -/
def capacity (g : ZGeo) : Nat → Nat → Nat
  | 0, _ => 0
  | n + 1, l => g.m ^ l + capacity g n (l + 1)

/-- The boot block has no numbers: `minix_zget` reads it where a tree is missing. -/
def Booted (g : ZGeo) (blk : Nat → Bytes) : Prop := ∀ i < g.m, entry g.zsz (blk 0) i = 0

variable {ds is : List Nat}

theorem Top.get (h : Top g blk z (l + 1) ds is) (hb : Booted g blk) (hi : idx < g.m ^ (l + 1)) :
    zgetIndirect g blk idx (l + 1) z = ds[idx]? := by
  have hrep : ∃ is', Rep g blk (l + 1) ⟨z, ds, is'⟩ := by
    rcases h with ⟨rfl, rfl, -⟩ | ⟨-, -, hr⟩
    · exact ⟨[0], rep_empty hb⟩
    · exact ⟨is, hr⟩
  obtain ⟨is', hr⟩ := hrep
  rw [zgetIndirect_rep hr, Nat.mod_eq_of_lt hi]

theorem Top.length_le (h : Top g blk z l ds is) : ds.length ≤ g.m ^ l := by
  rcases h with ⟨-, rfl, -⟩ | ⟨-, -, hr⟩
  · exact Nat.zero_le _
  · exact hr.length_le

/-- `zget` finds the zone through the tops. -/
theorem Tops.get {k : Nat} (h : Tops g blk zone n (l + 1) ds is) (hb : Booted g blk) (hk : n ≤ k)
    (hi : idx < capacity g n (l + 1)) : zgetFrom g blk zone k (l + 1) idx = ds[idx]? := by
  induction n generalizing k l ds is idx with
  | zero => exact absurd hi (Nat.not_lt_zero _)
  | succ n ih =>
    obtain ⟨ds₁, is₁, ds₂, is₂, rfl, rfl, ht, hfull, hrest⟩ := h
    obtain ⟨k, rfl⟩ : ∃ k', k = k' + 1 := Nat.exists_eq_succ_of_ne_zero (by omega)
    rw [capacity] at hi
    rw [zgetFrom]
    split
    next hlt =>
      rw [ht.get hb hlt]
      by_cases hd : ds₂ = []
      · rw [hd, append_nil]
      · rw [getElem?_append_left (by rw [hfull hd]; exact hlt)]
    next hge =>
      rw [ih hrest (by omega) (by omega)]
      by_cases hd : ds₂ = []
      · have := ht.length_le
        rw [hd, append_nil, getElem?_nil, getElem?_eq_none (by omega)]
      · rw [getElem?_append_right (by rw [hfull hd]; omega), hfull hd]

theorem Tops.length_le (h : Tops g blk zone n l ds is) : ds.length ≤ capacity g n l := by
  induction n generalizing l ds is with
  | zero => rw [h.1]; rfl
  | succ n ih =>
    obtain ⟨ds₁, is₁, ds₂, is₂, rfl, rfl, ht, -, hrest⟩ := h
    rw [length_append, capacity]
    exact Nat.add_le_add ht.length_le (ih hrest)

theorem FileRep.length_le (h : FileRep g blk zone ds is) : ds.length ≤ 7 + capacity g g.levels 1 := by
  have := h.tops.length_le
  rw [length_drop] at this
  omega

/-- **`minix_zget` finds the zones of a file.** -/
theorem minixZget_rep (h : FileRep g blk zone ds is) (hb : Booted g blk)
    (hi : idx < 7 + capacity g g.levels 1) : minixZget g blk zone idx = ds[idx]? := by
  rw [minixZget]
  split
  next hlt =>
    rw [h.direct idx hlt]
    cases hd : ds[idx]? with
    | none => rfl
    | some z =>
      have hz : z ∈ ds.take 7 := mem_of_getElem? (i := idx) (by rw [getElem?_take, if_pos hlt, hd])
      exact if_neg (h.nonzero z hz)
  next hge =>
    have hcap : idx - 7 < capacity g g.levels 1 := by omega
    rw [h.tops.get hb g.levelsLe hcap, getElem?_drop]
    congr 1
    omega

/-! ## Extending a file -/

/-- The zones that are allocated to add one behind the first `r` of `n` levels from `l` on. -/
def neededFrom (g : ZGeo) : Nat → Nat → Nat → Nat
  | 0, _, _ => 0
  | n + 1, l, r =>
    if r < g.m ^ l then (if r = 0 then 1 else 0) + needed g l r else neededFrom g n (l + 1) (r - g.m ^ l)

/-- The zones that are allocated to add one behind the first `r` of a file. -/
def neededFor (g : ZGeo) (r : Nat) : Nat := if r < 7 then 1 else neededFrom g g.levels 1 (r - 7)

theorem Top.congr (h : Top g blk z l ds is) (hb : ∀ b ∈ is, blk' b = blk b) : Top g blk' z l ds is := by
  rcases h with h | ⟨h0, hne, hr⟩
  · exact .inl h
  · exact .inr ⟨h0, hne, hr.congr hb⟩

theorem Tops.congr {zone' : Nat → Nat} (h : Tops g blk zone n l ds is) (hb : ∀ b ∈ is, blk' b = blk b)
    (hz : ∀ i, l + 6 ≤ i → zone' i = zone i) : Tops g blk' zone' n l ds is := by
  induction n generalizing l ds is with
  | zero => exact h
  | succ n ih =>
    obtain ⟨ds₁, is₁, ds₂, is₂, rfl, rfl, ht, hfull, hrest⟩ := h
    refine ⟨ds₁, is₁, ds₂, is₂, rfl, rfl, ?_, hfull, ?_⟩
    · rw [hz _ le_rfl]
      exact ht.congr fun b hm => hb b (mem_append_left _ hm)
    · exact ih hrest (fun b hm => hb b (mem_append_right _ hm)) fun i hi => hz i (by omega)

theorem FileRep.congr (h : FileRep g blk zone ds is) (hb : ∀ b ∈ is, blk' b = blk b) : FileRep g blk' zone ds is :=
  ⟨h.direct, h.nonzero, h.tops.congr hb fun _ _ => rfl⟩

theorem Tops.nil (h : Tops g blk zone n l [] is) : is = [] := by
  induction n generalizing l is with
  | zero => exact h.2
  | succ n ih =>
    obtain ⟨ds₁, is₁, ds₂, is₂, hd, rfl, ht, -, hrest⟩ := h
    obtain ⟨rfl, rfl⟩ := append_eq_nil_iff.1 hd.symm
    rw [ih hrest, append_nil]
    rcases ht with ⟨-, -, h⟩ | ⟨-, hne, -⟩
    · exact h
    · exact absurd rfl hne

theorem zextFrom_done (n l : Nat) (d : Zones) (zone : Nat → Nat) : zextFrom g n l d zone 0 = (d, zone, 0) := by
  cases n <;> rfl

/-- One top grows by a zone. -/
theorem Top.ext (hn : Numbered g d) (h : Top g d.blk (zone (l + 7)) (l + 1) ds is) (hnd : is.Nodup)
    (hlt : ds.length < g.m ^ (l + 1)) (hfresh : ∀ z ∈ free g d, z ∉ is)
    (hneed : (if ds.length = 0 then 1 else 0) + needed g (l + 1) ds.length ≤ (free g d).card) :
    ∃ d' z0 z new, zextFrom g (n + 1) (l + 1) d zone 1 = (d', update zone (l + 7) z0, 0) ∧
      Top g d'.blk z0 (l + 1) (ds ++ [z]) (is ++ new) ∧ Grown g d d' is (z :: new) ∧
      new.length + 1 = (if ds.length = 0 then 1 else 0) + needed g (l + 1) ds.length := by
  rw [zextFrom, if_neg Nat.one_ne_zero]
  rcases h with ⟨h0, rfl, rfl⟩ | ⟨h0, hne, hr⟩
  · rw [length_nil, if_pos rfl] at hneed
    obtain ⟨r, d1, ha, hf⟩ := zalloc_fresh hn (by omega)
    have hcard := hf.card
    obtain ⟨d', z, new, hext, hadds⟩ := zextIndirect_rep (l := l) (hf.numbered hn) hf.empty (nodup_singleton r)
      (Nat.pow_pos g.mPos) hf.apart (by rw [length_nil]; omega)
    refine ⟨d', r, z, r :: new, ?_, .inr ⟨ne_zero_of_free hf.taken, by simp, hadds.rep⟩,
      hf.grown (nil_subset _) hadds.grown, ?_⟩
    · simp only [h0, ha, if_true, update_self, hext]
      exact zextFrom_done ..
    have := hadds.count
    rw [length_nil] at this
    rw [length_cons, length_nil, if_pos rfl]
    omega
  · have hpos : ds.length ≠ 0 := fun h => hne (eq_nil_of_length_eq_zero h)
    rw [if_neg hpos, Nat.zero_add] at hneed ⊢
    obtain ⟨d', z, new, hext, hadds⟩ := zextIndirect_rep hn hr hnd hlt hfresh hneed
    refine ⟨d', zone (l + 7), z, new, ?_, .inr ⟨h0, by simp, hadds.rep⟩, hadds.grown, hadds.count⟩
    simp only [if_neg h0, hext, update_eq_self]
    exact zextFrom_done ..

/-- The first top with room grows. -/
theorem Tops.ext (hn : Numbered g d) (h : Tops g d.blk zone n (l + 1) ds is) (hnd : is.Nodup)
    (hlt : ds.length < capacity g n (l + 1)) (hfresh : ∀ z ∈ free g d, z ∉ is)
    (hneed : neededFrom g n (l + 1) ds.length ≤ (free g d).card) :
    ∃ d' zone' z new, zextFrom g n (l + 1) d zone 1 = (d', zone', 0) ∧ (∀ i < l + 7, zone' i = zone i) ∧
      Tops g d'.blk zone' n (l + 1) (ds ++ [z]) (is ++ new) ∧ Grown g d d' is (z :: new) ∧
      new.length + 1 = neededFrom g n (l + 1) ds.length := by
  induction n generalizing l ds is with
  | zero => exact absurd hlt (Nat.not_lt_zero _)
  | succ n ih =>
    obtain ⟨ds₁, is₁, ds₂, is₂, rfl, rfl, ht, hfull, hrest⟩ := h
    rw [neededFrom] at hneed ⊢
    rw [capacity] at hlt
    by_cases hroom : ds₁.length < g.m ^ (l + 1)
    · -- the tree of this level has room, so the next ones are empty
      obtain rfl : ds₂ = [] := by
        by_contra hne
        exact hroom.ne (hfull hne)
      obtain rfl := hrest.nil
      simp only [append_nil] at hneed hfresh hnd ⊢
      rw [if_pos hroom] at hneed ⊢
      obtain ⟨d', z0, z, new, hext, htop, hgrown, hcount⟩ := ht.ext (n := n) hn hnd hroom hfresh hneed
      refine ⟨d', _, z, new, hext, fun i hi => update_of_ne (by omega) _ _, ?_, hgrown, hcount⟩
      refine ⟨ds₁ ++ [z], is₁ ++ new, [], [], by simp, by simp, ?_, nofun, ?_⟩
      · rwa [update_self]
      · exact hrest.congr (forall_mem_nil _) fun i hi => update_of_ne (by omega) _ _
    · -- it is full, and so it is there
      have hlen : ds₁.length = g.m ^ (l + 1) := by
        have := ht.length_le
        omega
      obtain ⟨h0, -, hr⟩ : zone (l + 7) ≠ 0 ∧ ds₁ ≠ [] ∧ Rep g d.blk (l + 1) ⟨zone (l + 7), ds₁, is₁⟩ := by
        rcases ht with ⟨-, rfl, -⟩ | h
        · exact absurd hlen (Nat.pow_pos g.mPos).ne
        · exact h
      rw [length_append, hlen, if_neg (by omega), Nat.add_sub_cancel_left] at hneed ⊢
      rw [length_append] at hlt
      obtain ⟨d', zone', z, new, hext, hzone, htops, hgrown, hcount⟩ := ih hrest (nodup_append.1 hnd).2.1
        (by omega) (fun z hz hm => hfresh z hz (mem_append_right _ hm)) hneed
      have hkeep : ∀ b ∈ is₁, d'.blk b = d.blk b := fun b hb => by
        refine hgrown.blk b (fun hm => (nodup_append.1 hnd).2.2 b hb b hm rfl) fun hm => ?_
        exact hfresh b (hgrown.taken b hm) (mem_append_left _ hb)
      refine ⟨d', zone', z, new, ?_, fun i hi => hzone i (by omega), ?_, ?_, hcount⟩
      · rw [zextFrom, if_neg Nat.one_ne_zero]
        simp only [if_neg h0, zextIndirect_full hr hlen]
        exact hext
      · refine ⟨ds₁, is₁, ds₂ ++ [z], is₂ ++ new, by simp, by simp, ?_, fun _ => hlen, htops⟩
        rw [hzone _ (by omega)]
        exact ht.congr hkeep
      · exact { hgrown with blk := fun b hb => hgrown.blk b fun hm => hb (mem_append_right _ hm) }

theorem zextDirect_done (n : Nat) (d : Zones) (zone : Nat → Nat) : zextDirect g n d zone 0 = (d, zone, 0) := by
  cases n <;> rfl

theorem zextDirect_skip {k : Nat} (hk : k ≤ 7) (h : ∀ i < k, zone i ≠ 0) :
    zextDirect g 7 d zone 1 = zextDirect g (7 - k) d zone 1 := by
  induction k with
  | zero => rfl
  | succ k ih =>
    rw [ih (by omega) fun i hi => h i (by omega), show 7 - k = 7 - (k + 1) + 1 by omega, zextDirect,
      if_neg Nat.one_ne_zero, if_neg]
    rw [show 7 - (7 - (k + 1) + 1) = k by omega]
    exact h k (Nat.lt_succ_self k)

theorem FileRep.direct_ne (h : FileRep g blk zone ds is) {i : Nat} (hi : i < 7) (hlt : i < ds.length) : zone i ≠ 0 := by
  rw [h.direct i hi, getElem?_eq_getElem hlt]
  exact h.nonzero _ (mem_take_iff_getElem.2 ⟨i, by omega, rfl⟩)

/-- **`minix_zext` adds one zone at the end of a file.** -/
theorem minixZext_rep (hn : Numbered g d) (h : FileRep g d.blk zone ds is) (hnd : is.Nodup)
    (hlt : ds.length < 7 + capacity g g.levels 1) (hfresh : ∀ z ∈ free g d, z ∉ is)
    (hneed : neededFor g ds.length ≤ (free g d).card) :
    ∃ d' zone' z new, minixZext g d zone 1 = (d', zone', 0) ∧ FileRep g d'.blk zone' (ds ++ [z]) (is ++ new) ∧
      Grown g d d' is (z :: new) ∧ new.length + 1 = neededFor g ds.length := by
  rw [neededFor] at hneed ⊢
  rw [minixZext]
  by_cases hroom : ds.length < 7
  · rw [if_pos hroom] at hneed ⊢
    obtain ⟨z, d', ha, hz, hblk, hfree⟩ := minixZalloc_spec hn (Finset.card_pos.1 (by omega))
    have hskip := zextDirect_skip (g := g) (d := d) hroom.le fun i hi => h.direct_ne (by omega) hi
    have hzero : zone ds.length = 0 := by rw [h.direct _ hroom, getElem?_eq_none le_rfl]; rfl
    have hd : ds.drop 7 = [] := drop_eq_nil_of_le hroom.le
    have hd' : (ds ++ [z]).drop 7 = [] := drop_eq_nil_of_le (by simp; omega)
    have htops := h.tops
    rw [hd] at htops
    obtain rfl := htops.nil
    refine ⟨d', update zone ds.length z, z, [], ?_, ⟨fun i hi => ?_, fun x hx => ?_, ?_⟩, ?_, rfl⟩
    · rw [hskip, show 7 - ds.length = 7 - ds.length - 1 + 1 by omega, zextDirect, if_neg Nat.one_ne_zero,
        show 7 - (7 - ds.length - 1 + 1) = ds.length by omega, if_pos hzero, ha]
      simp only [Nat.sub_self, zextDirect_done, zextFrom_done]
    · by_cases he : i = ds.length
      · rw [he, update_self, getElem?_append_right le_rfl, Nat.sub_self]
        rfl
      rw [update_of_ne he, h.direct i hi]
      by_cases hl : i < ds.length
      · rw [getElem?_append_left hl]
      · rw [getElem?_eq_none (by omega), getElem?_eq_none (by simp; omega)]
    · rw [take_of_length_le (by simp; omega)] at hx
      rcases mem_append.1 hx with hx | hx
      · exact h.nonzero x (by rwa [take_of_length_le hroom.le])
      · rw [mem_singleton.1 hx]
        exact ne_zero_of_free hz
    · rw [hd', append_nil]
      exact htops.congr (forall_mem_nil _) fun i hi => update_of_ne (by omega) _ _
    refine ⟨nodup_singleton z, fun x hx => mem_singleton.1 hx ▸ hz, ?_, fun b _ _ => by rw [hblk]⟩
    rw [hfree]
    ext x
    simp [and_comm]
  · rw [if_neg hroom] at hneed ⊢
    have hlen : (ds.drop 7).length = ds.length - 7 := length_drop
    rw [← hlen] at hneed ⊢
    have hcap : (ds.drop 7).length < capacity g g.levels 1 := by omega
    obtain ⟨d', zone', z, new, hext, hzone, htops, hgrown, hcount⟩ := h.tops.ext hn hnd hcap hfresh hneed
    refine ⟨d', zone', z, new, ?_, ⟨fun i hi => ?_, fun x hx => ?_, ?_⟩, hgrown, hcount⟩
    · rw [zextDirect_skip le_rfl fun i hi => h.direct_ne hi (by omega)]
      exact hext
    · rw [hzone i hi, h.direct i hi, getElem?_append_left (by omega)]
    · rw [take_append_of_le_length (by omega)] at hx
      exact h.nonzero x hx
    · rwa [drop_append_of_le_length (by omega)]

end TextOS.Minix
