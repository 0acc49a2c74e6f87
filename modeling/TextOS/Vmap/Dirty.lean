import TextOS.Vmap.Walk

/-!
# Scanning for dirty pages: `vmap_scan_dirty`

The result of a scan is the list of the addresses the callback is called with. The walk cuts the range at each level by
the indices of `s` and `t` at that level, in every table it comes to, takes both ends, and hands the start of the page
table to the callback instead of the page.

- `hits`: how often the callback is called for a page table that the walk comes to (`Reached`); `scan_count`: these are
  the calls;
- **a scan reports exactly the dirty pages of its range if and only if they all start page tables that the walk comes
  to, and in each such table one entry is found where its first page is among them, and none otherwise**
  (`scanDirty_exact`).
-/

namespace TextOS.Vmap

open Lib List

/-- `PE_A`. -/
def accessed (entry : Nat) : Bool := entry / 32 % 2 == 1

/-- `PE_D`. -/
def dirty (entry : Nat) : Bool := entry / 64 % 2 == 1

def adr (idx level : Nat) : Nat := idx % 512 * 2 ^ (level * 9 + 12)

/-- The indices `sidx` to `tidx` of the loop at level `lv`. -/
def scanIndices (s t lv : Nat) : List Nat :=
  let tidx := if idx t lv = 0 then 511 else idx t lv
  List.range' (idx s lv) (tidx + 1 - idx s lv)

/-- The calls of the rounds of a loop, one after the other. -/
def calls (body : Nat → Option (List Nat)) : List Nat → Option (List Nat)
  | [] => some []
  | i :: l => (body i).bind fun a => (calls body l).map (a ++ ·)

/-- `scan_dirty_walk`; `none` when an access faults. -/
def scanDirtyWalk (m : Mem) (cr3 s t : Nat) : Nat → Nat → Option (List Nat)
  | 0, vrt => calls (fun i => (load m cr3 (entryget vrt 0 + 8 * i)).map fun e =>
      if !accessed e then [] else if !present e then [] else if dirty e then [vrt] else []) (scanIndices s t 0)
  | lv + 1, vrt => calls (fun i => (load m cr3 (entryget vrt (lv + 1) + 8 * i)).bind fun e =>
      if !accessed e then some [] else if !present e then some []
      else scanDirtyWalk m cr3 s t lv (vrt ||| adr i (lv + 1))) (scanIndices s t (lv + 1))

def vmapScanDirty (m : Mem) (cr3 s t : Nat) : Option (List Nat) := scanDirtyWalk m cr3 s t 3 0

/-! ## Dirty pages -/

/-- The page of `va` is present, accessed and dirty. -/
def Dirty (m : Mem) (cr3 va : Nat) : Prop :=
  ∃ f, tableAt m cr3 va 0 = some f ∧ present (m f (idx va 0)) = true ∧ accessed (m f (idx va 0)) = true ∧
    dirty (m f (idx va 0)) = true

/-- How many entries the loop in the page table of `x` finds. -/
def hits (m : Mem) (cr3 s t x : Nat) : Nat := (tableAt m cr3 x 0).elim 0 fun f =>
  (scanIndices s t 0).countP fun j => accessed (m f j) && present (m f j) && dirty (m f j)

/-- The walk follows the entry for `va` in the table of level `l`. -/
def Follows (m : Mem) (cr3 s t va l : Nat) : Prop := idx va l ∈ scanIndices s t l ∧
  ∃ f, tableAt m cr3 va l = some f ∧ accessed (m f (idx va l)) = true ∧ present (m f (idx va l)) = true

/-- The walk comes from a table of level `lv` to the page table of `va`. -/
def Comes (m : Mem) (cr3 s t va lv : Nat) : Prop := ∀ l, 1 ≤ l → l ≤ lv → Follows m cr3 s t va l

/-- The walk comes to the page table of `va`. -/
def Reached (m : Mem) (cr3 s t va : Nat) : Prop := Comes m cr3 s t va 3

/-- The dirty pages of the range start page tables that the walk comes to, and in a table that it comes to it finds one
entry if the first page is among them, and otherwise none. -/
structure Counted (m : Mem) (cr3 s t : Nat) : Prop where
  aligned : ∀ va, s ≤ va → va < t → va % 2 ^ 12 = 0 → Dirty m cr3 va → va % 2 ^ 21 = 0
  reached : ∀ x, s ≤ x → x < t → x % 2 ^ 21 = 0 → Dirty m cr3 x → Reached m cr3 s t x
  one : ∀ x, s ≤ x → x < t → x % 2 ^ 21 = 0 → Dirty m cr3 x → hits m cr3 s t x = 1
  none : ∀ x < 2 ^ 48, x % 2 ^ 21 = 0 → Reached m cr3 s t x → ¬ (s ≤ x ∧ x < t ∧ Dirty m cr3 x) → hits m cr3 s t x = 0

variable {m : Mem} {cr3 s t lv vrt x y f i : Nat}

theorem calls_eq {body : Nat → Option (List Nat)} {g : Nat → List Nat} {l : List Nat}
    (h : ∀ i ∈ l, body i = some (g i)) : calls body l = some (l.flatMap g) := by
  induction l with
  | nil => rfl
  | cons i l ih =>
    rw [calls, h i mem_cons_self, Option.bind_some, ih fun j hj => h j (mem_cons_of_mem i hj), Option.map_some,
      flatMap_cons]

/-! ## Addresses and levels -/

theorem div_level (x lv : Nat) : x / 2 ^ ((lv + 1) * 9 + 21) = x / 2 ^ (lv * 9 + 21) / 512 := by
  rw [Nat.div_div_eq_div_mul, show (512 : Nat) = 2 ^ 9 from rfl, ← pow_add,
    show (lv + 1) * 9 + 21 = lv * 9 + 21 + 9 by omega]

theorem idx_succ (x lv : Nat) : idx x (lv + 1) = x / 2 ^ (lv * 9 + 21) % 512 := by
  rw [idx, show (lv + 1) * 9 + 12 = lv * 9 + 21 by omega]

theorem idx_congr (h : x / 2 ^ (lv * 9 + 21) = y / 2 ^ (lv * 9 + 21)) {l : Nat} (hl : lv < l) : idx x l = idx y l := by
  obtain ⟨k, rfl⟩ := Nat.exists_eq_add_of_lt hl
  have hpow : 2 ^ ((lv + k + 1) * 9 + 12) = 2 ^ (lv * 9 + 21) * 2 ^ (k * 9) := by
    rw [← pow_add, show (lv + k + 1) * 9 + 12 = lv * 9 + 21 + k * 9 by omega]
  rw [idx, idx, hpow, ← Nat.div_div_eq_div_mul, ← Nat.div_div_eq_div_mul, h]

/-- Addresses with the same upper indices have the same tables. -/
theorem tableAt_congr (m : Mem) (cr3 : Nat) (h : x / 2 ^ (lv * 9 + 21) = y / 2 ^ (lv * 9 + 21)) :
    tableAt m cr3 x lv = tableAt m cr3 y lv := by
  have hidx : ∀ l, lv < l → idx x l = idx y l := fun l => idx_congr h
  rcases lv with _ | _ | _ | lv
  · simp only [tableAt, path, hidx 3 (by omega), hidx 2 (by omega), hidx 1 (by omega)]
  · simp only [tableAt, path, hidx 3 (by omega), hidx 2 (by omega)]
  · simp only [tableAt, path, hidx 3 (by omega)]
  · rfl

/-- The address of the table behind an entry. -/
theorem or_adr (hv : vrt % 2 ^ ((lv + 1) * 9 + 21) = 0) (hi : i < 512) :
    vrt ||| adr i (lv + 1) = vrt + i * 2 ^ (lv * 9 + 21) := by
  obtain ⟨k, rfl⟩ := Nat.dvd_of_mod_eq_zero hv
  have hpow : 2 ^ ((lv + 1) * 9 + 21) = 512 * 2 ^ (lv * 9 + 21) := by
    rw [show (512 : Nat) = 2 ^ 9 from rfl, ← pow_add, show 9 + (lv * 9 + 21) = (lv + 1) * 9 + 21 by omega]
  have hlt : i * 2 ^ (lv * 9 + 21) < 2 ^ ((lv + 1) * 9 + 21) := by
    rw [hpow]
    exact (Nat.mul_lt_mul_right (Nat.two_pow_pos _)).2 hi
  rw [adr, Nat.mod_eq_of_lt hi, show (lv + 1) * 9 + 12 = lv * 9 + 21 by omega, Nat.two_pow_add_eq_or_of_lt hlt]

/-- The tables behind the entries of one table are told apart by the index. -/
theorem div_add_mul (hv : vrt % 2 ^ ((lv + 1) * 9 + 21) = 0) (hi : i < 512) :
    x / 2 ^ (lv * 9 + 21) = (vrt + i * 2 ^ (lv * 9 + 21)) / 2 ^ (lv * 9 + 21) ↔
      x / 2 ^ ((lv + 1) * 9 + 21) = vrt / 2 ^ ((lv + 1) * 9 + 21) ∧ idx x (lv + 1) = i := by
  rw [Nat.add_mul_div_right _ _ (Nat.two_pow_pos _), div_level, div_level, idx_succ]
  have hzero : vrt / 2 ^ (lv * 9 + 21) % 512 = 0 := by
    obtain ⟨k, rfl⟩ := Nat.dvd_of_mod_eq_zero hv
    rw [show (lv + 1) * 9 + 21 = lv * 9 + 21 +
      9 by omega, pow_add, Nat.mul_assoc, Nat.mul_div_cancel_left _ (Nat.two_pow_pos _)]
    exact Nat.mul_mod_right _ _
  omega

/-! ## The calls -/

/-- Only one of the lists has the element. -/
theorem count_flatMap_of_unique {g : Nat → List Nat} {a : Nat} (i₀ : Nat) : ∀ {l : List Nat}, l.Nodup →
    (∀ i ∈ l, i ≠ i₀ → (g i).count a = 0) → (l.flatMap g).count a = if i₀ ∈ l then (g i₀).count a else 0
  | [], _, _ => rfl
  | i :: l, hnd, h => by
    obtain ⟨hi, hnd⟩ := nodup_cons.1 hnd
    obtain ⟨hhead, htail⟩ := forall_mem_cons.1 h
    rw [flatMap_cons, count_append, count_flatMap_of_unique i₀ hnd htail]
    by_cases he : i = i₀
    · subst he
      simp [hi]
    · simp [hhead he, Ne.symm he]

theorem nodup_scanIndices (s t lv : Nat) : (scanIndices s t lv).Nodup := nodup_range'

theorem lt_of_mem_scanIndices (h : i ∈ scanIndices s t lv) : i < 512 := by
  unfold scanIndices at h
  dsimp only at h
  rw [mem_range'_1] at h
  have := idx_lt t lv
  split at h <;> omega

open Classical in
/-- **The calls from one table on**: for each page table that the walk comes to, its start as often as entries are
found. -/
theorem scan_count (hc : ∀ lv va, va < 2 ^ 48 → (∀ l, lv < l → l ≤ 3 → idx va l ∈ scanIndices s t l) →
    Clear m cr3 va lv) : ∀ (lv vrt : Nat) {f : Nat}, lv ≤ 3 → vrt < 2 ^ 48 → vrt % 2 ^ (lv * 9 + 21) = 0 →
    (∀ l, lv < l → l ≤ 3 → idx vrt l ∈ scanIndices s t l) → tableAt m cr3 vrt lv = some f → ∃ l,
    scanDirtyWalk m cr3 s t lv vrt = some l ∧ ∀ x, l.count x =
      if x % 2 ^ 21 = 0 ∧ x / 2 ^ (lv * 9 + 21) = vrt / 2 ^ (lv * 9 + 21) ∧
        Comes m cr3 s t x lv then hits m cr3 s t x else 0
  | 0, vrt, f, hlv, hlow, hv, hin, hf => by
    have hclear := hc 0 vrt hlow hin
    refine ⟨_, calls_eq (g := fun j => if accessed (m f j) && present (m f j) && dirty (m f j) then [vrt] else [])
      fun j hj => ?_, fun x => ?_⟩
    · rw [load_at hclear hlv hf (lt_of_mem_scanIndices hj), Option.map_some]
      cases accessed (m f j) <;> cases present (m f j) <;> cases dirty (m f j) <;> rfl
    have hcount : ∀ l : List Nat, (l.flatMap fun j => if accessed (m f j) && present (m f j) && dirty (m f j)
      then [vrt] else
        []).count x = if x = vrt then l.countP fun j => accessed (m f j) && present (m f j) && dirty
        (m f j) else 0 := by
      intro l
      induction l with
      | nil => simp
      | cons j l ih =>
        rw [flatMap_cons, count_append, ih, countP_cons]
        by_cases hx : x = vrt
        · subst hx
          by_cases hj : (accessed (m f j) && present (m f j) && dirty (m f j)) = true
          · simp [hj, Nat.add_comm]
          · simp [hj]
        · by_cases hj : (accessed (m f j) && present (m f j) && dirty (m f j)) = true
          · simp [hj, hx, Ne.symm hx]
          · simp [hj, hx]
    rw [hcount]
    have hiff : (x % 2 ^ 21 = 0 ∧ x / 2 ^ (0 * 9 + 21) = vrt / 2 ^ (0 * 9 + 21) ∧ Comes m cr3 s t x 0) ↔ x = vrt := by
      refine ⟨fun h => ?_, fun h => ⟨by rw [h]; exact hv, by rw [h], fun l h1 h0 => absurd h1 (by omega)⟩⟩
      have := h.1
      have := h.2.1
      omega
    rw [if_congr hiff rfl rfl]
    split
    next hx => rw [hx, hits, hf, Option.elim_some]
    next => rfl
  | lv + 1, vrt, f, hlv, hlow, hv, hin, hf => by
    have hclear := hc (lv + 1) vrt hlow hin
    -- what is found behind one entry
    have hentry : ∀ i ∈ scanIndices s t (lv + 1), ∃ l, (load m cr3 (entryget vrt (lv + 1) + 8 * i)).bind (fun e =>
        if !accessed e then some [] else if !present e then some []
        else scanDirtyWalk m cr3 s t lv (vrt ||| adr i (lv + 1))) = some l ∧ ∀ x, l.count x =
          if x % 2 ^ 21 = 0 ∧ (x / 2 ^ ((lv + 1) * 9 + 21) = vrt / 2 ^ ((lv + 1) * 9 + 21) ∧ idx x (lv + 1) = i) ∧
            accessed (m f i) = true ∧ present (m f i) = true ∧ Comes m cr3 s t x lv then hits m cr3 s t x else 0 := by
      intro i hi
      have hi512 := lt_of_mem_scanIndices hi
      rw [load_at hclear hlv hf hi512, Option.bind_some]
      cases ha : accessed (m f i) with
      | false => exact ⟨[], rfl, fun x => by simp⟩
      | true =>
        cases hp : present (m f i) with
        | false => exact ⟨[], rfl, fun x => by simp⟩
        | true =>
          have hdiv := div_add_mul (x := vrt + i * 2 ^ (lv * 9 + 21)) hv hi512
          obtain ⟨hup, hidx⟩ := hdiv.1 rfl
          have hlow' : vrt + i * 2 ^ (lv * 9 + 21) < 2 ^ 48 := by
            have : lv = 0 ∨ lv = 1 ∨ lv = 2 := by omega
            rcases this with rfl | rfl | rfl <;> omega
          have hmod : (vrt + i * 2 ^ (lv * 9 + 21)) % 2 ^ (lv * 9 + 21) = 0 := by
            rw [Nat.add_mul_mod_self_right]
            exact Nat.mod_eq_zero_of_dvd ((pow_dvd_pow 2 (by omega)).trans (Nat.dvd_of_mod_eq_zero hv))
          have htab : tableAt m cr3 (vrt + i * 2 ^ (lv * 9 + 21)) lv = some (frame (m f i)) := by
            rw [tableAt_succ m cr3 _ (by omega), tableAt_congr m cr3 hup, hf, Option.bind_some, hidx]
            exact child_eq_some.2 ⟨hp, rfl⟩
          have hin' : ∀ l, lv < l → l ≤ 3 → idx (vrt + i * 2 ^ (lv * 9 + 21)) l ∈ scanIndices s t l := by
            intro l hl hl3
            rcases Nat.lt_or_ge (lv + 1) l with hlt | hge
            · rw [idx_congr hup hlt]
              exact hin l hlt hl3
            · obtain rfl : l = lv + 1 := by omega
              rwa [hidx]
          obtain ⟨l, hl, hcount⟩ := scan_count hc lv _ (by omega) hlow' hmod hin' htab
          refine ⟨l, ?_, fun x => ?_⟩
          · rw [or_adr hv hi512]
            exact hl
          · rw [hcount]
            refine if_congr (and_congr_right fun _ => and_congr (div_add_mul hv hi512) ?_) rfl rfl
            simp only [true_and]
    choose! g hg hcount using hentry
    refine ⟨_, calls_eq hg, fun x => ?_⟩
    rw [count_flatMap_of_unique (idx x (lv + 1)) (nodup_scanIndices ..) fun i hi hne => ?_]
    · by_cases hmem : idx x (lv + 1) ∈ scanIndices s t (lv + 1)
      · rw [if_pos hmem, hcount _ hmem]
        refine if_congr (and_congr_right fun _ => ?_) rfl rfl
        constructor
        · rintro ⟨⟨hup, -⟩, ha, hp, hcomes⟩
          refine ⟨hup, fun l h1 hl => ?_⟩
          rcases Nat.lt_or_ge lv l with hlt | hge
          · obtain rfl : l = lv + 1 := by omega
            exact ⟨hmem, f, (tableAt_congr m cr3 hup).trans hf, ha, hp⟩
          · exact hcomes l h1 hge
        · rintro ⟨hup, hcomes⟩
          obtain ⟨-, f', hf', ha, hp⟩ := hcomes (lv + 1) (by omega) le_rfl
          obtain rfl : f' = f := Option.some.inj (hf'.symm.trans ((tableAt_congr m cr3 hup).trans hf))
          exact ⟨⟨hup, rfl⟩, ha, hp, fun l h1 hl => hcomes l h1 (by omega)⟩
      · rw [if_neg hmem, if_neg]
        exact fun h => hmem (h.2.2 (lv + 1) (by omega) le_rfl).1
    · rw [hcount i hi, if_neg]
      exact fun h => hne h.2.1.2.symm

/-- **The calls of a scan are the dirty pages of the range, each once,** if and only if those start page tables that the
walk comes to, and no other entry is found there. -/
theorem scanDirty_exact (m : Mem) (cr3 s t : Nat) (ht : t ≤ 2 ^ 47)
    (hc : ∀ lv va, va < 2 ^ 48 → (∀ l, lv < l → l ≤ 3 → idx va l ∈ scanIndices s t l) → Clear m cr3 va lv) :
    (∃ l, vmapScanDirty m cr3 s t = some l ∧ l.Nodup ∧
      ∀ va, va ∈ l ↔ va % 2 ^ 12 = 0 ∧ s ≤ va ∧ va < t ∧ Dirty m cr3 va) ↔ Counted m cr3 s t := by
  classical
  obtain ⟨l, hl, hcount⟩ := scan_count hc 3 0 (f := cr3) le_rfl (by norm_num) rfl
    (fun l h3 h => absurd h (by omega)) rfl
  have hcount : ∀ x, l.count x = if x % 2 ^ 21 = 0 ∧ x < 2 ^ 48 ∧ Reached m cr3 s t x then hits m cr3 s t x else 0 := by
    intro x
    rw [hcount x]
    refine if_congr (and_congr_right fun _ => and_congr_left fun _ => ?_) rfl rfl
    omega
  rw [vmapScanDirty, hl]
  simp only [Option.some.injEq, exists_eq_left']
  constructor
  · rintro ⟨hnd, hmem⟩
    -- a page that is reported starts a page table that the walk comes to
    have hpos : ∀ x, s ≤ x → x < t → x % 2 ^ 12 = 0 → Dirty m cr3 x →
        x % 2 ^ 21 = 0 ∧ Reached m cr3 s t x ∧ hits m cr3 s t x = 1 := by
      intro x hs ht hx hd
      have hone := count_eq_one_of_mem hnd ((hmem x).2 ⟨hx, hs, ht, hd⟩)
      rw [hcount] at hone
      split at hone
      next h => exact ⟨h.1, h.2.2, hone⟩
      next => omega
    refine ⟨fun va hs ht hva hd => (hpos va hs ht hva hd).1, fun x hs ht hx hd => (hpos x hs ht (by omega) hd).2.1,
      fun x hs ht hx hd => (hpos x hs ht (by omega) hd).2.2, fun x hx hstart hr hno => ?_⟩
    have hzero := count_eq_zero.2 fun h => hno ((hmem x).1 h).2
    rwa [hcount, if_pos ⟨hstart, hx, hr⟩] at hzero
  · intro h
    have hval : ∀ x, l.count x = if x % 2 ^ 12 = 0 ∧ s ≤ x ∧ x < t ∧ Dirty m cr3 x then 1 else 0 := by
      intro x
      rw [hcount]
      by_cases hp : x % 2 ^ 12 = 0 ∧ s ≤ x ∧ x < t ∧ Dirty m cr3 x
      · obtain ⟨hx, hs, hxt, hd⟩ := hp
        have hstart := h.aligned x hs hxt hx hd
        rw [if_pos ⟨hstart, by omega, h.reached x hs hxt hstart hd⟩, if_pos ⟨hx, hs, hxt, hd⟩, h.one x hs hxt hstart hd]
      · split
        next hr => exact h.none x hr.2.1 hr.1 hr.2.2 fun hno => hp ⟨by omega, hno⟩
        next => rfl
    refine ⟨nodup_iff_count_le_one.2 fun x => ?_, fun x => ?_⟩
    · rw [hval]
      split <;> omega
    · rw [← count_pos_iff, hval]
      split
      next hp => exact iff_of_true Nat.one_pos hp
      next hp => exact iff_of_false (lt_irrefl 0) hp

/-- A page table in frame 1: the tables 2, 3 and 4 behind the indices 1, and in table 4 the page with index `j` dirty.
-/
def oneDirty (j : Nat) : Mem := fun f i =>
  if f = 1 ∧ i = 511 then 4096 + 35
  else if 1 ≤ f ∧ f ≤ 3 ∧ i = 1 then (f + 1) * 4096 + 35
  else if f = 4 ∧ i = j then 9 * 4096 + 99
  else 0

theorem oneDirty_entry (j f i : Nat) : large (oneDirty j f i) = false ∧ (dirty (oneDirty j f i) = true → i = j) := by
  unfold oneDirty
  split
  · exact ⟨by decide, fun h => absurd h (by decide)⟩
  split
  · simp only [large, dirty, beq_iff_eq, beq_eq_false_iff_ne, ne_eq]
    omega
  split
  · next h => exact ⟨by decide, fun _ => h.2⟩
  · exact ⟨by decide, fun h => absurd h (by decide)⟩

theorem oneDirty_clear (j va lv : Nat) : Clear (oneDirty j) 1 va lv :=
  ⟨by simp [oneDirty, child, present, frame], (oneDirty_entry j 1 511).1, fun _ _ _ g _ _ => (oneDirty_entry j g _).1⟩

/-- The first page of the page table is dirty. -/
theorem scanDirty_exact_first : ∃ l, vmapScanDirty (oneDirty 0) 1 0x8040200000 0x8040201000 = some l ∧ l.Nodup ∧
    ∀ va, va ∈ l ↔ va % 2 ^ 12 = 0 ∧ 0x8040200000 ≤ va ∧ va < 0x8040201000 ∧ Dirty (oneDirty 0) 1 va := by
  refine (scanDirty_exact (oneDirty 0) 1 0x8040200000 0x8040201000 (by norm_num) fun lv va _ _ =>
    oneDirty_clear 0 va lv).2 ⟨?_, ?_, ?_, ?_⟩
  · rintro va - - hva ⟨f, -, -, -, hd⟩
    have h0 := (oneDirty_entry 0 f _).2 hd
    unfold idx at h0
    omega
  · intro x hs ht hx _
    obtain rfl : x = 0x8040200000 := by omega
    intro l h1 h3
    have : l = 1 ∨ l = 2 ∨ l = 3 := by omega
    rcases this with rfl | rfl | rfl
    · exact ⟨by decide, 3, by decide, by decide, by decide⟩
    · exact ⟨by decide, 2, by decide, by decide, by decide⟩
    · exact ⟨by decide, 1, by decide, by decide, by decide⟩
  · intro x hs ht hx _
    obtain rfl : x = 0x8040200000 := by omega
    decide
  · intro x hx hstart hr hno
    have hidx : ∀ l, 1 ≤ l → l ≤ 3 → idx x l = 1 := by
      intro l h1 h3
      have hmem := (hr l h1 h3).1
      have : l = 1 ∨ l = 2 ∨ l = 3 := by omega
      rcases this with rfl | rfl | rfl
      all_goals exact mem_singleton.1 hmem
    have h1 := hidx 1 le_rfl (by norm_num)
    have h2 := hidx 2 (by norm_num) (by norm_num)
    have h3 := hidx 3 (by norm_num) le_rfl
    unfold idx at h1 h2 h3
    obtain rfl : x = 0x8040200000 := by omega
    exact absurd ⟨by norm_num, by norm_num, 4, by decide, by decide, by decide, by decide⟩ hno

/-- **A page in the middle of its page table is reported as the start of the table**, which is not in the range; and a
dirty page is missed when the range ends in the next page table. -/
theorem scanDirty_wrong :
    (Dirty (oneDirty 3) 1 0x8040203000 ∧ vmapScanDirty (oneDirty 3) 1 0x8040203000 0x8040204000 = some [0x8040200000]) ∧
    Dirty (oneDirty 511) 1 0x80403ff000 ∧ vmapScanDirty (oneDirty 511) 1 0x80403ff000 0x8040401000 = some [] := by
  refine ⟨⟨⟨4, by decide, by decide, by decide, by decide⟩, by decide⟩, ⟨4, by decide, by decide, by decide, by decide⟩,
    by decide⟩

end TextOS.Vmap
