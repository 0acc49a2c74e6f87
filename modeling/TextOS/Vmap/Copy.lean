import TextOS.Lib.Run
import TextOS.Vmap.Defs

/-!
# Copying a page table: `_copy_pgt` and the windows of `kernel/mm/pvpage.c`

The tables are reached through windows: pages of the kernel's half that `make_pvpage` maps to a physical page, one of
256, and `break_pvpage` gives back. A window is modelled by the frame it shows, which is the effect of `vmap_map` on it;
what `pmm_allocpages(1)` returns is taken from `pool`. A function is `none` when `while (make_pvpage(..) < 0)` does not
end, because every window is taken.
-/

namespace TextOS.Vmap

open Lib Function Option Finset

/-! ## Windows -/

/-- The frames, the pages to be allocated, the bitmap of the windows and the frames they show. -/
structure Pv where
  mem : Mem
  pool : List Nat
  map : Nat → Bool
  win : Nat → Nat

/-- `bitmap_find` on the 256 windows: the lowest bit that is not set. -/
def bitmapFind (map : Nat → Bool) : Option Nat := (List.range 256).find? fun i => !map i

/-- `make_pvpage`: the number of the window, which shows the frame of the entry `ADDR(phy) | PE_P | PE_RW`. -/
def makePvpage (phy : Nat) (s : Pv) : Option (Nat × Pv) :=
  (bitmapFind s.map).map fun i =>
    (i, { s with map := update s.map i true, win := update s.win i (frame (addr phy + 3)) })

def Pv.breakPvpage (s : Pv) (w : Nat) : Pv := { s with map := update s.map w false }

/-- `page[i]`, for the page in window `w`. -/
def Pv.get (s : Pv) (w i : Nat) : Nat := s.mem (s.win w) i

/-- `page[i] = v`. -/
def Pv.put (s : Pv) (w i v : Nat) : Pv := { s with mem := setAt s.mem (s.win w) i v }

/-- `memcpy` of the page in window `w` to the one in window `wn`. -/
def Pv.memcpy (s : Pv) (wn w : Nat) : Pv :=
  { s with mem := fun f i => if f = s.win wn then s.mem (s.win w) i else s.mem f i }

/-! ## The copy -/

/-- `entry & ~PE_RW`. -/
def clearRw (entry : Nat) : Nat := if entry / 2 % 2 = 1 then entry - 2 else entry

/-- The number of entries `_copy_pgt` looks at in a table of level `lv`. -/
def limit (lv : Nat) : Nat := if lv = 3 then 256 else 512

/-- The new page, the windows of the old and the new page, and the state. -/
structure Opened where
  npg : Nat
  w : Nat
  wn : Nat
  s : Pv

/-- The start of `_copy_pgt`: a new page, two windows and the `memcpy`. -/
def openPages (pg : Nat) (s : Pv) : Option Opened :=
  let npg := 4096 * s.pool.headD 0
  (makePvpage pg { s with pool := s.pool.tail }).bind fun r =>
    (makePvpage npg r.2).map fun rn => ⟨npg, r.1, rn.1, rn.2.memcpy rn.1 r.1⟩

/-- The body of the loop of `_copy_pgt`, with `copy` for the call of `_copy_pgt` one level below. -/
def copyEntry (copy : Nat → Pv → Option (Nat × Pv)) (leaf : Bool) (w wn : Nat) (s : Pv) (i : Nat) : Option Pv :=
  if s.get wn i = 0 then some s
  else if leaf then
    let s₁ := s.put w i (clearRw (s.get w i))
    some (s₁.put wn i (s₁.get w i))
  else (copy (addr (s.get wn i)) s).map fun r => r.2.put wn i (flag (r.2.get wn i) + addr r.1)

/-- The end of `_copy_pgt` for a table of level `lv`. -/
def closePages (lv : Nat) (o : Opened) (s : Pv) : Nat × Pv :=
  let s₁ := if lv = 3 then s.put o.wn 511 (addr o.npg + 3) else s
  (o.npg, (s₁.breakPvpage o.w).breakPvpage o.wn)

/-- `_copy_pgt`; the argument is 0 for `L_PG` and `lv + 1` for the level `lv` of the source. -/
def copyTable : Nat → Nat → Pv → Option (Nat × Pv)
  | 0, pg, s => (openPages pg s).map fun o => (o.npg, (o.s.breakPvpage o.w).breakPvpage o.wn)
  | lv + 1, pg, s => (openPages pg s).bind fun o =>
    (run (copyEntry (copyTable lv) (lv == 0) o.w o.wn) o.s (List.range (limit lv))).map (closePages lv o)

def copyPgt (ppgt : Nat) (s : Pv) : Option (Nat × Pv) := copyTable 4 ppgt s

/-! ## The windows of a copy -/

variable {s s' : Pv} {pg w wn k : Nat} {o : Opened} {r : Nat × Pv}

/-- `s'` has the same bitmap, and the windows in use show the same frames. -/
structure SameWindows (s s' : Pv) : Prop where
  map : s'.map = s.map
  win : ∀ w, s.map w = true → s'.win w = s.win w

theorem SameWindows.refl (s : Pv) : SameWindows s s := ⟨rfl, fun _ _ => rfl⟩

theorem SameWindows.trans {s₁ s2 s3 : Pv} (h : SameWindows s₁ s2) (h' : SameWindows s2 s3) : SameWindows s₁ s3 :=
  ⟨h'.map.trans h.map, fun w hw => (h'.win w (by rw [h.map]; exact hw)).trans (h.win w hw)⟩

theorem bitmapFind_eq_some {map : Nat → Bool} (h : bitmapFind map = some w) : w < 256 ∧ map w = false := by
  have hm := List.mem_of_find?_eq_some h
  have hp := List.find?_some h
  exact ⟨by simpa using hm, by simpa using hp⟩

/-- What the start of a copy gives: two windows that were free, and the pages they show. -/
structure Opens (pg : Nat) (s : Pv) (o : Opened) : Prop where
  npg : o.npg = 4096 * s.pool.headD 0
  pool : o.s.pool = s.pool.tail
  free : s.map o.w = false ∧ s.map o.wn = false
  ne : o.w ≠ o.wn
  map : o.s.map = update (update s.map o.w true) o.wn true
  win : o.s.win = update (update s.win o.w (frame (addr pg + 3))) o.wn (frame (addr o.npg + 3))
  mem : o.s.mem = fun f i => if f = o.s.win o.wn then s.mem (o.s.win o.w) i else s.mem f i

theorem openPages_spec (h : openPages pg s = some o) : Opens pg s o := by
  obtain ⟨⟨w, s₁⟩, hw, h⟩ := bind_eq_some_iff.1 h
  obtain ⟨⟨wn, s2⟩, hwn, rfl⟩ := map_eq_some_iff.1 h
  obtain ⟨i, hi, he⟩ := map_eq_some_iff.1 hw
  obtain ⟨j, hj, he'⟩ := map_eq_some_iff.1 hwn
  simp only [Prod.mk.injEq] at he he'
  obtain ⟨rfl, rfl⟩ := he
  obtain ⟨rfl, rfl⟩ := he'
  have hfi := (bitmapFind_eq_some hi).2
  have hfj := (bitmapFind_eq_some hj).2
  have hne : j ≠ i := fun he => by simp [he] at hfj
  refine ⟨rfl, rfl, ⟨hfi, ?_⟩, hne.symm, rfl, rfl, rfl⟩
  simpa [update_of_ne hne] using hfj

theorem Opens.taken (ho : Opens pg s o) : o.s.map o.w = true ∧ o.s.map o.wn = true := by
  rw [ho.map]
  exact ⟨by simp [update_of_ne ho.ne], by simp⟩

/-- Closing the windows gives back what opening took. -/
theorem Opens.close (ho : Opens pg s o) (h : SameWindows o.s s') (lv : Nat) : SameWindows s (closePages lv o s').2 := by
  have hmap : (closePages lv o s').2.map = update (update s'.map o.w false) o.wn false := by
    unfold closePages
    split <;> rfl
  have hwin : (closePages lv o s').2.win = s'.win := by
    unfold closePages
    split <;> rfl
  constructor
  · rw [hmap, h.map, ho.map]
    funext k
    by_cases hk : k = o.wn
    · subst hk
      rw [update_self, ho.free.2]
    by_cases hk' : k = o.w
    · subst hk'
      rw [update_of_ne hk, update_self, ho.free.1]
    · simp [update_of_ne hk, update_of_ne hk']
  · intro k hk
    have hkw : k ≠ o.w := fun he => by simp [he, ho.free.1] at hk
    have hkn : k ≠ o.wn := fun he => by simp [he, ho.free.2] at hk
    rw [hwin, h.win k (by simp [ho.map, update_of_ne hkw, update_of_ne hkn, hk]), ho.win]
    simp [update_of_ne hkw, update_of_ne hkn]

theorem sameWindows_put (s : Pv) (w i v : Nat) : SameWindows s (s.put w i v) := ⟨rfl, fun _ _ => rfl⟩

/-- **A copy gives back its windows** and leaves the windows in use as they were. -/
theorem copyTable_windows : ∀ {k : Nat} {pg : Nat} {s : Pv} {r : Nat × Pv}, copyTable k pg s = some r →
    SameWindows s r.2
  | 0, pg, s, r, h => by
    obtain ⟨o, ho, rfl⟩ := map_eq_some_iff.1 h
    exact (openPages_spec ho).close (SameWindows.refl o.s) 0
  | lv + 1, pg, s, r, h => by
    obtain ⟨o, ho, h⟩ := bind_eq_some_iff.1 h
    obtain ⟨s', hs', rfl⟩ := map_eq_some_iff.1 h
    refine (openPages_spec ho).close ?_ lv
    refine run_range_inv (I := fun _ t => SameWindows o.s t) (limit lv) (fun i _ t t' ht hstep => ?_)
      (SameWindows.refl o.s) hs'
    unfold copyEntry at hstep
    split at hstep
    · exact some.inj hstep ▸ ht
    split at hstep
    · obtain rfl := some.inj hstep
      exact (ht.trans (sameWindows_put ..)).trans (sameWindows_put ..)
    · obtain ⟨r, hr, rfl⟩ := map_eq_some_iff.1 hstep
      exact (ht.trans (copyTable_windows hr)).trans (sameWindows_put ..)

/-! ## A copy returns -/

/-- The windows that are free. -/
def freeWindows (map : Nat → Bool) : Finset Nat := (Finset.range 256).filter fun i => map i = false

theorem freeWindows_take {map : Nat → Bool} (h : map w = false) (hw : w < 256) :
    (freeWindows (update map w true)).card + 1 = (freeWindows map).card := by
  have he : freeWindows (update map w true) = (freeWindows map).erase w := by
    ext i
    by_cases hi : i = w
    · subst hi
      simp [freeWindows]
    · simp [freeWindows, hi]
  rw [he, card_erase_add_one (by simp [freeWindows, h, hw])]

theorem makePvpage_total (phy : Nat) (h : 0 < (freeWindows s.map).card) :
    ∃ w s', makePvpage phy s = some (w, s') ∧ (freeWindows s'.map).card + 1 = (freeWindows s.map).card := by
  obtain ⟨i, hi⟩ := card_pos.1 h
  simp only [freeWindows, mem_filter, mem_range] at hi
  obtain ⟨w, hw⟩ : ∃ w, bitmapFind s.map = some w :=
    isSome_iff_exists.1 (List.find?_isSome.2 ⟨i, by simpa using hi.1, by simpa using hi.2⟩)
  obtain ⟨hlt, hfree⟩ := bitmapFind_eq_some hw
  exact ⟨w, _, by rw [makePvpage, hw, map_some], freeWindows_take hfree hlt⟩

theorem openPages_total (pg : Nat) (h : 2 ≤ (freeWindows s.map).card) :
    ∃ o, openPages pg s = some o ∧ (freeWindows o.s.map).card + 2 = (freeWindows s.map).card := by
  obtain ⟨w, s₁, h1, hc1⟩ := makePvpage_total (s := { s with pool := s.pool.tail }) pg (by dsimp only; omega)
  dsimp only at hc1
  obtain ⟨wn, s2, h2, hc2⟩ := makePvpage_total (s := s₁) (4096 * s.pool.headD 0) (by omega)
  refine ⟨_, by rw [openPages, h1, bind_some, h2, map_some], ?_⟩
  show (freeWindows s2.map).card + 2 = _
  omega

/-- **Two windows for each level are enough.** -/
theorem copyTable_total : ∀ (k pg : Nat) (s : Pv), 2 * k ≤ (freeWindows s.map).card → 2 ≤ (freeWindows s.map).card →
    ∃ r, copyTable k pg s = some r
  | 0, pg, s, _, h2 => by
    obtain ⟨o, ho, -⟩ := openPages_total pg h2
    exact ⟨_, by rw [copyTable, ho, map_some]⟩
  | lv + 1, pg, s, h, h2 => by
    obtain ⟨o, ho, hc⟩ := openPages_total pg h2
    have hround : ∀ i < limit lv, ∀ t : Pv, t.map = o.s.map →
        ∃ t', copyEntry (copyTable lv) (lv == 0) o.w o.wn t i = some t' ∧ t'.map = o.s.map := by
      intro i _ t ht
      unfold copyEntry
      split
      · exact ⟨t, rfl, ht⟩
      split
      · exact ⟨_, rfl, ht⟩
      next hleaf =>
      have hlv : lv ≠ 0 := by simpa using hleaf
      obtain ⟨r, hr⟩ := copyTable_total lv (addr (t.get o.wn i)) t (by rw [ht]; omega) (by rw [ht]; omega)
      refine ⟨r.2.put o.wn i (flag (r.2.get o.wn i) + addr r.1), by rw [hr, map_some], ?_⟩
      exact (copyTable_windows hr).map.trans ht
    obtain ⟨s', hs', -⟩ := run_range_total (I := fun _ (t : Pv) => t.map = o.s.map) (limit lv) hround rfl
    exact ⟨_, by rw [copyTable, ho, bind_some, hs', map_some]⟩

end TextOS.Vmap
