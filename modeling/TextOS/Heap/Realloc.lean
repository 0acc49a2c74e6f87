import TextOS.Heap.Run

/-!
# `realloc` of the kernel heap

`realloc` reads the size of the block from its header. That size counts the header, the footer and the rounding, and it
is both what the request is compared with and the number of bytes copied.
-/

namespace TextOS.Heap

open Lib List Option

/-! ## The function -/

/-- `memcpy` between two ranges that do not meet. -/
def memcpy (m : Bytes) (dst src n : Nat) : Bytes := fun x => if dst ≤ x ∧ x < dst + n then m (src + (x - dst)) else m x

/-- `realloc`, with at most `n` rounds for the search of `malloc`: the pointer (0 for `NULL`) and the heap. -/
def realloc (n : Nat) (h : State) (addr newsiz : Nat) : Option (Nat × State) :=
  if addr = 0 then malloc n h newsiz
  else if newsiz = 0 then (free h addr).map fun h' => (0, h')
  else if newsiz ≤ siz (h.get (addr - 4)) then some (addr, h)
  else
    (malloc n h newsiz).bind fun r =>
      (free { r.2 with mem := memcpy r.2.mem r.1 addr (siz (h.get (addr - 4))) } addr).map fun h' => (r.1, h')

/-! ## Histories -/

/-- The calls of `Op`, and `realloc` given at most `n` rounds. -/
inductive ResizeOp
  | base (o : Op)
  | realloc (n p newsiz : Nat)

/-- The payload at `p` is replaced by the one returned. -/
def Sys.resize (s : Sys) (p newsiz : Nat) (r : Nat × State) : Sys :=
  (⟨s.heap, s.live.filter fun l => l.1 ≠ p⟩ : Sys).gain newsiz r

def resizeStep (s : Sys) : ResizeOp → Option Sys
  | .base o => step s o
  | .realloc n p newsiz => (realloc n s.heap p newsiz).map (s.resize p newsiz)

/-- Only live pointers and `NULL` are resized, and the heap stays below 512 MiB. -/
def ResizeValid (s : Sys) : ResizeOp → Prop
  | .base o => Valid s o
  | .realloc n p newsiz => (p = 0 ∨ ∃ l ∈ s.live, l.1 = p) ∧ Valid s (.malloc n newsiz)

instance (s : Sys) : DecidablePred (ResizeValid s) := fun o => by
  unfold ResizeValid
  split <;> infer_instance

/-- The request is below 512 MiB like the heap. -/
def ResizeSized : ResizeOp → Prop
  | .base o => Sized o
  | .realloc _ _ newsiz => newsiz < 2 ^ 29

instance : DecidablePred ResizeSized := fun o => by
  unfold ResizeSized
  split <;> infer_instance

/-- The request leaves room for the header and the footer of the block at `p`, or is larger than the whole block. -/
def Clear (h : State) (p newsiz : Nat) : Prop := newsiz + 8 ≤ siz (h.get (p - 4)) ∨ siz (h.get (p - 4)) < newsiz
deriving Decidable

/-- Every `realloc` of a live payload is clear. -/
def ResizeClear (s : Sys) : ResizeOp → Prop
  | .base _ => True
  | .realloc _ p newsiz => p = 0 ∨ newsiz = 0 ∨ Clear s.heap p newsiz

instance (s : Sys) : DecidablePred (ResizeClear s) := fun o => by
  unfold ResizeClear
  split <;> infer_instance

/-- The conditions on a step. -/
def ResizeOk (s : Sys) (o : ResizeOp) : Prop := ResizeValid s o ∧ ResizeSized o ∧ ResizeClear s o
deriving Decidable

/-! ## What a caller relies on -/

/-- `[q, q + n)` lies inside the payload of an allocated block of its own. -/
def InBlock (h : State) (q n : Nat) : Prop :=
  ∃ bs a b, Tiled h.mem h.root bs h.brk ∧ Sits Blk.size h.root bs a b ∧ b.used = true ∧ q = a + 4 ∧
    q + n ≤ a + b.size - 4

/-- The payload `l` of the heap `h` has become the payload `[q, newsiz)` of `h'`. -/
structure Resizes (live : List (Nat × Nat)) (h : State) (l : Nat × Nat) (newsiz q : Nat) (h' : State) : Prop where
  inBlock : InBlock h' q newsiz
  contents : ∀ i < min l.2 newsiz, h'.mem (q + i) = h.mem (l.1 + i)
  kept : ∀ l' ∈ live, l'.1 ≠ l.1 → Kept h h' l'

variable {s s' : Sys} {h h' : State} {bs bs' : List Blk} {l l' : Nat × Nat} {n newsiz : Nat}

theorem memcpy_outside (m : Bytes) (dst src n : Nat) : SameOutside m (memcpy m dst src n) dst (dst + n) :=
  fun _ hx => if_neg (by omega)

theorem memcpy_inside (m : Bytes) (dst src : Nat) {n i : Nat} (hi : i < n) :
    memcpy m dst src n (dst + i) = m (src + i) := by
  rw [memcpy, if_pos (by omega), Nat.add_sub_cancel_left]

theorem Layout.inBlock (L : Layout h bs) (ho : Owned bs l) : InBlock h l.1 l.2 := by
  obtain ⟨a, b, hla, hb, hu, hsz⟩ := ho
  refine ⟨bs, a, b, L.tiled, ?_, hu, hla, by omega⟩
  rw [L.root]
  exact hb

theorem Layout.siz_owned (L : Layout h bs) (ho : Owned bs l) :
    ∃ a b, l.1 = a + 4 ∧ Has bs a b ∧ b.used = true ∧ l.2 + 8 ≤ b.size ∧ siz (h.get (l.1 - 4)) = b.size := by
  obtain ⟨a, b, hla, hb, hu, hsz⟩ := ho
  refine ⟨a, b, hla, hb, hu, hsz, ?_⟩
  rw [hla, Nat.add_sub_cancel, State.get, (L.at_has hb).1.hdr, siz_set]

/-! ## The three ways through `realloc` -/

/-- A block that is large enough stays where it is. -/
theorem Inv.keepBlock (I : Inv s bs) (hl : l ∈ s.live) (hfit : newsiz + 8 ≤ siz (s.heap.get (l.1 - 4))) :
    Inv (s.resize l.1 newsiz (l.1, s.heap)) bs ∧ Resizes s.live s.heap l newsiz l.1 s.heap := by
  obtain ⟨a, b, hla, hb, hu, -, hsz⟩ := I.layout.siz_owned (I.owned l hl)
  have ho : Owned bs (l.1, newsiz) := ⟨a, b, hla, hb, hu, by omega⟩
  refine ⟨⟨I.layout, I.noAdj, ?_, ?_⟩, I.layout.inBlock ho, fun _ _ => rfl, fun _ _ _ _ _ _ => rfl⟩
  · intro l' hl'
    simp only [Sys.resize, Sys.gain, if_neg (show l.1 ≠ 0 by omega), mem_cons, mem_filter,
      decide_eq_true_eq] at hl'
    rcases hl' with rfl | hl'
    · exact ho
    · exact I.owned l' hl'.1
  simp only [Sys.resize, Sys.gain, if_neg (show l.1 ≠ 0 by omega)]
  refine pairwise_cons.2 ⟨fun l' hl' => ?_, I.distinct.filter _⟩
  simp only [mem_filter, decide_eq_true_eq] at hl'
  exact hl'.2.symm

/-- A block that is too small is copied to a new one and freed. -/
theorem Inv.moveBlock {a : Nat} (I : Inv s bs) (hl : l ∈ s.live) (hreq : newsiz < 2 ^ 29)
    (hbig : siz (s.heap.get (l.1 - 4)) < newsiz) (ha : Allocated (blockSiz newsiz) s.heap bs a h' bs') :
    ∃ h₂ bs₂, Heap.free { h' with mem := memcpy h'.mem (a + 4) l.1 (siz (s.heap.get (l.1 - 4))) } l.1 = some h₂ ∧
      Inv (s.resize l.1 newsiz (a + 4, h₂)) bs₂ ∧ Resizes s.live s.heap l newsiz (a + 4) h₂ := by
  obtain ⟨a0, b0, -, -, -, hold, hsz⟩ := I.layout.siz_owned (I.owned l hl)
  have hG := I.gain hreq ha
  have hlive : (s.gain newsiz (a + 4, h')).live = (a + 4, newsiz) :: s.live := by simp [Sys.gain]
  have hnew : (a + 4, newsiz) ∈ (s.gain newsiz (a + 4, h')).live := by simp [hlive]
  have hcopy : SameOutside h'.mem (memcpy h'.mem (a + 4) l.1 (siz (s.heap.get (l.1 - 4)))) (a + 4) (a + 4 + newsiz) :=
    (memcpy_outside _ _ _ _).mono le_rfl (by omega)
  -- the copy stays inside the new payload, so both payloads are live when the old one is freed
  have hC := hG.payload hnew hcopy
  have hl1 : l ∈ (s.gain newsiz (a + 4, h')).live := by simp [hlive, hl]
  have hne : ∀ l' ∈ s.live, l'.1 ≠ a + 4 := fun l' hl' => I.fresh ha hl'
  obtain ⟨h₂, bs₂, hfree, L2, hn2, hk⟩ := hC.free hl1
  have hkeep : ∀ l' ∈ (s.gain newsiz (a + 4, h')).live, l'.1 ≠ l.1 → Owned bs₂ l' ∧ Kept _ h₂ l' :=
    fun l' hl' h' => (hC.owned l' hl').keep hk (hC.ne_hdr hl1 hl' h')
  obtain ⟨hown, hkept⟩ := hkeep _ hnew (hne l hl).symm
  refine ⟨h₂, bs₂, hfree, ⟨L2, hn2, ?_, ?_⟩, L2.inBlock hown, ?_, ?_⟩
  · intro l' hl'
    simp only [Sys.resize, Sys.gain, Nat.add_eq_zero_iff, OfNat.ofNat_ne_zero, and_false, if_false, mem_cons,
      mem_filter, decide_eq_true_eq] at hl'
    rcases hl' with rfl | hl'
    · exact hown
    · exact (hkeep l' (by simp [hlive, hl'.1]) hl'.2).1
  · refine pairwise_cons.2 ⟨fun l' hl' => ?_, I.distinct.filter _⟩
    exact (hne l' (mem_filter.1 hl').1).symm
  · intro i hi
    calc h₂.mem (a + 4 + i) = memcpy h'.mem (a + 4) l.1 (siz (s.heap.get (l.1 - 4))) (a + 4 + i) :=
          hkept _ (by dsimp only; omega) (by dsimp only; omega)
      _ = h'.mem (l.1 + i) := memcpy_inside _ _ _ (by omega)
      _ = s.heap.mem (l.1 + i) := ((I.owned l hl).keep ha.keeps (by simp)).2 _ (by omega) (by omega)
  intro l' hl' hl'ne y hy hy'
  have hapart := hG.layout.owned_apart (hG.owned _ hnew) (hG.owned l' (by simp [hlive, hl'])) (hne l' hl').symm
  calc h₂.mem y = memcpy h'.mem (a + 4) l.1 (siz (s.heap.get (l.1 - 4))) y :=
        (hkeep l' (by simp [hlive, hl']) hl'ne).2 y hy hy'
    _ = h'.mem y := memcpy_outside _ _ _ _ _ (by dsimp only at hapart; omega)
    _ = s.heap.mem y := ((I.owned l' hl').keep ha.keeps (by simp)).2 y hy hy'

theorem realloc_keep (h0 : l.1 ≠ 0) (hn : newsiz ≠ 0) (hfit : newsiz ≤ siz (h.get (l.1 - 4))) :
    realloc n h l.1 newsiz = some (l.1, h) := by
  simp [realloc, h0, hn, hfit]

theorem realloc_move (h0 : l.1 ≠ 0) (hn : newsiz ≠ 0) (hbig : siz (h.get (l.1 - 4)) < newsiz) :
    realloc n h l.1 newsiz = (malloc n h newsiz).bind fun r =>
      (free { r.2 with mem := memcpy r.2.mem r.1 l.1 (siz (h.get (l.1 - 4))) } l.1).map fun h' => (r.1, h') := by
  rw [realloc, if_neg h0, if_neg hn, if_neg (by omega)]

theorem Inv.live_ne_zero (I : Inv s bs) (hl : l ∈ s.live) : l.1 ≠ 0 := by
  obtain ⟨a, b, hla, -⟩ := I.owned l hl
  omega

/-! ## Whole histories -/

theorem Inv.realloc_live (I : Inv s bs) (hl : l ∈ s.live) (hv : Valid s (.malloc n newsiz)) (hreq : newsiz < 2 ^ 29)
    (hc : newsiz = 0 ∨ Clear s.heap l.1 newsiz) {r : Nat × State} (hr : realloc n s.heap l.1 newsiz = some r) :
    ∃ bs', Inv (s.resize l.1 newsiz r) bs' := by
  have h0 := I.live_ne_zero hl
  by_cases hn : newsiz = 0
  · subst hn
    obtain ⟨h', hf, rfl⟩ : ∃ h', Heap.free s.heap l.1 = some h' ∧ (0, h') = r := by simpa [realloc, h0] using hr
    exact step_inv ⟨bs, I⟩ (o := .free l.1) ⟨⟨l, hl, rfl⟩, trivial⟩ (by simp [step, hf, Sys.resize, Sys.gain])
  rcases hc.resolve_left hn with hfit | hbig
  · obtain rfl : (l.1, s.heap) = r := some.inj ((realloc_keep h0 hn (by omega)).symm.trans hr)
    exact ⟨bs, (I.keepBlock hl hfit).1⟩
  rw [realloc_move h0 hn hbig] at hr
  obtain ⟨⟨p, h'⟩, hm, hr⟩ := bind_eq_some_iff.1 hr
  obtain ⟨a, bs', hp, ha⟩ := I.malloc_some hn hreq hv hm
  obtain rfl : p = a + 4 := hp
  obtain ⟨h₂, bs₂, hfree, hI, -⟩ := I.moveBlock hl hreq hbig ha
  rw [hfree, map_some, some.injEq] at hr
  exact ⟨bs₂, hr ▸ hI⟩

/-- **Every clear step of a history with `realloc` keeps the invariant.** -/
theorem resize_inv {o : ResizeOp} (I : ∃ bs, Inv s bs) (ho : ResizeOk s o) (hs : resizeStep s o = some s') :
    ∃ bs', Inv s' bs' := by
  obtain ⟨hv, hz, hc⟩ := ho
  cases o with
  | base o => exact step_inv I ⟨hv, hz⟩ hs
  | realloc n p newsiz =>
    obtain ⟨bs, I⟩ := I
    obtain ⟨r, hr, rfl⟩ := map_eq_some_iff.1 hs
    by_cases h0 : p = 0
    · -- no live payload is at `NULL`, so nothing is dropped
      subst h0
      have hlive : (s.live.filter fun l => l.1 ≠ 0) = s.live := filter_eq_self.2 fun l hl => by
        simpa using I.live_ne_zero hl
      apply step_inv ⟨bs, I⟩ (o := .malloc n newsiz) ⟨hv.2, hz⟩
      rw [realloc, if_pos rfl] at hr
      rw [step, hr, map_some, Sys.resize, hlive]
    · obtain ⟨l, hl, rfl⟩ := hv.1.resolve_left h0
      exact I.realloc_live hl hv.2 hz (hc.resolve_left h0) hr

/-- **`realloc` in every history of clear calls.** A clear request for a live payload ends, with the payload resized. -/
theorem realloc_resizes (m : Bytes) (os : List ResizeOp) (s : Sys) (hm : Meets resizeStep ResizeOk (Sys.init m) os)
    (hr : run resizeStep (Sys.init m) os = some s) (l : Nat × Nat) (hl : l ∈ s.live) (newsiz : Nat) (h0 : 0 < newsiz)
    (hreq : newsiz < 2 ^ 29) (hc : Clear s.heap l.1 newsiz)
    (hbelow : siz (s.heap.get (l.1 - 4)) < newsiz → StaysBelow (blockSiz newsiz) s.heap s.heap.root) :
    ∃ n q h', (∀ k, n ≤ k → realloc k s.heap l.1 newsiz = some (q, h')) ∧ Resizes s.live s.heap l newsiz q h' := by
  obtain ⟨bs, I⟩ : ∃ bs, Inv s bs := run_meets_inv (fun _ _ _ hi hc hs => resize_inv hi hc hs) ⟨[], init_inv m⟩ hm hr
  have hp := I.live_ne_zero hl
  rcases hc with hfit | hbig
  · exact ⟨0, l.1, s.heap, fun k _ => realloc_keep hp (by omega) (by omega), (I.keepBlock hl hfit).2⟩
  obtain ⟨n, a, h', bs', hn, ha⟩ := I.malloc (by omega) hreq (hbelow hbig)
  obtain ⟨h₂, bs₂, hfree, -, hres⟩ := I.moveBlock hl hreq hbig ha
  refine ⟨n, a + 4, h₂, fun k hk => ?_, hres⟩
  rw [realloc_move hp (by omega) hbig, hn k hk, bind_some, hfree, map_some]

/-- After a request of 8 bytes that was resized to 100: a call that keeps the block and one that moves it. -/
theorem realloc_resizes_twice : ∃ s, run resizeStep (Sys.init fun _ => 0)
      [.base (.malloc 2 8), .realloc 3 (kernHeapBase + 16) 100] = some s ∧
    (∃ n q h', (∀ k, n ≤ k → realloc k s.heap (kernHeapBase + 32) 104 = some (q, h')) ∧
      Resizes s.live s.heap (kernHeapBase + 32, 100) 104 q h') ∧
    ∃ n q h', (∀ k, n ≤ k → realloc k s.heap (kernHeapBase + 32) 113 = some (q, h')) ∧
      Resizes s.live s.heap (kernHeapBase + 32, 100) 113 q h' := by
  refine ⟨_, rfl, ?_, ?_⟩
  · exact realloc_resizes (fun _ => 0) [.base (.malloc 2 8), .realloc 3 (kernHeapBase + 16) 100] _ (by decide) rfl
      (kernHeapBase + 32, 100) (by decide) 104 (by decide) (by decide) (by decide)
      (fun h => absurd h (by decide))
  exact realloc_resizes (fun _ => 0) [.base (.malloc 2 8), .realloc 3 (kernHeapBase + 16) 100] _ (by decide) rfl
    (kernHeapBase + 32, 100) (by decide) 113 (by decide) (by decide) (by decide)
    fun _ => staysBelow_of_ret (n := 4) rfl (by decide)

/-- A block of 16 bytes with a payload of 8 is kept for a request of 16 bytes: the payload ends behind the footer. -/
theorem realloc_over_footer : ∃ s, run resizeStep (Sys.init fun _ => 0) [.base (.malloc 2 8)] = some s ∧
    Meets resizeStep ResizeOk (Sys.init fun _ => 0) [.base (.malloc 2 8)] ∧ (kernHeapBase + 16, 8) ∈ s.live ∧
    (∀ k, realloc k s.heap (kernHeapBase + 16) 16 = some (kernHeapBase + 16, s.heap)) ∧
    ¬ InBlock s.heap (kernHeapBase + 16) 16 := by
  obtain ⟨s, hs⟩ : ∃ s, run resizeStep (Sys.init fun _ => 0) [.base (.malloc 2 8)] = some s :=
    isSome_iff_exists.1 (by decide)
  have hstate : (run resizeStep (Sys.init fun _ => 0) [.base (.malloc 2 8)]).map
      (fun s => (s.live, siz (s.heap.get (kernHeapBase + 12)))) = some ([(kernHeapBase + 16, 8)], 16) := by
    decide
  rw [hs] at hstate
  simp only [map_some, some.injEq, Prod.mk.injEq] at hstate
  obtain ⟨hlive, hsiz⟩ := hstate
  refine ⟨s, hs, by decide, by simp [hlive], fun k => ?_, ?_⟩
  · exact realloc_keep (l := (kernHeapBase + 16, 8)) (by decide) (by decide) hsiz.ge
  rintro ⟨bs, a, b, ht, hb, -, hq, hend⟩
  obtain rfl : a = kernHeapBase + 12 := by omega
  have hhdr : s.heap.get (kernHeapBase + 12) = set b.size b.used := (ht.at_sits hb).1.hdr
  rw [hhdr, siz_set] at hsiz
  omega

end TextOS.Heap
