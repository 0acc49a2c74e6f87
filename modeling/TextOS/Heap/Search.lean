import TextOS.Heap.Layout

/-!
# Extending the heap and the search of `malloc`

- a round that finds a block large enough returns it (`Layout.round_fit`), any other round goes on to the next block
  (`Layout.round_skip`) or extends the heap;
- the search ends with an allocated block of the size asked for, all other allocated blocks kept (`Layout.finds_root`).

The heap is to stay below 512 MiB during the call, as `StaysBelow` says.
-/

namespace TextOS.Heap

open Lib List

variable {h h' : State} {bs bs' pre suf : List Blk} {b : Blk} {c size : Nat}

/-! ## Extending the heap -/

theorem align_of_dvd (hd : size % 8 = 0) (hs : size < 2 ^ 30) : align size = size := by
  rw [align, u64_of_lt (by omega)]
  omega

/-- `_heap.max` is moved by whole pages, far enough for the new end mark. -/
theorem Layout.growMax_spec (L : Layout h bs) (hd : size % 8 = 0) (hs : size < 2 ^ 30) :
    growMax h size % 4096 = 0 ∧ h.max ≤ growMax h size ∧ h.brk + size + 4 ≤ growMax h size := by
  have h1 := L.brk_mod
  have h2 := L.brk_le
  have h3 := L.max_mod
  have h4 := L.max_lt
  have h5 := L.brk_eq
  by_cases hle : h.brk + size ≤ h.max
  · have hdiff : u64 (h.brk + size + 2 ^ 64 - h.max) = h.brk + size + 2 ^ 64 - h.max := u64_of_lt (by omega)
    simp only [growMax, hdiff]
    rw [if_neg (by omega)]
    omega
  have hdiff : u64 (h.brk + size + 2 ^ 64 - h.max) = h.brk + size - h.max := by
    rw [u64, show h.brk + size + 2 ^ 64 - h.max = h.brk + size - h.max + 2 ^ 64 by omega, Nat.add_mod_right]
    exact Nat.mod_eq_of_lt (by omega)
  simp only [growMax, hdiff]
  rw [if_pos (by omega)]
  omega

/-- **`_extend_heap` puts a free block at the end.** -/
theorem Layout.extendHeap (L : Layout h bs) (h8 : 8 ≤ size) (hd : size % 8 = 0) (hs : size < 2 ^ 30)
    (hM : growMax h size < kernHeapBase + 2 ^ 29) :
    ∃ h' pre' b', extendHeap h size = some h' ∧ Layout h' (pre' ++ [b']) ∧ JoinsPrev bs ⟨size, false⟩ pre' b' ∧
      Keeps none h bs h' (pre' ++ [b']) := by
  obtain ⟨hmod, hmax, hroom⟩ := L.growMax_spec hd hs
  have hbrk := L.brk_eq
  have hbase := base_lt
  have hmod8 := L.brk_mod
  have hsize : size < 2 ^ 29 := by omega
  let h0 : State := { h with max := growMax h size, brk := h.brk + size }
  let h₁ := ((h0.put h.brk (set size false)).put (h.brk + size - 4) (set size false)).put (h.brk + size) (set 0 true)
  have hw : Writes h0 h₁ h.brk (h.brk + size + 4) :=
    (((Writes.refl h0 _ _).put _ (by omega) (by omega)).put _ (by omega) (by omega)).put _ (by omega) (by omega)
  have hnew : BlkAt h₁.mem h.brk ⟨size, false⟩ := by
    refine ⟨Nat.lt_of_lt_of_le (by norm_num) h8, hd, hsize, ?_, ?_⟩
    · refine ((get_put_of_apart _ _ (by omega)).trans (get_put_of_apart _ _ (by omega))).trans ?_
      exact get_put_set _ _ _ hsize
    · show h₁.get (h.brk + size - 4) = set size false
      exact (get_put_of_apart _ _ (by omega)).trans (get_put_set _ _ _ hsize)
  have hend : h₁.get (h.brk + size) = set 0 true := get_put_set _ _ _ (by norm_num)
  have hold : Tiled h₁.mem (kernHeapBase + 12) bs h.brk := by
    have ht := L.tiled
    rw [L.root] at ht
    exact ht.transport fun x b _ hx hb => hb.congr fun y _ hy => hw.mem y (.inl (by omega))
  have L1 : Layout h₁ (bs ++ [⟨size, false⟩]) := by
    refine ⟨L.root, ?_, ?_, hend, ?_, hroom, hmod, hM, ?_⟩
    · exact L.pro.congr fun x _ hx => hw.mem x (.inl (by dsimp only at hx; omega))
    · rw [show h₁.root = kernHeapBase + 12 from L.root, Tiled, tiles_append, ← hbrk]
      exact ⟨hold, hnew, rfl⟩
    · show (h.brk + size) % 8 = 4
      omega
    intro w hmem
    show _ ∧ _ ∧ w.2 ≤ growMax h size
    rcases hw.log w hmem with hmem | ⟨h1, h2, h3⟩
    · have hl := L.log w hmem
      exact ⟨hl.1, hl.2.1, hl.2.2.trans hmax⟩
    · have h3 : w.2 = growMax h size := h3
      exact ⟨by omega, by omega, by omega⟩
  have hk : Keeps none h bs h₁ (bs ++ [⟨size, false⟩]) := by
    intro x b hx _ _
    have hin := (L.at_has hx).2.2
    exact ⟨(sits_append _ _).2 (.inl hx), fun y _ hy => hw.mem y (.inl (by omega))⟩
  obtain ⟨h', b1, pre', b', suf', he, L', hn, hp, hk'⟩ := L1.merge hbrk rfl
  obtain ⟨rfl, rfl⟩ : suf' = [] ∧ b1 = ⟨size, false⟩ := by
    rcases hn with ⟨rfl, rfl, -⟩ | ⟨n, -, hnil, -⟩
    · exact ⟨rfl, rfl⟩
    · cases hnil
  refine ⟨h', pre', b', ?_, L', hp, hk.trans hk'⟩
  simp only [Heap.extendHeap, align_of_dvd hd hs, u64_of_lt (show h.brk + size < 2 ^ 64 by omega), Nat.add_sub_cancel]
  exact he

/-! ## The rounds of the search -/

/-- The round at `curr` extends the heap: the block does not fit, and it is the last one. -/
def Grows (size : Nat) (h : State) (curr : Nat) : Prop :=
  ¬ (aloc (h.get curr) = false ∧ size ≤ siz (h.get curr)) ∧ h.brk ≤ curr + siz (h.get curr)
deriving Decidable

/-- If the search goes on, then its next round does not extend the heap to 512 MiB. -/
def RoundBelow (size : Nat) : Option Round → Prop
  | some (.loop h c) => Grows size h c → growMax h (align size) < kernHeapBase + 2 ^ 29
  | _ => True

instance (size : Nat) : DecidablePred (RoundBelow size) := fun o => by
  unfold RoundBelow
  split <;> infer_instance

/-- The search from `curr` on never extends the heap to 512 MiB. -/
def StaysBelow (size : Nat) (h : State) (curr : Nat) : Prop := ∀ n, RoundBelow size (iterate size n h curr)

/-- From `h` to `h'` a block of the given size was allocated at `a`, where no block was allocated before. -/
structure Allocated (size : Nat) (h : State) (bs : List Blk) (a : Nat) (h' : State) (bs' : List Blk) : Prop where
  layout : Layout h' bs'
  noAdj : NoAdj bs'
  has : Has bs' a ⟨size, true⟩
  fresh : ∀ b, Has bs a b → b.used = false
  keeps : Keeps none h bs h' bs'

theorem Layout.has_unique (L : Layout h bs) {b d : Blk} (hb : Has bs c b) (hd : Has bs c d) : d = b := by
  have ht := L.tiled
  rw [L.root] at ht
  have h1 := (L.at_has hb).1.pos
  have h2 := (L.at_has hd).1.pos
  rcases ht.apart hb hd with ⟨-, rfl⟩ | hx | hx
  · rfl
  · omega
  · omega

theorem has_middle (hc : c = kernHeapBase + 12 + total Blk.size pre) : Has (pre ++ b :: suf) c b :=
  (sits_append _ _).2 (.inr (.inl ⟨hc, rfl⟩))

theorem noAdj_take {d : Blk} (rest : List Blk) (hbs : NoAdj (pre ++ b :: suf)) (hb : b.used = false)
    (hd : d.used = true) (hr : rest.length ≤ 1) : NoAdj (pre ++ d :: (rest ++ suf)) := by
  obtain ⟨hpre, hsuf, -⟩ := noAdj_append_iff.1 hbs
  obtain ⟨hhead, hsuf⟩ := noAdj_cons_iff.1 hsuf
  refine noAdj_append_iff.2 ⟨hpre, noAdj_cons_iff.2 ⟨fun _ _ => .inl hd, ?_⟩, fun _ _ n hn => ?_⟩
  · match rest, hr with
    | [], _ => exact hsuf
    | [r], _ => exact noAdj_cons_iff.2 ⟨fun n hn => .inr (by simpa [hb] using hhead n hn), hsuf⟩
  · simp only [head?_cons, Option.mem_some_iff] at hn
    exact .inr (hn ▸ hd)

/-- **A block that fits is allocated.** -/
theorem Layout.round_fit (L : Layout h (pre ++ b :: suf)) (hbs : NoAdj (pre ++ b :: suf))
    (hc : c = kernHeapBase + 12 + total Blk.size pre) (hb : b.used = false) (h8 : 8 ≤ size) (hd : size % 8 = 0)
    (hs : size ≤ b.size) :
    ∃ h' bs', mallocRound size h c = some (.ret (c + 4) h') ∧ Allocated size h (pre ++ b :: suf) c h' bs' := by
  have hblk := L.block hc
  have hfresh : ∀ d, Has (pre ++ b :: suf) c d → d.used = false := fun d hd' => by
    rw [L.has_unique (has_middle hc) hd', hb]
  have hfree : ∀ x d, Sits Blk.size c [b] x d → d.used = true → none = some x := fun x d hx hu => by
    rcases hx with ⟨-, rfl⟩ | hx
    · simp [hb] at hu
    · exact hx.elim
  simp only [mallocRound, hblk.hdr_get, hb, aloc_set, siz_set, true_and]
  by_cases hlt : size < b.size
  · obtain ⟨hfront, hrest, hw⟩ := takeFront_spec hblk h8 hd hlt
    have ht : Tiled (takeFront h c size).mem c [⟨size, true⟩, ⟨b.size - size, false⟩] (c + total Blk.size [b]) :=
      ⟨hfront, hrest, show c + size + (b.size - size) = c + b.size by omega⟩
    rw [if_pos hlt]
    exact ⟨_, _, rfl, L.replace [b] hc hw ht, noAdj_take [_] hbs hb rfl le_rfl, has_middle hc, hfresh,
      L.keeps_replace [b] hc hw ht hfree⟩
  obtain rfl : b.size = size := by omega
  obtain ⟨hall, hw⟩ := takeAll_spec hblk
  have ht : Tiled (takeAll h c b.size).mem c [⟨b.size, true⟩] (c + total Blk.size [b]) := ⟨hall, rfl⟩
  rw [if_neg hlt, if_pos rfl]
  exact ⟨_, _, rfl, L.replace [b] hc hw ht, noAdj_take [] hbs hb rfl (by simp), has_middle hc, hfresh,
    L.keeps_replace [b] hc hw ht hfree⟩

theorem Layout.round_skip {n : Blk} (L : Layout h (pre ++ b :: n :: suf))
    (hc : c = kernHeapBase + 12 + total Blk.size pre) (hb : b.used = true ∨ b.size < size) :
    mallocRound size h c = some (.loop h (c + b.size)) := by
  have hnext : c + b.size < h.brk := by
    have h1 := L.brk_eq
    have h2 := (L.cut [b] hc).2.2.1.pos
    simp only [total_append, total_cons] at h1
    omega
  have hblk := L.block hc
  simp only [mallocRound, hblk.hdr_get, aloc_set, siz_set]
  rw [if_neg (by rintro ⟨h1, h2⟩; rcases hb with hb | hb <;> simp_all; omega),
    if_neg (by rintro ⟨h1, h2⟩; rcases hb with hb | hb <;> simp_all), if_pos hnext]

theorem mallocRound_grows (hg : Grows size h c) :
    mallocRound size h c = (extendHeap h size).map fun h' => .loop h' c := by
  obtain ⟨hfit, hlast⟩ := hg
  rw [mallocRound, if_neg fun hx => hfit ⟨hx.1, hx.2.le⟩, if_neg fun hx => hfit ⟨hx.1, hx.2.ge⟩,
    if_neg (Nat.not_lt.2 hlast)]

/-! ## The search -/

/-- The search from `curr` on returns an allocated block. -/
def Finds (size : Nat) (h : State) (bs : List Blk) (curr : Nat) : Prop :=
  ∃ n a h' bs', (∀ k, n ≤ k → iterate size k h curr = some (.ret (a + 4) h')) ∧ Allocated size h bs a h' bs'

theorem finds_of_ret {a : Nat} (hr : mallocRound size h c = some (.ret (a + 4) h'))
    (ha : Allocated size h bs a h' bs') : Finds size h bs c := by
  refine ⟨1, a, h', bs', fun k hk => ?_, ha⟩
  obtain ⟨k, rfl⟩ := Nat.exists_eq_add_of_le' hk
  simp only [iterate, hr]

theorem finds_of_loop {c' : Nat} (hr : mallocRound size h c = some (.loop h' c')) (hf : Finds size h' bs' c')
    (hk : Keeps none h bs h' bs') : Finds size h bs c := by
  obtain ⟨n, a, h'', bs'', hn, ha⟩ := hf
  refine ⟨n + 1, a, h'', bs'', fun k hk' => ?_, ha.layout, ha.noAdj, ha.has, fun b hb => ?_, hk.trans ha.keeps⟩
  · obtain ⟨k, rfl⟩ := Nat.exists_eq_add_of_le' (Nat.le_of_add_left_le hk')
    simp only [iterate, hr]
    exact hn k (by omega)
  -- a block allocated before would have been kept, and the new one is at a free place
  by_contra hu
  exact hu (ha.fresh b (hk a b hb (by simpa using hu) nofun).1)

theorem StaysBelow.step {c' : Nat} (hb : StaysBelow size h c) (hr : mallocRound size h c = some (.loop h' c')) :
    StaysBelow size h' c' := by
  intro n
  simpa only [iterate, hr] using hb (n + 1)

theorem iterate_ret {p n k : Nat} (hr : iterate size n h c = some (.ret p h')) (hk : n ≤ k) :
    iterate size k h c = some (.ret p h') := by
  induction n generalizing h c k with
  | zero => simp [iterate] at hr
  | succ n ih =>
    obtain ⟨k, rfl⟩ := Nat.exists_eq_add_of_le' (Nat.le_of_add_left_le hk)
    simp only [iterate] at hr ⊢
    split at hr
    · exact ih hr (by omega)
    · exact hr

theorem staysBelow_of_ret {p n : Nat} (hr : iterate size n h c = some (.ret p h'))
    (hb : ∀ k < n, RoundBelow size (iterate size k h c)) : StaysBelow size h c := by
  intro k
  by_cases hk : k < n
  · exact hb k hk
  · rw [iterate_ret hr (by omega)]
    trivial

/-- The search from any block returns an allocated one. -/
theorem Layout.finds (h8 : 8 ≤ size) (hd : size % 8 = 0) (hs : size < 2 ^ 30) (L : Layout h (pre ++ b :: suf))
    (hbs : NoAdj (pre ++ b :: suf)) (hc : c = kernHeapBase + 12 + total Blk.size pre) (hbelow : StaysBelow size h c) :
    Finds size h (pre ++ b :: suf) c := by
  induction suf generalizing pre b c with
  | nil =>
    by_cases hfit : b.used = false ∧ size ≤ b.size
    · obtain ⟨h', bs', hr, ha⟩ := L.round_fit hbs hc hfit.1 h8 hd hfit.2
      exact finds_of_ret hr ha
    -- the last block does not fit: the heap is extended, and the search goes on at the same block
    have hblk := L.block hc
    have hgrow : Grows size h c := by
      refine ⟨by simpa only [hblk.hdr_get, aloc_set, siz_set] using hfit, ?_⟩
      have := L.brk_eq
      simp only [total_append, total_cons, total_nil] at this
      rw [hblk.hdr_get, siz_set]
      omega
    have hM := hbelow 0 hgrow
    rw [align_of_dvd hd hs] at hM
    obtain ⟨h1, pre', b', he, L1, hp, hk⟩ := L.extendHeap h8 hd hs hM
    have hr : mallocRound size h c = some (.loop h1 c) := by rw [mallocRound_grows hgrow, he, Option.map_some]
    have hn : JoinsNext ⟨size, false⟩ [] ⟨size, false⟩ [] := .inl ⟨rfl, rfl, by simp⟩
    have hbs1 : NoAdj (pre' ++ [b']) := noAdj_of_joins hbs .nil hn hp
    apply finds_of_loop hr _ hk
    rcases hp with ⟨rfl, rfl, hlast⟩ | ⟨p, hpf, heq, rfl⟩
    · -- the last block is allocated: it is passed over, and the new block behind it fits
      have hused : b.used = true := hlast b (by simp)
      have L2 := L1
      rw [append_assoc] at L2
      have hc' : c + b.size = kernHeapBase + 12 + total Blk.size (pre ++ [b]) := by
        simp only [total_append, total_cons, total_nil]
        omega
      obtain ⟨h', bs', hr', ha⟩ := L1.round_fit hbs1 hc' rfl h8 hd le_rfl
      exact finds_of_loop (L2.round_skip hc (.inl hused)) (finds_of_ret hr' ha) (.refl _ _ _)
    · -- the last block is free: it has grown by the size asked for
      obtain ⟨rfl, hb⟩ := append_inj' heq rfl
      obtain rfl : b = p := by simpa using hb
      obtain ⟨h', bs', hr', ha⟩ := L1.round_fit hbs1 hc rfl h8 hd (Nat.le_add_left _ _)
      exact finds_of_ret hr' ha
  | cons n suf ih =>
    by_cases hfit : b.used = false ∧ size ≤ b.size
    · obtain ⟨h', bs', hr, ha⟩ := L.round_fit hbs hc hfit.1 h8 hd hfit.2
      exact finds_of_ret hr ha
    have hb : b.used = true ∨ b.size < size := by
      by_cases hu : b.used = true
      · exact .inl hu
      · exact .inr (by_contra fun hle => hfit ⟨by simpa using hu, by omega⟩)
    have hr := L.round_skip hc hb
    have hsplit : pre ++ b :: n :: suf = (pre ++ [b]) ++ n :: suf := by simp
    refine finds_of_loop hr ?_ (.refl _ _ _)
    rw [hsplit] at L hbs ⊢
    refine ih L hbs ?_ (hbelow.step hr)
    simp only [total_append, total_cons, total_nil]
    omega

/-- **The search of `malloc` ends with an allocated block.** -/
theorem Layout.finds_root (L : Layout h bs) (hbs : NoAdj bs) (h8 : 8 ≤ size) (hd : size % 8 = 0) (hs : size < 2 ^ 30)
    (hbelow : StaysBelow size h h.root) : Finds size h bs h.root := by
  obtain _ | ⟨b, suf⟩ := bs
  · -- an empty heap: the search starts at the end mark, which becomes the new block
    have hbrk : h.root = h.brk := L.tiled
    have hgrow : Grows size h h.root := by
      rw [Grows, hbrk, L.epi, aloc_set, siz_set]
      exact ⟨by simp, le_rfl⟩
    have hM := hbelow 0 hgrow
    rw [align_of_dvd hd hs] at hM
    obtain ⟨h1, pre', b', he, L1, hp, hk⟩ := L.extendHeap h8 hd hs hM
    obtain ⟨rfl, rfl⟩ : pre' = [] ∧ b' = ⟨size, false⟩ := by
      rcases hp with ⟨rfl, rfl, -⟩ | ⟨p, -, hnil, -⟩
      · exact ⟨rfl, rfl⟩
      · simp at hnil
    have hr : mallocRound size h h.root = some (.loop h1 h.root) := by rw [mallocRound_grows hgrow, he, Option.map_some]
    obtain ⟨h', bs', hr', ha⟩ := L1.round_fit (isChain_singleton _) L.root rfl h8 hd le_rfl
    exact finds_of_loop hr (finds_of_ret hr' ha) hk
  · exact Layout.finds h8 hd hs (show Layout h ([] ++ b :: suf) from L) hbs L.root hbelow

theorem blockSiz_spec {req : Nat} (hreq : req < 2 ^ 29) :
    req + 8 ≤ blockSiz req ∧ blockSiz req % 8 = 0 ∧ blockSiz req < 2 ^ 30 := by
  rw [blockSiz, align, u64_of_lt (show req + 8 < 2 ^ 64 by omega), u64_of_lt (by omega)]
  omega

end TextOS.Heap
