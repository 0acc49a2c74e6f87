import TextOS.Heap.Blocks

/-!
# The layout of the heap

`Layout h bs` says that the blocks `bs` tile the heap from `_heap.root` to the end mark at `_heap.brk`, that the heap
is below 512 MiB and that every word written so far lies inside it; `Keeps f` says that a change leaves every allocated
block where it is and its bytes as they are, the block at `f` apart.
-/

namespace TextOS.Heap

open Lib List

/-- The blocks `bs` fill `[a, e)`. -/
abbrev Tiled (m : Bytes) (a : Nat) (bs : List Blk) (e : Nat) : Prop := Tiles Blk.size (BlkAt m) a bs e

/-- The block `b` lies at `x` in the heap with the blocks `bs`. -/
abbrev Has (bs : List Blk) (x : Nat) (b : Blk) : Prop := Sits Blk.size (kernHeapBase + 12) bs x b

/-- No two consecutive blocks are free. -/
abbrev NoAdj (bs : List Blk) : Prop := bs.IsChain fun b c => b.used = true ∨ c.used = true

structure Layout (h : State) (bs : List Blk) : Prop where
  root : h.root = kernHeapBase + 12
  pro : BlkAt h.mem (kernHeapBase + 4) ⟨8, true⟩
  tiled : Tiled h.mem h.root bs h.brk
  epi : h.get h.brk = set 0 true
  brk_mod : h.brk % 8 = 4
  brk_le : h.brk + 4 ≤ h.max
  max_mod : h.max % 4096 = 0
  max_lt : h.max < kernHeapBase + 2 ^ 29
  log : ∀ w ∈ h.log, kernHeapBase ≤ w.1 ∧ w.1 + 4 ≤ w.2 ∧ w.2 ≤ h.max

/-- Every allocated block but the one at `f` stays where it is, with its bytes. -/
def Keeps (f : Option Nat) (h : State) (bs : List Blk) (h' : State) (bs' : List Blk) : Prop :=
  ∀ x b, Has bs x b → b.used = true → f ≠ some x →
    Has bs' x b ∧ ∀ y, x ≤ y → y < x + b.size → h'.mem y = h.mem y

variable {h h' h'' : State} {bs bs' bs'' pre pre' mid mid' suf suf' : List Blk} {b b' : Blk} {c size : Nat}
  {f : Option Nat}

theorem base_mod : kernHeapBase % 4096 = 0 := rfl

theorem base_lt : kernHeapBase + 2 ^ 31 < 2 ^ 64 := by decide

theorem Keeps.refl (f : Option Nat) (h : State) (bs : List Blk) : Keeps f h bs h bs :=
  fun _ _ hx _ _ => ⟨hx, fun _ _ _ => rfl⟩

theorem Keeps.trans (h1 : Keeps f h bs h' bs') (h2 : Keeps none h' bs' h'' bs'') : Keeps f h bs h'' bs'' := by
  intro x b hx hu hf
  obtain ⟨hx', hm⟩ := h1 x b hx hu hf
  obtain ⟨hx'', hm'⟩ := h2 x b hx' hu nofun
  exact ⟨hx'', fun y hy hy' => (hm' y hy hy').trans (hm y hy hy')⟩

/-! ## Reading a layout -/

theorem Layout.brk_eq (L : Layout h bs) : h.brk = kernHeapBase + 12 + total Blk.size bs := by
  rw [L.tiled.end_eq, L.root]

theorem Layout.at_has (L : Layout h bs) (hb : Has bs c b) :
    BlkAt h.mem c b ∧ kernHeapBase + 12 ≤ c ∧ c + b.size ≤ h.brk := by
  have ht := L.tiled
  rw [L.root] at ht
  exact ht.at_sits hb

theorem Layout.cut (mid : List Blk) (L : Layout h (pre ++ (mid ++ suf)))
    (hc : c = kernHeapBase + 12 + total Blk.size pre) : Tiled h.mem (kernHeapBase + 12) pre c ∧
    Tiled h.mem c mid (c + total Blk.size mid) ∧
      Tiled h.mem (c + total Blk.size mid) suf h.brk := by
  have ht := L.tiled
  rw [L.root, Tiled, tiles_append, tiles_append, ← hc] at ht
  exact ht

theorem Layout.block (L : Layout h (pre ++ b :: suf)) (hc : c = kernHeapBase + 12 + total Blk.size pre) :
    BlkAt h.mem c b :=
  (L.cut [b] hc).2.1.1

theorem Layout.aloc_next (L : Layout h (pre ++ b :: suf)) (hc : c = kernHeapBase + 12 + total Blk.size pre)
    (hn : ∀ n ∈ suf.head?, n.used = true) : aloc (h.get (c + b.size)) = true := by
  have hsuf := (L.cut [b] hc).2.2
  simp only [total_cons, total_nil, Nat.add_zero] at hsuf
  cases suf with
  | nil => rw [tiles_nil.1 hsuf, L.epi, aloc_set]
  | cons n suf => rw [hsuf.1.hdr_get, aloc_set, hn n rfl]

theorem Layout.aloc_prev (L : Layout h (pre ++ b :: suf)) (hc : c = kernHeapBase + 12 + total Blk.size pre)
    (hp : ∀ p ∈ pre.getLast?, p.used = true) : aloc (h.get (c - 4)) = true := by
  rcases eq_nil_or_concat pre with rfl | ⟨pre, p, rfl⟩
  · have hftr := L.pro.ftr_get
    rw [hc, total_nil, show kernHeapBase + 12 + 0 - 4 = kernHeapBase + 4 + 8 - 4 by omega, hftr, aloc_set]
  rw [concat_eq_append, append_assoc] at L
  have hftr := (L.block rfl).ftr_get
  simp only [concat_eq_append, total_append, total_cons, total_nil, Nat.add_zero, ← Nat.add_assoc] at hc
  rw [hc, hftr, aloc_set, hp p (by simp)]

theorem Layout.total_lt (L : Layout h bs) : total Blk.size bs < 2 ^ 29 := by
  have := L.brk_eq
  have := L.brk_le
  have := L.max_lt
  omega

/-! ## Rewriting a stretch of blocks -/

/-- **Rewriting a stretch of blocks keeps the rest of the layout.** -/
theorem Layout.replace (mid : List Blk) (L : Layout h (pre ++ (mid ++ suf)))
    (hc : c = kernHeapBase + 12 + total Blk.size pre) (hw : Writes h h' c (c + total Blk.size mid))
    (ht : Tiled h'.mem c mid' (c + total Blk.size mid)) : Layout h' (pre ++ (mid' ++ suf)) := by
  obtain ⟨hpre, -, hsuf⟩ := L.cut mid hc
  have hend := hsuf.end_eq
  have hmid := ht.end_eq
  have hbrk := L.brk_le
  refine ⟨hw.root.trans L.root, ?_, ?_, ?_, ?_, ?_, ?_, ?_, ?_⟩
  · exact L.pro.congr fun x _ hx => hw.mem x (.inl (by dsimp only at hx; omega))
  · rw [hw.root, L.root, hw.brk, Tiled, tiles_append, tiles_append, ← hc, ← hmid]
    refine ⟨hpre.transport fun x b _ hx hb => ?_, ht, hsuf.transport fun x b hx _ hb => ?_⟩
    · exact hb.congr fun y _ hy => hw.mem y (.inl (by omega))
    · exact hb.congr fun y hy _ => hw.mem y (.inr (by omega))
  · rw [hw.brk]
    exact (hw.mem.word (.inr (by omega))).trans L.epi
  · exact hw.brk ▸ L.brk_mod
  · exact hw.brk ▸ hw.max ▸ L.brk_le
  · exact hw.max ▸ L.max_mod
  · exact hw.max ▸ L.max_lt
  intro w hmem
  rw [hw.max]
  rcases hw.log w hmem with hmem | ⟨h1, h2, h3⟩
  · exact L.log w hmem
  · exact ⟨by omega, by omega, by omega⟩

/-- Some blocks in a row are replaced by others of the same extent. -/
theorem Layout.keeps_replace (mid : List Blk) (L : Layout h (pre ++ (mid ++ suf)))
    (hc : c = kernHeapBase + 12 + total Blk.size pre) (hw : Writes h h' c (c + total Blk.size mid))
    (ht : Tiled h'.mem c mid' (c + total Blk.size mid)) (hf : ∀ x b, Sits Blk.size c mid x b →
    b.used = true → f = some x) : Keeps f h (pre ++ (mid ++ suf)) h' (pre ++ (mid' ++ suf)) := by
  obtain ⟨hpre, -, hsuf⟩ := L.cut mid hc
  have hmid : total Blk.size mid' = total Blk.size mid := by
    have := ht.end_eq
    omega
  intro x b hx hu hne
  rw [Has, sits_append, sits_append, ← hc] at hx ⊢
  rw [hmid]
  rcases hx with hx | hx | hx
  · have hin := (hpre.at_sits hx).2
    exact ⟨.inl hx, fun y _ hy => hw.mem y (.inl (by omega))⟩
  · exact absurd (hf x b hx hu) hne
  · have hin := (hsuf.at_sits hx).2
    exact ⟨.inr (.inr hx), fun y hy _ => hw.mem y (.inr (by omega))⟩

/-! ## Merging -/

/-- The block `b` takes in a free block behind it: `b'` in front of `suf'` instead of `b` in front of `suf`. -/
def JoinsNext (b : Blk) (suf : List Blk) (b' : Blk) (suf' : List Blk) : Prop :=
  (suf' = suf ∧ b' = b ∧ ∀ n ∈ suf.head?, n.used = true) ∨
    ∃ n, n.used = false ∧ suf = n :: suf' ∧ b' = ⟨b.size + n.size, false⟩

/-- The block `b` is taken in by a free block before it. -/
def JoinsPrev (pre : List Blk) (b : Blk) (pre' : List Blk) (b' : Blk) : Prop :=
  (pre' = pre ∧ b' = b ∧ ∀ p ∈ pre.getLast?, p.used = true) ∨
    ∃ p, p.used = false ∧ pre = pre' ++ [p] ∧ b' = ⟨p.size + b.size, false⟩

/-- A free block takes in the free block behind it. -/
theorem Layout.mergeNext (L : Layout h (pre ++ b :: suf)) (hc : c = kernHeapBase + 12 + total Blk.size pre)
    (hb : b.used = false) :
    ∃ h' b' suf', mergeNext h c = some h' ∧ Layout h' (pre ++ b' :: suf') ∧ JoinsNext b suf b' suf' ∧
      Keeps none h (pre ++ b :: suf) h' (pre ++ b' :: suf') := by
  have hblk := L.block hc
  by_cases hn : ∀ n ∈ suf.head?, n.used = true
  · exact ⟨h, b, suf, mergeNext_used hblk (L.aloc_next hc hn), L, .inl ⟨rfl, rfl, hn⟩, .refl _ _ _⟩
  obtain _ | ⟨n, suf⟩ := suf
  · simp at hn
  have hnf : n.used = false := by simpa using hn
  have hnext : BlkAt h.mem (c + b.size) n := (L.cut [b] hc).2.2.1
  have hsum : b.size + n.size < 2 ^ 29 := by
    have := L.total_lt
    simp only [total_append, total_cons] at this
    omega
  have hmid : total Blk.size [b, n] = b.size + n.size := rfl
  obtain ⟨h', he, hblk', hw⟩ := mergeNext_free hblk hnext hnf hsum
  have ht : Tiled h'.mem c [⟨b.size + n.size, false⟩] (c + total Blk.size [b, n]) := ⟨hblk', by simp⟩
  refine ⟨h', _, suf, he, L.replace [b, n] hc hw ht, .inr ⟨n, hnf, rfl, rfl⟩,
    L.keeps_replace [b, n] hc hw ht fun x d hx hd => ?_⟩
  rcases hx with ⟨-, rfl⟩ | ⟨-, rfl⟩ | hx
  · simp [hb] at hd
  · simp [hnf] at hd
  · exact hx.elim

/-- A free block is taken in by the free block before it. -/
theorem Layout.mergePrev (L : Layout h (pre ++ b :: suf)) (hc : c = kernHeapBase + 12 + total Blk.size pre)
    (hb : b.used = false) :
    ∃ h' pre' b', mergePrev h c = some h' ∧ Layout h' (pre' ++ b' :: suf) ∧ JoinsPrev pre b pre' b' ∧
      Keeps none h (pre ++ b :: suf) h' (pre' ++ b' :: suf) := by
  by_cases hp : ∀ p ∈ pre.getLast?, p.used = true
  · exact ⟨h, pre, b, mergePrev_used (L.aloc_prev hc hp), L, .inl ⟨rfl, rfl, hp⟩, .refl _ _ _⟩
  rcases eq_nil_or_concat pre with rfl | ⟨pre, p, rfl⟩
  · simp at hp
  rw [concat_eq_append] at L hp hc ⊢
  have hpf : p.used = false := by simpa using hp
  rw [append_assoc] at L ⊢
  have hprev := L.block rfl
  have hblk : BlkAt h.mem (kernHeapBase + 12 + total Blk.size pre + p.size) b := (L.cut [p] rfl).2.2.1
  have hsum : p.size + b.size < 2 ^ 29 := by
    have := L.total_lt
    simp only [total_append, total_cons] at this
    omega
  obtain ⟨h', he, hblk', hw⟩ := mergePrev_free hprev hpf hblk hsum
  simp only [total_append, total_cons, total_nil, Nat.add_zero, ← Nat.add_assoc] at hc
  have ht : Tiled h'.mem (kernHeapBase + 12 + total Blk.size pre) [⟨p.size + b.size, false⟩]
      (kernHeapBase + 12 + total Blk.size pre + total Blk.size [p, b]) := ⟨hblk', by simp⟩
  refine ⟨h', pre, _, hc ▸ he, L.replace [p, b] rfl hw ht, .inr ⟨p, hpf, rfl, rfl⟩,
    L.keeps_replace [p, b] rfl hw ht fun x d hx hd => ?_⟩
  rcases hx with ⟨-, rfl⟩ | ⟨-, rfl⟩ | hx
  · simp [hpf] at hd
  · simp [hb] at hd
  · exact hx.elim

/-- **`_merge` joins a free block with its free neighbours.** -/
theorem Layout.merge (L : Layout h (pre ++ b :: suf)) (hc : c = kernHeapBase + 12 + total Blk.size pre)
    (hb : b.used = false) :
    ∃ h' b1 pre' b' suf', merge h c = some h' ∧ Layout h' (pre' ++ b' :: suf') ∧ JoinsNext b suf b1 suf' ∧
      JoinsPrev pre b1 pre' b' ∧ Keeps none h (pre ++ b :: suf) h' (pre' ++ b' :: suf') := by
  obtain ⟨h1, b1, suf', he, L1, hn, hk⟩ := L.mergeNext hc hb
  have hb1 : b1.used = false := by
    rcases hn with ⟨-, rfl, -⟩ | ⟨n, -, -, rfl⟩
    · exact hb
    · rfl
  obtain ⟨h', pre', b', he', L', hp, hk'⟩ := L1.mergePrev hc hb1
  exact ⟨h', b1, pre', b', suf', by rw [Heap.merge, he, Option.bind_some, he'], L', hn, hp, hk.trans hk'⟩

theorem noAdj_cons_iff : NoAdj (b :: suf) ↔ (∀ n ∈ suf.head?, b.used = true ∨ n.used = true) ∧ NoAdj suf := isChain_cons

theorem noAdj_append_iff : NoAdj (pre ++ suf) ↔ NoAdj pre ∧ NoAdj suf ∧
    ∀ p ∈ pre.getLast?, ∀ n ∈ suf.head?, p.used = true ∨ n.used = true :=
  isChain_append

/-- After both joins no two free blocks are neighbours. -/
theorem noAdj_of_joins {b1 : Blk} (hpre : NoAdj pre) (hsuf : NoAdj suf) (hn : JoinsNext b suf b1 suf')
    (hp : JoinsPrev pre b1 pre' b') : NoAdj (pre' ++ b' :: suf') := by
  have hright : NoAdj suf' ∧ ∀ n ∈ suf'.head?, n.used = true := by
    rcases hn with ⟨rfl, -, hhead⟩ | ⟨n, hnf, rfl, -⟩
    · exact ⟨hsuf, hhead⟩
    · have := noAdj_cons_iff.1 hsuf
      simpa [hnf, and_comm] using this
  have hleft : NoAdj pre' ∧ ∀ p ∈ pre'.getLast?, p.used = true := by
    rcases hp with ⟨rfl, -, hlast⟩ | ⟨p, hpf, rfl, -⟩
    · exact ⟨hpre, hlast⟩
    · have := noAdj_append_iff.1 hpre
      exact ⟨this.1, fun q hq => by simpa [hpf] using this.2.2 q hq p rfl⟩
  refine noAdj_append_iff.2 ⟨hleft.1, noAdj_cons_iff.2 ⟨fun n hmem => .inr (hright.2 n hmem), hright.1⟩, ?_⟩
  exact fun p hmem _ _ => .inl (hleft.2 p hmem)

/-! ## Freeing a block -/

/-- **`free` of an allocated block** returns, and touches no other allocated block. -/
theorem Layout.free (L : Layout h bs) (hbs : NoAdj bs) (hc : Has bs c b) (hb : b.used = true) :
    ∃ h' bs', free h (c + 4) = some h' ∧ Layout h' bs' ∧ NoAdj bs' ∧ Keeps (some c) h bs h' bs' := by
  have hat := L.at_has hc
  have h8 := hat.1.eight_le
  have hmax := L.brk_le
  obtain ⟨pre, suf, rfl, hpre⟩ := hc.split
  have hbs' := noAdj_append_iff.1 hbs
  -- both words of the block are rewritten, which makes it a free block of the same size
  let h1 := (h.put c (set b.size false)).put (c + b.size - 4) (set b.size false)
  have hw : Writes h h1 c (c + total Blk.size [b]) := by
    simp only [total_cons, total_nil]
    exact ((Writes.refl h _ _).put _ (by omega) (by omega)).put _ (by omega) (by omega)
  have ht : Tiled h1.mem c [⟨b.size, false⟩] (c + total Blk.size [b]) := by
    refine ⟨⟨hat.1.pos, hat.1.dvd, hat.1.small, ?_, get_put_set _ _ _ hat.1.small⟩, rfl⟩
    exact (get_put_of_apart _ _ (by omega)).trans (get_put_set _ _ _ hat.1.small)
  have hk : Keeps (some c) h (pre ++ b :: suf) h1 (pre ++ ⟨b.size, false⟩ :: suf) := by
    refine L.keeps_replace [b] hpre hw ht fun x d hx _ => ?_
    rcases hx with ⟨rfl, -⟩ | hx
    · rfl
    · exact hx.elim
  obtain ⟨h', b1, pre', b', suf', he, L', hn, hp, hk'⟩ := (L.replace [b] hpre hw ht).merge hpre rfl
  refine ⟨h', _, ?_, L', noAdj_of_joins hbs'.1 (noAdj_cons_iff.1 hbs'.2.1).2 hn hp, hk.trans hk'⟩
  have hftr : (h.put c (set b.size false)).get (c + b.size - 4) = set b.size true := by
    rw [get_put_of_apart _ _ (by omega), hat.1.ftr_get, hb]
  rw [Heap.free, if_neg (by omega)]
  simp only [Nat.add_sub_cancel, hat.1.hdr_get, siz_set, hat.1.ftr_get, hb, aloc_set, hftr]
  simpa using he

end TextOS.Heap
