import TextOS.Heap.Defs
import TextOS.Lib.Tiling

/-!
# Blocks and what the heap functions do to them

`BlkAt m a b` says that the block `b` lies at `a` in the memory `m`; `Writes h h' s t` that `h'` comes from `h` by
writing words of `[s, t)`. Each function is described by the blocks it finds and the blocks it leaves:

- `takeFront` cuts a free block in two (`takeFront_spec`), `takeAll` allocates it whole (`takeAll_spec`);
- the halves of `_merge` join two free blocks (`mergeNext_free`, `mergePrev_free`) or do nothing (`mergeNext_used`,
  `mergePrev_used`).
-/

namespace TextOS.Heap

open Lib

/-- A block: its size with header and footer, and whether it is allocated. -/
structure Blk where
  size : Nat
  used : Bool
deriving DecidableEq, Repr

/-- The block `b` lies at `a`: header and footer say so, the size is a multiple of 8 and fits its field. -/
structure BlkAt (m : Bytes) (a : Nat) (b : Blk) : Prop where
  pos : 0 < b.size
  dvd : b.size % 8 = 0
  small : b.size < 2 ^ 29
  hdr : word m a = set b.size b.used
  ftr : word m (a + b.size - 4) = set b.size b.used

/-- `h'` comes from `h` by writing words inside `[s, t)`. -/
structure Writes (h h' : State) (s t : Nat) : Prop where
  brk : h'.brk = h.brk
  root : h'.root = h.root
  max : h'.max = h.max
  mem : SameOutside h.mem h'.mem s t
  log : ∀ w ∈ h'.log, w ∈ h.log ∨ (s ≤ w.1 ∧ w.1 + 4 ≤ t ∧ w.2 = h.max)

variable {h h' h'' : State} {a c s t size : Nat} {b n p : Blk}

/-! ## Words -/

@[simp] theorem siz_set (size : Nat) (u : Bool) : siz (set size u) = size := by
  cases u with
  | false => simp [siz, set]
  | true =>
    simp only [siz, set, Bool.toNat_true]
    omega

@[simp] theorem aloc_set (size : Nat) (u : Bool) : aloc (set size u) = u := by cases u <;> simp [aloc, set] <;> omega

theorem set_lt (u : Bool) (hs : size < 2 ^ 29) : set size u < 2 ^ 32 := by cases u <;> simp [set] <;> omega

theorem ftrOff_of_le (h4 : 4 ≤ size) (hs : size < 2 ^ 29) : ftrOff size = size - 4 := by
  rw [ftrOff, u32]
  omega

theorem get_put_set (h : State) (a : Nat) (u : Bool) (hs : size < 2 ^ 29) :
    (h.put a (set size u)).get a = set size u :=
  (word_putWord _ _ _).trans (Nat.mod_eq_of_lt (set_lt u hs))

theorem get_put_of_apart (h : State) (v : Nat) (hc : c + 4 ≤ a ∨ a + 4 ≤ c) : (h.put a v).get c = h.get c :=
  word_putWord_of_apart _ v hc

theorem BlkAt.hdr_get (hb : BlkAt h.mem a b) : h.get a = set b.size b.used := hb.hdr

theorem BlkAt.ftr_get (hb : BlkAt h.mem a b) : h.get (a + b.size - 4) = set b.size b.used := hb.ftr

theorem BlkAt.eight_le (hb : BlkAt h.mem a b) : 8 ≤ b.size := by
  have := hb.pos
  have := hb.dvd
  omega

theorem BlkAt.congr {m m' : Bytes} (hb : BlkAt m a b) (hm : ∀ x, a ≤ x → x < a + b.size → m' x = m x) :
    BlkAt m' a b := by
  have h8 : 8 ≤ b.size := by
    have := hb.pos
    have := hb.dvd
    omega
  refine ⟨hb.pos, hb.dvd, hb.small, ?_, ?_⟩
  · rw [← hb.hdr]
    exact word_congr fun x _ _ => hm x (by omega) (by omega)
  · rw [← hb.ftr]
    exact word_congr fun x _ _ => hm x (by omega) (by omega)

/-! ## Writes -/

theorem Writes.refl (h : State) (s t : Nat) : Writes h h s t := ⟨rfl, rfl, rfl, .refl _ _ _, fun _ hw => .inl hw⟩

theorem Writes.put (hw : Writes h h' s t) (v : Nat) (hs : s ≤ a) (ht : a + 4 ≤ t) : Writes h (h'.put a v) s t := by
  refine ⟨hw.brk, hw.root, hw.max, hw.mem.putWord v hs ht, fun w hmem => ?_⟩
  rcases List.mem_cons.1 hmem with rfl | hmem
  · exact .inr ⟨hs, ht, hw.max⟩
  · exact hw.log w hmem

/-! ## Allocating a free block -/

/-- **The front of a larger block is allocated.** -/
theorem takeFront_spec (hb : BlkAt h.mem a b) (h8 : 8 ≤ size) (hd : size % 8 = 0) (hs : size < b.size) :
    BlkAt (takeFront h a size).mem a ⟨size, true⟩ ∧ BlkAt (takeFront h a size).mem (a + size) ⟨b.size - size, false⟩ ∧
      Writes h (takeFront h a size) a (a + b.size) := by
  have hdvd := hb.dvd
  have hsmall := hb.small
  have hget : (h.put (a + (b.size - 4)) (set (b.size - size) false)).get a = set b.size b.used := by
    rw [get_put_of_apart _ _ (by omega), hb.hdr_get]
  simp only [takeFront, hb.hdr_get, siz_set, ftrOff_of_le (show 4 ≤ b.size by omega) hsmall, hget]
  refine ⟨⟨by dsimp only; omega, hd, by dsimp only; omega, ?_, ?_⟩,
    ⟨by dsimp only; omega, by dsimp only; omega, by dsimp only; omega, ?_, ?_⟩, ?_⟩
  · exact (get_put_of_apart _ _ (by omega)).trans (get_put_set _ _ _ (by omega))
  · exact get_put_set _ _ _ (by omega)
  · refine ((get_put_of_apart _ _ (by omega)).trans (get_put_of_apart _ _ (by omega))).trans ?_
    exact get_put_set _ _ _ (by omega)
  · rw [show a + size + (b.size - size) - 4 = a + (b.size - 4) by omega]
    refine ((get_put_of_apart _ _ (by omega)).trans (get_put_of_apart _ _ (by omega))).trans ?_
    exact (get_put_of_apart _ _ (by omega)).trans (get_put_set _ _ _ (by omega))
  · exact ((((Writes.refl h _ _).put _ (by omega) (by omega)).put _ (by omega) (by omega)).put _ (by omega)
      (by omega)).put _ (by omega) (by omega)

theorem takeAll_spec (hb : BlkAt h.mem a b) :
    BlkAt (takeAll h a b.size).mem a ⟨b.size, true⟩ ∧ Writes h (takeAll h a b.size) a (a + b.size) := by
  have h8 := hb.eight_le
  have hsmall := hb.small
  simp only [takeAll, get_put_set _ _ _ hsmall, siz_set, ftrOff_of_le (show 4 ≤ b.size by omega) hsmall]
  refine ⟨⟨hb.pos, hb.dvd, hsmall, ?_, ?_⟩, ?_⟩
  · exact (get_put_of_apart _ _ (by omega)).trans (get_put_set _ _ _ hsmall)
  · rw [show a + b.size - 4 = a + (b.size - 4) by omega]
    exact get_put_set _ _ _ hsmall
  · exact ((Writes.refl h _ _).put _ (by omega) (by omega)).put _ (by omega) (by omega)

/-! ## Merging -/

theorem mergeNext_used (hb : BlkAt h.mem a b) (hn : aloc (h.get (a + b.size)) = true) : mergeNext h a = some h := by
  have h8 := hb.eight_le
  simp only [mergeNext, hb.hdr_get, siz_set, show a + b.size - 4 + 4 = a + b.size by omega, hn]
  simp

/-- **A free block takes in a free block behind it.** -/
theorem mergeNext_free (hb : BlkAt h.mem a b) (hn : BlkAt h.mem (a + b.size) n) (hf : n.used = false)
    (hsum : b.size + n.size < 2 ^ 29) : ∃ h', mergeNext h a = some h' ∧ BlkAt h'.mem a ⟨b.size + n.size, false⟩ ∧
      Writes h h' a (a + (b.size + n.size)) := by
  have h8 := hb.eight_le
  have hn8 := hn.eight_le
  have hbd := hb.dvd
  have hnd := hn.dvd
  have hftr : h.get (a + b.size + (n.size - 4)) = set n.size n.used := by
    rw [show a + b.size + (n.size - 4) = a + b.size + n.size - 4 by omega]
    exact hn.ftr_get
  simp only [mergeNext, hb.hdr_get, siz_set, show a + b.size - 4 + 4 = a + b.size by omega, hn.hdr_get, hf, aloc_set,
    ftrOff_of_le (show 4 ≤ n.size by omega) hn.small, hftr, get_put_set _ _ _ hsum]
  refine ⟨_, if_pos ⟨trivial, by omega⟩, ⟨by dsimp only; omega, by dsimp only; omega, hsum, ?_, ?_⟩, ?_⟩
  · exact (get_put_of_apart _ _ (by omega)).trans (get_put_set _ _ _ hsum)
  · rw [show a + (b.size + n.size) - 4 = a + b.size + (n.size - 4) by omega]
    exact get_put_set _ _ _ hsum
  · exact ((Writes.refl h _ _).put _ (by omega) (by omega)).put _ (by omega) (by omega)

theorem mergePrev_used (hp : aloc (h.get (a - 4)) = true) : mergePrev h a = some h := by
  simp only [mergePrev, hp]
  simp

/-- **A free block is taken in by a free block before it.** -/
theorem mergePrev_free (hp : BlkAt h.mem a p) (hf : p.used = false) (hb : BlkAt h.mem (a + p.size) b)
    (hsum : p.size + b.size < 2 ^ 29) :
    ∃ h', mergePrev h (a + p.size) = some h' ∧ BlkAt h'.mem a ⟨p.size + b.size, false⟩ ∧
      Writes h h' a (a + (p.size + b.size)) := by
  have h8 := hb.eight_le
  have hp8 := hp.eight_le
  have hbd := hb.dvd
  have hpd := hp.dvd
  simp only [mergePrev, hp.ftr_get, hf, aloc_set, siz_set, show a + p.size - p.size = a by omega, hp.hdr_get,
    hb.hdr_get, get_put_set _ _ _ hsum, ftrOff_of_le (show 4 ≤ p.size + b.size by omega) hsum]
  refine ⟨_, if_pos ⟨trivial, by omega⟩, ⟨by dsimp only; omega, by dsimp only; omega, hsum, ?_, ?_⟩, ?_⟩
  · exact (get_put_of_apart _ _ (by omega)).trans (get_put_set _ _ _ hsum)
  · rw [show a + (p.size + b.size) - 4 = a + (p.size + b.size - 4) by omega]
    exact get_put_set _ _ _ hsum
  · exact ((Writes.refl h _ _).put _ (by omega) (by omega)).put _ (by omega) (by omega)

end TextOS.Heap
