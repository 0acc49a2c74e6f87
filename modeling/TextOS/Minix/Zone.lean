import TextOS.Lib.Entries
import TextOS.Lib.Pieces
import TextOS.Minix.Map

/-!
# Zones of minix files: `kernel/fs/minix/minix.c`

The zones of a file are found through `zone[]`: seven direct zones, then one block with zone numbers, then one with the
numbers of such blocks, and so on. `minix_zget` follows the numbers, `minix_zext` adds zones where the first ones are
missing. A block is named by its number; `sb_bread` is `blk`.

- **`minix_zext_indirect` adds one zone at the end** (`zextIndirect_rep`), if the bitmap has the zones that are
  `needed`, and changes nothing but the blocks with numbers.
-/

namespace TextOS.Minix

open Lib Klib List Function

/-! ## The code -/

/-- The sizes of a volume whose zones are blocks: `log` is `v0_log_perlevel_entries`, `zsz` is `sizeof(mzone_t)`,
`levels` is the number of indirect zones in `zone[]`. The boot block, the superblock, both bitmaps and the inodes lie in
front of the first zone. -/
structure ZGeo where
  log : Nat
  zsz : Nat
  levels : Nat
  firstdatazone : Nat
  zones : Nat
  imapBlocks : Nat
  inodeBlocks : Nat
  zszPos : 0 < zsz
  apart : 2 + imapBlocks + (zones + zsz * 2 ^ log * 8 - 1) / (zsz * 2 ^ log * 8) + inodeBlocks ≤ firstdatazone
  levelsGe : 2 ≤ levels
  levelsLe : levels ≤ 3

theorem ZGeo.firstPos (g : ZGeo) : 0 < g.firstdatazone := lt_of_lt_of_le (by positivity) g.apart

/-- `_M`, the numbers in a block. -/
def ZGeo.m (g : ZGeo) : Nat := 2 ^ g.log

def ZGeo.blksz (g : ZGeo) : Nat := g.zsz * g.m

def ZGeo.xmapnrPerblk (g : ZGeo) : Nat := g.blksz * 8

/-- The blocks of the bitmap that `minix_zalloc` looks at. -/
def ZGeo.zmapBlocks (g : ZGeo) : Nat := (g.zones + g.xmapnrPerblk - 1) / g.xmapnrPerblk

/-- The blocks of the volume, and those of the zone bitmap. -/
structure Zones where
  blk : Nat → Bytes
  zmap : Nat → Bytes

/-- `minix_zidx_path`. -/
def ZGeo.zidxPath (g : ZGeo) (idx level : Nat) : Nat := (idx >>> ((level - 1) * g.log)) &&& (1 <<< g.log - 1)

/-- `minix_zget_indirect`, with the number of the block. -/
def zgetIndirect (g : ZGeo) (blk : Nat → Bytes) (idx : Nat) : Nat → Nat → Option Nat
  | 0, iblk => some iblk
  | l + 1, iblk =>
    let zno := entry g.zsz (blk iblk) (g.zidxPath idx (l + 1))
    if zno = 0 then none else zgetIndirect g blk idx l zno

/-- The part of `minix_zget` behind the direct zones: `n` more levels from `l` on. -/
def zgetFrom (g : ZGeo) (blk : Nat → Bytes) (zone : Nat → Nat) : Nat → Nat → Nat → Option Nat
  | 0, _, _ => none
  | n + 1, l, idx =>
    if idx < g.m ^ l then zgetIndirect g blk idx l (zone (l + 6)) else zgetFrom g blk zone n (l + 1) (idx - g.m ^ l)

/-- `minix_zget`, with the number of the block. -/
def minixZget (g : ZGeo) (blk : Nat → Bytes) (zone : Nat → Nat) (idx : Nat) : Option Nat :=
  if idx < 7 then if zone idx = 0 then none else some (zone idx)
  else zgetFrom g blk zone 3 1 (idx - 7)

def minixZalloc (g : ZGeo) (d : Zones) : Nat × Zones :=
  match xmapFind g.xmapnrPerblk d.zmap g.zmapBlocks 0 with
  | some (k, zmap) => ((g.firstdatazone + k) % 256 ^ g.zsz, { d with zmap := zmap })
  | none => (0, d)

/-- Store the number `zno` in block `iblk`. -/
def Zones.put (g : ZGeo) (d : Zones) (iblk i zno : Nat) : Zones :=
  { d with blk := update d.blk iblk (putEntry g.zsz (d.blk iblk) i zno) }

/-- `memset(blk, 0, BLKSZ)`. -/
def Zones.clear (d : Zones) (zno : Nat) : Zones := { d with blk := update d.blk zno fun _ => 0 }

/-- The difference of two numbers of type `uint`. -/
def uintSub (a b : Nat) : Nat := (a + 2 ^ 32 - b) % 2 ^ 32

/-- The loop of `minix_zext_indirect` over the last `n` numbers of block `iblk`, with `rem` zones to add: the zones,
what remains and whether it is `compromised`. `sub` extends a block of the level below, `none` if that is the data. -/
def zextLoop (g : ZGeo) (sub : Option (Zones → Nat → Nat → Zones × Nat)) (iblk : Nat) :
    Nat → Zones → Nat → Zones × Nat × Bool
  | 0, d, rem => (d, rem, false)
  | n + 1, d, rem =>
    if rem = 0 then (d, rem, false)
    else
      let i := g.m - (n + 1)
      let old := entry g.zsz (d.blk iblk) i
      let a := if old = 0 then minixZalloc g d else (old, d)
      if a.1 = 0 then (a.2, rem, true)
      else
        let d₁ := if old = 0 then (a.2.put g iblk i a.1).clear a.1 else d
        match sub with
        | none => zextLoop g sub iblk n d₁ (if old = 0 then rem - 1 else rem)
        | some sub' =>
          let r := sub' d₁ a.1 rem
          let rem' := uintSub rem r.2
          if r.2 = 0 ∧ n = 0 then (r.1, rem', true) else zextLoop g sub iblk n r.1 rem'

/-- `minix_zext_indirect`. The product with `-1` is one of `uint`, so what is returned is never negative. -/
def zextIndirect (g : ZGeo) : Nat → Zones → Nat → Nat → Zones × Nat
  | 0, d, _, _ => (d, 0)
  | l + 1, d, iblk, ext =>
    let r := zextLoop g (if l = 0 then none else some (zextIndirect g l)) iblk g.m d ext
    (r.1, (if r.2.2 then 2 ^ 32 - 1 else 1) * uintSub ext r.2.1 % 2 ^ 32)

/-- The first loop of `minix_zext`, over the last `n` direct zones. -/
def zextDirect (g : ZGeo) : Nat → Zones → (Nat → Nat) → Nat → Zones × (Nat → Nat) × Nat
  | 0, d, zone, ext => (d, zone, ext)
  | n + 1, d, zone, ext =>
    if ext = 0 then (d, zone, ext)
    else if zone (7 - (n + 1)) = 0 then
      let a := minixZalloc g d
      zextDirect g n a.2 (update zone (7 - (n + 1)) a.1) (ext - 1)
    else zextDirect g n d zone ext

/-- The second loop of `minix_zext`, over `n` levels from `l` on. -/
def zextFrom (g : ZGeo) : Nat → Nat → Zones → (Nat → Nat) → Nat → Zones × (Nat → Nat) × Nat
  | 0, _, d, zone, ext => (d, zone, ext)
  | n + 1, l, d, zone, ext =>
    if ext = 0 then (d, zone, ext)
    else
      let a := minixZalloc g d
      let s : Zones × (Nat → Nat) :=
        if zone (l + 6) = 0 then (a.2.clear a.1, update zone (l + 6) a.1) else (d, zone)
      let r := zextIndirect g l s.1 (s.2 (l + 6)) ext
      zextFrom g n (l + 1) r.1 s.2 (uintSub ext r.2)

/-- `minix_zext`: the zones, `zone[]` and the number of zones that could not be added. -/
def minixZext (g : ZGeo) (d : Zones) (zone : Nat → Nat) (ext : Nat) : Zones × (Nat → Nat) × Nat :=
  let r := zextDirect g 7 d zone ext
  zextFrom g g.levels 1 r.1 r.2.1 r.2.2

/-! ## Free zones -/

variable {g : ZGeo} {d d' : Zones} {blk blk' : Nat → Bytes} {zone : Nat → Nat} {l n idx z : Nat}

theorem ZGeo.mPos (g : ZGeo) : 0 < g.m := Nat.two_pow_pos g.log

theorem ZGeo.xmapPos (g : ZGeo) : 0 < g.xmapnrPerblk := Nat.mul_pos (Nat.mul_pos g.zszPos g.mPos) (by decide)

/-- The zones that the bitmap has to give. -/
def free (g : ZGeo) (d : Zones) : Finset Nat :=
  (Finset.range (g.firstdatazone + g.zmapBlocks * g.xmapnrPerblk)).filter fun z =>
    g.firstdatazone ≤ z ∧ xmapBit g.xmapnrPerblk d.zmap (z - g.firstdatazone) = false

/-- The numbers of free zones fit into `mzone_t`. -/
def Numbered (g : ZGeo) (d : Zones) : Prop := ∀ z ∈ free g d, z < 256 ^ g.zsz

theorem mem_free : z ∈ free g d ↔ z < g.firstdatazone + g.zmapBlocks * g.xmapnrPerblk ∧ g.firstdatazone ≤ z ∧
    xmapBit g.xmapnrPerblk d.zmap (z - g.firstdatazone) = false := by
  rw [free, Finset.mem_filter, Finset.mem_range]

theorem ne_zero_of_free (h : z ∈ free g d) : z ≠ 0 := by
  have := (mem_free.1 h).2.1
  have := g.firstPos
  omega

/-- **An allocated zone was free**, and is not any more. -/
theorem minixZalloc_spec (hn : Numbered g d) (hf : (free g d).Nonempty) :
    ∃ z d', minixZalloc g d = (z, d') ∧ z ∈ free g d ∧ d'.blk = d.blk ∧ free g d' = (free g d).erase z := by
  rw [minixZalloc]
  match hx : xmapFind g.xmapnrPerblk d.zmap g.zmapBlocks 0 with
  | none =>
    obtain ⟨z, hz⟩ := hf
    obtain ⟨hlt, hle, hb⟩ := mem_free.1 hz
    rw [xmapFind_none g.xmapPos hx (by omega) (by rw [Nat.zero_add]; omega)] at hb
    cases hb
  | some (k, zmap) =>
    obtain ⟨hk, hclear, hset⟩ := xmapFind_some g.xmapPos hx
    rw [Nat.zero_add] at hk
    have hz : g.firstdatazone + k ∈ free g d := by
      refine mem_free.2 ⟨by omega, by omega, ?_⟩
      rwa [Nat.add_sub_cancel_left]
    refine ⟨_, _, rfl, ?_, rfl, ?_⟩
    · rwa [Nat.mod_eq_of_lt (hn _ hz)]
    rw [Nat.mod_eq_of_lt (hn _ hz)]
    ext y
    rw [Finset.mem_erase, mem_free, mem_free]
    rw [hset, Bool.or_eq_false_iff, decide_eq_false_iff_not]
    constructor
    · rintro ⟨h1, h2, h3, h4⟩
      exact ⟨by omega, h1, h2, h4⟩
    · rintro ⟨h1, h2, h3, h4⟩
      exact ⟨h2, h3, by omega, h4⟩

/-! ## Trees of blocks -/

/-- A tree of blocks: the block at its root, the data zones and the blocks with numbers. -/
structure Sub where
  root : Nat
  data : List Nat
  ind : List Nat

/-- The tree `s` has the subtrees `cs`, of level `l` and with `R`: their numbers stand in its root without holes. -/
structure Node (g : ZGeo) (blk : Nat → Bytes) (R : Sub → Prop) (l : Nat) (s : Sub) (cs : List Sub) : Prop where
  len : cs.length ≤ g.m
  entries : ∀ i < g.m, entry g.zsz (blk s.root) i = ((cs.map Sub.root)[i]?).getD 0
  subs : ∀ c ∈ cs, c.root ≠ 0 ∧ c.data ≠ [] ∧ R c
  pieces : Pieces (g.m ^ l) (cs.map Sub.data)
  data : s.data = (cs.map Sub.data).flatten
  ind : s.ind = s.root :: (cs.map Sub.ind).flatten

/-- The tree of the given level is on the volume. -/
def Rep (g : ZGeo) (blk : Nat → Bytes) : Nat → Sub → Prop
  | 0, s => s.data = [s.root] ∧ s.ind = []
  | l + 1, s => ∃ cs, Node g blk (Rep g blk l) l s cs

variable {s c : Sub} {cs : List Sub} {R : Sub → Prop} {d₂ : Zones} {r : Nat} {ind : List Nat}

theorem Node.root_mem (h : Node g blk R l s cs) : s.root ∈ s.ind := h.ind ▸ mem_cons_self

theorem Node.root_sub (h : Node g blk R l s cs) : [s.root] ⊆ s.ind := cons_subset.2 ⟨h.root_mem, nil_subset _⟩

theorem Node.sub_mem {b : Nat} (h : Node g blk R l s cs) (hb : b ∈ (cs.map Sub.ind).flatten) : b ∈ s.ind :=
  h.ind ▸ mem_cons_of_mem _ hb

theorem mem_inds {b : Nat} (hc : c ∈ cs) (hb : b ∈ c.ind) : b ∈ (cs.map Sub.ind).flatten :=
  mem_flatten.2 ⟨c.ind, mem_map_of_mem hc, hb⟩

/-- Only the index blocks of a subtree are read. -/
theorem Rep.congr (h : Rep g blk l s) (hb : ∀ b ∈ s.ind, blk' b = blk b) : Rep g blk' l s := by
  induction l generalizing s with
  | zero => exact h
  | succ l ih =>
    obtain ⟨cs, hN⟩ := h
    refine ⟨cs, hN.len, fun i hlt => ?_, fun c hc => ?_, hN.pieces, hN.data, hN.ind⟩
    · rw [hb s.root hN.root_mem]
      exact hN.entries i hlt
    · obtain ⟨h0, hne, hr⟩ := hN.subs c hc
      exact ⟨h0, hne, ih hr fun b hbc => hb b (hN.sub_mem (mem_inds hc hbc))⟩

theorem rep_empty (h : ∀ i < g.m, entry g.zsz (blk r) i = 0) : Rep g blk (l + 1) ⟨r, [], [r]⟩ :=
  ⟨[], Nat.zero_le _, fun i hi => (h i hi).trans rfl, nofun, trivial, rfl, rfl⟩

theorem zidxPath_eq (g : ZGeo) (idx l : Nat) : g.zidxPath idx (l + 1) = idx / g.m ^ l % g.m := by
  rw [ZGeo.zidxPath, Nat.add_sub_cancel, Nat.one_shiftLeft, Nat.and_two_pow_sub_one_eq_mod, Nat.shiftRight_eq_div_pow,
    ZGeo.m, ← pow_mul, Nat.mul_comm l]

/-- **`minix_zget_indirect` finds the data zones.** -/
theorem zgetIndirect_rep (h : Rep g blk l s) : zgetIndirect g blk idx l s.root = s.data[idx % g.m ^ l]? := by
  induction l generalizing s with
  | zero => rw [zgetIndirect, h.1, pow_zero, Nat.mod_one, getElem?_cons_zero]
  | succ l ih =>
    obtain ⟨cs, hN⟩ := h
    have hsplit : idx % g.m ^ (l + 1) = g.m ^ l * (idx / g.m ^ l % g.m) + idx % g.m ^ l := by
      rw [Nat.mod_pow_succ, Nat.add_comm]
    rw [zgetIndirect, zidxPath_eq, hN.entries _ (Nat.mod_lt _ g.mPos), hN.data, hsplit,
      hN.pieces.getElem?_flatten (Nat.mod_lt _ (Nat.pow_pos g.mPos)), getElem?_map, getElem?_map]
    cases hc : cs[idx / g.m ^ l % g.m]? with
    | none => rfl
    | some c =>
      obtain ⟨h0, -, hr⟩ := hN.subs c (mem_of_getElem? hc)
      exact (if_neg h0).trans (ih hr)

/-- A subtree of height `l` lists at most `m ^ l` zones. -/
theorem Rep.length_le (h : Rep g blk l s) : s.data.length ≤ g.m ^ l := by
  cases l with
  | zero => rw [h.1]; rfl
  | succ l =>
    obtain ⟨cs, hN⟩ := h
    have hle := hN.pieces.length_le
    rw [length_map] at hle
    rw [hN.data, pow_succ]
    exact hle.trans (Nat.mul_le_mul_left _ hN.len)

/-! ## Full trees -/

/-- What `zextIndirect` uses for the level below. -/
def below (g : ZGeo) (l : Nat) : Option (Zones → Nat → Nat → Zones × Nat) :=
  if l = 0 then none else some (zextIndirect g l)

theorem zextIndirect_eq (d : Zones) (iblk ext : Nat) : zextIndirect g (l + 1) d iblk ext =
    let r := zextLoop g (below g l) iblk g.m d ext
    (r.1, (if r.2.2 then 2 ^ 32 - 1 else 1) * uintSub ext r.2.1 % 2 ^ 32) := rfl

@[simp] theorem uintSub_self (a : Nat) : uintSub a a = 0 := by rw [uintSub, Nat.add_sub_cancel_left, Nat.mod_self]

@[simp] theorem uintSub_one_zero : uintSub 1 0 = 1 := by decide

theorem below_some {f : Zones → Nat → Nat → Zones × Nat} (h : below g l = some f) :
    ∃ k, l = k + 1 ∧ f = zextIndirect g (k + 1) := by
  unfold below at h
  split at h
  · cases h
  · next hl => exact ⟨l - 1, by omega, by rw [← Option.some.inj h, Nat.sub_add_cancel (by omega)]⟩

section Loop

variable {sub : Option (Zones → Nat → Nat → Zones × Nat)} {f : Zones → Nat → Nat → Zones × Nat} {iblk i : Nat}

theorem zextLoop_done (sub : Option (Zones → Nat → Nat → Zones × Nat)) (iblk n : Nat) (d : Zones) :
    zextLoop g sub iblk n d 0 = (d, 0, false) := by
  cases n <;> rfl

/-- One turn of the loop, at entry `i`. -/
theorem zextLoop_at (hi : i < g.m) : zextLoop g sub iblk (g.m - i) d 1 =
    let old := entry g.zsz (d.blk iblk) i
    let a := if old = 0 then minixZalloc g d else (old, d)
    if a.1 = 0 then (a.2, 1, true)
    else
      let d₁ := if old = 0 then (a.2.put g iblk i a.1).clear a.1 else d
      match sub with
      | none => zextLoop g sub iblk (g.m - (i + 1)) d₁ (if old = 0 then 0 else 1)
      | some sub' =>
        let r := sub' d₁ a.1 1
        if r.2 = 0 ∧ g.m - (i + 1) = 0 then (r.1, uintSub 1 r.2, true)
        else zextLoop g sub iblk (g.m - (i + 1)) r.1 (uintSub 1 r.2) := by
  have he : g.m - (g.m - (i + 1) + 1) = i := by omega
  rw [show g.m - i = g.m - (i + 1) + 1 by omega, zextLoop, if_neg Nat.one_ne_zero, he]

/-- Behind an entry in use whose subtree is full the loop goes on to the next. -/
theorem zextLoop_skip (hi : i < g.m) (hold : entry g.zsz (d.blk iblk) i = z) (hz : z ≠ 0)
    (hsub : ∀ f, sub = some f → f d z 1 = (d, 0)) :
    zextLoop g sub iblk (g.m - i) d 1 = zextLoop g sub iblk (g.m - (i + 1)) d 1 ∨
      (i + 1 = g.m ∧ zextLoop g sub iblk (g.m - i) d 1 = (d, 1, true)) := by
  rw [zextLoop_at hi]
  cases sub with
  | none =>
    simp only [hold, if_neg hz]
    exact .inl trivial
  | some f =>
    simp only [hold, if_neg hz, hsub f rfl]
    by_cases hl : i + 1 = g.m
    · exact .inr ⟨hl, if_pos ⟨trivial, by omega⟩⟩
    · exact .inl (if_neg fun h => hl (by omega))

theorem zextLoop_hit (hi : i < g.m) (hold : entry g.zsz (d.blk iblk) i = z) (hz : z ≠ 0) (hf : f d z 1 = (d', 1)) :
    zextLoop g (some f) iblk (g.m - i) d 1 = (d', 0, false) := by
  rw [zextLoop_at hi]
  simp only [hold, if_neg hz, hf]
  exact zextLoop_done _ _ _ _

theorem zextLoop_leaf (hi : i < g.m) (hold : entry g.zsz (d.blk iblk) i = 0) (ha : minixZalloc g d = (z, d'))
    (hz : z ≠ 0) : zextLoop g none iblk (g.m - i) d 1 = ((d'.put g iblk i z).clear z, 0, false) := by
  rw [zextLoop_at hi]
  simp only [hold, ha, if_true, if_neg hz]
  exact zextLoop_done _ _ _ _

/-- A free entry gets a zone, and the subtree below begins. -/
theorem zextLoop_new {d'' : Zones} (hi : i < g.m) (hold : entry g.zsz (d.blk iblk) i = 0)
    (ha : minixZalloc g d = (z, d')) (hz : z ≠ 0) (hf : f ((d'.put g iblk i z).clear z) z 1 = (d'', 1)) :
    zextLoop g (some f) iblk (g.m - i) d 1 = (d'', 0, false) := by
  rw [zextLoop_at hi]
  simp only [hold, ha, if_true, if_neg hz, hf]
  exact zextLoop_done _ _ _ _

end Loop

theorem Node.entry_get {i : Nat} (h : Node g blk R l s cs) (hi : i < cs.length) :
    entry g.zsz (blk s.root) i = cs[i].root := by
  rw [h.entries i (hi.trans_le h.len), getElem?_eq_getElem (by simpa using hi)]
  simp

/-- The loop passes over the full subtrees in front. -/
theorem Node.skip {j : Nat} (h : Node g d.blk R l s cs) (hj : j ≤ cs.length) (hjm : j < g.m)
    (hfull : ∀ c ∈ cs.take j, ∀ f, below g l = some f → f d c.root 1 = (d, 0)) :
    zextLoop g (below g l) s.root g.m d 1 = zextLoop g (below g l) s.root (g.m - j) d 1 := by
  induction j with
  | zero => rfl
  | succ j ih =>
    rw [ih (by omega) (by omega) fun c hc => hfull c ((take_subset_take_left cs (Nat.le_succ j)) hc)]
    have hmem : cs[j] ∈ cs.take (j + 1) := mem_take_iff_getElem.2 ⟨j, by omega, rfl⟩
    rcases zextLoop_skip (by omega) (h.entry_get (by omega)) (h.subs _ (getElem_mem _)).1
      (hfull _ hmem) with h | h
    · exact h
    · omega

/-- A full node has `m` full children. -/
theorem Node.full (h : Node g blk R l s cs) (hl : s.data.length = g.m ^ (l + 1)) :
    cs.length = g.m ∧ ∀ c ∈ cs, c.data.length = g.m ^ l := by
  rw [h.data] at hl
  have hle := h.pieces.length_le
  rw [length_map] at hle
  have hm : cs.length = g.m := by
    rw [hl, pow_succ] at hle
    exact le_antisymm h.len (Nat.le_of_mul_le_mul_left hle (Nat.pow_pos g.mPos))
  refine ⟨hm, fun c hc => h.pieces.full ?_ c.data (mem_map_of_mem hc)⟩
  rw [hl, length_map, hm, pow_succ]

/-- **Nothing is added to a full tree.** -/
theorem zextIndirect_full (h : Rep g d.blk (l + 1) s) (hl : s.data.length = g.m ^ (l + 1)) :
    zextIndirect g (l + 1) d s.root 1 = (d, 0) := by
  induction l using Nat.strong_induction_on generalizing s with
  | _ l ih =>
    obtain ⟨cs, hN⟩ := h
    obtain ⟨hm, hfull⟩ := hN.full hl
    have hsub : ∀ c ∈ cs, ∀ f, below g l = some f → f d c.root 1 = (d, 0) := fun c hc f hf => by
      obtain ⟨k, rfl, rfl⟩ := below_some hf
      exact ih k (Nat.lt_succ_self k) (hN.subs c hc).2.2 (hfull c hc)
    have hpos := g.mPos
    -- all but the last subtree are skipped, the last one ends the loop
    have hlast : g.m - 1 < cs.length := by omega
    have hloop : ∃ b, zextLoop g (below g l) s.root g.m d 1 = (d, 1, b) := by
      rw [hN.skip (by omega) (by omega : g.m - 1 < g.m) fun c hc => hsub c (mem_of_mem_take hc)]
      rcases zextLoop_skip (by omega) (hN.entry_get hlast) (hN.subs _ (getElem_mem _)).1
        (hsub _ (getElem_mem _)) with h | ⟨-, h⟩
      · rw [h, Nat.sub_add_cancel hpos, Nat.sub_self]
        exact ⟨false, rfl⟩
      · exact ⟨true, h⟩
    obtain ⟨b, hb⟩ := hloop
    rw [zextIndirect_eq, hb]
    simp only [uintSub_self, Nat.mul_zero, Nat.zero_mod]

/-! ## Adding a zone -/

/-- The zones that are allocated to add one behind the first `r` of a tree. -/
def needed (g : ZGeo) : Nat → Nat → Nat
  | 0, _ => 0
  | l + 1, r => (if r % g.m ^ l = 0 then 1 else 0) + needed g l (r % g.m ^ l)

/-- The zones `new` were taken, and at most they and the blocks `ind` have changed. -/
structure Grown (g : ZGeo) (d d' : Zones) (ind new : List Nat) : Prop where
  nodup : new.Nodup
  taken : ∀ z ∈ new, z ∈ free g d
  left : free g d' = free g d \ new.toFinset
  blk : ∀ b, b ∉ ind → b ∉ new → d'.blk b = d.blk b

/-- Growing takes as many zones from the free ones as it reports. -/
theorem Grown.card {ind new : List Nat} (h : Grown g d d' ind new) :
    (free g d').card + new.length = (free g d).card := by
  have hsub : new.toFinset ⊆ free g d := fun z hz => h.taken z (mem_toFinset.1 hz)
  have hle := Finset.card_le_card hsub
  rw [h.left, Finset.card_sdiff_of_subset hsub]
  rw [toFinset_card_of_nodup h.nodup] at hle ⊢
  omega

theorem Grown.numbered {ind new : List Nat} (h : Grown g d d' ind new) (hn : Numbered g d) : Numbered g d' :=
  fun z hz => hn z (Finset.mem_sdiff.1 (h.left ▸ hz)).1

/-- The zone `z` was added to the tree `s`, with the blocks `new` for numbers. -/
structure Adds (g : ZGeo) (d d' : Zones) (l : Nat) (s : Sub) (z : Nat) (new : List Nat) : Prop where
  rep : Rep g d'.blk l ⟨s.root, s.data ++ [z], s.ind ++ new⟩
  grown : Grown g d d' s.ind (z :: new)
  count : new.length + 1 = needed g l s.data.length

/-- Another child behind full ones. -/
theorem rep_concat (root : Nat) (hlen : cs.length < g.m)
    (hent : ∀ i < g.m, entry g.zsz (blk root) i = (((cs ++ [c]).map Sub.root)[i]?).getD 0)
    (hcs : ∀ c ∈ cs, c.root ≠ 0 ∧ c.data.length = g.m ^ l ∧ Rep g blk l c) (hroot : c.root ≠ 0) (hne : c.data ≠ [])
    (hc : Rep g blk l c) : Rep g blk (l + 1)
      ⟨root, (cs.map Sub.data).flatten ++ c.data, root :: ((cs.map Sub.ind).flatten ++ c.ind)⟩ := by
  refine ⟨cs ++ [c], ?_, hent, fun x hx => ?_, ?_, by simp, by simp⟩
  · rw [length_append, length_singleton]
    omega
  · rcases mem_append.1 hx with hx | hx
    · obtain ⟨h0, hl, hr⟩ := hcs x hx
      refine ⟨h0, ne_nil_of_length_pos ?_, hr⟩
      rw [hl]
      exact Nat.pow_pos g.mPos
    · rw [mem_singleton.1 hx]
      exact ⟨hroot, hne, hc⟩
  rw [map_append, map_singleton]
  apply pieces_concat
  · intro x hx
    obtain ⟨y, hy, rfl⟩ := mem_map.1 hx
    exact (hcs y hy).2.1
  · exact hc.length_le

theorem length_full (h : ∀ c ∈ cs, c.data.length = n) : (cs.map Sub.data).flatten.length = n * cs.length := by
  rw [length_flatten_of_full (p := n), length_map]
  intro x hx
  obtain ⟨y, hy, rfl⟩ := mem_map.1 hx
  exact h y hy

theorem needed_last (hcs : ∀ c ∈ cs, c.data.length = g.m ^ l) (hne : c.data ≠ []) (hroom : c.data.length < g.m ^ l) :
    needed g (l + 1) ((cs.map Sub.data).flatten ++ c.data).length = needed g l c.data.length := by
  rw [needed, length_append, length_full hcs, Nat.mul_add_mod, Nat.mod_eq_of_lt hroom,
    if_neg fun h0 => hne (eq_nil_of_length_eq_zero h0), Nat.zero_add]

theorem needed_new (hcs : ∀ c ∈ cs, c.data.length = g.m ^ l) :
    needed g (l + 1) (cs.map Sub.data).flatten.length = 1 + needed g l 0 := by
  rw [needed, length_full hcs, Nat.mul_mod_right, if_pos rfl]

/-! ### The last subtree has room -/

/-- A zone added to the last child is added to the node. -/
theorem adds_last {new : List Nat} (hN : Node g d.blk (Rep g d.blk l) l s (cs ++ [c]))
    (hroom : c.data.length < g.m ^ l) (hnd : s.ind.Nodup) (hfresh : ∀ z ∈ free g d, z ∉ s.ind)
    (h : Adds g d d' l c z new) : Adds g d d' (l + 1) s z new := by
  have hd := hN.data
  have hi := hN.ind
  have hp := hN.pieces
  simp only [map_append, map_singleton, flatten_append, flatten_singleton] at hd hi hp
  have hfull : ∀ x ∈ cs, x.data.length = g.m ^ l := fun x hx => hp.front x.data (mem_map_of_mem hx)
  obtain ⟨hroot, hne, -⟩ := hN.subs c (by simp)
  have hlen : cs.length < g.m := by
    have := hN.len
    rw [length_append, length_singleton] at this
    omega
  have hnew : ∀ b ∈ s.ind, b ∉ z :: new := fun b hb hz => hfresh b (h.grown.taken b hz) hb
  rw [hi, nodup_cons, nodup_append] at hnd
  obtain ⟨hrt, -, -, hdisj⟩ := hnd
  -- the root and the other subtrees are not touched
  have hsame : ∀ b ∈ s.root :: (cs.map Sub.ind).flatten, d'.blk b = d.blk b := fun b hb => by
    refine h.grown.blk b (fun hc => ?_) (hnew b ?_)
    · rcases mem_cons.1 hb with rfl | hb
      · exact hrt (mem_append_right _ hc)
      · exact hdisj b hb b hc rfl
    · rw [hi, ← cons_append]
      exact mem_append_left _ hb
  have hrep := rep_concat s.root (c := ⟨c.root, c.data ++ [z], c.ind ++ new⟩) hlen
    (fun i hlt => by
      rw [hsame s.root mem_cons_self, hN.entries i hlt]
      simp)
    (fun x hx => by
      obtain ⟨h0, -, hr⟩ := hN.subs x (by simp [hx])
      exact ⟨h0, hfull x hx, hr.congr fun b hb => hsame b (mem_cons_of_mem _ (mem_inds hx hb))⟩)
    hroot (by simp) h.rep
  refine ⟨?_, { h.grown with blk := fun b hb hz => ?_ }, ?_⟩
  · rw [hd, hi]
    simpa only [append_assoc, cons_append] using hrep
  · refine h.grown.blk b (fun hc => hb ?_) hz
    rw [hi]
    exact mem_cons_of_mem _ (mem_append_right _ hc)
  · rw [hd, needed_last hfull hne hroom]
    exact h.count

/-! ### All subtrees are full -/

/-- The entries after a child's root has been written behind them. -/
theorem entry_concat {root : Nat} (hent : ∀ i < g.m, entry g.zsz (blk root) i = ((cs.map Sub.root)[i]?).getD 0)
    (hblk : blk' root = putEntry g.zsz (blk root) cs.length c.root) (hc : c.root < 256 ^ g.zsz) :
    ∀ i < g.m, entry g.zsz (blk' root) i = (((cs ++ [c]).map Sub.root)[i]?).getD 0 := by
  intro i hi
  rw [hblk, map_append]
  by_cases he : i = cs.length
  · subst he
    rw [entry_putEntry hc, getElem?_append_right (by simp)]
    simp
  rw [entry_putEntry_of_ne he, hent i hi]
  by_cases hlt : i < cs.length
  · rw [getElem?_append_left (by simpa using hlt)]
  · rw [getElem?_eq_none (by simp; omega), getElem?_eq_none (by simp; omega)]

/-- The block `r` is allocated and cleared; of the others, at most `ind` have changed. -/
structure Fresh (g : ZGeo) (d d₂ : Zones) (ind : List Nat) (r : Nat) : Prop where
  taken : r ∈ free g d
  left : free g d₂ = (free g d).erase r
  clear : d₂.blk r = fun _ => 0
  same : ∀ b, b ∉ ind → b ≠ r → d₂.blk b = d.blk b

/-- Its number is entered into the block `root`. -/
structure Begins (g : ZGeo) (d d₂ : Zones) (root i r : Nat) : Prop extends Fresh g d d₂ [root] r where
  put : d₂.blk root = putEntry g.zsz (d.blk root) i r

/-- With a free zone left, a child begins at entry `i`. -/
theorem zalloc_begins {root : Nat} (i : Nat) (hn : Numbered g d) (hf : 0 < (free g d).card) (hroot : root ∉ free g d) :
    ∃ r d₁, minixZalloc g d = (r, d₁) ∧ Begins g d ((d₁.put g root i r).clear r) root i r := by
  obtain ⟨r, d₁, ha, hr, hblk, hfree⟩ := minixZalloc_spec hn (Finset.card_pos.1 hf)
  have hne : root ≠ r := fun h => hroot (h ▸ hr)
  refine ⟨r, d₁, ha, ⟨hr, hfree, update_self .., fun b hb hbr => ?_⟩, ?_⟩
  · show update (update d₁.blk root _) r _ b = _
    rw [update_of_ne hbr, update_of_ne (by simpa using hb), hblk]
  · show update (update d₁.blk root _) r _ root = _
    rw [update_of_ne hne, update_self, hblk]

theorem zalloc_fresh (hn : Numbered g d) (hf : 0 < (free g d).card) :
    ∃ r d₁, minixZalloc g d = (r, d₁) ∧ Fresh g d (d₁.clear r) [] r := by
  obtain ⟨r, d₁, ha, hr, hblk, hfree⟩ := minixZalloc_spec hn (Finset.card_pos.1 hf)
  refine ⟨r, d₁, ha, hr, hfree, update_self .., fun b _ hbr => ?_⟩
  show update d₁.blk r _ b = _
  rw [update_of_ne hbr, hblk]

/-- A zone in a child of its own is added to a node of full children. -/
theorem adds_new {new : List Nat} (hn : Numbered g d) (hN : Node g d.blk (Rep g d.blk l) l s cs)
    (hm : cs.length < g.m) (hfull : ∀ c ∈ cs, c.data.length = g.m ^ l) (hroot : c.root ∈ free g d)
    (hdata : c.data = [z]) (hind : c.ind = new) (hc : Rep g d'.blk l c)
    (hput : d'.blk s.root = putEntry g.zsz (d.blk s.root) cs.length c.root)
    (hsame : ∀ b ∈ (cs.map Sub.ind).flatten, d'.blk b = d.blk b) (hgrown : Grown g d d' s.ind (z :: new))
    (hcount : new.length + 1 = 1 + needed g l 0) : Adds g d d' (l + 1) s z new := by
  have hrep := rep_concat s.root hm (entry_concat hN.entries hput (hn _ hroot))
    (fun x hx => by
      obtain ⟨h0, -, hr⟩ := hN.subs x hx
      exact ⟨h0, hfull x hx, hr.congr fun b hb => hsame b (mem_inds hx hb)⟩)
    (ne_zero_of_free hroot) (by simp [hdata]) hc
  refine ⟨?_, hgrown, ?_⟩
  · rw [hN.data, hN.ind, ← hdata, ← hind]
    exact hrep
  · rw [hcount, hN.data, needed_new hfull]

/-- A cleared new index block, then growth below it, is growth. -/
theorem Fresh.grown {ind ind' new : List Nat} (hb : Fresh g d d₂ ind r) (hind : ind ⊆ ind')
    (h : Grown g d₂ d' [r] (z :: new)) : Grown g d d' ind' (z :: r :: new) := by
  have hsub : ∀ x ∈ z :: new, x ≠ r ∧ x ∈ free g d := fun x hx => Finset.mem_erase.1 (hb.left ▸ h.taken x hx)
  have hnd := h.nodup
  refine ⟨?_, fun x hx => ?_, ?_, fun b hbi hz => ?_⟩
  · have hz := (hsub z mem_cons_self).1
    have hr : r ∉ new := fun hr => (hsub r (mem_cons_of_mem _ hr)).1 rfl
    simp only [nodup_cons, mem_cons, not_or] at hnd ⊢
    exact ⟨⟨hz, hnd.1⟩, hr, hnd.2⟩
  · simp only [mem_cons] at hx
    rcases hx with rfl | rfl | hx
    · exact (hsub x mem_cons_self).2
    · exact hb.taken
    · exact (hsub x (mem_cons_of_mem _ hx)).2
  · ext x
    rw [h.left, hb.left]
    simp only [Finset.mem_sdiff, Finset.mem_erase, mem_toFinset, mem_cons, not_or]
    tauto
  simp only [mem_cons, not_or] at hz
  rw [h.blk b (by simpa using hz.2.1) (by simp [hz.1, hz.2.2])]
  exact hb.same b (fun h => hbi (hind h)) hz.2.1

theorem Fresh.empty (hb : Fresh g d d₂ ind r) : Rep g d₂.blk (l + 1) ⟨r, [], [r]⟩ :=
  rep_empty fun i _ => by rw [hb.clear, entry_zero]

theorem Fresh.single {ind ind' : List Nat} (hb : Fresh g d d₂ ind r) (hind : ind ⊆ ind') : Grown g d d₂ ind' [r] := by
  refine ⟨nodup_singleton r, fun x hx => ?_, ?_, fun b hbi hbr => ?_⟩
  · rw [mem_singleton.1 hx]
    exact hb.taken
  · rw [hb.left]
    ext x
    simp [and_comm]
  · exact hb.same b (fun h => hbi (hind h)) (by simpa using hbr)

theorem Fresh.numbered (hb : Fresh g d d₂ ind r) (hn : Numbered g d) :
    Numbered g d₂ := fun x hx => hn x (Finset.mem_of_mem_erase (hb.left ▸ hx))

theorem Fresh.card (hb : Fresh g d d₂ ind r) : (free g d₂).card + 1 = (free g d).card := by
  rw [hb.left]
  exact Finset.card_erase_add_one hb.taken

theorem Fresh.apart (hb : Fresh g d d₂ ind r) : ∀ x ∈ free g d₂, x ∉ [r] := fun _ hx hxr =>
  Finset.ne_of_mem_erase (hb.left ▸ hx) (mem_singleton.1 hxr)

section Begin

variable {d₂ : Zones} {r : Nat} {new : List Nat}

/-- The beginning of a child leaves the older children's index blocks alone. -/
theorem Node.kept (hN : Node g d.blk R l s cs) (hb : Begins g d d₂ s.root cs.length r) (hnd : s.ind.Nodup)
    (hfresh : ∀ z ∈ free g d, z ∉ s.ind) : ∀ b ∈ (cs.map Sub.ind).flatten, d₂.blk b = d.blk b := by
  intro b hbm
  rw [hN.ind, nodup_cons] at hnd
  refine hb.same b (fun h => hnd.1 ?_) fun h => hfresh r hb.taken (h ▸ hN.sub_mem hbm)
  rwa [← mem_singleton.1 h]

theorem adds_leaf (hn : Numbered g d) (hN : Node g d.blk (Rep g d.blk 0) 0 s cs) (hm : cs.length < g.m)
    (hfull : ∀ c ∈ cs, c.data.length = g.m ^ 0) (hnd : s.ind.Nodup) (hfresh : ∀ z ∈ free g d, z ∉ s.ind)
    (hb : Begins g d d₂ s.root cs.length r) : Adds g d d₂ 1 s r [] := by
  exact adds_new (c := ⟨r, [r], []⟩) hn hN hm hfull hb.taken rfl rfl ⟨rfl, rfl⟩ hb.put (hN.kept hb hnd hfresh)
    (hb.single hN.root_sub) rfl

/-- A zone added below a child just begun is added to the node. -/
theorem adds_branch (hn : Numbered g d) (hN : Node g d.blk (Rep g d.blk l) l s cs) (hm : cs.length < g.m)
    (hfull : ∀ c ∈ cs, c.data.length = g.m ^ l) (hnd : s.ind.Nodup) (hfresh : ∀ z ∈ free g d, z ∉ s.ind)
    (hb : Begins g d d₂ s.root cs.length r) (h : Adds g d₂ d' l ⟨r, [], [r]⟩ z new) :
    Adds g d d' (l + 1) s z (r :: new) := by
  have hkeep : ∀ b, b ∈ s.ind → d'.blk b = d₂.blk b := fun b hbi => by
    refine h.grown.blk b (fun h => ?_) fun hz => ?_
    · exact hfresh b (by rw [mem_singleton.1 h]; exact hb.taken) hbi
    · exact hfresh b (Finset.mem_of_mem_erase (hb.left ▸ h.grown.taken b hz)) hbi
  refine adds_new (c := ⟨r, [z], r :: new⟩) hn hN hm hfull hb.taken rfl rfl h.rep ?_ (fun b hbm => ?_)
    (hb.grown hN.root_sub h.grown) ?_
  · rw [hkeep _ hN.root_mem, hb.put]
  · rw [hkeep b (hN.sub_mem hbm), hN.kept hb hnd hfresh b hbm]
  have := h.count
  simp only [length_nil] at this
  rw [length_cons]
  omega

end Begin

/-- **`minix_zext_indirect` adds one zone at the end** of a tree with room. -/
theorem zextIndirect_rep (hn : Numbered g d) (hr : Rep g d.blk (l + 1) s) (hnd : s.ind.Nodup)
    (hlt : s.data.length < g.m ^ (l + 1)) (hfresh : ∀ z ∈ free g d, z ∉ s.ind)
    (hneed : needed g (l + 1) s.data.length ≤ (free g d).card) :
    ∃ d' z new, zextIndirect g (l + 1) d s.root 1 = (d', 1) ∧ Adds g d d' (l + 1) s z new := by
  induction l using Nat.strong_induction_on generalizing d s with
  | _ l ih =>
    obtain ⟨cs, hN⟩ := hr
    have hdone : ∀ {d'}, zextLoop g (below g l) s.root g.m d 1 = (d', 0, false) →
        zextIndirect g (l + 1) d s.root 1 = (d', 1) := fun h => by
      rw [zextIndirect_eq, h]
      simp
    have hskip : ∀ c ∈ cs, c.data.length = g.m ^ l → ∀ f, below g l = some f → f d c.root 1 = (d, 0) :=
      fun c hc hl f hf => by
        obtain ⟨k, rfl, rfl⟩ := below_some hf
        exact zextIndirect_full (hN.subs c hc).2.2 hl
    by_cases hall : ∀ c ∈ cs, c.data.length = g.m ^ l
    · have hm : cs.length < g.m := by
        rw [hN.data, length_full hall, pow_succ] at hlt
        exact Nat.lt_of_mul_lt_mul_left hlt
      have hroot : s.root ∉ free g d := fun h => hfresh _ h hN.root_mem
      have hold : entry g.zsz (d.blk s.root) cs.length = 0 := by
        rw [hN.entries _ hm, getElem?_eq_none (by simp)]
        rfl
      rw [hN.data, needed_new hall] at hneed
      have hfront := hN.skip le_rfl hm fun c hc => hskip c (mem_of_mem_take hc) (hall c (mem_of_mem_take hc))
      obtain ⟨r, d₁, ha, hb⟩ := zalloc_begins cs.length hn (by omega) hroot
      cases l with
      | zero =>
        refine ⟨_, r, [], hdone ?_, adds_leaf hn hN hm hall hnd hfresh hb⟩
        rw [hfront]
        exact zextLoop_leaf hm hold ha (ne_zero_of_free hb.taken)
      | succ k =>
        have hcard := hb.card
        obtain ⟨d', z, new, hext, hadds⟩ := ih k (Nat.lt_succ_self k) (hb.numbered hn) hb.empty (nodup_singleton r)
          (Nat.pow_pos g.mPos) hb.apart (by simp only [length_nil]; omega)
        refine ⟨d', z, r :: new, hdone ?_, adds_branch hn hN hm hall hnd hfresh hb hadds⟩
        rw [hfront]
        exact zextLoop_new hm hold ha (ne_zero_of_free hb.taken) hext
    · rcases eq_nil_or_concat' cs with rfl | ⟨front, c, rfl⟩
      · exact absurd nofun hall
      have hp := hN.pieces
      have hd := hN.data
      simp only [map_append, map_singleton, flatten_append, flatten_singleton] at hp hd
      have hff : ∀ x ∈ front, x.data.length = g.m ^ l := fun x hx => hp.front x.data (mem_map_of_mem hx)
      obtain ⟨hc0, hcne, hcr⟩ := hN.subs c (by simp)
      have hroom : c.data.length < g.m ^ l := by
        refine lt_of_le_of_ne hcr.length_le fun he => hall fun x hx => ?_
        rcases mem_append.1 hx with hx | hx
        · exact hff x hx
        · rw [mem_singleton.1 hx, he]
      obtain ⟨k, rfl⟩ : ∃ k, l = k + 1 := by
        refine Nat.exists_eq_succ_of_ne_zero fun h0 => ?_
        have := length_pos_iff.2 hcne
        rw [h0, pow_zero] at hroom
        omega
      have hm : front.length < g.m := by
        have := hN.len
        rw [length_append, length_singleton] at this
        omega
      have hci : ∀ b ∈ c.ind, b ∈ s.ind := fun b hb => hN.sub_mem (mem_inds (by simp) hb)
      have hcnd : c.ind.Nodup := by
        have hi := hN.ind
        simp only [map_append, map_singleton, flatten_append, flatten_singleton] at hi
        rw [hi] at hnd
        exact (nodup_append.1 (nodup_cons.1 hnd).2).2.1
      rw [hd, needed_last hff hcne hroom] at hneed
      obtain ⟨d', z, new, hext, hadds⟩ := ih k (Nat.lt_succ_self k) hn hcr hcnd hroom
        (fun x hx hxc => hfresh x hx (hci x hxc)) hneed
      refine ⟨d', z, new, hdone ?_, adds_last hN hroom hnd hfresh hadds⟩
      rw [hN.skip (j := front.length) (by simp) hm fun x hx => hskip x (mem_of_mem_take hx) (hff x (by simpa using hx))]
      refine zextLoop_hit hm ?_ hc0 hext
      rw [hN.entries _ hm]
      simp

end TextOS.Minix
