import TextOS.Lib.Blocks
import TextOS.Lib.Owned
import TextOS.Lib.Run
import TextOS.Minix.FileZones

/-!
# Contents of minix files: `kernel/fs/minix/minix.c`

`minix_read` copies from the blocks that `minix_zget` finds, and stops where one is missing. `minix_write` adds one zone
with `minix_zext` where a block is missing, and takes for granted that it is the missing one. A write that starts beyond
the end of the file may need several.

- `spec`: files as lists of bytes, where a write beyond the end leaves zeros;
- **every run of reads and writes that fit follows the specification** (`contents_kept`), and no missing block is used.
-/

namespace TextOS.Minix.File

open Lib List Function

/-! ## The code -/

/-- A node and its inode: `siz` of the node, `size` and `zone[]` of the inode. -/
structure Node where
  siz : Nat
  size : Nat
  zone : Nat → Nat

/-- `z9idx_end_ind2`. -/
def endInd2 (g : ZGeo) : Nat := 7 + g.m + g.m * g.m

/-- The loop of `minix_read`, at most `n` passes: the bytes that are copied. -/
def readLoop (g : ZGeo) (blk : Nat → Bytes) (mi : Node) : Nat → Nat → Nat → List UInt8
  | 0, _, _ => []
  | n + 1, offset, rem =>
    if 0 < rem ∧ offset < mi.size then
      let zidx := offset / g.blksz % 2 ^ 32
      let boff := offset % g.blksz
      match minixZget g blk mi.zone zidx with
      | none => []
      | some z =>
        let cpysiz := min (min (g.blksz - boff) rem) (mi.size - offset)
        readAt (blk z) boff cpysiz ++ readLoop g blk mi n (offset + cpysiz) (rem - cpysiz)
    else []

def minixRead (g : ZGeo) (blk : Nat → Bytes) (this : Node) (siz offset : Nat) : List UInt8 :=
  if this.siz ≤ offset then [] else readLoop g blk this siz offset siz

/-- The block that `minix_write` uses: the zones, `zone[]`, what `minix_zext` returns and the block. -/
def getOrExtend (g : ZGeo) (d : Zones) (zone : Nat → Nat) (zidx : Nat) : Zones × (Nat → Nat) × Nat × Option Nat :=
  match minixZget g d.blk zone zidx with
  | some z => (d, zone, 0, some z)
  | none =>
    let e := minixZext g d zone 1
    (e.1, e.2.1, e.2.2, minixZget g e.1.blk e.2.1 zidx)

/-- The loop of `minix_write`, at most `n` passes: the zones, `zone[]` and the offset at its end. It is `none` when
`memcpy` goes through a null pointer. -/
def writeLoop (g : ZGeo) : Nat → Zones → (Nat → Nat) → Nat → List UInt8 → Option (Zones × (Nat → Nat) × Nat)
  | 0, d, zone, offset, _ => some (d, zone, offset)
  | n + 1, d, zone, offset, src =>
    if src.length = 0 then some (d, zone, offset)
    else
      let zidx := offset / g.blksz % 2 ^ 32
      let boff := offset % g.blksz
      if endInd2 g ≤ zidx then some (d, zone, offset)
      else
        let e := getOrExtend g d zone zidx
        if e.2.2.1 ≠ 0 then some (e.1, e.2.1, offset)
        else
          match e.2.2.2 with
          | none => none
          | some z =>
            let cpysiz := min (g.blksz - boff) src.length
            let d' := { e.1 with blk := update e.1.blk z (writeAt (e.1.blk z) boff (src.take cpysiz)) }
            writeLoop g n d' e.2.1 (offset + cpysiz) (src.drop cpysiz)

def ENOSPC : Int := 28

/-- A size as an `int`. -/
def toInt (tot : Nat) : Int := Int.bmod tot (2 ^ 32)

/-- `minix_write`: the zones, the node and what is returned. -/
def minixWrite (g : ZGeo) (d : Zones) (this : Node) (src : List UInt8) (offset : Nat) : Option (Zones × Node × Int) :=
  (writeLoop g src.length d this.zone offset src).map fun r =>
    let size := r.2.2 % 2 ^ 32
    let this' : Node := if this.size < r.2.2 then ⟨size, size, r.2.1⟩ else { this with zone := r.2.1 }
    (r.1, this', if offset < r.2.2 then toInt (r.2.2 - offset) else -ENOSPC)

inductive Op
  | read (f siz offset : Nat)
  | write (f : Nat) (src : List UInt8) (offset : Nat)

/-- What a call returns, and the bytes it copies to the caller. -/
structure Reply where
  ret : Int
  buf : List UInt8
deriving DecidableEq

/-- A volume with its files, and the replies so far. -/
structure Vol where
  zones : Zones
  file : Nat → Node
  replies : List Reply

/-- One call; it is `none` when a missing block is used. -/
def step (g : ZGeo) (v : Vol) : Op → Option Vol
  | .read f siz offset =>
    let buf := minixRead g v.zones.blk (v.file f) siz offset
    some { v with replies := v.replies ++ [⟨toInt buf.length, buf⟩] }
  | .write f src offset =>
    (minixWrite g v.zones (v.file f) src offset).map fun r =>
      ⟨r.1, update v.file f r.2.1, v.replies ++ [⟨r.2.2, []⟩]⟩

/-! ## The specification -/

/-- Files as lists of bytes. -/
structure Texts where
  text : Nat → List UInt8
  replies : List Reply

/-- The bytes with `src` at `offset`, and zeros in a hole. -/
def written (t src : List UInt8) (offset : Nat) : List UInt8 :=
  if src = [] then t else splice (t ++ List.replicate (offset - t.length) 0) offset src

def spec (a : Texts) : Op → Texts
  | .read f siz offset =>
    let buf := ((a.text f).drop offset).take siz
    { a with replies := a.replies ++ [⟨toInt buf.length, buf⟩] }
  | .write f src offset =>
    { text := update a.text f (written (a.text f) src offset)
      replies := a.replies ++ [⟨if src = [] then -ENOSPC else toInt src.length, []⟩] }

/-- The write starts inside the file or at its end, stays within the limits, and there are enough free zones. -/
def Fits (g : ZGeo) (v : Vol) : Op → Prop
  | .read .. => True
  | .write f src offset =>
    let size := (v.file f).size
    offset ≤ size ∧ offset + src.length ≤ g.blksz * endInd2 g ∧ offset + src.length < 2 ^ 32 ∧
      ∑ k ∈ Finset.Ico (size ⌈/⌉ g.blksz) (max size (offset + src.length) ⌈/⌉ g.blksz), neededFor g k ≤
        (free g v.zones).card

instance (g : ZGeo) (v : Vol) : ∀ o, Decidable (Fits g v o)
  | .read .. => .isTrue trivial
  | .write .. => inferInstanceAs (Decidable (_ ∧ _ ∧ _ ∧ _))

/-! ## The invariant -/

variable {g : ZGeo} {d d' : Zones} {zone : Nat → Nat → Nat} {text : Nat → List UInt8} {ds is : Nat → List Nat}
  {f offset : Nat} {src : List UInt8} {v : Vol} {a : Texts}

/-- The files have the zones `ds` and the blocks `is` with numbers, each for itself, and hold `text`. -/
structure Layout (g : ZGeo) (d : Zones) (zone : Nat → Nat → Nat) (text : Nat → List UInt8) (ds is : Nat → List Nat) :
    Prop where
  rep : ∀ f, FileRep g d.blk (zone f) (ds f) (is f)
  shows : ∀ f, Shows d.blk g.blksz (ds f) (text f)
  owned : Owned (fun f => ds f ++ is f) fun z => z = 0 ∨ z ∈ free g d
  boot : Booted g d.blk
  numbered : Numbered g d

/-- No file has more zones than its size needs. -/
def Kept (g : ZGeo) (d : Zones) (zone : Nat → Nat → Nat) (text : Nat → List UInt8) : Prop :=
  ∃ ds is, Layout g d zone text ds is ∧ ∀ f, (ds f).length = (text f).length ⌈/⌉ g.blksz

/-- The volume holds the files `a`. -/
structure Holds (g : ZGeo) (v : Vol) (a : Texts) : Prop where
  kept : Kept g v.zones (fun f => (v.file f).zone) a.text
  size : ∀ f, (v.file f).siz = (a.text f).length ∧ (v.file f).size = (a.text f).length
  small : ∀ f, (a.text f).length < 2 ^ 32
  replies : v.replies = a.replies

theorem blksz_pos (g : ZGeo) : 0 < g.blksz := Nat.mul_pos g.zszPos g.mPos

theorem div_lt_ceilDiv {n : Nat} (h : offset < n) : offset / g.blksz < n ⌈/⌉ g.blksz := by
  rw [Nat.div_lt_iff_lt_mul (blksz_pos g), Nat.mul_comm]
  exact h.trans_le ((ceilDiv_le_iff_le_mul (blksz_pos g)).1 le_rfl)

/-! ## Reading -/

/-- The loop reads the bytes from `offset` on. -/
theorem readLoop_spec {mi : Node} {t : List UInt8} {zs zi : List Nat} {n rem : Nat}
    (hrep : FileRep g d.blk mi.zone zs zi) (hboot : Booted g d.blk) (hshow : Shows d.blk g.blksz zs t)
    (hlen : zs.length = t.length ⌈/⌉ g.blksz) (hsize : mi.size = t.length) (hsmall : t.length < 2 ^ 32) (hn : rem ≤ n) :
    readLoop g d.blk mi n offset rem = (t.drop offset).take rem := by
  induction n generalizing offset rem with
  | zero =>
    obtain rfl : rem = 0 := by omega
    rfl
  | succ n ih =>
    rw [readLoop]
    split
    next h =>
      rw [hsize] at h ⊢
      have hblk := div_lt_ceilDiv (g := g) h.2
      have hmod : offset / g.blksz % 2 ^ 32 = offset / g.blksz :=
        Nat.mod_eq_of_lt ((Nat.div_le_self _ _).trans_lt (by omega))
      have hcap := hrep.length_le
      obtain ⟨z, hz⟩ : ∃ z, zs[offset / g.blksz]? = some z := ⟨_, getElem?_eq_getElem (by omega)⟩
      have hpos : offset % g.blksz < g.blksz := Nat.mod_lt _ (blksz_pos g)
      dsimp only
      rw [hmod, minixZget_rep hrep hboot (by omega), hz]
      dsimp only
      rw [hshow.read hz (by omega) (by omega), ih (by omega)]
      generalize hcs : min (min (g.blksz - offset % g.blksz) rem) (t.length - offset) = cs
      rw [← drop_drop, ← take_add]
      congr 1
      omega
    next h =>
      by_cases hrem : rem = 0
      · rw [hrem, take_zero]
      · rw [drop_eq_nil_of_le (by omega), take_nil]

/-- **`minix_read` returns the bytes of the file.** -/
theorem Holds.read (h : Holds g v a) (f siz offset : Nat) :
    minixRead g v.zones.blk (v.file f) siz offset = ((a.text f).drop offset).take siz := by
  obtain ⟨ds, is, hl, hlen⟩ := h.kept
  rw [minixRead, (h.size f).1]
  split
  next hle => rw [drop_eq_nil_of_le hle, take_nil]
  next => exact readLoop_spec (hl.rep f) hl.boot (hl.shows f) (hlen f) (h.size f).2 (h.small f) le_rfl

/-! ## Writing -/

theorem Layout.apart (h : Layout g d zone text ds is) {e b : Nat} (he : e ≠ f) (hb : b ∈ ds e ++ is e) :
    b ∉ ds f ++ is f :=
  fun hb' => h.owned.apart e f he hb hb'

theorem Layout.data_or_number (h : Layout g d zone text ds is) {b : Nat} (hb : b ∈ ds f) : b ∉ is f :=
  fun hb' => (nodup_append.1 (h.owned.nodup f)).2.2 b hb b hb' rfl

/-- A file gets one more zone, and index blocks as needed. -/
theorem Layout.ext (h : Layout g d zone text ds is) (hcap : (ds f).length < 7 + capacity g g.levels 1)
    (hneed : neededFor g (ds f).length ≤ (free g d).card) :
    ∃ d' zone' z new, minixZext g d (zone f) 1 = (d', zone', 0) ∧
      Layout g d' (update zone f zone') text (update ds f (ds f ++ [z]))
        (update is f (is f ++ new)) ∧ (free g d').card + neededFor g (ds f).length = (free g d).card := by
  have hfresh : ∀ z ∈ free g d, z ∉ is f := fun z hz hm => h.owned.used f z (mem_append_right _ hm) (.inr hz)
  obtain ⟨d', zone', z, new, hext, hrep, hgrown, hcount⟩ := minixZext_rep h.numbered (h.rep f)
    (nodup_append.1 (h.owned.nodup f)).2.1 hcap hfresh hneed
  have hspare : ∀ b ∈ z :: new, b = 0 ∨ b ∈ free g d := fun b hb => .inr (hgrown.taken b hb)
  -- only the blocks with numbers of this file are changed
  have hsame : ∀ e, ∀ b ∈ ds e ++ is e, b ∉ is f → d'.blk b = d.blk b := fun e b hb hm =>
    hgrown.blk b hm (h.owned.fresh hspare e hb)
  have hdata : ∀ e, ∀ b ∈ ds e, d'.blk b = d.blk b := fun e b hb => by
    refine hsame e b (mem_append_left _ hb) fun hm => ?_
    by_cases he : e = f
    · subst he
      exact h.data_or_number hb hm
    · exact h.apart he (mem_append_left _ hb) (mem_append_right _ hm)
  refine ⟨d', zone', z, new, hext, ⟨fun e => ?_, fun e => ?_, ?_, ?_, hgrown.numbered h.numbered⟩, ?_⟩
  · by_cases he : e = f
    · subst he
      simpa only [update_self] using hrep
    rw [update_of_ne he, update_of_ne he, update_of_ne he]
    exact (h.rep e).congr fun b hb => hsame e b (mem_append_right _ hb) fun hm =>
      h.apart he (mem_append_right _ hb) (mem_append_right _ hm)
  · have := (h.shows e).congr (hdata e)
    by_cases he : e = f
    · subst he
      rw [update_self]
      exact this.append [z]
    · rwa [update_of_ne he]
  · have hown : (fun e => update ds f (ds f ++ [z]) e ++ update is f (is f ++ new) e) =
        update (fun e => ds e ++ is e) f (ds f ++ [z] ++ (is f ++ new)) := by
      funext e
      by_cases he : e = f
      · subst he
        simp only [update_self]
      · simp only [update_of_ne he]
    rw [hown]
    refine h.owned.grow hgrown.nodup hspare ?_ fun b hb => ?_
    · simp only [append_assoc, singleton_append]
      exact (perm_append_left_iff _).2 perm_middle.symm
    rcases hb with rfl | hb
    · exact ⟨.inl rfl, fun hm => ne_zero_of_free (hgrown.taken 0 hm) rfl⟩
    · rw [hgrown.left, Finset.mem_sdiff, mem_toFinset] at hb
      exact ⟨.inr hb.1, hb.2⟩
  · intro i hi
    rw [hgrown.blk 0 (fun hm => h.owned.used f 0 (mem_append_right _ hm) (.inl rfl)) fun hm =>
      ne_zero_of_free (hgrown.taken 0 hm) rfl]
    exact h.boot i hi
  have := hgrown.card
  rw [length_cons] at this
  omega

/-- A write inside one zone splices the file's text. -/
theorem Layout.write {z : Nat} (h : Layout g d zone text ds is) (hz : (ds f)[offset / g.blksz]? = some z)
    (hoff : offset ≤ (text f).length) (hfit : offset % g.blksz + src.length ≤ g.blksz) :
    Layout g { d with blk := update d.blk z (writeAt (d.blk z) (offset % g.blksz) src) } zone
      (update text f (splice (text f) offset src)) ds is := by
  have hmem : z ∈ ds f := mem_of_getElem? hz
  have hother : ∀ e ≠ f, ∀ b ∈ ds e ++ is e, b ≠ z := fun e he b hb hbz =>
    h.apart he hb (mem_append_left _ (hbz ▸ hmem))
  refine ⟨fun e => (h.rep e).congr fun b hb => update_of_ne ?_ _ _, fun e => ?_, h.owned, fun i hi => ?_,
    h.numbered⟩
  · by_cases he : e = f
    · subst he
      exact fun hbz => h.data_or_number hmem (hbz ▸ hb)
    · exact hother e he b (mem_append_right _ hb)
  · by_cases he : e = f
    · subst he
      rw [update_self]
      exact (h.shows e).write (nodup_append.1 (h.owned.nodup e)).1 hz hoff hfit
    · rw [update_of_ne he]
      exact (h.shows e).congr fun b hb => update_of_ne (hother e he b (mem_append_left _ hb)) _ _
  have hne : z ≠ 0 := fun h0 => h.owned.used f z (mem_append_left _ hmem) (.inl h0)
  dsimp only
  rw [update_of_ne hne.symm]
  exact h.boot i hi

/-- The block for a write that starts inside the file or at its end; `n` is the number of zones the file will have. -/
theorem getOrExtend_spec (h : Layout g d zone text ds is) {idx n : Nat} (hidx : idx ≤ (ds f).length) (hn : idx < n)
    (hcap : idx < 7 + capacity g g.levels 1)
    (hfree : ∑ k ∈ Finset.Ico (ds f).length n, neededFor g k ≤ (free g d).card) :
    ∃ d' zone' z ds' is', getOrExtend g d (zone f) idx = (d', zone', 0, some z) ∧
      Layout g d' (update zone f zone') text ds' is' ∧ (∀ e ≠ f, ds' e = ds e) ∧ (ds' f)[idx]? = some z ∧
      (ds' f).length = max (ds f).length (idx + 1) ∧
      ∑ k ∈ Finset.Ico (ds' f).length n, neededFor g k ≤ (free g d').card := by
  rw [getOrExtend, minixZget_rep (h.rep f) h.boot hcap]
  by_cases hlt : idx < (ds f).length
  · rw [getElem?_eq_getElem hlt]
    refine ⟨d, zone f, _, ds, is, rfl, ?_, fun _ _ => rfl, getElem?_eq_getElem hlt, by omega, hfree⟩
    rwa [update_eq_self]
  obtain rfl : idx = (ds f).length := by omega
  rw [getElem?_eq_none le_rfl]
  rw [Finset.sum_eq_sum_Ico_succ_bot hn] at hfree
  obtain ⟨d', zone', z, new, hext, hl, hcard⟩ := h.ext hcap (by omega)
  have hz : (update ds f (ds f ++ [z]) f)[(ds f).length]? = some z := by
    rw [update_self, getElem?_append_right le_rfl, Nat.sub_self]
    rfl
  have hlen : (update ds f (ds f ++ [z]) f).length = (ds f).length + 1 := by
    rw [update_self, length_append, length_singleton]
  refine ⟨d', zone', z, _, _, ?_, hl, fun e he => update_of_ne he _ _, hz, by omega, ?_⟩
  · have hget := minixZget_rep (hl.rep f) hl.boot hcap
    rw [update_self, hz] at hget
    simp only [hext, hget]
  · rw [hlen]
    omega

theorem endInd2_le (g : ZGeo) : endInd2 g ≤ 7 + capacity g g.levels 1 := by
  obtain ⟨n, hn⟩ : ∃ n, g.levels = n + 2 := ⟨g.levels - 2, by have := g.levelsGe; omega⟩
  rw [hn, capacity, capacity, pow_one, pow_two, endInd2]
  omega

theorem ceilDiv_max (size : Nat) {cpysiz : Nat} (hpos : 0 < cpysiz) (hfit : offset % g.blksz + cpysiz ≤ g.blksz) :
    max size (offset + cpysiz) ⌈/⌉ g.blksz = max (size ⌈/⌉ g.blksz) (offset / g.blksz + 1) := by
  refine eq_of_forall_ge_iff fun k => ?_
  rw [ceilDiv_le_iff_le_mul (blksz_pos g), max_le_iff, max_le_iff, ceilDiv_le_iff_le_mul (blksz_pos g)]
  refine and_congr_right fun _ => ⟨fun h => ?_, fun h => ?_⟩
  · exact Nat.div_lt_of_lt_mul (by omega)
  have hsplit := Nat.div_add_mod offset g.blksz
  have hmul := Nat.mul_le_mul_left g.blksz h
  rw [Nat.mul_succ] at hmul
  omega

theorem Layout.kept_nil (h : Layout g d zone text ds is) (hlen : ∀ e, (ds e).length = (text e).length ⌈/⌉ g.blksz)
    (hoff : offset ≤ (text f).length) :
    Kept g d (update zone f (zone f)) (update text f (splice (text f) offset [])) := by
  rw [splice_nil hoff, update_eq_self, update_eq_self]
  exact ⟨ds, is, h, hlen⟩

/-- The loop writes zone by zone and extends the file where it ends. -/
theorem writeLoop_spec {n : Nat} (h : Layout g d zone text ds is)
    (hlen : ∀ e, (ds e).length = (text e).length ⌈/⌉ g.blksz) (hoff : offset ≤ (text f).length)
    (hcap : offset + src.length ≤ g.blksz * endInd2 g) (hsmall : offset + src.length < 2 ^ 32)
    (hfree : ∑ k ∈ Finset.Ico (ds f).length (max (text f).length (offset + src.length) ⌈/⌉ g.blksz), neededFor g k ≤
      (free g d).card) (hn : src.length ≤ n) :
    ∃ d' zone', writeLoop g n d (zone f) offset src = some (d', zone', offset + src.length) ∧
      Kept g d' (update zone f zone') (update text f (splice (text f) offset src)) := by
  induction n generalizing d zone text ds is offset src with
  | zero =>
    obtain rfl : src = [] := eq_nil_of_length_eq_zero (by omega)
    exact ⟨d, zone f, rfl, h.kept_nil hlen hoff⟩
  | succ n ih =>
    rw [writeLoop]
    by_cases h0 : src.length = 0
    · obtain rfl := eq_nil_of_length_eq_zero h0
      exact ⟨d, zone f, rfl, h.kept_nil hlen hoff⟩
    have hmod : offset / g.blksz % 2 ^ 32 = offset / g.blksz :=
      Nat.mod_eq_of_lt ((Nat.div_le_self _ _).trans_lt (by omega))
    have hend : offset / g.blksz < endInd2 g := Nat.div_lt_of_lt_mul (by omega)
    have hidx : offset / g.blksz ≤ (ds f).length := by
      refine Nat.div_le_of_le_mul (hoff.trans ?_)
      rw [hlen f]
      exact (ceilDiv_le_iff_le_mul (blksz_pos g)).1 le_rfl
    have hpos : offset % g.blksz < g.blksz := Nat.mod_lt _ (blksz_pos g)
    obtain ⟨d', zone', z, ds', is', hget, hl, hds, hz, hdlen, hfree'⟩ := getOrExtend_spec h hidx
      (div_lt_ceilDiv (by omega)) (hend.trans_le (endInd2_le g)) hfree
    -- one block is written, the rest is the same loop again
    generalize hcs : min (g.blksz - offset % g.blksz) src.length = cs
    have htake : (src.take cs).length = cs := length_take_of_le (by omega)
    have hdrop : (src.drop cs).length = src.length - cs := length_drop
    have hfit : offset % g.blksz + (src.take cs).length ≤ g.blksz := by omega
    have hl' := hl.write hz hoff hfit
    have hsplen : (splice (text f) offset (src.take cs)).length = max (text f).length (offset + cs) := by
      rw [length_splice hoff, htake]
    have hlen' : ∀ e, (ds' e).length =
        (update text f (splice (text f) offset (src.take cs)) e).length ⌈/⌉ g.blksz := fun e => by
      by_cases he : e = f
      · subst he
        rw [update_self, hsplen, hdlen, hlen e, ceilDiv_max _ (by omega) (by omega)]
      · rw [update_of_ne he, hds e he, hlen e]
    have hmax : max (max (text f).length (offset + cs)) (offset + cs + (src.drop cs).length) =
        max (text f).length (offset + src.length) := by omega
    have hoff' : offset + cs ≤ (update text f (splice (text f) offset (src.take cs)) f).length := by
      rw [update_self, hsplen]
      omega
    obtain ⟨d'', zone'', hloop, hk⟩ := ih hl' hlen' hoff' (by omega : _ + (src.drop cs).length ≤ _) (by omega)
      (by rwa [update_self, hsplen, hmax]) (by omega)
    refine ⟨d'', zone'', ?_, ?_⟩
    · rw [update_self, hdrop, show offset + cs + (src.length - cs) = offset + src.length by omega] at hloop
      rw [if_neg h0]
      rw [hmod, if_neg (by omega), hget, hcs]
      exact hloop
    have hsplice := splice_splice (src.take cs) (src.drop cs) hoff
    rw [htake, take_append_drop] at hsplice
    rwa [update_idem, update_self, update_idem, hsplice] at hk

/-! ## Runs -/

/-- A write that fits does to the texts what it says. -/
theorem Holds.write (h : Holds g v a) (hf : Fits g v (.write f src offset)) :
    ∃ v', step g v (.write f src offset) = some v' ∧ Holds g v' (spec a (.write f src offset)) := by
  obtain ⟨hoff, hcap, hsmall, hfree⟩ := hf
  obtain ⟨ds, is, hl, hlen⟩ := h.kept
  rw [(h.size f).2] at hoff hfree
  rw [← hlen f] at hfree
  obtain ⟨d', zone', hloop, hk⟩ := writeLoop_spec hl hlen hoff hcap hsmall hfree le_rfl
  have hwritten : written (a.text f) src offset = splice (a.text f) offset src := by
    rw [written, Nat.sub_eq_zero_of_le hoff, replicate_zero, append_nil]
    split
    next h0 => rw [h0, splice_nil hoff]
    next => rfl
  rw [← hwritten] at hk
  generalize hw : written (a.text f) src offset = w at hk hwritten
  have hlen' : w.length = max (a.text f).length (offset + src.length) := by rw [hwritten, length_splice hoff]
  have hnode : minixWrite g v.zones (v.file f) src offset =
      some (d', ⟨w.length, w.length, zone'⟩, if src = [] then -ENOSPC else toInt src.length) := by
    have hret : offset < offset + src.length ↔ src ≠ [] := by rw [← length_pos_iff]; omega
    rw [minixWrite, hloop, hlen']
    simp only [Option.map_some, hret, ne_eq, ite_not, Nat.add_sub_cancel_left, h.size, Nat.mod_eq_of_lt hsmall]
    split
    next hlt => rw [max_eq_right hlt.le]
    next hle => rw [max_eq_left (by omega)]
  refine ⟨_, by rw [step, hnode]; rfl, ?_, fun e => ?_, fun e => ?_, ?_⟩
  · have hzone : (fun e => (update v.file f ⟨w.length, w.length, zone'⟩ e).zone) =
        update (fun e => (v.file e).zone) f zone' :=
      funext fun e => Function.apply_update (fun _ => Node.zone) v.file f _ e
    dsimp only [spec]
    rwa [hzone, hw]
  · dsimp only [spec]
    by_cases he : e = f
    · subst he
      rw [update_self, update_self, hw]
      exact ⟨rfl, rfl⟩
    · rw [update_of_ne he, update_of_ne he]
      exact h.size e
  · dsimp only [spec]
    by_cases he : e = f
    · subst he
      have := h.small e
      rw [update_self, hw, hlen']
      omega
    · rw [update_of_ne he]
      exact h.small e
  · rw [spec, h.replies]

theorem Holds.step {o : Op} (h : Holds g v a) (hf : Fits g v o) : ∃ v', step g v o = some v' ∧
    Holds g v' (spec a o) := by
  cases o with
  | read f siz offset =>
    refine ⟨_, rfl, h.kept, h.size, h.small, ?_⟩
    dsimp only [spec]
    rw [h.read, h.replies]
  | write f src offset => exact h.write hf

/-- **Every run of reads and writes that fit follows the specification**: no missing block is used, the replies are the
same, and every file reads as its bytes. -/
theorem contents_kept (g : ZGeo) (v : Vol) (a : Texts) (h : Holds g v a) (os : List Op)
    (hos : Meets (step g) (Fits g) v os) :
    ∃ v', run (step g) v os = some v' ∧ v'.replies = (os.foldl spec a).replies ∧
      ∀ f siz offset, minixRead g v'.zones.blk (v'.file f) siz offset =
        (((os.foldl spec a).text f).drop offset).take siz := by
  obtain ⟨v', hr, h'⟩ := run_meets_sim (fun _ _ _ => Holds.step) h hos
  exact ⟨v', hr, h'.replies, h'.read⟩

/-! ## An empty volume -/

/-- All files are empty. -/
def empty : Vol := ⟨⟨fun _ _ => 0, fun _ _ => 0⟩, fun _ => ⟨0, 0, fun _ => 0⟩, []⟩

theorem tops_empty (blk : Nat → Bytes) (n l : Nat) : Tops g blk (fun _ => 0) n l [] [] := by
  induction n generalizing l with
  | zero => exact ⟨rfl, rfl⟩
  | succ n ih => exact ⟨[], [], [], [], rfl, rfl, .inl ⟨rfl, rfl, rfl⟩, fun h => absurd rfl h, ih (l + 1)⟩

theorem holds_empty (hn : Numbered g empty.zones) : Holds g empty ⟨fun _ => [], []⟩ := by
  refine ⟨⟨fun _ => [], fun _ => [], ⟨fun _ => ⟨fun _ _ => rfl, nofun, tops_empty _ _ _⟩, fun _ => nofun, ⟨?_, ?_, ?_⟩,
    ?_, hn⟩, fun _ => ?_⟩, fun _ => ⟨rfl, rfl⟩, fun _ => Nat.two_pow_pos 32, rfl⟩
  · exact fun _ => nodup_nil
  · exact fun _ _ _ => disjoint_nil_left _
  · exact fun _ => nofun
  · exact fun i _ => entry_zero _ i
  · simp

/-- Blocks of four bytes with two numbers each, as a volume of version 1. -/
def tiny : ZGeo := ⟨1, 2, 2, 5, 30, 1, 1, by decide, by decide, by decide, by decide⟩

/-- A file of ten blocks, with seven direct zones, two behind one block and one behind two, and another file; the bytes
of the first one are then partly written again. -/
theorem contents_kept_tiny : ∃ v, run (step tiny) empty [.write 0 (List.replicate 38 1) 0, .write 1 [7, 8] 0,
      .write 0 [2, 3, 4, 5, 6] 33, .read 0 8 32, .read 1 8 0] = some v ∧
    v.replies = [⟨38, []⟩, ⟨2, []⟩, ⟨5, []⟩, ⟨6, [1, 2, 3, 4, 5, 6]⟩, ⟨2, [7, 8]⟩] := by
  have hn : Numbered tiny empty.zones := fun z hz => (mem_free.1 hz).1.trans (by decide)
  obtain ⟨v, hr, hreplies, -⟩ := contents_kept tiny empty ⟨fun _ => [], []⟩ (holds_empty hn)
    [.write 0 (List.replicate 38 1) 0, .write 1 [7, 8] 0, .write 0 [2, 3, 4, 5, 6] 33, .read 0 8 32, .read 1 8 0]
    (by decide +kernel)
  exact ⟨v, hr, hreplies.trans (by decide)⟩

/-- A volume of version 1. -/
def version1 : ZGeo := ⟨9, 2, 2, 20, 1000, 1, 16, by decide, by decide, by decide, by decide⟩

/-- One byte behind the first block of an empty file: `minix_zext` adds the first zone, and the second one is missing.
-/
theorem hole_written : (step version1 empty (.write 0 [1] 1024)).isNone = true := by decide +kernel

end TextOS.Minix.File
