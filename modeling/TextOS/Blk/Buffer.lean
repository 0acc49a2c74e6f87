import TextOS.Lib.Keyed
import TextOS.Lib.Run

/-!
# The block buffer cache: `kernel/dev/blk/buffer.c`

`bread` returns the cached buffer of a block, or reads the block into a new one; `brelse` writes it back if it is dirty
and lets others use it. Buffers are never given up. The lock of a buffer counts how often its task has taken it, so that
a task gets a block again that it holds; another task waits, and its `bread` stands in a run where it returns.

- `Inv`: a cached block shows the image, and so does the disk where no block is cached;
- if every device is used with one block size and no two devices in use share sectors, **`bread` shows the image**
  (`bread_shows`).
-/

namespace TextOS.Blk

open Lib Option List

/-- `SECT_SIZ`, which is what `BLKSSZGET` answers. -/
def sectSiz : Nat := 512

/-- A block device: `ptend` sectors of the disk `major` from the sector `ptoff` on. -/
structure Devst where
  major : Nat
  minor : Nat
  ptoff : Nat
  ptend : Nat
  fits : ptoff + ptend < 2 ^ 32
deriving DecidableEq

/-- `lock_t`: the task that holds it, and how often. -/
structure Lock where
  holder : Option Nat
  hrepeat : Nat
deriving DecidableEq

/-- `lock_acquire` by the task `tsk`; `none`: it waits in `sema_down`. -/
def Lock.acquire (l : Lock) (tsk : Nat) : Option Lock :=
  if l.holder = some tsk then some { l with hrepeat := l.hrepeat + 1 }
  else if l.holder = none then some ⟨some tsk, 1⟩
  else none

/-- `lock_release` by its holder. -/
def Lock.release (l : Lock) : Lock := if 1 < l.hrepeat then { l with hrepeat := l.hrepeat - 1 } else ⟨none, 0⟩

/-- `buffer_t`. -/
structure Buffer where
  dev : Devst
  idx : Nat
  siz : Nat
  dirty : Bool
  lock : Lock
  blk : Nat → UInt8

/-- What `find_all` compares. -/
def Buffer.key (b : Buffer) : Devst × Nat := (b.dev, b.idx)

/-- The bytes of the disks, the cached buffers and the sizes of the free ones. -/
structure State where
  disk : Nat → Nat → UInt8
  all : List Buffer
  fre : List Nat

/-- The sectors `part_read` and `part_write` transfer. -/
def partCnt (dev : Devst) (addr cnt : Nat) : Nat := min cnt ((2 ^ 32 + dev.ptend - addr) % 2 ^ 32)

/-- The first byte they transfer. -/
def partOff (dev : Devst) (addr : Nat) : Nat := sectSiz * ((addr + dev.ptoff) % 2 ^ 32)

/-- `part_read` into a buffer that holds `blk`. -/
def partRead (disk : Nat → Nat → UInt8) (dev : Devst) (addr cnt : Nat) (blk : Nat → UInt8) : Nat → UInt8 := fun k =>
  if k < sectSiz * partCnt dev addr cnt then disk dev.major (partOff dev addr + k) else blk k

def partWrite (disk : Nat → Nat → UInt8) (dev : Devst) (addr cnt : Nat) (blk : Nat → UInt8) : Nat → Nat → UInt8 :=
  fun major x =>
    if major = dev.major ∧ partOff dev addr ≤ x ∧ x < partOff dev addr + sectSiz * partCnt dev addr cnt then
      blk (x - partOff dev addr)
    else disk major x

def findAll (s : State) (dev : Devst) (idx : Nat) : Option Buffer := s.all.find? fun b => b.key == (dev, idx)

def fillFre (fre : List Nat) (bsiz : Nat) : List Nat := List.replicate (max 1 (4096 / bsiz)) bsiz ++ fre

/-- `find_fre`: the free buffers once one of `bsiz` bytes is taken. Its second call finds what `fill_fre` added. -/
def findFre (fre : List Nat) (bsiz : Nat) : List Nat :=
  let fre := if fre.isEmpty then fillFre fre bsiz else fre
  if bsiz ∈ fre then fre.erase bsiz else (fillFre fre bsiz).erase bsiz

/-- Change the cached buffer of a block. -/
def State.upd (s : State) (dev : Devst) (idx : Nat) (f : Buffer → Buffer) : State :=
  { s with all := updFirst (fun b => b.key == (dev, idx)) f s.all }

/-- `bread` by the task `tsk`, where a new buffer holds `stale` before. It does not return while another task holds the
buffer. -/
def bread (s : State) (tsk : Nat) (dev : Devst) (siz idx : Nat) (stale : Nat → UInt8) : Option (State × Buffer) :=
  match findAll s dev idx with
  | some b => (b.lock.acquire tsk).map fun lock => (s.upd dev idx fun b => { b with lock }, { b with lock })
  | none =>
    let scale := siz / sectSiz
    let b := ⟨dev, idx, siz, false, ⟨some tsk, 1⟩, partRead s.disk dev (idx * scale % 2 ^ 32) scale stale⟩
    some ({ s with all := b :: s.all, fre := findFre s.fre siz }, b)

def bwrite (s : State) (b : Buffer) : State :=
  if !b.dirty then s
  else
    let scale := b.siz / sectSiz
    { s with disk := partWrite s.disk b.dev (b.idx * scale % 2 ^ 32) scale b.blk }

def brelse (s : State) (b : Buffer) : State := (bwrite s b).upd b.dev b.idx fun b => { b with lock := b.lock.release }

/-- The buffer of a block that the task holds. -/
def held (s : State) (tsk : Nat) (dev : Devst) (idx : Nat) : Option Buffer :=
  (findAll s dev idx).filter fun b => b.lock.holder = some tsk

/-- What users of the cache do; `poke` changes one byte of the block that was asked for with `siz` bytes. -/
inductive Op
  | bread (tsk : Nat) (dev : Devst) (siz idx : Nat) (stale : Nat → UInt8)
  | poke (tsk : Nat) (dev : Devst) (siz idx off : Nat) (v : UInt8)
  | bdirty (tsk : Nat) (dev : Devst) (idx : Nat) (dirty : Bool)
  | bwrite (tsk : Nat) (dev : Devst) (idx : Nat)
  | brelse (tsk : Nat) (dev : Devst) (idx : Nat)

def step (s : State) : Op → Option State
  | .bread tsk dev siz idx stale => (bread s tsk dev siz idx stale).map Prod.fst
  | .poke tsk dev _ idx off v => (held s tsk dev idx).bind fun b =>
    if off < b.siz then some (s.upd dev idx fun b => { b with blk := Function.update b.blk off v }) else none
  | .bdirty tsk dev idx dirty => (held s tsk dev idx).map fun _ => s.upd dev idx fun b => { b with dirty }
  | .bwrite tsk dev idx => (held s tsk dev idx).map (bwrite s)
  | .brelse tsk dev idx => (held s tsk dev idx).map (brelse s)

def State.init (disk : Nat → Nat → UInt8) : State := ⟨disk, [], []⟩

/-! ## What the cache shows -/

/-- The bytes of the disks. -/
abbrev Image := Nat → Nat → UInt8

/-- The byte `off` of a block of a device, on its disk. -/
def byteOf (dev : Devst) (siz idx off : Nat) : Nat := sectSiz * dev.ptoff + siz * idx + off

/-- The bytes after an operation: a poke changes one. -/
def Image.step (img : Image) : Op → Image
  | .poke _ dev siz idx off v =>
    fun major x => if major = dev.major ∧ x = byteOf dev siz idx off then v else img major x
  | _ => img

/-- The block is on the device. -/
def OnDevice (dev : Devst) (siz idx : Nat) : Prop := siz * (idx + 1) ≤ sectSiz * dev.ptend

/-- No two devices share a sector. -/
def Apart (used : List Devst) : Prop :=
  ∀ d ∈ used, ∀ d' ∈ used, d ≠ d' → d.major = d'.major → d.ptoff + d.ptend ≤ d'.ptoff ∨ d'.ptoff + d'.ptend ≤ d.ptoff

/-- The operation uses one of the devices, with its block size. -/
def Suits (used : List Devst) (bs : Devst → Nat) : Op → Prop
  | .bread _ dev siz idx _ => dev ∈ used ∧ siz = bs dev ∧ OnDevice dev siz idx
  | .poke _ dev siz _ _ _ => siz = bs dev
  | _ => True

/-- A buffer for a block of a device in use. -/
structure Buffer.Ok (used : List Devst) (bs : Devst → Nat) (b : Buffer) : Prop where
  dev : b.dev ∈ used
  siz : b.siz = bs b.dev
  on : OnDevice b.dev b.siz b.idx

/-- The byte of the disk is one of the block. -/
def Buffer.Covers (b : Buffer) (major x : Nat) : Prop :=
  major = b.dev.major ∧ byteOf b.dev b.siz b.idx 0 ≤ x ∧ x < byteOf b.dev b.siz b.idx b.siz

/-- The buffer shows the image. -/
def Buffer.Shows (img : Image) (b : Buffer) : Prop :=
  ∀ k < b.siz, b.blk k = img b.dev.major (byteOf b.dev b.siz b.idx k)

structure Inv (used : List Devst) (bs : Devst → Nat) (img : Image) (s : State) : Prop where
  keys : (s.all.map Buffer.key).Nodup
  ok : ∀ b ∈ s.all, b.Ok used bs
  shows : ∀ b ∈ s.all, b.Shows img
  disk : ∀ major x, (∀ b ∈ s.all, ¬ b.Covers major x) → s.disk major x = img major x

variable {used : List Devst} {bs : Devst → Nat} {img : Image} {s s' : State} {b b' : Buffer} {dev : Devst}
  {siz idx tsk major x : Nat}

/-! ## Sectors and blocks -/

theorem part_block (hs : siz = 512 ∨ siz = 1024) (hon : OnDevice dev siz idx) :
    partOff dev (idx * (siz / sectSiz) % 2 ^ 32) = byteOf dev siz idx 0 ∧
      sectSiz * partCnt dev (idx * (siz / sectSiz) % 2 ^ 32) (siz / sectSiz) = siz := by
  have hfit := dev.fits
  unfold OnDevice sectSiz at hon
  unfold partOff partCnt byteOf sectSiz
  rcases hs with rfl | rfl
  · have ha : idx * (512 / 512) % 2 ^ 32 = idx := by omega
    constructor <;> omega
  · have ha : idx * (1024 / 512) % 2 ^ 32 = 2 * idx := by omega
    constructor <;> omega

theorem partRead_block (hs : siz = 512 ∨ siz = 1024) (hon : OnDevice dev siz idx) (disk : Nat → Nat → UInt8)
    (stale : Nat → UInt8) {k : Nat} (hk : k < siz) :
    partRead disk dev (idx * (siz / sectSiz) % 2 ^ 32) (siz / sectSiz) stale k =
    disk dev.major (byteOf dev siz idx k) := by
  obtain ⟨hoff, hcnt⟩ := part_block hs hon
  rw [partRead, hcnt, hoff, if_pos hk]
  rfl

theorem partWrite_block (hs : b.siz = 512 ∨ b.siz = 1024) (hon : OnDevice b.dev b.siz b.idx) (disk : Nat → Nat → UInt8)
    (hx : ¬ b.Covers major x) :
    partWrite disk b.dev (b.idx * (b.siz / sectSiz) % 2 ^ 32) (b.siz / sectSiz) b.blk major x = disk major x := by
  obtain ⟨hoff, hcnt⟩ := part_block hs hon
  rw [partWrite, hcnt, hoff]
  exact if_neg hx

/-- Two buffers that cover the same byte of the disk are the same block's. -/
theorem key_eq_of_covers (hbs : ∀ d, bs d = 512 ∨ bs d = 1024) (hap : Apart used) (hb : b.Ok used bs)
    (hb' : b'.Ok used bs) (hx : b.Covers major x) (hx' : b'.Covers major x) : b.key = b'.key := by
  obtain ⟨hm, hlo, hhi⟩ := hx
  obtain ⟨hm', hlo', hhi'⟩ := hx'
  have hon := hb.on
  have hon' := hb'.on
  unfold OnDevice at hon hon'
  unfold byteOf at hlo hhi hlo' hhi'
  unfold sectSiz at hlo hhi hlo' hhi' hon hon'
  rw [Nat.mul_add] at hon hon'
  have hdev : b.dev = b'.dev := by
    by_contra hne
    have := hap _ hb.dev _ hb'.dev hne (hm.symm.trans hm')
    omega
  have hsiz : b.siz = b'.siz := by rw [hb.siz, hb'.siz, hdev]
  have hidx : b.idx = b'.idx := by
    have hs := hbs b'.dev
    rw [← hb'.siz] at hs
    rw [hsiz, hdev] at hlo hhi
    rcases hs with hs | hs
    · rw [hs] at hlo hhi hlo' hhi'
      omega
    · rw [hs] at hlo hhi hlo' hhi'
      omega
  rw [Buffer.key, Buffer.key, hdev, hidx]

/-! ## The invariant -/

theorem Buffer.Shows.congr {img' : Image} (hb : b.Shows img)
    (himg : ∀ x, b.Covers b.dev.major x → img' b.dev.major x = img b.dev.major x) : b.Shows img' := by
  intro k hk
  have hx : b.Covers b.dev.major (byteOf b.dev b.siz b.idx k) := by refine ⟨rfl, ?_, ?_⟩ <;> unfold byteOf <;> omega
  rw [hb k hk, himg _ hx]

theorem findAll_mem (h : findAll s dev idx = some b) : b ∈ s.all ∧ b.key = (dev, idx) :=
  ⟨mem_of_find?_eq_some h, by simpa using find?_some h⟩

theorem bwrite_all (s : State) (b : Buffer) : (bwrite s b).all = s.all := by
  rw [bwrite]
  split <;> rfl

theorem Image.step_poke (img : Image) (tsk : Nat) (dev : Devst) (siz idx off : Nat) (v : UInt8) (major x : Nat) :
    img.step (.poke tsk dev siz idx off v) major x =
      if major = dev.major ∧ x = byteOf dev siz idx off then v else img major x := rfl

section Change

variable (hbs : ∀ d, bs d = 512 ∨ bs d = 1024) (hap : Apart used)
include hbs hap

theorem Inv.not_covers (hi : Inv used bs img s) (hb : b ∈ s.all) (hb' : b' ∈ s.all) (hne : b'.key ≠ b.key)
    (hx : b'.Covers major x) : ¬ b.Covers major x := fun hx' =>
  hne (key_eq_of_covers hbs hap (hi.ok b' hb') (hi.ok b hb) hx hx')

/-- A buffer's bytes change, and the image with them. -/
theorem Inv.change {img' : Image} {f : Buffer → Buffer} (hi : Inv used bs img s) (hb : b ∈ s.all)
    (hkey : b.key = (dev, idx)) (hf : ∀ b, (f b).dev = b.dev ∧ (f b).idx = b.idx ∧ (f b).siz = b.siz)
    (hshow : (f b).Shows img') (himg : ∀ major x, ¬ b.Covers major x → img' major x = img major x) :
    Inv used bs img' (s.upd dev idx f) := by
  have hcov : ∀ b major x, (f b).Covers major x ↔ b.Covers major x := by
    intro b major x
    obtain ⟨hd, hx, hs⟩ := hf b
    rw [Buffer.Covers, Buffer.Covers, hd, hx, hs]
  have hmem : ∀ b', b' ∈ (s.upd dev idx f).all ↔ (b' ∈ s.all ∧ b'.key ≠ b.key) ∨ b' = f b := by
    intro b'
    refine (mem_updFirst hi.keys).trans (or_congr (by rw [hkey]) ⟨?_, ?_⟩)
    · rintro ⟨y, hy, hk, rfl⟩
      rw [inj_on_of_nodup_map hi.keys hy hb (hk.trans hkey.symm)]
    · rintro rfl
      exact ⟨b, hb, hkey, rfl⟩
  have hkeys : (s.upd dev idx f).all.map Buffer.key = s.all.map Buffer.key :=
    map_key_updFirst (fun b => by rw [Buffer.key, Buffer.key, (hf b).1, (hf b).2.1]) s.all
  refine ⟨hkeys ▸ hi.keys, fun b' hb' => ?_, fun b' hb' => ?_, fun major x hx => ?_⟩
  · rcases (hmem b').1 hb' with ⟨hb', -⟩ | rfl
    · exact hi.ok b' hb'
    obtain ⟨hd, hx, hs⟩ := hf b
    obtain ⟨h1, h2, h3⟩ := hi.ok b hb
    constructor
    · rwa [hd]
    · rwa [hd, hs]
    · rwa [hd, hx, hs]
  · rcases (hmem b').1 hb' with ⟨hb', hne⟩ | rfl
    · exact (hi.shows b' hb').congr fun x hx => himg _ _ (hi.not_covers hbs hap hb hb' hne hx)
    · exact hshow
  have hxb : ¬ b.Covers major x := fun h => hx (f b) ((hmem _).2 (.inr rfl)) ((hcov b major x).2 h)
  rw [himg major x hxb]
  refine hi.disk major x fun b' hb' h => ?_
  by_cases hk : b'.key = b.key
  · exact hxb (inj_on_of_nodup_map hi.keys hb' hb hk ▸ h)
  · exact hx b' ((hmem b').2 (.inl ⟨hb', hk⟩)) h

theorem Inv.mark {f : Buffer → Buffer} (hi : Inv used bs img s) (hb : b ∈ s.all) (hkey : b.key = (dev, idx))
    (hf : ∀ b, (f b).dev = b.dev ∧ (f b).idx = b.idx ∧ (f b).siz = b.siz) (hblk : (f b).Shows img) :
    Inv used bs img (s.upd dev idx f) := hi.change hbs hap hb hkey hf hblk fun _ _ _ => rfl

/-- A block read from the disk joins the cache. -/
theorem Inv.add (hi : Inv used bs img s) (hb : b.Ok used bs) (hnew : findAll s b.dev b.idx = none)
    (hblk : ∀ k < b.siz, b.blk k = s.disk b.dev.major (byteOf b.dev b.siz b.idx k)) (fre : List Nat) :
    Inv used bs img { s with all := b :: s.all, fre } ∧ b.Shows img := by
  have hne : ∀ b' ∈ s.all, b'.key ≠ b.key := fun b' hb' he => by
    have := find?_eq_none.1 hnew b' hb'
    exact this (beq_iff_eq.2 he)
  have hshow : b.Shows img := by
    intro k hk
    rw [hblk k hk]
    refine hi.disk _ _ fun b' hb' hx => hne b' hb' (key_eq_of_covers hbs hap (hi.ok b' hb') hb hx ?_)
    refine ⟨rfl, ?_, ?_⟩ <;> unfold byteOf <;> omega
  refine ⟨⟨?_, ?_, ?_, fun major x hx => ?_⟩, hshow⟩
  · refine nodup_cons.2 ⟨fun h => ?_, hi.keys⟩
    obtain ⟨b', hb', he⟩ := mem_map.1 h
    exact hne b' hb' he
  · exact forall_mem_cons.2 ⟨hb, hi.ok⟩
  · exact forall_mem_cons.2 ⟨hshow, hi.shows⟩
  · exact hi.disk major x (forall_mem_cons.1 hx).2

/-- `bread` gives a buffer that shows the image. -/
theorem Inv.bread (hi : Inv used bs img s) (hdev : dev ∈ used) (hon : OnDevice dev (bs dev) idx)
    {stale : Nat → UInt8} (hr : bread s tsk dev (bs dev) idx stale = some (s', b)) :
    Inv used bs img s' ∧ b.key = (dev, idx) ∧ b.siz = bs dev ∧ b.Shows img := by
  rw [Blk.bread] at hr
  cases hf : findAll s dev idx with
  | some c =>
    obtain ⟨hc, hkey⟩ := findAll_mem hf
    simp only [hf] at hr
    obtain ⟨lock, -, hr⟩ := map_eq_some_iff.1 hr
    cases hr
    have hd : c.dev = dev := congrArg Prod.fst hkey
    exact ⟨hi.mark hbs hap hc hkey (fun _ => ⟨rfl, rfl, rfl⟩) (hi.shows c hc), hkey, hd ▸ (hi.ok c hc).siz,
      hi.shows c hc⟩
  | none =>
    simp only [hf, some.injEq, Prod.mk.injEq] at hr
    obtain ⟨rfl, rfl⟩ := hr
    obtain ⟨hi', hshow⟩ := hi.add hbs hap (b := ⟨dev, idx, bs dev, false, ⟨some tsk, 1⟩, _⟩) ⟨hdev, rfl, hon⟩ hf
      (fun k hk => partRead_block (hbs dev) hon s.disk stale hk) (findFre s.fre (bs dev))
    exact ⟨hi', rfl, rfl, hshow⟩

omit hap in
theorem Inv.bwrite (hi : Inv used bs img s) (hb : b ∈ s.all) : Inv used bs img (bwrite s b) := by
  rw [Blk.bwrite]
  split
  · exact hi
  refine ⟨hi.keys, hi.ok, hi.shows, fun major x hx => ?_⟩
  have hs : b.siz = 512 ∨ b.siz = 1024 := (hi.ok b hb).siz ▸ hbs b.dev
  exact (partWrite_block hs (hi.ok b hb).on s.disk (hx b hb)).trans (hi.disk major x hx)

/-- A byte written through a buffer is a byte written to the image. -/
theorem Inv.poke (hi : Inv used bs img s) (hb : b ∈ s.all) (hkey : b.key = (dev, idx)) {off : Nat} (hoff : off < b.siz)
    (v : UInt8) : Inv used bs (img.step (.poke tsk dev (bs dev) idx off v))
      (s.upd dev idx fun b => { b with blk := Function.update b.blk off v }) := by
  obtain rfl : b.dev = dev := congrArg Prod.fst hkey
  obtain rfl : b.idx = idx := congrArg Prod.snd hkey
  have hsiz := (hi.ok b hb).siz
  refine hi.change hbs hap hb hkey (fun _ => ⟨rfl, rfl, rfl⟩) (fun k hk => ?_) fun major x hx => ?_
  · dsimp only
    rw [Image.step_poke, ← hsiz]
    by_cases he : k = off
    · rw [he, Function.update_self, if_pos ⟨rfl, rfl⟩]
    rw [Function.update_of_ne he, if_neg, hi.shows b hb k hk]
    rintro ⟨-, h⟩
    unfold byteOf at h
    omega
  rw [Image.step_poke, ← hsiz, if_neg]
  rintro ⟨rfl, rfl⟩
  refine hx ⟨rfl, ?_, ?_⟩ <;> unfold byteOf <;> omega

/-- One operation keeps the invariant. -/
theorem step_inv {o : Op} (hi : Inv used bs img s) (ho : Suits used bs o) (hr : step s o = some s') :
    Inv used bs (img.step o) s' := by
  have hheld : ∀ {tsk dev idx b}, held s tsk dev idx = some b → b ∈ s.all ∧ b.key = (dev, idx) := fun h =>
    findAll_mem (filter_eq_some_iff.1 h).1
  cases o with
  | bread tsk dev siz idx stale =>
    obtain ⟨hdev, rfl, hon⟩ := ho
    obtain ⟨⟨t, b⟩, hb, rfl⟩ := map_eq_some_iff.1 hr
    exact (hi.bread hbs hap hdev hon hb).1
  | poke tsk dev siz idx off v =>
    obtain rfl : siz = bs dev := ho
    obtain ⟨b, hb, hr⟩ := bind_eq_some_iff.1 hr
    obtain ⟨hmem, hkey⟩ := hheld hb
    split at hr
    · next hoff =>
      cases hr
      exact hi.poke hbs hap hmem hkey hoff v
    · cases hr
  | bdirty tsk dev idx dirty =>
    obtain ⟨b, hb, rfl⟩ := map_eq_some_iff.1 hr
    obtain ⟨hmem, hkey⟩ := hheld hb
    exact hi.mark hbs hap hmem hkey (fun _ => ⟨rfl, rfl, rfl⟩) (hi.shows b hmem)
  | bwrite tsk dev idx =>
    obtain ⟨b, hb, rfl⟩ := map_eq_some_iff.1 hr
    exact hi.bwrite hbs (hheld hb).1
  | brelse tsk dev idx =>
    obtain ⟨b, hb, rfl⟩ := map_eq_some_iff.1 hr
    obtain ⟨hmem, hkey⟩ := hheld hb
    have hmem' : b ∈ (Blk.bwrite s b).all := by rwa [bwrite_all]
    exact (hi.bwrite hbs hmem).mark hbs hap hmem' rfl (fun _ => ⟨rfl, rfl, rfl⟩) (hi.shows b hmem)

theorem run_shows {os : List Op} (hi : Inv used bs img s) (hos : ∀ o ∈ os, Suits used bs o)
    (hr : run step s os = some s') : Inv used bs (os.foldl Image.step img) s' := by
  induction os generalizing s img with
  | nil =>
    cases hr
    exact hi
  | cons o os ih =>
    rw [forall_mem_cons] at hos
    obtain ⟨t, ht, hr⟩ := run_cons.1 hr
    exact ih (step_inv hbs hap hi hos.1 ht) hos.2 hr

end Change

theorem init_inv (disk : Image) : Inv used bs disk (.init disk) :=
  ⟨nodup_nil, fun _ hb => (nomatch hb), fun _ hb => (nomatch hb), fun _ _ _ => rfl⟩

/-- **`bread` shows the image**: unless another task holds the buffer, it returns a buffer of the asked size with the
bytes of the block, every change made through any buffer included. -/
theorem bread_shows (used : List Devst) (bs : Devst → Nat) (hbs : ∀ d, bs d = 512 ∨ bs d = 1024) (hap : Apart used)
    (disk : Image) (os : List Op) (hos : ∀ o ∈ os, Suits used bs o) (s : State)
    (hr : run step (.init disk) os = some s) (tsk : Nat) (dev : Devst) (hdev : dev ∈ used) (idx : Nat)
    (hon : OnDevice dev (bs dev) idx) (hfree : ∀ t ≠ tsk, held s t dev idx = none) (stale : Nat → UInt8) :
    ∃ s' b, bread s tsk dev (bs dev) idx stale = some (s', b) ∧ b.siz = bs dev ∧
      ∀ k < bs dev, b.blk k = os.foldl Image.step disk dev.major (byteOf dev (bs dev) idx k) := by
  have hi := run_shows hbs hap (init_inv disk) hos hr
  have hret : (bread s tsk dev (bs dev) idx stale).isSome := by
    rw [bread]
    cases hf : findAll s dev idx with
    | none => rfl
    | some b =>
      simp only [isSome_map, Lock.acquire]
      cases hh : b.lock.holder with
      | none => simp
      | some t =>
        have ht : t = tsk := by
          by_contra hne
          have := hfree t hne
          simp [held, hf, hh] at this
        simp [ht]
  obtain ⟨⟨s', b⟩, hb⟩ := isSome_iff_exists.1 hret
  obtain ⟨-, hkey, hsiz, hshow⟩ := hi.bread hbs hap hdev hon hb
  obtain rfl : b.dev = dev := congrArg Prod.fst hkey
  obtain rfl : b.idx = idx := congrArg Prod.snd hkey
  exact ⟨s', b, hb, hsiz, hsiz ▸ hshow⟩

/-- The disk 3 with 100 sectors. -/
def hda : Devst := ⟨3, 1, 0, 100, by decide⟩

/-- A byte changed through the cache is seen by the task that still holds the block. -/
theorem bread_shows_poke : ∃ s s' b,
    run step (.init fun _ _ => 0) [.bread 1 hda 1024 1 fun _ => 0, .bread 1 hda 1024 1 fun _ => 0,
    .poke 1 hda 1024 1 5 7,
      .brelse 1 hda 1] = some s ∧
      bread s 1 hda 1024 1 (fun _ => 0) = some (s', b) ∧ b.siz = 1024 ∧ b.blk 5 = 7 ∧ b.lock = ⟨some 1, 2⟩ := by
  obtain ⟨s, hs⟩ : ∃ s, run step (.init fun _ _ => 0) [.bread 1 hda 1024 1 fun _ => 0, .bread 1 hda 1024 1 fun _ => 0,
      .poke 1 hda 1024 1 5 7, .brelse 1 hda 1] = some s := ⟨_, rfl⟩
  obtain ⟨s', b, hb, hsiz, hblk⟩ := bread_shows [hda] (fun _ => 1024) (fun _ => .inr rfl)
    (fun d hd d' hd' hne => absurd ((mem_singleton.1 hd).trans (mem_singleton.1 hd').symm) hne)
    (fun _ _ => 0) [.bread 1 hda 1024 1 fun _ => 0, .bread 1 hda 1024 1 fun _ => 0, .poke 1 hda 1024 1 5 7,
    .brelse 1 hda 1] (by simp [Suits, OnDevice, hda, sectSiz]) s hs 1 hda (by simp) 1 (by simp [OnDevice, hda, sectSiz])
    (fun t ht => by
      have hone : (findAll s hda 1).map (fun b => b.lock.holder) = some (some 1) := by
        cases hs
        decide
      obtain ⟨c, hc, hholder⟩ := map_eq_some_iff.1 hone
      simp [held, hc, hholder, Ne.symm ht]) fun _ => 0
  have hlock : (bread s 1 hda 1024 1 fun _ => 0).map (fun r => r.2.lock) = some ⟨some 1, 2⟩ := by
    cases hs
    decide
  rw [hb] at hlock
  exact ⟨s, s', b, hs, hb, hsiz, (hblk 5 (by decide)).trans rfl, some.inj hlock⟩

/-- Block 1 of 512 bytes is returned for block 1 of 1024 bytes; and it does not show the byte 7 that was written
through block 0 of 1024 bytes. -/
theorem sizes_mixed : ((run step (.init fun _ _ => 0) [.bread 1 hda 512 1 fun _ => 0, .brelse 1 hda 1]).bind
      fun s => (bread s 1 hda 1024 1 fun _ => 0).map fun r => r.2.siz) = some 512 ∧
    ((run step (.init fun _ _ => 0) [.bread 1 hda 512 1 fun _ => 0, .brelse 1 hda 1, .bread 1 hda 1024 0 fun _ => 0,
        .poke 1 hda 1024 0 512 7, .bdirty 1 hda 0 true, .brelse 1 hda 0]).bind
      fun s => (bread s 1 hda 512 1 fun _ => 0).map fun r => r.2.blk 0) = some 0 ∧
    [Op.bread 1 hda 512 1 fun _ => 0, .brelse 1 hda 1, .bread 1 hda 1024 0 fun _ => 0, .poke 1 hda 1024 0 512 7,
      .bdirty 1 hda 0 true, .brelse 1 hda 0].foldl Image.step (fun _ _ => 0) 3 (byteOf hda 512 1 0) = 7 := by
  decide

end TextOS.Blk
