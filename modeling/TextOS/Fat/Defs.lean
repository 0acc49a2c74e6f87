import TextOS.Lib.Blocks
import TextOS.Lib.Entries
import TextOS.Lib.Run

/-!
# A FAT32 volume: `kernel/fs/phy/fat32.c`

The file allocation table has one entry for each cluster: zero if it is free, otherwise the next cluster of the file, or
an end mark. `disk` are the sectors as the buffer cache shows them; sectors have 512 bytes (`__fs_init_fat32` takes no
others) and there are 128 entries in one. A loop without a bound gets `rounds` of them, and has no result if they do not
suffice. Directory entries are not modelled, only the clusters that `lookup_alloc` appends to a directory.
-/

namespace TextOS.Fat

open Lib Function

/-- The sectors of the volume. -/
abbrev Disk := Nat → Bytes

def EOC : Nat := 0x0FFFFFFF

def isEoc (val : Nat) : Prop := 0x0FFFFFF8 ≤ val ∧ val ≤ 0x0FFFFFFF
deriving Decidable

/-- `fat_sbi_t`; the clusters of the volume are numbered from 2 to below `clusters`. -/
structure Geo where
  secPerclst : Nat
  fatSec : Nat
  fatSiz : Nat
  dataSec : Nat
  clusters : Nat
  perclstPos : 0 < secPerclst
  clustersGe : 2 ≤ clusters
  apart : fatSec + fatSiz ≤ dataSec
  entries : clusters ≤ 128 * fatSiz
  space : dataSec + (clusters - 2) * secPerclst ≤ 2 ^ 32
  small : clusters ≤ 0x0FFFFFF8

/-- Clusters of one sector, 18 of them. -/
def tiny : Geo := ⟨1, 1, 1, 2, 20, by decide, by decide, by decide, by decide, by decide, by decide⟩

def Geo.clstSiz (g : Geo) : Nat := g.secPerclst * 512

def clst2sec (g : Geo) (clst : Nat) : Nat := ((clst + 2 ^ 32 - 2) % 2 ^ 32 * g.secPerclst + g.dataSec) % 2 ^ 32

def clst2fat (g : Geo) (clst : Nat) : Nat := (g.fatSec + clst * 4 % 2 ^ 32 / 512) % 2 ^ 32

/-- The sector that `cl_bread` reads. -/
def clSec (g : Geo) (clst off : Nat) : Nat := (clst2sec g clst + off) % 2 ^ 32

/-! ## The table -/

def getNext (g : Geo) (disk : Disk) (clst : Nat) : Nat := entry 4 (disk (clst2fat g clst)) (clst % 128)

/-- Store a table entry. -/
def setNext (g : Geo) (disk : Disk) (clst val : Nat) : Disk :=
  update disk (clst2fat g clst) (putEntry 4 (disk (clst2fat g clst)) (clst % 128) val)

def getNextTil (g : Geo) (disk : Disk) (start delta : Nat) : Nat := (getNext g disk)^[delta] start

/-- The bound for loops without one. -/
def rounds : Nat := 2 ^ 32

def allocLoop (g : Geo) (disk : Disk) : Nat → Nat → Option (Nat × Disk)
  | 0, _ => none
  | n + 1, curr =>
    if getNext g disk curr = 0 then some (curr, setNext g disk curr EOC)
    else allocLoop g disk n ((curr + 1) % 2 ^ 32)

/-- `alloc_clst`; `sec2clst(sbi, sbi->data_sec)` is 2. -/
def allocClst (g : Geo) (disk : Disk) : Option (Nat × Disk) := allocLoop g disk rounds 2

/-- `data_relse`, with the bound as the first argument. While `skip` is counted down `curr` stays the same. -/
def dataRelse (g : Geo) : Nat → Disk → Nat → Nat → Bool → Option Disk
  | 0, _, _, _, _ => none
  | n + 1, disk, curr, skip + 1, cut => dataRelse g n disk curr skip cut
  | n + 1, disk, curr, 0, cut =>
    let next := getNext g disk curr
    let disk' := setNext g disk curr (if cut then 0 else EOC)
    if isEoc next then some disk' else dataRelse g n disk' next 0 cut

/-- The first loop of `expand_to`: the last cluster and what remains of `cnt`, zero at `goto done`. -/
def expandWalk (g : Geo) (disk : Disk) (append : Bool) : Nat → Nat → Nat → Option (Nat × Nat)
  | 0, _, _ => none
  | n + 1, curr, cnt =>
    let next := getNext g disk curr
    if isEoc next then some (curr, cnt)
    else if append then expandWalk g disk append n next cnt
    else if cnt - 1 = 0 then some (next, 0)
    else expandWalk g disk append n next (cnt - 1)

/-- Clear the sectors of a cluster. -/
def clear (g : Geo) (disk : Disk) (clst : Nat) : Disk :=
  (List.range g.secPerclst).foldl (fun d soff => update d (clSec g clst soff) fun _ => 0) disk

/-- The second loop of `expand_to`; `fin` is `end`. -/
def expandLoop (g : Geo) : Nat → Disk → Nat → Nat → Nat → Option Disk
  | 0, _, _, _, _ => none
  | n + 1, disk, curr, fin, cnt =>
    let r : Disk × Nat × Nat :=
      if getNext g disk curr = 0 then (setNext g (clear g disk curr) fin curr, curr, cnt - 1) else (disk, fin, cnt)
    if r.2.2 = 0 then some (setNext g r.1 r.2.1 EOC)
    else expandLoop g n r.1 ((curr + 1) % 2 ^ 32) r.2.1 r.2.2

/-- `expand_to` behind the first cluster, which `*start` names; there are `cnt` to go. -/
def expandFrom (g : Geo) (disk : Disk) (start cnt : Nat) (append : Bool) : Option Disk :=
  if clst2sec g start < g.dataSec then none
  else
    (expandWalk g disk append rounds start cnt).bind fun r =>
      if r.2 = 0 then some disk else expandLoop g rounds disk r.1 r.1 r.2

/-- `expand_to`: the sectors and `*start`. It returns zero if it returns. -/
def expandTo (g : Geo) (disk : Disk) (start cnt : Nat) (append : Bool) : Option (Disk × Nat) :=
  if start = 0 then
    (allocClst g disk).bind fun a =>
      if cnt - 1 = 0 then some (a.2, a.1) else (expandFrom g a.2 a.1 (cnt - 1) append).map fun d => (d, a.1)
  else (expandFrom g disk start cnt append).map fun d => (d, start)

/-! ## The cache of a file -/

/-- `cache_t`: the jump table and the recently used places `(pos, clst)`; `lrucap` is their number. -/
structure Cache where
  unitclst : Nat
  jmp : Nat → Nat
  lru : List (Nat × Nat)

def cacheInit (clst : Nat) : Cache := ⟨1, fun i => if i = 0 then clst else 0, []⟩

def lruRecord (c : Cache) (pos clst : Nat) : Cache :=
  { c with lru := (pos, clst) :: if c.lru.length = 15 then c.lru.dropLast else c.lru }

/-- The search in `cache_search`: the least distance and its place. -/
def lruSearch (g : Geo) (rela : Nat) : List (Nat × Nat) → Nat → Option (Nat × Nat) → Nat × Option (Nat × Nat)
  | [], dist, srch => (dist, srch)
  | x :: lru, dist, srch =>
    if x.1 / g.clstSiz ≤ rela then
      let r := if rela - x.1 / g.clstSiz < dist then (rela - x.1 / g.clstSiz, some x) else (dist, srch)
      if r.1 = 0 then r else lruSearch g rela lru r.1 r.2
    else lruSearch g rela lru dist srch

/-- `jmp_adjust`, at most as many rounds as the first argument says. -/
def jmpAdjust : Nat → Cache → Nat → Cache × Nat
  | 0, c, idx => (c, idx)
  | n + 1, c, idx =>
    if 32 ≤ idx then
      jmpAdjust n { c with unitclst := c.unitclst * 2 % 2 ^ 32, jmp := fun i => if i < 16 then c.jmp (2 * i) else 0 }
        (idx / 2)
    else (c, idx)

/-- The last entry of the jump table up to `idx` that is filled. -/
def jmpFilled (jmp : Nat → Nat) : Nat → Nat
  | 0 => 0
  | idx + 1 => if jmp (idx + 1) = 0 then jmpFilled jmp idx else idx + 1

/-- The loop that fills the jump table up to `rela`: the cache, `cur_clst` and `cur_rela`. -/
def jmpLoop (g : Geo) (disk : Disk) (rela : Nat) : Nat → Cache → Nat → Nat → Nat → Cache × Nat × Nat
  | 0, c, _, clst, cur => (c, clst, cur)
  | n + 1, c, idx, clst, cur =>
    if rela ≤ cur + c.unitclst then (c, clst, cur)
    else
      let a := jmpAdjust (idx + 1) c (idx + 1)
      let clst' := getNextTil g disk clst a.1.unitclst
      jmpLoop g disk rela n { a.1 with jmp := update a.1.jmp a.2 clst' } a.2 clst' (cur + a.1.unitclst)

/-- The part of `cache_search` with the jump table: the cache, `cur_clst` and `cur_rela`. -/
def jmpSearch (g : Geo) (disk : Disk) (c : Cache) (rela : Nat) : Cache × Nat × Nat :=
  let idx := rela / c.unitclst
  let a := jmpAdjust idx c idx
  let i := jmpFilled a.1.jmp a.2
  jmpLoop g disk rela rela a.1 i (a.1.jmp i) (i * a.1.unitclst)

def cacheSearch (g : Geo) (disk : Disk) (c : Cache) (pos : Nat) : Cache × Nat :=
  let rela := pos / g.clstSiz
  match lruSearch g rela c.lru (2 ^ 32 - 1) none with
  | (dist, some x) =>
    if dist ≤ c.unitclst then ({ c with lru := x :: c.lru.erase x }, getNextTil g disk x.2 dist)
    else
      let r := jmpSearch g disk c rela
      let clst := getNextTil g disk r.2.1 (rela - r.2.2)
      (lruRecord r.1 pos clst, clst)
  | (_, none) =>
    let r := jmpSearch g disk c rela
    let clst := getNextTil g disk r.2.1 (rela - r.2.2)
    (lruRecord r.1 pos clst, clst)

/-! ## Reading and writing -/

/-- `node_t` with its `lookup_t`. -/
structure Node where
  parent : Nat
  siz : Nat
  clst : Nat
  cache : Cache

/-- The bytes that are copied from or to a sector. -/
def cpysiz (skip rem : Nat) : Nat := min rem (if skip ≠ 0 then 512 - skip else min rem 512)

/-- The loops of `byte_rd`: the bytes that are copied. -/
def rdLoop (g : Geo) (disk : Disk) : Nat → Nat → Nat → Nat → Nat → List UInt8
  | 0, _, _, _, _ => []
  | n + 1, curr, soff, skip, rem =>
    let cpy := cpysiz skip rem
    let bytes := readAt (disk (clSec g curr soff)) skip cpy
    if rem - cpy = 0 then bytes
    else if soff + 1 < g.secPerclst then bytes ++ rdLoop g disk n curr (soff + 1) 0 (rem - cpy)
    else
      let next := getNext g disk curr
      if isEoc next then bytes else bytes ++ rdLoop g disk n next 0 0 (rem - cpy)

/-- What a call returns, and the bytes it copies to the caller. -/
structure Reply where
  ret : Int
  buf : List UInt8
deriving DecidableEq

/-- A number as an `int`. -/
def toInt (x : Nat) : Int := Int.bmod x (2 ^ 32)

/-- `byte_rd`, which is `fat32_read`. -/
def byteRd (g : Geo) (disk : Disk) (n : Node) (rdsiz off : Nat) : Cache × Reply :=
  if rdsiz = 0 ∨ n.siz ≤ off then (n.cache, ⟨0, []⟩)
  else
    let s := cacheSearch g disk n.cache (off % 2 ^ 32)
    let real := (min n.siz ((off + rdsiz) % 2 ^ 64) + 2 ^ 64 - off) % 2 ^ 32
    (s.1, ⟨toInt real, rdLoop g disk (real + 1) s.2 (off / 512 % g.secPerclst) (off % 512) real⟩)

/-- The loops of `byte_wr`. -/
def wrLoop (g : Geo) : Nat → Disk → Nat → Nat → Nat → List UInt8 → Disk
  | 0, disk, _, _, _, _ => disk
  | n + 1, disk, curr, soff, skip, src =>
    let cpy := cpysiz skip src.length
    let sec := clSec g curr soff
    let disk' := update disk sec (writeAt (disk sec) skip (src.take cpy))
    if (src.drop cpy).length = 0 then disk'
    else if soff + 1 < g.secPerclst then wrLoop g n disk' curr (soff + 1) 0 (src.drop cpy)
    else
      let next := getNext g disk' curr
      if isEoc next then disk' else wrLoop g n disk' next 0 0 (src.drop cpy)

/-- `byte_wr`: the sectors and the cache. It returns `wrsiz`; `rem` has 32 bits. -/
def byteWr (g : Geo) (disk : Disk) (c : Cache) (src : List UInt8) (off : Nat) : Disk × Cache :=
  let s := cacheSearch g disk c (off % 2 ^ 32)
  let rem := src.length % 2 ^ 32
  (wrLoop g (rem + 1) disk s.2 (off / 512 % g.secPerclst) (off % 512) (src.take rem), s.1)

/-- `node_expand`: the sectors and the first cluster. -/
def nodeExpand (g : Geo) (disk : Disk) (this : Node) (siz : Nat) : Option (Disk × Nat) :=
  if siz ≤ g.clstSiz * ((this.siz + g.clstSiz - 1) / g.clstSiz) then some (disk, this.clst)
  else expandTo g disk this.clst ((siz + g.clstSiz - 1) / g.clstSiz) false

/-- `fat32_write` up to `node_update`: the sectors, the node and whether it has changed. -/
def fat32Write (g : Geo) (disk : Disk) (this : Node) (src : List UInt8) (off : Nat) : Option (Disk × Node × Bool) :=
  let fin := (src.length + off) % 2 ^ 64
  if this.siz ≤ fin then
    (nodeExpand g disk this fin).map fun r =>
      let w := byteWr g r.1 (if this.siz = 0 then cacheInit r.2 else this.cache) src off
      (w.1, { this with siz := fin, clst := r.2, cache := w.2 }, true)
  else
    let w := byteWr g disk this.cache src off
    some (w.1, { this with cache := w.2 }, false)

/-- `fat32_truncate` up to `node_update`. -/
def fat32Truncate (g : Geo) (disk : Disk) (this : Node) (len : Nat) : Option (Disk × Node × Bool) :=
  if len = this.siz then some (disk, this, false)
  else if this.siz < len then
    (nodeExpand g disk this len).map fun r => (r.1, { this with siz := len, clst := r.2 }, true)
  else
    (dataRelse g rounds disk this.clst ((len + g.clstSiz - 1) / g.clstSiz) (decide (len = 0))).map fun d =>
      (d, { this with siz := len }, true)

/-! ## Calls -/

/-- The files and directories of the volume, and the replies so far. -/
structure Vol where
  disk : Disk
  node : Nat → Option Node
  replies : List Reply

/-- The clusters that `lookup_alloc` appends to a directory, `k` of them. -/
def growDir (g : Geo) (disk : Disk) (clst : Nat) : Nat → Option (Disk × Nat)
  | 0 => some (disk, clst)
  | k + 1 => (expandTo g disk clst 1 true).bind fun r => growDir g r.1 r.2 k

/-- Directory entries of a node are written, for which its parent gets `k` more clusters. -/
def nodeUpdate (g : Geo) (v : Vol) (parent k : Nat) : Option Vol :=
  match v.node parent with
  | none => if k = 0 then some v else none
  | some p => (growDir g v.disk p.clst k).map fun r =>
      { v with disk := r.1, node := update v.node parent (some { p with clst := r.2 }) }

inductive Op
  /-- `create` of the node `id`; `junk` is what `malloc` returns for its cache -/
  | create (id parent : Nat) (dir : Bool) (junk : Cache) (k : Nat)
  | read (f siz off : Nat)
  | write (f : Nat) (src : List UInt8) (off k : Nat)
  | truncate (f len k : Nat)
  | remove (f : Nat)

/-- The first cluster of a new node. -/
def createClst (g : Geo) (disk : Disk) (dir : Bool) : Option (Nat × Disk) :=
  if dir then allocClst g disk else some (0, disk)

/-- One call. -/
def step (g : Geo) (v : Vol) : Op → Option Vol
  | .create id parent dir junk k =>
    (createClst g v.disk dir).bind fun a =>
      nodeUpdate g ⟨a.2, update v.node id (some ⟨parent, 0, a.1, junk⟩), v.replies ++ [⟨0, []⟩]⟩ parent k
  | .read f siz off =>
    (v.node f).map fun n =>
      let r := byteRd g v.disk n siz off
      { v with node := update v.node f (some { n with cache := r.1 }), replies := v.replies ++ [r.2] }
  | .write f src off k =>
    (v.node f).bind fun n => (fat32Write g v.disk n src off).bind fun r =>
      nodeUpdate g ⟨r.1, update v.node f (some r.2.1), v.replies ++ [⟨toInt src.length, []⟩]⟩ n.parent
        (if r.2.2 then k else 0)
  | .truncate f len k =>
    (v.node f).bind fun n => (fat32Truncate g v.disk n len).bind fun r =>
      nodeUpdate g ⟨r.1, update v.node f (some r.2.1), v.replies ++ [⟨0, []⟩]⟩ n.parent (if r.2.2 then k else 0)
  | .remove f =>
    (v.node f).bind fun n => (dataRelse g rounds v.disk n.clst 0 false).map fun d =>
      ⟨d, update v.node f none, v.replies ++ [⟨0, []⟩]⟩

end TextOS.Fat
