import TextOS.Lib.Bytes
import TextOS.Lib.Word

/-!
# The kernel heap: `kernel/mm/heap.c`

A block is a header word, a payload and a footer word; header and footer hold eight times the size of the block
(both words included) plus one if the block is allocated. The blocks lie one behind the other from `_heap.root` on, and
a header of size 0 at `_heap.brk` ends them.

`vmm_phyauto`, which backs new heap pages with memory, is taken to succeed; what the new pages contain is left open, as
the whole memory before `heap_init` is. Sizes wrap as they do in the source; addresses are natural numbers and do not
wrap. A function is `none` when an `ASSERTK` fails. The search of `malloc` is a loop
without a bound: `iterate s n` performs `n` rounds of it, and `malloc n` is the call given at most `n` rounds.
-/

namespace TextOS.Heap

open Lib

def kernHeapBase : Nat := 0xffff810000000000

/-- `_heap` and the memory it points to. `log` lists the addresses of the words written, newest first, each with the
value of `_heap.max` at that time. -/
structure State where
  mem : Bytes
  brk : Nat
  root : Nat
  max : Nat
  log : List (Nat × Nat)

def siz (blk : Nat) : Nat := blk / 8

def aloc (blk : Nat) : Bool := blk % 2 == 1

def set (siz : Nat) (aloc : Bool) : Nat := 8 * siz + aloc.toNat

/-- `_ALIGN(num, 8)`, in 64-bit arithmetic. -/
def align (num : Nat) : Nat := u64 (num + 7) / 8 * 8

/-- `SIZ(..) - 4`, in 32-bit arithmetic. -/
def ftrOff (siz : Nat) : Nat := u32 (siz + 2 ^ 32 - 4)

/-- `*(block_t *)addr`. -/
def State.get (h : State) (addr : Nat) : Nat := word h.mem addr

def State.put (h : State) (addr var : Nat) : State :=
  { h with mem := putWord h.mem addr var, log := (addr, h.max) :: h.log }

/-- `heap_init`, over a memory with arbitrary contents. -/
def heapInit (m : Bytes) : State :=
  let h : State := ⟨m, kernHeapBase + 12, kernHeapBase + 12, kernHeapBase + 4096, []⟩
  (((h.put kernHeapBase (set 0 false)).put (kernHeapBase + 4) (set 8 true)).put (kernHeapBase + 8) (set 8 true)).put
    (kernHeapBase + 12) (set 0 true)

/-- The first half of `_merge`: take in the block behind, if it is free. -/
def mergeNext (h : State) (hdr : Nat) : Option State :=
  let nextHdr := hdr + siz (h.get hdr) - 4 + 4
  if aloc (h.get nextHdr) = false ∧ siz (h.get nextHdr) ≠ 0 then
    let nextFtr := nextHdr + ftrOff (siz (h.get nextHdr))
    if h.get nextHdr = h.get nextFtr then
      let h₁ := h.put hdr (set (siz (h.get hdr) + siz (h.get nextHdr)) false)
      some (h₁.put nextFtr (h₁.get hdr))
    else none
  else some h

/-- The second half of `_merge`: be taken in by the block before, if it is free. -/
def mergePrev (h : State) (hdr : Nat) : Option State :=
  let prevFtr := hdr - 4
  if aloc (h.get prevFtr) = false ∧ siz (h.get prevFtr) ≠ 0 then
    let prevHdr := hdr - siz (h.get prevFtr)
    if h.get prevHdr = h.get prevFtr then
      let h₁ := h.put prevHdr (set (siz (h.get prevHdr) + siz (h.get hdr)) false)
      some (h₁.put (prevHdr + ftrOff (siz (h₁.get prevHdr))) (h₁.get prevHdr))
    else none
  else some h

def merge (h : State) (hdr : Nat) : Option State := (mergeNext h hdr).bind fun h₁ => mergePrev h₁ hdr

/-- The part of `_extend_heap` that moves `_heap.max`: `diff`, a signed 64-bit number, is positive. -/
def growMax (h : State) (siz : Nat) : Nat :=
  let diff := u64 (h.brk + siz + 2 ^ 64 - h.max)
  if 0 < diff ∧ diff < 2 ^ 63 then h.max + (diff + 4095) / 4096 * 4096 else h.max

/-- `_extend_heap`, with `sbrk` in line: the old end becomes the header of a new free block. -/
def extendHeap (h : State) (size : Nat) : Option State :=
  let size := align size
  let h₁ := { h with max := growMax h size, brk := u64 (h.brk + align size) }
  let hdr := h₁.brk - size
  let h₂ := ((h₁.put hdr (set size false)).put (hdr + size - 4) (set size false)).put (hdr + size) (set 0 true)
  merge h₂ hdr

/-- A round of the search: it goes on at `curr`, or returns a payload. -/
inductive Round
  | loop (h : State) (curr : Nat)
  | ret (p : Nat) (h : State)

/-- The block at `curr` is larger than needed: its front is allocated, the rest stays free. -/
def takeFront (h : State) (curr size : Nat) : State :=
  let h₁ := h.put (curr + ftrOff (siz (h.get curr))) (set (siz (h.get curr) - size) false)
  let h₂ := h₁.put (curr + size) (set (siz (h₁.get curr) - size) false)
  (h₂.put curr (set size true)).put (curr + size - 4) (set size true)

/-- The block at `curr` fits exactly. -/
def takeAll (h : State) (curr size : Nat) : State :=
  let h₁ := h.put curr (set size true)
  h₁.put (curr + ftrOff (siz (h₁.get curr))) (h₁.get curr)

/-- One round of the `for (;;)` of `malloc`. -/
def mallocRound (size : Nat) (h : State) (curr : Nat) : Option Round :=
  if aloc (h.get curr) = false ∧ size < siz (h.get curr) then some (.ret (curr + 4) (takeFront h curr size))
  else if aloc (h.get curr) = false ∧ siz (h.get curr) = size then some (.ret (curr + 4) (takeAll h curr size))
  else if curr + siz (h.get curr) < h.brk then some (.loop h (curr + siz (h.get curr)))
  else (extendHeap h size).map fun h' => .loop h' curr

/-- `n` rounds of the search. -/
def iterate (size : Nat) : Nat → State → Nat → Option Round
  | 0, h, curr => some (.loop h curr)
  | n + 1, h, curr =>
    match mallocRound size h curr with
    | some (.loop h' curr') => iterate size n h' curr'
    | r => r

/-- The size of the block for a request, `_ALIGN(siz + sizeof(block_t) * 2, 8)`. -/
def blockSiz (req : Nat) : Nat := align (u64 (req + 8))

/-- `malloc` given at most `n` rounds: the pointer (0 for `NULL`) and the heap. -/
def malloc (n : Nat) (h : State) (req : Nat) : Option (Nat × State) :=
  if req = 0 then some (0, h)
  else match iterate (blockSiz req) n h h.root with
    | some (.ret p h') => some (p, h')
    | _ => none

def calloc (n : Nat) (h : State) (req : Nat) : Option (Nat × State) :=
  (malloc n h req).map fun r =>
    if r.1 = 0 then r
    else (r.1, { r.2 with mem := fun x => if r.1 ≤ x ∧ x < r.1 + req then 0 else r.2.mem x })

def free (h : State) (addr : Nat) : Option State :=
  if addr = 0 ∨ h.max < addr then some h
  else
    let hdr := addr - 4
    let ftr := hdr + siz (h.get hdr) - 4
    if h.get hdr ≠ h.get ftr then some h
    else if aloc (h.get hdr) = false then none
    else
      let h₁ := h.put hdr (set (siz (h.get hdr)) false)
      merge (h₁.put ftr (set (siz (h₁.get ftr)) false)) hdr

end TextOS.Heap
