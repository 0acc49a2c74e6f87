import TextOS.Lib.TableTree
import TextOS.Lib.Word

/-!
# Mapping pages: `kernel/mm/map.c`

Physical memory is a memory of page frames with 512 entries each. The processor translates an address by a walk over
four levels of tables from the frame in `cr3`; the kernel reaches the tables the same way, through the virtual addresses
of `entryget`, which run through the entry 511 of the top table one or more times.

A function is `none` when an access faults or an `ASSERTK` fails. `pool` holds the frames `pmm_allocpages(1)` will
return, one after the other. Levels are numbered as in the source: 3 is `L_PML4`, 0 is `L_PT`. Permissions and the
caches of the processor (`invlpg`) are left out.
-/

namespace TextOS.Vmap

open Lib

/-- The entry of a frame. -/
abbrev Mem := Nat → Nat → Nat

def flag (entry : Nat) : Nat := entry % 2048

def addr (entry : Nat) : Nat := 2048 * (entry / 2048)

/-- The frame the processor finds in an entry: bits 12 to 51. -/
def frame (entry : Nat) : Nat := entry / 4096 % 2 ^ 40

/-- `PE_P`. -/
def present (entry : Nat) : Bool := entry % 2 == 1

/-- The bit that marks a large page. -/
def large (entry : Nat) : Bool := entry / 128 % 2 == 1

/-- `VRT`. -/
def vrtOf (iPML4 iPDPT iPD iPT : Nat) : Nat :=
  (if 255 < iPML4 then 0xffff000000000000 else 0) + 2 ^ 39 * (iPML4 % 512) + 2 ^ 30 * (iPDPT % 512) +
    2 ^ 21 * (iPD % 512) + 2 ^ 12 * (iPT % 512)

def idx (addr level : Nat) : Nat := addr / 2 ^ (level * 9 + 12) % 512

def entryget (addr : Nat) : Nat → Nat
  | 0 => vrtOf 511 (idx addr 3) (idx addr 2) (idx addr 1)
  | 1 => vrtOf 511 511 (idx addr 3) (idx addr 2)
  | 2 => vrtOf 511 511 511 (idx addr 3)
  | _ => vrtOf 511 511 511 511

/-! ## The processor -/

/-- The walk from the table of the given level on. -/
def mmuWalk (m : Mem) : Nat → Nat → Nat → Option Nat
  | 0, f, va => if present (m f (idx va 0)) then some (4096 * frame (m f (idx va 0)) + va % 4096) else none
  | lv + 1, f, va =>
    let e := m f (idx va (lv + 1))
    if present e then
      if lv + 1 ≠ 3 ∧ large e then
        some (4096 * (512 ^ (lv + 1) * (frame e / 512 ^ (lv + 1))) + va % 2 ^ ((lv + 1) * 9 + 12))
      else mmuWalk m lv (frame e) va
    else none

/-- The physical address of `va`. -/
def mmu (m : Mem) (cr3 va : Nat) : Option Nat := mmuWalk m 3 cr3 va

/-- Read the entry at the virtual address `va`. -/
def load (m : Mem) (cr3 va : Nat) : Option Nat := (mmu m cr3 va).map fun pa => m (pa / 4096) (pa % 4096 / 8)

/-- Write the entry at the virtual address `va`. -/
def store (m : Mem) (cr3 va v : Nat) : Option Mem := (mmu m cr3 va).map fun pa => setAt m (pa / 4096) (pa % 4096 / 8) v

/-- `memset` of the page at `va` to 0. -/
def clearPage (m : Mem) (cr3 va : Nat) : Option Mem := (mmu m cr3 va).map fun pa => fillAt m (pa / 4096) 0

/-! ## The kernel -/

structure State where
  mem : Mem
  pool : List Nat

/-- The address of the entry for `vrt` in the table of level `lv`. -/
def entryOf (vrt lv : Nat) : Nat := entryget vrt lv + 8 * idx vrt lv

/-- The part of `walk` that puts a new table behind the entry of level `lv + 1`. -/
def newTable (cr3 vrt lv : Nat) (s : State) : Option State :=
  match s.pool with
  | [] => none
  | new :: pool =>
    if new = 0 then none
    else (store s.mem cr3 (entryOf vrt (lv + 1)) (addr (4096 * new) + 3)).bind fun m =>
      (clearPage m cr3 (entryget vrt lv)).map fun m' => ⟨m', pool⟩

/-- `entry | PE_US`. -/
def orUs (entry : Nat) : Nat := if entry / 4 % 2 = 1 then entry else entry + 4

/-- The part of `walk` that opens the entry of level `lv` to user mode. -/
def markUser (cr3 vrt lv : Nat) (s : State) : Option State :=
  (load s.mem cr3 (entryOf vrt lv)).bind fun e =>
    (store s.mem cr3 (entryOf vrt lv) (orUs e)).map fun m => ⟨m, s.pool⟩

/-- `walk`: the address of the last entry for `vrt`, `none` for `NULL`. -/
def walk (cr3 vrt flgs : Nat) (create : Bool) : Nat → State → Option (Option Nat × State)
  | 0, s => some (some (entryOf vrt 0), s)
  | lv + 1, s =>
    (load s.mem cr3 (entryOf vrt (lv + 1))).bind fun e =>
      if !present e && !create then some (none, s)
      else (if present e then some s else newTable cr3 vrt lv s).bind fun s₁ =>
        (if create && flgs / 4 % 2 == 1 then markUser cr3 vrt (lv + 1) s₁ else some s₁).bind fun s₂ =>
          walk cr3 vrt flgs create lv s₂

/-- Walk to the last entry for `vrt` and write it. -/
def setEntry (cr3 vrt flgs v : Nat) (s : State) : Option State :=
  (walk cr3 vrt flgs true 3 s).bind fun r => r.1.bind fun entry =>
    (store r.2.mem cr3 entry v).map fun m => ⟨m, r.2.pool⟩

def vmapMap (cr3 flgs : Nat) : (phy vrt num : Nat) → State → Option State
  | _, _, 0, s => some s
  | phy, vrt, num + 1, s => (setEntry cr3 vrt flgs (addr phy + flag flgs) s).bind
      (vmapMap cr3 flgs (u64 (phy + 4096)) (u64 (vrt + 4096)) num)

def vmapUnmap (cr3 : Nat) : (vrt num : Nat) → State → Option State
  | _, 0, s => some s
  | vrt, num + 1, s => (setEntry cr3 vrt 0 0 s).bind (vmapUnmap cr3 (u64 (vrt + 4096)) num)

def qryWalk (m : Mem) (cr3 vrt : Nat) : Nat → Option Nat
  | 0 => (load m cr3 (entryOf vrt 0)).map fun e => if present e then addr e ||| vrt % 4096 else 0
  | lv + 1 => (load m cr3 (entryOf vrt (lv + 1))).bind fun e =>
    if !present e then some 0
    else if lv + 1 ≠ 3 ∧ large e then some (addr e ||| vrt % 2 ^ ((lv + 1) * 9 + 12))
    else qryWalk m cr3 vrt lv

def vmapQuery (m : Mem) (cr3 vrt : Nat) : Option Nat := qryWalk m cr3 vrt 3

end TextOS.Vmap
