import TextOS.Lib.Word

/-!
# The physical page allocator: `kernel/mm/pmm.c`

The free list is a list of zones in the order of the `next` links, without the head `_free`. A function is `none` when
the kernel stops in it: a zone is read through a `NULL` link, or an `ASSERTK` fails.

`alloc`, `alloc0`, `delete` and `delete0` are the functions in force after `__pmm_tovmm`: `alloc` keeps the node where
it is and `alloc0` takes a new one from the kernel heap. Pages are freed by `vmm_ppg_unref` and `clear` only, long
after that switch. For `pmm_allocpages` the early functions, which keep a zone's node in its first page, give the same
zones.
-/

namespace TextOS.Pmm

open Lib

/-- `free_t`: `pages` pages from `addr` on. -/
structure Zone where
  pages : Nat
  addr : Nat
deriving DecidableEq, Repr

/-- The end of the zone, `n->addr + n->pages * PAGE_SIZ`. -/
def Zone.stop (z : Zone) : Nat := z.addr + 4096 * z.pages

/-- The list behind `_free.next` and the counter `page_free`. -/
structure State where
  free : List Zone
  pageFree : Nat
deriving DecidableEq, Repr

/-- The `do … while (n->next)` of `pmm_allocpages`: the page found (0 if none) and the new list. -/
def allocLoop (num : Nat) : List Zone → Option (Nat × List Zone)
  | [] => none
  | n :: rest =>
    if num ≤ n.pages then
      if n.pages - num = 0 then some (n.addr, rest)
      else some (n.addr, ⟨n.pages - num, u64 (n.addr + 4096 * num)⟩ :: rest)
    else match rest with
      | [] => some (0, [n])
      | _ :: _ => (allocLoop num rest).map fun r => (r.1, n :: r.2)

/-- `pmm_allocpages`; `page_free` is only lowered when the page found is not 0. -/
def pmmAllocpages (p : State) (num : Nat) : Option (Nat × State) :=
  (allocLoop num p.free).map fun r =>
    (r.1, ⟨r.2, if r.1 = 0 then p.pageFree else u64 (p.pageFree + 2 ^ 64 - num)⟩)

/-- `_pmm_isfree`: does some zone meet the pages from `start` to `stop`? -/
def pmmIsfree (start stop : Nat) : List Zone → Option Bool
  | [] => none
  | n :: rest =>
    if max n.addr start < min (u64 n.stop) stop then some true
    else match rest with
      | [] => some false
      | _ :: _ => pmmIsfree start stop rest

/-- The `do … while (n->next)` of `pmm_freepages`. -/
def freeLoop (start stop num : Nat) : List Zone → Option (List Zone)
  | [] => none
  | n :: rest =>
    if n.addr = stop then some (⟨u64 (n.pages + num), start⟩ :: rest)
    else if u64 n.stop = start then some (⟨u64 (n.pages + num), n.addr⟩ :: rest)
    else if u64 n.stop < start ∧ (∀ m ∈ rest.head?, stop < m.addr) then some (n :: ⟨num, start⟩ :: rest)
    else match rest with
      | [] => some [n]
      | _ :: _ => (freeLoop start stop num rest).map (n :: ·)

def pmmFreepages (p : State) (page num : Nat) : Option State :=
  let stop := u64 (page + 4096 * num)
  if page % 4096 = 0 ∧ pmmIsfree page stop p.free = some false then
    (freeLoop page stop num p.free).map fun l => ⟨l, u64 (p.pageFree + num)⟩
  else none

end TextOS.Pmm
