import TextOS.Lib.Keyed
import TextOS.Mman.Space

/-!
# Sharing pages between tasks: `kernel/mm/mman/ppg.c`, `vma.c`, `kernel/mm/fault.c`, `map.c`

A task is seen through its address space: its page table and its areas. Addresses are page numbers. A page table is the
frame of its top table, the frames of its other tables (the table of level `l` on the way to page `v` has the key
`(l, v / 512 ^ l)`), and the entries for the pages of the user half.

Every area has a table of page records (`vm_ppg_t`), and the tables form chains through their parents: `vmm_ppg_new` is
the only place where the records of another area are counted, and it counts those of one table only.

`alloc` holds the pages that are allocated. The page `pmm_allocpages(1)` returns is a parameter of each step; it is one
that is not allocated. Every call of `pmm_freepages` is logged, with the answer to two questions: was the page
allocated, and does a task go on using it. A function is `none` when an assertion fails or no page is left.
-/

namespace TextOS.Cow

open Lib Function

/-- `vm_ppgrec_t`. -/
structure Rec where
  pa : Nat
  refcnt : Nat
  fixed : Bool
deriving DecidableEq

/-- `vm_ppg_t`; the hash table as the list of its records, the newest first. -/
structure Ppg where
  parent : Option Nat
  ht : List Rec

/-- `vm_area_t` with its table of records. -/
structure Vma extends Mman.Area where
  ppgs : Nat

/-- An entry of a page table. -/
structure Entry where
  pa : Nat
  rw : Bool
deriving DecidableEq

/-- An address space: a page table and areas. -/
structure Space where
  root : Nat
  tables : List ((Nat × Nat) × Nat)
  ents : List (Nat × Entry)
  areas : List Vma

/-- A call of `pmm_freepages`. -/
structure Free where
  pa : Nat
  allocated : Bool
  used : Bool
deriving DecidableEq

structure State where
  spaces : List (Option Space)
  ppgs : Nat → Ppg
  next : Nat
  mem : Nat → Nat → Nat
  alloc : List Nat
  log : List Free

namespace Space

/-- The frames of the tables. -/
def frames (sp : Space) : List Nat := sp.root :: sp.tables.map Prod.snd

/-- The pages that are mapped. -/
def pages (sp : Space) : List Nat := sp.ents.map fun x => x.2.pa

/-- The page is mapped. -/
def maps (sp : Space) (pa : Nat) : Bool := pa ∈ sp.pages

/-- `vmap_query`, with the flags of the entry. -/
def query (sp : Space) (v : Nat) : Option Entry := (sp.ents.find? fun x => x.1 == v).map Prod.snd

/-- The area of a page. -/
def areaOf (sp : Space) (v : Nat) : Option Vma := sp.areas.find? fun a => a.s ≤ v ∧ v < a.t

/-- Remove the entry for a page. -/
def unset (sp : Space) (v : Nat) : Space := { sp with ents := sp.ents.filter fun x => x.1 != v }

/-- Write the entry for a page. -/
def set (sp : Space) (v : Nat) (e : Entry) : Space :=
  { sp with ents := (v, e) :: sp.ents.filter fun x => x.1 != v }

end Space

namespace State

/-- The address space `s`. -/
def space (st : State) (s : Nat) : Option Space := st.spaces[s]?.join

def setSpace (st : State) (s : Nat) (sp : Space) : State := { st with spaces := st.spaces.set s (some sp) }

def setPpg (st : State) (p : Nat) (ppg : Ppg) : State := { st with ppgs := update st.ppgs p ppg }

/-- The page is a table or a mapped page of an address space other than `s`. -/
def usedOutside (st : State) (s pa : Nat) : Bool :=
  (st.spaces.zipIdx.any fun x => x.2 != s && x.1.any fun sp => pa ∈ sp.frames || sp.maps pa)

/-- `pmm_allocpages(1)` returns `pg`. -/
def take (st : State) (pg : Nat) : Option State :=
  if pg = 0 ∨ pg ∈ st.alloc then none else some { st with alloc := pg :: st.alloc }

/-- `pmm_freepages(pa, 1)`. -/
def free (st : State) (pa : Nat) (used : Bool) : State :=
  { st with alloc := st.alloc.erase pa, log := ⟨pa, pa ∈ st.alloc, used⟩ :: st.log }

end State

/-! ## Page records -/

/-- Change the record of a page in a table. -/
def setRec (st : State) (p pa : Nat) (f : Rec → Rec) : State :=
  st.setPpg p { st.ppgs p with ht := updFirst (fun r => r.pa == pa) f (st.ppgs p).ht }

/-- Remove the record of a page from a table: `hlist_del`. -/
def delRec (st : State) (p pa : Nat) : State :=
  st.setPpg p { st.ppgs p with ht := (st.ppgs p).ht.eraseP fun r => r.pa == pa }

/-- Add a record to a table: `htable_add`. -/
def addRec (st : State) (p : Nat) (r : Rec) : State := st.setPpg p { st.ppgs p with ht := r :: (st.ppgs p).ht }

/-- `record->refcnt += 1`. -/
def Rec.inc (r : Rec) : Rec := { r with refcnt := r.refcnt + 1 }

/-- `record->refcnt -= 1`. -/
def Rec.dec (r : Rec) : Rec := { r with refcnt := if r.refcnt = 0 then 2 ^ 64 - 1 else r.refcnt - 1 }

/-- `vmm_ppg_new`: the number of the new table. -/
def vmmPpgNew (st : State) (old : Option Nat) : Nat × State :=
  let st₁ := match old with
    | some p => st.setPpg p { st.ppgs p with ht := (st.ppgs p).ht.map Rec.inc }
    | none => st
  (st.next, { st₁.setPpg st.next ⟨old, []⟩ with next := st.next + 1 })

def vmmPpgRegst (st : State) (p pa : Nat) : State := addRec st p ⟨pa, 1, false⟩

/-- `vmm_ppg_reparent`: move a record from the table `q` to the table `p`. -/
def vmmPpgReparent (st : State) (q : Nat) (r : Rec) (p : Nat) : State := addRec (delRec st q r.pa) p r

/-- The loop of `vmm_ppg_query`: the record and the table it is in. -/
def queryFrom (st : State) (pa : Nat) : Nat → Option Nat → Option (Nat × Rec)
  | 0, _ => none
  | _ + 1, none => none
  | n + 1, some p =>
    match (st.ppgs p).ht.find? fun r => r.pa == pa with
    | some r => some (p, r)
    | none => queryFrom st pa n (st.ppgs p).parent

/-- `vmm_ppg_query`; a parent is older than its child, so that a chain is never longer than the number of tables. -/
def vmmPpgQuery (st : State) (p pa : Nat) : Option (Nat × Rec) := queryFrom st pa st.next (some p)

/-- `vmm_ppg_unref` for the record of a page in the table `q`; whether the record is gone. -/
def vmmPpgUnref (st : State) (q pa : Nat) (used : Bool) : State × Bool :=
  let st₁ := setRec st q pa Rec.dec
  match (st₁.ppgs q).ht.find? fun r => r.pa == pa with
  | some r => if r.refcnt = 0 ∧ r.fixed = false then (delRec (st₁.free pa used) q pa, true) else (st₁, false)
  | none => (st₁, false)

/-! ## Page tables -/

/-- The part of `walk` that creates the tables on the way to page `v`, from the given levels; `fs` are the pages that
`pmm_allocpages` returns. -/
def walkTables (s v : Nat) : List Nat → List Nat → State → Option (State × List Nat)
  | [], fs, st => some (st, fs)
  | l :: ls, fs, st =>
    (st.space s).bind fun sp =>
      if (l, v / 512 ^ l) ∈ sp.tables.map Prod.fst then walkTables s v ls fs st
      else match fs with
        | [] => none
        | f :: fs => (st.take f).bind fun st₁ =>
          walkTables s v ls fs (st₁.setSpace s { sp with tables := ((l, v / 512 ^ l), f) :: sp.tables })

/-- Walk to the entry for page `v` and change it. -/
def vmapEdit (st : State) (s v : Nat) (fs : List Nat) (edit : Space → Space) : Option (State × List Nat) :=
  (walkTables s v [3, 2, 1] fs st).bind fun r => (r.1.space s).map fun sp => (r.1.setSpace s (edit sp), r.2)

/-- `vmap_map` of one page. -/
def vmapMap (st : State) (s v : Nat) (e : Entry) (fs : List Nat) : Option (State × List Nat) :=
  vmapEdit st s v fs fun sp => sp.set v e

/-- `vmap_unmap` of one page. -/
def vmapUnmap (st : State) (s v : Nat) (fs : List Nat) : Option (State × List Nat) :=
  vmapEdit st s v fs fun sp => sp.unset v

/-! ## Faults -/

/-- `PROT_WRITE`. -/
def Vma.writable (a : Vma) : Bool := a.prot / 2 % 2 == 1

/-- `MAP_ANON`. -/
def Vma.anon (a : Vma) : Bool := a.flgs / 32 % 2 == 1

/-- The first access to a page: `pg` is the new page, `data` what is read into it from a file. -/
def touch (st : State) (s v : Nat) (a : Vma) (pg : Nat) (data : Option (Nat → Nat)) (fs : List Nat) : Option State :=
  (st.take pg).bind fun st₁ =>
    (vmapMap { st₁ with mem := update st₁.mem pg (data.getD (st₁.mem pg)) } s v ⟨pg, a.writable⟩ fs).map
      fun r => vmmPpgRegst r.1 a.ppgs pg

/-- The `PF_WRITE` branch of `pagefault_handler`. -/
def copyOnWrite (st : State) (s v : Nat) (a : Vma) (e : Entry) (pg : Nat) (fs : List Nat) : Option State :=
  match vmmPpgQuery st a.ppgs e.pa with
  | none => none
  | some (q, r) =>
    if r.refcnt = 1 then
      (vmapMap st s v ⟨e.pa, true⟩ fs).map fun x => vmmPpgReparent x.1 q r a.ppgs
    else
      ((setRec st q e.pa Rec.dec).take pg).bind fun st₁ =>
        (vmapMap (vmmPpgRegst { st₁ with mem := update st₁.mem pg (st₁.mem e.pa) } a.ppgs pg) s v
          ⟨pg, true⟩ fs).map Prod.fst

/-- `pagefault_handler`. Without a branch to take, the task gets `SIGSEGV`. -/
def pagefaultHandler (st : State) (s v : Nat) (write : Bool) (pg : Nat) (data : Nat → Nat) (fs : List Nat) :
    Option State :=
  (st.space s).bind fun sp =>
    match sp.areaOf v, sp.query v with
    | none, _ => some st
    | some a, none =>
      if a.label = .file then touch st s v a pg (some data) fs
      else if a.anon then touch st s v a pg none fs
      -- `ASSERTK(ppg != 0)`
      else if write && a.writable then none
      else some st
    | some a, some e => if write && a.writable then copyOnWrite st s v a e pg fs else some st

/-- An access by the task: the processor raises a fault if the page is not there or must not be written. -/
def access (st : State) (s v : Nat) (write : Bool) (pg : Nat) (data : Nat → Nat) (fs : List Nat) : Option State :=
  (st.space s).bind fun sp =>
    match sp.query v with
    | none => pagefaultHandler st s v write pg data fs
    | some e => if write && !e.rw then pagefaultHandler st s v write pg data fs else some st

/-- A store through an entry that allows it. -/
def store (st : State) (s v off b : Nat) : Option State :=
  (st.space s).bind fun sp =>
    match sp.query v with
    | some e =>
      if e.rw then some { st with mem := update st.mem e.pa (update (st.mem e.pa) off b) } else none
    | none => none

/-- What a task reads. -/
def read (st : State) (s v off : Nat) : Option Nat :=
  (st.space s).bind fun sp => (sp.query v).map fun e => st.mem e.pa off

/-! ## `fork` -/

/-- The tables of a copy of a page table. -/
def copyTables : List ((Nat × Nat) × Nat) → List Nat → State → Option (List ((Nat × Nat) × Nat) × State)
  | [], _, st => some ([], st)
  | _ :: _, [], _ => none
  | t :: ts, f :: fs, st =>
    (st.take f).bind fun st₁ => (copyTables ts fs st₁).map fun r => ((t.1, f) :: r.1, r.2)

/-- The areas of `vmm_new_space(old)`: each one a copy with a new table of records (`vmm_new_vma`). -/
def newVmas : List Vma → State → List Vma × State
  | [], st => ([], st)
  | a :: as, st =>
    let r := vmmPpgNew st (some a.ppgs)
    let rest := newVmas as r.2
    ({ a with ppgs := r.1 } :: rest.1, rest.2)

/-- An entry of both page tables after `copy_pgt`. -/
def readOnly (x : Nat × Entry) : Nat × Entry := (x.1, { x.2 with rw := false })

/-- `fork_pgt`: `copy_pgt`, then `vmm_new_space`. The child gets the next number. -/
def fork (st : State) (s root : Nat) (fs : List Nat) : Option State :=
  (st.space s).bind fun sp =>
    (st.take root).bind fun st₁ =>
      (copyTables sp.tables fs st₁).map fun t =>
        let ents := sp.ents.map readOnly
        let r := newVmas sp.areas (t.2.setSpace s { sp with ents })
        { r.2 with spaces := r.2.spaces ++ [some ⟨root, t.1, ents, r.1⟩] }

/-! ## `munmap` -/

/-- `unmap` of a page of an area with the table of records `p`. A page goes on being used if it is mapped anywhere else.
-/
def unmap (st : State) (s p v : Nat) (fs : List Nat) : Option (State × List Nat) :=
  (st.space s).bind fun sp =>
    let pa := ((sp.query v).map Entry.pa).getD 0
    let used := st.usedOutside s pa || (sp.unset v).maps pa || decide (pa ∈ sp.frames)
    match vmmPpgQuery st p pa with
    | some (q, _) => vmapUnmap (vmmPpgUnref st q pa used).1 s v fs
    | none => vmapUnmap st s v fs

/-- `unmap` of several pages. -/
def unmapPages (s p : Nat) : List Nat → List Nat → State → Option (State × List Nat)
  | [], fs, st => some (st, fs)
  | v :: vs, fs, st => (unmap st s p v fs).bind fun r => unmapPages s p vs r.2 r.1

/-- What `munmap` leaves of an area. -/
def cutArea (st : State) (s : Nat) (a : Vma) (askStart askEnd : Nat) (fs : List Nat) :
    Option (List Vma × State × List Nat) :=
  let covStart := max a.s askStart
  let covEnd := min a.t askEnd
  if covStart < covEnd then
    (unmapPages s a.ppgs (List.range' covStart (covEnd - covStart)) fs st).map fun r =>
      if a.s < askStart ∧ askEnd < a.t then
        let x := vmmPpgNew r.1 (some a.ppgs)
        ([⟨a.endAt askStart, a.ppgs⟩, ⟨a.startAt askEnd, x.1⟩], x.2, r.2)
      else if covStart = a.s ∧ a.t = covEnd then ([], r.1, r.2)
      else if a.s = covStart then ([⟨a.startAt covEnd, a.ppgs⟩], r.1, r.2)
      else ([⟨a.endAt covStart, a.ppgs⟩], r.1, r.2)
  else some ([a], st, fs)

/-- What `munmap` leaves of the areas. -/
def cutAreas (s askStart askEnd : Nat) : List Vma → List Nat → State → Option (List Vma × State)
  | [], _, st => some ([], st)
  | a :: as, fs, st =>
    (cutArea st s a askStart askEnd fs).bind fun r =>
      (cutAreas s askStart askEnd as r.2.2 r.2.1).map fun rest => (r.1 ++ rest.1, rest.2)

/-- `munmap` of the pages from `askStart` to `askEnd`. -/
def munmap (st : State) (s askStart askEnd : Nat) (fs : List Nat) : Option State :=
  (st.space s).bind fun sp =>
    if askEnd ≤ askStart then some st
    else (cutAreas s askStart askEnd sp.areas fs st).bind fun r =>
      (r.2.space s).map fun sp' => r.2.setSpace s { sp' with areas := r.1 }

/-! ## `execve` -/

/-- The areas of a new program, in order. -/
structure Image where
  areas : List Mman.Area
  ordered : Ordered Mman.Area.s Mman.Area.t areas

def newAreas : List Mman.Area → State → List Vma × State
  | [], st => ([], st)
  | a :: as, st =>
    let r := vmmPpgNew st none
    let rest := newAreas as r.2
    (⟨a, r.1⟩ :: rest.1, rest.2)

/-- The first half of `execve`: `new_pgt`, `vmm_new_space(0)` and the areas of the program. -/
def enter (st : State) (image : Image) (root : Nat) : Option State :=
  (st.take root).map fun st₁ =>
    let r := newAreas image.areas st₁
    { r.2 with spaces := r.2.spaces ++ [some ⟨root, [], [], r.1⟩] }

/-- The records of a bucket in `vmm_ppg_clear`; a record that is gone ends the bucket (`hlist_del` clears its `next`).
-/
def clearBucket (s p : Nat) : List Rec → State → State
  | [], st => st
  | r :: rs, st =>
    let x := vmmPpgUnref st p r.pa (st.usedOutside s r.pa)
    if x.2 then x.1 else clearBucket s p rs x.1

/-- The hash table in `vmm_ppg_clear`, bucket by bucket. -/
def clearHt (s p : Nat) (st : State) : State :=
  (List.range 32).foldl (fun st i => clearBucket s p ((st.ppgs p).ht.filter fun r => r.pa % 32 == i) st) st

/-- The length of a chain. -/
def chainLen (st : State) : Nat → Option Nat → Nat
  | 0, _ => 0
  | _ + 1, none => 0
  | n + 1, some p => 1 + chainLen st n (st.ppgs p).parent

/-- `vmm_ppg_clear`, which goes over the first table of the chain once for every table in it. -/
def vmmPpgClear (s p : Nat) (st : State) : State := (clearHt s p)^[chainLen st st.next (some p)] st

/-- `clear_pgt`: the mapped pages, the tables and the top table are freed. -/
def clearPgt (s : Nat) (sp : Space) (st : State) : State :=
  (sp.pages ++ sp.tables.map Prod.snd ++ [sp.root]).foldl (fun st pa => st.free pa (st.usedOutside s pa)) st

/-- The second half of `execve`: `clear_pgt` and `vmm_free_space` of the old address space. -/
def leave (st : State) (s : Nat) : Option State :=
  (st.space s).map fun sp =>
    let st₁ := sp.areas.foldl (fun st a => vmmPpgClear s a.ppgs st) (clearPgt s sp st)
    { st₁ with spaces := st₁.spaces.set s none }

/-- The second half of `execve` for a task that `task_create` made, as the first task at boot: its page table is
`get_kppgt()`, on which the other tasks of the kernel and the other processors run. `low` are the pages and the tables
of its lower half; the task has no areas. -/
def leaveKernel (st : State) (kppgt : Nat) (low : List Nat) : State :=
  (low ++ [kppgt]).foldl (fun st pa => st.free pa true) st

/-! ## Steps -/

inductive Op where
  | enter (image : Image) (root : Nat)
  | leave (s : Nat)
  | fork (s root : Nat) (fs : List Nat)
  | access (s v : Nat) (write : Bool) (pg : Nat) (data : Nat → Nat) (fs : List Nat)
  | store (s v off b : Nat)
  | munmap (s askStart askEnd : Nat) (fs : List Nat)

def step (st : State) : Op → Option State
  | .enter image root => enter st image root
  | .leave s => leave st s
  | .fork s root fs => fork st s root fs
  | .access s v write pg data fs => access st s v write pg data fs
  | .store s v off b => store st s v off b
  | .munmap s askStart askEnd fs => munmap st s askStart askEnd fs

/-- A step of a program, or the end of the first `execve` of a task that `task_create` made. -/
inductive Act where
  | program (o : Op)
  | leaveKernel (kppgt : Nat) (low : List Nat)

def act (st : State) : Act → Option State
  | .program o => step st o
  | .leaveKernel kppgt low => some (leaveKernel st kppgt low)

/-- No program yet: all tasks run on the page table of the kernel. The memory has any contents. -/
def State.init (mem : Nat → Nat → Nat) : State := ⟨[], fun _ => ⟨none, []⟩, 0, mem, [], []⟩

end TextOS.Cow
