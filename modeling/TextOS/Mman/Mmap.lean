import TextOS.Lib.Run
import TextOS.Mman.Munmap

/-!
# `mmap` and the runs of a task: `kernel/mm/mman/mman.c`, `anon.c`, `fitter.c`

A task performs `mmap` and `munmap` one after the other, starting with an empty space. Nothing checks that the range a
new area gets is free: `Fits` is the condition under which it is.

- **As long as the calls fit, the areas are disjoint and sorted, and every call returns** (`space_wf`); `space_broken`
  shows what happens to calls that do not fit.
-/

namespace TextOS.Mman

open Lib BinTree

/-- What `node->opts->mmap` is: `vfs_generic_mmap`, `fbdev_mmap` or a function that only returns a value. -/
inductive Node where
  | regular (id : Nat)
  | fbdev
  | other (ret : Int)

/-- `task_t`: the next address to choose, the address space, and the nodes of the open files. -/
structure Task where
  mmap : Nat
  sp : Space
  files : Nat → Option Node

/-- `vm_region_t`. -/
structure Region where
  va : Nat
  num : Nat
  prot : Nat
  flgs : Nat
  foff : Nat
  fnode : Option Node

/-- The arguments of `mmap`. -/
structure Args where
  addr : Nat
  len : Nat
  prot : Nat
  flgs : Nat
  fd : Int
  off : Nat
  len_lt : len < 2 ^ 64 := by decide

namespace Args

/-- `DIV_ROUND_UP(len, PAGE_SIZ)`. -/
def num (a : Args) : Nat := u64 (a.len + 4095) / 4096

/-- `MAP_FIXED`. -/
def fixed (a : Args) : Bool := a.flgs / 16 % 2 == 1

/-- `MAP_ANON`. -/
def anon (a : Args) : Bool := a.flgs / 32 % 2 == 1

end Args

def vmmFitaddr (num : Nat) (tsk : Task) : Nat × Task :=
  (tsk.mmap, { tsk with mmap := u64 (tsk.mmap + 4096 * (num + 1)) })

/-- A new area for the region, registered. -/
def newArea (n : Nat) (label : Label) (foff : Nat) (node : Option Nat) (vm : Region) (tsk : Task) :
    Except Stop (Int × Task) :=
  let area := ⟨vm.va, u64 (vm.va + 4096 * vm.num), vm.flgs, vm.prot, label, foff, node⟩
  (vmmSpRegst n tsk.sp.next (tsk.sp.alloc area)).map fun sp => ((vm.va : Int), { tsk with sp })

def mmapAnon (n : Nat) (vm : Region) (label : Label) (tsk : Task) : Except Stop (Int × Task) :=
  newArea n label 0 none vm tsk

def vfsGenericMmap (n id : Nat) (vm : Region) (tsk : Task) : Except Stop (Int × Task) :=
  newArea n .file vm.foff (some id) vm tsk

/-- `fbdev_mmap`, which registers no area. -/
def fbdevMmap (vm : Region) (tsk : Task) : Int × Task :=
  if vm.prot / 4 % 2 = 1 then (einval, tsk)
  else if vm.flgs / 16 % 2 = 1 then (vm.va, tsk)
  else (tsk.mmap, { tsk with mmap := u64 (tsk.mmap + 4096 * vm.num) })

def mmapFile (n : Nat) (vm : Region) (tsk : Task) : Except Stop (Int × Task) :=
  match vm.fnode with
  | none => .error .null
  | some (.regular id) => vfsGenericMmap n id vm tsk
  | some .fbdev => .ok (fbdevMmap vm tsk)
  | some (.other ret) => .ok (ret, tsk)

/-- The node `mmap` finds for its file descriptor. -/
def fdNode (tsk : Task) (fd : Int) : Option Node := if 0 ≤ fd then tsk.files fd.toNat else none

/-- The end of `mmap`, once the address is chosen. -/
def mmapAt (n : Nat) (a : Args) (va : Nat) (tsk : Task) : Except Stop (Int × Task) :=
  let vm := ⟨va, a.num, a.prot, a.flgs, a.off, fdNode tsk a.fd⟩
  if a.anon then
    if a.fd ≠ -1 ∨ a.off ≠ 0 then .ok (einval, tsk) else mmapAnon n vm .user tsk
  else mmapFile n vm tsk

def mmap (n : Nat) (junk : Nat × Nat) (a : Args) (tsk : Task) : Except Stop (Int × Task) :=
  if a.flgs % 16 = 0 then .ok (einval, tsk)
  else if 32 ≤ a.fd then .ok (-9, tsk)
  else if a.num = 0 ∨ a.addr % 4096 ≠ 0 ∨ a.off % 4096 ≠ 0 then .ok (einval, tsk)
  else if a.fixed then
    (munmap n junk a.addr a.len tsk.sp).bind fun r => mmapAt n a a.addr { tsk with sp := r.2 }
  else mmapAt n a (vmmFitaddr a.num tsk).1 (vmmFitaddr a.num tsk).2

/-! ## Runs -/

inductive Call where
  | mmap (a : Args)
  | munmap (addr len : Nat)

/-- A call, with what `munmap` may read before the head of the list. -/
def perform (n : Nat) (junk : Nat × Nat) (c : Call) (tsk : Task) : Except Stop Task :=
  match c with
  | .mmap a => (mmap n junk a tsk).map Prod.snd
  | .munmap addr len => (munmap n junk addr len tsk.sp).map fun r => { tsk with sp := r.2 }

structure Op where
  rounds : Nat
  junk : Nat × Nat
  call : Call

def step (tsk : Task) (o : Op) : Option Task := (perform o.rounds o.junk o.call tsk).toOption

/-- A task with an empty space. -/
def Task.init (mmap : Nat) (files : Nat → Option Node) : Task :=
  ⟨mmap, ⟨fun _ => ⟨0, 0, 0, 0, .user, 0, none⟩, 0, [], nil⟩, files⟩

/-- `vfs_generic_mmap` is called for the node. -/
def isRegular : Option Node → Bool
  | some (.regular _) => true
  | _ => false

/-- `mmap` registers an area once the address is chosen. -/
def Registers (tsk : Task) (a : Args) : Prop :=
  (a.anon = true ∧ a.fd = -1 ∧ a.off = 0) ∨ (a.anon = false ∧ isRegular (fdNode tsk a.fd) = true)
deriving Decidable

/-- The checks of `mmap` before the address is chosen. -/
def Passes (a : Args) : Prop :=
  a.flgs % 16 ≠ 0 ∧ a.fd < 32 ∧ a.num ≠ 0 ∧ a.addr % 4096 = 0 ∧ a.off % 4096 = 0
deriving Decidable

/-- `munmap` does not read through `NULL`; the range of a new area does not wrap around, and no area meets it or
`munmap` clears it. -/
def Fits (junk : Nat × Nat) (tsk : Task) : Call → Prop
  | .munmap addr len => Unmaps junk addr len tsk.sp
  | .mmap a =>
    let va := if a.fixed then a.addr else tsk.mmap
    Passes a → (a.fixed = true → Unmaps junk a.addr a.len tsk.sp) ∧
      (Registers tsk a → va + 4096 * a.num < 2 ^ 64 ∧
        (Apart tsk.sp.lo tsk.sp.hi tsk.sp.list va (va + 4096 * a.num) ∨
          a.fixed = true ∧ a.len % 4096 = 0 ∧ JunkOk junk a.addr (a.addr + a.len) tsk.sp))

instance (junk : Nat × Nat) (tsk : Task) (c : Call) : Decidable (Fits junk tsk c) :=
  match c with
  | .munmap addr len => inferInstanceAs (Decidable (Unmaps junk addr len tsk.sp))
  | .mmap a =>
    inferInstanceAs (Decidable (Passes a → _ ∧ (Registers tsk a → _ ∧ ((∀ x ∈ tsk.sp.list, _ ∨ _) ∨ _))))

/-- `mmap_file` is called for a descriptor without a file and reads through `NULL`; no area is registered. -/
def NoFile (tsk : Task) : Call → Prop
  | .munmap _ _ => False
  | .mmap a => Passes a ∧ a.anon = false ∧ fdNode tsk a.fd = none

variable {tsk tsk' : Task} {n va : Nat} {junk : Nat × Nat} {a : Args} {vm : Region} {c : Call}

/-! ## What `mmap` does -/

/-- **A new area in a free range.** -/
theorem newArea_spec (h : Wf tsk.sp) (label : Label) (foff : Nat) (node : Option Nat) (hnum : vm.num ≠ 0)
    (hwrap : vm.va + 4096 * vm.num < 2 ^ 64)
    (hfree : Apart tsk.sp.lo tsk.sp.hi tsk.sp.list vm.va (vm.va + 4096 * vm.num)) (hn : tsk.sp.list.length < n) :
    ∃ r tsk', newArea n label foff node vm tsk = .ok (r, tsk') ∧ Wf tsk'.sp := by
  set area : Area := ⟨vm.va, u64 (vm.va + 4096 * vm.num), vm.flgs, vm.prot, label, foff, node⟩ with harea
  have hself : (tsk.sp.alloc area).areas tsk.sp.next = area := put_self _ _ _
  have hlo : (tsk.sp.alloc area).lo tsk.sp.next = vm.va := congrArg Area.s hself
  have hhi : (tsk.sp.alloc area).hi tsk.sp.next = vm.va + 4096 * vm.num :=
    (congrArg Area.t hself).trans (u64_of_lt hwrap)
  obtain ⟨l, l', tree, hreg, -, hwf⟩ := vmmSpRegst_spec tsk.sp.next (n := n) (h.alloc area)
    (by rw [hlo, hhi]; omega)
    (fun b hb => by
      have hb' : b ≠ tsk.sp.next := (h.old b hb).ne
      rw [hlo, hhi, Space.hi, Space.lo, alloc_of_ne _ _ hb']
      exact hfree b hb)
    (Nat.lt_succ_self _) hn
  exact ⟨_, _, by rw [newArea, ← harea, hreg]; rfl, hwf⟩

/-- **A new area hangs at an area in the root that starts at the same address.** -/
theorem newArea_hang (vm : Region) (tsk : Task) {color : Color} {l r : RbTree Nat} (b : Nat)
    (htree : tsk.sp.tree = node color l b r) (hb : b < tsk.sp.next) (hs : tsk.sp.lo b = vm.va) (n : Nat) (label : Label)
    (foff : Nat) (node : Option Nat) : newArea n label foff node vm tsk = .error .hang := by
  set area : Area := ⟨vm.va, u64 (vm.va + 4096 * vm.num), vm.flgs, vm.prot, label, foff, node⟩ with harea
  have hlo : (tsk.sp.alloc area).lo tsk.sp.next = vm.va := congrArg Area.s (put_self _ _ _)
  have hlo' : (tsk.sp.alloc area).lo b = vm.va := by rw [Space.lo, alloc_of_ne _ _ hb.ne, ← hs]
  have htree' : (tsk.sp.alloc area).tree = .node color l b r := htree
  rw [newArea, ← harea, vmmSpRegst, hlo, htree', descend_equal _ hlo']
  rfl

theorem fbdevMmap_sp (vm : Region) (tsk : Task) : (fbdevMmap vm tsk).2.sp = tsk.sp := by
  unfold fbdevMmap
  split
  · rfl
  split
  · rfl
  · rfl

/-- **The end of `mmap` at an address whose range is free.** -/
theorem mmapAt_spec (tsk : Task) (h : Wf tsk.sp) (hnum : a.num ≠ 0)
    (hfit : Registers tsk a → va + 4096 * a.num < 2 ^ 64 ∧
      Apart tsk.sp.lo tsk.sp.hi tsk.sp.list va (va + 4096 * a.num)) (hn : tsk.sp.list.length < n) :
    (a.anon = false ∧ fdNode tsk a.fd = none ∧ mmapAt n a va tsk = .error .null) ∨
      ∃ r tsk', mmapAt n a va tsk = .ok (r, tsk') ∧ Wf tsk'.sp := by
  unfold mmapAt
  cases hanon : a.anon with
  | true =>
    right
    by_cases hbad : a.fd ≠ -1 ∨ a.off ≠ 0
    · rw [if_pos rfl, if_pos hbad]
      exact ⟨_, tsk, rfl, h⟩
    have hreg : Registers tsk a := .inl ⟨hanon, by tauto, by tauto⟩
    obtain ⟨hwrap, hfree⟩ := hfit hreg
    simp only [if_true, hbad, if_false]
    exact newArea_spec h _ _ _ hnum hwrap hfree hn
  | false =>
    cases hnode : fdNode tsk a.fd with
    | none => exact .inl ⟨rfl, rfl, rfl⟩
    | some node =>
      right
      cases node with
      | regular id =>
        obtain ⟨hwrap, hfree⟩ := hfit (.inr ⟨hanon, by rw [hnode]; rfl⟩)
        exact newArea_spec h _ _ _ hnum hwrap hfree hn
      | fbdev =>
        refine ⟨_, (fbdevMmap ⟨va, a.num, a.prot, a.flgs, a.off, some .fbdev⟩ tsk).2, rfl, ?_⟩
        rw [fbdevMmap_sp]
        exact h
      | other ret => exact ⟨ret, tsk, rfl, h⟩

/-- **A call that fits returns and keeps the space well formed**, unless there is no file for `mmap_file`. -/
theorem perform_spec (h : Wf tsk.sp) (hfit : Fits junk tsk c) (hn : tsk.sp.list.length + 1 < n) :
    (NoFile tsk c ∧ perform n junk c tsk = .error .null) ∨ ∃ tsk', perform n junk c tsk = .ok tsk' ∧ Wf tsk'.sp := by
  cases c with
  | munmap addr len =>
    obtain ⟨r, sp', hok, hwf, -⟩ := munmap_spec h junk addr len (n := n) (by omega) hfit
    exact .inr ⟨{ tsk with sp := sp' }, by rw [perform, hok]; rfl, hwf⟩
  | mmap a =>
    have hmap : ((NoFile tsk (.mmap a) ∧ mmap n junk a tsk = .error .null) ∨
          ∃ r tsk', mmap n junk a tsk = .ok (r, tsk') ∧ Wf tsk'.sp) →
        (NoFile tsk (.mmap a) ∧ perform n junk (.mmap a) tsk = .error .null) ∨
          ∃ tsk', perform n junk (.mmap a) tsk = .ok tsk' ∧ Wf tsk'.sp := by
      rintro (⟨hno, hnull⟩ | ⟨r, tsk', hok, hwf⟩)
      · exact .inl ⟨hno, by rw [perform, hnull]; rfl⟩
      · exact .inr ⟨tsk', by rw [perform, hok]; rfl, hwf⟩
    apply hmap
    unfold mmap
    by_cases h1 : a.flgs % 16 = 0
    · rw [if_pos h1]
      exact .inr ⟨_, tsk, rfl, h⟩
    by_cases h2 : 32 ≤ a.fd
    · rw [if_neg h1, if_pos h2]
      exact .inr ⟨_, tsk, rfl, h⟩
    by_cases h3 : a.num = 0 ∨ a.addr % 4096 ≠ 0 ∨ a.off % 4096 ≠ 0
    · rw [if_neg h1, if_neg h2, if_pos h3]
      exact .inr ⟨_, tsk, rfl, h⟩
    rw [if_neg h1, if_neg h2, if_neg h3]
    have hpass : Passes a := ⟨h1, not_le.1 h2, by tauto, by tauto, by tauto⟩
    obtain ⟨hunmaps, hfit'⟩ := hfit hpass
    split
    · next hfixed =>
      rw [if_pos hfixed] at hfit'
      obtain ⟨r, sp', hok, hwf, hinside, hlen, hclear⟩ := munmap_spec h junk a.addr a.len (n := n) (by omega)
        (hunmaps hfixed)
      rw [hok]
      refine (mmapAt_spec { tsk with sp := sp' } hwf hpass.2.2.1 (fun hreg => ?_) (by dsimp only; omega)).imp_left
        fun hno => ⟨⟨hpass, hno.1, hno.2.1⟩, hno.2.2⟩
      obtain ⟨hwrap, hfree | ⟨-, hlen0, hjunk⟩⟩ := hfit' hreg
      · exact ⟨hwrap, hinside.apart hfree⟩
      have hnum : 4096 * a.num = a.len := by
        have := a.len_lt
        unfold Args.num u64
        omega
      rw [hnum] at hwrap ⊢
      have hpos : 0 < a.len := by
        have := hpass.2.2.1
        omega
      exact ⟨hwrap, hclear hpass.2.2.2.1 hlen0 hpos hwrap hjunk⟩
    · next hfixed =>
      rw [if_neg hfixed] at hfit'
      dsimp only [vmmFitaddr]
      generalize u64 (tsk.mmap + 4096 * (a.num + 1)) = next
      refine (mmapAt_spec { tsk with mmap := next } h hpass.2.2.1 (fun hreg => ?_) (by dsimp only; omega)).imp_left
        fun hno => ⟨⟨hpass, hno.1, hno.2.1⟩, hno.2.2⟩
      obtain ⟨hwrap, hfree | hno⟩ := hfit' hreg
      · exact ⟨hwrap, hfree⟩
      · exact absurd hno.1 hfixed

/-! ## More rounds -/

theorem mmapAt_stable (a : Args) (va : Nat) (tsk : Task) : Stable fun n => mmapAt n a va tsk := by
  have hnew : ∀ label foff node vm, Stable fun n => newArea n label foff node vm tsk := fun _ _ _ _ =>
    (vmmSpRegst_stable _ _).map _
  refine .ite (.ite (stable_const _) (hnew _ _ _ _)) ?_
  dsimp only [mmapFile]
  split
  · exact stable_const _
  · exact hnew _ _ _ _
  · exact stable_const _
  · exact stable_const _

theorem perform_stable (junk : Nat × Nat) (c : Call) (tsk : Task) : Stable fun n => perform n junk c tsk := by
  cases c with
  | munmap addr len => exact (munmap_stable junk addr len tsk.sp).map _
  | mmap a =>
    refine Stable.map ?_ _
    exact .ite (stable_const _) (.ite (stable_const _) (.ite (stable_const _)
      (.ite ((munmap_stable junk a.addr a.len tsk.sp).bind fun r => mmapAt_stable a a.addr _) (mmapAt_stable a _ _))))

/-! ## Runs -/

/-- One call keeps the space well formed. -/
theorem step_wf {o : Op} (h : Wf tsk.sp) (hfit : Fits o.junk tsk o.call) (hs : step tsk o = some tsk') :
    Wf tsk'.sp := by
  have hok : perform o.rounds o.junk o.call tsk = .ok tsk' := by
    unfold step at hs
    cases hp : perform o.rounds o.junk o.call tsk with
    | error e =>
      rw [hp] at hs
      cases hs
    | ok t =>
      rw [hp] at hs
      exact congrArg _ (Option.some.inj hs)
  -- enough rounds for the specification do not change the result
  have hmore : perform (o.rounds + tsk.sp.list.length + 2) o.junk o.call tsk = .ok tsk' :=
    perform_stable o.junk o.call tsk o.rounds _ tsk' (by omega) hok
  rcases perform_spec h hfit (n := o.rounds + tsk.sp.list.length + 2) (by omega) with ⟨-, hnull⟩ | ⟨t, ht, hwf⟩
  · rw [hnull] at hmore
    cases hmore
  rw [ht] at hmore
  cases hmore
  exact hwf

/-- Non-empty, disjoint areas, sorted in the list, with the tree in the same order. -/
def SpaceOk (sp : Space) : Prop :=
  (∀ a ∈ sp.list, sp.lo a < sp.hi a) ∧
  (sp.list.Pairwise fun a b => Disjoint (Set.Ico (sp.lo a) (sp.hi a)) (Set.Ico (sp.lo b) (sp.hi b))) ∧
  (sp.list.Pairwise fun a b => sp.lo a < sp.lo b) ∧ sp.tree.toList = sp.list

theorem Wf.spaceOk (h : Wf tsk.sp) : SpaceOk tsk.sp :=
  ⟨h.ordered.1, h.ordered.2.imp fun hle => disjoint_Ico_of_le (.inl hle), h.sorted, h.inorder⟩

theorem init_wf (m : Nat) (files : Nat → Option Node) : Wf (Task.init m files).sp :=
  ⟨ordered_nil, rfl, rfl, by simp [Task.init]⟩

/-- **In every run whose calls fit, the address space is in order and the next call that fits returns**, unless it reads
the file of a descriptor without one. -/
theorem space_wf (m : Nat) (files : Nat → Option Node) (os : List Op) (tsk : Task)
    (hm : Meets step (fun tsk o => Fits o.junk tsk o.call) (Task.init m files) os)
    (hr : run step (Task.init m files) os = some tsk) :
    SpaceOk tsk.sp ∧ ∀ junk c, Fits junk tsk c → NoFile tsk c ∨ ∃ N tsk', ∀ n ≥ N, perform n junk c tsk = .ok tsk' := by
  have hwf : Wf tsk.sp :=
    run_meets_inv (I := fun tsk => Wf tsk.sp) (fun _ _ _ h hfit hs => step_wf h hfit hs) (init_wf m files) hm hr
  refine ⟨hwf.spaceOk, fun junk c hfit => ?_⟩
  rcases perform_spec hwf hfit (n := tsk.sp.list.length + 2) (by omega) with ⟨hno, -⟩ | ⟨tsk', hok, -⟩
  · exact .inl hno
  · exact .inr ⟨_, tsk', fun n hn => perform_stable junk c tsk _ n tsk' hn hok⟩

/-- Anonymous private memory, at a given address (`MAP_FIXED`) or not. -/
def anonAt (addr len : Nat) (h : len < 2 ^ 64 := by decide) : Op := ⟨4, (0, 0), .mmap ⟨addr, len, 3, 0x32, -1, 0, h⟩⟩

def anonAny (len : Nat) (h : len < 2 ^ 64 := by decide) : Op := ⟨4, (0, 0), .mmap ⟨0, len, 3, 0x22, -1, 0, h⟩⟩

/-- Two areas, the first cut in two by a third one, and the rest of it unmapped. -/
theorem space_wf_four : ∃ tsk, run step (Task.init 0x600000000000 fun _ => none) [anonAny 0x3000, anonAny 0x1000,
    anonAt 0x600000001000 0x1000, ⟨4, (0, 0), .munmap 0x600000000000 0x1000⟩] = some tsk ∧ tsk.sp.list.length = 3 ∧
    (SpaceOk tsk.sp ∧ ∀ junk c, Fits junk tsk c → NoFile tsk c ∨ ∃ N tsk', ∀ n ≥ N, perform n junk c tsk = .ok tsk') :=
  ⟨_, rfl, by decide, space_wf 0x600000000000 (fun _ => none) [anonAny 0x3000, anonAny 0x1000,
    anonAt 0x600000001000 0x1000, ⟨4, (0, 0), .munmap 0x600000000000 0x1000⟩] _ (by decide) rfl⟩

/-- The `i`-th of the areas of one page that `mmap` chooses one after the other, unmapped. -/
def unmapNth (i : Nat) : Op := ⟨12, (0, 0), .munmap (0x600000000000 + 0x2000 * i) 0x1000⟩

/-- The space with one area of one page, where `mmap` chooses its first address. -/
def oneArea : Space :=
  { (Task.init 0 fun _ => none).sp.alloc ⟨0x600000000000, 0x600000001000, 0x32, 3, .user, 0, none⟩ with
    list := [0], tree := node .black nil 0 nil }

/-- **What happens to calls that do not fit**: `mmap` chooses the start of an area that was asked for there and hangs;
`munmap` refuses a length that is no multiple of the page size and the new area overlaps. And what happens to the tree:
after ten calls of `mmap` and six of `munmap`, the next `munmap` reads through `NULL` in `fixup_del`. -/
theorem space_broken : (run step (Task.init 0x600000000000 fun _ => none) [anonAt 0x600000000000 0x1000] =
        some ⟨0x600000000000, oneArea, fun _ => none⟩ ∧
      ∀ n, perform n (0, 0) (anonAny 0x1000).call ⟨0x600000000000, oneArea, fun _ => none⟩ = .error .hang) ∧
    (run step (Task.init 0x600000000000 fun _ => none) [anonAt 0x1000 0x2000, anonAt 0x2000 1]).map
      (fun tsk => tsk.sp.list.map fun a => (tsk.sp.lo a, tsk.sp.hi a)) = some [(0x1000, 0x3000), (0x2000, 0x3000)] ∧
    (run step (Task.init 0x600000000000 fun _ => none) (List.replicate 10 { anonAny 0x1000 with rounds := 12 } ++
      [unmapNth 0, unmapNth 1, unmapNth 2, unmapNth 4, unmapNth 3, unmapNth 6])).map
      (fun tsk => match perform 12 (0, 0) (unmapNth 7).call tsk with
        | .error e => some e
        | .ok _ => none) = some (some .null) := by
  refine ⟨⟨rfl, fun n => ?_⟩, by decide, by decide⟩
  have hang := newArea_hang ⟨0x600000000000, 1, 3, 0x22, 0, none⟩ ⟨0x600000002000, oneArea, fun _ => none⟩ 0
    rfl (by decide) (by decide) n .user 0 none
  exact congrArg (Except.map Prod.snd) hang

end TextOS.Mman
