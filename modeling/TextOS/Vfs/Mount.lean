import TextOS.Lib.Run
import TextOS.Vfs.Defs

/-!
# Mounts that are undone: `kernel/fs/vmnt.c`

A mount saves the children of the directory on a stack, which the first one takes from `malloc` and does not clear.

- **Properly nested mounts and umounts restore the tree**, if the memory for the stacks is clear and a root is not
  mounted twice at a time (`mounts_undone`); otherwise a directory stays a mount point (`mount_stays`).
-/

namespace TextOS.Vfs

open Lib List Function Option

/-- `stack_t` of the children that are covered; `pop` is set if there is a function to call. -/
structure Stk where
  top : List (List Nat)
  siz : Nat
  pop : Bool
deriving DecidableEq

def stackPush (stk : Stk) (payload : List Nat) : Stk := { stk with top := payload :: stk.top, siz := stk.siz + 1 }

def stackTop (stk : Stk) : List Nat := stk.top.headD []

def stackPop (stk : Stk) : Option Stk :=
  match stk.top with
  | [] => some stk
  | _ :: top => if stk.pop then none else some { stk with top := top, siz := stk.siz - 1 }

/-- The tree, and `mount` of each node. -/
structure Mnts where
  tree : Tree
  mount : Nat → Option Stk

/-- `vfs_mount`; `junk` is what `malloc` returns. -/
def vfsMount (s : Mnts) (dir root : Nat) (junk : Stk) : Mnts :=
  let node := update s.tree.node dir { s.tree.node dir with child := [root], mnt := true }
  ⟨{ s.tree with node := update node root { node root with parent := dir } },
    update s.mount dir (some (stackPush ((s.mount dir).getD junk) (s.tree.node dir).child))⟩

def vfsUmount (s : Mnts) (dir : Nat) : Option Mnts :=
  (s.mount dir).bind fun stk => (s.tree.node dir).child.head?.bind fun root => (stackPop stk).map fun stk' =>
    let node := update s.tree.node root { s.tree.node root with parent := root }
    ⟨{ s.tree with node := update node dir { node dir with child := stackTop stk,
                                                           mnt := (node dir).mnt && stk'.siz != 0 } },
      update s.mount dir (some stk')⟩

inductive MntOp
  | mount (dir root : Nat) (junk : Stk)
  | umount (dir : Nat)

def mntStep (s : Mnts) : MntOp → Option Mnts
  | .mount dir root junk => some (vfsMount s dir root junk)
  | .umount dir => vfsUmount s dir

/-- Each umount belongs to the last mount on its directory that is not undone yet. -/
inductive Nested : List MntOp → Prop
  | nil : Nested []
  | pair (dir root : Nat) (junk : Stk) {os os' : List MntOp} (h : Nested os) (h' : Nested os') :
      Nested (.mount dir root junk :: (os ++ .umount dir :: os'))

def Stk.clear : Stk := ⟨[], 0, false⟩

/-- The root is not mounted, and `malloc` returns memory that is clear. -/
def MntOp.Fits (s : Mnts) : MntOp → Prop
  | .mount dir root junk => (s.tree.node root).parent = root ∧ (s.mount dir = none → junk = .clear)
  | .umount _ => True

instance (s : Mnts) (o : MntOp) : Decidable (o.Fits s) := by
  unfold MntOp.Fits
  split <;> infer_instance

def Mnts.stack (s : Mnts) (d : Nat) : Stk := (s.mount d).getD .clear

/-- The mount points are the nodes whose stack is not empty. -/
def Consistent (s : Mnts) : Prop := ∀ d, (s.stack d).pop = false ∧ (s.stack d).siz = (s.stack d).top.length ∧
  (s.tree.node d).mnt = ((s.stack d).top.length != 0)

variable {s s' t : Mnts} {dir root : Nat} {junk : Stk}

/-- The same tree with the same stacks. -/
def Same (s s' : Mnts) : Prop := s'.tree = s.tree ∧ s'.stack = s.stack

/-! ## One call -/

theorem stack_update (s : Mnts) (tree : Tree) (dir : Nat) (stk : Stk) :
    (Mnts.mk tree (update s.mount dir (some stk))).stack = update s.stack dir stk := by
  funext d
  by_cases hd : d = dir
  · subst hd
    simp [Mnts.stack]
  · simp [Mnts.stack, hd]

theorem stack_vfsMount (hc : (MntOp.mount dir root junk).Fits s) :
    (vfsMount s dir root junk).stack = update s.stack dir (stackPush (s.stack dir) (s.tree.node dir).child) := by
  have hjunk : (s.mount dir).getD junk = s.stack dir := by
    cases hm : s.mount dir with
    | none => rw [Mnts.stack, hm, hc.2 hm]
    | some stk => rw [Mnts.stack, hm, getD_some, getD_some]
  rw [vfsMount, stack_update, hjunk]

/-- The nodes after a mount. -/
theorem node_vfsMount (s : Mnts) (dir root : Nat) (junk : Stk) (d : Nat) : (vfsMount s dir root junk).tree.node d =
    { s.tree.node d with
      child := if d = dir then [root] else (s.tree.node d).child
      mnt := if d = dir then true else (s.tree.node d).mnt
      parent := if d = root then dir else (s.tree.node d).parent } := by
  rw [vfsMount]
  by_cases hr : d = root
  · subst hr
    by_cases hd : d = dir
    · subst hd
      simp
    · simp [hd]
  by_cases hd : d = dir
  · subst hd
    simp [hr]
  · simp [hr, hd]

/-- The nodes after an unmount, with the children that were hidden. -/
theorem node_vfsUmount (h : vfsUmount s dir = some s') : ∃ root stk, (s.tree.node dir).child.head? = some root ∧
    stackPop (s.stack dir) = some stk ∧ s'.stack = update s.stack dir stk ∧
    s'.tree = { s.tree with node := s'.tree.node } ∧ ∀ d, s'.tree.node d =
      { s.tree.node d with
        child := if d = dir then stackTop (s.stack dir) else (s.tree.node d).child
        mnt := if d = dir then (s.tree.node d).mnt && stk.siz != 0 else (s.tree.node d).mnt
        parent := if d = root then root else (s.tree.node d).parent } := by
  obtain ⟨stk, hstk, h⟩ := bind_eq_some_iff.1 h
  obtain ⟨root, hroot, h⟩ := bind_eq_some_iff.1 h
  obtain ⟨stk', hpop, rfl⟩ := map_eq_some_iff.1 h
  have hstack : s.stack dir = stk := by rw [Mnts.stack, hstk, getD_some]
  refine ⟨root, stk', hroot, by rw [hstack, hpop], stack_update .., rfl, fun d => ?_⟩
  rw [hstack]
  by_cases hr : d = root
  · subst hr
    by_cases hd : d = dir
    · subst hd
      simp
    · simp [hd]
  by_cases hd : d = dir
  · subst hd
    simp [hr]
  · simp [hr, hd]

theorem stackPop_eq (h : Consistent s) (d : Nat) : stackPop (s.stack d) =
    some ⟨(s.stack d).top.tail, (s.stack d).top.tail.length, false⟩ := by
  obtain ⟨hpop, hsiz, -⟩ := h d
  rcases hstk : s.stack d with ⟨_ | ⟨x, top⟩, siz, pop⟩
  all_goals
    rw [hstk] at hpop hsiz
    cases hpop
    cases hsiz
    rfl

/-- One operation keeps the mounts consistent. -/
theorem Consistent.step (s : Mnts) (o : MntOp) (s' : Mnts) (h : Consistent s) (hc : o.Fits s)
    (hs : mntStep s o = some s') : Consistent s' := by
  intro d
  obtain ⟨hpop, hsiz, hmnt⟩ := h d
  cases o with
  | mount dir root junk =>
    cases hs
    rw [stack_vfsMount hc, node_vfsMount]
    by_cases hd : d = dir
    · subst hd
      simp [stackPush, hpop, hsiz]
    · simp [hd, hpop, hsiz, hmnt]
  | umount dir =>
    obtain ⟨root, stk, -, hstk, hstack, -, hnode⟩ := node_vfsUmount hs
    rw [hstack, hnode]
    by_cases hd : d = dir
    · subst hd
      rw [stackPop_eq h] at hstk
      cases hstk
      cases htop : (s.stack d).top <;> simp [hmnt, htop]
    · simp [hd, hpop, hsiz, hmnt]

theorem stackPop_push {stk : Stk} (h : stk.pop = false) (payload : List Nat) :
    stackPop (stackPush stk payload) = some stk := by
  obtain ⟨top, siz, pop⟩ := stk
  cases h
  rfl

theorem Same.consistent (hs : Same s s') (h : Consistent s) : Consistent s' := by
  unfold Consistent
  rw [hs.1, hs.2]
  exact h

/-- An unmount undoes the mount before it. -/
theorem vfsUmount_of_same (h : Consistent s) (hc : (MntOp.mount dir root junk).Fits s)
    (ht : Same (vfsMount s dir root junk) t) : ∃ t', vfsUmount t dir = some t' ∧ Same s t' := by
  have hstack : t.stack dir = stackPush (s.stack dir) (s.tree.node dir).child := by
    rw [ht.2, stack_vfsMount hc, update_self]
  have hchild : (t.tree.node dir).child = [root] := by rw [ht.1, node_vfsMount, if_pos rfl]
  obtain ⟨hpop, hsiz, hmnt⟩ := h dir
  obtain ⟨t', ht'⟩ : ∃ t', vfsUmount t dir = some t' := by
    cases hm : t.mount dir with
    | none =>
      rw [Mnts.stack, hm] at hstack
      cases hstack
    | some stk =>
      rw [Mnts.stack, hm, getD_some] at hstack
      rw [vfsUmount, hm, bind_some, hchild, hstack, head?_cons, bind_some]
      rw [stackPop_push hpop]
      exact ⟨_, rfl⟩
  obtain ⟨root', stk, hroot', hstk, hstack', htree, hnode⟩ := node_vfsUmount ht'
  obtain rfl : root' = root := by simpa [hchild] using hroot'.symm
  obtain rfl : stk = s.stack dir := by
    rw [hstack, stackPop_push hpop] at hstk
    exact (some.inj hstk).symm
  have hnode' : t'.tree.node = s.tree.node := by
    funext d
    have hpar : (if d = root' then root' else if d = root' then dir else (s.tree.node d).parent) =
      (s.tree.node d).parent := by
      split
      next hr => rw [hr, hc.1]
      next => rfl
    have hkid : (if d = dir then stackTop (t.stack dir) else if d = dir then [root'] else (s.tree.node d).child) =
        (s.tree.node d).child := by
      split
      next hd => rw [hstack, hd]; rfl
      next => rfl
    have hmp : (if d = dir then (if d = dir then true else (s.tree.node d).mnt) && (s.stack dir).siz != 0
        else if d = dir then true else (s.tree.node d).mnt) = (s.tree.node d).mnt := by
      split
      next hd => rw [hd, hmnt, hsiz, Bool.true_and]
      next => rfl
    rw [hnode, ht.1, node_vfsMount]
    rw [hpar, hkid, hmp]
  refine ⟨t', ht', ?_, ?_⟩
  · rw [htree, hnode', ht.1]
    rfl
  · rw [hstack', ht.2, stack_vfsMount hc, update_idem, update_eq_self]

/-! ## Nested mounts -/

/-- The calls of a nested part, and what is called behind them. -/
theorem Nested.run {os : List MntOp} (hn : Nested os) : ∀ {s : Mnts} {rest : List MntOp}, Consistent s →
    Meets mntStep (fun s o => o.Fits s) s (os ++ rest) →
    ∃ s', run mntStep s os = some s' ∧ Same s s' ∧ Meets mntStep (fun s o => o.Fits s) s' rest := by
  induction hn with
  | nil => exact fun {s rest} _ hm => ⟨s, rfl, ⟨rfl, rfl⟩, hm⟩
  | @pair dir root junk os os' _ _ ih ih' =>
    intro s rest h hm
    rw [cons_append, append_assoc, cons_append] at hm
    obtain ⟨hfit, hm⟩ := hm
    obtain ⟨s1, hr1, hs1, -, hm1⟩ := ih (h.step s _ _ hfit rfl) (hm _ rfl)
    obtain ⟨s2, hu, hs2⟩ := vfsUmount_of_same h hfit hs1
    obtain ⟨s3, hr3, hs3, hm3⟩ := ih' (hs2.consistent h) (hm1 s2 hu)
    refine ⟨s3, run_cons.2 ⟨_, rfl, ?_⟩, ⟨hs3.1.trans hs2.1, hs3.2.trans hs2.2⟩, hm3⟩
    rw [run_append, hr1, bind_some]
    exact run_cons.2 ⟨s2, hu, hr3⟩

/-- **Mounts are undone**: after any calls `pre`, a nested part `os` of the calls, from a mount to its umount or several
of them, restores the tree, and every path is opened as before. -/
theorem mounts_undone (s₀ s : Mnts) (h : Consistent s₀) (pre os : List MntOp) (hn : Nested os)
    (hpre : Meets mntStep (fun s o => o.Fits s) s₀ pre) (hs : run mntStep s₀ pre = some s)
    (hos : Meets mntStep (fun s o => o.Fits s) s os) :
    ∃ s', run mntStep s os = some s' ∧ s'.tree = s.tree ∧ ∀ tsk start path args mode,
      vfsOpen s'.tree tsk start path args mode = vfsOpen s.tree tsk start path args mode := by
  have hc := run_meets_inv Consistent.step h hpre hs
  rw [← append_nil os] at hos
  obtain ⟨s', hr, ⟨htree, -⟩, -⟩ := hn.run hc hos
  exact ⟨s', hr, htree, fun _ _ _ _ _ => by rw [htree]⟩

/-- The root 0 with the directory 1; 2 and 3 are roots of other file systems. -/
def plainTree : Tree :=
  ⟨fun n => ⟨['d'], S_IFDIR, 0, 0, if n = 1 then 0 else n, if n = 0 then [1] else [], [], false, .tmpfs, 0⟩, 0, 4,
    ⟨true, true, true⟩, ⟨0, 0, 0, 0⟩⟩

theorem mounts_undone_two : ∃ s', run mntStep ⟨plainTree, fun _ => none⟩
    [.mount 1 2 .clear, .mount 1 3 .clear, .umount 1, .umount 1] = some s' ∧ s'.tree = plainTree := by
  have hn : Nested [.mount 1 2 .clear, .mount 1 3 .clear, .umount 1, .umount 1] :=
    .pair 1 2 .clear (.pair 1 3 .clear .nil .nil) .nil
  obtain ⟨s', hr, ht, -⟩ := mounts_undone ⟨plainTree, fun _ => none⟩ _ (fun _ => ⟨rfl, rfl, rfl⟩)
    [] _ hn trivial rfl (by decide)
  exact ⟨s', hr, ht⟩

/-- The memory for the stack holds another size: the directory is still a mount point after the umount, without a root.
-/
theorem mount_stays : (run mntStep ⟨plainTree, fun _ => none⟩ [.mount 1 2 ⟨[], 7, false⟩, .umount 1]).map
    (fun s => ((s.tree.node 1).mnt, (s.tree.node 1).child)) = some (true, []) := by
  decide

end TextOS.Vfs
