import TextOS.Lib.Table
import TextOS.Signal.Pending

/-!
# Scheduling, stopping and waiting: `kernel/task.c`, `kernel/signal.c`, `kernel/ptrace.c`

The tasks of one processor: which of them runs, how they block and wake up, what signals do to them, and how a parent
waits for its children. `task_wait` blocks in its middle; what follows is a `resume` of its own, when the parent runs
again.

A signal for a group is one `kill` for each of its tasks. The timers and the lists of blocked tasks are not modelled: a
timeout is an `unblock`.
-/

namespace TextOS.Sched

open Lib List

def TASK_MAX : Nat := 16

def EINTR : Int := 4
def ECHILD : Int := 10

def SIGTRAP : Nat := 5
def SIGCHLD : Nat := 17
def SIGCONT : Nat := 18
def SIGTSTP : Nat := 20
def SIGTTIN : Nat := 21
def SIGTTOU : Nat := 22

/-! ## Wait statuses -/

/-- `int`. -/
abbrev CInt := BitVec 32

def WNOHANG : CInt := 1
def WSTOPPED : CInt := 2
def WEXITED : CInt := 4
def WCONTINUED : CInt := 8
def WNOWAIT : CInt := 0x1000000

def WNOSTATUS : CInt := -1

def WTERMSIG (s : CInt) : CInt := s &&& 0x7f
def WIFEXITED (s : CInt) : Bool := WTERMSIG s == 0
def WIFSTOPPED (s : CInt) : Bool := decide (0x7f00 < (((s &&& 0xffff) * 0x10001) >>> 8 |>.truncate 16).toInt)
def WIFCONTINUED (s : CInt) : Bool := s == 0xffff

def makeStatExit (code : CInt) : CInt := (code &&& 0xff) <<< 8
def makeStatSignal (sig : Nat) : CInt := BitVec.ofNat 32 sig &&& 0x7f
def makeStatStopped (sig : Nat) : CInt := (BitVec.ofNat 32 sig &&& 0xff) <<< 8 ||| 0x7f
def makeStatContinued : CInt := 0xffff

/-! ## Tasks -/

inductive Stat
  | die
  | pre
  | run
  | slp
  | blk
  | stp
deriving DecidableEq

/-- A task waits for something. -/
def Stat.blocked (st : Stat) : Bool := st == .blk || st == .slp

/-- The states in which a task can be stopped. -/
def Stat.stoppable (st : Stat) : Bool := st == .pre || st == .run || st.blocked

/-- The arguments of a `task_wait` that blocks; `told` records that a child has woken it. -/
structure Call where
  pid : Int
  opt : CInt
  told : Bool

/-- `task_t`; `call` is the `task_wait` that the task is in. The fields after it only record what happened: the number
of the task, its last change of status that was not reported, and whether it has been stopped, and woken since. -/
structure Task where
  ppid : Nat
  pgid : Nat
  stat : Stat
  statBeforeStop : Stat
  bretval : Int
  retval : CInt
  waitpid : Int
  waitopt : CInt
  sigpend : Signal.SigSet
  dbgTraced : Bool
  call : Option Call
  born : Nat
  news : Option CInt
  stopped : Bool
  woken : Bool

namespace Task

variable (t : Task)

/-- `task_unblock`. -/
def unblock (reason : Int) : Task := { t with bretval := reason, stat := .pre, woken := t.stopped }

def addSig (sig : Nat) : Task := { t with sigpend := Signal.sigaddset t.sigpend sig }

/-- A change of the status. -/
def change (val : CInt) : Task := { t with retval := val, news := some val }

/-- A signal wakes the task. For a task that is stopped nothing is done, even if it is blocked otherwise. -/
def signal (sig : Nat) : Task :=
  if t.stat.blocked then (t.addSig sig).unblock (-EINTR)
  else { t.addSig sig with woken := t.woken || (t.stopped && t.statBeforeStop.blocked) }

/-- A stop signal. -/
def stop (sig : Nat) : Task :=
  if t.stat.stoppable then
    { (t.addSig sig).change (makeStatStopped sig) with
      statBeforeStop := t.stat
      stat := .stp
      stopped := true
      woken := t.stopped && t.woken }
  else t.addSig sig

/-- `SIGCONT`. -/
def cont : Task :=
  let t' : Task := { t.addSig SIGCONT with stopped := false, woken := false }
  if t.stat = .stp then { t'.change makeStatContinued with stat := t.statBeforeStop } else t'

/-- `SIGKILL`. -/
def kill : Task :=
  let t' := t.addSig Signal.SIGKILL
  let t' := if t'.stat.blocked then t'.unblock (makeStatSignal Signal.SIGKILL).toInt else t'
  let t' := if t'.stat = .stp then { t' with stat := .pre } else t'
  { t' with stopped := false, woken := false }

/-- `task_block`. -/
def block : Task := { t with stat := .blk, bretval := 0 }

def exit (val : CInt) : Task := { t.change val with stat := .die }

/-- The status has been reported. -/
def reported : Task := { t with retval := WNOSTATUS, news := none }

def enterWait (pid : Int) (opt : CInt) :
    Task := { t with waitpid := pid, waitopt := opt, call := some ⟨pid, opt, false⟩ }

def leaveWait : Task := { t with waitpid := 0, call := none }

def trace : Task := { t with dbgTraced := true }

/-- A child has news for its parent, which is in `task_wait`. -/
def tell (i : Nat) : Task := { t.unblock 0 with waitpid := i, call := t.call.map fun k => { k with told := true } }

def wstatMatchWopt (retval opt : CInt) : Bool :=
  if retval == WNOSTATUS then false
  else
    let expect := (if WIFSTOPPED retval then WSTOPPED else 0) ||| (if WIFEXITED retval then WEXITED else 0) |||
      (if WIFCONTINUED retval then WCONTINUED else 0)
    expect &&& opt != 0

def wstatMatchTask (opt : CInt) : Bool :=
  if t.dbgTraced && WIFSTOPPED t.retval then true else wstatMatchWopt t.retval opt

end Task

/-! ## The system -/

inductive Halt
  | fault
  | panic
  | assertion
deriving DecidableEq

/-- A return of `task_wait`: the caller, its options, why its block ended, the value, and for a child the status that is
stored, whether the child is destroyed, and how it was before. -/
structure Return where
  waiter : Nat
  opt : CInt
  reason : Int
  value : Int
  status : Option CInt
  destroyed : Bool
  chd : Option Task

/-- `table`, `_curr` and why the system has stopped. What has happened is recorded: the tasks that the scheduler picked,
with the mark of a stopped one; the numbers of the tasks that exited; and the returns of `task_wait`. -/
structure Sys where
  table : Nat → Option Task
  curr : Nat
  halt : Option Halt
  picks : List (Nat × Bool)
  exits : List Nat
  returns : List Return
  births : Nat

namespace Sys

variable (s : Sys)

def update (i : Nat) (f : Task → Task) : Sys := { s with table := modify s.table i f }

def stopWith (h : Halt) : Sys := { s with halt := some h }

/-- `task_wait` returns without a child. -/
def ret (opt : CInt) (reason value : Int) : Sys :=
  { s with returns := s.returns ++ [⟨s.curr, opt, reason, value, none, false, none⟩] }

def taskGet (i : Nat) : Option Task := if i < TASK_MAX then s.table i else none

def getfree : Option Nat := (List.range TASK_MAX).find? fun i => (s.table i).isNone

def getnext : Option Nat :=
  ((List.range (s.curr + TASK_MAX)).map fun j => (s.curr + j) % TASK_MAX).find? fun i =>
  (s.table i).any (·.stat == .pre)

def taskSchedule : Sys :=
  match s.table s.curr with
  | none => s
  | some _ =>
    match s.getnext with
    | none => s
    | some next =>
      { (s.update s.curr fun t => if t.stat = .run then { t with stat := .pre } else t).update next
          fun t => { t with stat := .run } with
        curr := next
        picks := s.picks ++ [(next, (s.table next).any (·.stopped))] }

/-- `task_block` of the current task. -/
def taskBlock : Sys := (s.update s.curr Task.block).taskSchedule

def taskUnblock (i : Nat) (reason : Int) : Sys := s.update i (·.unblock reason)

/-- The tasks that a signal to `pid` is for; zero is the group of the current task. -/
def targets (pid : Nat) : List Nat :=
  if pid = 0 then
    (List.range' 1 (TASK_MAX - 1)).filter fun i => (s.table i).any fun t => (s.table s.curr).any (·.pgid == t.pgid)
  else if pid < TASK_MAX then [pid] else []

/-- `fkill(pid, SIGCHLD)`. -/
def fkillChld (pid : Nat) : Sys := (s.targets pid).foldl (fun s i => s.update i (·.signal SIGCHLD)) s

def isStop (sig : Nat) : Bool := sig == Signal.SIGSTOP || sig == SIGTSTP || sig == SIGTTIN || sig == SIGTTOU

/-- `kill_safe` for a task. -/
def killSafe (i sig : Nat) : Sys :=
  match s.taskGet i with
  | none => s
  | some t =>
    if Signal.NSIG ≤ sig ∨ sig = 0 ∨ i = 0 then s
    else if isStop sig then
      let s' := s.update i (·.stop sig)
      if t.stat.stoppable then
        let s' := s'.fkillChld t.ppid
        if i = s'.curr then s'.taskSchedule else s'
      else s'
    else if sig = Signal.SIGKILL then s.update i Task.kill
    else if sig = SIGCONT then
      let s' := s.update i Task.cont
      if t.stat = .stp then s'.fkillChld t.ppid else s'
    else s.update i (·.signal sig)

def taskReportWstat (i : Nat) : Sys :=
  match s.table i with
  | none => s.stopWith .fault
  | some tsk =>
    match s.table tsk.ppid with
    | none => s.stopWith .fault
    | some prt =>
      if (prt.waitpid = i ∨ prt.waitpid = -1) ∧ tsk.wstatMatchTask prt.waitopt = true then
        if prt.stat = .blk then
          s.update tsk.ppid (·.tell i)
        else s.stopWith .assertion
      else s.fkillChld tsk.ppid

def taskFork : Sys :=
  match s.getfree, s.table s.curr with
  | some pid, some prt =>
    let chd : Task := ⟨s.curr, prt.pgid, .pre, .pre, 0, WNOSTATUS, 0, 0, prt.sigpend, false, none, s.births,
      none, false, false⟩
    { s with table := Function.update s.table pid (some chd), births := s.births + 1 }
  | _, _ => s.stopWith .fault

/-- The children of a task that exits go to the first process. -/
def adopt (p : Nat) :
    Sys := { s with table := fun i => (s.table i).map fun t => if t.ppid = p then { t with ppid := 1 } else t }

/-- The current task is dead, and has a status. -/
def markExit (val : CInt) : Sys :=
  { s.update s.curr (·.exit val) with exits := s.exits ++ ((s.table s.curr).map Task.born).toList }

/-- `task_exit` after the parent knows. -/
def exitEnd (p : Nat) : Sys :=
  if s.halt.isSome then s
  else if p = 1 then s.stopWith .panic
  else
    let s' := s.adopt p
    if s'.getnext.isSome then s'.taskSchedule else s'.stopWith .fault

def taskExit (val : CInt) : Sys := ((s.markExit val).taskReportWstat s.curr).exitEnd s.curr

/-- `task_wait` after the target is known. -/
def waitEnd (opt : CInt) (reason target : Int) : Sys :=
  if target = -1 then s.ret opt reason 0
  else
    match s.taskGet target.toNat with
    | none => s.stopWith .fault
    | some chd =>
      let destroyed := opt &&& WNOWAIT == 0 && chd.stat == .die
      let s' := s.update target.toNat Task.reported
      let s' := if destroyed then { s' with table := Function.update s'.table target.toNat none } else s'
      { s' with returns := s.returns ++ [⟨s.curr, opt, reason, target, some chd.retval, destroyed, some chd⟩] }

def isChild (i : Nat) : Bool := (s.table i).any (·.ppid == s.curr)

/-- The child that `task_wait` finds. -/
def target (pid : Int) (opt : CInt) : Option Nat :=
  if 0 < pid then if (s.table pid.toNat).any (·.wstatMatchTask opt) then some pid.toNat else none
  else (List.range TASK_MAX).find? fun i => s.isChild i && (s.table i).any (·.wstatMatchTask opt)

/-- `task_wait` for children that exist. -/
def waitFor (pid : Int) (opt : CInt) : Sys :=
  match s.target pid opt with
  | some i => s.waitEnd opt 0 i
  | none =>
    if opt &&& WNOHANG ≠ 0 then s.ret opt 0 0
    else (s.update s.curr (·.enterWait pid opt)).taskBlock

def taskWait (pid : Int) (opt : CInt) : Sys :=
  if 0 < pid then
    if pid < TASK_MAX ∧ s.isChild pid.toNat = true then s.waitFor pid opt else s.ret opt 0 (-ECHILD)
  else if pid = -1 then
    if (List.range TASK_MAX).any s.isChild then s.waitFor pid opt else s.ret opt 0 (-ECHILD)
  else s.stopWith .panic

/-- `task_wait` after its block. The reason why the block ended is not looked at. -/
def resume : Sys :=
  match s.table s.curr with
  | none => s
  | some t =>
    match t.call with
    | none => s
    | some k => (s.update s.curr Task.leaveWait).waitEnd k.opt t.bretval t.waitpid

/-- `task_block`, if the system has not stopped. -/
def traceBlock : Sys := if s.halt.isSome then s else s.taskBlock

/-- `ptrace_stop_self`, for a task that is traced. -/
def ptraceStopSelf : Sys :=
  if (s.table s.curr).any (·.dbgTraced) then
    ((s.update s.curr (·.change (makeStatStopped SIGTRAP))).taskReportWstat s.curr).traceBlock
  else s

/-- The current task is not inside of `task_wait`. -/
def inUser : Bool := (s.table s.curr).any (·.call.isNone)

end Sys

inductive Event
  | schedule
  | block
  | unblock (i : Nat) (reason : Int)
  | kill (i sig : Nat)
  | fork
  | exit (val : CInt)
  | wait (pid : Int) (opt : CInt)
  | resume
  | traceme
  | traceStop

/-- What the current task does, if it is not inside of `task_wait`. -/
def act (s : Sys) : Event → Sys
  | .block => s.taskBlock
  | .fork => s.taskFork
  | .exit val => s.taskExit val
  | .wait pid opt => s.taskWait pid opt
  | .traceme => s.update s.curr Task.trace
  | .traceStop => s.ptraceStopSelf
  | _ => s

/-- An event that is not possible does nothing. -/
def step (s : Sys) (o : Event) : Option Sys :=
  if s.halt.isSome then some s
  else
    match o with
    | .schedule => some s.taskSchedule
    | .unblock i reason => some (s.taskUnblock i reason)
    | .kill i sig => some (s.killSafe i sig)
    | .resume => some s.resume
    | o => some (if s.inUser then act s o else s)

/-- A task with the given number, parent and state. -/
def task (born ppid : Nat) (stat : Stat) : Task :=
  ⟨ppid, 0, stat, .pre, 0, WNOSTATUS, 0, 0, 0, false, none, born, none, false, false⟩

/-- The kernel, the first process, which runs, and a child of it, which is prepared. -/
def boot : Sys where
  table := fun i => match i with
    | 0 => some (task 0 0 .pre)
    | 1 => some (task 1 0 .run)
    | 2 => some (task 2 1 .pre)
    | _ => none
  curr := 1
  halt := none
  picks := []
  exits := []
  returns := []
  births := 3

/-! ## What the functions do to the table -/

namespace Sys

variable {s : Sys} {P : Nat → Task → Prop} {i pid : Nat}

theorem taskGet_eq_some {t : Task} (h : s.taskGet i = some t) : i < TASK_MAX ∧ s.table i = some t := by
  rw [taskGet] at h
  split at h
  next hlt => exact ⟨hlt, h⟩
  next => cases h

theorem foldl_signal (is : List Nat) (s : Sys) : is.foldl (fun s i => s.update i (·.signal SIGCHLD)) s =
      { s with table := (is.foldl (fun s i => s.update i (·.signal SIGCHLD)) s).table } := by
  induction is generalizing s with
  | nil => rfl
  | cons i is ih =>
    rw [foldl_cons, ih]
    rfl

theorem fkillChld_eq (s : Sys) (pid : Nat) : s.fkillChld pid = { s with table := (s.fkillChld pid).table } :=
  foldl_signal _ s

/-- `fkill`: what holds of all tasks and is kept by a signal to the targets. -/
theorem forall_fkillChld (h : ∀ j t, s.table j = some t → P j t)
    (hsig : ∀ j ∈ s.targets pid, ∀ t, P j t → P j (t.signal SIGCHLD)) :
    ∀ j t, (s.fkillChld pid).table j = some t → P j t := by
  have hfold : ∀ (is : List Nat) (s' : Sys), (∀ j ∈ is, ∀ t, P j t → P j (t.signal SIGCHLD)) →
      (∀ j t, s'.table j = some t → P j t) →
      ∀ j t, (is.foldl (fun s i => s.update i (·.signal SIGCHLD)) s').table j = some t → P j t := by
    intro is
    induction is with
    | nil => exact fun s' _ h => h
    | cons i is ih =>
      intro s' hi h
      refine ih _ (fun j hj => hi j (mem_cons_of_mem i hj)) (forall_modify h fun t ht => ?_)
      exact hi i mem_cons_self t (h i t ht)
  exact hfold _ s hsig h

theorem fkillChld_pointwise {R : Task → Task → Prop} (hrefl : ∀ t, R t t) (htrans : ∀ t u v, R t u → R u v → R t v)
    (hsig : ∀ t, R t (t.signal SIGCHLD)) (s : Sys) (pid : Nat) : Pointwise R s.table (s.fkillChld pid).table := by
  have hfold : ∀ (is : List Nat) (s' : Sys),
      Pointwise R s'.table (is.foldl (fun s i => s.update i (·.signal SIGCHLD)) s').table := by
    intro is
    induction is with
    | nil => exact fun s' => .refl hrefl _
    | cons i is ih =>
      intro s'
      have hone : Pointwise R s'.table (s'.update i (·.signal SIGCHLD)).table := .modify hrefl fun t _ => hsig t
      exact hone.trans htrans (ih (s'.update i (·.signal SIGCHLD)))
  exact hfold _ s

theorem getnext_eq_some {next : Nat} (h : s.getnext = some next) :
    next < TASK_MAX ∧ ∃ t, s.table next = some t ∧ t.stat = .pre := by
  have hany := find?_some h
  have hmem := mem_of_find?_eq_some h
  obtain ⟨t, ht, hpre⟩ := (Option.any_eq_true _ _).1 hany
  obtain ⟨j, -, rfl⟩ := mem_map.1 hmem
  exact ⟨Nat.mod_lt _ (by decide), t, ht, beq_iff_eq.1 hpre⟩

/-- Scheduling does nothing, or makes a ready task run. -/
theorem taskSchedule_cases (s : Sys) :
    s.taskSchedule = s ∨ ∃ next t, next < TASK_MAX ∧ s.table next = some t ∧ t.stat = .pre ∧ s.taskSchedule =
      { (s.update s.curr fun t => if t.stat = .run then { t with stat := .pre } else t).update next
          fun t => { t with stat := .run } with
        curr := next
        picks := s.picks ++ [(next, t.stopped)] } := by
  rw [taskSchedule]
  cases s.table s.curr with
  | none => exact .inl rfl
  | some c =>
    cases hn : s.getnext with
    | none => exact .inl rfl
    | some next =>
      obtain ⟨hlt, t, ht, hpre⟩ := getnext_eq_some hn
      refine .inr ⟨next, t, hlt, ht, hpre, ?_⟩
      simp only [ht, Option.any_some]

theorem stat_of_taken {j c : Nat} {t u : Task} (ht : s.table j = some t) (hstat : t.stat = .pre)
    (hu : modify s.table c (fun t => if t.stat = .run then { t with stat := .pre } else t) j = some u) :
    u.stat = .pre := by
  obtain ⟨v, hv, rfl⟩ := modify_eq_some.1 hu
  obtain rfl : v = t := by simpa [hv] using ht
  split
  · rw [if_neg (by rw [hstat]; nofun)]
    exact hstat
  · exact hstat

/-- `task_schedule`: what holds of all tasks and is kept when a running task is taken off and a prepared one is picked.
-/
theorem forall_taskSchedule (h : ∀ j t, s.table j = some t → P j t)
    (hrun : ∀ j t, P j t → t.stat = .run → P j { t with stat := .pre })
    (hpre : ∀ j t, j < TASK_MAX → P j t → t.stat = .pre → P j { t with stat := .run }) :
    ∀ j t, s.taskSchedule.table j = some t → P j t := by
  rcases taskSchedule_cases s with heq | ⟨next, t, hlt, ht, hstat, heq⟩
  · rw [heq]
    exact h
  have hoff : ∀ j t, modify s.table s.curr (fun t => if t.stat = .run then { t with stat := .pre } else t) j = some t →
      P j t := by
    refine forall_modify h fun c hc => ?_
    split
    next hr => exact hrun _ c (h _ c hc) hr
    next => exact h _ c hc
  rw [heq]
  exact forall_modify hoff fun u hu => hpre next u hlt (hoff next u hu) (stat_of_taken ht hstat hu)

theorem taskSchedule_pointwise {R : Task → Task → Prop} (hrefl : ∀ t, R t t) (htrans : ∀ t u v, R t u → R u v → R t v)
    (hrun : ∀ t, t.stat = .run → R t { t with stat := .pre }) (hpre : ∀ t, t.stat = .pre → R t { t with stat := .run })
    (s : Sys) : Pointwise R s.table s.taskSchedule.table := by
  rcases taskSchedule_cases s with heq | ⟨next, t, hlt, ht, hstat, heq⟩
  · rw [heq]
    exact .refl hrefl _
  have hoff : Pointwise R s.table (s.update s.curr fun t => if t.stat = .run then { t with stat := .pre }
    else t).table := by
    refine .modify hrefl fun c _ => ?_
    split
    next hr => exact hrun c hr
    next => exact hrefl c
  rw [heq]
  refine hoff.trans htrans (.modify hrefl fun u hu => hpre u ?_)
  exact stat_of_taken ht hstat hu

/-- `task_report_wstat` changes nothing but the tasks, and may stop the system. -/
theorem taskReportWstat_eq (s : Sys) (i : Nat) :
    s.taskReportWstat i = { s with table := (s.taskReportWstat i).table, halt := (s.taskReportWstat i).halt } := by
  rw [taskReportWstat]
  cases s.table i with
  | none => rfl
  | some tsk =>
    dsimp only
    cases s.table tsk.ppid with
    | none => rfl
    | some prt =>
      dsimp only
      split
      · split <;> rfl
      · rw [fkillChld_eq]

/-- `task_report_wstat`: a waiting parent is told, or it gets a signal. -/
theorem forall_taskReportWstat (h : ∀ j t, s.table j = some t → P j t)
    (htell : ∀ tsk prt, s.table i = some tsk → s.table tsk.ppid = some prt → prt.stat = .blk →
      (prt.waitpid = i ∨ prt.waitpid = -1) ∧ tsk.wstatMatchTask prt.waitopt = true → P tsk.ppid (prt.tell i))
    (hsig : ∀ tsk, s.table i = some tsk → ∀ j ∈ s.targets tsk.ppid, ∀ t, P j t → P j (t.signal SIGCHLD)) :
    ∀ j t, (s.taskReportWstat i).table j = some t → P j t := by
  rw [taskReportWstat]
  cases hi : s.table i with
  | none => exact h
  | some tsk =>
    dsimp only
    cases hp : s.table tsk.ppid with
    | none => exact h
    | some prt =>
      dsimp only
      by_cases hm : (prt.waitpid = i ∨ prt.waitpid = -1) ∧ tsk.wstatMatchTask prt.waitopt = true
      · rw [if_pos hm]
        by_cases hb : prt.stat = .blk
        · rw [if_pos hb]
          refine forall_modify h fun t ht => ?_
          obtain rfl : t = prt := by simpa [hp] using ht.symm
          exact htell tsk t hi hp hb hm
        · rw [if_neg hb]
          exact h
      · rw [if_neg hm]
        exact forall_fkillChld h (hsig tsk hi)

/-- What holds of one task and is kept where it is told or gets a signal. -/
theorem taskReportWstat_at {Q : Task → Prop} {c : Nat} (h : ∀ t, s.table c = some t → Q t)
    (htell : ∀ t, Q t → Q (t.tell i)) (hsig : ∀ t, Q t → Q (t.signal SIGCHLD)) :
    ∀ t, (s.taskReportWstat i).table c = some t → Q t := by
  have hP : ∀ j t, s.table j = some t → j = c → Q t := by
    rintro j t ht rfl
    exact h t ht
  exact fun t ht => forall_taskReportWstat hP (fun _ prt _ hprt _ _ hj => htell prt (hP _ prt hprt hj))
    (fun _ _ _ _ t hP hj => hsig t (hP hj)) c t ht rfl

end Sys

end TextOS.Sched
