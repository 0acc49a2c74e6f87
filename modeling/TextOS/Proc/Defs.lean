import TextOS.Lib.Run

/-!
# Ids, groups, sessions and terminals of tasks: `kernel/task.c`, `kernel/dev/tty/ctrltty.c`

The table has a place for each process id; a task that has exited stays in it until its parent waits for it, and then
the place is used again. A call that does not return stops the system: a null pointer is used, an assertion fails, or
the first process exits. Signals that the calls send are not modelled here.
-/

namespace TextOS.Proc

open Lib Function

def TASK_MAX : Nat := 16

def EPERM : Int := 1
def ESRCH : Int := 3
def EACCES : Int := 13
def EINVAL : Int := 22

/-- `(uid_t)-1`. -/
def NOID : Nat := 2 ^ 32 - 1

/-- `task_t`; `dead` is `stat == TASK_DIE`. -/
structure Task where
  dead : Bool
  didExec : Bool
  ruid : Nat
  euid : Nat
  suid : Nat
  rgid : Nat
  egid : Nat
  sgid : Nat
  sid : Nat
  ppid : Nat
  pgid : Nat
  ctrltty : Option Nat

/-- `tty_t`. -/
structure Tty where
  sesId : Nat
  sesHolders : Nat

inductive Halt
  | fault
  | panic
  | assertion
deriving DecidableEq

/-- `table`, the terminals, and why the system has stopped. -/
structure Sys where
  table : Nat → Option Task
  tty : Nat → Tty
  halt : Option Halt

def Sys.set (s : Sys) (p : Nat) (tsk : Task) : Sys := { s with table := update s.table p (some tsk) }

def Sys.stop (s : Sys) (h : Halt) : Sys := { s with halt := some h }

def taskGet (s : Sys) (pid : Int) : Option Task :=
  if pid < 0 ∨ TASK_MAX ≤ pid then none else s.table pid.toNat

def getfree (s : Sys) : Option Nat := (List.range TASK_MAX).find? fun i => (s.table i).isNone

/-! ## User and group ids -/

def setuid (tsk : Task) (uid : Nat) : Task × Int :=
  if tsk.euid = 0 then ({ tsk with ruid := uid, euid := uid, suid := uid }, 0)
  else if uid = tsk.ruid ∨ uid = tsk.suid then ({ tsk with euid := uid }, 0)
  else (tsk, -EPERM)

def setgid (tsk : Task) (gid : Nat) : Task × Int :=
  if tsk.egid = 0 then ({ tsk with rgid := gid, egid := gid, sgid := gid }, 0)
  else if gid = tsk.rgid ∨ gid = tsk.sgid then ({ tsk with egid := gid }, 0)
  else (tsk, -EPERM)

def setreuid (tsk : Task) (ruid euid : Nat) : Task × Int :=
  if tsk.euid ≠ 0 ∧ (ruid ≠ NOID ∨ (euid ≠ NOID ∧ euid ≠ tsk.ruid ∧ euid ≠ tsk.euid ∧ euid ≠ tsk.suid))
    then (tsk, -EPERM)
  else
    ({ tsk with
        ruid := if ruid ≠ NOID then ruid else tsk.ruid,
        euid := if euid ≠ NOID then euid else tsk.euid }, 0)

def setregid (tsk : Task) (rgid egid : Nat) : Task × Int :=
  if tsk.egid ≠ 0 ∧ ((rgid ≠ NOID ∧ rgid ≠ tsk.sgid) ∨ (egid ≠ NOID ∧ egid ≠ tsk.sgid ∧ egid ≠ tsk.rgid))
    then (tsk, -EPERM)
  else
    ({ tsk with
        rgid := if rgid ≠ NOID then rgid else tsk.rgid,
        egid := if egid ≠ NOID then egid else tsk.egid }, 0)

/-! ## Terminals -/

/-- The tasks that `task_foreach_next` goes through: none if there is no task 1. -/
def foreachNext (s : Sys) (i : Nat) : Bool := (s.table 1).isSome && decide (1 ≤ i)

/-- `ctrltty_detach`. The leader of a session takes the terminal from all tasks of the session. -/
def ctrlttyDetach (s : Sys) (p : Nat) (tsk : Task) : Sys :=
  match tsk.ctrltty with
  | none => s
  | some t =>
    if (s.tty t).sesId ≠ tsk.sid ∨ (s.tty t).sesHolders = 0 then s.stop .assertion
    else
      let holders := (s.tty t).sesHolders - 1
      let tty := update s.tty t ⟨if holders = 0 then 0 else (s.tty t).sesId, holders⟩
      let table := fun i => (s.table i).map fun q =>
        if p = tsk.sid ∧ foreachNext s i = true ∧ q.sid = p ∧ i ≠ p then { q with ctrltty := none } else q
      { s with table := update table p (some { tsk with ctrltty := none }), tty := tty }

def ctrlttyRefer (s : Sys) (tsk : Task) : Sys :=
  match tsk.ctrltty with
  | none => s
  | some t =>
    if (s.tty t).sesId ≠ tsk.sid ∨ (s.tty t).sesHolders = 0 then s.stop .assertion
    else { s with tty := update s.tty t ⟨(s.tty t).sesId, (s.tty t).sesHolders + 1⟩ }

def ttyInitPctx (s : Sys) (p : Nat) (tsk : Task) (t : Nat) : Sys :=
  if (s.tty t).sesHolders = 0 ∧ tsk.sid = p ∧ tsk.ctrltty = none then
    { s.set p { tsk with ctrltty := some t } with tty := update s.tty t ⟨tsk.sid, 1⟩ }
  else s

/-! ## Groups and sessions -/

def setsid (s : Sys) (p : Nat) (tsk : Task) : Sys × Int :=
  if tsk.pgid = p then (s, -EPERM)
  else
    let s' := ctrlttyDetach s p tsk
    if s'.halt.isSome then (s', 0) else (s'.set p { tsk with ctrltty := none, sid := p, pgid := p }, p)

/-- `setpgid`; with `pgid` zero the group is the caller's id, also for a child. -/
def setpgid (s : Sys) (p : Nat) (pid pgid : Int) : Sys × Int :=
  if pid < 0 then (s, -EINVAL)
  else
    let pid := if pid = 0 then (p : Int) else pid
    match taskGet s pid with
    | none => (s, -ESRCH)
    | some ptsk =>
      if pid ≠ p ∧ ptsk.ppid ≠ p then (s, -ESRCH)
      else if pid = ptsk.sid then (s, -EPERM)
      else
        let pgid := if pgid = 0 then (p : Int) else pgid
        match taskGet s pgid with
        | none => (s, -ESRCH)
        | some ltsk =>
          if ptsk.sid ≠ ltsk.sid then (s, -EPERM)
          else if ptsk.didExec then (s, -EACCES)
          else (s.set pid.toNat { ptsk with pgid := pgid.toNat }, 0)

/-! ## Fork and exit -/

/-- `task_fork`; without a free place a null pointer is used. -/
def taskFork (s : Sys) (p : Nat) (prt : Task) : Sys :=
  match getfree s with
  | none => s.stop .fault
  | some c =>
    let s' := ctrlttyRefer s prt
    if s'.halt.isSome then s' else s'.set c { prt with dead := false, didExec := false, ppid := p }

/-- `task_exit`. The parent is told first, and has to be in the table. -/
def taskExit (s : Sys) (p : Nat) (tsk : Task) : Sys :=
  if (s.table tsk.ppid).isNone then s.stop .fault
  else
    let s₁ := s.set p { tsk with dead := true }
    let s₂ := ctrlttyDetach s₁ p { tsk with dead := true }
    if s₂.halt.isSome then s₂
    else if p = 1 then s₂.stop .panic
    else { s₂ with table := fun i => (s₂.table i).map fun q => if q.ppid = p then { q with ppid := 1 } else q }

/-- The end of `task_wait` for a child that has exited. -/
def taskReap (s : Sys) (p c : Nat) : Sys :=
  match s.table c with
  | none => s
  | some chd => if chd.ppid = p ∧ chd.dead = true then { s with table := update s.table c none } else s

inductive Call
  | setuid (uid : Nat)
  | setgid (gid : Nat)
  | setreuid (ruid euid : Nat)
  | setregid (rgid egid : Nat)
  | setsid
  | setpgid (pid pgid : Int)
  | fork
  | exit
  | wait (c : Nat)
  | ttyOpen (t : Nat)

/-- A call of the task `p`, which is alive. -/
def call (s : Sys) (p : Nat) (tsk : Task) : Call → Sys
  | .setuid uid => s.set p (setuid tsk uid).1
  | .setgid gid => s.set p (setgid tsk gid).1
  | .setreuid ruid euid => s.set p (setreuid tsk ruid euid).1
  | .setregid rgid egid => s.set p (setregid tsk rgid egid).1
  | .setsid => (setsid s p tsk).1
  | .setpgid pid pgid => (setpgid s p pid pgid).1
  | .fork => taskFork s p tsk
  | .exit => taskExit s p tsk
  | .wait c => taskReap s p c
  | .ttyOpen t => ttyInitPctx s p tsk t

/-- One call; there is none of a task that does not exist or has exited, or when the system has stopped. -/
def step (s : Sys) (o : Nat × Call) : Option Sys :=
  match s.halt, s.table o.1 with
  | none, some tsk => if tsk.dead then none else some (call s o.1 tsk o.2)
  | _, _ => none

theorem step_eq_some {s s' : Sys} {o : Nat × Call} : step s o = some s' ↔
    s.halt = none ∧ ∃ tsk, s.table o.1 = some tsk ∧ tsk.dead = false ∧ call s o.1 tsk o.2 = s' := by
  rw [step]
  cases s.halt with
  | some h => simp
  | none =>
    cases s.table o.1 with
    | none => simp
    | some tsk => cases hd : tsk.dead <;> simp [hd]

theorem getfree_eq_some {s : Sys} {c : Nat} (h : getfree s = some c) : c < TASK_MAX ∧ s.table c = none := by
  have hc := List.find?_some h
  exact ⟨List.mem_range.1 (List.mem_of_find?_eq_some h), by simpa using hc⟩

@[simp] theorem set_self (s : Sys) (p : Nat) (tsk : Task) : (s.set p tsk).table p = some tsk := update_self _ _ _

theorem set_of_ne {s : Sys} {p q : Nat} (h : q ≠ p) (tsk : Task) : (s.set p tsk).table q = s.table q :=
    update_of_ne h _ _

theorem ctrlttyRefer_table (s : Sys) (tsk : Task) : (ctrlttyRefer s tsk).table = s.table := by
  rw [ctrlttyRefer]
  split
  next => rfl
  next => split <;> rfl

/-- A fork stops the system or adds a child. -/
theorem taskFork_cases (s : Sys) (p : Nat) (prt : Task) :
    ((taskFork s p prt).halt ≠ none ∧ (taskFork s p prt).table = s.table) ∨
    ∃ c, getfree s = some c ∧ (ctrlttyRefer s prt).halt = none ∧
      taskFork s p prt = (ctrlttyRefer s prt).set c { prt with dead := false, didExec := false, ppid := p } := by
  rw [taskFork]
  cases getfree s with
  | none => exact .inl ⟨nofun, rfl⟩
  | some c =>
    dsimp only
    split
    next h =>
      refine .inl ⟨fun h0 => ?_, ctrlttyRefer_table s prt⟩
      rw [h0] at h
      cases h
    next h => exact .inr ⟨c, rfl, by simpa using h, rfl⟩

/-! ## The calls of user and group ids -/

/-- Two tasks that differ in their user and group ids only. -/
structure SameJob (t t' : Task) : Prop where
  dead : t'.dead = t.dead
  sid : t'.sid = t.sid
  pgid : t'.pgid = t.pgid
  ctrltty : t'.ctrltty = t.ctrltty

theorem setuid_sameJob (tsk : Task) (uid : Nat) : SameJob tsk (setuid tsk uid).1 := by
  rw [setuid]
  split
  · exact ⟨rfl, rfl, rfl, rfl⟩
  · split <;> exact ⟨rfl, rfl, rfl, rfl⟩

theorem setgid_sameJob (tsk : Task) (gid : Nat) : SameJob tsk (setgid tsk gid).1 := by
  rw [setgid]
  split
  · exact ⟨rfl, rfl, rfl, rfl⟩
  · split <;> exact ⟨rfl, rfl, rfl, rfl⟩

theorem setreuid_sameJob (tsk : Task) (ruid euid : Nat) : SameJob tsk (setreuid tsk ruid euid).1 := by
  rw [setreuid]
  split <;> exact ⟨rfl, rfl, rfl, rfl⟩

theorem setregid_sameJob (tsk : Task) (rgid egid : Nat) : SameJob tsk (setregid tsk rgid egid).1 := by
  rw [setregid]
  split <;> exact ⟨rfl, rfl, rfl, rfl⟩

/-! ## Groups -/

theorem taskGet_eq_some {s : Sys} {tsk : Task} {pid : Int} (h : taskGet s pid = some tsk) :
    pid.toNat < TASK_MAX ∧ s.table pid.toNat = some tsk := by
  rw [taskGet] at h
  split at h
  next => cases h
  next hr =>
    exact ⟨by omega, h⟩

/-- `setpgid` fails, or a task gets the group of a task of the same session. -/
theorem setpgid_cases (s : Sys) (p : Nat) (pid pgid : Int) : (setpgid s p pid pgid).1 = s ∨
    ∃ q g ptsk ltsk, g = (if pgid = 0 then p else pgid.toNat) ∧ q < TASK_MAX ∧ s.table q = some ptsk ∧
      s.table g = some ltsk ∧ ptsk.sid = ltsk.sid ∧ (setpgid s p pid pgid).1 = s.set q { ptsk with pgid := g } := by
  have hgid : (if pgid = 0 then (p : Int) else pgid).toNat = if pgid = 0 then p else pgid.toNat := by
    split
    · exact Int.toNat_natCast p
    · rfl
  rw [setpgid]
  split
  next => exact .inl rfl
  next =>
    dsimp only
    generalize (if pid = 0 then (p : Int) else pid) = q
    generalize (if pgid = 0 then (p : Int) else pgid) = g at hgid ⊢
    split
    next => exact .inl rfl
    next ptsk hptsk =>
      split
      next => exact .inl rfl
      next =>
        split
        next => exact .inl rfl
        next =>
          split
          next => exact .inl rfl
          next ltsk hltsk =>
            split
            next => exact .inl rfl
            next hsid =>
              split
              next => exact .inl rfl
              next =>
                obtain ⟨hq, hqt⟩ := taskGet_eq_some hptsk
                obtain ⟨-, hgt⟩ := taskGet_eq_some hltsk
                exact .inr ⟨q.toNat, g.toNat, ptsk, ltsk, hgid, hq, hqt, hgt, not_not.1 hsid, rfl⟩

end TextOS.Proc
