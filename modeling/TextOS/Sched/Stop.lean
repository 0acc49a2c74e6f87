import TextOS.Sched.Defs

/-!
# Stopped tasks

A task that a stop signal stopped is not picked by the scheduler until `SIGCONT` or `SIGKILL` is sent to it, and a
wake-up in between is not lost.

- **over every run that is clear no stopped task is picked, and `SIGCONT` makes a task prepared that was woken, or was
  not blocked** (`stopped_unpicked`); otherwise `task_unblock` starts a stopped task (`stopped_picked`).
-/

namespace TextOS.Sched

open Lib Function

/-! ## The marks of one task -/

/-- The state of a task that is not stopped, that is stopped, and that was woken while it was stopped. -/
structure Ok (t : Task) : Prop where
  free : t.stopped = false → t.stat ≠ .stp
  held : t.stopped = true → t.woken = false → t.stat = .stp ∧
    (t.statBeforeStop = .pre ∨ t.statBeforeStop.blocked = true)
  loose : t.stopped = true → t.woken = true → t.stat = .pre ∨ (t.stat = .stp ∧ t.statBeforeStop = .pre)

/-- The task has not been woken since it was stopped. -/
def Calm (t : Task) : Prop := t.stopped = true → t.woken = false
deriving Decidable

/-- A signal that wakes tasks has nothing to do for the task while it is stopped. -/
def Awake (t : Task) : Prop := t.stopped = true → t.woken = true ∨ t.statBeforeStop.blocked = false
deriving Decidable

variable {t : Task} {s s' : Sys} {f : Task → Task} {i : Nat}

theorem Ok.of_free (hs : t.stopped = false) (hstat : t.stat ≠ .stp) : Ok t :=
  ⟨fun _ => hstat, fun h => (by rw [hs] at h; cases h), fun h => (by rw [hs] at h; cases h)⟩

theorem Ok.stat_of_stopped (h : Ok t) (hs : t.stopped = true) : t.stat = .stp ∨ (t.stat = .pre ∧ t.woken = true) := by
  cases hw : t.woken with
  | false => exact .inl (h.held hs hw).1
  | true =>
    rcases h.loose hs hw with hp | ⟨hp, -⟩
    · exact .inr ⟨hp, rfl⟩
    · exact .inl hp

theorem Ok.not_stopped (h : Ok t) (hstp : t.stat ≠ .stp) (hpre : t.stat ≠ .pre ∨ Calm t) : t.stopped = false := by
  by_contra hs
  rw [Bool.not_eq_false] at hs
  rcases h.stat_of_stopped hs with hst | ⟨hst, hw⟩
  · exact hstp hst
  rcases hpre with hpre | hcalm
  · exact hpre hst
  · rw [hcalm hs] at hw
    cases hw

theorem Ok.unblock (t : Task) (reason : Int) : Ok (t.unblock reason) :=
  ⟨fun _ => nofun, fun hs hw => absurd hs (by rw [show (t.unblock reason).stopped = false from hw]; nofun),
    fun _ _ => .inl rfl⟩

theorem blocked_iff {st : Stat} : st.blocked = true ↔ st = .blk ∨ st = .slp := by cases st <;> decide

theorem stopped_signal (t : Task) (sig : Nat) : (t.signal sig).stopped = t.stopped := by
  rw [Task.signal]
  split <;> rfl

/-- A signal to a task that is awake leaves its stop in order. -/
theorem Ok.signal (h : Ok t) (ha : Awake t) (sig : Nat) :
    Ok (t.signal sig) ∧ Awake (t.signal sig) ∧ (Calm t → Calm (t.signal sig)) := by
  rw [Task.signal]
  by_cases hb : t.stat.blocked = true
  · rw [if_pos hb]
    have hs : t.stopped = false := by
      rcases blocked_iff.1 hb with hb | hb <;> exact h.not_stopped (by rw [hb]; nofun) (.inl (by rw [hb]; nofun))
    refine ⟨Ok.unblock _ _, fun hs' => ?_, fun _ hs' => ?_⟩ <;>
      exact absurd hs' (by rw [show ((t.addSig sig).unblock (-EINTR)).stopped = t.stopped from rfl, hs]; nofun)
  rw [if_neg hb]
  have hw : (t.woken || (t.stopped && t.statBeforeStop.blocked)) = t.woken := by
    cases hs : t.stopped with
    | false => rw [Bool.false_and, Bool.or_false]
    | true =>
      rcases ha hs with hw | hw
      · rw [hw, Bool.true_or]
      · rw [hw, Bool.and_false, Bool.or_false]
  rw [hw]
  exact ⟨{ h with }, ha, id⟩

/-- A stop of a task that does not run. -/
theorem Ok.stop (h : Ok t) (hr : t.stat ≠ .run) (sig : Nat) : Ok (t.stop sig) ∧ (Calm t → Calm (t.stop sig)) := by
  rw [Task.stop]
  by_cases hst : t.stat.stoppable = true
  · rw [if_pos hst]
    refine ⟨⟨nofun, fun _ hw => ⟨rfl, ?_⟩, fun _ hw => .inr ⟨rfl, ?_⟩⟩, fun hc _ => ?_⟩
    · cases hstat : t.stat <;> simp_all [Stat.stoppable, Stat.blocked]
    · -- it was stopped already and woken since
      obtain ⟨hs, hw⟩ : t.stopped = true ∧ t.woken = true := by simpa using hw
      rcases h.stat_of_stopped hs with hp | ⟨hp, -⟩
      · rw [hp] at hst
        cases hst
      · exact hp
    cases hs : t.stopped with
    | false => rfl
    | true => rw [hc hs, Bool.and_false]
  · rw [if_neg hst]
    exact ⟨{ h with }, id⟩

theorem Ok.kill (t : Task) : Ok t.kill := by
  refine Ok.of_free rfl ?_
  rw [Task.kill]
  split
  next => nofun
  next =>
    split
    next => nofun
    next hne => exact hne

/-- Continuing leaves the stop of a task in order. -/
theorem Ok.cont (h : Ok t) : Ok t.cont := by
  rw [Task.cont]
  split
  next hstp =>
    refine Ok.of_free rfl fun hb => ?_
    have hs : t.stopped = true := by
      by_contra hs
      exact h.free (by simpa using hs) hstp
    have hbefore : t.statBeforeStop = .stp := hb
    cases hw : t.woken with
    | false => rcases (h.held hs hw).2 with hp | hp <;> rw [hbefore] at hp <;> cases hp
    | true =>
      rcases h.loose hs hw with hp | ⟨-, hp⟩
      · rw [hp] at hstp
        cases hstp
      · rw [hbefore] at hp
        cases hp
  next hne => exact Ok.of_free rfl hne

/-- `SIGCONT` for a stopped task that was woken, or was not blocked. -/
theorem Ok.cont_stat (h : Ok t) (hs : t.stopped = true) (hw : t.woken = true ∨ t.statBeforeStop.blocked = false) :
    t.cont.stat = .pre := by
  have hcase : t.stat = .pre ∨ (t.stat = .stp ∧ t.statBeforeStop = .pre) := by
    cases hwk : t.woken with
    | true => exact h.loose hs hwk
    | false =>
      obtain ⟨hstp, hb⟩ := h.held hs hwk
      rw [hwk] at hw
      exact .inr ⟨hstp, hb.resolve_right (by rw [hw.resolve_left nofun]; nofun)⟩
  rw [Task.cont]
  rcases hcase with hp | ⟨hstp, hp⟩
  · rw [if_neg (by rw [hp]; nofun)]
    exact hp
  · rw [if_pos hstp]
    exact hp

/-! ## The system -/

/-- The marks of all tasks, and no task was picked while it was stopped. -/
structure Inv (s : Sys) : Prop where
  ok : ∀ i t, s.table i = some t → Ok t
  picks : ∀ x ∈ s.picks, x.2 = false

/-- No task that is stopped has been woken. -/
def AllCalm (s : Sys) : Prop := ∀ i < TASK_MAX, ∀ t ∈ s.table i, Calm t

instance (s : Sys) : Decidable (AllCalm s) := inferInstanceAs (Decidable (∀ i < TASK_MAX, ∀ t ∈ s.table i, Calm t))

/-- The tasks that a `SIGCHLD` goes to can do without it. -/
def AllAwake (s : Sys) (pid : Nat) : Prop := ∀ i ∈ s.targets pid, ∀ t ∈ s.table i, Awake t
deriving Decidable

/-- The current task can run. -/
def Runs (s : Sys) : Prop := ∀ t ∈ s.table s.curr, t.stopped = false
deriving Decidable

/-- When the scheduler runs no stopped task has been woken; a signal that would wake a task is not sent while it is
stopped; no stop signal is sent to the running task; and a stopped task does nothing. -/
def Clear (s : Sys) : Event → Prop
  | .schedule => AllCalm s
  | .kill i sig => ∀ t ∈ s.taskGet i,
      if Sys.isStop sig then
        t.stat.stoppable = true → t.stat ≠ .run ∧ AllAwake (s.update i (·.stop sig)) t.ppid ∧ (i = s.curr → AllCalm s)
      else if sig = Signal.SIGKILL then True
      else if sig = SIGCONT then t.stat = .stp → AllAwake (s.update i Task.cont) t.ppid
      else Awake t
  | .block | .wait .. => AllCalm s ∧ Runs s
  | .exit val => AllCalm s ∧ Runs s ∧
      ∀ t ∈ s.table s.curr, AllAwake (s.update s.curr (·.exit val)) t.ppid
  | .traceStop => AllCalm s ∧ Runs s ∧
      ∀ t ∈ s.table s.curr, AllAwake (s.update s.curr (·.change (makeStatStopped SIGTRAP))) t.ppid
  | _ => True

instance (s : Sys) (o : Event) : Decidable (Clear s o) := by
  unfold Clear
  split <;> infer_instance

/-- The marks of all tasks, and no stopped task that the scheduler could pick. -/
def Settled (s : Sys) : Prop := ∀ i t, s.table i = some t → Ok t ∧ (i < TASK_MAX → Calm t)

/-- `fkill` keeps the marks of all tasks, and some tasks calm. -/
theorem forall_ok_fkillChld {Q : Nat → Prop} {pid : Nat} (h : ∀ j t, s.table j = some t → Ok t ∧ (Q j → Calm t))
    (ha : AllAwake s pid) : ∀ j t, (s.fkillChld pid).table j = some t → Ok t ∧ (Q j → Calm t) := by
  have hP : ∀ j t, s.table j = some t → (Ok t ∧ (Q j → Calm t)) ∧ (j ∈ s.targets pid → Awake t) :=
    fun j t ht => ⟨h j t ht, fun hj => ha j hj t ht⟩
  refine fun j t ht => (Sys.forall_fkillChld hP (fun j hj t hP => ?_) j t ht).1
  obtain ⟨hok, haw, hcalm⟩ := hP.1.1.signal (hP.2 hj) SIGCHLD
  exact ⟨⟨hok, fun hq => hcalm (hP.1.2 hq)⟩, fun _ => haw⟩

theorem Inv.settled (h : Inv s) (hc : AllCalm s) : Settled s := fun i t ht => ⟨h.ok i t ht, fun hi => hc i hi t ht⟩

namespace Settled

theorem ok (h : Settled s) : ∀ i t, s.table i = some t → Ok t := fun i t ht => (h i t ht).1

theorem update (h : Settled s)
    (hf : ∀ t, s.table i = some t → Ok t → (Calm t → Calm (f t)) ∧ Ok (f t)) : Settled (s.update i f) :=
  forall_modify h fun t ht => ⟨(hf t ht (h i t ht).1).2, fun hi => (hf t ht (h i t ht).1).1 ((h i t ht).2 hi)⟩

theorem fkillChld {pid : Nat} (h : Settled s) (ha : AllAwake s pid) : Settled (s.fkillChld pid) :=
    forall_ok_fkillChld h ha

/-- Scheduling picks no stopped task. -/
theorem taskSchedule (h : Settled s) (hp : ∀ x ∈ s.picks, x.2 = false) : Inv s.taskSchedule := by
  have hpre : ∀ j t, j < TASK_MAX → Ok t ∧ (j < TASK_MAX → Calm t) → t.stat = .pre → t.stopped = false :=
    fun j t hj hP hst => hP.1.not_stopped (by rw [hst]; nofun) (.inr (hP.2 hj))
  constructor
  · refine fun j t ht => (Sys.forall_taskSchedule h (fun j t hP hst => ?_) (fun j t hj hP hst => ?_) j t ht).1
    · have hfree : t.stopped = false := hP.1.not_stopped (by rw [hst]; nofun) (.inl (by rw [hst]; nofun))
      exact ⟨Ok.of_free hfree nofun, hP.2⟩
    · exact ⟨Ok.of_free (hpre j t hj hP hst) nofun, hP.2⟩
  rcases Sys.taskSchedule_cases s with heq | ⟨next, t, hlt, ht, hst, heq⟩
  · rw [heq]
    exact hp
  rw [heq]
  intro x hx
  rcases List.mem_append.1 hx with hx | hx
  · exact hp x hx
  · rw [List.mem_singleton.1 hx]
    exact hpre next t hlt (h next t ht) hst

theorem set (h : Settled s) (hr : Runs s) (hf : ∀ t, (f t).stopped = t.stopped ∧ (t.stat ≠ .stp → (f t).stat ≠ .stp)) :
    Settled (s.update s.curr f) := by
  refine h.update fun t ht hok => ?_
  have hfree : (f t).stopped = false := by rw [(hf t).1, hr t ht]
  exact ⟨fun _ hs => (by rw [hfree] at hs; cases hs), Ok.of_free hfree ((hf t).2 (hok.free (hr t ht)))⟩

theorem taskBlock (h : Settled s) (hr : Runs s) (hp : ∀ x ∈ s.picks, x.2 = false) : Inv s.taskBlock :=
  (h.set hr (f := Task.block) fun _ => ⟨rfl, fun _ => nofun⟩).taskSchedule hp

theorem taskReportWstat (h : Settled s) (ha : ∀ t ∈ s.table i, AllAwake s t.ppid) :
    Settled (s.taskReportWstat i) := by
  have hP : ∀ j t, s.table j = some t →
      (Ok t ∧ (j < TASK_MAX → Calm t)) ∧ (∀ tsk ∈ s.table i, j ∈ s.targets tsk.ppid → Awake t) :=
    fun j t ht => ⟨h j t ht, fun tsk hi hj => ha tsk hi j hj t ht⟩
  refine fun j t ht => (Sys.forall_taskReportWstat hP (fun tsk prt _ hprt hb _ => ?_)
    (fun tsk hi j hj t hP => ?_) j t ht).1
  · have hfree : prt.stopped = false := (h.ok _ prt hprt).not_stopped (by rw [hb]; nofun) (.inl (by rw [hb]; nofun))
    have hfree' : (prt.tell i).stopped = false := hfree
    refine ⟨⟨Ok.of_free hfree' nofun, fun _ hs => ?_⟩, fun _ _ _ hs => ?_⟩ <;>
      rw [hfree'] at hs <;> cases hs
  · obtain ⟨hok, haw, hcalm⟩ := hP.1.1.signal (hP.2 tsk hi hj) SIGCHLD
    exact ⟨⟨hok, fun hlt => hcalm (hP.1.2 hlt)⟩, fun _ _ _ => haw⟩

end Settled

theorem Runs.update (h : Runs s) (hf : ∀ t, (f t).stopped = t.stopped) : Runs (s.update i f) := by
  intro t ht
  obtain ⟨u, hu, rfl⟩ := modify_eq_some.1 ht
  split
  · exact (hf u).trans (h u hu)
  · exact h u hu

theorem Runs.taskReportWstat (h : Runs s) : Runs (s.taskReportWstat i) := by
  intro t ht
  rw [Sys.taskReportWstat_eq] at ht
  exact Sys.taskReportWstat_at h (fun _ ht => ht) (fun t ht => (stopped_signal t SIGCHLD).trans ht) t ht

namespace Inv

theorem update (h : Inv s) (hf : ∀ t, s.table i = some t → Ok (f t)) :
    Inv (s.update i f) := ⟨forall_modify h.ok hf, h.picks⟩

theorem fkillChld {pid : Nat} (h : Inv s) (ha : AllAwake s pid) : Inv (s.fkillChld pid) := by
  refine ⟨fun j t ht => (forall_ok_fkillChld (Q := fun _ => False) (fun j t ht => ⟨h.ok j t ht, nofun⟩) ha j t ht).1,
    ?_⟩
  rw [Sys.fkillChld_eq]
  exact h.picks

/-- After an exit no stopped task is picked. -/
theorem exitEnd (h : Settled s) (hp : ∀ x ∈ s.picks, x.2 = false) (p : Nat) : Inv (s.exitEnd p) := by
  have hadopt : Settled (s.adopt p) := by
    intro i t ht
    obtain ⟨u, hu, rfl⟩ := Option.map_eq_some_iff.1 ht
    obtain ⟨hok, hcalm⟩ := h i u hu
    split
    · exact ⟨{ hok with }, hcalm⟩
    · exact ⟨hok, hcalm⟩
  rw [Sys.exitEnd]
  split
  · exact ⟨h.ok, hp⟩
  split
  · exact ⟨h.ok, hp⟩
  dsimp only
  split
  · exact hadopt.taskSchedule hp
  · exact ⟨hadopt.ok, hp⟩

theorem taskExit {val : CInt} (h : Inv s) (hc : Clear s (.exit val)) : Inv (s.taskExit val) := by
  obtain ⟨hcalm, hr, ha⟩ := hc
  have hset : Settled (s.markExit val) := (h.settled hcalm).set hr (f := (·.exit val)) fun _ => ⟨rfl, fun _ => nofun⟩
  refine exitEnd (hset.taskReportWstat fun t ht => ?_) ?_ s.curr
  · obtain ⟨t', ht', rfl⟩ := modify_eq_some.1 ht
    rw [if_pos rfl]
    exact ha t' ht'
  · rw [Sys.taskReportWstat_eq]
    exact h.picks

theorem waitEnd (h : Inv s) (opt : CInt) (reason target : Int) : Inv (s.waitEnd opt reason target) := by
  rw [Sys.waitEnd]
  split
  · exact ⟨h.ok, h.picks⟩
  split
  · exact ⟨h.ok, h.picks⟩
  next chd _ =>
    have hupd : Inv (s.update target.toNat Task.reported) := h.update fun t ht => { h.ok _ t ht with }
    dsimp only
    split
    · refine ⟨fun i t ht => hupd.ok i t ?_, h.picks⟩
      by_cases hi : i = target.toNat
      · subst hi
        simp at ht
      · simpa [update_of_ne hi] using ht
    · exact ⟨hupd.ok, h.picks⟩

/-- A wait keeps the invariant, whether it returns or blocks. -/
theorem taskWait {pid : Int} {opt : CInt} (h : Inv s) (hc : AllCalm s ∧ Runs s) : Inv (s.taskWait pid opt) := by
  have hret : ∀ v, Inv (s.ret opt 0 v) := fun v => ⟨h.ok, h.picks⟩
  have hfor : Inv (s.waitFor pid opt) := by
    rw [Sys.waitFor]
    split
    · exact h.waitEnd opt 0 _
    split
    · exact hret 0
    have hset := (h.settled hc.1).set hc.2
      (f := (·.enterWait pid opt)) fun _ => ⟨rfl, id⟩
    exact hset.taskBlock (hc.2.update fun _ => rfl) h.picks
  rw [Sys.taskWait]
  split
  · split
    · exact hfor
    · exact hret _
  split
  · split
    · exact hfor
    · exact hret _
  · exact ⟨h.ok, h.picks⟩

theorem taskFork (h : Inv s) : Inv s.taskFork := by
  rw [Sys.taskFork]
  split
  next pid prt _ _ =>
    refine ⟨fun i t ht => ?_, h.picks⟩
    by_cases hi : i = pid
    · subst hi
      dsimp only at ht
      rw [update_self] at ht
      cases ht
      exact Ok.of_free rfl nofun
    dsimp only at ht
    rw [update_of_ne hi] at ht
    exact h.ok i t ht
  next => exact ⟨h.ok, h.picks⟩

theorem resume (h : Inv s) : Inv s.resume := by
  rw [Sys.resume]
  split
  · exact h
  split
  · exact h
  · exact (h.update (f := Task.leaveWait) fun t ht => { h.ok _ t ht with }).waitEnd _ _ _

/-- A task that stops for its tracer keeps the invariant. -/
theorem ptraceStopSelf (h : Inv s) (hc : Clear s .traceStop) : Inv s.ptraceStopSelf := by
  obtain ⟨hcalm, hr, ha⟩ := hc
  rw [Sys.ptraceStopSelf]
  split
  · have hset := (h.settled hcalm).set hr (f := (·.change (makeStatStopped SIGTRAP))) fun _ => ⟨rfl, id⟩
    have hrep := hset.taskReportWstat (i := s.curr) fun t ht => by
      obtain ⟨t', ht', rfl⟩ := modify_eq_some.1 ht
      rw [if_pos rfl]
      exact ha t' ht'
    have hrun : Runs (s.update s.curr (·.change (makeStatStopped SIGTRAP))) := hr.update fun _ => rfl
    have hpicks : ∀ x ∈ ((s.update s.curr (·.change (makeStatStopped SIGTRAP))).taskReportWstat s.curr).picks,
        x.2 = false := by
      rw [Sys.taskReportWstat_eq]
      exact h.picks
    rw [Sys.traceBlock]
    split
    · exact ⟨hrep.ok, hpicks⟩
    · exact hrep.taskBlock hrun.taskReportWstat hpicks
  · exact h

/-- Sending a signal keeps the invariant, whatever its default action. -/
theorem killSafe {i sig : Nat} (h : Inv s) (hc : Clear s (.kill i sig)) : Inv (s.killSafe i sig) := by
  rw [Sys.killSafe]
  cases hi : s.taskGet i with
  | none => exact h
  | some t =>
    obtain ⟨hlt, ht⟩ := Sys.taskGet_eq_some hi
    have hone : ∀ u, s.table i = some u → u = t := fun u hu => by simpa [ht] using hu.symm
    have hci := hc t hi
    dsimp only
    by_cases h0 : Signal.NSIG ≤ sig ∨ sig = 0 ∨ i = 0
    · rw [if_pos h0]
      exact h
    rw [if_neg h0]
    by_cases hstop : Sys.isStop sig = true
    · rw [if_pos hstop] at hci ⊢
      by_cases hst : t.stat.stoppable = true
      · obtain ⟨hrun, ha, hcalm⟩ := hci hst
        have hfk := (h.update (f := (·.stop sig)) fun u hu =>
          ((h.ok i u hu).stop (by rw [hone u hu]; exact hrun) sig).1).fkillChld ha
        rw [if_pos hst]
        have hcurr : ((s.update i (·.stop sig)).fkillChld t.ppid).curr = s.curr := by rw [Sys.fkillChld_eq]; rfl
        split
        next hi =>
          have hset := ((h.settled (hcalm (hi.trans hcurr))).update (i := i) (f := (·.stop sig))
            fun u hu hok => (hok.stop (by rw [hone u hu]; exact hrun) sig).symm).fkillChld ha
          exact hset.taskSchedule hfk.picks
        next => exact hfk
      · rw [if_neg hst]
        refine h.update fun u hu => ?_
        rw [Task.stop, if_neg (by rw [hone u hu]; exact hst)]
        exact { h.ok i u hu with }
    rw [if_neg hstop] at hci ⊢
    by_cases hkill : sig = Signal.SIGKILL
    · rw [if_pos hkill]
      exact h.update fun u _ => Ok.kill u
    rw [if_neg hkill] at hci ⊢
    by_cases hcont : sig = SIGCONT
    · rw [if_pos hcont] at hci ⊢
      have hupd := h.update (f := Task.cont) fun u hu => (h.ok i u hu).cont
      split
      next hstp => exact hupd.fkillChld (hci hstp)
      next => exact hupd
    · rw [if_neg hcont] at hci ⊢
      exact h.update fun u hu => ((h.ok i u hu).signal (by rw [hone u hu]; exact hci) sig).1

/-- One event keeps the invariant. -/
theorem step {o : Event} (h : Inv s) (hc : Clear s o) (hs : step s o = some s') : Inv s' := by
  unfold Sched.step at hs
  split at hs
  · cases hs
    exact h
  have hact : ∀ s1, Inv s1 → Inv (if s.inUser then s1 else s) := fun s1 h1 => by
    split
    · exact h1
    · exact h
  cases o with
  | schedule =>
    cases hs
    exact (h.settled hc).taskSchedule h.picks
  | unblock i reason =>
    cases hs
    exact h.update fun t _ => Ok.unblock t reason
  | kill i sig =>
    cases hs
    exact h.killSafe hc
  | resume =>
    cases hs
    exact h.resume
  | block =>
    cases hs
    exact hact _ ((h.settled hc.1).taskBlock hc.2 h.picks)
  | fork =>
    cases hs
    exact hact _ h.taskFork
  | exit val =>
    cases hs
    exact hact _ (h.taskExit hc)
  | wait pid opt =>
    cases hs
    exact hact _ (h.taskWait hc)
  | traceme =>
    cases hs
    exact hact _ (h.update fun t ht => { h.ok _ t ht with })
  | traceStop =>
    cases hs
    exact hact _ (h.ptraceStopSelf hc)

end Inv

/-! ## Runs -/

theorem stat_signal_of_pre (h : t.stat = .pre) (sig : Nat) : (t.signal sig).stat = .pre := by
  rw [Task.signal, if_neg (by rw [h]; nofun)]
  exact h

/-- `SIGCONT` for a stopped task that was woken, or was not blocked. -/
theorem cont_prepared (hok : Ok t) (hi : 0 < i) (hlt : i < TASK_MAX) (ht : s.table i = some t) (hs : t.stopped = true)
    (hw : t.woken = true ∨ t.statBeforeStop.blocked = false) : ∃ t', (s.killSafe i SIGCONT).table i = some t' ∧
    t'.stat = .pre := by
  have hupd : (s.update i Task.cont).table i = some t.cont := modify_self ht
  have hpre := hok.cont_stat hs hw
  rw [Sys.killSafe, Sys.taskGet, if_pos hlt, ht]
  dsimp only
  rw [if_neg (by rw [Signal.NSIG, SIGCONT]; omega), if_neg (by decide), if_neg (by decide), if_pos rfl]
  split
  · obtain ⟨t', ht', hkeep⟩ := (Sys.fkillChld_pointwise (R := fun t t' => t.stat = .pre → t'.stat = .pre) (fun _ => id)
      (fun _ _ _ h h' hp => h' (h hp)) (fun _ hp => stat_signal_of_pre hp SIGCHLD)
      (s.update i Task.cont) t.ppid).right hupd
    exact ⟨t', ht', hkeep hpre⟩
  · exact ⟨_, hupd, hpre⟩

/-- **Stopped tasks**: in every state that is reached by a clear run no task has been picked by the scheduler while it
was stopped, and `SIGCONT` makes a stopped task prepared if it was woken while it was stopped, or was not blocked
before. -/
theorem stopped_unpicked (s₀ s : Sys) (hfree : ∀ i t, s₀.table i = some t → t.stopped = false ∧ t.stat ≠ .stp)
    (hpicks : s₀.picks = []) (os : List Event) (hos : Meets step Clear s₀ os) (hr : run step s₀ os = some s) :
    (∀ x ∈ s.picks, x.2 = false) ∧
    ∀ i t s', 0 < i → i < TASK_MAX → s.halt = none → s.table i = some t → t.stopped = true →
      t.woken = true ∨ t.statBeforeStop.blocked = false → step s (.kill i SIGCONT) = some s' →
      ∃ t', s'.table i = some t' ∧ t'.stat = .pre := by
  have h0 : Inv s₀ := ⟨fun i t ht => Ok.of_free (hfree i t ht).1 (hfree i t ht).2, by rw [hpicks]; nofun⟩
  have h := run_meets_inv (fun _ _ _ hi hc hs => hi.step hc hs) h0 hos hr
  refine ⟨h.picks, fun i t s' hi hlt hhalt ht hs hw hstep => ?_⟩
  rw [step, hhalt] at hstep
  cases hstep
  exact cont_prepared (h.ok i t ht) hi hlt ht hs hw

theorem boot_free (i : Nat) (t : Task) (h : boot.table i = some t) : t.stopped = false ∧ t.stat ≠ .stp := by
  match i with
  | 0 | 1 | 2 =>
    cases h
    exact ⟨rfl, nofun⟩
  | _ + 3 => cases h

/-- The child runs, blocks and is stopped. It is woken, and then continued. -/
def stopEvents : List Event :=
  [.schedule, .block, .kill 2 SIGTSTP, .schedule, .unblock 2 0]

theorem stopped_unpicked_events : ∃ s s' t', run step boot stopEvents = some s ∧
    (s.table 2).map Task.stopped = some true ∧ step s (.kill 2 SIGCONT) = some s' ∧ s'.table 2 = some t' ∧
    t'.stat = .pre := by
  obtain ⟨s, hr⟩ : ∃ s, run step boot stopEvents = some s := ⟨_, rfl⟩
  have hval : (run step boot stopEvents).map (fun s => (s.halt, (s.table 2).map fun t => (t.stopped, t.woken))) =
      some (none, some (true, true)) := by decide +kernel
  rw [hr] at hval
  obtain ⟨hhalt, t, ht, hstop, hwoken⟩ : s.halt = none ∧ ∃ t, s.table 2 = some t ∧ t.stopped = true ∧
    t.woken = true := by
    simpa using hval
  obtain ⟨s', hs'⟩ : ∃ s', step s (.kill 2 SIGCONT) = some s' := ⟨_, by rw [step, hhalt]; rfl⟩
  have h := stopped_unpicked boot s boot_free rfl stopEvents (by decide +kernel) hr
  obtain ⟨t', ht', hpre⟩ := h.2 2 t s' (by decide) (by decide) hhalt ht hstop (.inl hwoken) hs'
  exact ⟨s, s', t', hr, by rw [ht]; exact congrArg some hstop, hs', ht', hpre⟩

/-- A child that is blocked and stopped is picked after `task_unblock`, without `SIGCONT`; a signal for it is lost, and
after `SIGCONT` it is blocked; and a task that stops itself is never prepared again. -/
theorem stopped_picked :
    (run step boot [.schedule, .block, .kill 2 SIGTSTP, .unblock 2 0, .schedule, .schedule]).map
    (·.picks.contains (2, true)) =
      some true ∧
    (run step boot [.schedule, .block, .kill 2 SIGTSTP, .kill 2 10, .kill 2 SIGCONT]).map
    (fun s => (s.table 2).map Task.stat) =
      some (some .blk) ∧
    (run step boot [.schedule, .kill 2 SIGTSTP, .kill 2 SIGCONT]).map (fun s => (s.curr, (s.table 2).map Task.stat)) =
      some (0, some .run) := by
  decide +kernel

end TextOS.Sched
