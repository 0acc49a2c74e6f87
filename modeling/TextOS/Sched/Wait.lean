import TextOS.Sched.Defs

/-!
# Waiting for children

`task_wait` returns a child only for a change of its status that was not reported before, and every exit is reported
once.

- **over every run that is clear the returns are fair and every exit is reported once** (`waits_fair`); otherwise a
  signal makes `task_wait` return a child without news (`wait_interrupted`).
-/

namespace TextOS.Sched.Wait

open Lib List Function

variable {opt : CInt}

/-! ## Statuses -/

/-- The status is one that `opt` selects, or a traced stop. -/
def Selected (t : Task) (opt : CInt) : Prop :=
  (WIFEXITED t.retval = true ∧ WEXITED &&& opt ≠ 0) ∨
  (WIFSTOPPED t.retval = true ∧ (t.dbgTraced = true ∨ WSTOPPED &&& opt ≠ 0)) ∨
  (WIFCONTINUED t.retval = true ∧ WCONTINUED &&& opt ≠ 0)

theorem or_and_eq_zero {a b o : CInt} : (a ||| b) &&& o = 0 ↔ a &&& o = 0 ∧ b &&& o = 0 := by
  have hdist : (a ||| b) &&& o = (a &&& o) ||| (b &&& o) := by
    refine BitVec.eq_of_getLsbD_eq fun i _ => ?_
    simp only [BitVec.getLsbD_and, BitVec.getLsbD_or, Bool.and_or_distrib_right]
  rw [hdist]
  exact BitVec.or_eq_zero_iff

/-- A child that matches has a status, of a kind the caller asked for. -/
theorem wstatMatchTask_spec {t : Task} (h : t.wstatMatchTask opt = true) : t.retval ≠ WNOSTATUS ∧ Selected t opt := by
  rw [Task.wstatMatchTask] at h
  split at h
  next htr =>
    rw [Bool.and_eq_true] at htr
    refine ⟨fun he => ?_, .inr (.inl ⟨htr.2, .inl htr.1⟩)⟩
    rw [he] at htr
    exact absurd htr.2 (by decide)
  next =>
    rw [Task.wstatMatchWopt] at h
    split at h
    · cases h
    next hne =>
      refine ⟨fun he => hne (beq_iff_eq.2 he), ?_⟩
      by_contra hsel
      rw [Selected, not_or, not_or, not_and, not_and, not_and, not_or] at hsel
      obtain ⟨hex, hst, hco⟩ := hsel
      apply absurd h
      rw [bne_iff_ne, not_not, or_and_eq_zero, or_and_eq_zero]
      refine ⟨⟨?_, ?_⟩, ?_⟩
      · split
        next hs => exact not_not.1 (hst hs).2
        next => exact BitVec.zero_and
      · split
        next he => exact not_not.1 (hex he)
        next => exact BitVec.zero_and
      split
      next hc => exact not_not.1 (hco hc)
      next => exact BitVec.zero_and

theorem ne_of_wifexited {v : CInt} (h : WIFEXITED v = true) : v ≠ WNOSTATUS := by
  rintro rfl
  exact absurd h (by decide)

/-- An exited child matches whoever asks for exits. -/
theorem wstatMatchTask_of_exited {t : Task} (h : WIFEXITED t.retval = true) (ho : WEXITED &&& opt ≠ 0) :
    t.wstatMatchTask opt = true := by
  rw [Task.wstatMatchTask]
  split
  · rfl
  rw [Task.wstatMatchWopt, if_neg (by simpa using ne_of_wifexited h)]
  rw [bne_iff_ne, Ne, or_and_eq_zero, or_and_eq_zero, if_pos h]
  exact fun hz => ho hz.1.2

/-- The trace of a task only adds to what `wstat_match_task` accepts. -/
theorem wstatMatchTask_mono {t t' : Task} (h : t.wstatMatchTask opt = true) (hr : t'.retval = t.retval)
    (hd : t.dbgTraced = true → t'.dbgTraced = true) : t'.wstatMatchTask opt = true := by
  rw [Task.wstatMatchTask] at h ⊢
  split at h
  next htr =>
    rw [Bool.and_eq_true] at htr
    rw [hr, hd htr.1, htr.2]
    rfl
  next =>
    split
    · rfl
    · rw [hr]
      exact h

/-! ## One task -/

/-- A task that sleeps in `task_wait`, maybe stopped. -/
def Parked (t : Task) : Prop := t.stat = .blk ∨ (t.stat = .stp ∧ t.statBeforeStop = .blk)

/-- What is known of a task: about its `task_wait`, its status, and its end. -/
structure TaskInv (exits : List Nat) (births : Nat) (t : Task) : Prop where
  idle : t.call = none → t.waitpid = 0
  opt : ∀ k, t.call = some k → t.waitopt = k.opt
  waiting : ∀ k, t.call = some k → k.told = false → t.waitpid = k.pid ∧ (k.pid = -1 ∨ Parked t)
  told : ∀ k, t.call = some k → k.told = true →
    t.bretval = 0 ∧ t.stat.blocked = false ∧ (t.stat = .stp → t.statBeforeStop.blocked = false)
  news : t.news = if t.retval = WNOSTATUS then none else some t.retval
  live : t.stat ≠ .die → WIFEXITED t.retval = false
  dead : t.stat = .die → t.call = none ∧ (t.retval = WNOSTATUS ∨ WIFEXITED t.retval = true)
  before : t.stat = .stp → t.statBeforeStop ≠ .die ∧ t.statBeforeStop ≠ .stp
  born : t.born < births
  exit : t.stat = .die ↔ t.born ∈ exits

/-- A wake-up without news does no harm to the task. -/
def Safe (t : Task) : Prop := ∀ k ∈ t.call, k.told = true ∨ k.pid = -1
deriving Decidable

/-- What is not touched when a task is woken, stopped or picked. -/
def view (t : Task) := (t.ppid, t.retval, t.waitpid, t.waitopt, t.dbgTraced, t.call, t.born, t.news)

/-- The task is woken, stopped or picked, and not more. -/
def Same (t t' : Task) : Prop := view t' = view t ∧ (t'.stat = .die ↔ t.stat = .die)

theorem Same.refl (t : Task) : Same t t := ⟨rfl, Iff.rfl⟩

theorem Same.trans (t u v : Task) (h : Same t u) (h' : Same u v) : Same t v := ⟨h'.1.trans h.1, h'.2.trans h.2⟩

variable {exits : List Nat} {births : Nat} {t t' : Task}

/-- A change of the scheduling state alone keeps the task's invariant. -/
theorem TaskInv.restat (h : TaskInv exits births t) (hs : Same t t')
    (hw : ∀ k, t.call = some k → k.told = false → k.pid = -1 ∨ Parked t') (ht : ∀ k, t.call = some k → k.told = true →
      t'.bretval = 0 ∧ t'.stat.blocked = false ∧ (t'.stat = .stp → t'.statBeforeStop.blocked = false))
    (hb : t'.stat = .stp → t'.statBeforeStop ≠ .die ∧ t'.statBeforeStop ≠ .stp) : TaskInv exits births t' := by
  obtain ⟨hview, hdie⟩ := hs
  simp only [view, Prod.mk.injEq] at hview
  obtain ⟨-, hretval, hwaitpid, hwaitopt, -, hcall, hborn, hnews⟩ := hview
  refine ⟨?_, ?_, ?_, ?_, ?_, ?_, ?_, hb, ?_, ?_⟩
  · rw [hcall, hwaitpid]
    exact h.idle
  · rw [hcall, hwaitopt]
    exact h.opt
  · rw [hcall, hwaitpid]
    exact fun k hk ht => ⟨(h.waiting k hk ht).1, hw k hk ht⟩
  · rw [hcall]
    exact ht
  · rw [hnews, hretval]
    exact h.news
  · rw [Ne, hdie, hretval]
    exact h.live
  · rw [hdie, hcall, hretval]
    exact h.dead
  · rw [hborn]
    exact h.born
  · rw [hdie, hborn]
    exact h.exit

theorem TaskInv.of_exits {exits' : List Nat} (h : TaskInv exits births t) (he : t.born ∈ exits' ↔ t.born ∈ exits) :
    TaskInv exits' births t :=
  { h with exit := h.exit.trans he.symm }

theorem not_die_of_blocked (h : t.stat.blocked = true) : t.stat ≠ .die := by
  intro hd
  rw [hd] at h
  cases h

theorem same_unblock (hd : t.stat ≠ .die) (sig : Nat) (reason : Int) : Same t ((t.addSig sig).unblock reason) :=
  ⟨rfl, ⟨nofun, fun h => absurd h hd⟩⟩

theorem same_signal (t : Task) (sig : Nat) : Same t (t.signal sig) := by
  rw [Task.signal]
  split
  next hb => exact same_unblock (not_die_of_blocked hb) _ _
  next => exact ⟨rfl, Iff.rfl⟩

theorem TaskInv.signal (h : TaskInv exits births t) (hs : t.stat.blocked = true → Safe t) (sig : Nat) :
    TaskInv exits births (t.signal sig) := by
  have hsame := same_signal t sig
  rw [Task.signal] at hsame ⊢
  split
  next hb =>
    rw [if_pos hb] at hsame
    refine h.restat hsame (fun k hk ht => ?_) (fun k hk ht => ?_) nofun
    · exact .inl ((hs hb k hk).resolve_left (by rw [ht]; nofun))
    · exact absurd hb (by rw [(h.told k hk ht).2.1]; nofun)
  next hb =>
    rw [if_neg hb] at hsame
    exact h.restat hsame (fun k hk ht => (h.waiting k hk ht).2) h.told h.before

theorem same_kill (t : Task) : Same t t.kill := by
  rw [Task.kill]
  split
  next hb =>
    exact same_unblock (not_die_of_blocked hb) Signal.SIGKILL (makeStatSignal Signal.SIGKILL).toInt
  next =>
    split
    next hs => exact ⟨rfl, ⟨nofun, fun h => absurd (hs.symm.trans h) nofun⟩⟩
    next => exact ⟨rfl, Iff.rfl⟩

/-- A kill keeps the invariant of a task that may be woken without news. -/
theorem TaskInv.kill (h : TaskInv exits births t) (hs : t.stat.blocked = true ∨ t.stat = .stp → Safe t) :
    TaskInv exits births t.kill := by
  have hsame := same_kill t
  rw [Task.kill] at hsame ⊢
  by_cases hb : (t.addSig Signal.SIGKILL).stat.blocked = true
  · rw [if_pos hb, if_neg nofun] at hsame ⊢
    refine h.restat hsame (fun k hk ht => ?_) (fun k hk ht => ?_) nofun
    · exact .inl ((hs (.inl hb) k hk).resolve_left (by rw [ht]; nofun))
    · exact absurd hb (by rw [show (t.addSig Signal.SIGKILL).stat = t.stat from rfl, (h.told k hk ht).2.1]; nofun)
  rw [if_neg hb] at hsame ⊢
  by_cases hstp : (t.addSig Signal.SIGKILL).stat = .stp
  · rw [if_pos hstp] at hsame ⊢
    refine h.restat hsame (fun k hk ht => ?_) (fun k hk ht => ⟨(h.told k hk ht).1, rfl, nofun⟩) nofun
    exact .inl ((hs (.inr hstp) k hk).resolve_left (by rw [ht]; nofun))
  · rw [if_neg hstp] at hsame ⊢
    exact h.restat hsame (fun k hk ht => (h.waiting k hk ht).2) h.told h.before

theorem TaskInv.change (h : TaskInv exits births t) (hd : t.stat ≠ .die) {v : CInt} (hv : v ≠ WNOSTATUS)
    (he : WIFEXITED v = false) : TaskInv exits births (t.change v) :=
  { h with news := (if_neg hv).symm, live := fun _ => he, dead := fun h => absurd h hd }

theorem isStop_cases {sig : Nat} (h : Sys.isStop sig = true) : sig = 19 ∨ sig = 20 ∨ sig = 21 ∨ sig = 22 := by
  simpa [Sys.isStop, Signal.SIGSTOP, SIGTSTP, SIGTTIN, SIGTTOU, or_assoc] using h

theorem makeStatStopped_spec {sig : Nat} (h : Sys.isStop sig = true ∨ sig = SIGTRAP) :
    makeStatStopped sig ≠ WNOSTATUS ∧ WIFEXITED (makeStatStopped sig) = false := by
  rcases h with h | rfl
  · rcases isStop_cases h with rfl | rfl | rfl | rfl <;> decide
  · decide

theorem stoppable_iff {st : Stat} : st.stoppable = true ↔ st ≠ .die ∧ st ≠ .stp := by cases st <;> decide

theorem TaskInv.stop (h : TaskInv exits births t) {sig : Nat} (hsig : Sys.isStop sig = true) :
    TaskInv exits births (t.stop sig) := by
  rw [Task.stop]
  by_cases hst : t.stat.stoppable = true
  · rw [if_pos hst]
    obtain ⟨hd, hs⟩ := stoppable_iff.1 hst
    obtain ⟨hv, he⟩ := makeStatStopped_spec (.inl hsig)
    refine (h.change hd hv he).restat ⟨rfl, ⟨nofun, fun h => absurd h hd⟩⟩ (fun k hk ht => ?_) (fun k hk ht => ?_)
      fun _ => ⟨hd, hs⟩
    · exact (h.waiting k hk ht).2.imp_right fun hp => .inr ⟨rfl, hp.resolve_right fun hp => hs hp.1⟩
    · exact ⟨(h.told k hk ht).1, rfl, fun _ => (h.told k hk ht).2.1⟩
  · rw [if_neg hst]
    exact h.restat ⟨rfl, Iff.rfl⟩ (fun k hk ht => (h.waiting k hk ht).2) h.told h.before

theorem TaskInv.cont (h : TaskInv exits births t) : TaskInv exits births t.cont := by
  rw [Task.cont]
  by_cases hs : t.stat = .stp
  · rw [if_pos hs]
    have hd : t.stat ≠ .die := by rw [hs]; nofun
    refine (h.change hd (v := makeStatContinued) (by decide) (by decide)).restat ⟨rfl, ?_⟩ (fun k hk ht => ?_)
      (fun k hk ht => ?_) ?_
    · exact ⟨fun hb => absurd hb (h.before hs).1, fun h => absurd h hd⟩
    · exact (h.waiting k hk ht).2.imp_right fun hp => .inl (hp.resolve_left (by rw [hs]; nofun)).2
    · obtain ⟨hb, -, hbefore⟩ := h.told k hk ht
      exact ⟨hb, hbefore hs, fun hstp => absurd hstp (h.before hs).2⟩
    · exact fun hstp => absurd hstp (h.before hs).2
  · rw [if_neg hs]
    exact h.restat ⟨rfl, Iff.rfl⟩ (fun k hk ht => (h.waiting k hk ht).2) h.told h.before

/-! ## The system -/

/-- A child of the parent `i` is the one that it will return. -/
def Told (m : Nat → Option Task) (i : Nat) (t : Task) (k : Call) : Prop :=
  ∃ (c : Nat) (chd : Task), t.waitpid = c ∧ c < TASK_MAX ∧ m c = some chd ∧ chd.ppid = i ∧
  chd.wstatMatchTask k.opt = true

/-- How often the exit of a task has been reported. -/
def reports (returns : List Return) (u : Nat) : Nat :=
  (returns.filter fun r => r.chd.any fun c => c.born == u && WIFEXITED c.retval).length

/-- The exit of a task has been reported, or it is known to its parent only. -/
def Accounted (m : Nat → Option Task) (returns : List Return) (u : Nat) : Prop :=
  (reports returns u = 1 ∧ ∀ i t, m i = some t → t.born = u → t.retval = WNOSTATUS) ∨
  (reports returns u = 0 ∧ ∃ i t, m i = some t ∧ t.born = u ∧ WIFEXITED t.retval = true)

/-- A return of `task_wait` with a child: the status that is stored is the last change of a child that was not reported,
it is selected, and no signal ended the block; and a child that is destroyed has exited. -/
def Fair (exits : List Nat) (r : Return) : Prop :=
  (0 < r.value → ∃ chd, r.chd = some chd ∧ chd.ppid = r.waiter ∧ r.status = some chd.retval ∧ chd.news = r.status ∧
    Selected chd r.opt ∧ r.reason = 0) ∧
  (r.destroyed = true → ∃ chd, r.chd = some chd ∧ chd.stat = .die ∧ chd.born ∈ exits)

theorem Fair.mono {exits exits' : List Nat} {r : Return} (h : Fair exits r) (he : exits ⊆ exits') : Fair exits' r := by
  refine ⟨h.1, fun hd => ?_⟩
  obtain ⟨chd, hc, hdie, hb⟩ := h.2 hd
  exact ⟨chd, hc, hdie, he hb⟩

/-- The invariant of the system. -/
structure Core (s : Sys) : Prop where
  task : ∀ i t, s.table i = some t → TaskInv s.exits s.births t
  told : ∀ i t k, s.table i = some t → t.call = some k → k.told = true → Told s.table i t k
  uniq : ∀ i j t u, s.table i = some t → s.table j = some u → t.born = u.born → i = j
  lt : s.curr < TASK_MAX
  exitsLt : ∀ u ∈ s.exits, u < s.births
  unborn : ∀ u, u ∉ s.exits → reports s.returns u = 0
  acc : ∀ u ∈ s.exits, Accounted s.table s.returns u
  fair : ∀ r ∈ s.returns, Fair s.exits r
  sound : s.halt ≠ some .assertion

/-- The current task has not exited. -/
def Alive (s : Sys) : Prop := ∀ t, s.table s.curr = some t → t.stat ≠ .die

/-- The tasks that a `SIGCHLD` goes to are not harmed by a wake-up. -/
def AllSafe (s : Sys) (pid : Nat) : Prop := ∀ i ∈ s.targets pid, ∀ t ∈ s.table i, t.stat.blocked = true → Safe t
deriving Decidable

/-- The parent of the task is not about to return it. -/
def Untold (s : Sys) (i : Nat) : Prop :=
  ∀ t ∈ s.table i, ∀ prt ∈ s.table t.ppid, ∀ k ∈ prt.call, k.told = true → prt.waitpid ≠ i
deriving Decidable

/-- The parent of the task is blocked if it waits for it, and otherwise not harmed by `SIGCHLD`. -/
def Reports (s : Sys) (i : Nat) : Prop :=
  ∀ t ∈ s.table i, ∀ prt ∈ s.table t.ppid,
    if (prt.waitpid = i ∨ prt.waitpid = -1) ∧ t.wstatMatchTask prt.waitopt = true then prt.stat =
      .blk else AllSafe s t.ppid
deriving Decidable

/-- A parent in `task_wait` for one child is woken by its children only and goes on when it has been picked; it is
blocked when they tell it, and their status does not change again before it returns. Tasks exit with an exit code, and
the kernel does not exit. -/
def Clear (s : Sys) : Event → Prop
  | .kill i sig => ∀ t ∈ s.taskGet i,
      if Sys.isStop sig then t.stat.stoppable = true → Untold s i ∧ AllSafe (s.update i (·.stop sig)) t.ppid
      else if sig = Signal.SIGKILL then t.stat.blocked = true ∨ t.stat = .stp → Safe t
      else if sig = SIGCONT then t.stat = .stp → Untold s i ∧ AllSafe (s.update i Task.cont) t.ppid
      else t.stat.blocked = true → Safe t
  | .unblock i _ => ∀ t ∈ s.table i, t.call = none ∧ t.stat ≠ .die
  | .exit val => s.curr ≠ 0 ∧ WIFEXITED val = true ∧ Untold s s.curr ∧ Reports (s.update s.curr (·.exit val)) s.curr
  | .traceStop => s.curr ≠ 0 ∧ Untold s s.curr ∧ Reports (s.update s.curr (·.change (makeStatStopped SIGTRAP))) s.curr
  | .resume => ∀ t ∈ s.table s.curr, t.stat = .run
  | _ => True

instance (s : Sys) : DecidablePred (Clear s)
  | .schedule | .block | .unblock _ _ | .kill _ _ | .fork | .exit _ | .wait _ _ | .resume | .traceme | .traceStop => by
    dsimp only [Clear]; infer_instance

variable {s s' : Sys} {i : Nat} {f : Task → Task}

/-- What a parent sees of its child. -/
def Kid (t t' : Task) : Prop :=
  t'.ppid = t.ppid ∧ t'.retval = t.retval ∧ (t.dbgTraced = true → t'.dbgTraced = true) ∧ t'.born = t.born

theorem Same.kid (h : Same t t') : Kid t t' := by
  have hview := h.1
  simp only [view, Prod.mk.injEq] at hview
  exact ⟨hview.1, hview.2.1, by rw [hview.2.2.2.2.1]; exact id, hview.2.2.2.2.2.2.1⟩

theorem Told.mono {m m' : Nat → Option Task} {k : Call} (h : Told m i t k) (hm : Pointwise Kid m m')
    (hw : t'.waitpid = t.waitpid) : Told m' i t' k := by
  obtain ⟨c, chd, hwait, hlt, hc, hppid, hmatch⟩ := h
  obtain ⟨chd', hc', hp, hr, hd, -⟩ := hm.right hc
  exact ⟨c, chd', hw.trans hwait, hlt, hc', hp.trans hppid, wstatMatchTask_mono hmatch hr hd⟩

/-- The tasks keep their numbers and statuses. -/
def Stays (t t' : Task) : Prop := t'.born = t.born ∧ t'.retval = t.retval

/-- What is accounted for stays so while the tasks keep their births. -/
theorem Accounted.mono {m m' : Nat → Option Task} {returns : List Return} {u : Nat} (h : Accounted m returns u)
    (hm : Pointwise Stays m m') : Accounted m' returns u := by
  rcases h with ⟨hrep, hall⟩ | ⟨hrep, i, t, hi, hb, hx⟩
  · refine .inl ⟨hrep, fun i t' ht' hb' => ?_⟩
    obtain ⟨t, ht, hb, hr⟩ := hm.left ht'
    exact hr.trans (hall i t ht (hb.symm.trans hb'))
  · obtain ⟨t', ht', hb', hr'⟩ := hm.right hi
    exact .inr ⟨hrep, i, t', ht', hb'.trans hb, by rw [hr']; exact hx⟩

namespace Core

/-- The tasks keep what their parents see of them, and each parent keeps its child or has a new one. -/
theorem of_kid (h : Core s) (hm : Pointwise Kid s.table s'.table)
    (htask : ∀ i t, s'.table i = some t → TaskInv s'.exits s'.births t)
    (htold : ∀ i t' k, s'.table i = some t' → t'.call = some k → k.told = true →
      (∃ t, s.table i = some t ∧ t.call = some k ∧ t'.waitpid = t.waitpid) ∨ Told s'.table i t' k)
    (hlt : s'.curr < TASK_MAX) (he : s'.exits = s.exits) (hr : s'.returns = s.returns) (hb : s'.births = s.births)
    (hs : s'.halt ≠ some .assertion) : Core s' := by
  refine ⟨htask, fun i t' k ht' hk hto => ?_, fun i j t' u' ht' hu' hborn => ?_, hlt, ?_, ?_, ?_, ?_, hs⟩
  · rcases htold i t' k ht' hk hto with ⟨t, ht, hk', hw⟩ | hnew
    · exact (h.told i t k ht hk' hto).mono hm hw
    · exact hnew
  · obtain ⟨t, ht, -, -, -, hbt⟩ := hm.left ht'
    obtain ⟨u, hu, -, -, -, hbu⟩ := hm.left hu'
    exact h.uniq i j t u ht hu (by rw [← hbt, ← hbu, hborn])
  · rw [he, hb]
    exact h.exitsLt
  · rw [he, hr]
    exact h.unborn
  · rw [he, hr]
    exact fun u hu => (h.acc u hu).mono (hm.mono fun _ _ hk => ⟨hk.2.2.2, hk.2.1⟩)
  · rw [he, hr]
    exact h.fair

/-- One task changes and tells nobody. -/
theorem revise (h : Core s) (hf : ∀ t, s.table i = some t → Kid t (f t) ∧ TaskInv s.exits s.births (f t))
    (htold : ∀ t k, s.table i = some t → (f t).call = some k → k.told = true →
      t.call = some k ∧ (f t).waitpid = t.waitpid ∨ Told (s.update i f).table i (f t) k) : Core (s.update i f) := by
  refine h.of_kid (.modify (fun _ => ⟨rfl, rfl, id, rfl⟩) fun t ht => (hf t ht).1)
    (forall_modify h.task fun t ht => (hf t ht).2) (fun j u' k hu' hk hto => ?_) h.lt rfl rfl rfl h.sound
  obtain ⟨u, hu, rfl⟩ := modify_eq_some.1 hu'
  by_cases hj : j = i
  · subst hj
    rw [if_pos rfl] at hk ⊢
    exact (htold u k hu hk hto).imp_left fun hsame => ⟨u, hu, hsame⟩
  · rw [if_neg hj] at hk ⊢
    exact .inl ⟨u, hu, hk, rfl⟩

/-- Changes of scheduling states keep the core. -/
theorem of_same (h : Core s) (hm : Pointwise Same s.table s'.table)
    (htask : ∀ i t, s'.table i = some t → TaskInv s.exits s.births t) (hlt : s'.curr < TASK_MAX)
    (he : s'.exits = s.exits) (hr : s'.returns = s.returns) (hb : s'.births = s.births)
    (hs : s'.halt = s.halt) : Core s' := by
  refine h.of_kid (hm.mono fun _ _ => Same.kid) (by rw [he, hb]; exact htask) (fun i t' k ht' hk _ => ?_) hlt he hr hb
    (by rw [hs]; exact h.sound)
  obtain ⟨t, ht, hview, -⟩ := hm.left ht'
  simp only [view, Prod.mk.injEq] at hview
  exact .inl ⟨t, ht, by rw [← hview.2.2.2.2.2.1, hk], hview.2.2.1⟩

theorem update (h : Core s) (hf : ∀ t, s.table i = some t → Same t (f t) ∧ TaskInv s.exits s.births (f t)) :
    Core (s.update i f) :=
  h.of_same (.modify Same.refl fun t ht => (hf t ht).1) (forall_modify h.task fun t ht => (hf t ht).2) h.lt
  rfl rfl rfl rfl

theorem fkillChld {pid : Nat} (h : Core s) (hs : AllSafe s pid) : Core (s.fkillChld pid) := by
  have hP : ∀ j t, s.table j = some t →
      TaskInv s.exits s.births t ∧ (j ∈ s.targets pid → t.stat.blocked = true → Safe t) :=
    fun j t ht => ⟨h.task j t ht, fun hj => hs j hj t ht⟩
  have htask := Sys.forall_fkillChld hP fun j hj t hP => ⟨hP.1.signal (hP.2 hj) SIGCHLD, fun _ hb => ?_⟩
  · have hm := Sys.fkillChld_pointwise Same.refl Same.trans (fun t => same_signal t SIGCHLD) s pid
    rw [Sys.fkillChld_eq]
    exact h.of_same hm (fun i t ht => (htask i t ht).1) h.lt rfl rfl rfl rfl
  rw [Task.signal] at hb ⊢
  split
  next hb' =>
    rw [if_pos hb'] at hb
    cases hb
  next hb' =>
    rw [if_neg hb'] at hb
    exact absurd hb hb'

/-- Scheduling keeps the core. -/
theorem taskSchedule (h : Core s) : Core s.taskSchedule := by
  have hflip : ∀ t st, t.stat ≠ .stp → t.stat.blocked = false → TaskInv s.exits s.births t →
    st.blocked = false → st ≠ .stp →
      (st = .die ↔ t.stat = .die) → TaskInv s.exits s.births { t with stat := st } := by
    intro t st hstp hb ht hb' hstp' hdie
    refine ht.restat ⟨rfl, hdie⟩ (fun k hk hto => ?_) (fun k hk hto => ?_) (fun h => absurd h hstp')
    · refine (ht.waiting k hk hto).2.imp_right fun hp => ?_
      rcases hp with hp | hp
      · rw [hp] at hb
        cases hb
      · exact absurd hp.1 hstp
    · exact ⟨(ht.told k hk hto).1, hb', fun h => absurd h hstp'⟩
  have htask := Sys.forall_taskSchedule (P := fun _ t => TaskInv s.exits s.births t) h.task
    (fun _ t ht hst => hflip t .pre (by rw [hst]; nofun) (by rw [hst]; rfl) ht rfl nofun (by rw [hst]; decide))
    (fun _ t _ ht hst => hflip t .run (by rw [hst]; nofun) (by rw [hst]; rfl) ht rfl nofun (by rw [hst]; decide))
  have hm := Sys.taskSchedule_pointwise Same.refl Same.trans (fun t hst => ⟨rfl, by rw [hst]; exact ⟨nofun, nofun⟩⟩)
    (fun t hst => ⟨rfl, by rw [hst]; exact ⟨nofun, nofun⟩⟩) s
  rcases Sys.taskSchedule_cases s with heq | ⟨next, t, hlt, -, -, heq⟩
  · rw [heq]
    exact h
  refine h.of_same hm htask ?_ ?_ ?_ ?_ ?_ <;> rw [heq]
  · exact hlt
  all_goals rfl

/-- A live task's status changes, with at most its own exit recorded. -/
theorem change (e : List Nat) (h : Core s) (ht : s.table i = some t) (hun : Untold s i) (hlive : t.stat ≠ .die)
    (hkeep : (f t).ppid = t.ppid ∧ (f t).waitpid = t.waitpid ∧ (f t).call = t.call ∧ (f t).born = t.born)
    (he : e = [] ∨ (e = [t.born] ∧ WIFEXITED (f t).retval = true)) (hinv : TaskInv (s.exits ++ e) s.births (f t)) :
    Core { s.update i f with exits := s.exits ++ e } := by
  obtain ⟨hppid, hwaitpid, hcall, hborn⟩ := hkeep
  have hone : ∀ u, s.table i = some u → u = t := fun u hu => by simpa [ht] using hu.symm
  have hnew : t.born ∉ s.exits := fun hm => hlive ((h.task i t ht).exit.2 hm)
  have hother : ∀ j u, s.table j = some u → j ≠ i → u.born ≠ t.born := fun j u hu hj hb => hj (h.uniq j i u t hu ht hb)
  have hbornEq : Pointwise (fun a b => b.born = a.born) s.table (modify s.table i f) :=
    .modify (fun _ => rfl) fun u hu => by rw [hone u hu, hborn]
  have hmem : ∀ u, u ≠ t.born → (u ∈ s.exits ++ e ↔ u ∈ s.exits) := by
    rintro u hu
    rcases he with rfl | ⟨rfl, -⟩
    · rw [append_nil]
    · simp [hu]
  refine ⟨fun j u' hu' => ?_, fun j u' k hu' hk hto => ?_, fun j l u' v' hu' hv' hb => ?_, h.lt, fun u hu => ?_,
    fun u hu => ?_, fun u hu => ?_, fun r hr => (h.fair r hr).mono (subset_append_left _ _), h.sound⟩
  · obtain ⟨u, hu, rfl⟩ := modify_eq_some.1 hu'
    by_cases hj : j = i
    · subst hj
      rw [if_pos rfl, hone u hu]
      exact hinv
    · rw [if_neg hj]
      exact (h.task j u hu).of_exits (hmem _ (hother j u hu hj))
  · -- the child that a parent was told of is another one
    obtain ⟨u, hu, rfl⟩ := modify_eq_some.1 hu'
    have hsame : (if j = i then f u else u).call = u.call ∧ (if j = i then f u else u).waitpid = u.waitpid := by
      split
      next hj =>
        subst hj
        rw [hone u hu]
        exact ⟨hcall, hwaitpid⟩
      next => exact ⟨rfl, rfl⟩
    rw [hsame.1] at hk
    obtain ⟨c, chd, hw, hlt, hc, hp, hmatch⟩ := h.told j u k hu hk hto
    have hci : c ≠ i := by
      rintro rfl
      obtain rfl := hone chd hc
      exact hun chd hc u (by rw [hp]; exact hu) k hk hto hw
    exact ⟨c, chd, hsame.2.trans hw, hlt, (modify_of_ne hci).trans hc, hp, hmatch⟩
  · obtain ⟨u, hu, hbu⟩ := hbornEq.left hu'
    obtain ⟨v, hv, hbv⟩ := hbornEq.left hv'
    exact h.uniq j l u v hu hv (by rw [← hbu, ← hbv, hb])
  · rcases mem_append.1 hu with hu | hu
    · exact h.exitsLt u hu
    rcases he with rfl | ⟨rfl, -⟩
    · cases hu
    · rw [mem_singleton.1 hu]
      exact (h.task i t ht).born
  · exact h.unborn u fun hu' => hu (mem_append_left _ hu')
  by_cases hut : u = t.born
  · subst hut
    rcases he with rfl | ⟨-, hx⟩
    · exact absurd ((append_nil s.exits) ▸ hu) hnew
    · exact .inr ⟨h.unborn _ hnew, i, f t, modify_self ht, hborn, hx⟩
  rcases h.acc u ((hmem u hut).1 hu) with ⟨hrep, hall⟩ | ⟨hrep, j, v, hv, hb, hx⟩
  · refine .inl ⟨hrep, fun j v' hv' hb => ?_⟩
    obtain ⟨v, hv, rfl⟩ := modify_eq_some.1 hv'
    by_cases hj : j = i
    · subst hj
      rw [if_pos rfl, hone v hv, hborn] at hb
      exact absurd hb.symm hut
    · rw [if_neg hj] at hb ⊢
      exact hall j v hv hb
  have hj : j ≠ i := by
    rintro rfl
    rw [hone v hv] at hb
    exact hut hb.symm
  exact .inr ⟨hrep, j, v, (modify_of_ne hj).trans hv, hb, hx⟩

theorem change_live (h : Core s) (ht : s.table i = some t) (hun : Untold s i) (hlive : t.stat ≠ .die)
    (hkeep : (f t).ppid = t.ppid ∧ (f t).waitpid = t.waitpid ∧ (f t).call = t.call ∧ (f t).born = t.born)
    (hinv : TaskInv s.exits s.births (f t)) : Core (s.update i f) := by
  have hch := h.change (f := f) [] ht hun hlive hkeep (.inl rfl) (by rw [append_nil]; exact hinv)
  rw [append_nil] at hch
  exact hch

/-- Reporting a status to the parent keeps the core: the parent is told of this child. -/
theorem taskReportWstat (h : Core s) (hi : i ≠ 0) (hlt : i < TASK_MAX) (hrep : Reports s i) :
    Core (s.taskReportWstat i) := by
  have hfault : Core (s.stopWith .fault) := { h with sound := fun hc => by cases hc }
  rw [Sys.taskReportWstat]
  cases ht : s.table i with
  | none => exact hfault
  | some tsk =>
    dsimp only
    cases hp : s.table tsk.ppid with
    | none => exact hfault
    | some prt =>
      dsimp only
      have hr := hrep tsk ht prt hp
      split
      next hm =>
        rw [if_pos hm] at hr
        rw [if_pos hr]
        -- the parent is in a `task_wait` and has no news yet
        obtain ⟨k, hk⟩ : ∃ k, prt.call = some k := by
          cases hc : prt.call with
          | some k => exact ⟨k, rfl⟩
          | none =>
            have := (h.task _ prt hp).idle hc
            omega
        have hone : ∀ u, s.table tsk.ppid = some u → u = prt := fun u hu => by simpa [hp] using hu.symm
        have hpinv := h.task _ prt hp
        have hnew : TaskInv s.exits s.births (prt.tell i) := by
          refine ⟨fun hc => ?_, fun k' hk' => ?_, fun k' hk' hto => ?_,
            fun k' hk' _ => ⟨rfl, rfl, (fun hb => by cases hb)⟩, hpinv.news, fun _ => hpinv.live (by rw [hr]; decide),
            (fun hb => by cases hb), (fun hb => by cases hb), hpinv.born, ?_⟩
          · rw [Task.tell, hk] at hc
            cases hc
          · rw [Task.tell, hk] at hk'
            cases hk'
            exact hpinv.opt k hk
          · rw [Task.tell, hk] at hk'
            cases hk'
            cases hto
          have hx := hpinv.exit
          rw [hr] at hx
          exact ⟨(fun hb => by cases hb), fun hb => absurd (hx.2 hb) (by simp)⟩
        have hkid : Pointwise Kid s.table (s.update tsk.ppid (·.tell i)).table :=
          .modify (fun _ => ⟨rfl, rfl, id, rfl⟩) fun _ _ => ⟨rfl, rfl, id, rfl⟩
        refine h.revise (fun u hu => ⟨⟨rfl, rfl, id, rfl⟩, by rw [hone u hu]; exact hnew⟩)
          fun u k' hu hk' hto => .inr ?_
        obtain rfl := hone u hu
        rw [Task.tell, hk] at hk'
        cases hk'
        obtain ⟨chd, hchd, hcp, hcr, hcd, -⟩ := hkid.right ht
        refine ⟨i, chd, rfl, hlt, hchd, hcp, wstatMatchTask_mono ?_ hcr hcd⟩
        rw [← hpinv.opt k hk]
        exact hm.2
      next hm =>
        rw [if_neg hm] at hr
        exact h.fkillChld hr

theorem stopWith {r : Halt} (h : Core s) (hr : r ≠ .assertion) : Core (s.stopWith r) :=
  { h with sound := fun he => hr (Option.some.inj he) }

/-- Children of a dying task go to init. -/
theorem adopt {p : Nat} (h : Core s) (hp : ∀ t, s.table p = some t → t.call = none) : Core (s.adopt p) := by
  have hleft : ∀ {i u'}, (s.adopt p).table i = some u' →
      ∃ u, s.table i = some u ∧ u' = if u.ppid = p then { u with ppid := 1 } else u := by
    intro i u' hu'
    obtain ⟨u, hu, rfl⟩ := Option.map_eq_some_iff.1 hu'
    exact ⟨u, hu, rfl⟩
  have hstay : Pointwise Stays s.table (s.adopt p).table := by
    intro i
    show Option.Rel Stays (s.table i) ((s.table i).map _)
    cases s.table i with
    | none => exact .none
    | some u =>
      refine .some ?_
      dsimp only
      split <;> exact ⟨rfl, rfl⟩
  refine ⟨fun i u' hu' => ?_, fun i u' k hu' hk hto => ?_, fun i j u' v' hu' hv' hb => ?_, h.lt, h.exitsLt, h.unborn,
    fun u hu => (h.acc u hu).mono hstay, h.fair, h.sound⟩
  · obtain ⟨u, hu, rfl⟩ := hleft hu'
    have hinv := h.task i u hu
    split
    · exact { hinv with }
    · exact hinv
  · obtain ⟨u, hu, rfl⟩ := hleft hu'
    have hsame : (if u.ppid = p then { u with ppid := 1 } else u).call = u.call ∧
        (if u.ppid = p then { u with ppid := 1 } else u).waitpid = u.waitpid := by
      split <;> exact ⟨rfl, rfl⟩
    rw [hsame.1] at hk
    obtain ⟨c, chd, hw, hlt, hc, hcp, hmatch⟩ := h.told i u k hu hk hto
    -- a parent in `task_wait` is not the one that exits
    have hne : chd.ppid ≠ p := by
      rintro rfl
      rw [hcp] at hp
      rw [hp u hu] at hk
      cases hk
    refine ⟨c, chd, hsame.2.trans hw, hlt, ?_, hcp, hmatch⟩
    show (s.table c).map _ = some chd
    rw [hc, Option.map_some, if_neg hne]
  · obtain ⟨u, hu, hbu, -⟩ := hstay.left hu'
    obtain ⟨v, hv, hbv, -⟩ := hstay.left hv'
    exact h.uniq i j u v hu hv (by rw [← hbu, ← hbv, hb])

/-- A fork's child is born anew, with nothing reported. -/
theorem taskFork (h : Core s) : Core s.taskFork := by
  rw [Sys.taskFork]
  split
  next pid prt hfree hprt =>
    have hnone : s.table pid = none := by simpa using find?_some hfree
    have hne : ∀ {j u}, s.table j = some u → j ≠ pid := by
      rintro j u hu rfl
      rw [hnone] at hu
      cases hu
    have hcases : ∀ {j u}, Function.update s.table pid (some ⟨s.curr, prt.pgid, .pre, .pre, 0, WNOSTATUS, 0, 0,
      prt.sigpend, false,
        none, s.births, none, false, false⟩) j = some u →
        s.table j = some u ∨ (j = pid ∧ u.call = none ∧ u.born = s.births ∧ TaskInv s.exits (s.births + 1) u) := by
      intro j u hu
      by_cases hj : j = pid
      · subst hj
        rw [update_self] at hu
        cases hu
        refine .inr ⟨rfl, rfl, rfl, fun _ => rfl, nofun, nofun, nofun, rfl,
          fun _ => show WIFEXITED WNOSTATUS = false by decide, nofun, nofun, Nat.lt_succ_self _, nofun,
          fun hm => absurd (h.exitsLt _ hm) (lt_irrefl _)⟩
      · rw [update_of_ne hj] at hu
        exact .inl hu
    refine ⟨fun j u hu => ?_, fun j u k hu hk hto => ?_, fun i j u v hu hv hb => ?_, h.lt,
      fun u hu => (h.exitsLt u hu).trans (Nat.lt_succ_self _), h.unborn, fun u hu => ?_, h.fair, h.sound⟩
    · rcases hcases hu with hold | ⟨-, -, -, hinv⟩
      · have hinv := h.task j u hold
        exact { hinv with born := hinv.born.trans (Nat.lt_succ_self _) }
      · exact hinv
    · rcases hcases hu with hold | ⟨-, hc, -⟩
      · obtain ⟨c, chd, hw, hlt, hc, hp, hmatch⟩ := h.told j u k hold hk hto
        exact ⟨c, chd, hw, hlt, (update_of_ne (hne hc) _ _).trans hc, hp, hmatch⟩
      · rw [hc] at hk
        cases hk
    · rcases hcases hu with hu0 | ⟨hi, -, hbu, -⟩ <;> rcases hcases hv with hv0 | ⟨hj, -, hbv, -⟩
      · exact h.uniq i j u v hu0 hv0 hb
      · exact absurd (h.task i u hu0).born (by omega)
      · exact absurd (h.task j v hv0).born (by omega)
      · rw [hi, hj]
    rcases h.acc u hu with ⟨hrep, hall⟩ | ⟨hrep, j, v, hv, hb, hx⟩
    · refine .inl ⟨hrep, fun j v hv hb => ?_⟩
      rcases hcases hv with hv | ⟨-, -, hbv, -⟩
      · exact hall j v hv hb
      · exact absurd (h.exitsLt u hu) (by omega)
    · exact .inr ⟨hrep, j, v, (update_of_ne (hne hv) _ _).trans hv, hb, hx⟩
  next => exact h.stopWith nofun

theorem ret (h : Core s) (opt : CInt) (reason : Int) {value : Int} (hv : value ≤ 0) :
    Core (s.ret opt reason value) := by
  have hrep : ∀ u, reports (s.ret opt reason value).returns u = reports s.returns u := by
    intro u
    simp [reports, Sys.ret]
  refine { h with unborn := fun u hu => (hrep u).trans (h.unborn u hu), acc := fun u hu => ?_, fair := fun r hr => ?_ }
  · have hacc := h.acc u hu
    rw [Accounted, ← hrep u] at hacc
    exact hacc
  rcases mem_append.1 hr with hr | hr
  · exact h.fair r hr
  · rw [mem_singleton.1 hr]
    exact ⟨fun hpos => absurd hpos (not_lt.2 hv), nofun⟩

/-- The reports of a birth after one more return. -/
theorem reports_append (returns : List Return) (r : Return) (chd : Task) (hr : r.chd = some chd) (u : Nat) :
    reports (returns ++ [r]) u = reports returns u + if chd.born = u ∧ WIFEXITED chd.retval = true then 1 else 0 := by
  rw [reports, filter_append, length_append, reports, filter_singleton, hr, Option.any_some]
  by_cases hc : chd.born = u ∧ WIFEXITED chd.retval = true
  · simp [hc]
  have hb : (chd.born == u && WIFEXITED chd.retval) = false := by simpa using hc
  rw [if_neg hc, hb]
  rfl

/-- The end of a wait: one return is recorded, and a dead child's entry may be destroyed. -/
theorem waitEnd_spec (opt : CInt) (reason : Int) {c : Nat} {chd : Task} (hlt : c < TASK_MAX)
    (hc : s.table c = some chd) : ∃ m destroyed, s.waitEnd opt reason c =
        { s with table := m, returns := s.returns ++ [⟨s.curr, opt, reason, c, some chd.retval, destroyed,
        some chd⟩] } ∧
      (destroyed = true → chd.stat = .die) ∧ (∀ j, j ≠ c → m j = s.table j) ∧
      (m c = none ∧ destroyed = true ∨ m c = some chd.reported) := by
  rw [Sys.waitEnd, if_neg (by omega), Int.toNat_natCast, Sys.taskGet, if_pos hlt, hc]
  dsimp only
  cases hd : (opt &&& WNOWAIT == 0 && chd.stat == .die) with
  | false => exact ⟨_, false, rfl, by simp, fun j hj => modify_of_ne hj, .inr (modify_self hc)⟩
  | true =>
    refine ⟨_, true, rfl, fun _ => ?_, fun j hj => (update_of_ne hj _ _).trans (modify_of_ne hj),
      .inl ⟨update_self _ _ _, rfl⟩⟩
    exact beq_iff_eq.1 ((Bool.and_eq_true _ _ ▸ hd).2)

/-- `task_wait` returns a child of the current task that has news. -/
theorem waitEnd {c : Nat} {chd : Task} (h : Core s) (hfree : ∀ t, s.table s.curr = some t → t.call = none)
    (hlt : c < TASK_MAX) (hc : s.table c = some chd) (hp : chd.ppid = s.curr) (hm : chd.wstatMatchTask opt = true) :
    Core (s.waitEnd opt 0 c) := by
  obtain ⟨hnews, hsel⟩ := wstatMatchTask_spec hm
  have hinv := h.task c chd hc
  obtain ⟨m, destroyed, heq, hdie, hother, hself⟩ := waitEnd_spec opt 0 hlt hc
  rw [heq]
  have hold : ∀ {j u'}, m j = some u' → (j ≠ c ∧ s.table j = some u') ∨ (j = c ∧ u' = chd.reported) := by
    intro j u' hu'
    by_cases hj : j = c
    · subst hj
      rcases hself with ⟨hn, -⟩ | hs
      · rw [hn] at hu'
        cases hu'
      · exact .inr ⟨rfl, Option.some.inj (hu'.symm.trans hs)⟩
    · exact .inl ⟨hj, (hother j hj).symm.trans hu'⟩
  have hrep : ∀ u, reports (s.returns ++ [⟨s.curr, opt, 0, c, some chd.retval, destroyed, some chd⟩]) u =
      reports s.returns u + if chd.born = u ∧ WIFEXITED chd.retval = true then 1 else 0 :=
    reports_append _ _ chd rfl
  refine ⟨fun j u' hu' => ?_, fun j u' k hu' hk hto => ?_, fun i j u' v' hu' hv' hb => ?_, h.lt, h.exitsLt,
    fun u hu => ?_, fun u hu => ?_, fun r hr => ?_, h.sound⟩
  · rcases hold hu' with ⟨-, hu⟩ | ⟨-, rfl⟩
    · exact h.task j u' hu
    exact { hinv with
      news := rfl, live := fun _ => show WIFEXITED WNOSTATUS = false by decide
      dead := fun hd => ⟨(hinv.dead hd).1, .inl rfl⟩ }
  · -- other parents wait for other children
    have hu : ∃ u, s.table j = some u ∧ u.call = some k ∧ u'.waitpid = u.waitpid := by
      rcases hold hu' with ⟨-, hu⟩ | ⟨rfl, rfl⟩
      · exact ⟨u', hu, hk, rfl⟩
      · exact ⟨chd, hc, hk, rfl⟩
    obtain ⟨u, hu, hk', hw'⟩ := hu
    obtain ⟨d, kid, hw, hdlt, hd, hdp, hmatch⟩ := h.told j u k hu hk' hto
    have hne : d ≠ c := by
      rintro rfl
      obtain rfl : kid = chd := by simpa [hc] using hd.symm
      rw [← hdp, hp] at hu
      rw [hfree u hu] at hk'
      cases hk'
    exact ⟨d, kid, hw'.trans hw, hdlt, (hother d hne).trans hd, hdp, hmatch⟩
  · rcases hold hu' with ⟨hi, hu⟩ | ⟨rfl, rfl⟩ <;> rcases hold hv' with ⟨hj, hv⟩ | ⟨rfl, rfl⟩
    · exact h.uniq i j u' v' hu hv hb
    · exact h.uniq _ _ u' chd hu hc hb
    · exact h.uniq _ _ chd v' hc hv hb
    · rfl
  · have hne : ¬ (chd.born = u ∧ WIFEXITED chd.retval = true) := by
      rintro ⟨rfl, hx⟩
      by_cases hd : chd.stat = .die
      · exact hu (hinv.exit.1 hd)
      · rw [hinv.live hd] at hx
        cases hx
    rw [hrep, if_neg hne, h.unborn u hu]
  · by_cases hcu : chd.born = u
    · -- the exit of the child is reported now
      subst hcu
      have hx : WIFEXITED chd.retval = true := (hinv.dead (hinv.exit.2 hu)).2.resolve_left hnews
      rcases h.acc _ hu with ⟨-, hall⟩ | ⟨hzero, -⟩
      · exact absurd (hall c chd hc rfl) hnews
      refine .inl ⟨by rw [hrep, hzero, if_pos ⟨rfl, hx⟩], fun j u' hu' hb => ?_⟩
      rcases hold hu' with ⟨hj, hu⟩ | ⟨-, rfl⟩
      · exact absurd (h.uniq j c u' chd hu hc hb) hj
      · rfl
    · have hzero : reports (s.returns ++ [⟨s.curr, opt, 0, c, some chd.retval, destroyed, some chd⟩]) u =
        reports s.returns u := by
        rw [hrep, if_neg fun h => hcu h.1, Nat.add_zero]
      rcases h.acc u hu with ⟨hone, hall⟩ | ⟨hnone, j, v, hv, hb, hx⟩
      · refine .inl ⟨hzero.trans hone, fun j u' hu' hb => ?_⟩
        rcases hold hu' with ⟨-, hu⟩ | ⟨-, rfl⟩
        · exact hall j u' hu hb
        · rfl
      refine .inr ⟨hzero.trans hnone, j, v, (hother j ?_).trans hv, hb, hx⟩
      rintro rfl
      obtain rfl : v = chd := by simpa [hc] using hv.symm
      exact hcu hb
  · rcases mem_append.1 hr with hr | hr
    · exact h.fair r hr
    rw [mem_singleton.1 hr]
    refine ⟨fun _ => ⟨chd, rfl, hp, rfl, ?_, hsel, rfl⟩, fun hd => ⟨chd, rfl, hdie hd, hinv.exit.1 (hdie hd)⟩⟩
    rw [hinv.news, if_neg hnews]

theorem taskBlock (h : Core s) (hlive : Alive s) (hfree : ∀ t, s.table s.curr = some t → t.call = none) :
    Core s.taskBlock := by
  refine (h.update fun t ht => ?_).taskSchedule
  have hsame : Same t t.block := ⟨rfl, ⟨nofun, fun hd => absurd hd (hlive t ht)⟩⟩
  refine ⟨hsame, (h.task _ t ht).restat hsame (fun k hk => ?_) (fun k hk => ?_) nofun⟩ <;>
    exact absurd ((hfree t ht).symm.trans hk) nofun

/-- A wait without a ready child blocks the caller. -/
theorem blockWait (h : Core s) (hlive : Alive s) (pid : Int) (opt : CInt) :
    Core (s.update s.curr (·.enterWait pid opt)).taskBlock := by
  have heq : (s.update s.curr (·.enterWait pid opt)).update s.curr Task.block =
      s.update s.curr fun t => (t.enterWait pid opt).block := by
    rw [Sys.update, Sys.update, Sys.update]
    rw [modify_modify]
  have hinv : ∀ t, s.table s.curr = some t → TaskInv s.exits s.births (t.enterWait pid opt).block := by
    intro t ht
    have hinv := h.task _ t ht
    have hd := hlive t ht
    refine ⟨nofun, fun k hk => ?_, fun k hk _ => ?_, fun k hk hto => ?_, hinv.news, fun _ => hinv.live hd, nofun, nofun,
      hinv.born, nofun, fun hm => absurd (hinv.exit.2 hm) hd⟩
    · cases hk
      rfl
    · cases hk
      exact ⟨rfl, .inr (.inl rfl)⟩
    · cases hk
      cases hto
  show Core ((s.update s.curr (·.enterWait pid opt)).update s.curr Task.block).taskSchedule
  rw [heq]
  refine Core.taskSchedule (h.revise (fun t ht => ⟨⟨rfl, rfl, id, rfl⟩, hinv t ht⟩) fun t k _ hk hto => ?_)
  cases hk
  cases hto

/-- A wait keeps the core, whether it returns at once or blocks. -/
theorem waitFor {pid : Int} (h : Core s) (hlive : Alive s) (hfree : ∀ t, s.table s.curr = some t → t.call = none)
    (hpid : pid = -1 ∨ (0 < pid ∧ pid < TASK_MAX ∧ s.isChild pid.toNat = true)) : Core (s.waitFor pid opt) := by
  rw [Sys.waitFor]
  split
  next c hc =>
    have hchd : c < TASK_MAX ∧ s.isChild c = true ∧ (s.table c).any (·.wstatMatchTask opt) = true := by
      rw [Sys.target] at hc
      split at hc
      next hpos =>
        obtain ⟨-, hlt, hch⟩ := hpid.resolve_left (by omega)
        split at hc
        next hany =>
          cases hc
          exact ⟨by omega, hch, hany⟩
        next => cases hc
      next =>
        have hmem := mem_of_find?_eq_some hc
        have hfound := find?_some hc
        rw [Bool.and_eq_true] at hfound
        exact ⟨mem_range.1 hmem, hfound⟩
    obtain ⟨hlt, hch, hany⟩ := hchd
    obtain ⟨chd, ht, hm⟩ := (Option.any_eq_true _ _).1 hany
    obtain ⟨chd', ht', hp⟩ := (Option.any_eq_true _ _).1 hch
    obtain rfl : chd' = chd := by simpa [ht] using ht'.symm
    exact h.waitEnd hfree hlt ht (beq_iff_eq.1 hp) hm
  next =>
    split
    · exact h.ret opt 0 le_rfl
    · exact h.blockWait hlive pid opt

/-- A wait, its early errors included, keeps the core. -/
theorem taskWait {pid : Int} (h : Core s) (hlive : Alive s) (hfree : ∀ t, s.table s.curr = some t → t.call = none) :
    Core (s.taskWait pid opt) := by
  have hechild : Core (s.ret opt 0 (-ECHILD)) := h.ret opt 0 (by decide)
  rw [Sys.taskWait]
  split
  next hpos =>
    split
    next hch => exact h.waitFor hlive hfree (.inr ⟨hpos, hch⟩)
    next => exact hechild
  next =>
    split
    next hall =>
      split
      · exact h.waitFor hlive hfree (.inl hall)
      · exact hechild
    next => exact h.stopWith nofun

/-- Resuming a wait keeps the core. -/
theorem resume (h : Core s) (hrun : ∀ t ∈ s.table s.curr, t.stat = .run) : Core s.resume := by
  rw [Sys.resume]
  split
  · exact h
  next t ht =>
    split
    · exact h
    next k hk =>
      have hinv := h.task _ t ht
      have hstat := hrun t ht
      have hone : ∀ u, s.table s.curr = some u → u = t := fun u hu => by simpa [ht] using hu.symm
      have hkid : Pointwise Kid s.table (s.update s.curr Task.leaveWait).table :=
        .modify (fun _ => ⟨rfl, rfl, id, rfl⟩) fun _ _ => ⟨rfl, rfl, id, rfl⟩
      have hleave : Core (s.update s.curr Task.leaveWait) := by
        refine h.revise (fun u hu => ⟨⟨rfl, rfl, id, rfl⟩, ?_⟩) fun _ _ _ hk => (by cases hk)
        obtain rfl := hone u hu
        exact { hinv with
          idle := fun _ => rfl, opt := nofun, waiting := nofun, told := nofun
          dead := fun hd => ⟨rfl, (hinv.dead hd).2⟩ }
      cases hto : k.told with
      | false =>
        -- nobody has told it anything, so it waits for any child
        obtain ⟨hw, hpid⟩ := hinv.waiting k hk hto
        have hany : t.waitpid = -1 := by
          rw [hw]
          refine hpid.resolve_right fun hp => ?_
          rcases hp with hp | ⟨hp, -⟩ <;> rw [hstat] at hp <;> cases hp
        rw [hany, Sys.waitEnd, if_pos rfl]
        exact hleave.ret k.opt t.bretval le_rfl
      | true =>
        obtain ⟨c, chd, hw, hlt, hc, hp, hm⟩ := h.told _ t k ht hk hto
        obtain ⟨chd', hc', hp', hr', hd', -⟩ := hkid.right hc
        rw [hw, (hinv.told k hk hto).1]
        refine hleave.waitEnd (fun u hu => ?_) hlt hc' (hp'.trans hp) (wstatMatchTask_mono hm hr' hd')
        obtain ⟨v, -, rfl⟩ := modify_eq_some.1 hu
        exact congrArg Task.call (if_pos rfl)

/-- The parent of the current task is told, or gets a signal; the current task itself is not in `task_wait`. -/
theorem free_taskReportWstat {c : Nat} (hfree : ∀ t, s.table c = some t → t.call = none) :
    ∀ t, (s.taskReportWstat c).table c = some t → t.call = none := by
  refine Sys.taskReportWstat_at hfree (fun t ht => by rw [Task.tell, ht]; rfl) fun t ht => ?_
  have hview := (same_signal t SIGCHLD).1
  simp only [view, Prod.mk.injEq] at hview
  exact hview.2.2.2.2.2.1.trans ht

/-- The rest of an exit: the children are adopted and another task runs. -/
theorem exitEnd {p : Nat} (h : Core s) (hfree : ∀ t, s.table p = some t → t.call = none) : Core (s.exitEnd p) := by
  rw [Sys.exitEnd]
  split
  · exact h
  split
  · exact h.stopWith nofun
  dsimp only
  split
  · exact (h.adopt hfree).taskSchedule
  · exact (h.adopt hfree).stopWith nofun

/-- An exit keeps the core: it is recorded once and reported to the parent. -/
theorem taskExit {val : CInt} (h : Core s) (hlive : Alive s) (hfree : ∀ t, s.table s.curr = some t → t.call = none)
    (ht : s.table s.curr = some t) (hc : Clear s (.exit val)) : Core (s.taskExit val) := by
  obtain ⟨h0, hval, hun, hrep⟩ := hc
  have hinv := h.task _ t ht
  have hd := hlive t ht
  have hexit : Core (s.markExit val) := by
    rw [Sys.markExit, ht]
    refine h.change (f := (·.exit val)) [t.born] ht hun hd ⟨rfl, rfl, rfl, rfl⟩ (.inr ⟨rfl, hval⟩) ?_
    refine ⟨hinv.idle, hinv.opt, fun k hk => ?_, fun k hk => ?_, (if_neg (ne_of_wifexited hval)).symm,
      fun hn => absurd rfl hn, fun _ => ⟨hfree t ht, .inr hval⟩, nofun, hinv.born,
      fun _ => mem_append_right _ (mem_singleton.2 rfl), fun _ => rfl⟩
    · exact absurd ((hfree t ht).symm.trans hk) nofun
    · exact absurd ((hfree t ht).symm.trans hk) nofun
  refine (hexit.taskReportWstat h0 h.lt hrep).exitEnd (free_taskReportWstat fun u hu => ?_)
  obtain ⟨v, hv, rfl⟩ := modify_eq_some.1 hu
  rw [if_pos rfl]
  exact hfree v hv

end Core

/-! ## The current task lives -/

theorem Alive.of_same (h : Alive s) (hm : Pointwise Same s.table s'.table) (hc : s'.curr = s.curr) : Alive s' := by
  intro t' ht'
  rw [hc] at ht'
  obtain ⟨t, ht, -, hdie⟩ := hm.left ht'
  exact fun hd => h t ht (hdie.1 hd)

theorem Alive.taskSchedule (h : Alive s) : Alive s.taskSchedule := by
  rcases Sys.taskSchedule_cases s with heq | ⟨next, t, -, -, -, heq⟩
  · rw [heq]
    exact h
  rw [heq]
  intro u hu
  obtain ⟨v, -, rfl⟩ := modify_eq_some.1 hu
  rw [if_pos rfl]
  nofun

/-- Where a task is ready, a live one runs after scheduling. -/
theorem alive_of_getnext (hn : s.getnext.isSome = true) : Alive s.taskSchedule := by
  obtain ⟨next, hnext⟩ := Option.isSome_iff_exists.1 hn
  intro u hu
  rw [Sys.taskSchedule] at hu
  cases hc : s.table s.curr with
  | none =>
    rw [hc] at hu
    rw [hc] at hu
    cases hu
  | some c =>
    rw [hc, hnext] at hu
    obtain ⟨v, -, rfl⟩ := modify_eq_some.1 hu
    rw [if_pos rfl]
    simp

theorem alive_exitEnd (p : Nat) (h : (s.exitEnd p).halt = none) : Alive (s.exitEnd p) := by
  rw [Sys.exitEnd] at h ⊢
  split at h
  next hh =>
    rw [h] at hh
    cases hh
  next hh =>
    rw [if_neg hh]
    split at h
    · cases h
    next hp =>
      rw [if_neg hp]
      dsimp only at h ⊢
      split at h
      next hn =>
        rw [if_pos hn]
        exact alive_of_getnext hn
      next => cases h

theorem Alive.update (h : Alive s)
    (hf : ∀ t, s.table i = some t → t.stat ≠ .die → (f t).stat ≠ .die) : Alive (s.update i f) := by
  intro u hu
  obtain ⟨v, hv, rfl⟩ := modify_eq_some.1 hu
  split
  next hi => exact hf v (hi ▸ hv) (h v hv)
  next => exact h v hv

theorem Alive.fkillChld (h : Alive s) (pid : Nat) : Alive (s.fkillChld pid) := by
  refine h.of_same (Sys.fkillChld_pointwise Same.refl Same.trans (fun t => same_signal t SIGCHLD) s pid) ?_
  rw [Sys.fkillChld_eq]

theorem Alive.taskReportWstat (h : Alive s) (i : Nat) : Alive (s.taskReportWstat i) := by
  intro t ht
  rw [Sys.taskReportWstat_eq] at ht
  exact Sys.taskReportWstat_at h (fun _ _ => nofun) (fun t hd hd' => hd ((same_signal t SIGCHLD).2.1 hd')) t ht

theorem Alive.taskBlock (h : Alive s) : Alive s.taskBlock := Alive.taskSchedule (h.update fun _ _ _ => nofun)

/-- A wait destroys no caller. -/
theorem Alive.waitEnd (h : Alive s) (opt : CInt) (reason target : Int) : Alive (s.waitEnd opt reason target) := by
  rw [Sys.waitEnd]
  split
  · exact h
  split
  · exact h
  next chd hchd =>
    have hrep : Alive (s.update target.toNat Task.reported) := h.update fun _ _ hd => hd
    dsimp only
    intro u hu
    split at hu
    · by_cases hc : s.curr = target.toNat
      · have hnone : Function.update (s.update target.toNat Task.reported).table target.toNat none s.curr = none := by
          rw [hc, update_self]
        exact absurd (hnone.symm.trans hu) nofun
      · exact hrep u ((Function.update_of_ne hc _ _).symm.trans hu)
    · exact hrep u hu

/-! ## Events -/

/-- The invariant of runs. -/
structure Inv (s : Sys) : Prop where
  core : Core s
  alive : s.halt = none → Alive s

namespace Inv

/-- A task that stops for its tracer keeps the invariant. -/
theorem traceStop (h : Inv s) (hh : s.halt = none) (hfree : ∀ t, s.table s.curr = some t → t.call = none)
    (ht : s.table s.curr = some t) (hc : Clear s .traceStop) : Inv s.ptraceStopSelf := by
  obtain ⟨h0, hun, hrep⟩ := hc
  have hlive := h.alive hh
  have hd := hlive t ht
  obtain ⟨hv, hx⟩ := makeStatStopped_spec (.inr rfl)
  have hchange : Core (s.update s.curr (·.change (makeStatStopped SIGTRAP))) :=
    h.core.change_live ht hun hd ⟨rfl, rfl, rfl, rfl⟩ ((h.core.task _ t ht).change hd hv hx)
  have hcore := hchange.taskReportWstat h0 h.core.lt hrep
  have halive : Alive ((s.update s.curr (·.change (makeStatStopped SIGTRAP))).taskReportWstat s.curr) :=
    (hlive.update (f := (·.change (makeStatStopped SIGTRAP))) fun _ _ hd => hd).taskReportWstat s.curr
  have hfree' := Core.free_taskReportWstat (s := s.update s.curr (·.change (makeStatStopped SIGTRAP)))
    (c := s.curr) fun u hu => by
    obtain ⟨v, hv, rfl⟩ := modify_eq_some.1 hu
    rw [if_pos rfl]
    exact hfree v hv
  have hcurr : ((s.update s.curr (·.change (makeStatStopped SIGTRAP))).taskReportWstat s.curr).curr = s.curr := by
    rw [Sys.taskReportWstat_eq]
    rfl
  rw [Sys.ptraceStopSelf]
  split
  · rw [Sys.traceBlock]
    split
    · exact ⟨hcore, fun _ => halive⟩
    · exact ⟨hcore.taskBlock halive (by rw [hcurr]; exact hfree'), fun _ => halive.taskBlock⟩
  · exact h

/-- Sending a signal keeps the invariant, whatever its default action. -/
theorem killSafe {i sig : Nat} (h : Inv s) (hh : s.halt = none) (hc : Clear s (.kill i sig)) :
    Inv (s.killSafe i sig) := by
  have hlive := h.alive hh
  rw [Sys.killSafe]
  cases hi : s.taskGet i with
  | none => exact h
  | some t =>
    obtain ⟨hlt, ht⟩ := Sys.taskGet_eq_some hi
    have hone : ∀ u, s.table i = some u → u = t := fun u hu => by simpa [ht] using hu.symm
    have hinv := h.core.task i t ht
    have hci := hc t hi
    dsimp only
    by_cases h0 : Signal.NSIG ≤ sig ∨ sig = 0 ∨ i = 0
    · rw [if_pos h0]
      exact h
    rw [if_neg h0]
    by_cases hstop : Sys.isStop sig = true
    · rw [if_pos hstop] at hci ⊢
      by_cases hst : t.stat.stoppable = true
      · obtain ⟨hun, hsafe⟩ := hci hst
        have hcore : Core (s.update i (·.stop sig)) := by
          refine h.core.change_live ht hun (stoppable_iff.1 hst).1 ?_ (hinv.stop hstop)
          rw [Task.stop, if_pos hst]
          exact ⟨rfl, rfl, rfl, rfl⟩
        have halive : Alive (s.update i (·.stop sig)) := hlive.update fun u hu hd => by
          rw [Task.stop]
          split
          · nofun
          · exact hd
        rw [if_pos hst]
        split
        · exact ⟨(hcore.fkillChld hsafe).taskSchedule, fun _ => (halive.fkillChld _).taskSchedule⟩
        · exact ⟨hcore.fkillChld hsafe, fun _ => halive.fkillChld _⟩
      · rw [if_neg hst]
        have hsame : ∀ u, s.table i = some u → u.stop sig = u.addSig sig := fun u hu => by
          rw [Task.stop, if_neg (by rw [hone u hu]; exact hst)]
        refine ⟨h.core.update fun u hu => ⟨?_, ?_⟩, fun _ => hlive.update fun u hu hd => ?_⟩
        · rw [hsame u hu]
          exact ⟨rfl, Iff.rfl⟩
        · exact (h.core.task i u hu).stop hstop
        · rw [hsame u hu]
          exact hd
    rw [if_neg hstop] at hci ⊢
    by_cases hkill : sig = Signal.SIGKILL
    · rw [if_pos hkill] at hci ⊢
      refine ⟨h.core.update fun u hu => ⟨same_kill u, ?_⟩, fun _ => hlive.update fun u _ hd hd' =>
        hd ((same_kill u).2.1 hd')⟩
      rw [hone u hu]
      exact hinv.kill hci
    rw [if_neg hkill] at hci ⊢
    by_cases hcont : sig = SIGCONT
    · rw [if_pos hcont] at hci ⊢
      by_cases hstp : t.stat = .stp
      · obtain ⟨hun, hsafe⟩ := hci hstp
        have hcore : Core (s.update i Task.cont) := by
          refine h.core.change_live ht hun (by rw [hstp]; nofun) ?_ hinv.cont
          rw [Task.cont, if_pos hstp]
          exact ⟨rfl, rfl, rfl, rfl⟩
        have halive : Alive (s.update i Task.cont) := hlive.update fun u hu _ => by
          rw [hone u hu, Task.cont, if_pos hstp]
          exact (hinv.before hstp).1
        rw [if_pos hstp]
        exact ⟨hcore.fkillChld hsafe, fun _ => halive.fkillChld _⟩
      · rw [if_neg hstp]
        have hsame : ∀ u, s.table i = some u → Same u u.cont := fun u hu => by
          rw [Task.cont, if_neg (by rw [hone u hu]; exact hstp)]
          exact ⟨rfl, Iff.rfl⟩
        exact ⟨h.core.update fun u hu => ⟨hsame u hu, (h.core.task i u hu).cont⟩,
          fun _ => hlive.update fun u hu hd hd' => hd ((hsame u hu).2.1 hd')⟩
    · rw [if_neg hcont] at hci ⊢
      refine ⟨h.core.update fun u hu => ⟨same_signal u sig, ?_⟩,
        fun _ => hlive.update fun u _ hd hd' => hd ((same_signal u sig).2.1 hd')⟩
      rw [hone u hu]
      exact hinv.signal hci sig

theorem fork (h : Inv s) (hh : s.halt = none) : Inv s.taskFork := by
  refine ⟨h.core.taskFork, fun _ => ?_⟩
  rw [Sys.taskFork]
  split
  next pid prt _ _ =>
    intro u hu
    by_cases hc : s.curr = pid
    · subst hc
      dsimp only at hu
      rw [update_self] at hu
      cases hu
      nofun
    · exact h.alive hh u ((update_of_ne hc _ _).symm.trans hu)
  next => exact h.alive hh

theorem wait {pid : Int} (h : Inv s) (hh : s.halt = none) (hfree : ∀ t, s.table s.curr = some t → t.call = none) :
    Inv (s.taskWait pid opt) := by
  have hlive := h.alive hh
  refine ⟨h.core.taskWait hlive hfree, fun _ => ?_⟩
  have hfor : Alive (s.waitFor pid opt) := by
    rw [Sys.waitFor]
    split
    · exact hlive.waitEnd opt 0 _
    split
    · exact hlive
    · exact (hlive.update (f := (·.enterWait pid opt)) fun _ _ hd => hd).taskBlock
  rw [Sys.taskWait]
  split
  · split
    · exact hfor
    · exact hlive
  split
  · split
    · exact hfor
    · exact hlive
  · exact hlive

theorem resume (h : Inv s) (hh : s.halt = none) (hrun : ∀ t ∈ s.table s.curr, t.stat = .run) : Inv s.resume := by
  have hlive := h.alive hh
  refine ⟨h.core.resume hrun, fun _ => ?_⟩
  rw [Sys.resume]
  split
  · exact hlive
  split
  · exact hlive
  · exact (hlive.update (f := Task.leaveWait) fun _ _ hd => hd).waitEnd _ _ _

/-- One event keeps the invariant. -/
theorem step {o : Event} (h : Inv s) (hc : Clear s o) (hs : step s o = some s') : Inv s' := by
  unfold Sched.step at hs
  split at hs
  · cases hs
    exact h
  next hhalt =>
  have hh : s.halt = none := by simpa using hhalt
  have hlive := h.alive hh
  have hact : ∀ s1, ((∀ t, s.table s.curr = some t → t.call = none) → ∀ t, s.table s.curr = some t → Inv s1) →
      Inv (if s.inUser then s1 else s) := by
    intro s1 h1
    split
    next hu =>
      obtain ⟨t, ht, hk⟩ := (Option.any_eq_true _ _).1 hu
      refine h1 (fun u hu => ?_) t ht
      obtain rfl : u = t := by simpa [ht] using hu.symm
      simpa using hk
    next => exact h
  cases o with
  | schedule =>
    cases hs
    exact ⟨h.core.taskSchedule, fun _ => hlive.taskSchedule⟩
  | unblock i reason =>
    cases hs
    refine ⟨h.core.update fun t ht => ?_, fun _ => hlive.update fun _ _ _ => nofun⟩
    obtain ⟨hk, hd⟩ := hc t ht
    have hsame : Same t (t.unblock reason) := ⟨rfl, ⟨nofun, fun h => absurd h hd⟩⟩
    refine ⟨hsame, (h.core.task i t ht).restat hsame (fun k hk' => ?_) (fun k hk' => ?_) nofun⟩ <;>
      exact absurd (hk.symm.trans hk') nofun
  | kill i sig =>
    cases hs
    exact h.killSafe hh hc
  | resume =>
    cases hs
    exact h.resume hh hc
  | block =>
    cases hs
    exact hact _ fun hfree _ _ => ⟨h.core.taskBlock hlive hfree, fun _ => hlive.taskBlock⟩
  | fork =>
    cases hs
    exact hact _ fun _ _ _ => h.fork hh
  | exit val =>
    cases hs
    exact hact _ fun hfree t ht => ⟨h.core.taskExit hlive hfree ht hc, alive_exitEnd _⟩
  | wait pid opt =>
    cases hs
    exact hact _ fun hfree _ _ => h.wait hh hfree
  | traceme =>
    cases hs
    refine hact _ fun hfree _ _ => ⟨?_, fun _ => hlive.update (f := Task.trace) fun _ _ hd => hd⟩
    refine h.core.revise (fun t ht => ⟨⟨rfl, rfl, fun _ => rfl, rfl⟩, ?_⟩) fun t k _ hk _ => .inl ⟨hk, rfl⟩
    have hinv := h.core.task _ t ht
    exact { hinv with }
  | traceStop =>
    cases hs
    exact hact _ fun hfree t ht => h.traceStop hh hfree ht hc

end Inv

/-! ## Runs -/

/-- The system after the start: no task waits, has a status or has ended. -/
structure Booted (s : Sys) : Prop where
  task : ∀ i t, s.table i = some t → t.call = none ∧ t.waitpid = 0 ∧ t.retval = WNOSTATUS ∧ t.news = none ∧
    t.stat ≠ .die ∧ t.stat ≠ .stp ∧ t.born < s.births
  uniq : ∀ i j t u, s.table i = some t → s.table j = some u → t.born = u.born → i = j
  lt : s.curr < TASK_MAX
  halt : s.halt = none
  exits : s.exits = []
  returns : s.returns = []

/-- The state after boot has the invariant. -/
theorem Booted.inv (h : Booted s) : Inv s := by
  refine ⟨⟨fun i t ht => ?_, fun i t k ht hk => ?_, h.uniq, h.lt, fun u hu => ?_, fun u _ => by rw [h.returns]; rfl,
    fun u hu => ?_, fun r hr => ?_, by rw [h.halt]; nofun⟩, fun _ t ht => (h.task _ t ht).2.2.2.2.1⟩
  · obtain ⟨hk, hw, hr, hn, hd, hs, hb⟩ := h.task i t ht
    refine ⟨fun _ => hw, fun k hk' => ?_, fun k hk' => ?_, fun k hk' => ?_,
      by rw [hn, hr, if_pos rfl], fun _ => by rw [hr]; decide,
      fun h => absurd h hd, fun h => absurd h hs, hb, fun h => absurd h hd, fun hm => ?_⟩
    · exact absurd (hk.symm.trans hk') nofun
    · exact absurd (hk.symm.trans hk') nofun
    · exact absurd (hk.symm.trans hk') nofun
    · rw [h.exits] at hm
      cases hm
  · exact absurd ((h.task i t ht).1.symm.trans hk) nofun
  · rw [h.exits] at hu
    cases hu
  · rw [h.exits] at hu
    cases hu
  · rw [h.returns] at hr
    cases hr

/-- A child that has exited and was not reported is returned by a wait for it. -/
theorem wait_exited (h : Core s) (hi : 0 < i) (hlt : i < TASK_MAX) (ht : s.table i = some t)
    (hp : t.ppid = s.curr) (hx : t.born ∈ s.exits) (hr : reports s.returns t.born = 0) (ho : WEXITED &&& opt ≠ 0) :
    ∃ r : Return, (s.taskWait i opt).returns = s.returns ++ [r] ∧ r.value = (i : Int) ∧ r.chd = some t := by
  have hexit : WIFEXITED t.retval = true := by
    rcases h.acc _ hx with ⟨hone, -⟩ | ⟨-, j, u, hu, hb, hu'⟩
    · omega
    obtain rfl := h.uniq j i u t hu ht hb
    obtain rfl : u = t := by simpa [ht] using hu.symm
    exact hu'
  have hchild : s.isChild i = true := by
    rw [Sys.isChild, ht, Option.any_some, hp]
    exact beq_self_eq_true _
  have htarget : s.target i opt = some i := by
    rw [Sys.target, if_pos (by omega), Int.toNat_natCast, ht, Option.any_some, wstatMatchTask_of_exited hexit ho]
    rfl
  obtain ⟨m, destroyed, heq, -⟩ := Core.waitEnd_spec opt 0 hlt ht
  rw [Sys.taskWait, if_pos (by omega), if_pos ⟨by omega, by rw [Int.toNat_natCast]; exact hchild⟩, Sys.waitFor, htarget]
  dsimp only
  rw [heq]
  exact ⟨_, rfl, rfl, rfl⟩

/-- A caller that was told of a child returns it. -/
theorem resume_told {k : Call} (h : Core s) (ht : s.table s.curr = some t) (hk : t.call = some k)
    (hto : k.told = true) : ∃ (r : Return) (chd : Task), s.resume.returns = s.returns ++ [r] ∧ r.value = t.waitpid ∧
    r.chd = some chd := by
  obtain ⟨c, chd, hw, hlt, hc, -⟩ := h.told _ t k ht hk hto
  obtain ⟨chd', hc'⟩ : ∃ chd', (s.update s.curr Task.leaveWait).table c = some chd' := by
    obtain ⟨chd', hc', -⟩ := (Pointwise.modify (R := fun _ _ => True) (fun _ => trivial) fun _ _ => trivial).right hc
    exact ⟨chd', hc'⟩
  obtain ⟨m, destroyed, heq, -⟩ := Core.waitEnd_spec k.opt t.bretval hlt hc'
  rw [Sys.resume, ht]
  dsimp only
  rw [hk]
  dsimp only
  rw [hw, heq]
  exact ⟨_, chd', rfl, rfl, rfl⟩

/-- **Waiting**: in every state that is reached by a clear run, each return of `task_wait` with a child is fair, each
exit has been reported once, or not yet and the parent will know it from `task_wait`, and no assertion has failed. -/
theorem waits_fair (s₀ s : Sys) (hboot : Booted s₀) (os : List Event) (hos : Meets step Clear s₀ os)
    (hr : run step s₀ os = some s) : (∀ r ∈ s.returns, Fair s.exits r) ∧ (∀ u, u ∉ s.exits → reports s.returns u = 0) ∧
    (∀ u ∈ s.exits, Accounted s.table s.returns u) ∧ s.halt ≠ some .assertion ∧
    (∀ i t opt s', s.halt = none → s.inUser = true → 0 < i → i < TASK_MAX → s.table i = some t → t.ppid = s.curr →
      t.born ∈ s.exits → reports s.returns t.born = 0 → WEXITED &&& opt ≠ 0 → step s (.wait i opt) = some s' →
      ∃ r : Return, s'.returns = s.returns ++ [r] ∧ r.value = (i : Int) ∧ r.chd = some t) ∧
    ∀ t k s', s.halt = none → s.table s.curr = some t → t.call = some k → k.told = true → step s .resume = some s' →
      ∃ (r : Return) (chd : Task), s'.returns = s.returns ++ [r] ∧ r.value = t.waitpid ∧ r.chd = some chd := by
  have h := run_meets_inv (fun _ _ _ hi hc hs => hi.step hc hs) hboot.inv hos hr
  refine ⟨h.core.fair, h.core.unborn, h.core.acc, h.core.sound, fun i t opt s' hh hu hi hlt ht hp hx hrep ho hs => ?_,
    fun t k s' hh ht hk hto hs => ?_⟩
  · unfold step at hs
    rw [hh, if_neg (by simp)] at hs
    dsimp only at hs
    rw [if_pos hu] at hs
    cases hs
    exact wait_exited h.core hi hlt ht hp hx hrep ho
  · unfold step at hs
    rw [hh, if_neg (by simp)] at hs
    cases hs
    exact resume_told h.core ht hk hto

theorem boot_booted : Booted boot := by
  refine ⟨fun i t ht => ?_, fun i j t u ht hu hb => ?_, by decide, rfl, rfl, rfl⟩
  · match i with
    | 0 | 1 | 2 =>
      cases ht
      exact ⟨rfl, rfl, rfl, rfl, nofun, nofun, by decide⟩
    | _ + 3 => cases ht
  have hborn : ∀ {i t}, boot.table i = some t → t.born = i := by
    intro i t ht
    match i with
    | 0 | 1 | 2 =>
      cases ht
      rfl
    | _ + 3 => cases ht
  rw [← hborn ht, ← hborn hu, hb]

/-- The first process waits for its child, which exits. -/
def waitEvents : List Event := [.wait 2 WEXITED, .exit (makeStatExit 3), .schedule, .resume]

theorem waits_fair_events : ∃ s, run step boot waitEvents = some s ∧
    s.returns.map (fun r => (r.value, r.status, r.destroyed)) = [(2, some (makeStatExit 3), true)] ∧ ∀ r ∈ s.returns,
    Fair s.exits r := by
  obtain ⟨s, hr⟩ : ∃ s, run step boot waitEvents = some s := ⟨_, rfl⟩
  have hval : (run step boot waitEvents).map (fun s => s.returns.map fun r => (r.value, r.status, r.destroyed)) =
      some [(2, some (makeStatExit 3), true)] := by decide +kernel
  rw [hr] at hval
  exact ⟨s, hr, Option.some.inj hval, (waits_fair boot s boot_booted waitEvents (by decide +kernel) hr).1⟩

/-- A signal wakes the first process, and `task_wait` returns its child, which has not changed; the end of a child that
is killed is not reported; and a child exits between a signal to the first process, which waits for any child, and its
return. -/
theorem wait_interrupted : (run step boot [.wait 2 WEXITED, .kill 1 10, .schedule, .schedule, .resume]).map
        (fun s => (s.exits, s.returns.map fun r => (r.value, r.status, r.reason))) =
        some ([], [(2, some WNOSTATUS, -EINTR)]) ∧
    (run step boot [.schedule, .exit (makeStatSignal Signal.SIGKILL), .schedule, .wait 2 (WEXITED ||| WNOHANG)]).map
        (fun s => (s.exits, s.returns.map fun r => r.value)) = some ([2], [0]) ∧
    (run step boot [.wait (-1) WEXITED, .kill 1 10, .exit (makeStatExit 0)]).map Sys.halt = some (some .assertion) := by
  decide +kernel

end TextOS.Sched.Wait
