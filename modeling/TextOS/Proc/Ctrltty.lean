import TextOS.Lib.Refs
import TextOS.Lib.Table
import TextOS.Proc.Defs

/-!
# Who holds a terminal: `kernel/dev/tty/ctrltty.c`

- **over every run in which leaders exit last, each terminal counts its holders, all of them are in its session, a
  terminal without holders belongs to no session, and no assertion fails** (`holders_counted`); otherwise the leader
  takes the terminal from the others without counting them off (`holders_left`).
-/

namespace TextOS.Proc

open Lib Function Option

/-- What the accounts see of a task. -/
structure Job where
  sid : Nat
  pgid : Nat
  ctrltty : Option Nat

def Task.job (tsk : Task) : Job := ⟨tsk.sid, tsk.pgid, tsk.ctrltty⟩

variable {J : Nat → Option Job} {tty : Nat → Tty} {p t : Nat} {j : Job} {q : Nat}

/-- The terminal that the task at a place holds. -/
def ctty (J : Nat → Option Job) (i : Nat) : Option Nat := (J i).bind Job.ctrltty

theorem ctty_update (J : Nat → Option Job) (p : Nat) (o : Option Job) :
    ctty (update J p o) = update (ctty J) p (o.bind Job.ctrltty) := by
  funext i
  by_cases h : i = p
  · rw [h, ctty, update_self, update_self]
  · rw [ctty, update_of_ne h, update_of_ne h, ctty]

/-- The accounts of all terminals. -/
structure Accounts (J : Nat → Option Job) (tty : Nat → Tty) : Prop where
  bound : ∀ q j, J q = some j → q < TASK_MAX
  group : ∀ q j, J q = some j → j.pgid = j.sid
  session : ∀ q j t, J q = some j → j.ctrltty = some t → j.sid = (tty t).sesId
  lead : ∀ q j t, J q = some j → j.ctrltty = some t → J j.sid = some ⟨j.sid, j.sid, some t⟩
  count : ∀ t, (tty t).sesHolders = refs (Finset.range TASK_MAX) (ctty J) t
  free : ∀ t, (tty t).sesHolders = 0 → (tty t).sesId = 0

namespace Accounts

theorem mem (h : Accounts J tty) (hq : J q = some j) : q ∈ Finset.range TASK_MAX := Finset.mem_range.2 (h.bound q j hq)

theorem holds (h : Accounts J tty) (hq : J q = some j) (hj : j.ctrltty = some t) :
    ctty J q = some t ∧ 0 < (tty t).sesHolders := by
  have hc : ctty J q = some t := by rw [ctty, hq, bind_some, hj]
  exact ⟨hc, by rw [h.count]; exact refs_pos (h.mem hq) hc⟩

theorem eq_of_last (h : Accounts J tty) (hp : J p = some j) (hj : j.ctrltty = some t)
    (hlast : (tty t).sesHolders = 1) {j' : Job} (hq : J q = some j') (hj' : j'.ctrltty = some t) : q = p := by
  rw [h.count] at hlast
  exact eq_of_refs_eq_one hlast (h.mem hq) (h.holds hq hj').1 (h.mem hp) (h.holds hp hj).1

/-- A task without a terminal changes or goes. -/
theorem replace (h : Accounts J tty) (hp : p < TASK_MAX) (hold : ∀ j ∈ J p, j.ctrltty = none) {o : Option Job}
    (hnew : ∀ j ∈ o, j.ctrltty = none ∧ j.pgid = j.sid) : Accounts (update J p o) tty := by
  have hother : ∀ {q j t}, update J p o q = some j → j.ctrltty = some t → J q = some j := fun {q j t} hq hj =>
    forall_update (P := fun q j => j.ctrltty = some t → J q = some j)
    (fun j hj ht => by rw [(hnew j hj).1] at ht; cases ht)
      (fun q j _ hq _ => hq) q j hq hj
  refine ⟨forall_update (fun _ _ => hp) fun q j _ => h.bound q j,
    forall_update (fun j hj => (hnew j hj).2) fun q j _ => h.group q j,
    fun q j t hq hj => h.session q j t (hother hq hj) hj, fun q j t hq hj => ?_, fun t => ?_, h.free⟩
  · have hl := h.lead q j t (hother hq hj) hj
    have hne : j.sid ≠ p := fun he => by
      rw [he] at hl
      have := hold _ hl
      cases this
    rwa [update_of_ne hne]
  have hn : o.bind Job.ctrltty = none := by
    cases o with
    | none => rfl
    | some j => exact (hnew j rfl).1
  have hc : ctty J p = none := by
    rw [ctty]
    cases hJ : J p with
    | none => rfl
    | some j => exact hold j hJ
  rw [h.count, ctty_update, hn, ← hc, update_eq_self]

/-- A task gets the terminal `t` or gives it up: what has to be shown for the task itself and for the others. -/
theorem update (h : Accounts J tty) {j' : Job} {x : Tty} (hp : p < TASK_MAX) (hgroup : j'.pgid = j'.sid)
    (hcount : x.sesHolders + (if ctty J p = some t then 1 else 0) = (tty t).sesHolders + if j'.ctrltty =
    some t then 1 else 0) (hplace : ∀ t', t' ≠ t → ctty J p ≠ some t' ∧ j'.ctrltty ≠ some t')
    (hfree : x.sesHolders = 0 → x.sesId = 0) (hown : j'.ctrltty = some t → j'.sid = x.sesId ∧
    (j'.sid = p ∨ J j'.sid = some ⟨j'.sid, j'.sid, some t⟩))
    (hsession : ∀ q j, q ≠ p → J q = some j → j.ctrltty = some t → j.sid = x.sesId)
    (hlead : ∀ q j t', q ≠ p → J q = some j → j.ctrltty = some t' → j.sid = p → j' = ⟨p, p, some t'⟩) :
    Accounts (update J p (some j')) (update tty t x) := by
  refine ⟨forall_update (fun _ _ => hp) fun q j _ => h.bound q j,
    forall_update (fun j hj => some.inj hj ▸ hgroup) fun q j _ => h.group q j,
    fun q j t' hq hj => ?_, fun q j t' hq hj => ?_, fun t' => ?_, fun t' h0 => ?_⟩
  · by_cases hqp : q = p
    · rw [hqp, update_self] at hq
      cases hq
      by_cases htt : t' = t
      · rw [htt] at hj ⊢
        rw [update_self]
        exact (hown hj).1
      · exact absurd hj (hplace t' htt).2
    rw [update_of_ne hqp] at hq
    by_cases htt : t' = t
    · rw [htt] at hj ⊢
      rw [update_self]
      exact hsession q j hqp hq hj
    · rw [update_of_ne htt]
      exact h.session q j t' hq hj
  · by_cases hqp : q = p
    · rw [hqp, update_self] at hq
      cases hq
      by_cases htt : t' = t
      · rw [htt] at hj ⊢
        by_cases hsp : j'.sid = p
        · obtain ⟨g, g', o⟩ := j'
          dsimp only at hgroup hsp hj ⊢
          rw [hgroup, hsp, hj, update_self]
        · rw [update_of_ne hsp]
          exact (hown hj).2.resolve_left hsp
      · exact absurd hj (hplace t' htt).2
    · rw [update_of_ne hqp] at hq
      by_cases hsp : j.sid = p
      · rw [hsp, update_self, hlead q j t' hqp hq hj hsp]
      · rw [update_of_ne hsp]
        exact h.lead q j t' hq hj
  · have hc := refs_update (Finset.mem_range.2 hp) (ctty J) j'.ctrltty t'
    rw [ctty_update, bind_some]
    by_cases htt : t' = t
    · subst htt
      rw [h.count] at hcount
      rw [update_self]
      omega
    rw [if_neg (hplace t' htt).1, if_neg (hplace t' htt).2] at hc
    rw [update_of_ne htt, h.count]
    exact hc.symm
  · by_cases htt : t' = t
    · rw [htt, update_self] at h0 ⊢
      exact hfree h0
    · rw [update_of_ne htt] at h0 ⊢
      exact h.free t' h0

/-- A leader without a terminal takes one that is free. -/
theorem attach (h : Accounts J tty) (hp : J p = some ⟨p, p, none⟩) (ht : (tty t).sesHolders = 0) :
    Accounts (Function.update J p (some ⟨p, p, some t⟩)) (Function.update tty t ⟨p, 1⟩) := by
  have hnone : ctty J p = none := by rw [ctty, hp, bind_some]
  refine h.update (h.bound p _ hp) rfl ?_ (fun t' htt => ⟨?_, ?_⟩) nofun (fun _ => ⟨rfl, .inl rfl⟩)
    (fun q j _ hq hj => ?_) fun q j t' _ hq hj hsp => ?_
  · rw [hnone, ht, if_neg nofun, if_pos rfl]
  · rw [hnone]
    nofun
  · simpa using Ne.symm htt
  · have := (h.holds hq hj).2
    omega
  -- the leader of a holder is a holder
  have hl := h.lead q j t' hq hj
  rw [hsp, hp] at hl
  cases hl

/-- A task gives its terminal up, the leader last. -/
theorem detach (h : Accounts J tty) (hp : J p = some j) (hj : j.ctrltty = some t)
    (hlast : p = j.sid → (tty t).sesHolders = 1) :
    Accounts (Function.update J p (some { j with ctrltty := none })) (Function.update tty t
      ⟨if (tty t).sesHolders - 1 = 0 then 0 else (tty t).sesId, (tty t).sesHolders - 1⟩) := by
  obtain ⟨hc, hpos⟩ := h.holds hp hj
  refine h.update (h.bound p _ hp) (h.group p j hp) ?_ (fun t' htt => ⟨?_, nofun⟩) (fun h0 => if_pos h0) nofun
    (fun q j' hqp hq hj' => ?_) fun q j' t' hqp hq hj' hsp => ?_
  · dsimp only
    rw [if_pos hc, if_neg nofun]
    omega
  · rw [hc]
    simpa using Ne.symm htt
  · have hne : (tty t).sesHolders - 1 ≠ 0 := fun h0 => hqp (h.eq_of_last hp hj (by omega) hq hj')
    rw [if_neg hne]
    exact h.session q j' t hq hj'
  -- a holder that the task leads would hold the same terminal
  have hl := h.lead q j' t' hq hj'
  rw [hsp, hp] at hl
  cases hl
  cases hj
  exact absurd (h.eq_of_last hp rfl (hlast rfl) hq hj') hqp

/-- A child shares its parent's terminal. -/
theorem child (h : Accounts J tty) (hp : J p = some j) (hj : j.ctrltty = some t) {c : Nat} (hc : J c = none)
    (hct : c < TASK_MAX) :
    Accounts (Function.update J c (some j)) (Function.update tty t ⟨(tty t).sesId, (tty t).sesHolders + 1⟩) := by
  have hnone : ctty J c = none := by rw [ctty, hc, bind_none]
  refine h.update hct (h.group p j hp) ?_ (fun t' htt => ⟨?_, ?_⟩) nofun
    (fun _ => ⟨h.session p j t hp hj, .inr (h.lead p j t hp hj)⟩) (fun q j' _ hq hj' => h.session q j' t hq hj')
    fun q j' t' _ hq hj' hsp => ?_
  · rw [hnone, hj, if_neg nofun, if_pos rfl]
  · rw [hnone]
    nofun
  · rw [hj]
    simpa using Ne.symm htt
  have hl := h.lead q j' t' hq hj'
  rw [hsp, hc] at hl
  cases hl

end Accounts

/-! ## Calls -/

variable {s s' : Sys} {tsk : Task}

def jobs (s : Sys) (i : Nat) : Option Job := (s.table i).map Task.job

theorem jobs_eq (h : s.table q = some tsk) : jobs s q = some tsk.job := by rw [jobs, h, map_some]

theorem jobs_set (s : Sys) (p : Nat) (tsk : Task) : jobs (s.set p tsk) = update (jobs s) p (some tsk.job) := by
  funext i
  by_cases h : i = p
  · rw [h, jobs, set_self, update_self, map_some]
  · rw [jobs, set_of_ne h, update_of_ne h, jobs]

theorem jobs_set_same {new : Task} (hp : s.table p = some tsk) (hnew : new.job = tsk.job) :
    jobs (s.set p new) = jobs s := by
  rw [jobs_set, hnew, ← jobs_eq hp, update_eq_self]

/-- The accounts are right, tasks that have exited hold nothing, and no assertion has failed. -/
structure TtyInv (s : Sys) : Prop where
  acc : Accounts (jobs s) s.tty
  dead : ∀ q a, s.table q = some a → a.dead = true → a.ctrltty = none
  ok : s.halt ≠ some .assertion

/-- No task holds the terminal but the leader that gives it up. -/
def LastHolder (s : Sys) (p : Nat) (tsk : Task) : Prop :=
  ∀ t ∈ tsk.ctrltty, p = tsk.sid → (s.tty t).sesHolders = 1
deriving Decidable

/-- `ctrltty_detach` with accounts that are right changes the task and its terminal only. -/
theorem ctrlttyDetach_spec (h : Accounts (jobs s) s.tty) (hp : s.table p = some tsk) (hlast : LastHolder s p tsk) :
    Accounts (jobs (ctrlttyDetach s p tsk)) (ctrlttyDetach s p tsk).tty ∧ (ctrlttyDetach s p tsk).halt = s.halt ∧
      (ctrlttyDetach s p tsk).table = (s.set p { tsk with ctrltty := none }).table := by
  have hj := jobs_eq hp
  rw [ctrlttyDetach]
  split
  next hnone =>
    have hsame : { tsk with ctrltty := none } = tsk := by rw [← hnone]
    refine ⟨h, rfl, ?_⟩
    rw [hsame, Sys.set, ← hp, update_eq_self]
  next t ht =>
    have hsid : (s.tty t).sesId = tsk.sid := (h.session p _ t hj ht).symm
    have hpos := (h.holds hj ht).2
    rw [if_neg (by rw [not_or, not_not]; exact ⟨hsid, by omega⟩)]
    dsimp only
    -- nobody else in the session holds a terminal
    have hothers : ∀ i q, i ≠ p → s.table i = some q → p = tsk.sid → q.sid = p → q.ctrltty = none := by
      intro i q hip hi hlead hq
      by_contra hne
      obtain ⟨t', ht'⟩ := ne_none_iff_exists'.1 hne
      have hl := h.lead i _ t' (jobs_eq hi) ht'
      rw [show q.job.sid = p from hq, hj, Task.job, ht] at hl
      obtain ⟨-, -, rfl⟩ : tsk.sid = p ∧ tsk.pgid = p ∧ t = t' := by simpa using hl
      exact hip (h.eq_of_last hj ht (hlast t ht hlead) (jobs_eq hi) ht')
    have htable : update (fun i => (s.table i).map fun q =>
        if p = tsk.sid ∧ foreachNext s i = true ∧ q.sid = p ∧ i ≠ p then { q with ctrltty := none } else q) p
        (some { tsk with ctrltty := none }) = (s.set p { tsk with ctrltty := none }).table := by
      funext i
      by_cases hip : i = p
      · rw [hip, update_self, set_self]
      rw [update_of_ne hip, set_of_ne hip]
      cases hi : s.table i with
      | none => rfl
      | some q =>
        rw [map_some]
        split
        next hc => rw [← hothers i q hip hi hc.1 hc.2.2.1]
        next => rfl
    refine ⟨?_, rfl, htable⟩
    have hjobs : ∀ u : Nat → Tty, jobs ⟨(s.set p { tsk with ctrltty := none }).table, u, s.halt⟩ =
        update (jobs s) p (some { tsk.job with ctrltty := none }) := fun u => by
      rw [← show ({ tsk with ctrltty := none } : Task).job = { tsk.job with ctrltty := none } from rfl, ← jobs_set]
      rfl
    rw [htable, hjobs]
    exact h.detach hj ht fun hlead => hlast t ht hlead

namespace TtyInv

theorem of_same (h : TtyInv s) (hd : ∀ i, (s'.table i).map (fun a => (a.job, a.dead)) = (s.table i).map fun a =>
    (a.job, a.dead)) (htty : s'.tty = s.tty) (hok : s'.halt ≠ some .assertion) : TtyInv s' := by
  have hjobs : jobs s' = jobs s := by
    funext i
    have := congrArg (Option.map Prod.fst) (hd i)
    rw [map_map, map_map] at this
    exact this
  refine ⟨by rw [hjobs, htty]; exact h.acc, fun q a hq ha => ?_, hok⟩
  have hq' := hd q
  rw [hq, map_some, eq_comm, map_eq_some_iff] at hq'
  obtain ⟨b, hb, hba⟩ := hq'
  obtain ⟨hjob, hdead⟩ := Prod.mk.inj hba
  have := h.dead q b hb (hdead.trans ha)
  rwa [show b.ctrltty = a.ctrltty from congrArg Job.ctrltty hjob] at this

theorem stop (h : TtyInv s) {x : Halt} (hx : x ≠ .assertion) : TtyInv (s.stop x) :=
  h.of_same (fun _ => rfl) rfl fun he => hx (some.inj he)

/-- An exit gives the terminal up. -/
theorem exit (h : TtyInv s) (hp : s.table p = some tsk) (hlast : LastHolder s p tsk) : TtyInv (taskExit s p tsk) := by
  rw [taskExit]
  split
  next => exact h.stop nofun
  next =>
    have hacc : Accounts (jobs (s.set p { tsk with dead := true })) s.tty := by
      rw [jobs_set_same hp (show ({ tsk with dead := true } : Task).job = tsk.job from rfl)]
      exact h.acc
    obtain ⟨hacc', hhalt, htable⟩ := ctrlttyDetach_spec hacc (set_self s p { tsk with dead := true }) hlast
    dsimp only
    generalize ctrlttyDetach (s.set p { tsk with dead := true }) p { tsk with dead := true } =
      s2 at hacc' hhalt htable ⊢
    have h2 : TtyInv s2 := by
      refine ⟨hacc', ?_, by rw [hhalt]; exact h.ok⟩
      rw [htable]
      refine forall_update (fun a ha _ => some.inj ha ▸ rfl) fun q a hqp hq => h.dead q a ?_
      rwa [set_of_ne hqp] at hq
    split
    next => exact h2
    next =>
      split
      next => exact h2.stop nofun
      next =>
        refine h2.of_same (fun i => ?_) rfl h2.ok
        rw [map_map]
        congr 1
        funext a
        rw [Function.comp_apply]
        split <;> rfl

/-- `setsid` gives the terminal up and starts a session. -/
theorem setsid (h : TtyInv s) (hp : s.table p = some tsk) : TtyInv (setsid s p tsk).1 := by
  rw [Proc.setsid]
  split
  next => exact h
  next hne =>
    have hlast : LastHolder s p tsk := fun t _ hlead => absurd ((h.acc.group p _ (jobs_eq hp)).trans hlead.symm) hne
    obtain ⟨hacc, hhalt, htable⟩ := ctrlttyDetach_spec h.acc hp hlast
    generalize ctrlttyDetach s p tsk = s2 at hacc hhalt htable ⊢
    have hp2 : s2.table p = some { tsk with ctrltty := none } := by rw [htable, set_self]
    have hdead : ∀ q a, s2.table q = some a → a.dead = true → a.ctrltty = none := by
      rw [htable]
      exact forall_update (fun a ha _ => some.inj ha ▸ rfl) fun q a _ hq => h.dead q a hq
    dsimp only
    split
    next => exact ⟨hacc, hdead, by rw [hhalt]; exact h.ok⟩
    next =>
      refine ⟨?_, forall_update (fun a ha _ => some.inj ha ▸ rfl) fun q a _ => hdead q a,
        by show s2.halt ≠ _; rw [hhalt]; exact h.ok⟩
      rw [jobs_set]
      refine hacc.replace (h.acc.bound p _ (jobs_eq hp)) (fun j hj => ?_) fun j hj => ?_
      · rw [jobs_eq hp2] at hj
        cases hj
        rfl
      · cases hj
        exact ⟨rfl, rfl⟩

/-- The child's share is counted before the child is there. -/
theorem refer (h : TtyInv s) (hp : s.table p = some tsk) {c : Nat} (hc : s.table c = none)
    (hct : c < TASK_MAX) {chd : Task} (hjob : chd.job = tsk.job) : Accounts (jobs ((ctrlttyRefer s tsk).set c chd))
    (ctrlttyRefer s tsk).tty ∧ (ctrlttyRefer s tsk).halt = s.halt := by
  have hj := jobs_eq hp
  have hjc : jobs s c = none := by rw [jobs, hc, map_none]
  have hjobs : jobs (ctrlttyRefer s tsk) = jobs s := by
    funext i
    rw [jobs, ctrlttyRefer_table, jobs]
  rw [jobs_set, hjobs, hjob, ctrlttyRefer]
  split
  next hnone =>
    refine ⟨h.acc.replace hct (fun j hjm => ?_) (fun j hjm => ?_), rfl⟩
    · rw [hjc] at hjm
      cases hjm
    · cases hjm
      exact ⟨hnone, h.acc.group p _ hj⟩
  next t ht =>
    have hsid : (s.tty t).sesId = tsk.sid := (h.acc.session p _ t hj ht).symm
    have hpos := (h.acc.holds hj ht).2
    rw [if_neg (by rw [not_or, not_not]; exact ⟨hsid, by omega⟩)]
    exact ⟨h.acc.child hj ht hjc hct, rfl⟩

/-- A fork keeps the accounts. -/
theorem fork (h : TtyInv s) (hp : s.table p = some tsk) (hrun : s.halt = none) : TtyInv (taskFork s p tsk) := by
  rw [taskFork]
  split
  next => exact h.stop (by simp)
  next c hfree =>
    obtain ⟨hct, hc⟩ := getfree_eq_some hfree
    have hjob : ({ tsk with dead := false, didExec := false, ppid := p } : Task).job = tsk.job := rfl
    obtain ⟨hacc, hhalt⟩ := h.refer hp hc hct hjob
    rw [hrun] at hhalt
    rw [if_neg (by rw [hhalt]; simp)]
    refine ⟨hacc, forall_update (fun a ha hd => ?_) fun q a _ hq => h.dead q a ?_,
      by show (ctrlttyRefer s tsk).halt ≠ _; rw [hhalt]; simp⟩
    · cases ha
      cases hd
    · rwa [ctrlttyRefer_table] at hq

/-- Opening a terminal may attach it. -/
theorem ttyOpen (h : TtyInv s) (hp : s.table p = some tsk) (hd : tsk.dead = false) (t : Nat) :
    TtyInv (ttyInitPctx s p tsk t) := by
  rw [ttyInitPctx]
  split
  next hc =>
    obtain ⟨hfree, hsid, hnone⟩ := hc
    have hgroup : tsk.pgid = p := (h.acc.group p _ (jobs_eq hp)).trans hsid
    have hold : jobs s p = some ⟨p, p, none⟩ := by rw [jobs_eq hp, Task.job, hsid, hgroup, hnone]
    have hnew : ({ tsk with ctrltty := some t } : Task).job = ⟨p, p, some t⟩ := by rw [Task.job, hsid, hgroup]
    refine ⟨?_, forall_update (fun a ha hdead => ?_) fun q a _ => h.dead q a, h.ok⟩
    · have hjobs : jobs { s.set p { tsk with ctrltty := some t } with tty := update s.tty t ⟨tsk.sid, 1⟩ } =
          update (jobs s) p (some ⟨p, p, some t⟩) := by
        rw [← hnew, ← jobs_set]
        rfl
      rw [hjobs, hsid]
      exact h.acc.attach hold hfree
    · obtain rfl := some.inj ha
      exact absurd hdead (by rw [hd]; nofun)
  next => exact h

/-- A reaped task had given its terminal up. -/
theorem reap (h : TtyInv s) (p c : Nat) : TtyInv (taskReap s p c) := by
  rw [taskReap]
  split
  next => exact h
  next chd hc =>
    split
    next hdead =>
      have hjobs : jobs { s with table := update s.table c none } = update (jobs s) c none := by
        funext i
        by_cases hi : i = c
        · simp only [hi, jobs, update_self, map_none]
        · simp only [jobs, update_of_ne hi]
      refine ⟨?_, forall_update nofun fun q a _ => h.dead q a, h.ok⟩
      rw [hjobs]
      refine h.acc.replace (h.acc.bound c _ (jobs_eq hc)) (fun j hj => ?_) nofun
      rw [jobs_eq hc] at hj
      cases hj
      exact h.dead c chd hc hdead.2
    next => exact h

end TtyInv

/-! ## Runs -/

/-- The calls that concern terminals. -/
def Call.isTty : Call → Bool
  | .fork | .exit | .setsid | .ttyOpen _ | .wait _ => true
  | _ => false

/-- A leader that exits is the last holder of its terminal. -/
def LeaderLast (s : Sys) (o : Nat × Call) : Prop :=
  match o.2 with
  | .exit => ∀ tsk ∈ s.table o.1, LastHolder s o.1 tsk
  | _ => True

instance (s : Sys) (o : Nat × Call) : Decidable (LeaderLast s o) := by
  unfold LeaderLast
  split <;> infer_instance

/-- One call keeps the accounts. -/
theorem TtyInv.step {o : Nat × Call} (h : TtyInv s) (ho : o.2.isTty = true) (hl : LeaderLast s o)
    (hs : step s o = some s') : TtyInv s' := by
  obtain ⟨hrun, tsk, hp, hd, rfl⟩ := step_eq_some.1 hs
  obtain ⟨p, c⟩ := o
  cases c with
  | fork => exact h.fork hp hrun
  | exit => exact h.exit hp (hl tsk hp)
  | setsid => exact h.setsid hp
  | ttyOpen t => exact h.ttyOpen hp hd t
  | wait c => exact h.reap p c
  | setuid => cases ho
  | setgid => cases ho
  | setreuid => cases ho
  | setregid => cases ho
  | setpgid => cases ho

/-- The terminal of a live task. -/
def liveCtty (s : Sys) (i : Nat) : Option Nat := (s.table i).bind fun a => if a.dead then none else a.ctrltty

theorem TtyInv.liveCtty (h : TtyInv s) (i : Nat) : ctty (jobs s) i = liveCtty s i := by
  rw [ctty, jobs, Proc.liveCtty]
  cases hi : s.table i with
  | none => rfl
  | some a =>
    rw [map_some, bind_some, bind_some]
    split
    next hd => exact h.dead i a hi hd
    next => rfl

/-- **Controlling terminals are accounted for**: over every run of calls from a system in which no task holds a
terminal, if leaders exit as the last holders of their terminals, each terminal counts the live tasks that hold it, all
of them are in its session, a terminal without holders belongs to no session, and no assertion fails. -/
theorem holders_counted (s s' : Sys) (hinit : ∀ q a, s.table q = some a → q < TASK_MAX ∧ a.pgid = a.sid ∧
    a.ctrltty = none) (htty : ∀ t, s.tty t = ⟨0, 0⟩) (hrun : s.halt = none) (os : List (Nat × Call))
    (hos : ∀ o ∈ os, o.2.isTty = true) (hl : Meets step LeaderLast s os) (hr : run step s os = some s') :
    (∀ t, (s'.tty t).sesHolders = refs (Finset.range TASK_MAX) (liveCtty s') t) ∧
    (∀ t q a, s'.table q = some a → a.ctrltty = some t → a.sid = (s'.tty t).sesId) ∧
    (∀ t, (s'.tty t).sesHolders = 0 → (s'.tty t).sesId = 0) ∧ s'.halt ≠ some .assertion := by
  have h0 : TtyInv s := by
    have hj : ∀ q j, jobs s q = some j → q < TASK_MAX ∧ j.pgid = j.sid ∧ j.ctrltty = none := fun q j hq => by
      obtain ⟨a, ha, rfl⟩ := map_eq_some_iff.1 hq
      exact hinit q a ha
    have hnone : ∀ {q j t}, jobs s q = some j → j.ctrltty ≠ some t := fun {q j t} hq => by
      rw [(hj q j hq).2.2]
      nofun
    refine ⟨⟨fun q j hq => (hj q j hq).1, fun q j hq => (hj q j hq).2.1, fun q j t hq ht => absurd ht (hnone hq),
      fun q j t hq ht => absurd ht (hnone hq), fun t => ?_, fun t _ => by rw [htty]⟩,
      fun q a hq _ => (hinit q a hq).2.2, by rw [hrun]; nofun⟩
    rw [htty, eq_comm, refs_eq_zero_iff]
    intro i _ hi
    obtain ⟨j, hji, ht⟩ := bind_eq_some_iff.1 hi
    exact hnone hji ht
  have hinv : TtyInv s' := run_meets_inv (I := TtyInv) (fun _ _ _ hi ho hs => hi.step ho.1 ho.2 hs) h0
    ((meets_of_forall_mem s hos).and hl) hr
  refine ⟨fun t => ?_, fun t q a hq ha => hinv.acc.session q _ t (jobs_eq hq) ha, hinv.acc.free, hinv.ok⟩
  rw [hinv.acc.count]
  exact refs_congr fun i _ => hinv.liveCtty i

/-- Two tasks, each the leader of its session. -/
def ttySys : Sys :=
  ⟨fun i => if i < 2 then some ⟨false, false, 0, 0, 0, 0, 0, 0, i, 0, i, none⟩ else none, fun _ => ⟨0, 0⟩, none⟩

/-- A leader opens the terminal 5 and has two children; one makes its own session with the terminal 6, the other exits.
-/
def ttyCalls : List (Nat × Call) :=
  [(1, .ttyOpen 5), (1, .fork), (1, .fork), (2, .setsid), (2, .ttyOpen 6), (3, .exit), (1, .wait 3)]

theorem holders_counted_sessions : ∃ s', run step ttySys ttyCalls = some s' ∧ s'.tty 5 = ⟨1, 1⟩ ∧ s'.tty 6 = ⟨2, 1⟩ ∧
    refs (Finset.range TASK_MAX) (liveCtty s') 5 = 1 ∧ s'.halt ≠ some .assertion := by
  obtain ⟨s', hr⟩ : ∃ s', run step ttySys ttyCalls = some s' := ⟨_, rfl⟩
  have h5 : s'.tty 5 = ⟨1, 1⟩ := by
    cases hr
    rfl
  have h := holders_counted ttySys s' (fun q a hq => by
    simp only [ttySys] at hq
    split at hq
    next hq2 =>
      cases hq
      exact ⟨hq2.trans (by decide), rfl, rfl⟩
    next => cases hq) (fun _ => rfl) rfl ttyCalls (by decide) (by decide) hr
  refine ⟨s', hr, h5, ?_, ?_, h.2.2.2⟩
  · cases hr
    rfl
  · rw [← h.1, h5]

/-- The leader exits before its child: the terminal still counts a holder and belongs to the session, but nobody holds
it. -/
theorem holders_left : (run step ttySys [(1, .fork), (2, .setsid), (2, .ttyOpen 5), (2, .fork), (2, .exit)]).map
    (fun s => ((s.tty 5).sesId, (s.tty 5).sesHolders, refs (Finset.range TASK_MAX) (liveCtty s) 5)) =
    some (2, 1, 0) := by
  decide

end TextOS.Proc
