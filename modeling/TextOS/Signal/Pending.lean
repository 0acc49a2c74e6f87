import TextOS.Lib.Run

/-!
# Pending signals: `kernel/signal.c`

The signals of one task: it gets signals, changes its mask and its actions, and on the way back to user mode one pending
signal is acted on. Three ways lead to user mode past the pending signals: `sigreturn`, which takes the frame from the
stack of the task, where it may be anything; the first return of a child, which starts at `msyscall_exit` or
`intr_exit`, behind the call of `__handle_signal`; and `execve`, which forgets them.

- **over every run that is clear no signal is lost or acted on twice, no blocked signal is acted on, and `SIGKILL` ends
  the task** (`signals_acted`); `__handle_signal` forgets the pending signals that are blocked (`blocked_forgotten`).
-/

namespace TextOS.Signal

open Lib List

variable {set : SigSet}

def NSIG : Nat := 64

def SIGKILL : Nat := 9
def SIGSTOP : Nat := 19

/-! ## Sets of signals -/

/-- `sigset_t`. -/
abbrev SigSet := BitVec 64

def sigaddset (set : SigSet) (sig : Nat) : SigSet := if sig = 0 ∨ NSIG < sig then set else set ||| 1#64 <<< (sig - 1)

def sigdelset (set : SigSet) (sig : Nat) : SigSet := if sig = 0 ∨
    NSIG < sig then set else set &&& ~~~(1#64 <<< (sig - 1))

/-- `sigismember`, for the numbers of signals. -/
def sigismember (set : SigSet) (sig : Nat) : Bool := decide (0 < sig) && set.getLsbD (sig - 1)

theorem getLsbD_bit (i j : Nat) : (1#64 <<< i).getLsbD j = (decide (i < 64) && decide (i = j)) := by
  rw [← BitVec.twoPow_eq, BitVec.getLsbD_twoPow]

theorem sigismember_sigaddset {sig : Nat} (h0 : 0 < sig) (h : sig ≤ NSIG) (set : SigSet) (i : Nat) :
    sigismember (sigaddset set sig) i = (sigismember set i || decide (i = sig)) := by
  rw [NSIG] at h
  rw [sigaddset, NSIG, if_neg (by omega), sigismember, sigismember, BitVec.getLsbD_or, getLsbD_bit]
  by_cases hi : 0 < i
  · have : (sig - 1 = i - 1) ↔ i = sig := by omega
    simp [hi, this, show sig - 1 < 64 by omega]
  · simp [hi, show i ≠ sig by omega]

theorem sigismember_sigdelset {sig : Nat} (h0 : 0 < sig) (h : sig ≤ NSIG) (set : SigSet) (i : Nat) :
    sigismember (sigdelset set sig) i = (sigismember set i && !decide (i = sig)) := by
  rw [NSIG] at h
  rw [sigdelset, NSIG, if_neg (by omega), sigismember, sigismember, BitVec.getLsbD_and, BitVec.getLsbD_not, getLsbD_bit]
  by_cases hi : 0 < i
  · have : (sig - 1 = i - 1) ↔ i = sig := by omega
    by_cases hl : i - 1 < 64
    · simp [hi, this, hl, show sig - 1 < 64 by omega]
    · simp [hi, hl, BitVec.getLsbD_of_ge set (i - 1) (by omega)]
  · simp [hi]

theorem sigismember_range {i : Nat} (h : sigismember set i = true) : 0 < i ∧ i ≤ NSIG := by
  rw [sigismember, Bool.and_eq_true, decide_eq_true_eq] at h
  have := BitVec.lt_of_getLsbD h.2
  exact ⟨h.1, by rw [NSIG]; omega⟩

theorem sigismember_and (a b : SigSet) (i : Nat) : sigismember (a &&& b) i = (sigismember a i && sigismember b i) := by
  rw [sigismember, sigismember, sigismember, BitVec.getLsbD_and]
  cases decide (0 < i) <;> simp

theorem and_not_of_disjoint {a b : SigSet} (h : a &&& b = 0#64) : a &&& ~~~b = a := by
  refine BitVec.eq_of_getLsbD_eq fun i hi => ?_
  have hb := congrArg (BitVec.getLsbD · i) h
  simp only [BitVec.getLsbD_and, BitVec.getLsbD_zero] at hb
  rw [BitVec.getLsbD_and, BitVec.getLsbD_not]
  cases ha : a.getLsbD i
  · rfl
  rw [ha, Bool.true_and] at hb
  rw [hb, decide_eq_true hi]
  rfl

/-! ## The task -/

inductive Handler
  | dfl
  | ign
  | user
deriving DecidableEq

/-- `sigaction_t`. -/
structure Action where
  handler : Handler
  nodefer : Bool
  resethand : Bool
  mask : SigSet

inductive Status
  | run
  | exited (sig : Nat)
  /-- A null pointer was called. -/
  | fault
  | panic
deriving DecidableEq

/-- What a default action does. -/
inductive Default
  | term
  | core
  | ignore
  | cont
  | stop

/-- `sig_def`; there is nothing for `SIGKILL`, `SIGSTKFLT`, `SIGSTOP` and from 32 on. -/
def sigDef : Nat → Option Default
  | 1 | 2 | 10 | 12 | 13 | 14 | 15 | 26 | 27 | 30 => some .term
  | 3 | 4 | 5 | 6 | 7 | 8 | 11 | 24 | 25 | 31 => some .core
  | 17 | 23 | 28 | 29 => some .ignore
  | 18 => some .cont
  | 20 | 21 | 22 => some .stop
  | _ => none

/-- The signals of `task_t`; `sent` and `log` are the signals that became pending, and those that were acted on with the
mask at that time. -/
structure Task where
  sigpend : SigSet
  sigmask : SigSet
  sigacts : Nat → Action
  sigcurr : Nat
  status : Status
  sent : List Nat
  log : List (Nat × SigSet)

/-- The first pending signal. -/
def firstSig (set : SigSet) : Option Nat := (List.range' 1 NSIG).find? (sigismember set)

/-- The entry of a handler. -/
def enter (s : Task) (i : Nat) (act : Action) : Task :=
  { s with
    sigacts := if act.resethand then Function.update s.sigacts i { act with handler := .dfl } else s.sigacts
    sigcurr := i
    sigmask := s.sigmask ||| (if act.nodefer then act.mask else sigaddset act.mask i) }

/-- The action for a signal that has been taken out of the pending ones. -/
def takeAction (s : Task) (i : Nat) : Task :=
  let acted := { s with log := s.log ++ [(i, s.sigmask)] }
  match (s.sigacts i).handler with
  | .ign => acted
  | .dfl =>
    match sigDef i with
    | none => { s with status := .fault }
    | some .term | some .core => { acted with status := .exited i }
    | some _ => acted
  | .user => enter acted i (s.sigacts i)

def handleSignal (s : Task) : Task :=
  let pend := s.sigpend &&& ~~~s.sigmask
  if pend = 0#64 then { s with sigpend := pend }
  else if sigismember pend SIGKILL then
    { s with sigpend := pend, log := s.log ++ [(SIGKILL, s.sigmask)], status := .exited SIGKILL }
  else
    match firstSig pend with
    | none => { s with sigpend := pend }
    | some i => takeAction { s with sigpend := sigdelset pend i } i

/-- The part of `kill_safe` that concerns the pending signals. -/
def kill (s : Task) (sig : Nat) : Task :=
  if NSIG ≤ sig ∨ sig = 0 then s
  else
    { s with
      sigpend := sigaddset s.sigpend sig
      sent := if sigismember s.sigpend sig then s.sent else sig :: s.sent }

inductive How
  | block
  | unblock
  | setmask

def sigprocmask (s : Task) (how : How) (set : SigSet) : Task :=
  match how with
  | .block => { s with sigmask := s.sigmask ||| set }
  | .unblock => { s with sigmask := s.sigmask &&& ~~~set }
  | .setmask => { s with sigmask := set }

def sigaction (s : Task) (sig : Nat) (act : Action) : Task :=
  if sig = 0 ∨ NSIG ≤ sig then s
  else if sig = SIGKILL ∨ sig = SIGSTOP then s
  else { s with sigacts := Function.update s.sigacts sig act }

/-- `sigreturn` with the frame that it finds: the number of the signal, the one before, and the mask. -/
def sigreturn (s : Task) (signum sigprv : Nat) (mask : SigSet) : Task :=
  if signum ≠ s.sigcurr then { s with status := .panic } else { s with sigcurr := sigprv, sigmask := mask }

def taskResetAllsigs (s : Task) : Task :=
  { s with sigcurr := 0, sigpend := 0, sigmask := 0, sigacts := fun _ => ⟨.dfl, false, false, 0⟩ }

inductive Event
  | kill (sig : Nat)
  | sigprocmask (how : How) (set : SigSet)
  | sigaction (sig : Nat) (act : Action)
  | sigreturn (signum sigprv : Nat) (mask : SigSet)
  /-- The end of an interrupt or a system call. -/
  | ret
  /-- The first return of a child of `fork`. -/
  | start
  /-- An `execve` that succeeds: `task_reset_allsigs` and `arch_goto_user`. -/
  | execve

/-- The events that lead to user mode. -/
def Event.returns : Event → Bool
  | .sigreturn .. | .ret | .start | .execve => true
  | _ => false

/-- Nothing happens after the end of the task. -/
def step (s : Task) (o : Event) : Option Task :=
  if s.status = .run then
    match o with
    | .kill sig => some (kill s sig)
    | .sigprocmask how set => some (sigprocmask s how set)
    | .sigaction sig act => some (sigaction s sig act)
    | .sigreturn signum sigprv mask => some (sigreturn s signum sigprv mask)
    | .ret => some (handleSignal s)
    | .start => some s
    | .execve => some (taskResetAllsigs s)
  else some s

/-! ## What happens to a signal -/

variable {s s' : Task} {i : Nat}

theorem firstSig_eq_some (h : firstSig set = some i) : sigismember set i = true := List.find?_some h

/-- A pending signal, or a lower one, comes first. -/
theorem exists_firstSig (h : sigismember set i = true) : ∃ j, firstSig set = some j ∧ j ≤ i := by
  obtain ⟨h0, h1⟩ := sigismember_range h
  have hmem : i ∈ range' 1 NSIG := mem_range'_1.2 ⟨h0, by omega⟩
  obtain ⟨j, hj⟩ := Option.isSome_iff_exists.1 (find?_isSome.2 ⟨i, hmem, h⟩)
  refine ⟨j, hj, ?_⟩
  by_contra hlt
  obtain ⟨-, as, bs, hsplit, has⟩ := find?_eq_some_iff_append.1 hj
  have hi : i ∈ as := by
    rw [hsplit] at hmem
    rcases mem_append.1 hmem with hm | hm
    · exact hm
    have hsorted : (range' 1 NSIG).Pairwise (· < ·) := pairwise_lt_range'
    rw [hsplit, pairwise_append] at hsorted
    rcases mem_cons.1 hm with rfl | hm
    · exact absurd le_rfl hlt
    · exact absurd ((pairwise_cons.1 hsorted.2.1).1 i hm).le (by omega)
  exact absurd h (by simpa using has i hi)

/-- When `__handle_signal` runs, no pending signal is blocked and the default action that is taken exists; `SIGKILL` is
not pending on another way to user mode, and with `execve` no signal is. -/
def Clear (s : Task) : Event → Prop
  | .ret => s.sigpend &&& s.sigmask = 0#64 ∧ (sigismember s.sigpend SIGKILL = true ∨
      ∀ i ∈ firstSig s.sigpend, (s.sigacts i).handler = .dfl → (sigDef i).isSome = true)
  | .sigreturn .. | .start => sigismember s.sigpend SIGKILL = false
  | .execve => s.sigpend = 0#64
  | _ => True

/-- How often a signal has been acted on. -/
def acts (s : Task) (i : Nat) : Nat := (s.log.map Prod.fst).count i

instance (s : Task) (o : Event) : Decidable (Clear s o) := by
  unfold Clear
  split <;> infer_instance

theorem takeAction_spec (hdef : (s.sigacts i).handler = .dfl → (sigDef i).isSome = true) :
    (takeAction s i).sigpend = s.sigpend ∧ (takeAction s i).log = s.log ++ [(i, s.sigmask)] ∧
    (takeAction s i).sent = s.sent := by
  rw [takeAction]
  cases hh : (s.sigacts i).handler with
  | ign => exact ⟨rfl, rfl, rfl⟩
  | user => exact ⟨rfl, rfl, rfl⟩
  | dfl =>
    obtain ⟨d, hd⟩ := Option.isSome_iff_exists.1 (hdef hh)
    rw [hd]
    cases d <;> exact ⟨rfl, rfl, rfl⟩

/-- `__handle_signal`, if it is clear: nothing is pending, or one pending signal is acted on. -/
theorem handleSignal_spec (hc : Clear s .ret) : ((∀ i, sigismember s.sigpend i = false) ∧ handleSignal s = s) ∨
    ∃ j, sigismember s.sigpend j = true ∧ (handleSignal s).log = s.log ++ [(j, s.sigmask)] ∧
    (handleSignal s).sent = s.sent ∧
      ((j = SIGKILL ∧ (handleSignal s).status = .exited SIGKILL ∧ (handleSignal s).sigpend = s.sigpend) ∨
        (sigismember s.sigpend SIGKILL = false ∧ (∀ i, sigismember s.sigpend i = true → j ≤ i) ∧
          (handleSignal s).sigpend = sigdelset s.sigpend j)) := by
  obtain ⟨hdisj, hdef⟩ := hc
  rw [handleSignal, and_not_of_disjoint hdisj]
  split
  next h0 =>
    refine .inl ⟨fun i => ?_, rfl⟩
    rw [h0, sigismember, BitVec.getLsbD_zero, Bool.and_false]
  next =>
    split
    next hkill => exact .inr ⟨SIGKILL, hkill, rfl, rfl, .inl ⟨rfl, rfl, rfl⟩⟩
    next hkill =>
      have hkill' : sigismember s.sigpend SIGKILL = false := by simpa using hkill
      cases hf : firstSig s.sigpend with
      | none =>
        refine .inl ⟨fun i => ?_, rfl⟩
        by_contra hi
        obtain ⟨j, hj, -⟩ := exists_firstSig (by simpa using hi)
        rw [hf] at hj
        cases hj
      | some j =>
        have hd := hdef.resolve_left (by rw [hkill']; nofun) j hf
        obtain ⟨hpend, hlog, hsent⟩ := takeAction_spec (s := { s with sigpend := sigdelset s.sigpend j }) hd
        refine .inr ⟨j, firstSig_eq_some hf, hlog, hsent, .inr ⟨hkill', fun i hi => ?_, hpend⟩⟩
        obtain ⟨j', hj', hle⟩ := exists_firstSig hi
        rw [hf] at hj'
        cases hj'
        exact hle

/-- The accounts of the signals of a task. -/
structure Inv (s : Task) : Prop where
  exact : s.status = .run → ∀ i, acts s i + (if sigismember s.sigpend i then 1 else 0) = s.sent.count i
  once : ∀ i, acts s i ≤ s.sent.count i
  unblocked : ∀ x ∈ s.log, sigismember x.2 x.1 = false

theorem acts_append {j : Nat} {m : SigSet} (h : s'.log = s.log ++ [(j, m)]) (i : Nat) :
    acts s' i = acts s i + if j = i then 1 else 0 := by
  rw [acts, h, map_append, count_append, acts]
  simp [count_singleton]

namespace Inv

theorem of_same (h : Inv s) (hstat : s'.status = .run → s.status = .run) (hpend : s'.sigpend = s.sigpend)
    (hlog : s'.log = s.log) (hsent : s'.sent = s.sent) : Inv s' := by
  have hacts : ∀ i, acts s' i = acts s i := fun i => by rw [acts, hlog, acts]
  refine ⟨fun hr i => ?_, fun i => ?_, fun x hx => h.unblocked x (by rwa [← hlog])⟩
  · rw [hacts, hpend, hsent]
    exact h.exact (hstat hr) i
  · rw [hacts, hsent]
    exact h.once i

/-- A sent signal becomes pending; while it is, sending it again counts for nothing. -/
theorem kill (h : Inv s) (hrun : s.status = .run) (sig : Nat) : Inv (kill s sig) := by
  rw [Signal.kill]
  split
  next => exact h
  next hr =>
    have hcount : ∀ i, acts s i + (if sigismember (sigaddset s.sigpend sig) i then 1 else 0) =
        count i (if sigismember s.sigpend sig then s.sent else sig :: s.sent) := fun i => by
      rw [sigismember_sigaddset (by omega) (by omega)]
      have hi := h.exact hrun i
      by_cases hmem : sigismember s.sigpend sig = true
      · rw [if_pos hmem, ← hi]
        by_cases his : i = sig
        · simp [his, hmem]
        · simp [his]
      rw [if_neg hmem, count_cons, ← hi]
      by_cases his : i = sig
      · simp [his, hmem]
      · simp [his, Ne.symm his]
    exact ⟨fun _ i => hcount i, fun i => (Nat.le_add_right _ _).trans (hcount i).le, h.unblocked⟩

/-- A return keeps the counts: it acts on one signal at most. -/
theorem ret (h : Inv s) (hrun : s.status = .run) (hc : Clear s .ret) : Inv (handleSignal s) := by
  rcases handleSignal_spec hc with ⟨-, heq⟩ | ⟨j, hj, hlog, hsent, hrest⟩
  · rwa [heq]
  have hacts := acts_append hlog
  have hblock : sigismember s.sigmask j = false := by
    have hand := sigismember_and s.sigpend s.sigmask j
    rw [hc.1, hj, Bool.true_and, sigismember, BitVec.getLsbD_zero, Bool.and_false] at hand
    exact hand.symm
  have hlt : ∀ i, acts (handleSignal s) i ≤ s.sent.count i := fun i => by
    have hi := h.exact hrun i
    rw [hacts]
    by_cases hji : j = i
    · subst hji
      rw [hj] at hi
      simp at hi ⊢
      omega
    rw [if_neg hji]
    have := h.once i
    omega
  refine ⟨fun hr i => ?_, fun i => by rw [hsent]; exact hlt i, fun x hx => ?_⟩
  · rcases hrest with ⟨-, hstat, -⟩ | ⟨-, -, hpend⟩
    · rw [hstat] at hr
      cases hr
    obtain ⟨h0, h1⟩ := sigismember_range hj
    have hi := h.exact hrun i
    rw [hacts, hpend, hsent, sigismember_sigdelset h0 h1, ← hi]
    by_cases hji : j = i
    · subst hji
      simp [hj]
    · simp [hji, Ne.symm hji]
  · rw [hlog] at hx
    rcases mem_append.1 hx with hx | hx
    · exact h.unblocked x hx
    · rw [mem_singleton.1 hx]
      exact hblock

/-- One event keeps the counts. -/
theorem step (h : Inv s) {o : Event} (hc : Clear s o) (hs : step s o = some s') : Inv s' := by
  unfold Signal.step at hs
  split at hs
  next hrun =>
    cases o with
    | kill sig =>
      cases hs
      exact h.kill hrun sig
    | sigprocmask how set =>
      cases hs
      cases how <;> exact h.of_same id rfl rfl rfl
    | sigaction sig act =>
      cases hs
      rw [sigaction]
      split
      · exact h
      split
      · exact h
      · exact h.of_same id rfl rfl rfl
    | sigreturn signum sigprv mask =>
      cases hs
      rw [sigreturn]
      split
      · exact h.of_same (fun _ => hrun) rfl rfl rfl
      · exact h.of_same id rfl rfl rfl
    | ret =>
      cases hs
      exact h.ret hrun hc
    | start =>
      cases hs
      exact h
    | execve =>
      cases hs
      exact h.of_same id (Eq.symm hc) rfl rfl
  next =>
    cases hs
    exact h

end Inv

/-! ## Runs -/

theorem sigpend_kill (hi : sigismember s.sigpend i = true) (sig : Nat) : sigismember (kill s sig).sigpend i = true := by
  rw [kill]
  split
  next => exact hi
  next hr =>
    rw [sigismember_sigaddset (by omega) (by omega), hi, Bool.true_or]

theorem not_pending (h : s.sigpend = 0#64) : ¬ sigismember s.sigpend i = true := by
  rw [h, sigismember, BitVec.getLsbD_zero, Bool.and_false]
  nofun

/-- A pending signal stays so until it is acted on. -/
theorem pending_step {o : Event} (hc : Clear s o) (hs : step s o = some s') (hi : sigismember s.sigpend i = true) :
    sigismember s'.sigpend i = true ∨ s'.log = s.log ++ [(i, s.sigmask)] := by
  unfold step at hs
  split at hs
  next =>
    cases o with
    | kill sig =>
      cases hs
      exact .inl (sigpend_kill hi sig)
    | sigprocmask how set =>
      cases hs
      cases how <;> exact .inl hi
    | sigaction sig act =>
      cases hs
      rw [sigaction]
      split
      · exact .inl hi
      · split <;> exact .inl hi
    | sigreturn signum sigprv mask =>
      cases hs
      rw [sigreturn]
      split <;> exact .inl hi
    | ret =>
      cases hs
      rcases handleSignal_spec hc with ⟨hnone, -⟩ | ⟨j, hj, hlog, -, ⟨-, -, hpend⟩ | ⟨-, -, hpend⟩⟩
      · rw [hnone i] at hi
        cases hi
      · rw [hpend]
        exact .inl hi
      obtain ⟨h0, h1⟩ := sigismember_range hj
      by_cases hij : i = j
      · exact .inr (by rw [hlog, hij])
      · rw [hpend, sigismember_sigdelset h0 h1, hi]
        exact .inl (by simp [hij])
    | start =>
      cases hs
      exact .inl hi
    | execve => exact absurd hi (not_pending hc)
  next =>
    cases hs
    exact .inl hi

/-- **Pending signals**: in every state that is reached by a clear run, a running task has each signal that became
pending (or that it got with its mask from its parent) acted on once or still pending, no signal was acted on more
often, and none while it was blocked. In a further clear event a pending signal stays pending or is acted on; on the way
to user mode `SIGKILL` ends the task, and of several pending signals one is acted on. -/
theorem signals_acted (s₀ s : Task)
    (hsent : ∀ i, s₀.sent.count i = if sigismember s₀.sigpend i then 1 else 0) (hlog : s₀.log = []) (os : List Event)
    (hos : Meets step Clear s₀ os) (hr : run step s₀ os = some s) :
    (s.status = .run → ∀ i, acts s i + (if sigismember s.sigpend i then 1 else 0) = s.sent.count i) ∧
    (∀ i, acts s i ≤ s.sent.count i) ∧ (∀ x ∈ s.log, sigismember x.2 x.1 = false) ∧
    ∀ o s' i, Clear s o → s.status = .run → step s o = some s' → sigismember s.sigpend i = true →
      (sigismember s'.sigpend i = true ∨ s'.log = s.log ++ [(i, s.sigmask)]) ∧
      (i = SIGKILL → o.returns = true → s'.status = .exited SIGKILL) ∧
      (o = .ret → ∃ j, sigismember s.sigpend j = true ∧ s'.log = s.log ++ [(j, s.sigmask)] ∧
      (j = SIGKILL ∨ j ≤ i)) := by
  have h0 : Inv s₀ := by
    refine ⟨fun _ i => ?_, fun i => ?_, ?_⟩ <;> simp [acts, hlog, hsent]
  have h := run_meets_inv (fun _ _ _ hi hc hs => hi.step hc hs) h0 hos hr
  refine ⟨h.exact, h.once, h.unblocked, fun o s' i hc hrun hs hi => ⟨pending_step hc hs hi, ?_, ?_⟩⟩
  · rintro rfl hret
    cases o with
    | sigreturn signum sigprv mask =>
      rw [show sigismember s.sigpend SIGKILL = false from hc] at hi
      cases hi
    | start =>
      rw [show sigismember s.sigpend SIGKILL = false from hc] at hi
      cases hi
    | execve => exact absurd hi (not_pending hc)
    | ret =>
      unfold step at hs
      rw [if_pos hrun] at hs
      cases hs
      rcases handleSignal_spec hc with ⟨hnone, -⟩ | ⟨-, -, -, -, ⟨-, hstat, -⟩ | ⟨hnone, -, -⟩⟩
      · rw [hnone SIGKILL] at hi
        cases hi
      · exact hstat
      · rw [hnone] at hi
        cases hi
    | kill => cases hret
    | sigprocmask => cases hret
    | sigaction => cases hret
  · rintro rfl
    unfold step at hs
    rw [if_pos hrun] at hs
    cases hs
    rcases handleSignal_spec hc with ⟨hnone, -⟩ | ⟨j, hj, hl, -, ⟨hk, -, -⟩ | ⟨-, hle, -⟩⟩
    · rw [hnone i] at hi
      cases hi
    · exact ⟨j, hj, hl, .inl hk⟩
    · exact ⟨j, hj, hl, .inr (hle i hi)⟩

/-- A task after `task_reset_allsigs`. -/
def fresh : Task := ⟨0, 0, fun _ => ⟨.dfl, false, false, 0⟩, 0, .run, [], []⟩

/-- A child sets a handler for signal 10, which is blocked while it runs and sent again; `sigreturn`, the signal, and
then `SIGKILL`. -/
def history : List Event :=
  [.start, .sigaction 10 ⟨.user, false, false, 0⟩, .kill 10, .ret, .kill 17, .ret, .kill 10, .sigreturn 10 0 0, .ret,
  .kill SIGKILL]

theorem signals_acted_history : ∃ s s', run step fresh history = some s ∧ acts s 10 = 2 ∧ s.sent.count 10 = 2 ∧
    step s .ret = some s' ∧ s'.status = .exited SIGKILL := by
  obtain ⟨s, hr⟩ : ∃ s, run step fresh history = some s := ⟨_, rfl⟩
  have hval : (run step fresh history).map (fun s => (acts s 10, s.sent.count 10, s.status,
    sigismember s.sigpend SIGKILL)) =
      some (2, 2, .run, true) := by decide +kernel
  have hclear : ∀ s ∈ run step fresh history, Clear s .ret := by decide +kernel
  rw [hr] at hval
  obtain ⟨h1, h2, h3, h4⟩ : acts s 10 = 2 ∧ s.sent.count 10 = 2 ∧ s.status = .run ∧
    sigismember s.sigpend SIGKILL = true := by
    simpa using hval
  obtain ⟨s', hs'⟩ : ∃ s', step s .ret = some s' := ⟨handleSignal s, by unfold step; rw [if_pos h3]⟩
  have h := signals_acted fresh s (fun i => (if_neg (not_pending rfl)).symm) rfl history (by decide +kernel) hr
  exact ⟨s, s', hr, h1, h2, hs', (h.2.2.2 .ret s' SIGKILL (hclear s hr) h3 hs' h4).2.1 rfl rfl⟩

/-- Signal 10 is blocked, sent and unblocked again: it is neither pending nor was it acted on. A blocked `SIGKILL` does
not end the task. -/
theorem blocked_forgotten :
    (run step fresh [.sigprocmask .block (sigaddset 0 10), .kill 10, .ret,
    .sigprocmask .unblock (sigaddset 0 10), .ret]).map
        (fun s => (s.sent, sigismember s.sigpend 10, s.log, s.status)) = some ([10], false, [], .run) ∧
    (run step fresh [.sigprocmask .block (sigaddset 0 SIGKILL), .kill SIGKILL, .ret]).map
        (fun s => (s.sent, sigismember s.sigpend SIGKILL, s.status)) = some ([SIGKILL], false, .run) := by
  decide +kernel

end TextOS.Signal
