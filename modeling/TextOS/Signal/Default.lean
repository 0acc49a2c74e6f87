import TextOS.Signal.Pending

/-!
# Default actions of signals: `kernel/signal.c`

`sig_def` has 32 entries, of which those of `SIGKILL`, `SIGSTKFLT` and `SIGSTOP` (and entry 0) are null, and signals up
to 63 can be sent.

- **over every run that is backed `sig_def` is indexed inside its bounds and no null entry is called**
  (`default_called`); `default_fault` shows the signals that need it.
-/

namespace TextOS.Signal

open Lib Function

/-- The number of the entries of `sig_def`; the last is that of `SIGSYS`. -/
def sigDefLen : Nat := 32

/-- The signal whose default action `__handle_signal` takes, if there is one: `SIGKILL` ends the task before. -/
def defaultOf (s : Task) : Option Nat :=
  let pend := s.sigpend &&& ~~~s.sigmask
  if sigismember pend SIGKILL then none else (firstSig pend).filter fun i => (s.sigacts i).handler = .dfl

variable {s s' : Task} {i : Nat}

theorem sigDef_lt (h : (sigDef i).isSome = true) : i < sigDefLen := by
  by_contra hi
  rw [sigDefLen, not_lt] at hi
  obtain ⟨k, rfl⟩ := Nat.exists_eq_add_of_le hi
  rw [Nat.add_comm] at h
  simp [sigDef] at h

/-- A running task faults in `__handle_signal` where the default action it is about to take does not exist. -/
theorem handleSignal_fault (hrun : s.status = .run) (h : (handleSignal s).status = .fault) :
    ∃ i ∈ defaultOf s, sigDef i = none := by
  unfold handleSignal at h
  rw [defaultOf]
  dsimp only at h ⊢
  split at h
  · rw [hrun] at h
    cases h
  split at h
  · cases h
  next hkill =>
    rw [if_neg hkill]
    cases hf : firstSig (s.sigpend &&& ~~~s.sigmask) with
    | none =>
      rw [hf, show _ = Status.run from hrun] at h
      cases h
    | some i =>
      rw [hf] at h
      unfold takeAction at h
      dsimp only at h
      cases hh : (s.sigacts i).handler with
      | ign | user =>
        rw [hh, show _ = Status.run from hrun] at h
        cases h
      | dfl =>
        refine ⟨i, by simp [hh], ?_⟩
        rw [hh] at h
        rcases hd : sigDef i with _ | d
        · rfl
        · rw [hd] at h
          cases d <;> simp [hrun] at h

/-! ## Signals with an entry -/

/-- A signal without an entry in `sig_def` is sent only where it has a handler or is ignored, and gets the default
action back only while it is not pending. -/
def Backed (s : Task) : Event → Prop
  | .kill sig => sig = 0 ∨ NSIG ≤ sig ∨ sig = SIGKILL ∨ (sigDef sig).isSome = true ∨ (s.sigacts sig).handler ≠ .dfl
  | .sigaction sig act => act.handler = .dfl → (sigDef sig).isSome = true ∨ sigismember s.sigpend sig = false
  | _ => True

instance (s : Task) (o : Event) : Decidable (Backed s o) := by
  unfold Backed
  split <;> infer_instance

/-- Every pending signal other than `SIGKILL` has something to be done about it. -/
def Covered (s : Task) : Prop :=
  ∀ i, sigismember s.sigpend i = true → i ≠ SIGKILL → (s.sigacts i).handler = .dfl → (sigDef i).isSome = true

namespace Covered

theorem mono (h : Covered s) (hpend : ∀ i, sigismember s'.sigpend i = true → sigismember s.sigpend i = true)
    (hacts : s'.sigacts = s.sigacts) : Covered s' := by
  intro i hi hk hh
  rw [hacts] at hh
  exact h i (hpend i hi) hk hh

/-- A signal that is backed keeps the pending ones covered. -/
theorem kill {sig : Nat} (h : Covered s) (hb : Backed s (.kill sig)) : Covered (kill s sig) := by
  rw [Signal.kill]
  split
  next => exact h
  next hr =>
    rw [not_or] at hr
    intro i hi hk hh
    rw [sigismember_sigaddset (by omega) (by omega), Bool.or_eq_true, decide_eq_true_eq] at hi
    rcases hi with hi | rfl
    · exact h i hi hk hh
    rcases hb with h0 | h1 | h2 | h3 | h4
    · exact absurd h0 hr.2
    · exact absurd h1 hr.1
    · exact absurd h2 hk
    · exact h3
    · exact absurd hh h4

/-- A new action keeps the pending signals covered. -/
theorem sigaction {sig : Nat} {act : Action} (h : Covered s) (hb : Backed s (.sigaction sig act)) :
    Covered (sigaction s sig act) := by
  rw [Signal.sigaction]
  split
  · exact h
  split
  · exact h
  intro i hi hk hh
  dsimp only at hi hh
  by_cases his : i = sig
  · subst his
    rw [update_self] at hh
    refine (hb hh).resolve_right fun hn => ?_
    rw [hi] at hn
    cases hn
  · rw [update_of_ne his] at hh
    exact h i hi hk hh

theorem enter (h : Covered s) (act : Action) (hi : sigismember s.sigpend i = false) : Covered (enter s i act) := by
  intro j hj hk hh
  have hji : j ≠ i := by
    rintro rfl
    rw [show sigismember s.sigpend j = true from hj] at hi
    cases hi
  have hacts : (Signal.enter s i act).sigacts j = s.sigacts j := by
    unfold Signal.enter
    dsimp only
    split
    · rw [update_of_ne hji]
    · rfl
  rw [hacts] at hh
  exact h j hj hk hh

theorem takeAction (h : Covered s) (hi : sigismember s.sigpend i = false) : Covered (takeAction s i) := by
  unfold Signal.takeAction
  split
  · exact h
  · split
    · exact h
    · exact h
    · exact h
    · exact h
  · exact Covered.enter (s := { s with log := s.log ++ [(i, s.sigmask)] }) h _ hi

/-- Handling one signal keeps the others covered. -/
theorem handleSignal (h : Covered s) : Covered (handleSignal s) := by
  have hand : ∀ i, sigismember (s.sigpend &&& ~~~s.sigmask) i = true → sigismember s.sigpend i = true := by
    intro i hi
    rw [sigismember_and, Bool.and_eq_true] at hi
    exact hi.1
  unfold Signal.handleSignal
  dsimp only
  split
  · exact h.mono hand rfl
  split
  · exact h.mono hand rfl
  split
  · exact h.mono hand rfl
  next i hf =>
    obtain ⟨h0, h1⟩ := sigismember_range (firstSig_eq_some hf)
    apply takeAction
    · refine h.mono (fun j hj => hand j ?_) rfl
      rw [show _ = sigdelset _ i from rfl, sigismember_sigdelset h0 h1, Bool.and_eq_true] at hj
      exact hj.1
    · simp [sigismember_sigdelset h0 h1]

theorem defaultOf (h : Covered s) (hi : i ∈ defaultOf s) : (sigDef i).isSome = true := by
  unfold Signal.defaultOf at hi
  dsimp only at hi
  split at hi
  · cases hi
  next hkill =>
    obtain ⟨hf, hh⟩ := Option.filter_eq_some_iff.1 hi
    have hm := firstSig_eq_some hf
    rw [sigismember_and, Bool.and_eq_true] at hm
    refine h i hm.1 ?_ (of_decide_eq_true hh)
    rintro rfl
    exact hkill (firstSig_eq_some hf)

/-- One event keeps the pending signals covered. -/
theorem step (h : Covered s) {o : Event} (hb : Backed s o) (hs : step s o = some s') : Covered s' := by
  unfold Signal.step at hs
  split at hs
  next =>
    cases o with
    | kill sig =>
      cases hs
      exact h.kill hb
    | sigprocmask how set =>
      cases hs
      cases how <;> exact h
    | sigaction sig act =>
      cases hs
      exact h.sigaction hb
    | sigreturn signum sigprv mask =>
      cases hs
      rw [sigreturn]
      split <;> exact h
    | ret =>
      cases hs
      exact h.handleSignal
    | start =>
      cases hs
      exact h
    | execve =>
      cases hs
      exact fun i hi => absurd hi (not_pending rfl)
  next =>
    cases hs
    exact h

end Covered

/-- Only `__handle_signal` can fault, and it does not where every pending signal is covered. -/
theorem step_not_fault (h : Covered s) {o : Event} (hf : s.status ≠ .fault) (hs : step s o = some s') :
    s'.status ≠ .fault := by
  unfold step at hs
  split at hs
  next hrun =>
    cases o with
    | kill sig =>
      cases hs
      rw [kill]
      split <;> exact hf
    | sigprocmask how set =>
      cases hs
      cases how <;> exact hf
    | sigaction sig act =>
      cases hs
      rw [sigaction]
      split
      · exact hf
      · split <;> exact hf
    | sigreturn signum sigprv mask =>
      cases hs
      rw [sigreturn]
      split
      · simp
      · exact hf
    | ret =>
      cases hs
      intro hfault
      obtain ⟨i, hi, hnone⟩ := handleSignal_fault hrun hfault
      have := h.defaultOf hi
      rw [hnone] at this
      cases this
    | start =>
      cases hs
      exact hf
    | execve =>
      cases hs
      exact hf
  next =>
    cases hs
    exact hf

/-! ## Runs -/

/-- **Default actions**: from a running task without pending signals, in every state that is reached by a backed run no
null pointer was called, and the default action that `__handle_signal` would take has an index inside `sig_def` and is
not null. -/
theorem default_called (s₀ s : Task) (hpend : s₀.sigpend = 0#64) (hrun : s₀.status = .run) (os : List Event)
    (hos : Meets step Backed s₀ os) (hr : run step s₀ os = some s) :
    s.status ≠ .fault ∧ ∀ i ∈ defaultOf s, i < sigDefLen ∧ (sigDef i).isSome = true := by
  have h0 : Covered s₀ := by
    intro i hi
    rw [hpend, sigismember, BitVec.getLsbD_zero, Bool.and_false] at hi
    cases hi
  have hnf : s₀.status ≠ .fault := by
    rw [hrun]
    simp
  obtain ⟨h, hf⟩ := run_meets_inv (I := fun s => Covered s ∧ s.status ≠ .fault)
    (fun _ _ _ hi hb hs => ⟨hi.1.step hb hs, step_not_fault hi.1 hi.2 hs⟩) ⟨h0, hnf⟩ hos hr
  exact ⟨hf, fun i hi => ⟨sigDef_lt (h.defaultOf hi), h.defaultOf hi⟩⟩

/-- Signal 40 with a handler that is reset when it is entered, then signals with and without a default action that ends
the task, and a stop. -/
def answered : List Event :=
  [.sigaction 40 ⟨.user, false, true, 0⟩, .kill 40, .ret, .kill 20, .kill 17, .ret, .kill SIGKILL, .kill 15]

theorem default_called_answered : ∃ s, run step fresh answered = some s ∧ s.status ≠ .fault ∧
    ∀ i ∈ defaultOf s, i < sigDefLen ∧ (sigDef i).isSome = true := by
  obtain ⟨s, hr⟩ : ∃ s, run step fresh answered = some s := ⟨_, rfl⟩
  exact ⟨s, hr, default_called fresh s rfl rfl answered (by decide +kernel) hr⟩

/-- `SIGSTKFLT` and `SIGSTOP` have a null entry (`SIGSTOP` is still pending when `SIGCONT` lets the task run again), and
the entry of signal 40 lies outside the table. -/
theorem default_fault :
    (run step fresh [.kill 16]).bind defaultOf = some 16 ∧ (run step fresh [.kill 16, .ret]).map
    Task.status = some .fault ∧ (run step fresh [.kill SIGSTOP, .kill 18, .ret]).bind defaultOf = some SIGSTOP ∧
    (run step fresh [.kill SIGSTOP, .kill 18, .ret, .ret]).map Task.status = some .fault ∧
    (run step fresh [.kill 40]).bind defaultOf = some 40 ∧ sigDefLen ≤ 40 := by
  decide +kernel

end TextOS.Signal
