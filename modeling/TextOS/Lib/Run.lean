import Mathlib

/-!
# Runs of a partial step function

`step s o` performs the operation `o` in the state `s`; it is `none` when the operation does not return (a fault, a
failed assertion, a loop without exit).

- `run step s os` performs a list of operations (`run_cons`, `run_append`).
-/

namespace TextOS.Lib

open List Option

variable {σ ο : Type} {step : σ → ο → Option σ} {C : σ → ο → Prop} {I : σ → Prop}

/-- The state after the operations `os`, `none` as soon as one of them does not return. -/
def run (step : σ → ο → Option σ) : σ → List ο → Option σ
  | s, [] => some s
  | s, o :: os => (step s o).bind fun s' => run step s' os

/-- Every operation of the run from `s` meets `C` in the state it is performed in. -/
def Meets (step : σ → ο → Option σ) (C : σ → ο → Prop) : σ → List ο → Prop
  | _, [] => True
  | s, o :: os => C s o ∧ ∀ s' ∈ step s o, Meets step C s' os

instance decidableMeets {C : σ → ο → Prop} [∀ s o, Decidable (C s o)] :
    ∀ (os : List ο) (s : σ), Decidable (Meets step C s os)
  | [], _ => .isTrue trivial
  | o :: os, s =>
    have : DecidablePred fun s' => Meets step C s' os := decidableMeets os
    inferInstanceAs (Decidable (C s o ∧ ∀ s' ∈ step s o, Meets step C s' os))

@[simp] theorem run_nil (s : σ) : run step s [] = some s := rfl

theorem run_cons {s s' : σ} {o : ο} {os : List ο} :
    run step s (o :: os) = some s' ↔ ∃ t, step s o = some t ∧ run step t os = some s' := by
  simp only [run, bind_eq_some_iff]

theorem run_append (s : σ) (os os' : List ο) :
    run step s (os ++ os') = (run step s os).bind fun t => run step t os' := by
  induction os generalizing s with
  | nil => rfl
  | cons o os ih =>
    simp only [cons_append, run]
    cases step s o with
    | none => rfl
    | some t => exact ih t

/-- A condition on the operations alone is met along every run of operations that meet it. -/
theorem meets_of_forall_mem {C : ο → Prop} : ∀ {os : List ο} (s : σ), (∀ o ∈ os, C o) → Meets step (fun _ => C) s os
  | [], _, _ => trivial
  | o :: _, _, h => ⟨h o mem_cons_self, fun s' _ => meets_of_forall_mem s' fun o' ho' => h o' (mem_cons_of_mem o ho')⟩

/-- A condition may be replaced by one that follows from it for the operations of the run. -/
theorem Meets.imp {C D : σ → ο → Prop} : ∀ {os : List ο} {s : σ}, (∀ o ∈ os, ∀ s, C s o → D s o) → Meets step C s os →
    Meets step D s os
  | [], _, _, _ => trivial
  | o :: _, s, himp, h =>
    ⟨himp o mem_cons_self s h.1, fun s' hs => (h.2 s' hs).imp fun o' ho' => himp o' (mem_cons_of_mem o ho')⟩

theorem Meets.and {C D : σ → ο → Prop} : ∀ {os : List ο} {s : σ}, Meets step C s os → Meets step D s os →
    Meets step (fun s o => C s o ∧ D s o) s os
  | [], _, _, _ => trivial
  | _ :: _, _, hc, hd => ⟨⟨hc.1, hd.1⟩, fun s' hs => (hc.2 s' hs).and (hd.2 s' hs)⟩

/-- **Invariants of conditioned runs.** -/
theorem run_meets_inv (hstep : ∀ s o s', I s → C s o → step s o = some s' → I s') :
    ∀ {os : List ο} {s s' : σ}, I s → Meets step C s os → run step s os = some s' → I s'
  | [], s, s', hs, _, h => by
    simp only [run_nil, some.injEq] at h
    exact h ▸ hs
  | o :: os, s, s', hs, hm, h => by
    obtain ⟨t, ht, hr⟩ := run_cons.1 h
    exact run_meets_inv hstep (hstep s o t hs hm.1 ht) (hm.2 t ht) hr

/-- **Invariants of runs.** -/
theorem run_inv (hstep : ∀ s o s', I s → step s o = some s' → I s') {os : List ο} {s s' : σ}
    (hs : I s) (h : run step s os = some s') : I s' :=
  run_meets_inv (fun s o s' hi _ => hstep s o s' hi) hs (meets_of_forall_mem (C := fun _ => True) s
  fun _ _ => trivial) h

/-- **Simulation**: the run returns, and the specification `spec` is followed. -/
theorem run_meets_sim {τ : Type} {R : σ → τ → Prop} {spec : τ → ο → τ}
    (hstep : ∀ s t o, R s t → C s o → ∃ s', step s o = some s' ∧ R s' (spec t o)) :
    ∀ {os : List ο} {s : σ} {t : τ}, R s t → Meets step C s os → ∃ s', run step s os = some s' ∧ R s' (os.foldl spec t)
  | [], s, _, hr, _ => ⟨s, rfl, hr⟩
  | o :: os, s, t, hr, hm => by
    obtain ⟨u, hu, hru⟩ := hstep s t o hr hm.1
    obtain ⟨s', hs', hr'⟩ := run_meets_sim hstep hru (hm.2 u hu)
    exact ⟨s', run_cons.2 ⟨u, hu, hs'⟩, hr'⟩

/-- If every operation meeting `C` returns and keeps the invariant, then every run that meets `C` returns. -/
theorem run_meets_total (hstep : ∀ s o, I s → C s o → ∃ s', step s o = some s' ∧ I s') :
    ∀ {os : List ο} {s : σ}, I s → Meets step C s os → ∃ s', run step s os = some s' ∧ I s'
  | [], s, hs, _ => ⟨s, rfl, hs⟩
  | o :: os, s, hs, hm => by
    obtain ⟨t, ht, hi⟩ := hstep s o hs hm.1
    obtain ⟨s', hs', hi'⟩ := run_meets_total hstep hi (hm.2 t ht)
    exact ⟨s', run_cons.2 ⟨t, ht, hs'⟩, hi'⟩

/-- **Loops**: an invariant of the rounds of a counting loop. -/
theorem run_range_inv {step : σ → Nat → Option σ} {I : Nat → σ → Prop} (n : Nat)
    (hstep : ∀ i < n, ∀ s s', I i s → step s i = some s' → I (i + 1) s') {s s' : σ} (h0 : I 0 s)
    (hr : run step s (List.range n) = some s') : I n s' := by
  induction n generalizing s' with
  | zero => exact some.inj hr ▸ h0
  | succ n ih =>
    rw [range_succ, run_append] at hr
    obtain ⟨t, ht, hr⟩ := bind_eq_some_iff.1 hr
    obtain ⟨u, hu, hr⟩ := run_cons.1 hr
    obtain rfl := some.inj hr
    exact hstep n (Nat.lt_succ_self n) t u (ih (fun i hi => hstep i (hi.trans (Nat.lt_succ_self n))) ht) hu

theorem run_range_total {step : σ → Nat → Option σ} {I : Nat → σ → Prop} (n : Nat)
    (hstep : ∀ i < n, ∀ s, I i s → ∃ s', step s i = some s' ∧ I (i + 1) s') {s : σ} (h0 : I 0 s) :
    ∃ s', run step s (List.range n) = some s' ∧ I n s' := by
  induction n with
  | zero => exact ⟨s, rfl, h0⟩
  | succ n ih =>
    obtain ⟨t, ht, hi⟩ := ih fun i hi => hstep i (hi.trans (Nat.lt_succ_self n))
    obtain ⟨u, hu, hi'⟩ := hstep n (Nat.lt_succ_self n) t hi
    refine ⟨u, ?_, hi'⟩
    rw [range_succ, run_append, ht]
    exact run_cons.2 ⟨u, hu, rfl⟩

end TextOS.Lib
