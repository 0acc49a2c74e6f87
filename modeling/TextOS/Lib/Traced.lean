import Mathlib

/-!
# Programs with a trace

A `Traced` program changes a state and leaves a trace of events: accesses, checks, whatever has to be looked at one by
one. `wp P x post s` says that in the state `s` every event of `x` is as `P` says, and that it ends with a result and a
state as `post` says; `wp_pure`, `wp_bind` and `wp_event` are its rules.
-/

namespace TextOS.Lib

/-- The result, the new state and the events. -/
def Traced (σ ε α : Type) := σ → α × σ × List ε

namespace Traced

variable {σ ε α β : Type}

instance : Monad (Traced σ ε) where
  pure a := fun s => (a, s, [])
  bind x f := fun s =>
    let r := x s
    let r' := f r.1 r.2.1
    (r'.1, r'.2.1, r.2.2 ++ r'.2.2)

/-- One event, and what it does to the state. -/
def event (e : σ → ε) (f : σ → α × σ) : Traced σ ε α := fun s => ((f s).1, (f s).2, [e s])

/-- The state, without an event. -/
def state : Traced σ ε σ := fun s => (s, s, [])

/-- The events from the state `s`. -/
def trace (x : Traced σ ε α) (s : σ) : List ε := (x s).2.2

/-- Every event is as `P` says, the result and the state are as `post` says. -/
def wp (P : ε → Prop) (x : Traced σ ε α) (post : α → σ → Prop) (s : σ) : Prop :=
  (∀ e ∈ x.trace s, P e) ∧ post (x s).1 (x s).2.1

variable {P : ε → Prop} {post post' : α → σ → Prop} {s : σ}

@[simp] theorem wp_pure (a : α) : wp P (pure a : Traced σ ε α) post s ↔ post a s := by simp [wp, trace, Pure.pure]

@[simp] theorem wp_bind (x : Traced σ ε α) (f : α → Traced σ ε β) (post : β → σ → Prop) :
    wp P (x >>= f) post s ↔ wp P x (fun a s' => wp P (f a) post s') s := by
  have htr : (x >>= f).trace s = x.trace s ++ (f (x s).1).trace (x s).2.1 := rfl
  constructor
  · rintro ⟨he, hp⟩
    exact ⟨fun e h => he e (List.mem_append_left _ h), fun e h => he e (List.mem_append_right _ h), hp⟩
  rintro ⟨he, he', hp⟩
  refine ⟨fun e h => ?_, hp⟩
  exact (List.mem_append.1 h).elim (he e) (he' e)

@[simp] theorem wp_event (e : σ → ε) (f : σ → α × σ) : wp P (event e f) post s ↔ P (e s) ∧ post (f s).1 (f s).2 := by
  simp [wp, trace, event]

@[simp] theorem wp_state (post : σ → σ → Prop) : wp P (state : Traced σ ε σ) post s ↔ post s s := by
  simp [wp, trace, state]

end Traced

end TextOS.Lib
