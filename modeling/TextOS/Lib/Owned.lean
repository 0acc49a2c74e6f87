import Mathlib

/-!
# Owners of numbered things

`Owned own spare`: what each owner has is its own; nobody has it twice, no two share it, and nothing of it is `spare`.
An owner may take spare things (`Owned.grow`) and give up what it has (`Owned.drop`).
-/

namespace TextOS.Lib

open List Function

variable {ι κ : Type} {own : ι → List κ} {spare spare' : κ → Prop} {f f' : ι} {l new : List κ} {z : κ}

structure Owned (own : ι → List κ) (spare : κ → Prop) : Prop where
  nodup : ∀ f, (own f).Nodup
  apart : ∀ f f', f ≠ f' → (own f).Disjoint (own f')
  used : ∀ f, ∀ z ∈ own f, ¬spare z

theorem Owned.fresh (h : Owned own spare) (hnew : ∀ z ∈ new, spare z) (f : ι) (hz : z ∈ own f) : z ∉ new :=
  fun hm => h.used f z hz (hnew z hm)

/-- **An owner takes spare things.** -/
theorem Owned.grow [DecidableEq ι] (h : Owned own spare) (hnd : new.Nodup) (hnew : ∀ z ∈ new, spare z)
    (hl : l.Perm (own f ++ new)) (hspare : ∀ z, spare' z → spare z ∧ z ∉ new) : Owned (update own f l) spare' := by
  -- an owner's things are those from before and, for `f`, the new ones
  have hcases : ∀ e, ∀ z ∈ update own f l e, z ∈ own e ∨ (e = f ∧ z ∈ new) := fun e z hz => by
    by_cases he : e = f
    · subst he
      rw [update_self, hl.mem_iff] at hz
      exact (mem_append.1 hz).imp_right fun h => ⟨rfl, h⟩
    · rw [update_of_ne he] at hz
      exact .inl hz
  refine ⟨fun e => ?_, fun e e' hne z hz hz' => ?_, fun e z hz hs => ?_⟩
  · by_cases he : e = f
    · subst he
      rw [update_self, hl.nodup_iff, nodup_append]
      exact ⟨h.nodup e, hnd, fun z hz z' hz' he => h.fresh hnew e hz (he ▸ hz')⟩
    · rw [update_of_ne he]
      exact h.nodup e
  · rcases hcases e z hz with hz | ⟨he, hz⟩
    · rcases hcases e' z hz' with hz' | ⟨-, hz'⟩
      · exact h.apart e e' hne hz hz'
      · exact h.fresh hnew e hz hz'
    rcases hcases e' z hz' with hz' | ⟨he', -⟩
    · exact h.fresh hnew e' hz' hz
    · exact hne (he.trans he'.symm)
  rcases hcases e z hz with hz | ⟨-, hz⟩
  · exact h.used e z hz (hspare z hs).1
  · exact (hspare z hs).2 hz

theorem Owned.mono (h : Owned own spare) (hspare : ∀ z, spare' z → spare z) : Owned own spare' :=
  ⟨h.nodup, h.apart, fun f z hz hs => h.used f z hz (hspare z hs)⟩

/-- One owner gives up everything. -/
theorem Owned.drop [DecidableEq ι] (h : Owned own spare) (f : ι) : Owned (update own f []) spare := by
  have hsub : ∀ e, update own f [] e ⊆ own e := fun e => by
    by_cases he : e = f
    · subst he
      rw [update_self]
      exact nil_subset _
    · rw [update_of_ne he]
      exact List.Subset.refl _
  refine ⟨fun e => ?_, fun e e' hne z hz hz' => h.apart e e' hne (hsub e hz) (hsub e' hz'),
    fun e z hz => h.used e z (hsub e hz)⟩
  by_cases he : e = f
  · subst he
    rw [update_self]
    exact nodup_nil
  · rw [update_of_ne he]
    exact h.nodup e

end TextOS.Lib
