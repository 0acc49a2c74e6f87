import Mathlib

/-!
# Linked lists in a table

`Linked next stop l`: each element of `l` points to the next one, and the last one to a value that stops. The table
`next` may hold many such lists.

- following the pointers follows the list (`Linked.follow`, `Linked.iterate`);
- a list depends on its own entries only (`Linked.congr`) and may get one more element (`Linked.concat`).
-/

namespace TextOS.Lib

open List Option

variable {κ : Type} {next next' : κ → κ} {stop : κ → Prop} {l : List κ} {c d e : κ} {i k : Nat}

structure Linked (next : κ → κ) (stop : κ → Prop) (l : List κ) : Prop where
  chain : l.IsChain fun c d => next c = d
  last : ∀ c ∈ l.getLast?, stop (next c)

theorem linked_nil (next : κ → κ) (stop : κ → Prop) : Linked next stop [] := ⟨isChain_nil, nofun⟩

theorem linked_singleton (h : stop (next c)) : Linked next stop [c] := by
  refine ⟨isChain_singleton c, fun d hd => ?_⟩
  rwa [← some.inj hd]

theorem linked_cons_cons : Linked next stop (c :: d :: l) ↔ next c = d ∧ Linked next stop (d :: l) := by
  constructor
  · intro h
    exact ⟨(isChain_cons_cons.1 h.chain).1, (isChain_cons_cons.1 h.chain).2, by simpa using h.last⟩
  · rintro ⟨hc, h⟩
    exact ⟨isChain_cons_cons.2 ⟨hc, h.chain⟩, by simpa using h.last⟩

theorem Linked.congr (h : Linked next stop l) (hn : ∀ c ∈ l, next' c = next c) : Linked next' stop l := by
  refine ⟨h.chain.imp_of_mem_imp fun c d hc _ hcd => (hn c hc).trans hcd, fun c hc => ?_⟩
  rw [hn c (mem_of_getLast? hc)]
  exact h.last c hc

theorem Linked.follow (h : Linked next stop l) (hi : l[i]? = some c) :
    l[i + 1]? = some (next c) ∨ (l.length = i + 1 ∧ stop (next c)) := by
  obtain ⟨hlt, rfl⟩ := List.getElem?_eq_some_iff.1 hi
  by_cases hn : i + 1 < l.length
  · left
    rw [getElem?_eq_getElem hn, isChain_iff_getElem.1 h.chain i hn]
  right
  refine ⟨by omega, h.last _ ?_⟩
  rw [getLast?_eq_getElem?, show l.length - 1 = i by omega, mem_def, hi]

theorem Linked.iterate (h : Linked next stop l) (hi : l[i]? = some c) (hk : l[i + k]? = some d) : next^[k] c = d := by
  induction k generalizing i c with
  | zero => exact some.inj (hi.symm.trans hk)
  | succ k ih =>
    have hlt := (List.getElem?_eq_some_iff.1 hk).1
    rcases h.follow hi with hn | ⟨hl, -⟩
    · exact ih hn (by rwa [Nat.add_right_comm])
    · omega

theorem Linked.mark (h : Linked next stop (l ++ [e])) (hl : ∀ c ∈ l, next' c = next c) (he : stop (next' e)) :
    Linked next' stop (l ++ [e]) := by
  refine ⟨?_, fun c hc => ?_⟩
  · have hle := isChain_append.1 h.chain
    refine isChain_append.2 ⟨hle.1.imp_of_mem_imp fun c d hc _ hcd => (hl c hc).trans hcd, isChain_singleton e,
      fun x hx y hy => ?_⟩
    rw [hl x (mem_of_getLast? hx)]
    exact hle.2.2 x hx y hy
  · rw [getLast?_concat, mem_some_iff] at hc
    rwa [← hc]

theorem Linked.concat (h : Linked next stop (l ++ [e])) (hl : ∀ c ∈ l, next' c = next c) (he : next' e = d)
    (hd : stop (next' d)) : Linked next' stop (l ++ [e] ++ [d]) := by
  refine ⟨?_, fun c hc => ?_⟩
  · have hle := isChain_append.1 h.chain
    rw [append_assoc, singleton_append, isChain_append]
    refine ⟨hle.1.imp_of_mem_imp fun c d hc _ hcd => (hl c hc).trans hcd,
      isChain_cons_cons.2 ⟨he, isChain_singleton d⟩, fun x hx y hy => ?_⟩
    rw [hl x (mem_of_getLast? hx)]
    exact hle.2.2 x hx y (by simpa using hy)
  · rw [getLast?_concat, mem_some_iff] at hc
    rwa [← hc]

end TextOS.Lib
