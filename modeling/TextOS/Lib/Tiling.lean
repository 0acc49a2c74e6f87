import Mathlib

/-!
# Tilings of an address range by sized tiles

A list of tiles is laid out from an address on, each tile right behind the one before it.

- `total size ts` is the length of the layout, `Sits size a ts x t` says that `t` lies at `x` when `ts` starts at `a`;
- tilings split along `++` (`tiles_append`, `sits_append`) and carry over to a predicate that agrees on the tiles
  (`Tiles.transport`).
-/

namespace TextOS.Lib

variable {τ : Type} {size : τ → Nat} {P Q : Nat → τ → Prop} {a e x y : Nat} {t u : τ} {ts : List τ}

def total (size : τ → Nat) (ts : List τ) : Nat := (ts.map size).sum

/-- The tile `t` lies at `x` when the list starts at `a`. -/
def Sits (size : τ → Nat) : Nat → List τ → Nat → τ → Prop
  | _, [], _, _ => False
  | a, u :: ts, x, t => (x = a ∧ t = u) ∨ Sits size (a + size u) ts x t

/-- The tiles fill `[a, e)` and satisfy `P` where they lie. -/
def Tiles (size : τ → Nat) (P : Nat → τ → Prop) : Nat → List τ → Nat → Prop
  | a, [], e => a = e
  | a, t :: ts, e => P a t ∧ Tiles size P (a + size t) ts e

@[simp] theorem total_nil : total size [] = 0 := rfl

@[simp] theorem total_cons : total size (t :: ts) = size t + total size ts := by simp [total]

@[simp] theorem total_append (ts us : List τ) : total size (ts ++ us) = total size ts + total size us := by simp [total]

@[simp] theorem tiles_nil : Tiles size P a [] e ↔ a = e := Iff.rfl

@[simp] theorem tiles_cons : Tiles size P a (t :: ts) e ↔ P a t ∧ Tiles size P (a + size t) ts e := Iff.rfl

@[simp] theorem sits_nil : ¬ Sits size a [] x t := id

@[simp] theorem sits_cons : Sits size a (u :: ts) x t ↔ (x = a ∧ t = u) ∨ Sits size (a + size u) ts x t := Iff.rfl

theorem Tiles.end_eq (h : Tiles size P a ts e) : e = a + total size ts := by
  induction ts generalizing a with
  | nil => simpa using h.symm
  | cons t ts ih =>
    have he := ih h.2
    simp only [total_cons]
    omega

theorem tiles_append (ts us : List τ) : Tiles size P a (ts ++ us) e ↔
    Tiles size P a ts (a + total size ts) ∧ Tiles size P (a + total size ts) us e := by
  induction ts generalizing a with
  | nil => simp
  | cons t ts ih => simp only [List.cons_append, tiles_cons, total_cons, ih, ← Nat.add_assoc, and_assoc]

theorem sits_append (ts us : List τ) : Sits size a (ts ++ us) x t ↔
    Sits size a ts x t ∨ Sits size (a + total size ts) us x t := by
  induction ts generalizing a with
  | nil => simp
  | cons u ts ih => simp only [List.cons_append, sits_cons, total_cons, ih, ← Nat.add_assoc, or_assoc]

theorem Sits.split (h : Sits size a ts x t) : ∃ pre suf, ts = pre ++ t :: suf ∧ x = a + total size pre := by
  induction ts generalizing a with
  | nil => exact h.elim
  | cons u ts ih =>
    rcases h with ⟨rfl, rfl⟩ | h
    · exact ⟨[], ts, rfl, rfl⟩
    · obtain ⟨pre, suf, rfl, hx⟩ := ih h
      exact ⟨u :: pre, suf, rfl, by simp only [total_cons]; omega⟩

theorem Tiles.at_sits (h : Tiles size P a ts e) (hs : Sits size a ts x t) : P x t ∧ a ≤ x ∧ x + size t ≤ e := by
  obtain ⟨pre, suf, rfl, rfl⟩ := hs.split
  have he := h.end_eq
  simp only [tiles_append, tiles_cons, total_append, total_cons] at h he
  exact ⟨h.2.1, by omega, by omega⟩

theorem Tiles.transport (h : Tiles size P a ts e) (hQ : ∀ x t, a ≤ x → x + size t ≤ e → P x t → Q x t) :
    Tiles size Q a ts e := by
  induction ts generalizing a with
  | nil => exact h
  | cons t ts ih =>
    have he := h.2.end_eq
    exact ⟨hQ a t le_rfl (by omega) h.1, ih h.2 fun x u hx => hQ x u (by omega)⟩

theorem Tiles.dvd_total {k : Nat} (hP : ∀ x t, P x t → k ∣ size t) (h : Tiles size P a ts e) : k ∣ total size ts := by
  induction ts generalizing a with
  | nil => exact dvd_zero k
  | cons t ts ih => exact dvd_add (hP a t h.1) (ih h.2)

/-- **Two tiles of a list lie apart or are the same.** -/
theorem Tiles.apart (h : Tiles size P a ts e) (ht : Sits size a ts x t) (hu : Sits size a ts y u) :
    (x = y ∧ t = u) ∨ x + size t ≤ y ∨ y + size u ≤ x := by
  induction ts generalizing a with
  | nil => exact ht.elim
  | cons v ts ih =>
    rcases ht with ⟨rfl, rfl⟩ | ht
    · rcases hu with ⟨rfl, rfl⟩ | hu
      · exact .inl ⟨rfl, rfl⟩
      · exact .inr (.inl (h.2.at_sits hu).2.1)
    rcases hu with ⟨rfl, rfl⟩ | hu
    · exact .inr (.inr (h.2.at_sits ht).2.1)
    · exact ih h.2 ht hu

end TextOS.Lib
