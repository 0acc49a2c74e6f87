import Mathlib.Data.List.Chain
import Mathlib.Data.List.Nodup
import Mathlib.Logic.Function.Basic

/-!
# Doubly linked rings

`IsRing L h l`: from the head `h` the pointers lead through the nodes `l` and back to `h`, in both directions, and no
node is met twice. A node is put behind the head (`IsRing.insertAfter`), and any node is taken out
(`IsRing.remove_mid`).
-/

namespace TextOS.Lib

open List Function

structure Links (ν : Type*) where
  next : ν → ν
  prev : ν → ν

variable {ν : Type*}

namespace Links

variable [DecidableEq ν]

/-- `x` is put behind `h`. -/
def insertAfter (L : Links ν) (h x : ν) : Links ν :=
  let next := update L.next x (L.next h)
  let prev := update L.prev (next x) x
  ⟨update next h x, update prev x h⟩

/-- The neighbours of `x` are linked; the pointers of `x` stay. -/
def remove (L : Links ν) (x : ν) : Links ν :=
  if L.prev x = x then L
  else
    let next := update L.next (L.prev x) (L.next x)
    ⟨next, update L.prev (next x) (L.prev x)⟩

end Links

def Joined (L : Links ν) (a b : ν) : Prop := L.next a = b ∧ L.prev b = a

structure IsRing (L : Links ν) (h : ν) (l : List ν) : Prop where
  nodup : (h :: l).Nodup
  chain : List.IsChain (Joined L) (h :: (l ++ [h]))

variable {L L' : Links ν} {h x : ν} {l : List ν}

theorem chain_congr : ∀ {x : ν} {l : List ν}, (∀ a ∈ (x :: l).dropLast, L'.next a = L.next a) →
    (∀ b ∈ l, L'.prev b = L.prev b) → List.IsChain (Joined L) (x :: l) → List.IsChain (Joined L') (x :: l)
  | _, [], _, _, _ => isChain_singleton _
  | x, y :: l, hn, hp, hc => by
    rw [isChain_cons_cons] at hc ⊢
    refine ⟨⟨?_, ?_⟩, chain_congr (fun a ha => hn a (mem_cons_of_mem x ha))
      (fun b hb => hp b (mem_cons_of_mem y hb)) hc.2⟩
    · rw [hn x mem_cons_self]
      exact hc.1.1
    · rw [hp y mem_cons_self]
      exact hc.1.2

theorem isRing_nil (hn : L.next h = h) (hp : L.prev h = h) :
    IsRing L h [] := ⟨nodup_singleton h, by simp [Joined, hn, hp]⟩

namespace IsRing

theorem next_head (hr : IsRing L h (x :: l)) : L.next h = x := by
  have hc := hr.chain
  rw [cons_append, isChain_cons_cons] at hc
  exact hc.1.1

theorem prev_eq_self_iff (hr : IsRing L h l) : L.prev h = h ↔ l = [] := by
  have hc := hr.chain
  rcases eq_nil_or_concat' l with rfl | ⟨l', z, rfl⟩
  · rw [nil_append, isChain_pair] at hc
    exact ⟨fun _ => rfl, fun _ => hc.2⟩
  rw [append_assoc, ← cons_append, singleton_append, isChain_append_cons_cons] at hc
  have hz : z ≠ h := fun he => (nodup_cons.1 hr.nodup).1 (by simp [he])
  rw [hc.2.1.2]
  simp [hz]

theorem tail_nodup (hr : IsRing L h l) : (l ++ [h]).Nodup := (perm_append_singleton h l).nodup_iff.2 hr.nodup

variable [DecidableEq ν] {l' : List ν}

/-- A new node behind the head. -/
theorem insertAfter (hr : IsRing L h l) (hx : x ∉ h :: l) : IsRing (L.insertAfter h x) h (x :: l) := by
  obtain ⟨y, r, hyr⟩ : ∃ y r, l ++ [h] = y :: r := exists_cons_of_ne_nil (by simp)
  have hc := hr.chain
  have hnd := hr.tail_nodup
  rw [hyr] at hc hnd
  rw [isChain_cons_cons] at hc
  obtain ⟨⟨hnext, -⟩, hc⟩ := hc
  have hxh : x ≠ h := fun he => hx (by simp [he])
  have hmem : ∀ b, b ∈ y :: r → b ≠ x := fun b hb he => hx (by
    rw [← hyr] at hb
    rw [← he]
    simpa [or_comm] using hb)
  have hyx := hmem y mem_cons_self
  refine ⟨?_, ?_⟩
  · rw [(List.Perm.swap x h l).nodup_iff, nodup_cons]
    exact ⟨hx, hr.nodup⟩
  rw [cons_append, hyr, isChain_cons_cons, isChain_cons_cons]
  refine ⟨⟨?_, ?_⟩, ⟨?_, ?_⟩, chain_congr (fun a ha => ?_) (fun b hb => ?_) hc⟩
  · exact update_self _ _ _
  · exact update_self _ _ _
  · simp only [Links.insertAfter]
    rw [update_of_ne hxh, update_self, hnext]
  · simp only [Links.insertAfter]
    rw [update_of_ne hyx, update_self, hnext, update_self]
  · rw [← hyr, dropLast_concat] at ha
    have hah : a ≠ h := fun he => (nodup_cons.1 hr.nodup).1 (by rwa [he] at ha)
    have hax : a ≠ x := fun he => hx (by rw [← he]; exact mem_cons_of_mem h ha)
    simp only [Links.insertAfter]
    rw [update_of_ne hah, update_of_ne hax]
  have hby : b ≠ y := fun he => (nodup_cons.1 hnd).1 (by rwa [he] at hb)
  simp only [Links.insertAfter]
  rw [update_of_ne (hmem b (mem_cons_of_mem y hb)), update_self, hnext, update_of_ne hby]

/-- Taking a node out relinks its neighbours. -/
theorem remove_eq (hr : IsRing L h (l ++ x :: l')) : ∃ p y, (h :: l).getLast? = some p ∧ (l' ++ [h]).head? = some y ∧
    L.prev x = p ∧ L.next p = x ∧ L.next x = y ∧ L.remove x = ⟨update L.next p y, update L.prev y p⟩ := by
  obtain ⟨y, r, hyr⟩ : ∃ y r, l' ++ [h] = y :: r := exists_cons_of_ne_nil (by simp)
  obtain ⟨p, hp⟩ : ∃ p, (h :: l).getLast? = some p := ⟨_, getLast?_eq_some_getLast (by simp)⟩
  have hc := hr.chain
  rw [append_assoc, cons_append, hyr, ← cons_append, isChain_append, isChain_cons_cons] at hc
  obtain ⟨-, ⟨⟨hnext, -⟩, -⟩, hjoin⟩ := hc
  obtain ⟨hpx, hxp⟩ := hjoin p hp x rfl
  have hne : p ≠ x := by
    rintro rfl
    have hnd : ((h :: l) ++ p :: l').Nodup := hr.nodup
    exact disjoint_of_nodup_append hnd (mem_of_getLast? hp) mem_cons_self
  refine ⟨p, y, hp, by rw [hyr]; rfl, hxp, hpx, hnext, ?_⟩
  rw [Links.remove, hxp, if_neg hne]
  simp only [update_of_ne hne.symm, hnext]

/-- **Any node can be taken out.** -/
theorem remove_mid (hr : IsRing L h (l ++ x :: l')) : IsRing (L.remove x) h (l ++ l') := by
  obtain ⟨p, y, hp, hy, -, -, -, heq⟩ := hr.remove_eq
  have hnd : ((h :: l) ++ x :: l').Nodup := hr.nodup
  obtain ⟨r, hyr⟩ : ∃ r, l' ++ [h] = y :: r := head?_eq_some_iff.1 hy
  have hc := hr.chain
  rw [append_assoc, cons_append, hyr, ← cons_append, isChain_append, isChain_cons_cons] at hc
  obtain ⟨hc1, ⟨-, hc2⟩, -⟩ := hc
  have hpmem := mem_of_getLast? hp
  have hnd1 := (nodup_append.1 hnd).1
  have hnd2 : (l' ++ [h]).Nodup := by
    rw [(perm_append_singleton h l').nodup_iff]
    exact hnd.sublist (((sublist_cons_self x l').trans (sublist_append_right l _)).cons_cons h)
  have hlast : h :: l = (h :: l).dropLast ++ [p] := (dropLast_append_getLast? p hp).symm
  refine ⟨hnd.sublist ((sublist_cons_self x l').append_left (h :: l)), ?_⟩
  rw [append_assoc, hyr, ← cons_append, isChain_append, heq]
  refine ⟨chain_congr (fun a ha => ?_) (fun b hb => ?_) hc1, chain_congr (fun a ha => ?_) (fun b hb => ?_) hc2, ?_⟩
  · refine update_of_ne (fun he => ?_) _ _
    rw [hlast] at hnd1
    exact disjoint_of_nodup_append hnd1 ha (by simp [he])
  · refine update_of_ne (fun he => ?_) _ _
    have hymem : y ∈ l' ++ [h] := by rw [hyr]; exact mem_cons_self
    rw [he] at hb
    rcases mem_append.1 hymem with hy' | hy'
    · exact disjoint_of_nodup_append hnd (mem_cons_of_mem h hb) (mem_cons_of_mem x hy')
    · exact (nodup_cons.1 hnd1).1 (mem_singleton.1 hy' ▸ hb)
  · refine update_of_ne (fun he => ?_) _ _
    rw [← hyr, dropLast_concat] at ha
    exact disjoint_of_nodup_append hnd hpmem (mem_cons_of_mem x (he ▸ ha))
  · rw [hyr] at hnd2
    exact update_of_ne (fun he => (nodup_cons.1 hnd2).1 (by rwa [he] at hb)) _ _
  intro a ha b hb
  rw [hp] at ha
  cases ha
  cases hb
  exact ⟨update_self _ _ _, update_self _ _ _⟩

theorem remove (hr : IsRing L h (x :: l)) : IsRing (L.remove x) h l := remove_mid (l := []) hr

end IsRing

end TextOS.Lib
