import TextOS.Pmm.Run

/-!
# Adjacent zones and the empty list

`Coalesced`: no zone of the free list ends where another one starts, so that a run of free pages lies in one zone
(`Coalesced.run_in_zone`).
-/

namespace TextOS.Pmm

open Lib List Option

/-- No zone ends where another one starts. -/
def Coalesced (l : List Zone) : Prop := ∀ z ∈ l, ∀ z' ∈ l, z.stop ≠ z'.addr

variable {l l' pre rest : List Zone} {z x n : Zone} {page stop num : Nat}

theorem Coalesced.sublist (h : Coalesced l) (hs : l'.Sublist l) : Coalesced l' :=
  fun z hz z' hz' => h z (hs.mem hz) z' (hs.mem hz')

theorem Coalesced.insert (h : Coalesced (pre ++ rest)) (hx : x.addr < x.stop)
    (ht : ∀ z ∈ pre ++ rest, z.stop ≠ x.addr ∧ x.stop ≠ z.addr) : Coalesced (pre ++ x :: rest) := by
  intro z hz z' hz'
  rw [mem_append, mem_cons, or_left_comm, ← mem_append] at hz hz'
  rcases hz with rfl | hz
  · rcases hz' with rfl | hz'
    · exact hx.ne'
    · exact (ht z' hz').2
  rcases hz' with rfl | hz'
  · exact (ht z hz).1
  · exact h z hz z' hz'

theorem Coalesced.erase (h : Coalesced (pre ++ n :: rest)) : Coalesced (pre ++ rest) :=
  h.sublist ((sublist_cons_self n rest).append_left pre)

theorem ZonesOk.apart_mem (h : ZonesOk (pre ++ n :: rest)) (hz : z ∈ pre ++ rest) :
    z.addr < z.stop ∧ (z.stop ≤ n.addr ∨ n.stop ≤ z.addr) := by
  obtain ⟨-, hp, hpn⟩ := pairwise_append.1 h.1.2
  have hmem : z ∈ pre ++ n :: rest := ((sublist_cons_self n rest).append_left pre).mem hz
  refine ⟨h.1.1 z hmem, ?_⟩
  rcases mem_append.1 hz with hz | hz
  · exact Or.inl (hpn z hz n mem_cons_self)
  · exact Or.inr ((pairwise_cons.1 hp).1 z hz)

theorem ZonesOk.mid (h : ZonesOk (pre ++ n :: rest)) : n.addr < n.stop ∧ n.stop < 2 ^ 64 :=
  ⟨h.1.1 n (by simp), h.2 n (by simp)⟩

theorem Coalesced.run_in_zone (h : Coalesced l) (hok : ZonesOk l) (h1 : 1 ≤ num) {a : Nat}
    (ha : pageRange a num ⊆ freeSet l) : ∃ z ∈ l, num ≤ z.pages := by
  obtain ⟨z, hz, hza, haz⟩ := hok.1.subset_one h (show a < a + 4096 * num by omega) ha
  refine ⟨z, hz, ?_⟩
  unfold Zone.stop at haz
  omega

/-! ## Which zone a call works on -/

/-- What is left of the zone `n` when its first `num` pages are taken. -/
def leftover (n : Zone) (num : Nat) : List Zone :=
  if n.pages - num = 0 then [] else [⟨n.pages - num, u64 (n.addr + 4096 * num)⟩]

/-- `pmm_allocpages` takes the front of the first zone that is large enough. -/
theorem allocLoop_split (num : Nat) (hl : l ≠ []) : (allocLoop num l = some (0, l) ∧ ∀ z ∈ l, z.pages < num) ∨
    ∃ pre n rest, l = pre ++ n :: rest ∧ num ≤ n.pages ∧
      allocLoop num l = some (n.addr, pre ++ (leftover n num ++ rest)) := by
  induction l with
  | nil => exact absurd rfl hl
  | cons n rest ih =>
    by_cases hfit : num ≤ n.pages
    · refine Or.inr ⟨[], n, rest, rfl, hfit, ?_⟩
      unfold allocLoop leftover
      rw [if_pos hfit]
      split <;> rfl
    unfold allocLoop
    rw [if_neg hfit]
    cases rest with
    | nil => exact Or.inl ⟨rfl, by simpa using hfit⟩
    | cons m rest =>
      rcases ih (by simp) with ⟨hr, hall⟩ | ⟨pre, n', rest', he, hfit', hr⟩
      · refine Or.inl ⟨by simp [hr], ?_⟩
        exact forall_mem_cons.2 ⟨by omega, hall⟩
      · refine Or.inr ⟨n :: pre, n', rest', by rw [he]; rfl, hfit', ?_⟩
        simp [hr]

/-- What `pmm_freepages` does at the zone it stops at. -/
inductive Frees (page stop num : Nat) (l : List Zone) : List Zone → Prop
  | front {pre : List Zone} {n : Zone} {rest : List Zone} : l = pre ++ n :: rest → n.addr = stop →
      Frees page stop num l (pre ++ ⟨u64 (n.pages + num), page⟩ :: rest)
  | back {pre : List Zone} {n : Zone} {rest : List Zone} : l = pre ++ n :: rest → u64 n.stop = page →
      Frees page stop num l (pre ++ ⟨u64 (n.pages + num), n.addr⟩ :: rest)
  | between {pre : List Zone} {n : Zone} {rest : List Zone} : l = pre ++ n :: rest → u64 n.stop < page →
      (∀ m ∈ rest.head?, stop < m.addr) →
      Frees page stop num l ((pre ++ [n]) ++ ⟨num, page⟩ :: rest)
  | drop : Frees page stop num l l

theorem Frees.cons (h : Frees page stop num l l') : Frees page stop num (n :: l) (n :: l') := by
  cases h with
  | front hl ha =>
    rw [hl, ← cons_append, ← cons_append]
    exact .front rfl ha
  | back hl hs =>
    rw [hl, ← cons_append, ← cons_append]
    exact .back rfl hs
  | between hl hs hm =>
    rw [hl, ← cons_append, ← cons_append, ← cons_append]
    exact .between rfl hs hm
  | drop => exact .drop

/-- The loop stops at one zone, and does one of four things there. -/
theorem freeLoop_split (page stop num : Nat) (hl : l ≠ []) :
    ∃ l', freeLoop page stop num l = some l' ∧ Frees page stop num l l' := by
  induction l with
  | nil => exact absurd rfl hl
  | cons n rest ih =>
    unfold freeLoop
    split
    · next ha => exact ⟨_, rfl, .front (nil_append _).symm ha⟩
    split
    · next hs => exact ⟨_, rfl, .back (nil_append _).symm hs⟩
    split
    · next hb => exact ⟨_, rfl, .between (nil_append _).symm hb.1 hb.2⟩
    cases rest with
    | nil => exact ⟨_, rfl, .drop⟩
    | cons m rest =>
      obtain ⟨l', hr, hf⟩ := ih (by simp)
      exact ⟨n :: l', by simp [hr], hf.cons⟩

/-! ## Both calls keep the list coalesced -/

/-- Pages taken from a zone's front leave the rest coalesced. -/
theorem Coalesced.takeFront (h : Coalesced (pre ++ n :: rest)) (hok : ZonesOk (pre ++ n :: rest)) (h1 : 1 ≤ num)
    (hn : num ≤ n.pages) : Coalesced (pre ++ (leftover n num ++ rest)) := by
  unfold leftover
  split
  · exact h.erase
  obtain ⟨-, hlt⟩ := hok.mid
  have hs := stop_rest hn hlt
  have hu : u64 (n.addr + 4096 * num) = n.addr + 4096 * num := u64_of_lt (by unfold Zone.stop at hlt; omega)
  have hin : n.addr < n.addr + 4096 * num ∧ n.addr + 4096 * num < n.stop := by unfold Zone.stop; omega
  refine h.erase.insert ?_ fun z hz => ?_
  · dsimp only
    omega
  -- the new start is inside `n`, and the end is the old one
  obtain ⟨hz1, hz2⟩ := hok.apart_mem hz
  rw [hs]
  dsimp only
  refine ⟨by omega, ?_⟩
  exact h n (by simp) z (((sublist_cons_self n rest).append_left pre).mem hz)

/-- The range does not close the gap between two zones. -/
def Separate (l : List Zone) (page num : Nat) : Prop :=
  ¬ ∃ z ∈ l, ∃ z' ∈ l, z.stop = page ∧ z'.addr = page + 4096 * num
deriving Decidable

/-- Given pages are joined with the zones they touch. -/
theorem Coalesced.frees (h : Coalesced l) (hok : ZonesOk l) (h1 : 1 ≤ num) (hlt : page + 4096 * num < 2 ^ 64)
    (hsep : Separate l page num) (hf : Frees page (page + 4096 * num) num l l') : Coalesced l' := by
  cases hf with
  | @front pre n rest hl ha =>
    subst hl
    obtain ⟨hn, hs⟩ := hok.mid
    have hu : Zone.stop ⟨u64 (n.pages + num), page⟩ = n.stop := by
      unfold Zone.stop at hs ⊢
      rw [u64_of_lt (by omega)]
      dsimp only
      omega
    refine h.erase.insert (by rw [hu]; dsimp only; omega) fun z hz => ?_
    have hmem := ((sublist_cons_self n rest).append_left pre).mem hz
    refine ⟨fun hp => hsep ⟨z, hmem, n, by simp, hp, ha⟩, ?_⟩
    rw [hu]
    exact h n (by simp) z hmem
  | @back pre n rest hl hp =>
    subst hl
    obtain ⟨hn, hs⟩ := hok.mid
    rw [u64_of_lt hs] at hp
    have hu : Zone.stop ⟨u64 (n.pages + num), n.addr⟩ = page + 4096 * num := by
      unfold Zone.stop at hp ⊢
      rw [u64_of_lt (by omega)]
      dsimp only
      omega
    refine h.erase.insert (by rw [hu]; dsimp only; omega) fun z hz => ?_
    have hmem := ((sublist_cons_self n rest).append_left pre).mem hz
    refine ⟨h z hmem n (by simp), ?_⟩
    rw [hu]
    exact fun he => hsep ⟨n, by simp, z, hmem, hp, he.symm⟩
  | @between pre n rest hl hp hm =>
    subst hl
    rw [u64_of_lt hok.mid.2] at hp
    have hlist : pre ++ [n] ++ rest = pre ++ n :: rest := by simp
    refine Coalesced.insert (by rw [hlist]; exact h) (by unfold Zone.stop; dsimp only; omega) fun z hz => ?_
    have hstop : Zone.stop ⟨num, page⟩ = page + 4096 * num := rfl
    dsimp only
    rw [append_assoc, singleton_append, mem_append, mem_cons] at hz
    obtain ⟨-, hpw, hpn⟩ := pairwise_append.1 hok.1.2
    rcases hz with hz | rfl | hz
    · -- zones before `n`
      have := hpn z hz n mem_cons_self
      have := hok.mid.1
      have := hok.1.1 z (by simp [hz])
      constructor <;> omega
    · have := hok.mid.1
      constructor <;> omega
    -- zones behind `n` start behind the range, as the first of them does
    have hz1 := hok.1.1 z (by simp [hz])
    have hhead : page + 4096 * num < z.addr := by
      cases rest with
      | nil => cases hz
      | cons m rest =>
        have hm1 := hm m (by simp)
        have hmm := hok.1.1 m (by simp)
        rcases mem_cons.1 hz with rfl | hz
        · exact hm1
        · have := (pairwise_cons.1 (pairwise_cons.1 hpw).2).1 z hz
          omega
    constructor <;> omega
  | drop => exact h

/-! ## Histories -/

/-- Some zone is free, and a freed range does not close a gap. -/
def Apt (s : Sys) : Op → Prop
  | .alloc _ => s.pmm.free ≠ []
  | .free page num => s.pmm.free ≠ [] ∧ Separate s.pmm.free page num

instance (s : Sys) : DecidablePred (Apt s)
  | .alloc _ | .free _ _ => by dsimp only [Apt]; infer_instance

/-- The zones of a list start at pages other than page 0. -/
def OnPages (l : List Zone) : Prop := ∀ z ∈ l, z.addr % 4096 = 0 ∧ z.addr ≠ 0

structure Tidy (s : Sys) : Prop where
  inv : Inv s
  pages : OnPages s.pmm.free
  out : ∀ r ∈ s.out, r.1 % 4096 = 0 ∧ r.1 ≠ 0
  coalesced : Coalesced s.pmm.free

variable {s : Sys}

theorem OnPages.sublist (h : OnPages l) (hs : l'.Sublist l) : OnPages l' := fun z hz => h z (hs.mem hz)

theorem OnPages.insert (h : OnPages (pre ++ rest)) (hx : x.addr % 4096 = 0 ∧ x.addr ≠ 0) :
    OnPages (pre ++ x :: rest) := by
  intro z hz
  rw [mem_append, mem_cons, or_left_comm, ← mem_append] at hz
  rcases hz with rfl | hz
  · exact hx
  · exact h z hz

theorem OnPages.takeFront (h : OnPages (pre ++ n :: rest)) (hok : ZonesOk (pre ++ n :: rest)) (hn : num ≤ n.pages) :
    OnPages (pre ++ (leftover n num ++ rest)) := by
  have herase := h.sublist ((sublist_cons_self n rest).append_left pre)
  obtain ⟨hal, h0⟩ := h n (by simp)
  unfold leftover
  split
  · exact herase
  have hlt := hok.mid.2
  refine herase.insert ?_
  dsimp only
  rw [u64_of_lt (by unfold Zone.stop at hlt; omega)]
  omega

theorem OnPages.frees (h : OnPages l) (hp : page % 4096 = 0 ∧ page ≠ 0) (hf : Frees page stop num l l') :
    OnPages l' := by
  cases hf with
  | @front pre n rest hl ha =>
    subst hl
    exact (h.sublist ((sublist_cons_self n rest).append_left pre)).insert hp
  | @back pre n rest hl hs =>
    subst hl
    exact (h.sublist ((sublist_cons_self n rest).append_left pre)).insert (h n (by simp))
  | @between pre n rest hl hs hm =>
    subst hl
    exact OnPages.insert (by simpa using h) hp
  | drop => exact h

/-- `pmm_allocpages` on a tidy system: it returns 0 iff no zone has a run of pages. -/
theorem Tidy.alloc (t : Tidy s) (hne : s.pmm.free ≠ []) (h1 : 1 ≤ num) :
    ∃ page p', pmmAllocpages s.pmm num = some (page, p') ∧ OnPages p'.free ∧ Coalesced p'.free ∧
      (page = 0 ∧ (∀ z ∈ s.pmm.free, z.pages < num) ∨
        page % 4096 = 0 ∧ page ≠ 0 ∧ pageRange page num ⊆ freeSet s.pmm.free) := by
  have hok := t.inv.ok
  rcases allocLoop_split num hne with ⟨hr, hall⟩ | ⟨pre, n, rest, hl, hfit, hr⟩
  · refine ⟨0, s.pmm, by simp [pmmAllocpages, hr], t.pages, t.coalesced, Or.inl ⟨rfl, hall⟩⟩
  have hmem : n ∈ s.pmm.free := by simp [hl]
  obtain ⟨hal, h0⟩ := t.pages n hmem
  have hco := t.coalesced
  have hpg := t.pages
  rw [hl] at hok hco hpg
  refine ⟨n.addr, ⟨_, _⟩, by rw [pmmAllocpages, hr, map_some], hpg.takeFront hok hfit, hco.takeFront hok h1 hfit,
    Or.inr ⟨hal, h0, fun a ha => ?_⟩⟩
  obtain ⟨ha1, ha2⟩ : n.addr ≤ a ∧ a < n.addr + 4096 * num := ha
  exact ⟨n, hmem, ha1, by unfold Zone.stop; omega⟩

/-- `pmm_freepages` of an outstanding range on a tidy system. -/
theorem Tidy.free (t : Tidy s) (hne : s.pmm.free ≠ []) (hmem : (page, num) ∈ s.out)
    (hsep : Separate s.pmm.free page num) :
    ∃ p', pmmFreepages s.pmm page num = some p' ∧ OnPages p'.free ∧ Coalesced p'.free := by
  have h1 := t.inv.pos _ hmem
  have hlt := t.inv.lt _ hmem
  have hp := t.out _ hmem
  have hap := apart_of_disjoint t.inv.ok.1 (show page < page + 4096 * num by omega) (t.inv.free _ hmem)
  obtain ⟨l', hr, hf⟩ := freeLoop_split page (page + 4096 * num) num hne
  refine ⟨⟨l', u64 (s.pmm.pageFree + num)⟩, ?_, t.pages.frees hp hf, t.coalesced.frees t.inv.ok h1 hlt hsep hf⟩
  simp only [pmmFreepages, u64_of_lt hlt, pmmIsfree_apart hne t.inv.ok hap, hr, hp.1, and_self, if_true, map_some]

/-- **One apt call returns and leaves a tidy system.** -/
theorem step_tidy {o : Op} (t : Tidy s) (ho : Allowed s o ∧ Apt s o) : ∃ s', step s o = some s' ∧ Tidy s' := by
  cases o with
  | alloc num =>
    obtain ⟨page, p', hr, hpg, hco, hpage⟩ := t.alloc ho.2 ho.1
    refine ⟨_, by rw [step, hr, map_some], alloc_inv t.inv ho.1 hr, hpg, ?_, hco⟩
    split
    · exact t.out
    · next h0 => exact forall_mem_cons.2 ⟨⟨(hpage.resolve_left fun h => h0 h.1).1, h0⟩, t.out⟩
  | free page num =>
    obtain ⟨p', hr, hpg, hco⟩ := t.free ho.2.1 ho.1 ho.2.2
    refine ⟨_, by rw [step, hr, map_some], free_inv t.inv ho.1 hr, hpg, ?_, hco⟩
    exact fun r hr => t.out r (mem_of_mem_erase hr)

/-- **Histories of apt calls**: no call reads through `NULL`, the list stays coalesced, and as long as it is not empty
`pmm_allocpages` returns 0 iff no run of `num` free pages exists. -/
theorem coalesced_history (zs : List Zone) (pageFree : Nat) (ops : List Op) (hz : ZonesOk zs) (hp : OnPages zs)
    (hc : Coalesced zs) (hm : Meets step (fun s o => Allowed s o ∧ Apt s o) (Sys.init zs pageFree) ops) :
    ∃ s, run step (Sys.init zs pageFree) ops = some s ∧ Coalesced s.pmm.free ∧
      (s.pmm.free ≠ [] → ∀ num, 1 ≤ num → ∃ page p', pmmAllocpages s.pmm num = some (page, p') ∧
        (page = 0 ↔ ¬ ∃ a, a % 4096 = 0 ∧ pageRange a num ⊆ freeSet s.pmm.free)) := by
  obtain ⟨s, hs, t⟩ := run_meets_total (fun s o => step_tidy)
    (show Tidy (Sys.init zs pageFree) from ⟨init_inv hz, hp, by simp [Sys.init], hc⟩) hm
  refine ⟨s, hs, t.coalesced, fun hne num h1 => ?_⟩
  obtain ⟨page, p', hr, -, -, hpage⟩ := t.alloc hne h1
  refine ⟨page, p', hr, ?_, ?_⟩
  · rintro rfl ⟨a, -, ha⟩
    obtain ⟨z, hz, hfit⟩ := t.coalesced.run_in_zone t.inv.ok h1 ha
    rcases hpage with ⟨-, hall⟩ | ⟨-, h0, -⟩
    · exact absurd (hall z hz) (by omega)
    · exact h0 rfl
  · intro hno
    rcases hpage with ⟨h0, -⟩ | ⟨hal, -, hsub⟩
    · exact h0
    · exact absurd ⟨page, hal, hsub⟩ hno

/-- Two pages are taken from the second of two zones and the first of them is given back, to the first zone. -/
theorem coalesced_history_three :
    ∃ s, run step (Sys.init [⟨1, 0x1000⟩, ⟨5, 0x3000⟩] 6) [.alloc 2, .alloc 2, .free 0x3000 2] = some s ∧
      Coalesced s.pmm.free ∧ (s.pmm.free ≠ [] → ∀ num, 1 ≤ num → ∃ page p', pmmAllocpages s.pmm num = some (page, p') ∧
        (page = 0 ↔ ¬ ∃ a, a % 4096 = 0 ∧ pageRange a num ⊆ freeSet s.pmm.free)) :=
  coalesced_history [⟨1, 0x1000⟩, ⟨5, 0x3000⟩] 6 [.alloc 2, .alloc 2, .free 0x3000 2]
    (by simp [zonesOk_cons, Zone.stop, freeSet, zonesOk_nil]; omega) (by simp [OnPages])
    (by simp [Coalesced, Zone.stop]) (by decide)

/-- **A gap that is closed leaves two adjacent zones**, and a request for the run of five pages fails; and from an empty
list `pmm_allocpages` reads through `NULL`. -/
theorem join_missed :
    (∃ s, run step (Sys.init [⟨1, 0x1000⟩, ⟨5, 0x3000⟩] 6) [.alloc 2, .alloc 2, .free 0x3000 2,
    .free 0x5000 2] = some s ∧
      Meets step Allowed (Sys.init [⟨1, 0x1000⟩, ⟨5, 0x3000⟩] 6) [.alloc 2, .alloc 2, .free 0x3000 2, .free 0x5000 2] ∧
      ¬ Coalesced s.pmm.free ∧ pageRange 0x3000 5 ⊆ freeSet s.pmm.free ∧ pmmAllocpages s.pmm 5 = some (0, s.pmm)) ∧
    ∃ s, run step (Sys.init [⟨1, 0x1000⟩] 1) [.alloc 1] = some s ∧
      Meets step Allowed (Sys.init [⟨1, 0x1000⟩] 1) [.alloc 1] ∧ pmmAllocpages s.pmm 1 = none := by
  refine ⟨⟨⟨⟨[⟨1, 0x1000⟩, ⟨4, 0x3000⟩, ⟨1, 0x7000⟩], 6⟩, []⟩, by decide, by decide, ?_, ?_, by decide⟩,
    ⟨⟨⟨[], 0⟩, [(0x1000, 1)]⟩, by decide, by decide, by decide⟩⟩
  · intro h
    exact h ⟨4, 0x3000⟩ (by simp) ⟨1, 0x7000⟩ (by simp) rfl
  intro a ha
  simp only [pageRange, Set.mem_Ico] at ha
  simp only [freeSet_cons, Zone.stop, Set.mem_union, Set.mem_Ico]
  omega

end TextOS.Pmm
