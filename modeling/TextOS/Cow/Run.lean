import TextOS.Lib.Run
import TextOS.Cow.Munmap

/-!
# Runs: isolation of tasks, lifetime of pages

Two calls of the kernel count too little: a fork by a task some page of which is recorded higher up in a chain, and an
`execve` that leaves pages behind. In every run without them a page that a task may write is its own (`cow_isolated`),
and if no task tears down the page table of the kernel either, only pages are freed that are allocated and that no task
uses any more (`frees_safe`). `cow_shared` and `frees_twice` are runs with such calls.
-/

namespace TextOS.Cow

open Lib Function Option

variable {st st' : State} {s v off b : Nat} {o : Op}

/-- A fork counts every page of the parent, and `execve` leaves a bare address space. -/
def Careful (st : State) : Op → Prop
  | .fork s _ _ => recorded st s = true
  | .leave s => bare st s = true
  | _ => True

instance (st : State) (o : Op) : Decidable (Careful st o) := by
  unfold Careful
  split <;> infer_instance

theorem store_eq (h : store st s v off b = some st') : ∃ sp e, st.space s = some sp ∧ sp.query v = some e ∧
    e.rw = true ∧ st' = { st with mem := update st.mem e.pa (update (st.mem e.pa) off b) } := by
  obtain ⟨sp, hs, h⟩ := bind_eq_some_iff.1 h
  split at h
  · next e hq =>
    split at h
    · next hrw => exact ⟨sp, e, hs, hq, hrw, (some.inj h).symm⟩
    · cases h
  · cases h

/-- **A careful step keeps the invariant.** -/
theorem step_inv (h : Inv st) (hc : Careful st o) (hs : step st o = some st') : Inv st' := by
  cases o with
  | enter image root => exact enter_inv h hs
  | leave s => exact leave_inv h hc hs
  | fork s root fs => exact fork_inv h hc hs
  | access s v write pg data fs => exact access_inv h hs
  | store s v off b =>
    obtain ⟨sp, e, -, -, -, rfl⟩ := store_eq hs
    exact h.setMem _
  | munmap s askStart askEnd fs => exact munmap_inv h hs

theorem init_inv (mem : Nat → Nat → Nat) : Inv (State.init mem) where
  recs := ⟨nofun, fun _ => .nil, nofun, nofun, nofun, nofun⟩
  space := nofun
  apart := nofun
  count := nofun
  sole := nofun
  nodup := .nil
  pos := nofun
  log := nofun

theorem run_careful_inv {mem : Nat → Nat → Nat} {os : List Op} (hm : Meets step Careful (State.init mem) os)
    (hr : run step (State.init mem) os = some st) : Inv st :=
  run_meets_inv (fun _ _ _ h hc hs => step_inv h hc hs) (init_inv mem) hm hr

/-! ## Isolation -/

theorem Inv.isolated {s' : Nat} {sp sp' : Space} {e : Entry} (h : Inv st) (hs : st.space s = some sp)
    (hs' : st.space s' = some sp') (hne : s ≠ s') (hq : sp.query v = some e) (hrw : e.rw = true) :
    e.pa ∉ sp'.pages := by
  intro hm
  have hx := (query_eq_some (h.space s sp hs).keys).1 hq
  have h1 := h.sole s sp hs _ hx hrw
  have h2 := two_le_mappers hs hs' hne (mem_pages.2 ⟨_, hx, rfl⟩) hm
  exact absurd (h2.trans h1) (by decide)

/-- A store is seen in no other space. -/
theorem Inv.read_store (h : Inv st) (hst : store st s v off b = some st') {s' : Nat} (hne : s' ≠ s) (v' off' : Nat) :
    read st' s' v' off' = read st s' v' off' := by
  obtain ⟨sp, e, hs, hq, hrw, rfl⟩ := store_eq hst
  change (st.space s').bind _ = (st.space s').bind _
  cases hs' : st.space s' with
  | none => rfl
  | some sp' =>
    rw [bind_some, bind_some]
    cases hq' : sp'.query v' with
    | none => rfl
    | some e' =>
      have hpa : e'.pa ≠ e.pa := by
        intro he
        have hx := (query_eq_some (h.space s' sp' hs').keys).1 hq'
        exact h.isolated hs hs' hne.symm hq hrw (mem_pages.2 ⟨_, hx, he⟩)
      simp [update_of_ne hpa]

/-- **In every careful run, a page that a task may write is mapped by no other task, and a store by a task does not
change what another task reads.** -/
theorem cow_isolated (mem : Nat → Nat → Nat) (os : List Op) (st : State)
    (hm : Meets step Careful (State.init mem) os) (hr : run step (State.init mem) os = some st) :
    (∀ s s' sp sp' v e, st.space s = some sp → st.space s' = some sp' → s ≠ s' → sp.query v = some e → e.rw = true →
      e.pa ∉ sp'.pages) ∧
    ∀ s v off b st', store st s v off b = some st' → ∀ s' v' off', s' ≠ s →
      read st' s' v' off' = read st s' v' off' := by
  have h := run_careful_inv hm hr
  constructor
  · exact fun s s' sp sp' v e hs hs' hne hq hrw => h.isolated hs hs' hne hq hrw
  · exact fun s v off b st' hst s' v' off' hne => h.read_store hst hne v' off'

/-- A program with one private anonymous area of 16 pages. -/
def oneArea : Image := ⟨[⟨16, 32, 0x22, 3, .user, 0, none⟩], by simp [ordered_cons_iff]⟩

/-- The program starts and writes its first page. -/
def started : List Op := [.enter oneArea 100, .access 0 16 true 1 (fun _ => 0) [101, 102, 103]]

/-- A child that shares a page with its parent writes it and gets its own. -/
theorem cow_isolated_child : ∃ st, run step (State.init fun _ _ => 0) (started ++ [.fork 0 110 [111, 112, 113],
      .access 1 16 true 2 (fun _ => 0) [], .store 1 16 0 7]) = some st ∧
    (read st 0 16 0 = some 0 ∧ read st 1 16 0 = some 7) ∧
    ((∀ s s' sp sp' v e, st.space s = some sp → st.space s' = some sp' → s ≠ s' → sp.query v = some e → e.rw = true →
      e.pa ∉ sp'.pages) ∧
    ∀ s v off b st', store st s v off b = some st' → ∀ s' v' off', s' ≠ s →
      read st' s' v' off' = read st s' v' off') :=
  ⟨_, rfl, by decide, cow_isolated (fun _ _ => 0) (started ++ [.fork 0 110 [111, 112, 113],
    .access 1 16 true 2 (fun _ => 0) [], .store 1 16 0 7]) _ (by decide) rfl⟩

/-- **A child that forks before it wrote the page it shares with its parent.** The page has three mappers and the count
2: the grandchild's copy leaves the count 1, the child gets the page for writing and the parent reads what the child
stores. -/
theorem cow_shared :
    (run step (State.init fun _ _ => 0) (started ++ [.fork 0 110 [111, 112, 113], .fork 1 120 [121, 122, 123],
      .access 2 16 true 2 (fun _ => 0) [], .access 1 16 true 3 (fun _ => 0) []])).map
      (fun st => ((st.space 1).bind (·.query 16), (st.space 0).bind (·.query 16), read st 0 16 0,
        (store st 1 16 0 7).map fun st' => read st' 0 16 0)) =
      some (some ⟨1, true⟩, some ⟨1, false⟩, some 0, some (some 7)) := by
  decide

/-! ## Lifetime -/

/-- The steps of the programs are careful, and no task on the page table of the kernel calls `execve`. -/
def Spares (st : State) : Act → Prop
  | .program o => Careful st o
  | .leaveKernel _ _ => False

instance (st : State) (x : Act) : Decidable (Spares st x) := by
  unfold Spares
  split <;> infer_instance

theorem act_inv {x : Act} (h : Inv st) (hc : Spares st x) (hs : act st x = some st') : Inv st' := by
  cases x with
  | program o => exact step_inv h hc hs
  | leaveKernel kppgt low => exact hc.elim

/-- **In every run that spares the page table of the kernel, a page that is freed was allocated and is used by no task
any more.** -/
theorem frees_safe (mem : Nat → Nat → Nat) (xs : List Act) (st : State)
    (hm : Meets act Spares (State.init mem) xs) (hr : run act (State.init mem) xs = some st) :
    ∀ f ∈ st.log, f.allocated = true ∧ f.used = false :=
  (run_meets_inv (fun _ _ _ h hc hs => act_inv h hc hs) (init_inv mem) hm hr).log

/-- A page is shared with a child, and both unmap it; then the parent's address space goes. -/
def bothUnmap : List Act :=
  (started ++ [Op.fork 0 110 [111, 112, 113], .munmap 1 16 32 [], .munmap 0 16 32 [], .leave 0]).map .program

theorem frees_safe_both : ∃ st, run act (State.init fun _ _ => 0) bothUnmap = some st ∧
    st.log = [⟨100, true, false⟩, ⟨101, true, false⟩, ⟨102, true, false⟩, ⟨103, true, false⟩, ⟨1, true, false⟩] ∧
    ∀ f ∈ st.log, f.allocated = true ∧ f.used = false :=
  ⟨_, rfl, by decide, frees_safe (fun _ _ => 0) bothUnmap _ (by decide) rfl⟩

/-- **`execve` by a task with a mapped page.** `clear_pgt` frees the page, and `vmm_free_space` frees it again. If a
child still maps it, it is freed under the child. The first task frees the page table of the kernel. -/
theorem frees_twice : (run step (State.init fun _ _ => 0) (started ++ [.enter oneArea 120, .leave 0])).map
      (fun st => st.log.filter fun f => f.pa == 1) = some [⟨1, false, false⟩, ⟨1, true, false⟩] ∧
    (run step (State.init fun _ _ => 0) (started ++ [.fork 0 110 [111, 112, 113], .enter oneArea 120, .leave 0])).map
      (fun st => (st.log.filter (fun f => f.pa == 1), (st.space 1).bind (·.query 16))) =
      some ([⟨1, true, true⟩], some ⟨1, false⟩) ∧
    (run act (State.init fun _ _ => 0) [.program (.enter oneArea 100), .leaveKernel 50 []]).map
      (fun st => st.log.map fun f => (f.pa, f.used)) = some [(50, true)] := by
  decide

end TextOS.Cow
