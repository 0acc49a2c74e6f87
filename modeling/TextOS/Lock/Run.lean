import TextOS.Lib.DList
import TextOS.Lib.Run

/-!
# Locks: `kernel/lock.c`, `kernel/task.c`

Any number of tasks acquire and release one lock, nested. `sema_up` and `sema_down` are not interrupted, everything else
is done in single steps. A task that finds the semaphore taken is put into `waiter` and blocked; `sema_up` takes the
first task out of `waiter` and wakes it, a signal wakes a blocked task and leaves it in `waiter`.

- `Inv`: one task at most owns the lock, `waiter` has the blocked tasks, and a free lock with blocked tasks has a task
  that was woken;
- **over every run in which no signal wakes a task in `sema_down` the lock excludes, no assertion fails, `waiter` has
  the blocked tasks and nobody is forgotten** (`lock_excludes`); a signal leaves a task in `waiter` that is not blocked
  (`waiter_stale`).
-/

namespace TextOS.Lock

open Lib List Function

/-- Where a task is. -/
inductive Phase
  /-- Outside of the lock. -/
  | out
  /-- In `sema_down`, before it looks at `val`. -/
  | down
  /-- In `task_block`. -/
  | blocked
  /-- In `sema_down`, woken and not yet running. -/
  | woken
  /-- After `sema_down`. -/
  | taken
  /-- After `holder` is set. -/
  | named
  /-- Between acquire and release, with the number of acquires. -/
  | inside (depth : Nat)
  /-- In `lock_release`, after `holder` is cleared. -/
  | leaving
  /-- In `lock_release`, before `sema_up`. -/
  | cleared
deriving DecidableEq

/-- The task has the semaphore. -/
def Phase.owns : Phase → Bool
  | .taken | .named | .inside _ | .leaving | .cleared => true
  | _ => false

/-- `lock_t` with its semaphore, and the tasks. In the list `none` is `waiter`, and `some t` is `blist` of the task `t`.
-/
structure Sys where
  val : Nat
  waiter : Links (Option Nat)
  holder : Option Nat
  hrepeat : Nat
  phase : Nat → Phase
  /-- An assertion has failed. -/
  failed : Bool

def Sys.goto (s : Sys) (t : Nat) (ph : Phase) : Sys := { s with phase := update s.phase t ph }

/-- `task_block` in `sema_down`. -/
def taskBlock (s : Sys) (t : Nat) : Sys := { s.goto t .blocked with waiter := s.waiter.insertAfter none (some t) }

def taskUnblock (s : Sys) (t : Nat) : Sys := if s.phase t = .blocked then s.goto t .woken else s

/-- `sema_down` up to the point where it returns or blocks. -/
def semaDown (s : Sys) (t : Nat) : Sys :=
  if s.val = 0 then taskBlock s t
  else if s.val ≠ 1 then { s with failed := true }
  else { s.goto t .taken with val := s.val - 1 }

def semaUp (s : Sys) : Sys :=
  if s.val ≠ 0 then { s with failed := true }
  else
    let s := { s with val := s.val + 1 }
    if s.waiter.prev none = none then s
    else
      match s.waiter.next none with
      | none => { s with failed := true }
      | some first => taskUnblock { s with waiter := s.waiter.remove (some first) } first

/-- The first step of `lock_acquire`. -/
def lockAcquire (s : Sys) (t depth : Nat) : Sys :=
  if s.holder ≠ some t then s.goto t .down else { s.goto t (.inside (depth + 1)) with hrepeat := s.hrepeat + 1 }

/-- The first step of `lock_release`. -/
def lockRelease (s : Sys) (t depth : Nat) : Sys :=
  if s.holder ≠ some t then { s with failed := true }
  else if s.hrepeat > 1 then { s.goto t (.inside (depth - 1)) with hrepeat := s.hrepeat - 1 }
  else { s.goto t .leaving with holder := none }

inductive Act
  | acquire
  | release
  | go
  | signal
deriving DecidableEq

/-- A step of the task `t`, or a signal to it; nothing happens where the task cannot make it. -/
def act (s : Sys) (t : Nat) : Act → Sys
  | .acquire =>
    match s.phase t with
    | .out => lockAcquire s t 0
    | .inside depth => lockAcquire s t depth
    | _ => s
  | .release =>
    match s.phase t with
    | .inside depth => lockRelease s t depth
    | _ => s
  | .go =>
    match s.phase t with
    | .down => semaDown s t
    | .woken => semaDown s t
    | .taken => { s.goto t .named with holder := some t }
    | .named => { s.goto t (.inside 1) with hrepeat := 1 }
    | .leaving => { s.goto t .cleared with hrepeat := 0 }
    | .cleared => (semaUp s).goto t .out
    | _ => s
  | .signal => taskUnblock s t

def step (s : Sys) (o : Nat × Act) : Option Sys := if s.failed then none else some (act s o.1 o.2)

/-! ## The invariant -/

/-- What the lock says about its owner. -/
def OwnerOk (s : Sys) (o : Nat) : Phase → Prop
  | .named => s.holder = some o
  | .inside depth => s.holder = some o ∧ s.hrepeat = depth ∧ 0 < depth
  | _ => s.holder = none

structure Inv (s : Sys) : Prop where
  ok : s.failed = false
  list : ∃ l, IsRing s.waiter none l ∧ ∀ t, some t ∈ l ↔ s.phase t = .blocked
  owner : (s.val = 1 ∧ s.holder = none ∧ (∀ t, (s.phase t).owns = false) ∧
      ∀ t, s.phase t = .blocked → ∃ u, s.phase u = .woken) ∨
    (s.val = 0 ∧ ∃ o, OwnerOk s o (s.phase o) ∧ (s.phase o).owns = true ∧ ∀ t, (s.phase t).owns = true → t = o)

variable {s s' : Sys} {t : Nat}

@[simp] theorem goto_self (s : Sys) (t : Nat) (ph : Phase) : (s.goto t ph).phase t = ph := update_self _ _ _

theorem goto_of_ne {u : Nat} (h : u ≠ t) (s : Sys) (ph : Phase) : (s.goto t ph).phase u = s.phase u :=
    update_of_ne h _ _

namespace Inv

theorem owner_of (h : Inv s) (ht : (s.phase t).owns = true) :
    s.val = 0 ∧ OwnerOk s t (s.phase t) ∧ ∀ u, (s.phase u).owns = true → u = t := by
  rcases h.owner with ⟨-, -, hnone, -⟩ | ⟨hval, o, hok, -, huniq⟩
  · rw [hnone t] at ht
    cases ht
  · obtain rfl := huniq t ht
    exact ⟨hval, hok, huniq⟩

theorem holder_ne (h : Inv s) (ht : (s.phase t).owns = false) : s.holder ≠ some t := by
  rcases h.owner with ⟨-, hnone, -⟩ | ⟨-, o, hok, ho, -⟩
  · rw [hnone]
    nofun
  intro hh
  have hot : o ≠ t := fun he => by
    rw [he, ht] at ho
    cases ho
  cases hp : s.phase o <;> rw [hp] at hok ho <;> simp_all [OwnerOk, Phase.owns]

theorem goto (h : Inv s) (hp : s.phase t = .out) : Inv (s.goto t .down) := by
  have hphase : ∀ u ph, ph ≠ .out → ph ≠ .down → ((s.goto t .down).phase u = ph ↔ s.phase u = ph) :=
    fun u ph h1 h2 => by
    by_cases hu : u = t
    · rw [hu, goto_self, hp]
      exact ⟨fun he => absurd he.symm h2, fun he => absurd he.symm h1⟩
    · rw [goto_of_ne hu]
  have howns : ∀ u, ((s.goto t .down).phase u).owns = (s.phase u).owns := fun u => by
    by_cases hu : u = t
    · rw [hu, goto_self, hp]
      rfl
    · rw [goto_of_ne hu]
  obtain ⟨l, hring, hl⟩ := h.list
  refine ⟨h.ok, ⟨l, hring, fun u => (hl u).trans (hphase u .blocked nofun nofun).symm⟩, ?_⟩
  rcases h.owner with ⟨hval, hnone, hfree, hwake⟩ | ⟨hval, o, hok, ho, huniq⟩
  · refine .inl ⟨hval, hnone, fun u => by rw [howns]; exact hfree u, fun u hu => ?_⟩
    obtain ⟨w, hw⟩ := hwake u ((hphase u .blocked nofun nofun).1 hu)
    exact ⟨w, (hphase w .woken nofun nofun).2 hw⟩
  have hot : o ≠ t := fun he => by
    rw [he, hp] at ho
    cases ho
  refine .inr ⟨hval, o, ?_, by rw [howns]; exact ho, fun u hu => huniq u (by rwa [howns] at hu)⟩
  rw [goto_of_ne hot]
  exact hok

/-- The owner goes on to another phase that owns. -/
theorem own (h : Inv s) (ht : (s.phase t).owns = true) {ph : Phase} (hph : ph.owns = true) {holder : Option Nat}
    {hrepeat : Nat} (hok : OwnerOk { s with holder := holder, hrepeat := hrepeat } t ph) :
    Inv { s.goto t ph with holder := holder, hrepeat := hrepeat } := by
  obtain ⟨hval, -, huniq⟩ := h.owner_of ht
  obtain ⟨l, hring, hl⟩ := h.list
  refine ⟨h.ok, ⟨l, hring, fun u => ?_⟩, .inr ⟨hval, t, ?_, ?_, fun u hu => ?_⟩⟩
  · by_cases hu : u = t
    · rw [hu, goto_self, hl]
      constructor
      · intro he
        rw [he] at ht
        cases ht
      intro he
      rw [he] at hph
      cases hph
    · rw [goto_of_ne hu]
      exact hl u
  · rw [goto_self]
    cases ph <;> exact hok
  · rw [goto_self]
    exact hph
  by_cases hut : u = t
  · exact hut
  · rw [goto_of_ne hut] at hu
    exact huniq u hu

theorem acquire (h : Inv s) (t : Nat) : Inv (act s t .acquire) := by
  rw [act]
  cases hp : s.phase t with
  | out =>
    rw [lockAcquire, if_pos (h.holder_ne (by rw [hp]; rfl))]
    exact h.goto hp
  | inside depth =>
    have ht : (s.phase t).owns = true := by rw [hp]; rfl
    obtain ⟨-, hok, -⟩ := h.owner_of ht
    rw [hp] at hok
    dsimp only
    rw [lockAcquire, if_neg (not_not.2 hok.1)]
    exact h.own ht rfl ⟨hok.1, congrArg (· + 1) hok.2.1, Nat.succ_pos _⟩
  | _ => exact h

theorem release (h : Inv s) (t : Nat) : Inv (act s t .release) := by
  rw [act]
  cases hp : s.phase t with
  | inside depth =>
    have ht : (s.phase t).owns = true := by rw [hp]; rfl
    obtain ⟨-, hok, -⟩ := h.owner_of ht
    rw [hp] at hok
    obtain ⟨hholder, hrep, hpos⟩ := hok
    dsimp only
    rw [lockRelease, if_neg (not_not.2 hholder)]
    split
    next hgt => exact h.own ht rfl ⟨hholder, congrArg (· - 1) hrep, by omega⟩
    next => exact h.own ht rfl rfl
  | _ => exact h

/-- A task that comes to the semaphore takes it or queues. -/
theorem semaDown (h : Inv s) (hp : s.phase t = .down ∨ s.phase t = .woken) : Inv (semaDown s t) := by
  have hnb : s.phase t ≠ .blocked := by rcases hp with hp | hp <;> rw [hp] <;> nofun
  have hno : (s.phase t).owns = false := by rcases hp with hp | hp <;> rw [hp] <;> rfl
  obtain ⟨l, hring, hl⟩ := h.list
  rw [Lock.semaDown]
  rcases h.owner with ⟨hval, hnone, hfree, -⟩ | ⟨hval, o, hok, ho, huniq⟩
  · rw [if_neg (by omega), if_neg (by omega)]
    refine ⟨h.ok, ⟨l, hring, fun u => ?_⟩, .inr ⟨by dsimp only; omega, t, ?_, ?_, fun u hu => ?_⟩⟩
    · by_cases hu : u = t
      · rw [hu, goto_self, hl]
        exact ⟨fun he => absurd he hnb, nofun⟩
      · rw [goto_of_ne hu]
        exact hl u
    · rw [goto_self]
      exact hnone
    · rw [goto_self]
      rfl
    by_contra hut
    rw [goto_of_ne hut, hfree u] at hu
    cases hu
  · have hot : o ≠ t := fun he => by
      rw [he, hno] at ho
      cases ho
    rw [if_pos hval]
    refine ⟨h.ok, ⟨some t :: l, hring.insertAfter ?_, fun u => ?_⟩, .inr ⟨hval, o, ?_, ?_, fun u hu => ?_⟩⟩
    · rw [mem_cons, hl]
      simp [hnb]
    · dsimp only [taskBlock]
      by_cases hu : u = t
      · rw [hu, goto_self]
        simp
      · rw [goto_of_ne hu, mem_cons, hl]
        simp [hu]
    · dsimp only [taskBlock]
      rw [goto_of_ne hot]
      cases hpo : s.phase o <;> rw [hpo] at hok <;> exact hok
    · dsimp only [taskBlock]
      rw [goto_of_ne hot]
      exact ho
    dsimp only [taskBlock] at hu
    by_cases hut : u = t
    · rw [hut, goto_self] at hu
      cases hu
    · rw [goto_of_ne hut] at hu
      exact huniq u hu

/-- The owner gives the semaphore back and wakes the first in the queue. -/
theorem semaUp (h : Inv s) (hp : s.phase t = .cleared) : Inv ((semaUp s).goto t .out) := by
  obtain ⟨hval, hnone, huniq⟩ := h.owner_of (t := t) (by rw [hp]; rfl)
  rw [hp] at hnone
  obtain ⟨l, hring, hl⟩ := h.list
  have hfree : ∀ u, u ≠ t → (s.phase u).owns = false := fun u hu => by
    by_contra hne
    exact hu (huniq u (by simpa using hne))
  rw [Lock.semaUp, if_neg (not_not.2 hval)]
  dsimp only
  split
  next hprev =>
    -- nobody is blocked
    obtain rfl := hring.prev_eq_self_iff.1 hprev
    have hno : ∀ u, s.phase u ≠ .blocked := fun u hu => by
      have := (hl u).2 hu
      cases this
    have hno' : ∀ u, (({ s with val := s.val + 1 } : Sys).goto t .out).phase u ≠ .blocked := by
      intro u
      by_cases hu : u = t
      · rw [hu, goto_self]
        nofun
      · rw [goto_of_ne hu]
        exact hno u
    refine ⟨h.ok, ⟨[], hring, fun u => ⟨nofun, fun hu => absurd hu (hno' u)⟩⟩,
      .inl ⟨?_, hnone, fun u => ?_, fun u hu => absurd hu (hno' u)⟩⟩
    · exact congrArg (· + 1) hval
    by_cases hu : u = t
    · rw [hu, goto_self]
      rfl
    · rw [goto_of_ne hu]
      exact hfree u hu
  next hprev =>
    obtain ⟨x, l, rfl⟩ := exists_cons_of_ne_nil fun hnil => hprev (hring.prev_eq_self_iff.2 hnil)
    obtain ⟨u, rfl⟩ : ∃ u, x = some u := by
      cases x with
      | none => exact absurd hring.nodup (by simp)
      | some u => exact ⟨u, rfl⟩
    have hbu : s.phase u = .blocked := (hl u).1 mem_cons_self
    have hut : u ≠ t := fun he => by
      rw [he, hp] at hbu
      cases hbu
    have hul : some u ∉ l := (nodup_cons.1 (nodup_cons.1 hring.nodup).2).1
    rw [hring.next_head]
    dsimp only [taskUnblock]
    rw [if_pos hbu]
    have hphase : ∀ w, w ≠ t → w ≠ u → ((({ s with val := s.val + 1, waiter := s.waiter.remove (some u) } : Sys).goto u
        .woken).goto t .out).phase w = s.phase w := fun w hwt hwu => by rw [goto_of_ne hwt, goto_of_ne hwu]
    refine ⟨h.ok, ⟨l, hring.remove, fun w => ?_⟩, .inl ⟨congrArg (· + 1) hval, hnone, fun w => ?_, fun _ _ => ⟨u, ?_⟩⟩⟩
    · by_cases hwt : w = t
      · rw [hwt, goto_self]
        refine ⟨fun hm => ?_, nofun⟩
        have := (hl t).1 (mem_cons_of_mem _ hm)
        rw [hp] at this
        cases this
      by_cases hwu : w = u
      · rw [hwu, goto_of_ne hut, goto_self]
        exact ⟨fun hm => absurd hm hul, nofun⟩
      · rw [hphase w hwt hwu, ← hl w, mem_cons]
        simp [hwu]
    · by_cases hwt : w = t
      · rw [hwt, goto_self]
        rfl
      by_cases hwu : w = u
      · rw [hwu, goto_of_ne hut, goto_self]
        rfl
      · rw [hphase w hwt hwu]
        exact hfree w hwt
    · rw [goto_of_ne hut, goto_self]

/-- A task goes on from where it is. -/
theorem go (h : Inv s) (t : Nat) : Inv (act s t .go) := by
  rw [act]
  cases hp : s.phase t with
  | down => exact h.semaDown (.inl hp)
  | woken => exact h.semaDown (.inr hp)
  | taken => exact h.own (by rw [hp]; rfl) rfl rfl
  | named =>
    have ht : (s.phase t).owns = true := by rw [hp]; rfl
    obtain ⟨-, hok, -⟩ := h.owner_of ht
    rw [hp] at hok
    exact h.own ht rfl ⟨hok, rfl, Nat.one_pos⟩
  | leaving =>
    have ht : (s.phase t).owns = true := by rw [hp]; rfl
    obtain ⟨-, hok, -⟩ := h.owner_of ht
    rw [hp] at hok
    exact h.own ht rfl hok
  | cleared => exact h.semaUp hp
  | _ => exact h

end Inv

/-! ## Runs -/

/-- No signal wakes a task in `sema_down`. -/
def Undisturbed (s : Sys) (o : Nat × Act) : Prop := o.2 = .signal → s.phase o.1 ≠ .blocked
deriving Decidable

theorem Inv.step (h : Inv s) {o : Nat × Act} (ho : Undisturbed s o) : ∃ s', step s o = some s' ∧ Inv s' := by
  obtain ⟨t, a⟩ := o
  refine ⟨act s t a, by rw [Lock.step, h.ok]; rfl, ?_⟩
  cases a with
  | acquire => exact h.acquire t
  | release => exact h.release t
  | go => exact h.go t
  | signal =>
    rw [act, taskUnblock, if_neg (ho rfl)]
    exact h

/-- `lock_init`; the nodes of the tasks are not in a list. -/
def init (L : Links (Option Nat)) : Sys :=
  ⟨1, ⟨update L.next none none, update L.prev none none⟩, none, 0, fun _ => .out, false⟩

/-- **Locks exclude**: over every run of any number of tasks in which no signal wakes a task in `sema_down`, no
assertion fails, at most one task has the lock, `waiter` has the blocked tasks and each of them once, and if nobody has
the lock and a task is blocked, then another one has been woken. -/
theorem lock_excludes (L : Links (Option Nat)) (os : List (Nat × Act)) (hos : Meets step Undisturbed (init L) os) :
    ∃ s', run step (init L) os = some s' ∧ s'.failed = false ∧
      (∀ t u, (s'.phase t).owns = true → (s'.phase u).owns = true → t = u) ∧
      (∃ l, IsRing s'.waiter none l ∧ ∀ t, some t ∈ l ↔ s'.phase t = .blocked) ∧
      ((∀ t, (s'.phase t).owns = false) → ∀ t, s'.phase t = .blocked → ∃ u, s'.phase u = .woken) := by
  have h0 : Inv (init L) := by
    refine ⟨rfl, ⟨[], isRing_nil ?_ ?_, fun t => ⟨nofun, nofun⟩⟩, .inl ⟨rfl, rfl, fun _ => rfl, nofun⟩⟩
    · exact update_self none none L.next
    · exact update_self none none L.prev
  obtain ⟨s', hr, h⟩ := run_meets_total (fun _ _ hi ho => hi.step ho) h0 hos
  refine ⟨s', hr, h.ok, fun t u ht hu => ((h.owner_of hu).2.2 t ht), h.list, fun hfree => ?_⟩
  rcases h.owner with ⟨-, -, -, hwake⟩ | ⟨-, o, -, ho, -⟩
  · exact hwake
  · rw [hfree o] at ho
    cases ho

def selfLinks : Links (Option Nat) := ⟨id, id⟩

/-- Task 0 acquires twice and releases while the tasks 1 and 2 are blocked; task 2 is woken. -/
def contended : List (Nat × Act) :=
  [(0, .acquire), (0, .go), (0, .go), (0, .go), (0, .acquire), (1, .acquire), (1, .go), (2, .acquire), (2, .go),
  (0, .release),
    (0, .release), (0, .go), (0, .go)]

theorem lock_excludes_contended : ∃ s', run step (init selfLinks) contended = some s' ∧ s'.phase 1 = .blocked ∧
    s'.phase 2 = .woken ∧ s'.val = 1 ∧ ∃ l, IsRing s'.waiter none l ∧ ∀ t, some t ∈ l ↔ s'.phase t = .blocked := by
  obtain ⟨s', hr, -, -, hlist, -⟩ := lock_excludes selfLinks contended (by decide)
  have hrun : (run step (init selfLinks) contended).map (fun s => (s.phase 1, s.phase 2, s.val)) =
    some (.blocked, .woken, 1) := by
    decide
  rw [hr] at hrun
  obtain ⟨h1, h2, hval⟩ : s'.phase 1 = .blocked ∧ s'.phase 2 = .woken ∧ s'.val = 1 := by simpa using hrun
  exact ⟨s', hr, h1, h2, hval, hlist⟩

/-- A signal wakes the blocked task 1, which blocks again and so is put into `waiter` a second time. When task 0
releases the lock, task 1 is woken and still the first task in `waiter`. -/
theorem waiter_stale : (run step (init selfLinks) [(0, .acquire), (0, .go), (0, .go), (0, .go), (1, .acquire), (1, .go),
    (1, .signal), (1, .go), (0, .release), (0, .go), (0, .go)]).map (fun s => (s.phase 1, s.waiter.next none)) =
    some (.woken, some 1) := by
  decide

end TextOS.Lock
