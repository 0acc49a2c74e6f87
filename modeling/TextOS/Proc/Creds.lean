import TextOS.Proc.Defs

/-!
# Giving up privileges: `kernel/task.c`

- **a task that has given up user id 0 in all three ids, and all its descendants, never have the effective user id 0
  again** (`drop_kept`);
- `setreuid` leaves the saved user id as it is, from which it can be taken back (`drop_undone`).
-/

namespace TextOS.Proc

open Lib List

variable {s s' : Sys} {tsk : Task} {p : Nat}

/-- None of the user ids is 0. -/
structure Unprivileged (tsk : Task) : Prop where
  ruid : tsk.ruid ≠ 0
  euid : tsk.euid ≠ 0
  suid : tsk.suid ≠ 0

theorem Unprivileged.setuid (h : Unprivileged tsk) (uid : Nat) : Unprivileged (setuid tsk uid).1 := by
  rw [Proc.setuid, if_neg h.euid]
  split
  next hu =>
    refine ⟨h.ruid, ?_, h.suid⟩
    rcases hu with rfl | rfl
    · exact h.ruid
    · exact h.suid
  next => exact h

theorem Unprivileged.setgid (h : Unprivileged tsk) (gid : Nat) : Unprivileged (setgid tsk gid).1 := by
  rw [Proc.setgid]
  split
  · exact ⟨h.ruid, h.euid, h.suid⟩
  split
  · exact ⟨h.ruid, h.euid, h.suid⟩
  · exact h

/-- Whatever `setreuid` answers, no id of root appears. -/
theorem Unprivileged.setreuid (h : Unprivileged tsk) (ruid euid : Nat) : Unprivileged (setreuid tsk ruid euid).1 := by
  rw [Proc.setreuid]
  split
  next => exact h
  next hok =>
    -- the real id stays, and the effective one becomes one of the three
    have hr : ruid = NOID := by
      by_contra hne
      exact hok ⟨h.euid, .inl hne⟩
    refine ⟨?_, ?_, h.suid⟩
    · rw [if_neg (not_not.2 hr)]
      exact h.ruid
    dsimp only
    split
    next hne =>
      intro h0
      subst h0
      exact hok ⟨h.euid, .inr ⟨hne, h.ruid.symm, h.euid.symm, h.suid.symm⟩⟩
    next => exact h.euid

theorem Unprivileged.setregid (h : Unprivileged tsk) (rgid egid : Nat) : Unprivileged (setregid tsk rgid egid).1 := by
  rw [Proc.setregid]
  split
  · exact h
  · exact ⟨h.ruid, h.euid, h.suid⟩

/-! ## The task and its descendants -/

/-- The calls that concern ids. -/
def Call.isId : Call → Bool
  | .setuid _ | .setgid _ | .setreuid .. | .setregid .. | .fork => true
  | _ => false

/-- A child of a member is a member, if there is one. -/
def grow (s s' : Sys) (fam : List Nat) (o : Nat × Call) : List Nat :=
  match o.2, s'.halt with
  | .fork, none => if o.1 ∈ fam then (getfree s).toList ++ fam else fam
  | _, _ => fam

/-- The system with the members of a family. -/
def famStep (x : Sys × List Nat) (o : Nat × Call) : Option (Sys × List Nat) :=
  (step x.1 o).map fun s' => (s', grow x.1 s' x.2 o)

theorem mem_grow (s s' : Sys) (o : Nat × Call) {q : Nat} {fam : List Nat} (h : q ∈ fam) : q ∈ grow s s' fam o := by
  rw [grow]
  split
  · split
    · exact mem_append_right _ h
    · exact h
  · exact h

/-- All members exist, and none of them is privileged. -/
def FamOk (x : Sys × List Nat) : Prop := ∀ q ∈ x.2, ∃ tsk, x.1.table q = some tsk ∧ Unprivileged tsk

variable {fam : List Nat}

theorem FamOk.set (h : FamOk (s, fam)) {new : Task} (hp : s.table p = some tsk)
    (hnew : Unprivileged tsk → Unprivileged new) : FamOk (s.set p new, fam) := by
  intro q hq
  obtain ⟨t, ht, hu⟩ := h q hq
  by_cases hqp : q = p
  · subst hqp
    rw [hp] at ht
    cases ht
    exact ⟨new, set_self s q new, hnew hu⟩
  · exact ⟨t, by rw [set_of_ne hqp]; exact ht, hu⟩

/-- A new task does not take the place of a member, and is a member if its parent is one. -/
theorem FamOk.fork (h : FamOk (s, fam)) (hp : s.table p = some tsk) :
    FamOk (taskFork s p tsk, grow s (taskFork s p tsk) fam (p, .fork)) := by
  rcases taskFork_cases s p tsk with ⟨hhalt, htable⟩ | ⟨c, hfree, hhalt, hfork⟩
  · obtain ⟨x, hx⟩ := Option.ne_none_iff_exists'.1 hhalt
    have hgrow : grow s (taskFork s p tsk) fam (p, .fork) = fam := by rw [grow, hx]
    rw [hgrow]
    intro q hq
    rw [htable]
    exact h q hq
  obtain ⟨-, hnone⟩ := getfree_eq_some hfree
  have hhalt' : (taskFork s p tsk).halt = none := by rw [hfork]; exact hhalt
  have hold : ∀ q ∈ fam, ∃ t, (taskFork s p tsk).table q = some t ∧ Unprivileged t := fun q hq => by
    obtain ⟨t, ht, hu⟩ := h q hq
    have hqc : q ≠ c := fun he => by
      rw [he, hnone] at ht
      cases ht
    refine ⟨t, ?_, hu⟩
    rw [hfork, set_of_ne hqc, ctrlttyRefer_table]
    exact ht
  intro q hq
  rw [grow, hhalt'] at hq
  dsimp only at hq
  split at hq
  next hmem =>
    rw [hfree] at hq
    rcases mem_append.1 hq with hq | hq
    · obtain rfl : q = c := by simpa using hq
      obtain ⟨t, ht, hu⟩ := h p hmem
      rw [hp] at ht
      cases ht
      refine ⟨{ tsk with dead := false, didExec := false, ppid := p }, ?_, hu.ruid, hu.euid, hu.suid⟩
      rw [hfork]
      exact set_self _ _ _
    · exact hold q hq
  next => exact hold q hq

/-- One call keeps the family without privilege. -/
theorem FamOk.step {x x' : Sys × List Nat} {o : Nat × Call} (h : FamOk x) (ho : o.2.isId = true)
    (hs : famStep x o = some x') : FamOk x' := by
  obtain ⟨s, fam⟩ := x
  obtain ⟨p, c⟩ := o
  obtain ⟨s', hstep, rfl⟩ := Option.map_eq_some_iff.1 hs
  obtain ⟨-, tsk, hp, -, rfl⟩ := step_eq_some.1 hstep
  cases c with
  | setuid uid => exact FamOk.set h hp fun hu => hu.setuid uid
  | setgid gid => exact FamOk.set h hp fun hu => hu.setgid gid
  | setreuid ruid euid => exact FamOk.set h hp fun hu => hu.setreuid ruid euid
  | setregid rgid egid => exact FamOk.set h hp fun hu => hu.setregid rgid egid
  | fork => exact FamOk.fork h hp
  | setsid => cases ho
  | setpgid => cases ho
  | exit => cases ho
  | wait => cases ho
  | ttyOpen => cases ho

/-! ## Giving up user id 0 -/

/-- The call that gives up user id 0. -/
inductive Drops (tsk : Task) (u : Nat) : Call → Prop
  | setuid : Drops tsk u (.setuid u)
  | setreuid (hu : u ≠ NOID) (hsuid : tsk.suid ≠ 0) : Drops tsk u (.setreuid u u)

theorem Drops.unprivileged {u : Nat} {c : Call} (h : Drops tsk u c) (hu : u ≠ 0) (h0 : tsk.euid = 0) :
    ∃ new, (∀ s p, call s p tsk c = s.set p new) ∧ Unprivileged new := by
  cases h with
  | setuid =>
    refine ⟨_, fun _ _ => rfl, ?_⟩
    rw [Proc.setuid, if_pos h0]
    exact ⟨hu, hu, hu⟩
  | setreuid hne hsuid =>
    refine ⟨_, fun _ _ => rfl, ?_⟩
    rw [Proc.setreuid, if_neg fun h => h.1 h0]
    simp only [ne_eq, hne, not_false_eq_true, if_true]
    exact ⟨hu, hu, hsuid⟩

/-- **A task with effective user id 0 that gives it up with `setuid`, or with `setreuid` while its saved user id is not
0 either, has given it up for good**: after any sequence of id calls and forks of any tasks, neither the task nor one of
its descendants has it. -/
theorem drop_kept (s s₁ : Sys) (p u : Nat) (tsk : Task) (c : Call) (hp : s.table p = some tsk) (h0 : tsk.euid = 0)
    (hu : u ≠ 0) (hc : Drops tsk u c) (hs : step s (p, c) = some s₁) (os : List (Nat × Call))
    (hos : ∀ o ∈ os, o.2.isId = true) (s' : Sys) (fam : List Nat) (hr : run famStep (s₁, [p]) os = some (s', fam)) :
    p ∈ fam ∧ ∀ q ∈ fam, ∃ t, s'.table q = some t ∧ t.euid ≠ 0 := by
  obtain ⟨-, tsk', hp', -, rfl⟩ := step_eq_some.1 hs
  rw [hp] at hp'
  cases hp'
  obtain ⟨new, hcall, hnew⟩ := hc.unprivileged hu h0
  have hinit : FamOk (call s p tsk c, [p]) := fun q hq => by
    obtain rfl := mem_singleton.1 hq
    exact ⟨new, by rw [hcall]; exact set_self _ _ _, hnew⟩
  have hinv : FamOk (s', fam) ∧ p ∈ fam := by
    refine run_meets_inv (I := fun x => FamOk x ∧ p ∈ x.2) (C := fun _ o => o.2.isId = true) ?_
      ⟨hinit, mem_singleton_self p⟩ (meets_of_forall_mem _ hos) hr
    rintro x o x' ⟨hx, hmem⟩ ho hstep
    refine ⟨hx.step ho hstep, ?_⟩
    obtain ⟨s'', -, rfl⟩ := Option.map_eq_some_iff.1 hstep
    exact mem_grow _ _ _ hmem
  refine ⟨hinv.2, fun q hq => ?_⟩
  obtain ⟨t, ht, hunpriv⟩ := hinv.1 q hq
  exact ⟨t, ht, hunpriv.euid⟩

/-- A task with all ids 0 at the place 1, its parent is at the place 0. -/
def rootTask : Task := ⟨false, false, 0, 0, 0, 0, 0, 0, 1, 0, 1, none⟩

def rootSys : Sys := ⟨fun i => if i < 2 then some rootTask else none, fun _ => ⟨0, 0⟩, none⟩

/-- `setuid`, and then a child tries to get the id back. -/
theorem drop_kept_child : ∃ s₁ s', step rootSys (1, .setuid 1000) = some s₁ ∧
    run famStep (s₁, [1]) [(1, .fork), (2, .setuid 0), (2, .setreuid NOID 0)] = some (s', [2, 1]) ∧
    ∀ q ∈ [2, 1], ∃ t, s'.table q = some t ∧ t.euid ≠ 0 := by
  obtain ⟨s₁, hs₁⟩ : ∃ s₁, step rootSys (1, .setuid 1000) = some s₁ := ⟨_, rfl⟩
  obtain ⟨s', hr⟩ : ∃ s', run famStep (s₁, [1]) [(1, .fork), (2, .setuid 0), (2, .setreuid NOID 0)] =
    some (s', [2, 1]) := by
    cases hs₁
    exact ⟨_, rfl⟩
  exact ⟨s₁, s', hs₁, hr, (drop_kept rootSys s₁ 1 1000 rootTask _ rfl rfl (by decide) .setuid hs₁ _
    (by decide) s' _ hr).2⟩

/-- `setreuid` to 1000, and then `setuid` to the saved user id 0. -/
theorem drop_undone : (run step rootSys [(1, .setreuid 1000 1000)]).bind
    (fun s => (s.table 1).map Task.euid) = some 1000 ∧
    (run step rootSys [(1, .setreuid 1000 1000), (1, .setuid 0)]).bind
    (fun s => (s.table 1).map Task.euid) = some 0 := by
  decide

end TextOS.Proc
