import TextOS.Proc.Defs

/-!
# Process groups and sessions: `kernel/task.c`

- `GroupInv s`: all tasks of a group, also those that have exited, are in one session;
- `Orderly`: no group has the id of a task that calls `setsid`, and `setpgid` names a task that leads its group, or a
  group without tasks;
- **over every run of orderly calls two tasks of a group are in the same session** (`groups_nested`); otherwise
  `setpgid` makes a group with the id of a task that is not in it, and this task then makes a session of the same id
  (`group_in_two_sessions`).
-/

namespace TextOS.Proc

open Lib Function Option

variable {s s' : Sys} {tsk : Task} {p : Nat}

/-- Group and session of a task. -/
def ids (s : Sys) (i : Nat) : Option (Nat × Nat) := (s.table i).map fun t => (t.pgid, t.sid)

structure GroupInv (s : Sys) : Prop where
  bound : ∀ q, ids s q ≠ none → q < TASK_MAX
  nested : ∀ q r g a b, ids s q = some (g, a) → ids s r = some (g, b) → a = b

theorem GroupInv.of_ids (h : GroupInv s) (hi : ∀ q, ids s' q = ids s q) : GroupInv s' := by
  refine ⟨fun q hq => h.bound q (by rwa [← hi]), fun q r g a b hq hr => ?_⟩
  rw [hi] at hq hr
  exact h.nested q r g a b hq hr

theorem ids_set (s : Sys) (p : Nat) (t : Task) (q : Nat) :
    ids (s.set p t) q = if q = p then some (t.pgid, t.sid) else ids s q := by
  rw [ids]
  split
  next h => rw [h, set_self, map_some]
  next h => rw [set_of_ne h, ids]

/-- A task gets another group and session; all others of the group are in the session. -/
theorem GroupInv.set (h : GroupInv s) {t : Task} (hp : p < TASK_MAX)
    (ht : ∀ q, q ≠ p → ∀ b, ids s q = some (t.pgid, b) → b = t.sid) : GroupInv (s.set p t) := by
  refine ⟨fun q hq => ?_, fun q r g a b hq hr => ?_⟩
  · by_cases hqp : q = p
    · rwa [hqp]
    · rw [ids_set, if_neg hqp] at hq
      exact h.bound q hq
  rw [ids_set] at hq hr
  split at hq
  next =>
    obtain ⟨rfl, rfl⟩ := Prod.mk.inj (some.inj hq)
    split at hr
    next => exact (Prod.mk.inj (some.inj hr)).2
    next hrp => exact (ht r hrp b hr).symm
  next hqp =>
    split at hr
    next =>
      obtain ⟨rfl, rfl⟩ := Prod.mk.inj (some.inj hr)
      exact ht q hqp a hq
    next => exact h.nested q r g a b hq hr

theorem GroupInv.keep (h : GroupInv s) {t : Task} (hp : s.table p = some tsk) (hg : t.pgid = tsk.pgid)
    (hs : t.sid = tsk.sid) : GroupInv (s.set p t) := by
  refine h.of_ids fun q => ?_
  rw [ids_set]
  split
  next hq => rw [hq, ids, hp, map_some, hg, hs]
  next => rfl

theorem ids_ctrlttyDetach (hp : s.table p = some tsk) (q : Nat) : ids (ctrlttyDetach s p tsk) q = ids s q := by
  rw [ctrlttyDetach]
  split
  next => rfl
  next =>
    split
    next => rfl
    next =>
      by_cases hq : q = p
      · subst hq
        simp only [ids, update_self, hp, map_some]
      simp only [ids, update_of_ne hq, map_map]
      congr 1
      funext t
      simp only [Function.comp_apply]
      split <;> rfl

theorem ids_ctrlttyRefer (s : Sys) (tsk : Task) (q : Nat) : ids (ctrlttyRefer s tsk) q = ids s q := by
  rw [ids, ctrlttyRefer_table, ids]

/-! ## Calls -/

/-- The task that `setpgid` names leads its group, or nobody is in the group. -/
def Led (s : Sys) (g : Nat) : Prop :=
  (∃ t ∈ s.table g, t.pgid = g) ∨ ∀ q < TASK_MAX, ∀ t ∈ s.table q, t.pgid ≠ g

instance (g : Nat) : Decidable (Led s g) := inferInstanceAs (Decidable (_ ∨ _))
def Orderly (s : Sys) (o : Nat × Call) : Prop :=
  match o.2 with
  | .setsid => ∀ q < TASK_MAX, q ≠ o.1 → ∀ t ∈ s.table q, t.pgid ≠ o.1
  | .setpgid _ pgid => Led s (if pgid = 0 then o.1 else pgid.toNat)
  | _ => True

instance : DecidablePred (Orderly s)
  | (_, .setuid _) | (_, .setgid _) | (_, .setreuid _ _) | (_, .setregid _ _) | (_, .setsid) | (_,
      .setpgid _ _) | (_, .fork)
  | (_, .exit) | (_, .wait _) | (_, .ttyOpen _) => by dsimp only [Orderly]; infer_instance

theorem GroupInv.fork (h : GroupInv s) (hp : s.table p = some tsk) : GroupInv (taskFork s p tsk) := by
  rcases taskFork_cases s p tsk with ⟨-, htable⟩ | ⟨c, hfree, -, hfork⟩
  · exact h.of_ids fun q => by rw [ids, htable, ids]
  rw [hfork]
  refine (h.of_ids (ids_ctrlttyRefer s tsk)).set (getfree_eq_some hfree).1 fun q _ b hq => ?_
  rw [ids_ctrlttyRefer] at hq
  exact h.nested q p tsk.pgid b tsk.sid hq (by rw [ids, hp, map_some])

/-- An exit keeps the groups. -/
theorem GroupInv.exit (h : GroupInv s) (hp : s.table p = some tsk) : GroupInv (taskExit s p tsk) := by
  rw [taskExit]
  split
  next => exact h.of_ids fun _ => rfl
  next =>
    have h1 : GroupInv (s.set p { tsk with dead := true }) := h.keep hp rfl rfl
    have h2 := h1.of_ids (ids_ctrlttyDetach (set_self s p { tsk with dead := true }))
    dsimp only
    split
    next => exact h2
    next =>
      split
      next => exact h2.of_ids fun _ => rfl
      next =>
        refine h2.of_ids fun q => ?_
        simp only [ids, map_map]
        congr 1
        funext t
        simp only [Function.comp_apply]
        split <;> rfl

/-- A reaped task leaves its group. -/
theorem GroupInv.reap (h : GroupInv s) (p c : Nat) : GroupInv (taskReap s p c) := by
  have hsub : ∀ q x, ids { s with table := update s.table c none } q = some x → ids s q = some x := fun q x hq => by
    by_cases hqc : q = c
    · subst hqc
      simp [ids] at hq
    · simpa only [ids, update_of_ne hqc] using hq
  rw [taskReap]
  split
  next => exact h
  next =>
    split
    next =>
      refine ⟨fun q hq => ?_, fun q r g a b hq hr => h.nested q r g a b (hsub q _ hq) (hsub r _ hr)⟩
      obtain ⟨x, hx⟩ := ne_none_iff_exists'.1 hq
      exact h.bound q (by rw [hsub q x hx]; nofun)
    next => exact h

/-- A new session's leader leads a group of its own. -/
theorem GroupInv.setsid (h : GroupInv s) (hp : s.table p = some tsk) (ho : Orderly s (p, .setsid)) :
    GroupInv (setsid s p tsk).1 := by
  have hd := h.of_ids (ids_ctrlttyDetach hp)
  rw [Proc.setsid]
  split
  next => exact h
  next =>
    dsimp only
    split
    next => exact hd
    next =>
      refine hd.set (h.bound p (by rw [ids, hp]; nofun)) fun q hq b hb => ?_
      rw [ids_ctrlttyDetach hp] at hb
      obtain ⟨t, ht, hb⟩ := map_eq_some_iff.1 hb
      exact absurd (Prod.mk.inj hb).1 (ho q (h.bound q (by rw [ids, ht]; nofun)) hq t ht)

/-- `setpgid` moves a task inside its session. -/
theorem GroupInv.setpgid (h : GroupInv s) {pid pgid : Int} (ho : Orderly s (p, .setpgid pid pgid)) :
    GroupInv (setpgid s p pid pgid).1 := by
  rcases setpgid_cases s p pid pgid with heq | ⟨q, g, ptsk, ltsk, hg, hq, hqt, hgt, hsid, heq⟩
  · rwa [heq]
  rw [heq]
  refine h.set hq fun r _ b hb => ?_
  have hled : Led s g := by
    rw [hg]
    exact ho
  rcases hled with ⟨t, ht, hlead⟩ | hnone
  · -- the leader is in the group, and the session is the leader's
    rw [hgt] at ht
    cases ht
    rw [hsid]
    exact h.nested r g g b ltsk.sid hb (by rw [ids, hgt, map_some, hlead])
  · obtain ⟨t, ht, hb⟩ := map_eq_some_iff.1 hb
    exact absurd (Prod.mk.inj hb).1 (hnone r (h.bound r (by rw [ids, ht]; nofun)) t ht)

theorem GroupInv.ttyOpen (h : GroupInv s) (hp : s.table p = some tsk) (t : Nat) : GroupInv (ttyInitPctx s p tsk t) := by
  rw [ttyInitPctx]
  split
  next =>
    have hkeep : GroupInv (s.set p { tsk with ctrltty := some t }) := h.keep hp rfl rfl
    exact hkeep.of_ids fun _ => rfl
  next => exact h

/-- One call keeps the groups. -/
theorem GroupInv.step {o : Nat × Call} (h : GroupInv s) (ho : Orderly s o) (hs : step s o = some s') : GroupInv s' := by
  obtain ⟨-, tsk, hp, -, rfl⟩ := step_eq_some.1 hs
  obtain ⟨p, c⟩ := o
  cases c with
  | setuid uid => exact h.keep hp (setuid_sameJob tsk uid).pgid (setuid_sameJob tsk uid).sid
  | setgid gid => exact h.keep hp (setgid_sameJob tsk gid).pgid (setgid_sameJob tsk gid).sid
  | setreuid ruid euid => exact h.keep hp (setreuid_sameJob tsk ruid euid).pgid (setreuid_sameJob tsk ruid euid).sid
  | setregid rgid egid => exact h.keep hp (setregid_sameJob tsk rgid egid).pgid (setregid_sameJob tsk rgid egid).sid
  | setsid => exact h.setsid hp ho
  | setpgid pid pgid => exact h.setpgid ho
  | fork => exact h.fork hp
  | exit => exact h.exit hp
  | wait c => exact h.reap p c
  | ttyOpen t => exact h.ttyOpen hp t

/-! ## Runs from one task -/

/-- **Process groups nest in sessions**: over every run of orderly calls from a system with one task, two tasks of a
group, also if one has exited, are in the same session. -/
theorem groups_nested (s s' : Sys) (p : Nat) (hp : p < TASK_MAX) (hone : ∀ q, s.table q ≠ none → q = p)
    (os : List (Nat × Call)) (hos : Meets step Orderly s os) (hr : run step s os = some s') (q r : Nat) (a b : Task)
    (hq : s'.table q = some a) (hrb : s'.table r = some b) (hg : a.pgid = b.pgid) : a.sid = b.sid := by
  have hids : ∀ q x, ids s q = some x → q = p := fun q x hx => by
    obtain ⟨t, ht, -⟩ := map_eq_some_iff.1 hx
    exact hone q (by rw [ht]; nofun)
  have h0 : GroupInv s := by
    refine ⟨fun q hq => ?_, fun q r g a b hq hr => ?_⟩
    · obtain ⟨x, hx⟩ := ne_none_iff_exists'.1 hq
      rw [hids q x hx]
      exact hp
    rw [hids q _ hq] at hq
    rw [hids r _ hr, hq] at hr
    exact (Prod.mk.inj (some.inj hr)).2
  have hinv := run_meets_inv (I := GroupInv) (fun _ _ _ hi ho hs => hi.step ho hs) h0 hos hr
  refine hinv.nested q r a.pgid a.sid b.sid ?_ ?_
  · rw [ids, hq, map_some]
  · rw [ids, hrb, map_some, hg]

/-- One task at the place 0, the leader of its group and session. -/
def firstSys : Sys := ⟨fun i => if i = 0 then some ⟨false, false, 0, 0, 0, 0, 0, 0, 0, 0, 0, none⟩ else none,
    fun _ => ⟨0, 0⟩, none⟩

/-- A child makes a session, in which its child makes a group. -/
theorem groups_nested_child : ∃ s' a b, run step firstSys [(0, .fork), (1, .setsid), (1, .fork), (1, .setpgid 2 2),
      (2, .fork)] = some s' ∧ s'.table 2 = some a ∧ s'.table 3 = some b ∧ a.pgid = 2 ∧ b.pgid = 2 ∧ a.sid = b.sid := by
  refine ⟨_, _, _, rfl, rfl, rfl, rfl, rfl, ?_⟩
  exact groups_nested firstSys _ 0 (by decide) (fun q hq => by simpa [firstSys] using hq)
    [(0, .fork), (1, .setsid), (1, .fork), (1, .setpgid 2 2), (2, .fork)] (by decide) rfl 2 3 _ _ rfl rfl rfl

/-- The first task puts its second child into the group of its first child, which is not in this group itself and then
makes a session. -/
theorem group_in_two_sessions : (run step firstSys [(0, .fork), (0, .fork), (0, .setpgid 2 1), (1, .setsid)]).map
      (fun s => [1, 2].map fun i => (s.table i).map fun t => (t.dead, t.pgid, t.sid)) =
    some [some (false, 1, 1), some (false, 1, 0)] := by
  decide

end TextOS.Proc
