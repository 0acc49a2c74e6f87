import TextOS.Stdio.Buffered

/-!
# Pushing a byte back: `app/libc/stdio/ungetc.c`

`ungetc` calls `__toread`, which gives up what is left in the buffer.

- **the byte is read first and then all that would have been read without it, if and only if nothing is left in the
  buffer** (`ungetc_restores`); otherwise bytes are lost (`ungetc_loses`).
-/

namespace TextOS.Stdio

open Lib List

variable {ω : Nat → Nat} {m : Bool × Bool} {s s' : Stream} {t : Plain}

/-- `ungetc` of a byte; `none` is `EOF`. Behind `__toread` the pointer is at the end of the buffer, which is not empty.
-/
def Stream.ungetc (ω : Nat → Nat) (s : Stream) (c : UInt8) : Option (Stream × Option UInt8) := do
  let (s, eof) ← s.toread ω
  if eof then return (s, none)
  let p := s.rpos.getD 0 - 1
  return ({ s with buf := s.buf.set p c, rpos := some p, eof := false }, some c)

theorem toread_rpos {eof : Bool} (hn : s.nord = false) (h : s.toread ω = some (s', eof)) :
    s'.rpos = some s'.bufsz ∧ s'.rend = some s'.bufsz := by
  by_cases hw : s.wbase = s.wpos
  · rw [toread_clean hn hw] at h
    cases h
    exact ⟨rfl, rfl⟩
  obtain ⟨calls, ht⟩ := toread_dirty (ω := ω) hn hw
  rw [ht] at h
  cases h
  exact ⟨rfl, rfl⟩

/-- What a sequence of functions returns on the plain file. -/
def Plain.outs : Plain → List Op → List Out
  | _, [] => []
  | t, o :: os => (t.step o).2 :: outs (t.step o).1 os

/-- Reads of a stream return what they return on its file. -/
theorem Rel.run_reads (h : Rel m s t) {os : List Op} (hos : ∀ o ∈ os, o.Reads) (outs : List Out) :
    ∃ x, run (Sys.step ω) ⟨s, true, outs⟩ os = some x ∧ x.outs = outs ++ t.outs os := by
  induction os generalizing s t outs with
  | nil => exact ⟨_, rfl, (append_nil outs).symm⟩
  | cons o os ih =>
    obtain ⟨ho, hos⟩ := forall_mem_cons.1 hos
    obtain ⟨f, hs, hf⟩ := h.step_read (ω := ω) ho true outs
    obtain ⟨x, hx, he⟩ := ih hf hos (outs ++ [(t.step o).2])
    exact ⟨x, run_cons.2 ⟨_, hs, hx⟩, by rw [he, append_assoc]; rfl⟩

/-- The characters that `fgetc` returns up to the end of the file are the rest of the file. -/
theorem rest_eq_of_outs {u : Plain} (h : ∀ n, t.outs (replicate n .fgetc) = u.outs (replicate n .fgetc)) :
    t.rest = u.rest := by
  induction hr : t.rest generalizing t u with
  | nil =>
    have h1 := h 1
    simp only [replicate_one, Plain.outs, Plain.step, hr, head?_nil, cons.injEq, Out.char.injEq, and_true] at h1
    exact (head?_eq_none_iff.1 h1.symm).symm
  | cons b rest ih =>
    have h1 := h 1
    simp only [replicate_one, Plain.outs, Plain.step, hr, head?_cons, cons.injEq, Out.char.injEq, and_true] at h1
    obtain ⟨rest', hu⟩ := head?_eq_some_iff.1 h1.symm
    have htail := ih (t := t.skip 1) (u := u.skip 1) (fun n => ?_) (by rw [Plain.rest_skip, hr]; rfl)
    · rw [Plain.rest_skip, hu] at htail
      rw [hu, htail]
      rfl
    · have hn := h (n + 1)
      simp only [replicate_succ, Plain.outs, Plain.step, hr, hu] at hn
      exact (cons.inj hn).2

/-- The file that the stream is after `ungetc` and `fgetc`: its position is that of the descriptor. -/
theorem ungetc_fgetc {s₁ : Stream} {c : UInt8} (h : Rel m s t) (hu : s.ungetc ω c = some (s₁, some c)) :
    ∃ s₂, s₁.fgetc ω = some (s₂, some c) ∧ Rel m s₂ (t.skip s.unread.length) := by
  obtain ⟨u, ht, hrel, hd⟩ : ∃ u, s.toread ω = some (u, u.eof) ∧ Rel m u (t.skip s.unread.length) ∧ Drained u := by
    by_cases hleft : s.rpos = s.rend
    · have hnil : s.unread = [] := by simp [Stream.unread, dist, hleft]
      rw [hnil]
      exact h.toread hleft
    · obtain ⟨hmoved, hd⟩ := (h.unread hleft).2.2 _ le_rfl
      obtain ⟨-, -, hwpos, -, hwbase, -⟩ := hmoved.drained (hd rfl)
      have hclean : s.wbase = s.wpos := hwbase.trans hwpos.symm
      obtain ⟨a, hr, he⟩ := hd rfl
      obtain ⟨u, ht, hu⟩ := hmoved.toread (ω := ω) (hr.trans he.symm)
      rw [toread_clean hmoved.nord hclean] at ht
      exact ⟨u, (toread_clean h.nord hclean).trans ht, hu⟩
  obtain ⟨hdata, hoff, hwpos, hwend, hwbase, -⟩ := hrel.drained hd
  obtain ⟨hrpos, hrend⟩ := toread_rpos h.nord ht
  have hset : Rel m { u with buf := u.buf.set (u.bufsz - 1) c, eof := false } (t.skip s.unread.length) := by
    refine ⟨hrel.nord, hrel.modes, hrel.bufsz.trans_eq length_set.symm, ?_⟩
    refine .reading u.bufsz u.bufsz hrpos hrend hwpos hwend hwbase le_rfl (fun he => by cases he) hdata ?_
      (by simp) (by simp)
    rw [Nat.sub_self]
    exact hoff
  rw [Stream.ungetc, ht, Option.bind_eq_bind, Option.bind_some] at hu
  dsimp only at hu
  split at hu
  · cases hu
  cases hu
  have hpos : u.bufsz - 1 < u.bufsz := Nat.sub_lt hrel.bufsz one_pos
  have hback : u.bufsz - 1 + 1 = u.bufsz := Nat.sub_add_cancel hrel.bufsz
  refine ⟨_, ?_, hset⟩
  simp only [Stream.fgetc, hrpos, hrend, Option.getD_some, Option.map_some, hback]
  rw [if_pos (by simp [hpos.ne]), getD_eq_getElem?_getD, getElem?_set_self hpos]
  rfl

/-- **The byte that is pushed back is read first, and all later reads return what they would have returned without it,
if and only if nothing is left in the buffer.** -/
theorem ungetc_restores (ω : Nat → Nat) (m : Bool × Bool) (s s₁ : Stream) (t : Plain) (c : UInt8) (h : Rel m s t)
    (hu : s.ungetc ω c = some (s₁, some c)) :
    (∃ s₂, s₁.fgetc ω = some (s₂, some c) ∧ ∀ os : List Op, (∀ o ∈ os, o.Reads) → ∃ x x',
      run (Sys.step ω) ⟨s, true, []⟩ os = some x ∧ run (Sys.step ω) ⟨s₂, true, []⟩ os = some x' ∧ x'.outs = x.outs) ↔
    s.rpos = s.rend := by
  obtain ⟨s₂, hc, hrel⟩ := ungetc_fgetc h hu
  constructor
  · rintro ⟨s₃, hc', hsame⟩
    cases hc.symm.trans hc'
    by_contra hne
    obtain ⟨hnil, htake, -⟩ := h.unread hne
    have hrest : t.rest = (t.skip s.unread.length).rest := by
      refine rest_eq_of_outs fun n => ?_
      have hos : ∀ o ∈ replicate n Op.fgetc, o.Reads := fun o ho => (eq_of_mem_replicate ho).symm ▸ trivial
      obtain ⟨x, x', hx, hx', he⟩ := hsame _ hos
      obtain ⟨y, hy, hyo⟩ := h.run_reads (ω := ω) hos []
      obtain ⟨y', hy', hyo'⟩ := hrel.run_reads (ω := ω) hos []
      cases hx.symm.trans hy
      cases hx'.symm.trans hy'
      exact (hyo.symm.trans he.symm).trans hyo'
    have hlen := congrArg length hrest
    have hpos := length_pos_iff.2 hnil
    have hle := congrArg length htake
    rw [Plain.rest_skip, length_drop] at hlen
    rw [length_take] at hle
    omega
  · intro hleft
    have hnil : s.unread = [] := by simp [Stream.unread, dist, hleft]
    rw [hnil] at hrel
    refine ⟨s₂, hc, fun os hos => ?_⟩
    obtain ⟨x, hx, he⟩ := h.run_reads (ω := ω) hos []
    obtain ⟨x', hx', he'⟩ := hrel.run_reads (ω := ω) hos []
    exact ⟨x, x', hx, hx', he'.trans he.symm⟩

/-- A byte is pushed back before anything is read from a file of two bytes. -/
theorem ungetc_restores_fresh : ∃ s₂, (((fdopen [1, 2] 0 [0, 0] (-1)).ungetc (fun _ => 9) 7).bind fun u =>
    u.1.fgetc fun _ => 9) = some (s₂, some 7) ∧ ∃ x', run (Sys.step fun _ => 9) ⟨s₂, true, []⟩
    [.fgetc, .fread 1 5] = some x' ∧
      x'.outs = [.char (some 1), .items [2] 1] := by
  obtain ⟨s₁, hu⟩ : ∃ s₁, (fdopen [1, 2] 0 [0, 0] (-1)).ungetc (fun _ => 9) 7 = some (s₁, some 7) := ⟨_, rfl⟩
  obtain ⟨s₂, hc, hrun⟩ := ungetc_restores (fun _ => 9) (false, false) _ s₁ ⟨[1, 2], 0⟩ 7
    ⟨rfl, rfl, by decide, .idle rfl rfl rfl rfl rfl rfl rfl rfl⟩ hu |>.2 rfl
  obtain ⟨x, x', hx, hx', he⟩ := hrun [.fgetc, .fread 1 5] (by simp [Op.Reads])
  have hout : (run (Sys.step fun _ => 9) ⟨fdopen [1, 2] 0 [0, 0] (-1), true, []⟩ [.fgetc, .fread 1 5]).map Sys.outs =
      some [.char (some 1), .items [2] 1] := by decide
  rw [hx] at hout
  exact ⟨s₂, by rw [hu]; exact hc, x', hx', he.trans (Option.some.inj hout)⟩

/-- Two of three bytes are left when the first one is pushed back: it is read again, and then the end of the file. -/
theorem ungetc_loses :
    (((fdopen [1, 2, 3] 0 [0, 0, 0, 0] (-1)).fgetc fun _ => 9).bind fun r =>
      (r.1.ungetc (fun _ => 9) 1).bind fun u => run (Sys.step fun _ => 9) ⟨u.1, true, []⟩
      [.fgetc, .fgetc]).map Sys.outs =
        some [.char (some 1), .char none] ∧
    (((fdopen [1, 2, 3] 0 [0, 0, 0, 0] (-1)).fgetc fun _ => 9).bind fun r =>
      run (Sys.step fun _ => 9) ⟨r.1, true, []⟩ [.fgetc]).map Sys.outs = some [.char (some 2)] := by
  decide

end TextOS.Stdio
