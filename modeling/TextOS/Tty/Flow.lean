import TextOS.Tty.Line

/-!
# Flow control of a terminal: `kernel/dev/tty/tty.c`

Between a stop and a start the characters go to `obuf`; at the start `tstop` sends the places of `obuf` below `tail`,
but characters are put at `head`, and `tail` stays zero.

- **Without writes between a stop and a start, the characters sent are those written** (`flow_exact`); what is written
  in between is lost (`flow_lost`).
-/

namespace TextOS.Tty

open Lib List

/-- The flags `OPOST`, `OLCUC`, `ONLCR` and `IXON`. -/
structure Modes where
  opost : Bool
  olcuc : Bool
  onlcr : Bool
  ixon : Bool

/-- The output of `tty_t`: the characters that were sent, each with `stop` at that time. -/
structure Output where
  stop : Bool
  obuf : Buf
  sent : List (Nat × Bool)

/-- With a full buffer it does not return before a start. -/
def tputc (s : Output) (c : Nat) : Option Output :=
  if s.stop then
    if (s.obuf.head + 1) % TTY_BUFSIZ = s.obuf.tail then none else some { s with obuf := bufPutc s.obuf c }
  else some { s with sent := s.sent ++ [(c, s.stop)] }

/-- The character after `OLCUC`. -/
def olcuc (m : Modes) (c : Nat) : Nat := if m.opost ∧ m.olcuc ∧ 97 ≤ c ∧ c ≤ 122 then c - 32 else c

def opost (m : Modes) (s : Output) (c : Nat) : Option Output :=
  (if m.opost ∧ m.onlcr ∧ olcuc m c = 10 then tputc s 13 else some s).bind fun s => tputc s (olcuc m c)

def tstop (m : Modes) (s : Output) (st : Bool) : Output :=
  if !m.ixon then s
  else if st then { s with stop := true }
  else ⟨false, bufKill s.obuf, s.sent ++ (range s.obuf.tail).map fun i => (s.obuf.buf i, false)⟩

inductive FlowOp
  | write (c : Nat)
  | stop
  | start

def flowStep (m : Modes) (s : Output) : FlowOp → Option Output
  | .write c => opost m s c
  | .stop => some (tstop m s true)
  | .start => some (tstop m s false)

/-- The characters that are to be sent. -/
def FlowOp.posted (m : Modes) : FlowOp → List Nat
  | .write c => if m.opost ∧ m.onlcr ∧ olcuc m c = 10 then [13, olcuc m c] else [olcuc m c]
  | _ => []

/-- Nothing is written between a stop and a start. -/
def FlowOp.Flowing (s : Output) : FlowOp → Prop
  | .write _ => s.stop = false
  | _ => True

instance (s : Output) (o : FlowOp) : Decidable (o.Flowing s) := by
  unfold FlowOp.Flowing
  split <;> infer_instance

variable {m : Modes} {s : Output} {l : List Nat}

/-- The buffer is empty, and `l` was sent, nothing of it during a stop. -/
structure Sent (s : Output) (l : List Nat) : Prop where
  tail : s.obuf.tail = 0
  sent : s.sent = l.map fun c => (c, false)

theorem Sent.tputc (h : Sent s l) (hs : s.stop = false) (c : Nat) :
    ∃ s', tputc s c = some s' ∧ s'.stop = false ∧ Sent s' (l ++ [c]) := by
  refine ⟨{ s with sent := s.sent ++ [(c, s.stop)] }, ?_, hs, h.tail, ?_⟩
  · rw [Tty.tputc, if_neg (by simp [hs])]
  · simp [h.sent, hs]

theorem Sent.opost (h : Sent s l) (hs : s.stop = false) (c : Nat) :
    ∃ s', opost m s c = some s' ∧ Sent s' (l ++ FlowOp.posted m (.write c)) := by
  rw [Tty.opost, FlowOp.posted]
  split
  · obtain ⟨s1, hs1, hstop, h1⟩ := h.tputc hs 13
    obtain ⟨s2, hs2, -, h2⟩ := h1.tputc hstop (olcuc m c)
    rw [append_assoc] at h2
    exact ⟨s2, by rw [hs1, Option.bind_some, hs2], h2⟩
  · obtain ⟨s1, hs1, -, h1⟩ := h.tputc hs (olcuc m c)
    exact ⟨s1, hs1, h1⟩

theorem Sent.tstop (h : Sent s l) (st : Bool) : Sent (tstop m s st) l := by
  rw [Tty.tstop]
  split
  · exact h
  split
  · exact ⟨h.tail, h.sent⟩
  · refine ⟨rfl, ?_⟩
    simp [h.tail, h.sent]

theorem Sent.step (s : Output) (l : List Nat) (o : FlowOp) (h : Sent s l) (hc : o.Flowing s) :
    ∃ s', flowStep m s o = some s' ∧ Sent s' (l ++ o.posted m) := by
  cases o with
  | write c => exact h.opost hc c
  | stop => exact ⟨_, rfl, by simpa [FlowOp.posted] using h.tstop (m := m) true⟩
  | start => exact ⟨_, rfl, by simpa [FlowOp.posted] using h.tstop (m := m) false⟩

/-- **Flow control**: without writes between a stop and the next start, the characters that are sent are those that were
written, in their order and each once, and none is sent during a stop. -/
theorem flow_exact (m : Modes) (b : Buf) (os : List FlowOp)
    (hos : Meets (flowStep m) (fun s o => o.Flowing s) ⟨false, bufKill b, []⟩ os) :
    ∃ s, run (flowStep m) ⟨false, bufKill b, []⟩ os = some s ∧ s.sent = (os.flatMap (FlowOp.posted m)).map fun c =>
    (c, false) := by
  obtain ⟨s, hr, h⟩ := run_meets_sim (Sent.step (m := m)) ⟨rfl, rfl⟩ hos (t := [])
  refine ⟨s, hr, ?_⟩
  rw [h.sent, flatMap_eq_foldl]

/-- A terminal as `tty_register` sets it up. -/
def plainModes : Modes := ⟨true, false, true, true⟩

theorem flow_exact_lines : ∃ s, run (flowStep plainModes) ⟨false, bufKill emptyBuf, []⟩ [.write 97, .stop,
    .start, .write 10] = some s ∧ s.sent = [(97, false), (13, false), (10, false)] :=
  flow_exact plainModes emptyBuf [.write 97, .stop, .start, .write 10] (by decide)

/-- A character that is written between a stop and a start is not sent. -/
theorem flow_lost : (run (flowStep plainModes) ⟨false, bufKill emptyBuf, []⟩ [.stop, .write 97,
    .start]).map Output.sent = some [] := by
  decide

end TextOS.Tty
