import TextOS.Net.TcpRx

/-!
# The end of the received stream

A `FIN` moves a connection on, in order or not: `tcp_rx_data` does not tell its callers whether it took the segment.

- **if no `FIN` comes too early or twice, then the connection moves to `CLOSE_WAIT`, `CLOSING` or `TIME_WAIT` only with
  the whole stream received** (`fin_last`); otherwise the bytes before the `FIN` are lost (`fin_early`).
-/

namespace TextOS.Net

open Lib List

variable {t t' : Tcp} {seg : Seg} {acts : List Act} {tick : UInt32}

/-- A segment for a connection: the tick count and the segment. -/
def rxStep (self : Nat) (t : Tcp) (e : UInt32 × Seg) : Option Tcp := (tcpRx e.1 self t e.2).map Prod.fst

/-- A connection is in one of the states to which a `FIN` leads. -/
def St.ended : St → Bool
  | .closeWait | .closing | .timeWait => true
  | _ => false

/-- A segment of the peer: one with `SYN` or `RST`, or a piece of the stream, with its length in sequence numbers. -/
def Peer (stream : List UInt8) (irs : UInt32) (seg : Seg) : Prop :=
  seg.hdr.syn = true ∨ seg.hdr.rst = true ∨
    Carries stream irs seg ∧ seg.seqlen = .ofNat seg.buf.bytes.length + if seg.hdr.fin then 1 else 0

/-- A `FIN` is at its place in the stream when data is received. -/
def FinInOrder (t : Tcp) (seg : Seg) : Prop :=
  t.state.open = true → seg.hdr.fin = true → seg.hdr.syn = false → seg.hdr.rst = false → seg.seqnr = t.rcv.nxt
deriving Decidable

/-- What a segment with `SYN` or `RST` leaves. -/
structure Flagged (t t' : Tcp) : Prop where
  rcv : t'.rcv = t.rcv
  connected : t'.state.connected = true
  opened : t'.state.open = t.state.open

theorem Flagged.of_state (hrcv : t'.rcv = t.rcv) (hst : t'.state = t.state) (hc : t.state.connected = true) :
    Flagged t t' :=
  ⟨hrcv, hst ▸ hc, by rw [hst]⟩

theorem Flagged.of_shut (hrcv : t'.rcv = t.rcv) (hs : Shuts t.state t'.state) (hc : t.state.connected = true) :
    Flagged t t' := by
  rcases hs with hs | ⟨h, hs⟩ | ⟨h, hs⟩
  · exact .of_state hrcv hs hc
  · exact ⟨hrcv, by rw [hs]; rfl, by rw [hs, h]; rfl⟩
  · exact ⟨hrcv, by rw [hs]; rfl, by rw [hs, h]; rfl⟩

theorem Flagged.of_last (h : Ends seg t t' acts) (hopen : t.state.open = false) (hc : t.state.connected = true) :
    Flagged t t' := by
  rcases h.state with hs | hs | hs
  · exact .of_state h.rcv hs hc
  · exact ⟨h.rcv, by rw [hs]; rfl, by rw [hs, hopen]; rfl⟩
  · exact ⟨h.rcv, by rw [hs]; rfl, by rw [hs, hopen]; rfl⟩

/-- In `CLOSE_WAIT` no segment adds to what was received. -/
theorem tcpRxClosewait_flagged (hc : t.state.connected = true) (h : tcpRxClosewait t seg = some (t', acts)) :
    Flagged t t' := by
  unfold tcpRxClosewait at h
  obtain ⟨u, hu⟩ : ∃ u, u = if seg.hdr.rst then tcpExitWith t (-104) else t := ⟨_, rfl⟩
  have hsame : u.rcv = t.rcv ∧ u.state = t.state := by
    rw [hu]
    split <;> exact ⟨rfl, rfl⟩
  rw [← hu] at h
  dsimp only at h
  split at h
  · cases h
    exact .of_state hsame.1 hsame.2 hc
  have ha := ack_spec u seg seg.hdr.ack
  split at h
  · cases h
  · rw [Option.some.inj h] at ha
    exact .of_shut (ha.rcv.trans hsame.1) (hsame.2 ▸ ha.state) hc

/-- **A segment with `SYN` or `RST` adds nothing to what was received**, and does not end it. -/
theorem tcpRx_flagged {self : Nat} (hc : t.state.connected = true) (hflag : seg.hdr.syn = true ∨ seg.hdr.rst = true)
    (h : tcpRx tick self t seg = some (t', acts)) : Flagged t t' := by
  have hopen : tcpRxEstablished t seg = some (t', acts) ∨ tcpRxFinwait t seg = some (t', acts) → Flagged t t' := by
    rw [tcpRxEstablished, tcpRxFinwait]
    by_cases hrst : seg.hdr.rst = true
    · rw [if_pos hrst, if_pos hrst, or_self]
      rintro ⟨⟩
      exact .of_state rfl rfl hc
    have hsyn := hflag.resolve_right hrst
    rw [if_neg hrst, if_neg hrst, if_pos hsyn, if_pos hsyn, or_self]
    rintro ⟨⟩
    exact .of_state rfl rfl hc
  unfold tcpRx at h
  cases hst : t.state with
  | synSent => rw [hst] at hc; cases hc
  | synRcvd => rw [hst] at hc; cases hc
  | listen => rw [hst] at hc; cases hc
  | established => rw [hst] at h; exact hopen (.inl h)
  | closeWait => rw [hst] at h; exact tcpRxClosewait_flagged hc h
  | lastAck => exact .of_last (tcpRx_ends (by simp [hst]) h) (by rw [hst]; rfl) hc
  | finWait1 => rw [hst] at h; exact hopen (.inr h)
  | finWait2 => rw [hst] at h; exact hopen (.inr h)
  | closing => exact .of_last (tcpRx_ends (by simp [hst]) h) (by rw [hst]; rfl) hc
  | timeWait => exact .of_last (tcpRx_ends (by simp [hst]) h) (by rw [hst]; rfl) hc
  | closed =>
    rw [hst] at h
    cases h
    exact .of_state rfl rfl hc

/-- The connection has received the stream from byte `k₀` on: up to `k` while it is open, and then to the end. -/
structure Upto (stream : List UInt8) (irs : UInt32) (before : List UInt8) (k₀ : Nat) (t : Tcp) : Prop where
  connected : t.state.connected = true
  opened : t.state.open = true → ∃ k, k₀ ≤ k ∧ k ≤ stream.length ∧ t.rcv.nxt = irs + 1 + .ofNat k ∧
    received t = before ++ (stream.take k).drop k₀
  ended : t.state.open = false → received t = before ++ stream.drop k₀

variable {stream before : List UInt8} {irs : UInt32} {k₀ : Nat}

theorem received_congr (h : t'.rcv = t.rcv) : received t' = received t := by rw [received, received, h]

theorem Upto.flagged (h : Upto stream irs before k₀ t) (hf : Flagged t t') : Upto stream irs before k₀ t' where
  connected := hf.connected
  opened ho := by
    rw [hf.rcv, received_congr hf.rcv]
    exact h.opened (hf.opened ▸ ho)
  ended ho := by
    rw [received_congr hf.rcv]
    exact h.ended (hf.opened ▸ ho)

/-- One segment of the peer keeps what has been received a beginning of its stream. -/
theorem Upto.step {self : Nat} (hN : stream.length < 2 ^ 32 - 2) (h : Upto stream irs before k₀ t)
    (hpeer : Peer stream irs seg) (hord : FinInOrder t seg) (hr : tcpRx tick self t seg = some (t', acts)) :
    Upto stream irs before k₀ t' := by
  by_cases hflag : seg.hdr.syn = true ∨ seg.hdr.rst = true
  · exact h.flagged (tcpRx_flagged h.connected hflag hr)
  obtain ⟨hsyn, hrst⟩ : seg.hdr.syn = false ∧ seg.hdr.rst = false := by simpa using hflag
  obtain ⟨hcar, hlen⟩ : Carries stream irs seg ∧ _ := (hpeer.resolve_left (by simp [hsyn])).resolve_left
    (by simp [hrst])
  have hh := tcpRx_spec hsyn hrst h.connected hr
  cases hopen : t.state.open with
  | false =>
    have hrcv := hh.rcv
    rw [hopen, if_neg Bool.false_ne_true] at hrcv
    have hclosed : t'.state.open = false := by
      by_contra ho
      have := (hh.closes (by simpa using ho)).1
      rw [hopen] at this
      cases this
    refine ⟨hh.connected, fun ho => ?_, fun _ => ?_⟩
    · rw [hclosed] at ho
      cases ho
    · rw [received_congr hrcv]
      exact h.ended hopen
  | true =>
    have hrcv := hh.rcv
    rw [hopen, if_pos rfl] at hrcv
    obtain ⟨k, hk0, hk, hnxt, hrec⟩ := h.opened hopen
    by_cases hseq : seg.seqnr = t.rcv.nxt
    · obtain ⟨hpiece, hfin, hrec', hnxt'⟩ := inOrder_after hN hk hnxt hcar hlen hseq hrcv
      have hle := hpiece.length_le
      rw [length_drop] at hle
      have htake : received t' = before ++ (stream.take (k + seg.buf.bytes.length)).drop k₀ := by
        obtain ⟨rest, hrest⟩ := hpiece
        rw [hrec', hrec, append_assoc, take_add, ← hrest, take_left,
          drop_append_of_le_length (by rw [length_take_of_le hk]; exact hk0)]
      cases hf : seg.hdr.fin with
      | false =>
        refine ⟨hh.connected, fun _ => ⟨_, by omega, by omega, ?_, htake⟩, fun ho => ?_⟩
        · rw [hnxt', hf, if_neg Bool.false_ne_true, UInt32.add_zero]
        · rw [hh.opened hopen hf] at ho
          cases ho
      | true =>
        refine ⟨hh.connected, fun ho => ?_, fun _ => ?_⟩
        · rw [(hh.closes ho).2] at hf
          cases hf
        · rw [htake, hfin hf, take_length]
    · -- the segment is dropped, and it has no `FIN`
      have hf : seg.hdr.fin = false := by
        by_contra hf
        exact hseq (hord hopen (by simpa using hf) hsyn hrst)
      rw [Rcv.after, if_neg hseq] at hrcv
      refine ⟨hh.connected, fun _ => ⟨k, hk0, hk, by rw [hrcv, hnxt], by rw [received_congr hrcv, hrec]⟩, fun ho => ?_⟩
      rw [hh.opened hopen hf] at ho
      cases ho

/-- **`FIN` ordering**: a connection in `ESTABLISHED`, `FIN_WAIT1` or `FIN_WAIT2` has received the first `k` bytes of
the peer's stream, and any segments of the peer arrive, in which a `FIN` always comes in order. Once it is in
`CLOSE_WAIT`, `CLOSING` or `TIME_WAIT`, all the other bytes of the stream were appended to what it had received. -/
theorem fin_last (self : Nat) (t₀ : Tcp) (stream : List UInt8) (irs : UInt32) (k : Nat)
    (hN : stream.length < 2 ^ 32 - 2) (hopen : t₀.state.open = true) (hk : k ≤ stream.length)
    (hnxt : t₀.rcv.nxt = irs + 1 + .ofNat k) (es : List (UInt32 × Seg)) (hes : ∀ e ∈ es, Peer stream irs e.2)
    (hord : Meets (rxStep self) (fun t e => FinInOrder t e.2) t₀ es) (t : Tcp) (hr : run (rxStep self) t₀ es = some t)
    (hend : t.state.ended = true) : received t = received t₀ ++ stream.drop k := by
  have hinit : Upto stream irs (received t₀) k t₀ := by
    refine ⟨?_, fun _ => ⟨k, le_rfl, hk, hnxt, ?_⟩, fun ho => ?_⟩
    · revert hopen
      cases t₀.state <;> decide
    · rw [drop_take_self, append_nil]
    · rw [hopen] at ho
      cases ho
  have hmeets := (meets_of_forall_mem t₀ hes).and hord
  have hinv : Upto stream irs (received t₀) k t := by
    refine run_meets_inv (fun u e u' hu he hstep => ?_) hinit hmeets hr
    obtain ⟨r, hrx, rfl⟩ := Option.map_eq_some_iff.1 hstep
    exact hu.step hN he.1 he.2 hrx
  apply hinv.ended
  revert hend
  cases t.state <;> decide

/-- Two segments of a stream of three bytes, the second one with a `FIN`. -/
def finSegs : List (UInt32 × Seg) := (sampleArrivals.drop 1).map fun e => (e.tick, segOf e.ip e.m)

theorem fin_last_two : ∃ t, run (rxStep 0) (sampleSocks.tcb 0) finSegs = some t ∧ t.state = .closeWait ∧
    received t = received (sampleSocks.tcb 0) ++ [104, 105, 33] := by
  refine ⟨_, rfl, by decide, fin_last 0 (sampleSocks.tcb 0) [104, 105, 33] 100 0 (by decide) rfl (by decide)
    (by decide) finSegs ?_ (by decide) _ rfl (by decide)⟩
  intro e he
  simp only [finSegs, sampleArrivals, drop_succ_cons, drop_zero, map_cons, map_nil, mem_cons,
    not_mem_nil, or_false] at he
  rcases he with rfl | rfl
  · exact .inr (.inr ⟨⟨by decide, by decide, 0, by decide⟩, by decide⟩)
  · exact .inr (.inr ⟨⟨by decide, by decide, 2, by decide⟩, by decide⟩)

/-- **What goes wrong**: the second segment arrives first, and the connection is in `CLOSE_WAIT` with nothing received;
the first segment, when it comes again, is not taken any more. -/
theorem fin_early : (run (rxStep 0) (sampleSocks.tcb 0) finSegs.reverse).map (fun t => (t.state, received t)) =
    some (.closeWait, []) := by
  decide

end TextOS.Net
