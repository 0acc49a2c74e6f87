import TextOS.Lib.Run
import TextOS.Net.TcpSock

/-!
# Resets

A connection with its place in the list of sockets: segments reach it while it is in the list, its timers expire at any
time.

- **a connection stays reset** (`reset_final`), if no timer runs when the `RST` arrives and the handler of its state
  does not go on with other flags; it is released at most once.
-/

namespace TextOS.Net

open Lib List Option Bool

/-! ## A connection in the list -/

/-- The connection, whether it is in `list_common`, how often `tcp_release` ran for it and whether an acceptable `RST`
was handled. -/
structure Placed where
  tcp : Tcp
  listed : Bool
  released : Nat
  reset : Bool

/-- A segment that arrives for it, or a timer that expires. -/
inductive PlacedOp
  | seg (tick : UInt32) (seg : Seg)
  | tmrAck
  | tmrWait

/-- What an action does to its place. -/
def Placed.act (s : Placed) : Act → Placed
  | .release => { s with listed := false, released := s.released + 1 }
  | .orphan => { s with listed := false }
  | _ => s

/-- An acceptable `RST`: in `SYN_SENT` one that acknowledges the `SYN`; the other handlers take every one. -/
def acceptableRst (t : Tcp) (seg : Seg) : Bool :=
  seg.hdr.rst && (t.state != .synSent || seg.hdr.ack && seg.hdr.acknr == t.snd.nxt)

def placedStep (self : Nat) (s : Placed) : PlacedOp → Option Placed
  | .seg tick seg =>
    if s.listed then
      (tcpRx tick self s.tcp seg).map fun r =>
        r.2.foldl Placed.act { s with tcp := r.1, reset := s.reset || acceptableRst s.tcp seg }
    else some s
  | .tmrAck => if s.tcp.tmrAck then some { s with tcp.tmrAck := false } else none
  | .tmrWait => if s.tcp.tmrWait then some (Placed.act { s with tcp.tmrWait := false } .release) else none

/-- The states that a reset connection must not be in. -/
def St.live : St → Bool
  | .synRcvd | .established | .finWait1 | .finWait2 | .closing | .timeWait => true
  | _ => false

/-- Where the handler of the state does with a `RST` what it should, and nothing else. -/
def St.resets (s : St) (h : Hdr) : Prop :=
  match s with
  | .synSent => h.syn = false
  | .closeWait | .lastAck | .closed => True
  | .closing => h.syn = true ∨ h.ack = false
  | .timeWait => h.syn = true ∨ h.ack = false ∧ h.fin = false
  | _ => False

/-- An acceptable `RST` arrives when no timer runs, where it is handled well. -/
def Calm (s : Placed) : PlacedOp → Prop
  | .seg _ seg => s.listed = true → acceptableRst s.tcp seg = true →
    s.tcp.tmrAck = false ∧ s.tcp.tmrWait = false ∧ s.tcp.state.resets seg.hdr
  | _ => True

variable {t t' : Tcp} {seg : Seg} {acts : List Act} {s s' : Placed} {self : Nat} {tick : UInt32}

/-! ## Timers -/

/-- Neither of the timers runs. -/
def Tcp.Still (t : Tcp) : Prop := t.tmrAck = false ∧ t.tmrWait = false

/-! ## Where a reset leaves a connection -/

/-- A connection after a reset. -/
structure Over (t : Tcp) : Prop where
  state : t.state = .closed ∨ t.state = .closeWait ∨ t.state = .lastAck
  still : t.Still

/-- From `CLOSE_WAIT` a segment leads only to where a reset leads. -/
theorem tcpRxClosewait_over (hst : t.state = .closeWait) (hs : t.Still)
    (h : tcpRxClosewait t seg = some (t', acts)) : Over t' := by
  unfold tcpRxClosewait at h
  obtain ⟨u, hu⟩ : ∃ u, u = if seg.hdr.rst then tcpExitWith t (-104) else t := ⟨_, rfl⟩
  have hsame : u.state = .closeWait ∧ u.Still := by
    rw [hu]
    split <;> exact ⟨hst, hs⟩
  rw [← hu] at h
  dsimp only at h
  split at h
  · cases h
    exact ⟨.inr (.inl hsame.1), hsame.2⟩
  have ha := ack_spec u seg seg.hdr.ack
  split at h
  · cases h
  rw [some.inj h] at ha
  refine ⟨?_, ha.tmrAck hsame.2.1, ha.tmrWait.trans hsame.2.2⟩
  rcases ha.state with he | ⟨he, -⟩ | ⟨-, he⟩
  · exact .inr (.inl (he.trans hsame.1))
  · rw [hsame.1] at he
    cases he
  · exact .inr (.inr he)

theorem tcpRxLastack_over (hst : t.state = .lastAck) (hs : t.Still)
    (h : tcpRxLastack t seg = some (t', acts)) : Over t' := by
  simp only [tcpRxLastack] at h
  repeat' split at h
  all_goals cases h
  all_goals exact ⟨by simp [hst], hs⟩

/-- **A connection that was reset stays so**: the states do not lead out, and no timer is started. -/
theorem Over.rx (ho : Over t) (h : tcpRx tick self t seg = some (t', acts)) : Over t' := by
  unfold tcpRx at h
  rcases ho.state with hst | hst | hst
  · rw [hst] at h
    cases h
    exact ho
  · rw [hst] at h
    exact tcpRxClosewait_over hst ho.still h
  · rw [hst] at h
    exact tcpRxLastack_over hst ho.still h

/-- An acceptable reset ends the connection in every state that heeds it. -/
theorem over_of_rst (hrst : acceptableRst t seg = true) (hs : t.Still) (hres : t.state.resets seg.hdr)
    (h : tcpRx tick self t seg = some (t', acts)) : Over t' := by
  obtain ⟨hflag, hsent⟩ : seg.hdr.rst = true ∧ (t.state = .synSent → seg.hdr.ack = true ∧
    seg.hdr.acknr = t.snd.nxt) := by
    simp only [acceptableRst, and_eq_true, or_eq_true, bne_iff_ne, beq_iff_eq] at hrst
    exact ⟨hrst.1, fun he => hrst.2.resolve_left (not_not.2 he)⟩
  unfold tcpRx at h
  cases hst : t.state with
  | synSent =>
    rw [hst] at h hres
    obtain ⟨hack, hnr⟩ := hsent hst
    have hsyn : seg.hdr.syn = false := hres
    obtain rfl : (tcpRxSent t seg).1 = t' := congrArg Prod.fst (some.inj h)
    simp only [tcpRxSent, hflag, hack, hnr, hsyn, bne_self_eq_false, Bool.and_false, Bool.and_self,
      Bool.false_eq_true, if_false, if_true]
    exact ⟨.inl rfl, hs⟩
  | closeWait => rw [hst] at h; exact tcpRxClosewait_over hst hs h
  | lastAck => rw [hst] at h; exact tcpRxLastack_over hst hs h
  | closed =>
    rw [hst] at h
    cases h
    exact ⟨.inl hst, hs⟩
  | closing =>
    rw [hst] at h hres
    simp only [tcpRxClosing, hflag, if_true] at h
    rcases hres with hsyn | hack
    · rw [if_pos hsyn] at h
      cases h
      exact ⟨.inl rfl, hs⟩
    simp only [hack, false_eq_true, if_false] at h
    repeat' split at h
    all_goals cases h
    all_goals exact ⟨.inl rfl, hs⟩
  | timeWait =>
    rw [hst] at h hres
    simp only [tcpRxTimewait, hflag, if_true] at h
    rcases hres with hsyn | ⟨hack, hfin⟩
    · rw [if_pos hsyn] at h
      cases h
      exact ⟨.inl rfl, hs⟩
    simp only [hack, hfin, false_eq_true, if_false] at h
    repeat' split at h
    all_goals cases h
    all_goals exact ⟨.inl rfl, hs⟩
  | _ => rw [hst] at hres; exact hres.elim

/-! ## Releases -/

theorem Quiet.not_release (hq : Quiet acts) : Act.release ∉ acts := fun h => by
  obtain ⟨s, hs⟩ := hq _ h
  cases hs

/-- Only an acceptable reset releases a connection. -/
theorem release_rst (h : tcpRx tick self t seg = some (t', acts)) (hrel : .release ∈ acts) :
    acceptableRst t seg = true := by
  cases hr : tcpRx_reacts h with
  | quiet role hq => exact absurd hrel hq.not_release
  | release role last hq =>
    obtain ⟨more, hq, hacts⟩ := (tcpRx_ends last h).acts
    have hne : t.state ≠ .synSent := fun hst => by simp [hst] at last
    have hrst : seg.hdr.rst = true := by
      by_contra hno
      rw [hacts, if_neg hno] at hrel
      exact hq.not_release hrel
    simp [acceptableRst, hrst, hne]
  | orphan hst hp => simp at hrel
  | offer role hst hst' => simp at hrel
  | spawn conn role hst lport ptcp passive state hq hq' => simp [hq.not_release, hq'.not_release] at hrel

theorem foldl_act_same (hq : Quiet acts) (s : Placed) : acts.foldl Placed.act s = s := by
  induction acts with
  | nil => rfl
  | cons a acts ih =>
    obtain ⟨x, rfl⟩ := hq a mem_cons_self
    exact ih fun b hb => hq b (mem_cons_of_mem _ hb)

theorem foldl_act_cases (h : Reacts self t t' acts) (s : Placed) : acts.foldl Placed.act s = s ∨
    .release ∈ acts ∧ acts.foldl Placed.act s = s.act .release ∨ acts.foldl Placed.act s = s.act .orphan := by
  cases h with
  | quiet role hq => exact .inl (foldl_act_same hq s)
  | release role last hq => exact .inr (.inl ⟨mem_cons_self, foldl_act_same hq _⟩)
  | orphan hst hp => exact .inr (.inr rfl)
  | offer role hst hst' => exact .inl rfl
  | spawn conn role hst lport ptcp passive state hq hq' =>
    refine .inl ?_
    rw [foldl_append, foldl_act_same hq, foldl_cons, foldl_act_same hq']
    rfl

/-! ## Runs -/

/-- A reset connection is over, and one that was released is out of the list and has no timer that releases it again. -/
structure Kept (s : Placed) : Prop where
  ends : s.reset = true → Over s.tcp
  released : s.released = 0 ∨ s.released = 1 ∧ s.listed = false ∧ s.tcp.tmrWait = false

/-- A segment keeps the invariant while the connection is listed. -/
theorem Kept.rx (hk : Kept s) (hl : s.listed = true) (hcalm : Calm s (.seg tick seg))
    (hr : tcpRx tick self s.tcp seg = some (t', acts)) :
    Kept (acts.foldl Placed.act { s with tcp := t', reset := s.reset || acceptableRst s.tcp seg }) := by
  have hover : (s.reset || acceptableRst s.tcp seg) = true → Over t' := by
    intro h
    rcases or_eq_true_iff.1 h with h | h
    · exact (hk.ends h).rx hr
    · obtain ⟨hack, hwait, hres⟩ := hcalm hl h
      exact over_of_rst h ⟨hack, hwait⟩ hres hr
  have hzero : s.released = 0 := hk.released.resolve_right fun h => by
    rw [hl] at h
    cases h.2.1
  rcases foldl_act_cases (tcpRx_reacts hr) { s with tcp := t', reset := s.reset || acceptableRst s.tcp seg } with
    he | ⟨hrel, he⟩ | he
  · rw [he]
    exact ⟨hover, .inl hzero⟩
  · rw [he]
    have hrst := release_rst hr hrel
    have ho := hover (by rw [hrst, Bool.or_true])
    exact ⟨hover, .inr ⟨congrArg (· + 1) hzero, rfl, ho.still.2⟩⟩
  · rw [he]
    exact ⟨hover, .inl hzero⟩

/-- One event keeps the invariant. -/
theorem Kept.step {o : PlacedOp} (hk : Kept s) (hcalm : Calm s o) (h : placedStep self s o = some s') : Kept s' := by
  cases o with
  | seg tick seg =>
    rw [placedStep] at h
    split at h
    next hl =>
      obtain ⟨r, hr, rfl⟩ := map_eq_some_iff.1 h
      exact hk.rx hl hcalm hr
    next =>
      cases h
      exact hk
  | tmrAck =>
    rw [placedStep] at h
    split at h
    · cases h
      exact ⟨fun h => ⟨(hk.ends h).state, rfl, (hk.ends h).still.2⟩, hk.released⟩
    · cases h
  | tmrWait =>
    rw [placedStep] at h
    split at h
    next hrun =>
      cases h
      have hzero : s.released = 0 := hk.released.resolve_right fun h => by
        rw [hrun] at h
        cases h.2.2
      refine ⟨fun h => ⟨(hk.ends h).state, (hk.ends h).still.1, rfl⟩, .inr ⟨congrArg (· + 1) hzero, rfl, rfl⟩⟩
    next => cases h

/-- **Resets are final**: take any connection and any segments and expiring timers, where an acceptable `RST` arrives
only when no timer runs and the handler does nothing else with it. Once an acceptable `RST` was handled, the connection
is in none of the live states and no timer runs; and it is released at most once. -/
theorem reset_final (self : Nat) (t₀ : Tcp) (os : List PlacedOp)
    (hos : Meets (placedStep self) Calm ⟨t₀, true, 0, false⟩ os) (s : Placed)
    (hr : run (placedStep self) ⟨t₀, true, 0, false⟩ os = some s) :
    s.released ≤ 1 ∧ (s.reset = true → s.tcp.state.live = false ∧ s.tcp.tmrAck = false ∧ s.tcp.tmrWait = false) := by
  have hk : Kept s := run_meets_inv (fun _ _ _ hk hc h => hk.step hc h) ⟨fun h => Bool.noConfusion h, .inl rfl⟩ hos hr
  refine ⟨?_, fun h => ⟨?_, (hk.ends h).still⟩⟩
  · rcases hk.released with h | h <;> omega
  · rcases (hk.ends h).state with h | h | h <;> rw [h] <;> rfl

/-- A segment without data for the sample connection. -/
def flagSeg (flgs : UInt8) : Seg := ⟨101, 0, (10, 0, 0, 1), (10, 0, 0, 2), ⟨fun _ => 0, 0, 0, 0, 0⟩,
    ⟨80, 1000, 101, 8, flgs⟩⟩

/-- In `LAST_ACK` a `RST` arrives, and then another segment, which does not reach the connection. -/
theorem reset_final_lastAck : ∃ s, run (placedStep 0) ⟨{ sampleSocks.tcb 0 with state := .lastAck }, true, 0, false⟩
      [.seg 0 (flagSeg 4), .seg 0 (flagSeg 16)] = some s ∧ s.reset = true ∧ s.released ≤ 1 ∧
      s.tcp.state.live = false := by
  have h := reset_final 0 { sampleSocks.tcb 0 with state := .lastAck } [.seg 0 (flagSeg 4), .seg 0 (flagSeg 16)]
    ⟨fun _ _ => ⟨rfl, rfl, trivial⟩, fun s' hs => ⟨fun hl => ?_, fun _ _ => trivial⟩⟩ _ rfl
  · exact ⟨_, rfl, rfl, h.1, (h.2 rfl).1⟩
  · cases hs
    cases hl

/-- **What goes wrong**: a `RST` in `ESTABLISHED` leaves the connection there with its timer, and a `RST` with `ACK` in
`CLOSING` releases it, goes on to `TIME_WAIT` and starts the timer that releases it again. -/
theorem reset_wrong :
    (run (placedStep 0) ⟨{ sampleSocks.tcb 0 with tmrAck := true }, true, 0, false⟩ [.seg 0 (flagSeg 4)]).map
        (fun s => (s.reset, s.tcp.state, s.tcp.tmrAck)) = some (true, .established, true) ∧
    (run (placedStep 0) ⟨{ sampleSocks.tcb 0 with state := .closing }, true, 0, false⟩ [.seg 0 (flagSeg 20)]).map
        (fun s => (s.reset, s.tcp.state, s.tcp.tmrWait, s.released)) = some (true, .timeWait, true, 1) ∧
    (run (placedStep 0) ⟨{ sampleSocks.tcb 0 with state := .closing }, true, 0, false⟩ [.seg 0 (flagSeg 20),
    .tmrWait]).map
        (fun s => s.released) = some 2 := by
  decide

end TextOS.Net
