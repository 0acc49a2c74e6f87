import TextOS.Lib.Run
import TextOS.Net.Tcp

/-!
# What a connection receives

A segment is handled according to the state of the connection (`tcp_rx`); its data is queued where it is in order.

- `tcpRx_spec`: what a segment without `SYN` and `RST` does to a connection that has been established;
- **the reader gets a prefix of the stream** (`received_prefix`), whatever segments of it arrive, in whatever order.
-/

namespace TextOS.Net

open Lib List Option

variable {t t' : Tcp} {seg : Seg} {acts : List Act} {tick : UInt32}

/-- Data is received in these states. -/
def St.open : St → Bool
  | .established | .finWait1 | .finWait2 => true
  | _ => false

/-- The states of a connection once it was established. -/
def St.connected : St → Bool
  | .synSent | .synRcvd | .listen => false
  | _ => true

/-- Only segments are sent. -/
def Quiet (acts : List Act) : Prop := ∀ a ∈ acts, ∃ s, a = .tx s

theorem quiet_nil : Quiet [] := by simp [Quiet]

theorem quiet_cons {s : TxSeg} (h : Quiet acts) : Quiet (.tx s :: acts) := by
  intro a ha
  rcases mem_cons.1 ha with rfl | ha
  · exact ⟨s, rfl⟩
  · exact h a ha

theorem Quiet.append {acts' : List Act} (h : Quiet acts) (h' : Quiet acts') : Quiet (acts ++ acts') := by
  intro a ha
  rcases mem_append.1 ha with ha | ha
  · exact h a ha
  · exact h' a ha

/-! ## Acknowledgements -/

/-- The transitions of a shut-down connection. -/
def Shuts (s s' : St) : Prop := s' = s ∨ (s = .established ∧ s' = .finWait1) ∨ (s = .closeWait ∧ s' = .lastAck)

/-- What sending can do: addresses, ports, the parent, the side and what was received stay, and no timer is started. -/
structure Sends (t : Tcp) (r : Tcp × List Act) : Prop where
  key : r.1.key = t.key
  ptcp : r.1.ptcp = t.ptcp
  passive : r.1.passive = t.passive
  rcv : r.1.rcv = t.rcv
  tmrAck : t.tmrAck = false → r.1.tmrAck = false
  tmrWait : r.1.tmrWait = t.tmrWait
  state : Shuts t.state r.1.state
  quiet : Quiet r.2

theorem Sends.refl (t : Tcp) : Sends t (t, []) := ⟨rfl, rfl, rfl, rfl, id, rfl, .inl rfl, quiet_nil⟩

theorem xmitLoop_spec (que : List Mbuf) (t : Tcp) :
    ∃ snd, (xmitLoop t que).1 = { t with snd := snd } ∧ Quiet (xmitLoop t que).2 := by
  induction que generalizing t with
  | nil => exact ⟨_, rfl, quiet_nil⟩
  | cons m que ih =>
    rw [xmitLoop]
    split
    · exact ⟨_, rfl, quiet_cons quiet_nil⟩
    · obtain ⟨snd, he, hq⟩ := ih _
      exact ⟨snd, he, quiet_cons hq⟩

theorem xmitFin_spec (t : Tcp) : Sends t (xmitFin t) := by
  unfold xmitFin
  split
  · split
    · next hs => exact ⟨rfl, rfl, rfl, rfl, fun _ => rfl, rfl, .inr (.inl ⟨hs, rfl⟩), quiet_cons quiet_nil⟩
    · next hs => exact ⟨rfl, rfl, rfl, rfl, fun _ => rfl, rfl, .inr (.inr ⟨hs, rfl⟩), quiet_cons quiet_nil⟩
    · exact ⟨rfl, rfl, rfl, rfl, fun _ => rfl, rfl, .inl rfl, quiet_cons quiet_nil⟩
  · exact .refl t

theorem tcpDoXmit_spec (t : Tcp) : Sends t (tcpDoXmit t) := by
  unfold tcpDoXmit
  split
  · exact .refl t
  obtain ⟨snd, he, hq⟩ := xmitLoop_spec t.snd.sndQue { t with tmrAck := false }
  dsimp only
  rw [he]
  have hf := xmitFin_spec { t with tmrAck := false, snd := snd }
  exact ⟨hf.key, hf.ptcp, hf.passive, hf.rcv, fun _ => hf.tmrAck rfl, hf.tmrWait, hf.state, hq.append hf.quiet⟩

/-- **Handling an acknowledgement leaves what was received alone.** -/
theorem tcpXAck_spec (t : Tcp) (seg : Seg) : Sends t (tcpXAck t seg) := by
  unfold tcpXAck
  split
  · exact .refl t
  split
  · exact ⟨rfl, rfl, rfl, rfl, id, rfl, .inl rfl, quiet_cons quiet_nil⟩
  · obtain ⟨h1, h2, h3, h4, h5, h6, h7, h8⟩ := tcpDoXmit_spec _
    exact ⟨h1, h2, h3, h4, h5, h6, h7, h8⟩

theorem ack_spec (t : Tcp) (seg : Seg) (b : Bool) : Sends t (if b then tcpXAck t seg else (t, [])) := by
  cases b with
  | false => exact .refl t
  | true => exact tcpXAck_spec t seg

/-! ## Data -/

/-- The buffers a segment in order adds to the queue. -/
def queued (seg : Seg) : List Mbuf :=
  if seg.seqlen = 0 ∨ seg.buf.len = 0 then [] else [mbufPush (mbufPush seg.buf 20) 20]

/-- The receiving side after a segment: it is taken iff it starts at `rcv_nxt`. -/
def Rcv.after (r : Rcv) (seg : Seg) : Rcv :=
  if seg.seqnr = r.nxt then { r with nxt := r.nxt + seg.seqlen, bufQue := r.bufQue ++ queued seg } else r

/-- **`tcp_rx_data` takes exactly the segments that start at `rcv_nxt`.** -/
theorem tcpRxData_spec (t : Tcp) (seg : Seg) :
    (tcpRxData t seg).1.rcv = t.rcv.after seg ∧ (tcpRxData t seg).1.key = t.key ∧
      (tcpRxData t seg).1.state = t.state ∧ Quiet (tcpRxData t seg).2 := by
  unfold tcpRxData
  split
  · next hlt =>
    have hne : seg.seqnr ≠ t.rcv.nxt := fun he => absurd hlt (he ▸ UInt32.lt_irrefl _)
    exact ⟨by rw [Rcv.after, if_neg hne], rfl, rfl, quiet_cons quiet_nil⟩
  next hle =>
  split
  · next hlt =>
    have hne : seg.seqnr ≠ t.rcv.nxt := fun he => absurd hlt (he ▸ UInt32.lt_irrefl _)
    exact ⟨by rw [Rcv.after, if_neg hne], rfl, rfl, quiet_nil⟩
  next hge =>
  have heq : seg.seqnr = t.rcv.nxt := UInt32.le_antisymm (UInt32.not_lt.1 hle) (UInt32.not_lt.1 hge)
  rw [Rcv.after, if_pos heq]
  split
  · next h0 =>
    rw [queued, if_pos (.inl h0), h0, UInt32.add_zero, append_nil]
    exact ⟨rfl, rfl, rfl, quiet_nil⟩
  next h0 =>
  split
  · next hl =>
    rw [queued, if_pos (.inr hl), append_nil]
    exact ⟨rfl, rfl, rfl, quiet_nil⟩
  next hl =>
  rw [queued, if_neg (not_or.2 ⟨h0, hl⟩)]
  exact ⟨rfl, rfl, rfl, quiet_nil⟩

/-! ## The handlers -/

/-- What handling a segment without `SYN` and `RST` does to a connection that was established. -/
structure Handles (t : Tcp) (seg : Seg) (t' : Tcp) (acts : List Act) : Prop where
  key : t'.key = t.key
  rcv : t'.rcv = if t.state.open then t.rcv.after seg else t.rcv
  connected : t'.state.connected = true
  closes : t'.state.open = true → t.state.open = true ∧ seg.hdr.fin = false
  opened : t.state.open = true → seg.hdr.fin = false → t'.state.open = true
  quiet : Quiet acts

/-- What the handlers of the last states do: after a reset they release the connection, and they change nothing but its
state. -/
structure Ends (seg : Seg) (t t' : Tcp) (acts : List Act) : Prop where
  key : t'.key = t.key
  ptcp : t'.ptcp = t.ptcp
  passive : t'.passive = t.passive
  rcv : t'.rcv = t.rcv
  state : t'.state = t.state ∨ t'.state = .closed ∨ t'.state = .timeWait
  acts : ∃ more, Quiet more ∧ acts = (if seg.hdr.rst then [.release] else []) ++ more

namespace Ends

/-- The check of `RST`, with which all three begin. -/
theorem reset (t : Tcp) (seg : Seg) :
    let r : Tcp × List Act := if seg.hdr.rst then ({ t with state := .closed }, [.release]) else (t, [])
    Ends seg t r.1 r.2 := by
  cases hrst : seg.hdr.rst with
  | true => exact ⟨rfl, rfl, rfl, rfl, .inr (.inl rfl), [], quiet_nil, by simp [hrst]⟩
  | false => exact ⟨rfl, rfl, rfl, rfl, .inl rfl, [], quiet_nil, by simp [hrst]⟩

theorem tx (h : Ends seg t t' acts) (s : TxSeg) : Ends seg t t' (acts ++ [.tx s]) := by
  obtain ⟨more, hq, rfl⟩ := h.acts
  exact { h with acts := ⟨more ++ [.tx s], hq.append (quiet_cons quiet_nil), append_assoc ..⟩ }

/-- The frame of the three handlers: a `SYN` is answered, `URG` stops the kernel. -/
theorem handler {r : Tcp × List Act} {t₁ : Tcp} {acts₁ : List Act} (h0 : Ends seg t r.1 r.2)
    (h1 : Ends seg t t₁ acts₁)
    (h : (if seg.hdr.syn then some (r.1, r.2 ++ [.tx (tcpTxAck r.1)])
      else if seg.hdr.urg then none else some (t₁, acts₁)) = some (t', acts)) : Ends seg t t' acts := by
  split at h
  next =>
    cases h
    exact h0.tx _
  next =>
    split at h
    next => cases h
    next =>
      cases h
      exact h1

/-- The handler of `LAST_ACK`. -/
theorem lastack (h : tcpRxLastack t seg = some (t', acts)) : Ends seg t t' acts := by
  have h0 := reset t seg
  refine handler h0 ?_ h
  split
  next => exact { h0 with state := .inr (.inl rfl) }
  next => exact h0

/-- The handler of `CLOSING`. -/
theorem closing (h : tcpRxClosing t seg = some (t', acts)) : Ends seg t t' acts := by
  have h0 := reset t seg
  refine handler h0 ?_ h
  split
  next => exact { h0 with state := .inr (.inr rfl) }
  next => exact h0

/-- The handler of `TIME_WAIT`, where an `ACK` and a `FIN` start the timer again. -/
theorem timewait (h : tcpRxTimewait t seg = some (t', acts)) : Ends seg t t' acts := by
  have h0 := reset t seg
  refine handler h0 ?_ h
  generalize (if seg.hdr.rst then ({ t with state := .closed }, [Act.release]) else (t, [])) = r at h0
  have h1 : Ends seg t (if seg.hdr.ack then ({ r.1 with tmrWait := true }, r.2 ++ [.tx (tcpTxAck r.1)]) else r).1
      (if seg.hdr.ack then ({ r.1 with tmrWait := true }, r.2 ++ [.tx (tcpTxAck r.1)]) else r).2 := by
    split
    next => exact { h0.tx (tcpTxAck r.1) with }
    next => exact h0
  split
  next => exact { h1 with }
  next => exact h1

end Ends

theorem tcpRx_ends {self : Nat} (hst : t.state ∈ [St.lastAck, .closing, .timeWait])
    (h : tcpRx tick self t seg = some (t', acts)) : Ends seg t t' acts := by
  simp only [mem_cons, not_mem_nil, or_false] at hst
  unfold tcpRx at h
  rcases hst with hst | hst | hst <;> rw [hst] at h
  · exact .lastack h
  · exact .closing h
  · exact .timewait h

theorem St.connected_of_open {s : St} (h : s.open = true) : s.connected = true := by
  revert h
  cases s <;> decide

section Handlers

variable (hsyn : seg.hdr.syn = false) (hrst : seg.hdr.rst = false)
include hsyn hrst

/-- What `ESTABLISHED` does with a segment. -/
theorem tcpRxEstablished_spec (hst : t.state = .established) (h : tcpRxEstablished t seg = some (t', acts)) :
    Handles t seg t' acts := by
  have ha := ack_spec t seg seg.hdr.ack
  simp only [tcpRxEstablished, hrst, hsyn, Bool.false_eq_true, if_false] at h
  generalize (if seg.hdr.ack = true then tcpXAck t seg else (t, [])) = r at h ha
  split at h
  · cases h
  obtain ⟨d1, d2, d3, d4⟩ := tcpRxData_spec r.1 seg
  obtain ⟨rfl, rfl⟩ := h
  have hrcv : (tcpRxData r.1 seg).1.rcv = if t.state.open then t.rcv.after seg else t.rcv := by
    rw [d1, ha.rcv, hst]
    rfl
  cases hfin : seg.hdr.fin with
  | false =>
    have ho : (tcpRxData r.1 seg).1.state.open = true := by
      rw [d3]
      rcases ha.state with hs | ⟨-, hs⟩ | ⟨hs, -⟩
      · rw [hs, hst]; rfl
      · rw [hs]; rfl
      · rw [hst] at hs; cases hs
    exact ⟨d2.trans ha.key, hrcv, St.connected_of_open ho, fun _ => ⟨by rw [hst]; rfl, hfin⟩, fun _ _ => ho,
      ha.quiet.append d4⟩
  | true => exact ⟨d2.trans ha.key, hrcv, rfl, nofun, fun _ h => absurd (hfin.symm.trans h) nofun, ha.quiet.append d4⟩

/-- What `CLOSE_WAIT` does with a segment. -/
theorem tcpRxClosewait_spec (hst : t.state = .closeWait) (h : tcpRxClosewait t seg = some (t', acts)) :
    Handles t seg t' acts := by
  have ha := ack_spec t seg seg.hdr.ack
  simp only [tcpRxClosewait, hrst, hsyn, Bool.false_eq_true, if_false] at h
  generalize (if seg.hdr.ack = true then tcpXAck t seg else (t, [])) = r at h ha
  split at h
  · cases h
  obtain rfl := some.inj h
  have hs : t'.state = .closeWait ∨ t'.state = .lastAck := by
    rcases ha.state with hs | ⟨hs, -⟩ | ⟨-, hs⟩
    · exact .inl (hs.trans hst)
    · rw [hst] at hs; cases hs
    · exact .inr hs
  refine ⟨ha.key, by rw [hst]; exact ha.rcv, ?_, fun ho => ?_, by rw [hst]; nofun, ha.quiet⟩
  · rcases hs with hs | hs <;> rw [hs] <;> rfl
  · rcases hs with hs | hs <;> rw [hs] at ho <;> cases ho

/-- What the two `FIN_WAIT` states do with a segment. -/
theorem tcpRxFinwait_spec (hst : t.state = .finWait1 ∨ t.state = .finWait2)
    (h : tcpRxFinwait t seg = some (t', acts)) : Handles t seg t' acts := by
  have hopen : t.state.open = true := by rcases hst with hs | hs <;> rw [hs] <;> rfl
  simp only [tcpRxFinwait, hrst, hsyn, Bool.false_eq_true, if_false] at h
  generalize hu : (if (seg.hdr.ack && seg.hdr.acknr == t.snd.nxt && t.state == .finWait1) = true then
    { t with state := .finWait2 } else t) = u at h
  have hu' : u.key = t.key ∧ u.rcv = t.rcv ∧ (u.state = .finWait1 ∨ u.state = .finWait2) := by
    rw [← hu]
    split
    · exact ⟨rfl, rfl, .inr rfl⟩
    · exact ⟨rfl, rfl, hst⟩
  split at h
  · cases h
  obtain ⟨d1, d2, d3, d4⟩ := tcpRxData_spec u seg
  obtain ⟨rfl, rfl⟩ := h
  have hrcv : (tcpRxData u seg).1.rcv = if t.state.open then t.rcv.after seg else t.rcv := by
    rw [d1, hu'.2.1, hopen, if_pos rfl]
  cases hfin : seg.hdr.fin with
  | false =>
    have ho : (tcpRxData u seg).1.state.open = true := by
      rw [d3]
      rcases hu'.2.2 with hs | hs <;> rw [hs] <;> rfl
    exact ⟨d2.trans hu'.1, hrcv, St.connected_of_open ho, fun _ => ⟨hopen, hfin⟩, fun _ _ => ho, d4⟩
  | true =>
    simp only [if_true, d3]
    rcases hu'.2.2 with hs | hs <;> rw [hs]
    · exact ⟨d2.trans hu'.1, hrcv, rfl, nofun, fun _ h => absurd (hfin.symm.trans h) nofun, d4⟩
    · exact ⟨d2.trans hu'.1, hrcv, rfl, nofun, fun _ h => absurd (hfin.symm.trans h) nofun, d4⟩

omit hsyn hrst in
theorem handles_of_closed (hopen : t.state.open = false) (hkey : t'.key = t.key) (hrcv : t'.rcv = t.rcv)
    (hs : t'.state = t.state ∨ t'.state = .closed ∨ t'.state = .timeWait) (hc : t.state.connected = true)
    (hq : Quiet acts) : Handles t seg t' acts := by
  refine ⟨hkey, by rw [hopen]; exact hrcv, ?_, fun ho => ?_, fun ho => absurd (hopen.symm.trans ho) nofun, hq⟩
  · rcases hs with hs | hs | hs
    · rw [hs, hc]
    · rw [hs]; rfl
    · rw [hs]; rfl
  rcases hs with hs | hs | hs
  · rw [hs, hopen] at ho; cases ho
  · rw [hs] at ho; cases ho
  · rw [hs] at ho; cases ho

omit hsyn in
theorem Ends.handles (hst : t.state ∈ [St.lastAck, .closing, .timeWait]) (h : Ends seg t t' acts) :
    Handles t seg t' acts := by
  obtain ⟨more, hq, rfl⟩ := h.acts
  have hlast : t.state.open = false ∧ t.state.connected = true := by
    simp only [mem_cons, not_mem_nil, or_false] at hst
    rcases hst with hst | hst | hst <;> (rw [hst]; exact ⟨rfl, rfl⟩)
  refine handles_of_closed hlast.1 h.key h.rcv h.state hlast.2 ?_
  rw [hrst, if_neg Bool.false_ne_true]
  exact hq

/-- **Every handler takes a segment only in the states in which data is received**, and a `FIN` ends those states. -/
theorem tcpRx_spec {self : Nat} (hc : t.state.connected = true)
    (h : tcpRx tick self t seg = some (t', acts)) : Handles t seg t' acts := by
  unfold tcpRx at h
  cases hst : t.state with
  | synSent => rw [hst] at hc; cases hc
  | synRcvd => rw [hst] at hc; cases hc
  | listen => rw [hst] at hc; cases hc
  | established => rw [hst] at h; exact tcpRxEstablished_spec hsyn hrst hst h
  | closeWait => rw [hst] at h; exact tcpRxClosewait_spec hsyn hrst hst h
  | lastAck => exact (tcpRx_ends (by simp [hst]) h).handles hrst (by simp [hst])
  | finWait1 => rw [hst] at h; exact tcpRxFinwait_spec hsyn hrst (.inl hst) h
  | finWait2 => rw [hst] at h; exact tcpRxFinwait_spec hsyn hrst (.inr hst) h
  | closing => exact (tcpRx_ends (by simp [hst]) h).handles hrst (by simp [hst])
  | timeWait => exact (tcpRx_ends (by simp [hst]) h).handles hrst (by simp [hst])
  | closed =>
    rw [hst] at h
    obtain ⟨rfl, rfl⟩ : t = t' ∧ tcpTxReset seg = acts := by simpa using h
    refine handles_of_closed (by rw [hst]; rfl) rfl rfl (.inl rfl) hc ?_
    unfold tcpTxReset
    split
    · exact quiet_cons quiet_nil
    · exact quiet_cons quiet_nil

end Handlers

/-! ## A connection among the sockets -/

variable {n n' : Socks} {c : Nat}

/-- Quiet actions only transmit. -/
theorem foldl_act_quiet (i : Nat) (n : Socks) (h : Quiet acts) :
    ∃ tx, acts.foldl (Socks.act i) n = { n with tx := tx } ∧ ∀ x ∈ tx, x ∈ n.tx ∨ .tx x ∈ acts := by
  induction acts generalizing n with
  | nil => exact ⟨n.tx, rfl, fun x hx => .inl hx⟩
  | cons a acts ih =>
    obtain ⟨y, rfl⟩ := h a mem_cons_self
    obtain ⟨tx, he, hmem⟩ := ih { n with tx := n.tx ++ [y] } fun b hb => h b (mem_cons_of_mem _ hb)
    refine ⟨tx, he, fun x hx => ?_⟩
    rcases hmem x hx with hx | hx
    · rcases mem_append.1 hx with hx | hx
      · exact .inl hx
      · rw [mem_singleton.1 hx]
        exact .inr mem_cons_self
    · exact .inr (mem_cons_of_mem _ hx)

theorem findTcb_mem {i : Nat} {sip dip : Ipv4} {sport dport : UInt16} (h : findTcb n sip dip sport dport = some i) :
    i ∈ n.common ∨ i ∈ n.listen := by
  rw [findTcb, orElse_eq_some] at h
  rcases h with h | ⟨-, h⟩
  · exact .inl (mem_of_find?_eq_some h)
  · exact .inr (mem_of_find?_eq_some h)

theorem findTcb_congr (hk : ∀ i, (n'.tcb i).key = (n.tcb i).key) (hc : n'.common = n.common)
    (hl : n'.listen = n.listen) (sip dip : Ipv4) (sport dport : UInt16) :
    findTcb n' sip dip sport dport = findTcb n sip dip sport dport := by
  simp only [findTcb, hk, hc, hl]

/-- What `sock_rx_tcp` can do with a segment for the connection `c`. -/
theorem sockRxTcp_cases {ip : UInt64} {m : Mbuf} (hseg : seg = segOf ip m)
    (hf : findTcb n seg.sip seg.dip seg.hdr.sport seg.hdr.dport = some c) (hsyn : seg.hdr.syn = false)
    (hrst : seg.hdr.rst = false) (hc : (n.tcb c).state.connected = true) (h : sockRxTcp tick n ip m = some n') :
    (netCksumTcp m.bytes seg.sip seg.dip m.len ≠ 0 ∧ n' = n) ∨
    (netCksumTcp m.bytes seg.sip seg.dip m.len = 0 ∧ ∃ acts, Handles (n.tcb c) seg (n'.tcb c) acts ∧
      (∀ i, i ≠ c → n'.tcb i = n.tcb i) ∧ n'.common = n.common ∧ n'.listen = n.listen) := by
  rw [sockRxTcp, ← hseg] at h
  by_cases hk : netCksumTcp m.bytes seg.sip seg.dip m.len = 0
  · right
    simp only [hk, ne_eq, not_true_eq_false, if_false, hf, map_eq_some_iff] at h
    obtain ⟨⟨t', acts⟩, hr, rfl⟩ := h
    have hh := tcpRx_spec hsyn hrst hc hr
    obtain ⟨tx, he, -⟩ := foldl_act_quiet c { n with tcb := Function.update n.tcb c t' } hh.quiet
    rw [he]
    exact ⟨hk, acts, by simpa using hh, fun i hi => Function.update_of_ne hi t' n.tcb, rfl, rfl⟩
  left
  simp only [hk, ne_eq, not_false_eq_true, if_true, some.injEq] at h
  exact ⟨hk, h.symm⟩

/-! ## The stream of a peer -/

/-- The payload of a buffer in `buf_que`. -/
def payload (q : Mbuf) : List UInt8 := (mbufPull (mbufPull q 20) 20).bytes

/-- What was appended to `buf_que`. -/
def received (t : Tcp) : List UInt8 := (t.rcv.bufQue.map payload).flatten

/-- The segment has neither `SYN` nor `RST` and carries the piece of the stream that starts at byte `i`; a `FIN` stands
right behind the last byte. -/
def Carries (stream : List UInt8) (irs : UInt32) (seg : Seg) : Prop :=
  seg.hdr.syn = false ∧ seg.hdr.rst = false ∧ ∃ i, i ≤ stream.length + 1 ∧ seg.seqnr = irs + 1 + .ofNat i ∧
    seg.buf.bytes <+: stream.drop i ∧ (seg.hdr.fin = true → i + seg.buf.bytes.length = stream.length)

/-- The arrival of a segment: its buffer, where its IP header is, and the tick count. -/
structure Arrival where
  tick : UInt32
  ip : UInt64
  m : Mbuf

/-- The sockets, and whether the connection `c` has consumed a `FIN` in order. -/
structure Sys where
  socks : Socks
  fin : Bool

/-- The segment is a `FIN` in order that the connection `c` consumes. -/
def consumesFin (c : Nat) (s : Sys) (e : Arrival) : Bool :=
  let seg := segOf e.ip e.m
  netCksumTcp e.m.bytes seg.sip seg.dip e.m.len == 0 && (s.socks.tcb c).state.open && seg.hdr.fin &&
    seg.seqnr == (s.socks.tcb c).rcv.nxt

def step (c : Nat) (s : Sys) (e : Arrival) : Option Sys :=
  (sockRxTcp e.tick s.socks e.ip e.m).map fun n => ⟨n, s.fin || consumesFin c s e⟩

theorem payload_push (m : Mbuf) : payload (mbufPush (mbufPush m 20) 20) = m.bytes := by
  rw [payload, mbufPull_push, mbufPull_push]

/-- The connection `c`, first found for the given addresses and ports, has received the first `k` bytes of the stream.
-/
structure Inv (stream : List UInt8) (irs : UInt32) (c : Nat) (addr : Ipv4 × Ipv4 × UInt16 × UInt16) (s : Sys) :
    Prop where
  found : findTcb s.socks addr.1 addr.2.1 addr.2.2.1 addr.2.2.2 = some c
  connected : (s.socks.tcb c).state.connected = true
  closed : s.fin = true → (s.socks.tcb c).state.open = false
  taken : ∃ k, k ≤ stream.length ∧ received (s.socks.tcb c) = stream.take k ∧
    (s.socks.tcb c).rcv.nxt = irs + 1 + .ofNat k + if s.fin then 1 else 0

/-! ## The receiver takes a prefix -/

section Prefix

variable {stream : List UInt8} {irs : UInt32} {addr : Ipv4 × Ipv4 × UInt16 × UInt16} {s s' : Sys} {e : Arrival}

theorem seqlen_eq (ip : UInt64) (m : Mbuf) (hsyn : (segOf ip m).hdr.syn = false) : (segOf ip m).seqlen =
    .ofNat (segOf ip m).buf.bytes.length + if (segOf ip m).hdr.fin then 1 else 0 := by
  rw [length_bytes]
  show (segOf ip m).buf.len.toUInt32 + (if (segOf ip m).hdr.syn then 1 else 0) + _ = _
  rw [hsyn, if_neg Bool.false_ne_true, UInt32.add_zero]
  rfl

theorem ofNat_inj {i k : Nat} (hi : i < 2 ^ 32) (hk : k < 2 ^ 32) (h : UInt32.ofNat i = .ofNat k) : i = k := by
  have := congrArg UInt32.toNat h
  rwa [UInt32.toNat_ofNat', UInt32.toNat_ofNat', Nat.mod_eq_of_lt hi, Nat.mod_eq_of_lt hk] at this

/-- What is queued are the segment's bytes. -/
theorem payload_queued (hseg : seg.seqlen = .ofNat seg.buf.bytes.length + if seg.hdr.fin then 1 else 0)
    (hlen : seg.buf.bytes.length < 2 ^ 32 - 1) : ((queued seg).map payload).flatten = seg.buf.bytes := by
  unfold queued
  split
  · next h =>
    have hnil : seg.buf.len = 0 := by
      rcases h with h | h
      · rw [hseg] at h
        apply bytes_eq_nil.1
        apply eq_nil_of_length_eq_zero
        cases hf : seg.hdr.fin with
        | false =>
          rw [hf, if_neg Bool.false_ne_true, UInt32.add_zero] at h
          exact ofNat_inj (k := 0) (by omega) (by norm_num) h
        | true =>
          rw [hf, if_pos rfl, show (1 : UInt32) = .ofNat 1 from rfl, ← UInt32.ofNat_add] at h
          have := ofNat_inj (k := 0) (by omega) (by norm_num) h
          omega
      · exact h
    rw [bytes_eq_nil.2 hnil]
    rfl
  · simp [payload_push]

/-- A segment in order continues the stream. -/
theorem inOrder_after {k : Nat} {t : Tcp} (hN : stream.length < 2 ^ 32 - 2) (hk : k ≤ stream.length)
    (hnxt : t.rcv.nxt = irs + 1 + .ofNat k) (hcar : Carries stream irs seg)
    (hseg : seg.seqlen = .ofNat seg.buf.bytes.length + if seg.hdr.fin then 1 else 0)
    (hord : seg.seqnr = t.rcv.nxt) (hrcv : t'.rcv = t.rcv.after seg) :
    seg.buf.bytes <+: stream.drop k ∧ (seg.hdr.fin = true → k + seg.buf.bytes.length = stream.length) ∧
      received t' = received t ++ seg.buf.bytes ∧
      t'.rcv.nxt = irs + 1 + .ofNat (k + seg.buf.bytes.length) + if seg.hdr.fin then 1 else 0 := by
  obtain ⟨-, -, i, hi, hseq, hpiece, hfin⟩ := hcar
  -- the stream is short enough for its sequence numbers to be different
  obtain rfl : i = k := by
    rw [hord, hnxt] at hseq
    exact (ofNat_inj (by omega) (by omega) ((UInt32.add_right_inj _).1 hseq)).symm
  have hlen := hpiece.length_le
  rw [length_drop] at hlen
  rw [Rcv.after, if_pos hord] at hrcv
  refine ⟨hpiece, hfin, ?_, ?_⟩
  · rw [received, hrcv, map_append, flatten_append, payload_queued hseg (by omega)]
    rfl
  rw [hrcv]
  rw [hnxt, hseg, UInt32.ofNat_add]
  simp only [UInt32.add_assoc]

theorem taken_after {k : Nat} {t : Tcp} (hN : stream.length < 2 ^ 32 - 2) (hk : k ≤ stream.length)
    (hrec : received t = stream.take k) (hnxt : t.rcv.nxt = irs + 1 + .ofNat k) (hcar : Carries stream irs seg)
    (hseg : seg.seqlen = .ofNat seg.buf.bytes.length + if seg.hdr.fin then 1 else 0)
    (hord : seg.seqnr = t.rcv.nxt) (hrcv : t'.rcv = t.rcv.after seg) :
    ∃ k', k' ≤ stream.length ∧ received t' = stream.take k' ∧
      t'.rcv.nxt = irs + 1 + .ofNat k' + if seg.hdr.fin then 1 else 0 := by
  obtain ⟨hpiece, -, hrec', hnxt'⟩ := inOrder_after hN hk hnxt hcar hseg hord hrcv
  have hlen := hpiece.length_le
  rw [length_drop] at hlen
  obtain ⟨rest, hrest⟩ := hpiece
  refine ⟨k + seg.buf.bytes.length, by omega, ?_, hnxt'⟩
  rw [hrec', hrec, take_add, ← hrest, take_left]

/-- One segment keeps the invariant. -/
theorem step_inv (hN : stream.length < 2 ^ 32 - 2) (hI : Inv stream irs c addr s)
    (hcar : Carries stream irs (segOf e.ip e.m))
    (haddr : ((segOf e.ip e.m).sip, (segOf e.ip e.m).dip, (segOf e.ip e.m).hdr.sport,
    (segOf e.ip e.m).hdr.dport) = addr) (h : step c s e = some s') : Inv stream irs c addr s' := by
  obtain ⟨n', hrx, rfl⟩ := map_eq_some_iff.1 h
  subst haddr
  rcases sockRxTcp_cases rfl hI.found hcar.1 hcar.2.1 hI.connected hrx with ⟨hk, rfl⟩ | ⟨hk, acts, hh, hoth, h1, h2⟩
  · have hfin : consumesFin c s e = false := by simp [consumesFin, hk]
    rw [hfin, Bool.or_false]
    exact hI
  have hkeys : ∀ i, (n'.tcb i).key = (s.socks.tcb i).key := fun i => by
    by_cases hi : i = c
    · rw [hi, hh.key]
    · rw [hoth i hi]
  have hfound := hI.found
  rw [← findTcb_congr hkeys h1 h2] at hfound
  have hseq := seqlen_eq e.ip e.m hcar.1
  obtain ⟨k, hk', hrec, hnxt⟩ := hI.taken
  cases hopen : (s.socks.tcb c).state.open with
  | false =>
    have hrcv := hh.rcv
    rw [hopen, if_neg Bool.false_ne_true] at hrcv
    have hfin : consumesFin c s e = false := by simp [consumesFin, hopen]
    refine ⟨hfound, hh.connected, fun _ => ?_, k, hk', ?_, ?_⟩
    · by_contra ho
      have := (hh.closes (by simpa using ho)).1
      rw [hopen] at this
      cases this
    · rw [received, hrcv]
      exact hrec
    · rw [hrcv, hfin, Bool.or_false]
      exact hnxt
  | true =>
    have hrcv := hh.rcv
    rw [hopen, if_pos rfl] at hrcv
    have hnofin : s.fin = false := by
      by_contra hf
      rw [hI.closed (by simpa using hf)] at hopen
      cases hopen
    rw [hnofin, if_neg Bool.false_ne_true, UInt32.add_zero] at hnxt
    by_cases hord : (segOf e.ip e.m).seqnr = (s.socks.tcb c).rcv.nxt
    · have hfin : (s.fin || consumesFin c s e) = (segOf e.ip e.m).hdr.fin := by
        simp [consumesFin, hnofin, hk, hopen, hord]
      refine ⟨hfound, hh.connected, fun hf => ?_, ?_⟩
      · by_contra ho
        have hno := (hh.closes (by simpa using ho)).2
        rw [← hfin] at hno
        exact absurd hf (by simp [hno])
      · rw [hfin]
        exact taken_after hN hk' hrec hnxt hcar hseq hord hrcv
    have hfin : consumesFin c s e = false := by simp [consumesFin, hord]
    rw [Rcv.after, if_neg hord] at hrcv
    refine ⟨hfound, hh.connected, fun hf => ?_, k, hk', ?_, ?_⟩
    · simp [hnofin, hfin] at hf
    · rw [received, hrcv]
      exact hrec
    · rw [hrcv, hfin, hnofin, hnxt]
      simp

end Prefix

/-- **What is queued is a prefix of the stream.** The connection `c` is established and has received nothing yet; the
network delivers any sequence of segments for it that carry pieces of the stream at their sequence numbers. -/
theorem received_prefix (n : Socks) (c : Nat) (sip dip : Ipv4) (sport dport : UInt16) (stream : List UInt8)
    (es : List Arrival) (s : Sys) (hN : stream.length < 2 ^ 32 - 2) (hfound : findTcb n sip dip sport dport = some c)
    (hst : (n.tcb c).state = .established) (hnxt : (n.tcb c).rcv.nxt = (n.tcb c).rcv.irs + 1)
    (hbuf : (n.tcb c).rcv.bufQue = [])
    (hes : ∀ e ∈ es, ((segOf e.ip e.m).sip, (segOf e.ip e.m).dip, (segOf e.ip e.m).hdr.sport,
      (segOf e.ip e.m).hdr.dport) = (sip, dip, sport, dport) ∧ Carries stream (n.tcb c).rcv.irs (segOf e.ip e.m))
    (hr : run (step c) ⟨n, false⟩ es = some s) : received (s.socks.tcb c) <+: stream ∧ (s.socks.tcb c).rcv.nxt =
      (n.tcb c).rcv.irs + 1 + .ofNat (received (s.socks.tcb c)).length + if s.fin then 1 else 0 := by
  have hinit : Inv stream (n.tcb c).rcv.irs c (sip, dip, sport, dport) ⟨n, false⟩ := by
    refine ⟨hfound, by rw [hst]; rfl, nofun, 0, Nat.zero_le _, ?_, by simp [hnxt]⟩
    rw [received, hbuf]
    rfl
  have hinv := run_meets_inv (fun _ _ _ hI he h => step_inv hN hI he.2 he.1 h) hinit (meets_of_forall_mem _ hes) hr
  obtain ⟨k, hk, hrec, hnxt'⟩ := hinv.taken
  refine ⟨hrec ▸ List.take_prefix k stream, ?_⟩
  rw [hrec, length_take, Nat.min_eq_left hk]
  exact hnxt'

/-- An established connection from port 80 of 10.0.0.1, with 100 as initial sequence number of the peer. -/
def sampleSocks : Socks :=
  let t : Tcp :=
    { key := ⟨(10, 0, 0, 2), (10, 0, 0, 1), 1000, 80⟩, mss := 536, nagle := true, state := .established
      shutWr := false, errno := 0, passive := false, ptcp := none, pchd := [], acpt := [], backlog := 0, backcnt := 0
      snd := ⟨7, 8, 8, [], []⟩, rcv := ⟨101, 100, []⟩, tmrAck := false, tmrWait := false, rxWaiter := true
      synWaiter := false }
  ⟨fun _ => t, [0], [], 1, fun _ => true, []⟩

/-- A segment for it: sequence number, flags, checksum and payload. -/
def sampleArrival (seqnr flgs ck₀ ck₁ : UInt8) (data : List UInt8) : Arrival :=
  let bytes : List UInt8 := [0, 0, 0, 0, 0, 0, 0, 0, 0, 0, 0, 0, 10, 0, 0, 1, 10, 0, 0, 2,
    0, 80, 3, 232, 0, 0, 0, seqnr, 0, 0, 0, 0, 80, flgs, 0, 0, ck₀, ck₁, 0, 0] ++ data
  ⟨0, 0, fun a => bytes.getD a.toNat 0, 20, .ofNat (20 + data.length), 0, 0⟩

/-- The second byte alone comes too early, then the first two bytes, then the third one with the `FIN`. -/
def sampleArrivals : List Arrival :=
  [sampleArrival 102 8 46 59 [105], sampleArrival 101 8 46 210 [104, 105], sampleArrival 103 1 118 65 [33]]

example : (run (step 0) ⟨sampleSocks, false⟩ sampleArrivals).map (fun s => (received (s.socks.tcb 0), s.fin)) =
    some ([104, 105, 33], true) := by
  decide

theorem received_prefix_three : ∃ s, run (step 0) ⟨sampleSocks, false⟩ sampleArrivals = some s ∧
    received (s.socks.tcb 0) <+: [104, 105, 33] ∧ (s.socks.tcb 0).rcv.nxt =
      100 + 1 + .ofNat (received (s.socks.tcb 0)).length + if s.fin then 1 else 0 := by
  refine ⟨_, rfl, received_prefix sampleSocks 0 (10, 0, 0, 1) (10, 0, 0, 2) 80 1000 [104, 105, 33] sampleArrivals _
    (by decide) (by decide) rfl rfl rfl ?_ rfl⟩
  intro e he
  simp only [sampleArrivals, mem_cons, not_mem_nil, or_false] at he
  rcases he with rfl | rfl | rfl
  · exact ⟨by decide, by decide, by decide, 1, by decide⟩
  · exact ⟨by decide, by decide, by decide, 0, by decide⟩
  · exact ⟨by decide, by decide, by decide, 2, by decide⟩

end TextOS.Net
