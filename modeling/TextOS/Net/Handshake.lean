import TextOS.Lib.Run
import TextOS.Net.TcpSock

/-!
# The handshake of two hosts

One host opens a connection with `tcp_connect`, the other one has a listening socket. The network may deliver every
segment that was sent any number of times, in any order, or never; each `SYN` that reaches the listening socket makes a
connection of its own, with an initial sequence number from the tick count at that time.

- **both sides agree** (`handshake_agrees`): once both are established, each has the other's initial sequence number.
-/

namespace TextOS.Net

open Lib List Function Option

/-! ## The two hosts -/

/-- The host that opens the connection and the one that listens. -/
structure Pair where
  cli : Socks
  srv : Socks

/-- The buffer `m` has the segment `x`, sent from `addr`. -/
def Conveys (addr : Ipv4) (x : TxSeg) (ip : UInt64) (m : Mbuf) : Prop :=
  (segOf ip m).hdr = ⟨x.sport, x.dport, x.seqnr, x.acknr, x.flgs⟩ ∧ (segOf ip m).sip = addr ∧
    (segOf ip m).dip = x.dip ∧ (segOf ip m).buf.bytes = x.data
deriving Decidable

/-- A call, or the delivery of the `k`-th segment that the other host has sent. -/
inductive PairOp
  | connect (raddr : Ipv4) (rport : UInt16) (tick : UInt32)
  | accept (bad fd : Bool)
  | toSrv (k : Nat) (tick : UInt32) (ip : UInt64) (m : Mbuf)
  | toCli (k : Nat) (tick : UInt32) (ip : UInt64) (m : Mbuf)

/-- The hosts have the addresses `caddr` and `saddr`, and use the sockets `c` and `l`. -/
def pairStep (caddr saddr : Ipv4) (c l : Nat) (s : Pair) : PairOp → Option Pair
  | .connect raddr rport tick => (tcpConnect s.cli c raddr rport tick).map fun n => { s with cli := n }
  | .accept bad fd => (tcpAccept s.srv l bad fd).map fun r => { s with srv := r.1 }
  | .toSrv k tick ip m => s.cli.tx[k]?.bind fun x =>
    if Conveys caddr x ip m then (sockRxTcp tick s.srv ip m).map fun n => { s with srv := n } else none
  | .toCli k tick ip m => s.srv.tx[k]?.bind fun x =>
    if Conveys saddr x ip m then (sockRxTcp tick s.cli ip m).map fun n => { s with cli := n } else none

/-! ## What is sent and received -/

variable {t t' u : Tcp} {seg : Seg} {acts : List Act} {x : TxSeg} {ip : UInt64} {m : Mbuf} {addr : Ipv4}

/-- A segment without data and `FIN`. -/
structure Plain (seg : Seg) : Prop where
  fin : seg.hdr.fin = false
  seqlen : seg.hdr.syn = false → seg.seqlen = 0

/-- Neither data nor `FIN` is to be sent. -/
structure Unsent (t : Tcp) : Prop where
  que : t.snd.sndQue = []
  shutWr : t.shutWr = false

/-- What the handshake is about stays. -/
structure Still (t t' : Tcp) : Prop where
  state : t'.state = t.state
  key : t'.key = t.key
  ptcp : t'.ptcp = t.ptcp
  passive : t'.passive = t.passive
  shutWr : t'.shutWr = t.shutWr
  que : t'.snd.sndQue = t.snd.sndQue
  iss : t'.snd.iss = t.snd.iss
  nxt : t'.snd.nxt = t.snd.nxt
  rcv : t'.rcv = t.rcv

theorem Still.refl (t : Tcp) : Still t t := ⟨rfl, rfl, rfl, rfl, rfl, rfl, rfl, rfl, rfl⟩

theorem Still.woken (t : Tcp) : Still t { t with synWaiter := false } := ⟨rfl, rfl, rfl, rfl, rfl, rfl, rfl, rfl, rfl⟩

theorem Still.unsent (h : Still t t') (hu : Unsent t) : Unsent t' := ⟨h.que.trans hu.que, h.shutWr.trans hu.shutWr⟩

theorem tcpTxAck_still (h : Still t t') : tcpTxAck t' = tcpTxAck t := by
  simp only [tcpTxAck, Tcp.out, h.state, h.key, h.iss, h.nxt, h.rcv]

theorem tcpDoXmit_still (hu : Unsent t) : Still t (tcpDoXmit t).1 ∧ (tcpDoXmit t).2 = [] := by
  unfold tcpDoXmit
  split
  · exact ⟨.refl t, rfl⟩
  rw [hu.que]
  have hfin : xmitFin (xmitLoop { t with tmrAck := false } []).1 =
    ((xmitLoop { t with tmrAck := false } []).1, []) := by
    simp [xmitFin, xmitLoop, hu.shutWr]
  dsimp only
  rw [hfin]
  exact ⟨⟨rfl, rfl, rfl, rfl, rfl, hu.que.symm, rfl, rfl, rfl⟩, rfl⟩

theorem tcpXAck_still (hu : Unsent t) : Still t (tcpXAck t seg).1 ∧ ∀ a ∈ (tcpXAck t seg).2, a = .tx (tcpTxAck t) := by
  unfold tcpXAck
  split
  · exact ⟨.refl t, forall_mem_nil _⟩
  split
  · exact ⟨.refl t, fun a ha => mem_singleton.1 ha⟩
  obtain ⟨h, hacts⟩ := tcpDoXmit_still (t := { t with snd := { t.snd with
    unaQue := t.snd.unaQue.filter fun m => !decide (m.id < seg.hdr.acknr.toUInt64), una := seg.hdr.acknr } })
    ⟨hu.que, hu.shutWr⟩
  refine ⟨{ h with }, fun a ha => ?_⟩
  rw [hacts] at ha
  exact absurd ha not_mem_nil

theorem tcpRxData_still (h0 : seg.seqlen = 0) : (tcpRxData t seg).1 = t ∧
    ∀ a ∈ (tcpRxData t seg).2, a = .tx (tcpTxAck t) := by
  unfold tcpRxData
  split
  · exact ⟨rfl, fun a ha => mem_singleton.1 ha⟩
  split
  · exact ⟨rfl, forall_mem_nil _⟩
  · exact ⟨rfl, forall_mem_nil _⟩

/-- **An established connection stays as it is**, and only acknowledges. -/
theorem tcpRxEstablished_still (hp : Plain seg) (hu : Unsent t) (h : tcpRxEstablished t seg = some (t', acts)) :
    Still t t' ∧ ∀ a ∈ acts, a = .tx (tcpTxAck t) := by
  unfold tcpRxEstablished at h
  split at h
  · cases h
    exact ⟨⟨rfl, rfl, rfl, rfl, rfl, rfl, rfl, rfl, rfl⟩, forall_mem_nil _⟩
  split at h
  · cases h
    exact ⟨.refl t, fun a ha => mem_singleton.1 ha⟩
  next hsyn =>
  have hack : Still t (if seg.hdr.ack then tcpXAck t seg else (t, [])).1 ∧
      ∀ a ∈ (if seg.hdr.ack then tcpXAck t seg else (t, [])).2, a = .tx (tcpTxAck t) := by
    split
    · exact tcpXAck_still hu
    · exact ⟨.refl t, forall_mem_nil _⟩
  generalize (if seg.hdr.ack then tcpXAck t seg else (t, [])) = r at h hack
  obtain ⟨hst, hacts⟩ := hack
  obtain ⟨hd, hdacts⟩ := tcpRxData_still (t := r.1) (hp.seqlen (by simpa using hsyn))
  split at h
  · cases h
  dsimp only at h
  rw [hp.fin, if_neg Bool.false_ne_true] at h
  cases h
  refine ⟨by rw [hd]; exact hst, fun a ha => ?_⟩
  rcases mem_append.1 ha with ha | ha
  · exact hacts a ha
  · rw [hdacts a ha, tcpTxAck_still hst]

/-- The flags of the segments without data: `RST`, `RST|ACK`, `ACK`, `SYN|ACK`. -/
def SrvSays (x : TxSeg) : Prop := x.data = [] ∧ (x.flgs = 4 ∨ x.flgs = 20 ∨ x.flgs = 16 ∨ x.flgs = 18)

theorem srvSays_ack (t : Tcp) : SrvSays (tcpTxAck t) := by
  unfold tcpTxAck
  split
  · exact ⟨rfl, .inr (.inr (.inr rfl))⟩
  · exact ⟨rfl, .inr (.inr (.inl rfl))⟩

theorem tcpTxReset_rst {a : Act} (ha : a ∈ tcpTxReset seg) : ∃ x, a = .tx x ∧ x.data = [] ∧
    (x.flgs = 4 ∨ x.flgs = 20) := by
  unfold tcpTxReset at ha
  split at ha
  · exact ⟨_, mem_singleton.1 ha, rfl, .inl rfl⟩
  · exact ⟨_, mem_singleton.1 ha, rfl, .inr rfl⟩

/-! ## The client -/

/-- The client has sent its `SYN`. -/
def Tcp.Asked (t : Tcp) : Prop := t.key.rport ≠ 0

/-- The client has taken a `SYN`. -/
def Tcp.Synced (t : Tcp) : Prop := t.state = .synRcvd ∨ t.state = .established

/-- The client, whose handshake is not begun, or under way, or finished, or has failed. -/
structure Opener (t : Tcp) : Prop where
  state : t.state = .closed ∨ t.state = .synSent ∨ t.Synced
  asked : t.state ≠ .closed → t.Asked
  synced : t.Synced → t.rcv.nxt = t.rcv.irs + 1
  passive : t.passive = false
  ptcp : t.ptcp = none
  unsent : Unsent t

/-- What a segment sent by the client can be. -/
def CliSays (t : Tcp) (x : TxSeg) : Prop :=
  x.data = [] ∧ (x.flgs = 4 ∨ x.flgs = 20 ∨ (x.flgs = 2 ∧ t.Asked ∧ x.seqnr = t.snd.iss) ∨ x.flgs = 18 ∨
    (x.flgs = 16 ∧ t.Synced ∧ x.acknr = t.rcv.irs + 1))

/-- What the client has chosen and taken is final. -/
structure Grows (t t' : Tcp) : Prop where
  asked : t.Asked → t'.Asked ∧ t'.snd.iss = t.snd.iss
  synced : t.Synced → t'.Synced ∧ t'.rcv.irs = t.rcv.irs

theorem Grows.refl (t : Tcp) : Grows t t := ⟨fun h => ⟨h, rfl⟩, fun h => ⟨h, rfl⟩⟩

theorem CliSays.grows (h : CliSays t x) (hg : Grows t t') : CliSays t' x := by
  obtain ⟨hd, h | h | ⟨h, ha, hs⟩ | h | ⟨h, hy, hk⟩⟩ := h
  · exact ⟨hd, .inl h⟩
  · exact ⟨hd, .inr (.inl h)⟩
  · exact ⟨hd, .inr (.inr (.inl ⟨h, (hg.asked ha).1, hs.trans (hg.asked ha).2.symm⟩))⟩
  · exact ⟨hd, .inr (.inr (.inr (.inl h)))⟩
  · exact ⟨hd, .inr (.inr (.inr (.inr ⟨h, (hg.synced hy).1, by rw [hk, (hg.synced hy).2]⟩)))⟩

theorem cliSays_ack (ho : Opener t) (hs : t.Synced) : CliSays t (tcpTxAck t) := by
  unfold tcpTxAck
  split
  · exact ⟨rfl, .inr (.inr (.inr (.inl rfl)))⟩
  · exact ⟨rfl, .inr (.inr (.inr (.inr ⟨rfl, hs, ho.synced hs⟩)))⟩

/-- The new control block and the segments to send. -/
def CliMoves (t t' : Tcp) (acts : List Act) : Prop :=
  Opener t' ∧ Grows t t' ∧ ∀ a ∈ acts, ∃ x, a = .tx x ∧ CliSays t' x

theorem cliMoves_reset (seg : Seg) (ho : Opener t) : CliMoves t t (tcpTxReset seg) := by
  refine ⟨ho, .refl t, fun a ha => ?_⟩
  obtain ⟨x, rfl, hd, hf | hf⟩ := tcpTxReset_rst ha
  · exact ⟨x, rfl, hd, .inl hf⟩
  · exact ⟨x, rfl, hd, .inr (.inl hf)⟩

theorem Still.opener (h : Still t t') (ho : Opener t) : Opener t' ∧ Grows t t' := by
  have hsyn : t'.Synced ↔ t.Synced := by rw [Tcp.Synced, Tcp.Synced, h.state]
  have hask : t'.Asked ↔ t.Asked := by rw [Tcp.Asked, Tcp.Asked, h.key]
  refine ⟨⟨?_, ?_, ?_, ?_, ?_, h.unsent ho.unsent⟩, fun ha => ⟨hask.2 ha, h.iss⟩, fun hs => ⟨hsyn.2 hs, by rw [h.rcv]⟩⟩
  · rw [h.state, hsyn]
    exact ho.state
  · rw [h.state, hask]
    exact ho.asked
  · rw [h.rcv, hsyn]
    exact ho.synced
  · rw [h.passive, ho.passive]
  · rw [h.ptcp, ho.ptcp]

/-- What a segment does to the opening client. -/
theorem tcpRxSent_moves (ho : Opener t) (hst : t.state = .synSent)
    (hrst : ¬ (seg.hdr.rst = true ∧ seg.hdr.syn = true)) : CliMoves t (tcpRxSent t seg).1 (tcpRxSent t seg).2 := by
  have hno : ¬ t.Synced := by simp [Tcp.Synced, hst]
  have hask := ho.asked (by simp [hst])
  have hgrow : ∀ {v : Tcp}, v.key = t.key → v.snd.iss = t.snd.iss → Grows t v := fun hk hi =>
    ⟨fun _ => ⟨by rw [Tcp.Asked, hk]; exact hask, hi⟩, fun hs => absurd hs hno⟩
  unfold tcpRxSent
  split
  · exact cliMoves_reset seg ho
  by_cases hsyn : seg.hdr.syn = true
  · have hr : (seg.hdr.rst && seg.hdr.ack) = false := by
      rw [Bool.and_eq_false_iff]
      exact .inl (by simpa [hsyn] using hrst)
    rw [hr, if_neg Bool.false_ne_true, if_pos hsyn]
    generalize (if seg.hdr.ack = true then seg.hdr.acknr else t.snd.una) = una
    have hnew : ∀ st, st = .synRcvd ∨ st = .established → Opener { t with
        state := st, snd.una := una, rcv := { t.rcv with irs := seg.seqnr, nxt := seg.seqnr + 1 } } := fun st hs =>
      ⟨.inr (.inr hs), fun _ => hask, fun _ => rfl, ho.passive, ho.ptcp, ho.unsent.que, ho.unsent.shutWr⟩
    dsimp only
    split
    · have ho' := hnew .established (.inr rfl)
      have h := (Still.woken _).opener ho'
      refine ⟨h.1, hgrow rfl rfl, fun a ha => ⟨_, mem_singleton.1 ha, ?_⟩⟩
      exact (cliSays_ack ho' (.inr rfl)).grows h.2
    · have ho' := hnew .synRcvd (.inl rfl)
      exact ⟨ho', hgrow rfl rfl, fun a ha => ⟨_, mem_singleton.1 ha, cliSays_ack ho' (.inl rfl)⟩⟩
  · split
    · refine ⟨⟨.inl rfl, fun h => absurd rfl h, ?_, ho.passive, ho.ptcp, ho.unsent.que, ho.unsent.shutWr⟩,
        hgrow rfl rfl, forall_mem_nil _⟩
      simp [Tcp.Synced, tcpExitWith]
    · exact ⟨ho, .refl t, forall_mem_nil _⟩

/-- `SYN_RCVD`, where the client gets with a `SYN` that has no `ACK`. -/
theorem tcpRxRcvd_moves (ho : Opener t) (hst : t.state = .synRcvd) :
    CliMoves t (tcpRxRcvd t seg).1 (tcpRxRcvd t seg).2 := by
  have hs : t.Synced := .inl hst
  have hask := ho.asked (by simp [hst])
  unfold tcpRxRcvd
  rw [ho.passive, ho.ptcp, Bool.and_false]
  split
  · have h : Still t (tcpExitWith t (-111)) := ⟨rfl, rfl, rfl, rfl, rfl, rfl, rfl, rfl, rfl⟩
    exact ⟨(h.opener ho).1, (h.opener ho).2, forall_mem_nil _⟩
  rw [if_neg Bool.false_ne_true]
  split
  · split
    · refine ⟨⟨.inr (.inr (.inr rfl)), fun _ => hask, fun _ => ho.synced hs, rfl, rfl, ho.unsent.que, ho.unsent.shutWr⟩,
        ⟨fun ha => ⟨ha, rfl⟩, fun _ => ⟨.inr rfl, rfl⟩⟩, forall_mem_nil _⟩
    · exact cliMoves_reset seg ho
  · exact ⟨ho, .refl t, forall_mem_nil _⟩

/-- **What a segment of the server does to the client.** -/
theorem tcpRx_moves {tick : UInt32} {self : Nat} (ho : Opener t) (hp : Plain seg)
    (hrst : ¬ (seg.hdr.rst = true ∧ seg.hdr.syn = true)) (h : tcpRx tick self t seg = some (t', acts)) :
    CliMoves t t' acts := by
  unfold tcpRx at h
  rcases ho.state with hst | hst | hst | hst
  · rw [hst] at h
    cases h
    exact cliMoves_reset seg ho
  · rw [hst] at h
    obtain ⟨rfl, rfl⟩ := Prod.mk.inj (some.inj h)
    exact tcpRxSent_moves ho hst hrst
  · rw [hst] at h
    obtain ⟨rfl, rfl⟩ := Prod.mk.inj (some.inj h)
    exact tcpRxRcvd_moves ho hst
  rw [hst] at h
  obtain ⟨hs, hacts⟩ := tcpRxEstablished_still hp ho.unsent h
  refine ⟨(hs.opener ho).1, (hs.opener ho).2, fun a ha => ⟨_, hacts a ha, ?_⟩⟩
  exact (cliSays_ack ho (.inr hst)).grows (hs.opener ho).2

/-! ## The connections of the server -/

variable {l i : Nat} {tick : UInt32} {n : Socks}

/-- A connection of the listening socket `l`, whose client is `t`. -/
structure Conn (t : Tcp) (l : Nat) (u : Tcp) : Prop where
  state : u.Synced
  una : u.state = .synRcvd → u.snd.una = u.snd.iss
  nxt : u.snd.nxt = u.snd.iss + 1
  ptcp : u.ptcp = some l
  passive : u.passive = true
  unsent : Unsent u
  asked : t.Asked
  irs : u.rcv.irs = t.snd.iss
  agrees : u.state = .established → t.Synced ∧ t.rcv.irs = u.snd.iss

theorem Conn.grows (h : Conn t l u) (hg : Grows t t') : Conn t' l u := by
  obtain ⟨hask, hiss⟩ := hg.asked h.asked
  refine { h with asked := hask, irs := h.irs.trans hiss.symm, agrees := fun hst => ?_ }
  obtain ⟨hs, hirs⟩ := h.agrees hst
  exact ⟨(hg.synced hs).1, (hg.synced hs).2.trans hirs⟩

/-- In `SYN_RCVD` nothing but the own `SYN` can be acknowledged. -/
theorem rcvd_ack {iss ack : UInt32} (h : (seqLt iss ack && seqLe ack (iss + 1)) = true) : ack = iss + 1 := by
  rw [seqLt, seqLe, seqLt, Bool.and_eq_true, decide_eq_true_iff, Bool.or_eq_true, beq_iff_eq, decide_eq_true_iff] at h
  obtain ⟨h1, h2 | h2⟩ := h
  · exact h2
  rw [UInt32.toNat_sub] at h1 h2
  rw [UInt32.toNat_add] at h2
  have := iss.toNat_lt
  have := ack.toNat_lt
  have h3 : (1 : UInt32).toNat = 1 := rfl
  omega

section Flags

variable (h : Conveys addr x ip m)

include h

theorem Conveys.fin : (segOf ip m).hdr.fin = (x.flgs &&& 1 != 0) := by rw [h.1, Hdr.fin]
theorem Conveys.syn : (segOf ip m).hdr.syn = (x.flgs &&& 2 != 0) := by rw [h.1, Hdr.syn]
theorem Conveys.rst : (segOf ip m).hdr.rst = (x.flgs &&& 4 != 0) := by rw [h.1, Hdr.rst]
theorem Conveys.ack : (segOf ip m).hdr.ack = (x.flgs &&& 16 != 0) := by rw [h.1, Hdr.ack]

end Flags

theorem Conveys.plain (h : Conveys addr x ip m) (hd : x.data = []) (hf : x.flgs &&& 1 = 0) : Plain (segOf ip m) := by
  have hfin : (segOf ip m).hdr.fin = false := by
    rw [h.fin, hf]
    rfl
  refine ⟨hfin, fun hsyn => ?_⟩
  rw [seqlen_eq ip m hsyn, h.2.2.2, hd, hfin]
  rfl

theorem SrvSays.plain (hx : SrvSays x) (h : Conveys addr x ip m) :
    Plain (segOf ip m) ∧ ¬ ((segOf ip m).hdr.rst = true ∧ (segOf ip m).hdr.syn = true) := by
  obtain ⟨hd, hf⟩ := hx
  refine ⟨h.plain hd ?_, ?_⟩
  · rcases hf with hf | hf | hf | hf <;> rw [hf] <;> rfl
  · rw [h.rst, h.syn]
    rcases hf with hf | hf | hf | hf <;> rw [hf] <;> decide

theorem CliSays.plain (hx : CliSays t x) (h : Conveys addr x ip m) : Plain (segOf ip m) := by
  obtain ⟨hd, hf⟩ := hx
  apply h.plain hd
  rcases hf with hf | hf | ⟨hf, -⟩ | hf | ⟨hf, -⟩ <;> rw [hf] <;> rfl

/-- What a connection asks for. -/
def ConnAct (a : Act) : Prop := (∃ x, a = .tx x ∧ SrvSays x) ∨ a = .orphan ∨ a = .offer

theorem tcpTxReset_said {a : Act} (ha : a ∈ tcpTxReset seg) : ∃ x, a = .tx x ∧ SrvSays x := by
  obtain ⟨x, rfl, hd, hf | hf⟩ := tcpTxReset_rst ha
  · exact ⟨x, rfl, hd, .inl hf⟩
  · exact ⟨x, rfl, hd, .inr (.inl hf)⟩

/-- A half-open connection is established by the acknowledgement of its own `SYN`, which the client sends only if that
is the `SYN` it took. -/
theorem tcpRxRcvd_conn (hc : Conn t l u) (hst : u.state = .synRcvd) (hx : CliSays t x) (hv : Conveys addr x ip m) :
    Conn t l (tcpRxRcvd u (segOf ip m)).1 ∧ ∀ a ∈ (tcpRxRcvd u (segOf ip m)).2, ConnAct a := by
  have hsame : ∀ {a : Act}, a ∈ [Act.orphan] → ConnAct a := fun ha => .inr (.inl (mem_singleton.1 ha))
  unfold tcpRxRcvd
  rw [hc.passive, if_pos rfl, Bool.and_true]
  split
  · exact ⟨hc, fun _ => hsame⟩
  next hrst =>
  split
  · exact ⟨hc, fun _ => hsame⟩
  next hsyn =>
  split
  · split
    · next hacc =>
      have hack := rcvd_ack (by rw [hc.una hst, hc.nxt] at hacc; exact hacc)
      obtain ⟨hs, hk⟩ : t.Synced ∧ x.acknr = t.rcv.irs + 1 := by
        rw [hv.rst] at hrst
        rw [hv.syn] at hsyn
        rcases hx.2 with hf | hf | ⟨hf, -⟩ | hf | ⟨-, h⟩
        · exact absurd (by rw [hf]; decide) hrst
        · exact absurd (by rw [hf]; decide) hrst
        · exact absurd (by rw [hf]; decide) hsyn
        · exact absurd (by rw [hf]; decide) hsyn
        · exact h
      have hirs : t.rcv.irs = u.snd.iss := by
        rw [hv.1, hk] at hack
        simpa using hack
      rw [hc.ptcp]
      refine ⟨⟨.inr rfl, nofun, hc.nxt, rfl, rfl, ⟨hc.unsent.que, hc.unsent.shutWr⟩, hc.asked, hc.irs,
        fun _ => ⟨hs, hirs⟩⟩, ?_⟩
      exact fun a ha => .inr (.inr (mem_singleton.1 ha))
    · exact ⟨hc, fun a ha => .inl (tcpTxReset_said ha)⟩
  · exact ⟨hc, forall_mem_nil _⟩

/-- **What a segment of the client does to a connection of the server.** -/
theorem tcpRx_conn (hc : Conn t l u) (hx : CliSays t x) (hv : Conveys addr x ip m)
    (h : tcpRx tick i u (segOf ip m) = some (t', acts)) : Conn t l t' ∧ ∀ a ∈ acts, ConnAct a := by
  unfold tcpRx at h
  rcases hc.state with hst | hst
  · rw [hst] at h
    obtain ⟨rfl, rfl⟩ := Prod.mk.inj (some.inj h)
    exact tcpRxRcvd_conn hc hst hx hv
  rw [hst] at h
  obtain ⟨hs, hacts⟩ := tcpRxEstablished_still (hx.plain hv) hc.unsent h
  refine ⟨⟨?_, ?_, ?_, ?_, ?_, hs.unsent hc.unsent, hc.asked, ?_, fun _ => ?_⟩,
    fun a ha => .inl ⟨_, hacts a ha, srvSays_ack u⟩⟩
  · rw [Tcp.Synced, hs.state]
    exact hc.state
  · rw [hs.state, hst]
    exact nofun
  · rw [hs.nxt, hs.iss, hc.nxt]
  · rw [hs.ptcp, hc.ptcp]
  · rw [hs.passive, hc.passive]
  · rw [hs.rcv, hc.irs]
  · rw [hs.iss]
    exact hc.agrees hst

/-- A listener answers the client's segment, and may set up a connection for it. -/
theorem tcpRxListen_conn (tick : UInt32) (l : Nat) (hst : u.state = .listen) (hx : CliSays t x)
    (hv : Conveys addr x ip m) : (tcpRxListen tick l u (segOf ip m)).1.state = .listen ∧
    ∀ a ∈ (tcpRxListen tick l u (segOf ip m)).2,
      (∃ x, a = .tx x ∧ SrvSays x) ∨ ∃ conn, a = .spawn conn ∧ Conn t l conn := by
  unfold tcpRxListen
  split
  · exact ⟨hst, forall_mem_nil _⟩
  next hrst =>
  split
  · exact ⟨hst, fun a ha => .inl (tcpTxReset_said ha)⟩
  next hack =>
  split
  · refine ⟨hst, fun a ha => ?_⟩
    obtain ⟨hask, hseq⟩ : t.Asked ∧ x.seqnr = t.snd.iss := by
      rw [hv.rst] at hrst
      rw [hv.ack] at hack
      rcases hx.2 with hf | hf | ⟨-, h⟩ | hf | ⟨hf, -⟩
      · exact absurd (by rw [hf]; decide) hrst
      · exact absurd (by rw [hf]; decide) hrst
      · exact h
      · exact absurd (by rw [hf]; decide) hack
      · exact absurd (by rw [hf]; decide) hack
    have hirs : (segOf ip m).seqnr = t.snd.iss := by
      rw [← hseq]
      exact congrArg Hdr.seqnr hv.1
    rcases mem_append.1 ha with ha | ha
    · split at ha
      · exact absurd ha not_mem_nil
      · exact .inl (tcpTxReset_said ha)
    rcases mem_cons.1 ha with rfl | ha
    · exact .inr ⟨_, rfl, .inl rfl, fun _ => rfl, rfl, rfl, rfl, ⟨rfl, rfl⟩, hask, hirs, nofun⟩
    · exact .inl ⟨_, mem_singleton.1 ha, rfl, .inr (.inr (.inr rfl))⟩
  · exact ⟨hst, forall_mem_nil _⟩

/-! ## The sockets of the server -/

/-- The listening socket and its connections, whose client is `t`. -/
structure Server (t : Tcp) (l : Nat) (n : Socks) : Prop where
  listen : n.listen = [l]
  lt : l < n.next
  state : (n.tcb l).state = .listen
  common : ∀ i ∈ n.common, i < n.next ∧ i ≠ l
  conn : ∀ i < n.next, i ≠ l → Conn t l (n.tcb i)
  tx : ∀ x ∈ n.tx, SrvSays x

theorem Server.grows (h : Server t l n) (hg : Grows t t') : Server t' l n :=
  { h with conn := fun i hi hne => (h.conn i hi hne).grows hg }

theorem Server.setListen (h : Server t l n) (hu : u.state = .listen) :
    Server t l { n with tcb := update n.tcb l u } := by
  refine ⟨h.listen, h.lt, ?_, h.common, fun i hi hne => ?_, h.tx⟩
  · dsimp only
    rw [update_self, hu]
  dsimp only
  rw [update_of_ne hne]
  exact h.conn i hi hne

theorem Server.setConn (h : Server t l n) (hne : i ≠ l) (hu : Conn t l u) :
    Server t l { n with tcb := update n.tcb i u } := by
  refine ⟨h.listen, h.lt, ?_, h.common, fun j hj hjl => ?_, h.tx⟩
  · dsimp only
    rw [update_of_ne hne.symm, h.state]
  by_cases hji : j = i
  · subst hji
    simpa using hu
  dsimp only
  rw [update_of_ne hji]
  exact h.conn j hj hjl

theorem Server.send (h : Server t l n) (hx : SrvSays x) : Server t l { n with tx := n.tx ++ [x] } := by
  refine { h with tx := fun y hy => ?_ }
  rcases mem_append.1 hy with hy | hy
  · exact h.tx y hy
  · rw [mem_singleton.1 hy]
    exact hx

theorem Server.drop (h : Server t l n) (hne : i ≠ l) :
    Server t l { n with common := n.common.erase i, listen := n.listen.erase i } := by
  refine { h with listen := ?_, common := fun j hj => h.common j (mem_of_mem_erase hj) }
  rw [h.listen]
  exact erase_of_not_mem (by simpa using hne)

theorem Server.connAct {a : Act} (h : Server t l n) (hi : i < n.next) (hne : i ≠ l) (ha : ConnAct a) :
    Server t l (n.act i a) ∧ (n.act i a).next = n.next := by
  have hp := (h.conn i hi hne).ptcp
  rcases ha with ⟨x, rfl, hx⟩ | rfl | rfl
  · exact ⟨h.send hx, rfl⟩
  · refine ⟨?_, rfl⟩
    rw [Socks.act, hp]
    exact (h.drop hne).setListen h.state
  · rw [Socks.act, hp]
    exact ⟨h.setListen h.state, rfl⟩

theorem Server.connActs (h : Server t l n) (hi : i < n.next) (hne : i ≠ l) (ha : ∀ a ∈ acts, ConnAct a) :
    Server t l (acts.foldl (Socks.act i) n) := by
  induction acts generalizing n with
  | nil => exact h
  | cons a acts ih =>
    obtain ⟨h', hn⟩ := h.connAct hi hne (ha a mem_cons_self)
    exact ih h' (by omega) fun b hb => ha b (mem_cons_of_mem a hb)

/-- The server after a connection has been set up. -/
theorem Server.spawn {conn : Tcp} (h : Server t l n) (hc : Conn t l conn) : Server t l (n.act l (.spawn conn)) := by
  have hne : n.next ≠ l := Nat.ne_of_gt h.lt
  refine ⟨h.listen, Nat.lt_succ_of_lt h.lt, ?_, fun i hi => ?_, fun i hi hil => ?_, h.tx⟩
  · rw [Socks.act]
    dsimp only
    rw [update_self, h.state]
  · rcases mem_cons.1 hi with rfl | hi
    · exact ⟨Nat.lt_succ_self _, hne⟩
    · exact ⟨Nat.lt_succ_of_lt (h.common i hi).1, (h.common i hi).2⟩
  rw [Socks.act]
  dsimp only
  rw [update_of_ne hil]
  by_cases he : i = n.next
  · rw [he, update_self]
    exact hc
  · rw [update_of_ne he]
    exact h.conn i (by have : i < n.next + 1 := hi; omega) hil

theorem Server.listenActs (h : Server t l n)
    (ha : ∀ a ∈ acts, (∃ x, a = .tx x ∧ SrvSays x) ∨ ∃ conn, a = .spawn conn ∧ Conn t l conn) :
    Server t l (acts.foldl (Socks.act l) n) := by
  induction acts generalizing n with
  | nil => exact h
  | cons a acts ih =>
    have hrest := fun b hb => ha b (mem_cons_of_mem a hb)
    rcases ha a mem_cons_self with ⟨x, rfl, hx⟩ | ⟨conn, rfl, hc⟩
    · exact ih (h.send hx) hrest
    · exact ih (h.spawn hc) hrest

/-- **A segment of the client keeps the sockets of the server as they should be.** -/
theorem Server.rx {n' : Socks} (h : Server t l n) (hx : CliSays t x) (hv : Conveys addr x ip m)
    (hr : sockRxTcp tick n ip m = some n') : Server t l n' := by
  unfold sockRxTcp at hr
  dsimp only at hr
  split at hr
  · cases hr
    exact h
  split at hr
  · cases hr
    obtain ⟨tx, he, hmem⟩ := foldl_act_quiet 0 n (quiet_tcpTxReset (segOf ip m))
    rw [he]
    refine { h with tx := fun y hy => (hmem y hy).elim (h.tx y) fun ha => ?_ }
    obtain ⟨z, hz, hsaid⟩ := tcpTxReset_said ha
    rw [Act.tx.inj hz]
    exact hsaid
  next i hf =>
  obtain ⟨⟨u, acts⟩, hrx, rfl⟩ := map_eq_some_iff.1 hr
  rcases findTcb_mem hf with hi | hi
  · obtain ⟨hlt, hne⟩ := h.common i hi
    obtain ⟨hc, ha⟩ := tcpRx_conn (h.conn i hlt hne) hx hv hrx
    exact (h.setConn hne hc).connActs hlt hne ha
  rw [h.listen, mem_singleton] at hi
  subst hi
  obtain ⟨hst, ha⟩ := tcpRxListen_conn tick i h.state hx hv
  have hrx' : tcpRxListen tick i (n.tcb i) (segOf ip m) = (u, acts) := by
    rw [tcpRx, h.state] at hrx
    exact some.inj hrx
  rw [hrx'] at hst ha
  exact (h.setListen hst).listenActs ha

/-! ## Runs -/

/-- The client `c` on its host, and the server. -/
structure PairInv (c l : Nat) (s : Pair) : Prop where
  common : s.cli.common = [c]
  listen : s.cli.listen = []
  opener : Opener (s.cli.tcb c)
  tx : ∀ x ∈ s.cli.tx, CliSays (s.cli.tcb c) x
  srv : Server (s.cli.tcb c) l s.srv

section Run

variable {c : Nat} {caddr saddr : Ipv4} {s s' : Pair} {o : PairOp} {cli : Socks}

theorem PairInv.move (hi : PairInv c l s) (hcommon : cli.common = [c])
    (hlisten : cli.listen = []) (ho : Opener (cli.tcb c)) (hg : Grows (s.cli.tcb c) (cli.tcb c))
    (htx : ∀ x ∈ cli.tx, x ∈ s.cli.tx ∨ CliSays (cli.tcb c) x) : PairInv c l { s with cli := cli } :=
  ⟨hcommon, hlisten, ho, fun x hx => (htx x hx).elim (fun h => (hi.tx x h).grows hg) id, hi.srv.grows hg⟩

theorem ckLport_spec {n' : Socks} (h : ckLport n i = some n') : ∃ port bmp, n' = { n with
    tcb := update n.tcb i { n.tcb i with key := { (n.tcb i).key with lport := port } }, bmp := bmp } := by
  unfold ckLport at h
  split at h
  · cases h
    exact ⟨(n.tcb i).key.lport, n.bmp, by simp⟩
  · obtain ⟨port, -, rfl⟩ := map_eq_some_iff.1 h
    exact ⟨port, _, rfl⟩

/-- What `tcp_connect` does to a socket, once: it takes a port and sends a `SYN`. -/
theorem tcpConnect_cases {raddr : Ipv4} {rport : UInt16} {n' : Socks} (h : tcpConnect n i raddr rport tick = some n') :
    n' = n ∨ (¬ (n.tcb i).Asked ∧ (n'.tcb i).Asked ∧ (n'.tcb i).state = .synSent ∧ n'.common = n.common ∧
      n'.listen = n.listen ∧ (∃ x, n'.tx = n.tx ++ [x] ∧ x.data = [] ∧ x.flgs = 2 ∧ x.seqnr = (n'.tcb i).snd.iss) ∧
      (n'.tcb i).passive = (n.tcb i).passive ∧ (n'.tcb i).ptcp = (n.tcb i).ptcp ∧
      (Unsent (n.tcb i) → Unsent (n'.tcb i))) := by
  unfold tcpConnect at h
  split at h
  · exact .inl (some.inj h).symm
  next hport =>
  obtain ⟨hold, hnew⟩ := not_or.1 hport
  obtain ⟨n1, hn, hs⟩ := bind_eq_some_iff.1 h
  obtain ⟨port, bmp, rfl⟩ := ckLport_spec hn
  dsimp only at hs
  rw [update_self, update_self] at hs
  split at hs
  · cases hs
  cases hs
  dsimp only
  rw [update_self]
  exact .inr ⟨hold, hnew, rfl, rfl, rfl, ⟨_, rfl, rfl, rfl, rfl⟩, rfl, rfl, fun hu => ⟨hu.que, hu.shutWr⟩⟩

/-- The client's `connect` keeps the invariant. -/
theorem PairInv.connect {raddr : Ipv4} {rport : UInt16} (hi : PairInv c l s)
    (h : tcpConnect s.cli c raddr rport tick = some cli) : PairInv c l { s with cli := cli } := by
  obtain rfl | ⟨hold, hnew, hst, hcommon, hlisten, ⟨x, htx, hd, hf, hseq⟩, hpas, hptcp, hun⟩ := tcpConnect_cases h
  · exact hi
  have hclosed : (s.cli.tcb c).state = .closed := by
    by_contra hne
    exact hold (hi.opener.asked hne)
  have hno : ¬ (s.cli.tcb c).Synced := by simp [Tcp.Synced, hclosed]
  apply hi.move
  · rw [hcommon, hi.common]
  · rw [hlisten, hi.listen]
  · refine ⟨.inr (.inl hst), fun _ => hnew, ?_, hpas.trans hi.opener.passive, hptcp.trans hi.opener.ptcp,
      hun hi.opener.unsent⟩
    simp [Tcp.Synced, hst]
  · exact ⟨fun ha => absurd ha hold, fun hs => absurd hs hno⟩
  intro y hy
  rw [htx] at hy
  rcases mem_append.1 hy with hy | hy
  · exact .inl hy
  · rw [mem_singleton.1 hy]
    exact .inr ⟨hd, .inr (.inr (.inl ⟨hf, hnew, hseq⟩))⟩

theorem Server.accept {bad fd : Bool} {r : Socks × Option Nat} (h : Server t l n) (ha : tcpAccept n l bad fd = some r) :
    Server t l r.1 := by
  unfold tcpAccept at ha
  dsimp only at ha
  split at ha
  · split at ha
    · cases ha
    · cases ha
      exact h.setListen h.state
  split at ha
  · cases ha
    exact h.setListen h.state
  · split at ha <;> cases ha <;> exact h.setListen h.state

/-- **A segment of the server keeps the client as it should be.** -/
theorem PairInv.rx (hi : PairInv c l s) (hx : SrvSays x) (hv : Conveys addr x ip m)
    (hr : sockRxTcp tick s.cli ip m = some cli) : PairInv c l { s with cli := cli } := by
  obtain ⟨hp, hrst⟩ := hx.plain hv
  unfold sockRxTcp at hr
  dsimp only at hr
  split at hr
  · cases hr
    exact hi
  split at hr
  · cases hr
    obtain ⟨tx, he, hmem⟩ := foldl_act_quiet 0 s.cli (quiet_tcpTxReset (segOf ip m))
    obtain ⟨-, -, hsaid⟩ := cliMoves_reset (segOf ip m) hi.opener
    rw [he]
    apply hi.move
    · exact hi.common
    · exact hi.listen
    · exact hi.opener
    · exact .refl _
    refine fun x hx => (hmem x hx).imp id fun ha => ?_
    obtain ⟨z, hz, hsaid⟩ := hsaid _ ha
    rw [Act.tx.inj hz]
    exact hsaid
  · next i hf =>
    obtain ⟨⟨u, acts⟩, hrx, rfl⟩ := map_eq_some_iff.1 hr
    obtain rfl : i = c := by
      rcases findTcb_mem hf with hi' | hi'
      · rwa [hi.common, mem_singleton] at hi'
      · rw [hi.listen] at hi'
        exact absurd hi' not_mem_nil
    obtain ⟨ho, hg, hsaid⟩ := tcpRx_moves hi.opener hp hrst hrx
    have hq : Quiet acts := fun a ha => (hsaid a ha).imp fun _ h => h.1
    obtain ⟨tx, he, hmem⟩ := foldl_act_quiet i { s.cli with tcb := update s.cli.tcb i u } hq
    rw [he]
    apply hi.move
    · exact hi.common
    · exact hi.listen
    · simpa using ho
    · simpa using hg
    refine fun x hx => (hmem x hx).imp id fun ha => ?_
    obtain ⟨z, hz, hsaid⟩ := hsaid _ ha
    rw [Act.tx.inj hz]
    simpa using hsaid

/-- One event of the pair keeps the invariant. -/
theorem PairInv.step (hi : PairInv c l s) (h : pairStep caddr saddr c l s o = some s') : PairInv c l s' := by
  cases o with
  | connect raddr rport tick =>
    obtain ⟨cli, hc, rfl⟩ := map_eq_some_iff.1 h
    exact hi.connect hc
  | accept bad fd =>
    obtain ⟨r, ha, rfl⟩ := map_eq_some_iff.1 h
    exact { hi with srv := hi.srv.accept ha }
  | toSrv k tick ip m =>
    obtain ⟨x, hx, h⟩ := bind_eq_some_iff.1 h
    split at h
    · next hv =>
      obtain ⟨srv, hr, rfl⟩ := map_eq_some_iff.1 h
      exact { hi with srv := hi.srv.rx (hi.tx x (mem_of_getElem? hx)) hv hr }
    · cases h
  | toCli k tick ip m =>
    obtain ⟨x, hx, h⟩ := bind_eq_some_iff.1 h
    split at h
    · next hv =>
      obtain ⟨cli, hr, rfl⟩ := map_eq_some_iff.1 h
      exact hi.rx (hi.srv.tx x (mem_of_getElem? hx)) hv hr
    · cases h

end Run

/-- A host with one new socket `c`, and a host with one listening socket `l`. -/
structure Pair.Starts (c l : Nat) (s : Pair) : Prop where
  common : s.cli.common = [c]
  listen : s.cli.listen = []
  new : ∃ t, s.cli.tcb c = tcpNew t
  sent : s.cli.tx = []
  srvCommon : s.srv.common = []
  srvListen : s.srv.listen = [l]
  next : ∀ i, i < s.srv.next ↔ i = l
  state : (s.srv.tcb l).state = .listen
  srvSent : s.srv.tx = []

theorem Pair.Starts.inv {c l : Nat} {s : Pair} (h : s.Starts c l) : PairInv c l s := by
  obtain ⟨t, ht⟩ := h.new
  refine ⟨h.common, h.listen, ?_, ?_, h.srvListen, ?_, h.state, ?_, fun i hi hne => ?_, ?_⟩
  · rw [ht]
    exact ⟨.inl rfl, fun h => absurd rfl h, by simp [Tcp.Synced, tcpNew], rfl, rfl, rfl, rfl⟩
  · rw [h.sent]
    exact forall_mem_nil _
  · exact (h.next l).2 rfl
  · rw [h.srvCommon]
    exact forall_mem_nil _
  · exact absurd ((h.next i).1 hi) hne
  · rw [h.srvSent]
    exact forall_mem_nil _

/-- **Both sides agree**: in every run, whatever the network does with the segments, an established connection of the
server and the client have each other's initial sequence numbers. -/
theorem handshake_agrees (caddr saddr : Ipv4) (c l : Nat) (s₀ s : Pair) (h₀ : s₀.Starts c l) (os : List PairOp)
    (hr : run (pairStep caddr saddr c l) s₀ os = some s) (i : Nat) (hi : i < s.srv.next)
    (hst : (s.srv.tcb i).state = .established) :
    (s.srv.tcb i).rcv.irs = (s.cli.tcb c).snd.iss ∧ (s.cli.tcb c).rcv.irs = (s.srv.tcb i).snd.iss := by
  have hinv : PairInv c l s := run_inv (fun _ _ _ hi h => hi.step h) h₀.inv hr
  have hne : i ≠ l := by
    rintro rfl
    rw [hinv.srv.state] at hst
    cases hst
  have hc := hinv.srv.conn i hi hne
  exact ⟨hc.irs, (hc.agrees hst).2⟩

/-- A host with no socket. -/
def idleSocks : Socks := ⟨fun _ => blank, [], [], 0, (· == 0), []⟩

/-- One host with a new socket, and one that listens on port 80. -/
def samplePair : Pair :=
  ⟨tcpSocket idleSocks, tcpListen ((tcpBind (tcpSocket idleSocks) 0 80 none).getD idleSocks) 0 1⟩

/-- A segment with its IP addresses. -/
def samplePacket (sip dip : UInt8) (bytes : List UInt8) : Mbuf :=
  ⟨fun a => ([0, 0, 0, 0, 0, 0, 0, 0, 0, 0, 0, 0, 10, 0, 0, sip, 10, 0, 0, dip] ++ bytes).getD a.toNat 0, 20,
    .ofNat bytes.length, 0, 0⟩

/-- A handshake in which the `SYN` arrives three times: the first connection is dropped by the second `SYN`, the third
one makes the connection that is established. -/
def sampleHandshake : List PairOp :=
  let syn := samplePacket 1 2 [0, 1, 0, 80, 32, 37, 4, 3, 0, 0, 0, 0, 80, 2, 255, 255, 119, 103, 0, 0]
  let synAck := samplePacket 2 1 [0, 80, 0, 1, 32, 37, 4, 6, 32, 37, 4, 4, 80, 18, 255, 255, 83, 43, 0, 0]
  let ack := samplePacket 1 2 [0, 1, 0, 80, 32, 37, 4, 4, 32, 37, 4, 7, 80, 16, 255, 255, 83, 44, 0, 0]
  [.connect (10, 0, 0, 2) 80 0, .toSrv 0 9 0 syn, .toSrv 0 1 0 syn, .toSrv 0 5 0 syn, .toCli 2 7 0 synAck,
    .toSrv 1 8 0 ack]

theorem handshake_agrees_third : ∃ s, run (pairStep (10, 0, 0, 1) (10, 0, 0, 2) 0 0) samplePair
    sampleHandshake = some s ∧ (s.cli.tcb 0).state = .established ∧ (s.srv.tcb 2).state = .established ∧
    (s.srv.tcb 2).rcv.irs = (s.cli.tcb 0).snd.iss ∧ (s.cli.tcb 0).rcv.irs = (s.srv.tcb 2).snd.iss := by
  have h₀ : samplePair.Starts 0 0 := ⟨rfl, rfl, ⟨blank, rfl⟩, rfl, rfl, rfl, fun _ => Nat.lt_one_iff, rfl, rfl⟩
  have hrun : (run (pairStep (10, 0, 0, 1) (10, 0, 0, 2) 0 0) samplePair sampleHandshake).map
      (fun s => ((s.cli.tcb 0).state, (s.srv.tcb 2).state, s.srv.next)) = some (.established, .established, 3) := by
    decide +kernel
  obtain ⟨s, hr, hs⟩ := map_eq_some_iff.1 hrun
  simp only [Prod.mk.injEq] at hs
  obtain ⟨hcli, hsrv, hnext⟩ := hs
  exact ⟨s, hr, hcli, hsrv, handshake_agrees _ _ 0 0 samplePair s h₀ sampleHandshake hr 2 (by omega) hsrv⟩

end TextOS.Net
