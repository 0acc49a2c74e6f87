import TextOS.Lib.Run
import TextOS.Net.TcpSock

/-!
# Sending on a connection: `tcp_makeseg` and `tcp_sendmsg`

`tcp_sendmsg` cuts the data into buffers at the end of `snd_que`; `tcp_do_xmit` sends them, with `nagle` one at a time.

- **the stream is sent** (`stream_sent`): if no pass finds a small `overlayDlen`, the payloads are at most `mss` bytes,
  have consecutive sequence numbers and make up a prefix of the data.
-/

namespace TextOS.Net

open Lib List

/-! ## Filling buffers -/

/-- `mbuf_alloc(MBUF_DEFROOM)`. -/
def mbufAlloc : Mbuf := ⟨fun _ => 0, 128, 0, 0, 0⟩

/-- `memcpy(mbuf_put(m, cpy), data, cpy)`. -/
def mbufPut (m : Mbuf) (data : List UInt8) : Mbuf := { m with
  buf := fun a => (data[(a - (m.head + m.len)).toNat]?).getD (m.buf a)
  len := m.len + .ofNat data.length, dlen := m.dlen + .ofNat data.length }

/-- The field `dlen` of an `mbuf_t` whose `list` is `snd_que`. -/
def overlayDlen (t : Tcp) : Nat := t.snd.una.toNat * 2 ^ 32 + t.snd.iss.toNat

/-- The loop of `tcp_makeseg`, at most `n` passes. It is `none` when the bytes are written through the overlay. -/
def makesegLoop : Nat → Tcp → List UInt8 → Option Tcp
  | 0, t, data => if data.isEmpty then some t else none
  | n + 1, t, data =>
    if data.isEmpty then some t
    else if t.nagle && !t.snd.sndQue.isEmpty && overlayDlen t < t.mss.toNat then none
    else
      let cpy := min (min data.length t.mss.toNat) (t.mss.toNat - mbufAlloc.dlen.toNat)
      makesegLoop n { t with snd.sndQue := t.snd.sndQue ++ [mbufPut mbufAlloc (data.take cpy)] } (data.drop cpy)

def tcpMakeseg (t : Tcp) (data : List UInt8) : Option Tcp := makesegLoop data.length t data

/-- The segments that actions send. -/
def txSegs (acts : List Act) : List TxSeg :=
  acts.filterMap fun
    | .tx s => some s
    | _ => none

/-- A connection with the segments it sent and the data submitted. -/
structure SendSys where
  tcp : Tcp
  out : List TxSeg
  submitted : List UInt8

inductive SendOp
  | send (data : List UInt8)
  | ack (seg : Seg)

/-- `tcp_sendmsg`, or an acknowledgement that arrives. -/
def sendStep (s : SendSys) : SendOp → Option SendSys
  | .send data => (tcpMakeseg s.tcp data).map fun t =>
    ⟨(tcpDoXmit t).1, s.out ++ txSegs (tcpDoXmit t).2, s.submitted ++ data⟩
  | .ack seg => some { s with tcp := (tcpXAck s.tcp seg).1, out := s.out ++ txSegs (tcpXAck s.tcp seg).2 }

/-- No pass of `tcp_makeseg` finds a small number in the overlay. -/
def Large (s : SendSys) : SendOp → Prop
  | .send data => s.tcp.mss.toNat ≤ overlayDlen s.tcp ∨ (s.tcp.snd.sndQue = [] ∧ data.length ≤ s.tcp.mss.toNat)
  | .ack _ => True

instance (s : SendSys) (o) : Decidable (Large s o) := by
  unfold Large
  split <;> infer_instance

/-- A connection that has sent its `SYN` and no data yet. -/
structure Opened (t : Tcp) : Prop where
  nagle : t.nagle = true
  mss : t.mss = 536
  shutWr : t.shutWr = false
  que : t.snd.sndQue = []
  nxt : t.snd.nxt = t.snd.iss + 1

/-! ## The stream -/

/-- The segments with data. -/
def dataSegs (out : List TxSeg) : List TxSeg := out.filter fun x => !x.data.isEmpty

/-- The payloads of segments. -/
def payloads (segs : List TxSeg) : List UInt8 := (segs.map TxSeg.data).flatten

/-- Every segment has the sequence number behind the one before, the first one has `seq`. -/
def Consecutive : UInt32 → List TxSeg → Prop
  | _, [] => True
  | seq, x :: l => x.seqnr = seq ∧ Consecutive (seq + .ofNat x.data.length) l

variable {t t' : Tcp} {m : Mbuf} {que : List Mbuf} {seg : Seg} {data : List UInt8} {seq : UInt32} {s s' : SendSys}

/-- Bytes are put behind those there are. -/
theorem bytes_mbufPut (h : m.len.toNat + data.length < 2 ^ 64) : (mbufPut m data).bytes = m.bytes ++ data := by
  have hlen : (mbufPut m data).len.toNat = m.len.toNat + data.length := by
    rw [mbufPut, UInt64.toNat_add, UInt64.toNat_ofNat', Nat.add_mod_mod, Nat.mod_eq_of_lt h]
  rw [Mbuf.bytes, hlen, range_add, map_append, map_map]
  congr 1
  · refine map_congr_left fun i hi => ?_
    have hi : i < m.len.toNat := mem_range.1 hi
    have hoff : m.head + .ofNat i - (m.head + m.len) = .ofNat i - m.len := by grind
    have hbig : data.length ≤ (UInt64.ofNat i - m.len).toNat := by
      rw [UInt64.toNat_sub, UInt64.toNat_ofNat', Nat.mod_eq_of_lt (by omega : i < 2 ^ 64), Nat.mod_eq_of_lt (by omega)]
      omega
    simp only [mbufPut, hoff, getElem?_eq_none hbig, Option.getD_none]
  apply ext_getElem
  · simp
  intro i h1 h2
  have hi : (UInt64.ofNat i).toNat = i := by rw [UInt64.toNat_ofNat', Nat.mod_eq_of_lt (by omega)]
  simp [mbufPut, hi, h2]

/-! ## What `tcp_do_xmit` does -/

/-- Nothing that concerns the data changes but the queue and the next sequence number. -/
structure Fixed (t t' : Tcp) : Prop where
  nagle : t'.nagle = t.nagle
  mss : t'.mss = t.mss
  shutWr : t'.shutWr = t.shutWr

/-- The buffers of the queue: their windows are what was put into them. -/
def QueOk (mss : UInt32) (que : List Mbuf) : Prop :=
  ∀ m ∈ que, m.bytes ≠ [] ∧ m.bytes.length ≤ mss.toNat ∧ m.dlen.toUInt32 = .ofNat m.bytes.length ∧ m.dlen ≠ 0

/-- Either nothing is sent but acknowledgements, or the buffer at the front. -/
def Xmits (t t' : Tcp) (segs : List TxSeg) : Prop :=
  Fixed t t' ∧ ((dataSegs segs = [] ∧ t'.snd.sndQue = t.snd.sndQue ∧ t'.snd.nxt = t.snd.nxt) ∨
    ∃ m x, t.snd.sndQue = m :: t'.snd.sndQue ∧ t'.snd.nxt = t.snd.nxt + m.dlen.toUInt32 ∧ segs = [x] ∧
      x.seqnr = t.snd.nxt ∧ x.data = m.bytes)

/-- A transmission takes segments from the front of the queue. -/
theorem tcpDoXmit_xmits (hn : t.nagle = true) (hs : t.shutWr = false) (hq : QueOk t.mss t.snd.sndQue) :
    Xmits t (tcpDoXmit t).1 (txSegs (tcpDoXmit t).2) := by
  have hfin : ∀ u : Tcp, u.shutWr = false → xmitFin u = (u, []) := fun u hu => by simp [xmitFin, hu]
  unfold tcpDoXmit
  split
  · exact ⟨⟨rfl, rfl, rfl⟩, .inl ⟨rfl, rfl, rfl⟩⟩
  cases hque : t.snd.sndQue with
  | nil =>
    have hend := hfin (xmitLoop { t with tmrAck := false } []).1 hs
    dsimp only
    rw [hend]
    exact ⟨⟨rfl, rfl, rfl⟩, .inl ⟨rfl, hque.symm, rfl⟩⟩
  | cons m que =>
    obtain ⟨-, -, -, hd⟩ := hq m (hque ▸ mem_cons_self)
    have hcond : (t.nagle && m.dlen != 0) = true := by simp [hn, hd]
    have hloop : xmitLoop { t with tmrAck := false } (m :: que) = ({ t with
        tmrAck := false
        snd := { t.snd with
          nxt := t.snd.nxt + m.dlen.toUInt32
          unaQue := t.snd.unaQue ++ [{ m with id := t.snd.nxt.toUInt64 }]
          sndQue := que } }, [.tx (t.out t.snd.nxt t.rcv.nxt 16 m.bytes)]) := by
      exact if_pos hcond
    have hend := hfin (xmitLoop { t with tmrAck := false } (m :: que)).1 (by rw [hloop]; exact hs)
    dsimp only
    rw [hend, hloop]
    exact ⟨⟨rfl, rfl, rfl⟩, .inr ⟨m, _, hque, rfl, rfl, rfl, rfl⟩⟩

theorem tcpXAck_xmits (hn : t.nagle = true) (hs : t.shutWr = false) (hq : QueOk t.mss t.snd.sndQue) (seg : Seg) :
    Xmits t (tcpXAck t seg).1 (txSegs (tcpXAck t seg).2) := by
  unfold tcpXAck
  split
  · exact ⟨⟨rfl, rfl, rfl⟩, .inl ⟨rfl, rfl, rfl⟩⟩
  split
  · refine ⟨⟨rfl, rfl, rfl⟩, .inl ⟨?_, rfl, rfl⟩⟩
    simp only [txSegs, filterMap_cons, filterMap_nil, tcpTxAck]
    split <;> rfl
  obtain ⟨hf, h⟩ := tcpDoXmit_xmits (t := { t with snd := { t.snd with
    unaQue := t.snd.unaQue.filter fun m => !decide (m.id < seg.hdr.acknr.toUInt64), una := seg.hdr.acknr } }) hn hs hq
  exact ⟨⟨hf.nagle, hf.mss, hf.shutWr⟩, h⟩

/-! ## What `tcp_makeseg` does -/

/-- The bytes in a queue. -/
def queBytes (que : List Mbuf) : List UInt8 := (que.map Mbuf.bytes).flatten

theorem queOk_put (mss : UInt32) (h0 : data ≠ []) (hlen : data.length ≤ mss.toNat) :
    QueOk mss [mbufPut mbufAlloc data] ∧ queBytes [mbufPut mbufAlloc data] = data := by
  have hm := mss.toNat_lt
  have hb : (mbufPut mbufAlloc data).bytes = data := bytes_mbufPut (by rw [mbufAlloc]; simp; omega)
  have hd : (mbufPut mbufAlloc data).dlen = .ofNat data.length := UInt64.zero_add _
  refine ⟨fun m hm' => ?_, by simp [queBytes, hb]⟩
  obtain rfl := mem_singleton.1 hm'
  rw [hb, hd]
  refine ⟨h0, hlen, by simp, fun h => h0 (eq_nil_of_length_eq_zero ?_)⟩
  have := congrArg UInt64.toNat h
  rwa [UInt64.toNat_ofNat', Nat.mod_eq_of_lt (by omega)] at this

theorem makesegLoop_nil (n : Nat) (t : Tcp) : makesegLoop n t [] = some t := by cases n <;> rfl

/-- The data is put at the end of the queue, in pieces of at most `mss` bytes. -/
theorem makesegLoop_spec {n : Nat} (hmss : 0 < t.mss.toNat) (hq : QueOk t.mss t.snd.sndQue) (hn : data.length ≤ n)
    (hlarge : t.mss.toNat ≤ overlayDlen t ∨ (t.snd.sndQue = [] ∧ data.length ≤ t.mss.toNat)) :
    ∃ que, makesegLoop n t data = some { t with snd.sndQue := que } ∧ QueOk t.mss que ∧
      queBytes que = queBytes t.snd.sndQue ++ data := by
  induction n generalizing t data with
  | zero =>
    obtain rfl : data = [] := eq_nil_of_length_eq_zero (by omega)
    exact ⟨t.snd.sndQue, rfl, hq, (append_nil _).symm⟩
  | succ n ih =>
    by_cases h0 : data = []
    · subst h0
      exact ⟨t.snd.sndQue, rfl, hq, (append_nil _).symm⟩
    have hpos : 0 < data.length := length_pos_iff.2 h0
    have hcond : (t.nagle && !t.snd.sndQue.isEmpty && decide (overlayDlen t < t.mss.toNat)) = false := by
      rcases hlarge with h | ⟨h, -⟩
      · rw [decide_eq_false (by omega), Bool.and_false]
      · simp [h]
    obtain ⟨c, hc⟩ : ∃ c, min (min data.length t.mss.toNat) (t.mss.toNat - mbufAlloc.dlen.toNat) = c := ⟨_, rfl⟩
    have hc' : c = min data.length t.mss.toNat := by
      have : mbufAlloc.dlen.toNat = 0 := rfl
      omega
    have hstep : makesegLoop (n + 1) t data = makesegLoop n
        { t with snd.sndQue := t.snd.sndQue ++ [mbufPut mbufAlloc (data.take c)] } (data.drop c) := by
      rw [makesegLoop, if_neg (by simpa using h0), hcond, if_neg Bool.false_ne_true, hc]
    have htake : (data.take c).length = c := length_take_of_le (by omega)
    obtain ⟨hnew, hbytes⟩ := queOk_put t.mss
      (ne_nil_of_length_pos (by omega : 0 < (data.take c).length)) (by omega)
    have hq' : QueOk t.mss (t.snd.sndQue ++ [mbufPut mbufAlloc (data.take c)]) := fun m hm =>
      (mem_append.1 hm).elim (hq m) (hnew m)
    have hb' : queBytes (t.snd.sndQue ++ [mbufPut mbufAlloc (data.take c)]) =
        queBytes t.snd.sndQue ++ data.take c := by
      rw [queBytes, map_append, flatten_append]
      exact congrArg (queBytes t.snd.sndQue ++ ·) hbytes
    rw [hstep]
    by_cases hend : data.drop c = []
    · have hall : data.take c = data := by rw [← take_append_drop c data, hend]; simp
      rw [hend, makesegLoop_nil]
      exact ⟨_, rfl, hq', by rw [hb', hall]⟩
    have hdrop : (data.drop c).length ≤ n := by
      rw [length_drop]
      omega
    obtain ⟨que, hr, hok, hbs⟩ := ih (t := { t with
        snd.sndQue := t.snd.sndQue ++ [mbufPut mbufAlloc (data.take c)] }) hmss hq' hdrop (by
        rcases hlarge with h | ⟨-, h⟩
        · exact .inl h
        · refine absurd (drop_eq_nil_iff.2 ?_) hend
          omega)
    refine ⟨que, hr, hok, ?_⟩
    rw [hbs]
    rw [hb', append_assoc, take_append_drop]

/-! ## Where connections come from -/

/-- A listener's connection starts out opened. -/
theorem opened_spawn {tick : UInt32} {self : Nat} {conn : Tcp} (hmss : t.mss = 536)
    (h : .spawn conn ∈ (tcpRxListen tick self t seg).2) : Opened conn := by
  have hno : .spawn conn ∉ tcpTxReset seg := by
    unfold tcpTxReset
    split <;> simp
  unfold tcpRxListen at h
  split at h
  · exact absurd h not_mem_nil
  split at h
  · exact absurd h hno
  split at h
  · rcases mem_append.1 h with h | h
    · split at h
      · exact absurd h not_mem_nil
      · exact absurd h hno
    · obtain rfl : conn = _ := by simpa [tcpTxAgree] using h
      exact ⟨rfl, hmss, rfl, rfl, rfl⟩
  · exact absurd h not_mem_nil

/-- `tcp_rx` before the connection is established. -/
def rxOpening (t : Tcp) (seg : Seg) : Tcp :=
  match t.state with
  | .synSent => (tcpRxSent t seg).1
  | .synRcvd => (tcpRxRcvd t seg).1
  | _ => t

/-- A segment in `SYN_SENT` leaves the connection opened. -/
theorem opened_tcpRxSent (h : Opened t) : Opened (tcpRxSent t seg).1 := by
  unfold tcpRxSent
  split
  next => exact h
  next =>
    dsimp only
    generalize ht : (if seg.hdr.rst && seg.hdr.ack then tcpExitWith { t with state := .closed } (-104) else t) = t₁
    have h₁ : Opened t₁ := by
      rw [← ht]
      split
      next => exact { h with }
      next => exact h
    generalize (if seg.hdr.ack = true then seg.hdr.acknr else t₁.snd.una) = una
    split
    next =>
      split
      next => exact { h₁ with }
      next => exact { h₁ with }
    next => exact h₁

/-- A segment in `SYN_RCVD` leaves the connection opened. -/
theorem opened_tcpRxRcvd (h : Opened t) : Opened (tcpRxRcvd t seg).1 := by
  unfold tcpRxRcvd
  split
  next =>
    split
    next => exact h
    next => exact { h with }
  next =>
    split
    next => exact h
    next =>
      split
      next =>
        split
        next =>
          dsimp only
          split
          next => exact { h with }
          next => exact { h with }
        next => exact h
      next => exact h

theorem opened_rxOpening (h : Opened t) : Opened (rxOpening t seg) := by
  unfold rxOpening
  split
  next => exact opened_tcpRxSent h
  next => exact opened_tcpRxRcvd h
  next => exact h

theorem opened_foldl (h : Opened t) (segs : List Seg) : Opened (segs.foldl rxOpening t) := by
  induction segs generalizing t with
  | nil => exact h
  | cons seg segs ih => exact ih (opened_rxOpening h)

/-- **Connections are opened**, those of `connect` and those a listening socket makes for a `SYN`: whatever segments
arrive before they are established, they have sent a `SYN` and nothing else. -/
theorem connections_opened (t l : Tcp) (key : Key) (tick : UInt32) (self : Nat) (syn : Seg) (segs : List Seg) :
    Opened (segs.foldl rxOpening (tcpTxSetup { tcpNew t with key := key } tick).1) ∧
      ∀ conn, .spawn conn ∈ (tcpRxListen tick self { l with mss := 536 } syn).2 →
      Opened (segs.foldl rxOpening conn) := by
  constructor
  · exact opened_foldl ⟨rfl, rfl, rfl, rfl, rfl⟩ segs
  · intro conn h
    exact opened_foldl (opened_spawn rfl h) segs

/-! ## Runs -/

theorem consecutive_append {l : List TxSeg} {x : TxSeg} :
    Consecutive seq (l ++ [x]) ↔ Consecutive seq l ∧ x.seqnr = seq + .ofNat (payloads l).length := by
  induction l generalizing seq with
  | nil => simp [Consecutive, payloads]
  | cons y l ih =>
    rw [cons_append, Consecutive, Consecutive, ih, and_assoc]
    simp only [payloads, map_cons, flatten_cons, length_append, UInt32.ofNat_add, UInt32.add_assoc]

/-- What was sent and what is queued is what was submitted. -/
structure SendInv (seq : UInt32) (s : SendSys) : Prop where
  nagle : s.tcp.nagle = true
  mss : s.tcp.mss = 536
  shutWr : s.tcp.shutWr = false
  que : QueOk 536 s.tcp.snd.sndQue
  nxt : s.tcp.snd.nxt = seq + .ofNat (payloads (dataSegs s.out)).length
  small : ∀ x ∈ dataSegs s.out, x.data.length ≤ 536
  segs : Consecutive seq (dataSegs s.out)
  stream : payloads (dataSegs s.out) ++ queBytes s.tcp.snd.sndQue = s.submitted

/-- What is transmitted continues the stream sent. -/
theorem SendInv.xmits {segs : List TxSeg} (hi : SendInv seq s) (h : Xmits s.tcp t' segs) :
    SendInv seq { s with tcp := t', out := s.out ++ segs } := by
  obtain ⟨hf, ⟨hno, hq, hn⟩ | ⟨m, x, hq, hn, rfl, hseq, hx⟩⟩ := h
  · have hout : dataSegs (s.out ++ segs) = dataSegs s.out := by
      rw [dataSegs, filter_append]
      exact (congrArg _ hno).trans (append_nil _)
    refine ⟨hf.nagle.trans hi.nagle, hf.mss.trans hi.mss, hf.shutWr.trans hi.shutWr, hq ▸ hi.que, ?_, ?_, ?_, ?_⟩
    · rw [hout, hn, hi.nxt]
    · rw [hout]
      exact hi.small
    · rw [hout]
      exact hi.segs
    · rw [hout, hq]
      exact hi.stream
  · obtain ⟨hne, hlen, hd, -⟩ := hi.que m (hq ▸ mem_cons_self)
    have hout : dataSegs (s.out ++ [x]) = dataSegs s.out ++ [x] := by
      rw [dataSegs, filter_append, filter_cons_of_pos (by simpa [hx] using hne)]
      rfl
    have hpay : payloads (dataSegs s.out ++ [x]) = payloads (dataSegs s.out) ++ m.bytes := by simp [payloads, hx]
    refine ⟨hf.nagle.trans hi.nagle, hf.mss.trans hi.mss, hf.shutWr.trans hi.shutWr, ?_, ?_, ?_, ?_, ?_⟩
    · exact fun m' hm' => hi.que m' (hq ▸ mem_cons_of_mem m hm')
    · rw [hout, hpay, hn, hi.nxt, hd, length_append, UInt32.ofNat_add, UInt32.add_assoc]
    · rw [hout]
      intro y hy
      rcases mem_append.1 hy with hy | hy
      · exact hi.small y hy
      · rw [mem_singleton.1 hy, hx]
        exact hlen
    · rw [hout, consecutive_append]
      exact ⟨hi.segs, hseq.trans hi.nxt⟩
    · rw [hout, hpay, append_assoc, ← hi.stream, hq]
      rfl

/-- One event keeps the invariant. -/
theorem SendInv.step {o : SendOp} (hi : SendInv seq s) (ho : Large s o) : ∃ s', sendStep s o = some s' ∧
    SendInv seq s' := by
  cases o with
  | send data =>
    have hpos : 0 < s.tcp.mss.toNat := by
      rw [hi.mss]
      decide
    obtain ⟨que, hr, hok, hbs⟩ := makesegLoop_spec hpos (by rw [hi.mss]; exact hi.que) le_rfl ho
    have hi' : SendInv seq ⟨{ s.tcp with snd.sndQue := que }, s.out, s.submitted ++ data⟩ := by
      refine { hi with que := hi.mss ▸ hok, stream := ?_ }
      rw [hbs, ← append_assoc, hi.stream]
    refine ⟨_, congrArg (Option.map _) hr, ?_⟩
    exact hi'.xmits (tcpDoXmit_xmits hi.nagle hi.shutWr hok)
  | ack seg => exact ⟨_, rfl, hi.xmits (tcpXAck_xmits hi.nagle hi.shutWr (by rw [hi.mss]; exact hi.que) seg)⟩

theorem sendRun_inv {os : List SendOp} (hi : SendInv seq s) (hos : Meets sendStep Large s os) :
    ∃ s', run sendStep s os = some s' ∧ SendInv seq s' := by
  induction os generalizing s with
  | nil => exact ⟨s, rfl, hi⟩
  | cons o os ih =>
    obtain ⟨u, hu, hiu⟩ := hi.step hos.1
    obtain ⟨s', hr, hi'⟩ := ih hiu (hos.2 u hu)
    exact ⟨s', run_cons.2 ⟨u, hu, hr⟩, hi'⟩

/-- **The stream is sent**: the data segments of every run have at most `mss` bytes, consecutive sequence numbers from
`snd_iss + 1` on, and payloads that make up a prefix of the data submitted; nothing is written through the overlay. -/
theorem stream_sent (t : Tcp) (ht : Opened t) (os : List SendOp) (hos : Meets sendStep Large ⟨t, [], []⟩ os) :
    ∃ s, run sendStep ⟨t, [], []⟩ os = some s ∧ (∀ x ∈ dataSegs s.out, x.data.length ≤ 536) ∧
      Consecutive (t.snd.iss + 1) (dataSegs s.out) ∧ payloads (dataSegs s.out) <+: s.submitted := by
  have hinit : SendInv (t.snd.iss + 1) ⟨t, [], []⟩ := by
    refine ⟨ht.nagle, ht.mss, ht.shutWr, ?_, ?_, nofun, trivial, ?_⟩
    · rw [ht.que]
      nofun
    · simpa [dataSegs, payloads] using ht.nxt
    · simp [dataSegs, payloads, queBytes, ht.que]
  obtain ⟨s, hr, hi⟩ := sendRun_inv hinit hos
  exact ⟨s, hr, hi.small, hi.segs, ⟨_, hi.stream⟩⟩

/-- The connection that a listening socket makes for a `SYN`. -/
def spawned (tick : UInt32) : Option Tcp :=
  (tcpRxListen tick 0 { blank with state := .listen, backlog := 1 }
    ⟨0, 1, (10, 0, 0, 9), (10, 0, 0, 1), mbufAlloc, ⟨80, 80, 0, 0, 2⟩⟩).2.findSome? fun
      | .spawn conn => some conn
      | _ => none

/-- The same connection once its `SYN` is acknowledged. -/
def served (tick : UInt32) : Tcp :=
  (tcpRxRcvd ((spawned tick).getD blank)
    ⟨1, 0, (10, 0, 0, 9), (10, 0, 0, 1), mbufAlloc, ⟨80, 80, 1, (tick ^^^ 0x20250403) + 1, 16⟩⟩).1

/-- Five bytes in two calls: the second segment waits for the acknowledgement of the first one. -/
theorem stream_sent_twice : ∃ s, run sendStep ⟨served 0, [], []⟩ [.send [1, 2, 3], .send [4, 5],
      .ack ⟨1, 0, (10, 0, 0, 9), (10, 0, 0, 1), mbufAlloc, ⟨80, 80, 1, 0x20250403 + 4, 16⟩⟩] = some s ∧
    payloads (dataSegs s.out) = [1, 2, 3, 4, 5] ∧ Consecutive (0x20250403 + 1) (dataSegs s.out) := by
  obtain ⟨s, hr, -, hc, -⟩ := stream_sent (served 0) ⟨by decide, by decide, by decide, by decide, by decide⟩
    [.send [1, 2, 3], .send [4, 5],
      .ack ⟨1, 0, (10, 0, 0, 9), (10, 0, 0, 1), mbufAlloc, ⟨80, 80, 1, 0x20250403 + 4, 16⟩⟩] (by decide +kernel)
  refine ⟨s, hr, ?_, hc⟩
  have : (run sendStep ⟨served 0, [], []⟩ [.send [1, 2, 3], .send [4, 5],
      .ack ⟨1, 0, (10, 0, 0, 9), (10, 0, 0, 1), mbufAlloc, ⟨80, 80, 1, 0x20250403 + 4, 16⟩⟩]).map
        (fun s => payloads (dataSegs s.out)) = some [1, 2, 3, 4, 5] := by decide +kernel
  rw [hr] at this
  exact Option.some.inj this

/-- With `snd_iss = 0` the second pass of a call with 537 bytes writes through the overlay. -/
theorem overlay_written : (served 0x20250403).state = .established ∧ (served 0x20250403).snd.iss = 0 ∧
    (sendStep ⟨served 0x20250403, [], []⟩ (.send (List.replicate 537 0))).isNone = true := by
  decide +kernel

end TextOS.Net
