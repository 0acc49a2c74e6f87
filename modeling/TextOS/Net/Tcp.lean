import TextOS.Net.Mbuf

/-!
# A TCP connection: `kernel/net/socket/tcp.c`

`Tcp` is the control block of a connection; sequence numbers are 32-bit numbers and wrap. The functions that handle a
segment return the new control block and the actions for the rest of the kernel (segments to send, sockets to add to or
to take off the lists), or `none` when an `ASSERTK` fails. A task that waits is a flag, which waking it clears, and a
timer is armed or not.

What `net_tx_tcp` writes into the buffers it sends is left out; a sent buffer keeps the bytes of its payload.
-/

namespace TextOS.Net

open Function

/-- `enum state`. -/
inductive St
  | closed | synSent | synRcvd | listen | established | closeWait | lastAck | finWait1 | finWait2 | closing | timeWait
deriving DecidableEq, Repr

abbrev Ipv4 := UInt8 × UInt8 × UInt8 × UInt8

def ipAddrIsany (a : Ipv4) : Bool := a == (0, 0, 0, 0)

/-- `tcphdr_t`, in host order. -/
structure Hdr where
  sport : UInt16
  dport : UInt16
  seqnr : UInt32
  acknr : UInt32
  flgs : UInt8
deriving DecidableEq

def Hdr.fin (h : Hdr) : Bool := h.flgs &&& 1 != 0
def Hdr.syn (h : Hdr) : Bool := h.flgs &&& 2 != 0
def Hdr.rst (h : Hdr) : Bool := h.flgs &&& 4 != 0
def Hdr.ack (h : Hdr) : Bool := h.flgs &&& 16 != 0
def Hdr.urg (h : Hdr) : Bool := h.flgs &&& 32 != 0

/-- `tcpseg_t`: a received segment; `buf` has its window on the payload. -/
structure Seg where
  seqnr : UInt32
  seqlen : UInt32
  sip : Ipv4
  dip : Ipv4
  buf : Mbuf
  hdr : Hdr

/-- A segment handed to `net_tx_tcp`. -/
structure TxSeg where
  dip : Ipv4
  sport : UInt16
  dport : UInt16
  seqnr : UInt32
  acknr : UInt32
  flgs : UInt8
  window : UInt16
  data : List UInt8
deriving DecidableEq

/-- The addresses and ports of a connection. -/
structure Key where
  laddr : Ipv4
  raddr : Ipv4
  lport : UInt16
  rport : UInt16

/-- The fields `snd_*` and the queues of segments to send and not yet acknowledged. -/
structure Snd where
  iss : UInt32
  una : UInt32
  nxt : UInt32
  sndQue : List Mbuf
  unaQue : List Mbuf

/-- The fields `rcv_*` and the queue of what was received. -/
structure Rcv where
  nxt : UInt32
  irs : UInt32
  bufQue : List Mbuf

/-- `tcp_t`. Sockets are named by numbers; `ptcp`, `pchd` and `acpt` link a listening socket and its connections. -/
structure Tcp where
  key : Key
  mss : UInt32
  nagle : Bool
  state : St
  shutWr : Bool
  errno : Int
  passive : Bool
  ptcp : Option Nat
  pchd : List Nat
  acpt : List Nat
  backlog : Int
  backcnt : Int
  snd : Snd
  rcv : Rcv
  tmrAck : Bool
  tmrWait : Bool
  rxWaiter : Bool
  synWaiter : Bool

/-- What handling a segment asks of the rest of the kernel. -/
inductive Act
  | tx (s : TxSeg)
  | release
  | orphan
  | offer
  | spawn (conn : Tcp)

def tcpWindow : UInt16 := 65535

/-- `TCP_SEQ_LT`. -/
def seqLt (a b : UInt32) : Bool := 2 ^ 31 ≤ (a - b).toNat

/-- `TCP_SEQ_LE`. -/
def seqLe (a b : UInt32) : Bool := a == b || seqLt a b

/-! ## Sending -/

/-- The segment of `net_tx_tcp` for a connection. -/
def Tcp.out (t : Tcp) (seqnr acknr : UInt32) (flgs : UInt8) (data : List UInt8) : TxSeg :=
  ⟨t.key.raddr, t.key.lport, t.key.rport, seqnr, acknr, flgs, tcpWindow, data⟩

/-- `tcp_tx_agree`, with the tick count given. -/
def tcpTxAgree (t : Tcp) (tick : UInt32) : Tcp × List Act :=
  let iss := tick ^^^ 0x20250403
  ({ t with snd := { t.snd with iss := iss, una := iss, nxt := iss + 1 }, state := .synRcvd },
    [.tx (t.out iss t.rcv.nxt (2 ||| 16) [])])

def tcpTxReset (seg : Seg) : List Act :=
  if seg.hdr.ack then [.tx ⟨seg.sip, seg.hdr.dport, seg.hdr.sport, seg.hdr.acknr, 0, 4, 0, []⟩]
  else [.tx ⟨seg.sip, seg.hdr.dport, seg.hdr.sport, 0, seg.seqnr + seg.seqlen, 4 ||| 16, 0, []⟩]

def tcpExitWith (t : Tcp) (errno : Int) : Tcp := { t with errno := errno, rxWaiter := false, synWaiter := false }

def tcpTxSeg (t : Tcp) (m : Mbuf) : Tcp × TxSeg :=
  ({ t with snd.nxt := t.snd.nxt + m.dlen.toUInt32 }, t.out t.snd.nxt t.rcv.nxt 16 m.bytes)

def tcpTxFin (t : Tcp) : Tcp × TxSeg := ({ t with snd.nxt := t.snd.nxt + 1 }, t.out t.snd.nxt t.rcv.nxt (16 ||| 1) [])

def tcpTxAck (t : Tcp) : TxSeg :=
  if t.state = .synRcvd then t.out t.snd.iss t.rcv.nxt (16 ||| 2) [] else t.out t.snd.nxt t.rcv.nxt 16 []

/-- The loop of `tcp_do_xmit` over `snd_que`: with `nagle` it ends after a segment with data. -/
def xmitLoop (t : Tcp) : List Mbuf → Tcp × List Act
  | [] => ({ t with snd.sndQue := [] }, [])
  | m :: que =>
    let r := tcpTxSeg t m
    let t₁ := { r.1 with snd.unaQue := t.snd.unaQue ++ [{ m with id := t.snd.nxt.toUInt64 }] }
    if t.nagle && m.dlen != 0 then ({ t₁ with snd.sndQue := que }, [.tx r.2])
    else
      let r' := xmitLoop t₁ que
      (r'.1, .tx r.2 :: r'.2)

/-- The end of `tcp_do_xmit`: once everything is sent and acknowledged, a shut-down connection sends its `FIN`. -/
def xmitFin (t : Tcp) : Tcp × List Act :=
  if t.shutWr && t.snd.sndQue.isEmpty && t.snd.unaQue.isEmpty then
    let t₁ := match t.state with
      | .established => { t with state := .finWait1, tmrAck := false }
      | .closeWait => { t with state := .lastAck, tmrAck := false }
      | _ => { t with tmrAck := false }
    ((tcpTxFin t₁).1, [.tx (tcpTxFin t₁).2])
  else (t, [])

def tcpDoXmit (t : Tcp) : Tcp × List Act :=
  if t.nagle && t.snd.una < t.snd.nxt - 1 then (t, [])
  else
    let r := xmitLoop { t with tmrAck := false } t.snd.sndQue
    let r' := xmitFin r.1
    (r'.1, r.2 ++ r'.2)

/-- `tcp_x_ack`, for a segment with `ACK`. -/
def tcpXAck (t : Tcp) (seg : Seg) : Tcp × List Act :=
  if seqLe seg.hdr.acknr t.snd.una then (t, [])
  else if seqLt t.snd.nxt seg.hdr.acknr then (t, [.tx (tcpTxAck t)])
  else tcpDoXmit { t with snd := { t.snd with
    unaQue := t.snd.unaQue.filter fun m => !decide (m.id < seg.hdr.acknr.toUInt64), una := seg.hdr.acknr } }

/-! ## Receiving -/

/-- `tcp_rx_data`: only a segment that starts at `rcv_nxt` is taken. -/
def tcpRxData (t : Tcp) (seg : Seg) : Tcp × List Act :=
  if t.rcv.nxt < seg.seqnr then (t, [.tx (tcpTxAck t)])
  else if seg.seqnr < t.rcv.nxt then (t, [])
  else if seg.seqlen = 0 then (t, [])
  else
    let t₁ := { t with tmrAck := true, rcv.nxt := t.rcv.nxt + seg.seqlen }
    if seg.buf.len = 0 then (t₁, [])
    else ({ t₁ with rcv.bufQue := t₁.rcv.bufQue ++ [mbufPush (mbufPush seg.buf 20) 20], rxWaiter := false }, [])

def tcpRxSent (t : Tcp) (seg : Seg) : Tcp × List Act :=
  if seg.hdr.ack && seg.hdr.acknr != t.snd.nxt then (t, tcpTxReset seg)
  else
    let t₁ := if seg.hdr.rst && seg.hdr.ack then tcpExitWith { t with state := .closed } (-104) else t
    if seg.hdr.syn then
      let t₂ := { t₁ with
        rcv := { t₁.rcv with irs := seg.seqnr, nxt := seg.seqnr + 1 }
        snd.una := if seg.hdr.ack then seg.hdr.acknr else t₁.snd.una }
      -- `(int32)(snd_una - snd_iss) > 0`: the SYN is acknowledged
      if t₂.snd.una != t₂.snd.iss && !seqLt t₂.snd.una t₂.snd.iss then
        let t₃ := { t₂ with state := .established }
        ({ t₃ with synWaiter := false }, [.tx (tcpTxAck t₃)])
      else
        let t₃ := { t₂ with state := .synRcvd }
        (t₃, [.tx (tcpTxAck t₃)])
    else (t₁, [])

def tcpRxRcvd (t : Tcp) (seg : Seg) : Tcp × List Act :=
  if seg.hdr.rst then if t.passive then (t, [.orphan]) else (tcpExitWith t (-111), [])
  else if seg.hdr.syn && t.passive then (t, [.orphan])
  else if seg.hdr.ack then
    if seqLt t.snd.una seg.hdr.acknr && seqLe seg.hdr.acknr t.snd.nxt then
      let t₁ := { t with state := .established }
      if t.ptcp.isSome then (t₁, [.offer]) else ({ t₁ with synWaiter := false }, [])
    else (t, tcpTxReset seg)
  else (t, [])

/-- `tcp_rx_listen`: the new connection `conn` copies what it needs from the listening socket `self`. -/
def tcpRxListen (tick : UInt32) (self : Nat) (t : Tcp) (seg : Seg) : Tcp × List Act :=
  if seg.hdr.rst then (t, [])
  else if seg.hdr.ack then (t, tcpTxReset seg)
  else if seg.hdr.syn then
    let oneLeft := t.backcnt + 1 == t.backlog
    let conn : Tcp := { t with
      key := { t.key with raddr := seg.sip, rport := seg.hdr.sport }
      nagle := true, passive := true, ptcp := some self, state := .listen, shutWr := false, errno := 0, pchd := []
      acpt := [], tmrAck := false, rxWaiter := false, synWaiter := false
      snd := { t.snd with sndQue := [], unaQue := [] }
      rcv := ⟨seg.seqnr + 1, seg.seqnr, []⟩ }
    let r := tcpTxAgree conn tick
    ({ t with backcnt := if oneLeft then t.backcnt + 1 else t.backcnt },
      (if oneLeft then [] else tcpTxReset seg) ++ .spawn r.1 :: r.2)
  else (t, [])

def tcpRxEstablished (t : Tcp) (seg : Seg) : Option (Tcp × List Act) :=
  if seg.hdr.rst then some (tcpExitWith t (-111), [])
  else if seg.hdr.syn then some (t, [.tx (tcpTxAck t)])
  else
    let r := if seg.hdr.ack then tcpXAck t seg else (t, [])
    if seg.hdr.urg then none
    else
      let r' := tcpRxData r.1 seg
      some (if seg.hdr.fin then { r'.1 with state := .closeWait } else r'.1, r.2 ++ r'.2)

def tcpRxClosewait (t : Tcp) (seg : Seg) : Option (Tcp × List Act) :=
  let t₁ := if seg.hdr.rst then tcpExitWith t (-104) else t
  if seg.hdr.syn then some (t₁, [.tx (tcpTxAck t₁)])
  else
    let r := if seg.hdr.ack then tcpXAck t₁ seg else (t₁, [])
    if seg.hdr.urg then none else some r

def tcpRxLastack (t : Tcp) (seg : Seg) : Option (Tcp × List Act) :=
  let r : Tcp × List Act := if seg.hdr.rst then ({ t with state := .closed }, [.release]) else (t, [])
  if seg.hdr.syn then some (r.1, r.2 ++ [.tx (tcpTxAck r.1)])
  else
    let t₁ := if seg.hdr.ack then { r.1 with state := .closed } else r.1
    if seg.hdr.urg then none else some (t₁, r.2)

def tcpRxFinwait (t : Tcp) (seg : Seg) : Option (Tcp × List Act) :=
  if seg.hdr.rst then some (tcpExitWith t (-111), [])
  else if seg.hdr.syn then some (t, [.tx (tcpTxAck t)])
  else
    let t₁ := if seg.hdr.ack && seg.hdr.acknr == t.snd.nxt && t.state == .finWait1 then
      { t with state := .finWait2 } else t
    if seg.hdr.urg then none
    else
      let r := tcpRxData t₁ seg
      let t₂ := if seg.hdr.fin then
        match r.1.state with
        | .finWait1 => { r.1 with state := .closing }
        | .finWait2 => { r.1 with state := .timeWait }
        | _ => r.1
        else r.1
      some (t₂, r.2)

def tcpRxClosing (t : Tcp) (seg : Seg) : Option (Tcp × List Act) :=
  let r : Tcp × List Act := if seg.hdr.rst then ({ t with state := .closed }, [.release]) else (t, [])
  if seg.hdr.syn then some (r.1, r.2 ++ [.tx (tcpTxAck r.1)])
  else
    let t₁ := if seg.hdr.ack then { r.1 with state := .timeWait, tmrWait := true } else r.1
    if seg.hdr.urg then none else some (t₁, r.2)

def tcpRxTimewait (t : Tcp) (seg : Seg) : Option (Tcp × List Act) :=
  let r : Tcp × List Act := if seg.hdr.rst then ({ t with state := .closed }, [.release]) else (t, [])
  if seg.hdr.syn then some (r.1, r.2 ++ [.tx (tcpTxAck r.1)])
  else
    let r₁ : Tcp × List Act :=
      if seg.hdr.ack then ({ r.1 with tmrWait := true }, r.2 ++ [.tx (tcpTxAck r.1)]) else r
    if seg.hdr.urg then none
    else some (if seg.hdr.fin then { r₁.1 with tmrWait := true } else r₁.1, r₁.2)

/-- The `switch` of `sock_rx_tcp`. -/
def tcpRx (tick : UInt32) (self : Nat) (t : Tcp) (seg : Seg) : Option (Tcp × List Act) :=
  match t.state with
  | .synSent => some (tcpRxSent t seg)
  | .synRcvd => some (tcpRxRcvd t seg)
  | .listen => some (tcpRxListen tick self t seg)
  | .established => tcpRxEstablished t seg
  | .closeWait => tcpRxClosewait t seg
  | .lastAck => tcpRxLastack t seg
  | .finWait1 | .finWait2 => tcpRxFinwait t seg
  | .closing => tcpRxClosing t seg
  | .timeWait => tcpRxTimewait t seg
  | .closed => some (t, tcpTxReset seg)

/-! ## The sockets -/

/-- All sockets: `list_common`, `list_listen`, the control blocks by number, the port bitmap and what was sent. -/
structure Socks where
  tcb : Nat → Tcp
  common : List Nat
  listen : List Nat
  next : Nat
  bmp : UInt16 → Bool
  tx : List TxSeg

/-- Carry out an action for the socket `self`. -/
def Socks.act (self : Nat) (n : Socks) : Act → Socks
  | .tx s => { n with tx := n.tx ++ [s] }
  | .release => { n with
      common := n.common.erase self, listen := n.listen.erase self
      bmp := update n.bmp (n.tcb self).key.lport false }
  | .orphan => { n with
      common := n.common.erase self, listen := n.listen.erase self
      tcb := match (n.tcb self).ptcp with
        | none => n.tcb
        | some p => update n.tcb p { n.tcb p with pchd := (n.tcb p).pchd.erase self } }
  | .offer => match (n.tcb self).ptcp with
    | none => n
    | some p => { n with
        tcb := update n.tcb p { n.tcb p with acpt := self :: (n.tcb p).acpt, synWaiter := false } }
  | .spawn conn => { n with
      tcb := update (update n.tcb n.next conn) self
        { n.tcb self with pchd := n.next :: (n.tcb self).pchd }
      common := n.next :: n.common, next := n.next + 1 }

def findTcb (n : Socks) (sip dip : Ipv4) (sport dport : UInt16) : Option Nat :=
  (n.common.find? fun i =>
    let t := (n.tcb i).key
    t.raddr == sip && (ipAddrIsany t.laddr || t.laddr == dip) && t.rport == sport && t.lport == dport) <|>
  n.listen.find? fun i =>
    let t := (n.tcb i).key
    (ipAddrIsany t.laddr || t.laddr == dip) && t.lport == dport

/-! ## The bytes of a segment -/

def be16 (buf : UInt64 → UInt8) (a : UInt64) : UInt16 := (buf a).toUInt16 <<< 8 ||| (buf (a + 1)).toUInt16

def be32 (buf : UInt64 → UInt8) (a : UInt64) : UInt32 := (be16 buf a).toUInt32 <<< 16 ||| (be16 buf (a + 2)).toUInt32

def ipv4At (buf : UInt64 → UInt8) (a : UInt64) : Ipv4 := (buf a, buf (a + 1), buf (a + 2), buf (a + 3))

/-- The header at `a`, brought into host order. -/
def hdrAt (buf : UInt64 → UInt8) (a : UInt64) : Hdr :=
  ⟨be16 buf a, be16 buf (a + 2), be32 buf (a + 4), be32 buf (a + 8), buf (a + 13)⟩

/-- The sum of the 16-bit words of a block of bytes, an odd last byte counted alone. -/
def sumWords : List UInt8 → UInt32
  | a :: b :: l => a.toUInt32 + b.toUInt32 <<< 8 + sumWords l
  | [a] => a.toUInt32
  | [] => 0

/-- `net_cksum_tcp`, over the segment and the pseudo header. -/
def netCksumTcp (data : List UInt8) (sip dip : Ipv4) (len : UInt64) : UInt16 :=
  let chk := [sip.1, sip.2.1, sip.2.2.1, sip.2.2.2, dip.1, dip.2.1, dip.2.2.1, dip.2.2.2, 0, 6,
    (len >>> 8).toUInt8, len.toUInt8]
  let s := sumWords data + sumWords chk
  let s := s >>> 16 + (s &&& 0xffff)
  let s := s + s >>> 16
  ~~~ s.toUInt16

/-- The segment in a buffer whose window is on the TCP header, the IP header being at `ip`. -/
def segOf (ip : UInt64) (m : Mbuf) : Seg :=
  let hdr := hdrAt m.buf m.head
  let m₁ := mbufPull m 20
  { seqnr := hdr.seqnr
    seqlen := m₁.len.toUInt32 + (if hdr.syn then 1 else 0) + (if hdr.fin then 1 else 0)
    sip := ipv4At m.buf (ip + 12)
    dip := ipv4At m.buf (ip + 16)
    buf := { m₁ with id := hdr.seqnr.toUInt64 }
    hdr := hdr }

def sockRxTcp (tick : UInt32) (n : Socks) (ip : UInt64) (m : Mbuf) : Option Socks :=
  let seg := segOf ip m
  if netCksumTcp m.bytes seg.sip seg.dip m.len ≠ 0 then some n
  else match findTcb n seg.sip seg.dip seg.hdr.sport seg.hdr.dport with
    | none => some ((tcpTxReset seg).foldl (Socks.act 0) n)
    | some i => (tcpRx tick i (n.tcb i) seg).map fun r =>
        r.2.foldl (Socks.act i) { n with tcb := update n.tcb i r.1 }

end TextOS.Net
