import TextOS.Lib.Traced
import TextOS.Net.Udp

/-!
# The receive path: `nif_eth_rx`, `net_rx_ip` and what they hand a frame to

A received frame lies at the start of the data area of an `mbuf_t`; `head` is the offset into that area. The functions
are traced: each read of the frame, each move of the window and each assertion is an event.

- **the receive path is safe** for the frames that are as long as what is read of them, whatever the sockets are, and
  for no others (`rx_safe`, `Framed`): nothing compares the lengths in the headers with the length of the frame
  (`rx_unsafe`);
- a datagram in a frame is looked at as by `Demux.Udp.skips` (`wp_udpTakes`).
-/

namespace TextOS.Net

open Lib Traced

/-! ## The buffer -/

/-- What happens to the buffer. -/
inductive Touch
  | pull (m : Mbuf) (k : UInt64)
  | push (m : Mbuf) (k : UInt64)
  | setLen (len : UInt16)
  | read (a : UInt64) (k : Nat)
  | assertk (ok : Bool)

def mbufSize : Nat := 2048

/-- What may happen to a buffer with a frame of `size` bytes. -/
def Touch.Safe (size : Nat) : Touch → Prop
  | .pull m k => k ≤ m.len ∧ m.head.toNat + k.toNat ≤ mbufSize
  | .push m k => k ≤ m.head
  | .setLen len => 20 ≤ len
  | .read a k => k ≠ 0 → a.toNat + k ≤ size
  | .assertk ok => ok = true

instance (size : Nat) (e : Touch) : Decidable (e.Safe size) := by
  unfold Touch.Safe
  split <;> infer_instance

abbrev Rx := Traced Mbuf Touch

/-- `mbuf_pullhdr`, for a header of `k` bytes. -/
def pullhdr (k : UInt64) : Rx UInt64 := event (fun m => .pull m k) fun m => (m.head, mbufPull m k)

/-- `mbuf_pushhdr`. -/
def pushhdr (k : UInt64) : Rx Unit := event (fun m => .push m k) fun m => ((), mbufPush m k)

/-- Read `k` bytes at `a`. -/
def rd {α : Type} (a : UInt64) (k : Nat) (f : (UInt64 → UInt8) → α) : Rx α :=
  event (fun _ => .read a k) fun m => (f m.buf, m)

def rd8 (a : UInt64) : Rx UInt8 := rd a 1 fun buf => buf a

def rd16 (a : UInt64) : Rx UInt16 := rd a 2 fun buf => be16 buf a

def rdIp (a : UInt64) : Rx Ipv4 := rd a 4 fun buf => ipv4At buf a

/-- `m->len = ntohs(hdr->len) - sizeof(iphdr_t)`. -/
def setLen (len : UInt16) : Rx Unit := event (fun _ => .setLen len) fun m => ((), { m with len := len.toUInt64 - 20 })

def assertk (ok : Bool) : Rx Unit := event (fun _ => .assertk ok) fun m => ((), m)

/-- The number of bytes a loop over `int len` reads when it is called with `m->len`. -/
def intLen (len : UInt64) : Nat := if len.toUInt32.toNat < 2 ^ 31 then len.toUInt32.toNat else 0

/-- The bytes of the window that a checksum is taken over. -/
def rdWindow : Rx (List UInt8) :=
  event (fun m => .read m.head (intLen m.len)) fun m =>
    ((List.range (intLen m.len)).map fun i => m.buf (m.head + .ofNat i), m)

/-- A check that is made only if `skip` is false. -/
def skipIf (skip : Bool) (check : Rx Bool) : Rx Bool := if skip then pure true else check

/-- `&&`. -/
def andThen (x y : Rx Bool) : Rx Bool := do if ← x then y else pure false

/-! ## Sockets -/

/-- `raw_t`, with the protocol of its socket. -/
structure Raw where
  proto : UInt8
  laddr : Ipv4
  raddr : Ipv4

/-- An interface and the sockets. -/
structure Host where
  ip : Ipv4
  raws : List Raw
  udps : List Demux.Udp
  tcps : Socks
  tick : UInt32

/-- An address of a socket is any address, or the one at `a`. -/
def addrIs (addr : Ipv4) (a : UInt64) : Rx Bool := skipIf (ipAddrIsany addr) do return addr == (← rdIp a)

/-- The checks of `sock_rx_raw`. -/
def rawTakes (ip : UInt64) (r : Raw) : Rx Bool :=
  andThen (skipIf (r.proto == 255) do return r.proto == (← rd8 (ip + 9)))
    (andThen (addrIs r.raddr (ip + 12)) (addrIs r.laddr (ip + 16)))

def sockRxRaw (ip : UInt64) : List Raw → Rx Bool
  | [] => pure false
  | r :: raws => do
    if ← rawTakes ip r then
      pushhdr 20
      return true
    else sockRxRaw ip raws

/-- The checks of `sock_rx_udp`. -/
def udpTakes (ip hdr : UInt64) (u : Demux.Udp) : Rx Bool :=
  andThen (skipIf (ipAddrIsany u.raddr)
      (andThen (do return u.rport == (← rd16 hdr)) do return u.lport == (← rd16 (hdr + 2))))
    (andThen (addrIs u.raddr (ip + 12)) (addrIs u.laddr (ip + 16)))

def udpLoop (ip hdr : UInt64) : List Demux.Udp → Rx Unit
  | [] => pure ()
  | u :: udps => do
    if ← udpTakes ip hdr u then
      pushhdr 8
      pushhdr 20
    else udpLoop ip hdr udps

def sockRxUdp (udps : List Demux.Udp) (ip : UInt64) : Rx Unit := do
  let hdr ← pullhdr 8
  udpLoop ip hdr udps

/-- `net_rp_icmp`, up to where the packet is sent: `net_tx_ip` copies the address and computes the checksum. -/
def netRpIcmp (ip : UInt64) : Rx Unit := do
  pushhdr 8
  let _ ← rdWindow
  pushhdr 20
  let _ ← rdIp (ip + 12)
  rd ip 20 fun _ => ()

def netRxIcmp (ip : UInt64) : Rx Unit := do
  let hdr ← pullhdr 8
  if (← rd8 hdr) = 8 then netRpIcmp ip else pure ()

/-- `tcp_rx_data` has queued the buffer. -/
def queues (t : Tcp) : Option (Tcp × List Act) → Bool
  | none => false
  | some r => t.rcv.bufQue.length < r.1.rcv.bufQue.length

/-- `sock_rx_tcp`, as far as the buffer is concerned. An `ASSERTK` in the handler of the state fails iff the handler is
`none`, and a handler that queues the buffer puts the headers back. -/
def sockRxTcpBuf (h : Host) (ip : UInt64) : Rx Unit := do
  let sip ← rdIp (ip + 12)
  let dip ← rdIp (ip + 16)
  let m ← state
  let data ← rdWindow
  if netCksumTcp data sip dip m.len ≠ 0 then pure ()
  else
    let hdr ← pullhdr 20
    -- the ports and numbers, the flags and the window, the urgent pointer
    rd hdr 12 fun _ => ()
    rd (hdr + 13) 3 fun _ => ()
    rd (hdr + 18) 2 fun _ => ()
    let seg := segOf ip m
    match findTcb h.tcps seg.sip seg.dip seg.hdr.sport seg.hdr.dport with
    | none => pure ()
    | some i => do
      let r := tcpRx h.tick i (h.tcps.tcb i) seg
      assertk r.isSome
      if queues (h.tcps.tcb i) r then
        pushhdr 20
        pushhdr 20
      else pure ()

/-! ## The path of a frame -/

def netRxIp (h : Host) : Rx Unit := do
  let ip ← pullhdr 20
  if (← rd8 ip) >>> 4 ≠ 4 then pure ()
  else if (← rd8 ip) &&& 15 ≠ 5 then pure ()
  -- `hdr->flgs & 4` and `hdr->off0` are in one byte
  else if (← rd8 (ip + 6)) &&& 0x9f ≠ 0 then pure ()
  else if (← rd8 (ip + 7)) ≠ 0 then pure ()
  else if h.ip ≠ (← rdIp (ip + 16)) then pure ()
  else
    setLen (← rd16 (ip + 2))
    if ← sockRxRaw ip h.raws then pure ()
    else
      let ptype ← rd8 (ip + 9)
      if ptype = 1 then netRxIcmp ip
      else if ptype = 6 then sockRxTcpBuf h ip
      else if ptype = 17 then sockRxUdp h.udps ip
      else pure ()

/-- `nif_eth_rx`; what `net_rx_arp` does is left out. -/
def nifEthRx (h : Host) : Rx Unit := do
  let hdr ← pullhdr 14
  if (← rd16 (hdr + 12)) = 0x800 then netRxIp h else pure ()

/-! ## What a frame says -/

/-- The total length in the IP header. -/
def totalLen (m : Mbuf) : UInt16 := be16 m.buf 16

/-- The window on what the IP header says is the payload. -/
def ipPayload (m : Mbuf) : Mbuf := { m with head := 34, len := (totalLen m).toUInt64 - 20 }

/-- The datagram in a frame. -/
def dgramOf (m : Mbuf) : Demux.Dgram := ⟨ipv4At m.buf 26, ipv4At m.buf 30, be16 m.buf 34, be16 m.buf 36, []⟩

/-- The raw socket takes the packet. -/
def Raw.takes (m : Mbuf) (r : Raw) : Bool :=
  (r.proto == 255 || r.proto == m.buf 23) && ((ipAddrIsany r.raddr || r.raddr == ipv4At m.buf 26) &&
    (ipAddrIsany r.laddr || r.laddr == ipv4At m.buf 30))

/-- The packet passes the checks of `net_rx_ip`. -/
def Accepted (h : Host) (m : Mbuf) : Prop :=
  m.buf 14 >>> 4 = 4 ∧ m.buf 14 &&& 15 = 5 ∧ m.buf 20 &&& 0x9f = 0 ∧ m.buf 21 = 0 ∧ h.ip = ipv4At m.buf 30

/-- The handler of the state comes to its assertion that there is no `URG`, and there is one. -/
def Urgent (t : Tcp) (seg : Seg) : Prop :=
  seg.hdr.urg ∧ ¬ seg.hdr.syn ∧ match t.state with
    | .established | .finWait1 | .finWait2 => ¬ seg.hdr.rst
    | .closeWait | .lastAck | .closing | .timeWait => True
    | .closed | .listen | .synSent | .synRcvd => False

/-- The ports of a datagram lie in the frame as far as `sock_rx_udp` compares them: it does so for connected sockets, up
to the first one that hears the datagram. -/
def PortsIn (size : Nat) (d : Demux.Dgram) (udps : List Demux.Udp) : Prop :=
  ∀ before u behind, udps = before ++ u :: behind → (∀ v ∈ before, ¬ v.Hears d) → ipAddrIsany u.raddr = false →
    36 ≤ size ∧ (u.rport = d.sport → 38 ≤ size)

/-- What the handler of the protocol reads lies in the frame, and its assertion is met. -/
structure Covered (h : Host) (m : Mbuf) : Prop where
  icmp : m.buf 23 = 1 → 28 ≤ (totalLen m).toNat ∧ 35 ≤ m.len.toNat ∧
    (m.buf 34 = 8 → 14 + (totalLen m).toNat ≤ m.len.toNat)
  tcp : m.buf 23 = 6 → (20 < (totalLen m).toNat → 14 + (totalLen m).toNat ≤ m.len.toNat) ∧
    (netCksumTcp (ipPayload m).bytes (ipv4At m.buf 26) (ipv4At m.buf 30) (ipPayload m).len = 0 →
      40 ≤ (totalLen m).toNat ∧
      ∀ i, findTcb h.tcps (ipv4At m.buf 26) (ipv4At m.buf 30) (be16 m.buf 34) (be16 m.buf 36) = some i →
        ¬ Urgent (h.tcps.tcb i) (segOf 14 (ipPayload m)))
  udp : m.buf 23 = 17 → 28 ≤ (totalLen m).toNat ∧ PortsIn m.len.toNat (dgramOf m) h.udps

/-- A frame that is as long as what is read of it, and meets the assertions. -/
structure Framed (h : Host) (m : Mbuf) : Prop where
  eth : 14 ≤ m.len.toNat
  ip : be16 m.buf 12 = 0x800 → 34 ≤ m.len.toNat
  total : be16 m.buf 12 = 0x800 → Accepted h m → 20 ≤ (totalLen m).toNat
  fits : be16 m.buf 12 = 0x800 → Accepted h m → h.raws.any (Raw.takes m) = false → Covered h m

/-! ## Checks -/

variable {size : Nat} {m : Mbuf} {h : Host} {post : Bool → Mbuf → Prop}

theorem wp_rd {α : Type} {a : UInt64} {k : Nat} {f : (UInt64 → UInt8) → α} {post : α → Mbuf → Prop}
    (ha : a.toNat + k ≤ size) : wp (Touch.Safe size) (rd a k f) post m ↔ post (f m.buf) m := by
  rw [rd, wp_event]
  exact and_iff_right fun _ => ha

theorem wp_rd8 {a : UInt64} {post : UInt8 → Mbuf → Prop} (ha : a.toNat + 1 ≤ size) :
    wp (Touch.Safe size) (rd8 a) post m ↔ post (m.buf a) m := wp_rd ha

theorem wp_skipIf (skip : Bool) (check : Rx Bool) :
    wp (Touch.Safe size) (skipIf skip check) post m ↔ if skip then post true m else wp (Touch.Safe size)
    check post m := by
  unfold skipIf
  split_ifs
  · exact wp_pure true
  · rfl

theorem wp_addrIs {addr : Ipv4} {a : UInt64} (ha : a.toNat + 4 ≤ size) :
    wp (Touch.Safe size) (addrIs addr a) post m ↔ post (ipAddrIsany addr || addr == ipv4At m.buf a) m := by
  rw [addrIs, wp_skipIf]
  cases ipAddrIsany addr with
  | true => rfl
  | false =>
    rw [if_neg Bool.false_ne_true, wp_bind, rdIp, wp_rd ha, wp_pure, Bool.false_or]

theorem wp_andThen (x y : Rx Bool) : wp (Touch.Safe size) (andThen x y) post m ↔
    wp (Touch.Safe size) x (fun b s => if b then wp (Touch.Safe size) y post s else post false s) m := by
  rw [andThen, wp_bind]
  have hite : ∀ b s, wp (Touch.Safe size) (if b = true then y else pure false) post s ↔
      if b = true then wp (Touch.Safe size) y post s else post false s := fun b s => by
    split_ifs
    · rfl
    · exact wp_pure false
  simp only [hite]

/-- The checks of a raw socket read the IP header only. -/
theorem wp_rawTakes (r : Raw) (hs : 34 ≤ size) : wp (Touch.Safe size) (rawTakes 14 r) post m ↔ post (r.takes m) m := by
  have h26 : (14 + 12 : UInt64).toNat + 4 ≤ size := by simp; omega
  have h30 : (14 + 16 : UInt64).toNat + 4 ≤ size := by simp; omega
  have h23 : (14 + 9 : UInt64).toNat + 1 ≤ size := by simp; omega
  rw [rawTakes, wp_andThen, wp_skipIf, wp_bind, wp_rd8 h23, wp_pure]
  simp only [wp_andThen, wp_addrIs h26, wp_addrIs h30]
  unfold Raw.takes
  have e23 : (14 + 9 : UInt64) = 23 := rfl
  have e26 : (14 + 12 : UInt64) = 26 := rfl
  have e30 : (14 + 16 : UInt64) = 30 := rfl
  rw [e23, e26, e30]
  cases r.proto == 255 <;> cases r.proto == m.buf 23 <;> cases ipAddrIsany r.raddr || r.raddr == ipv4At
    m.buf 26 <;> simp

/-- The checks of `sock_rx_udp` are those of `Demux.Udp.skips`; a connected socket has the ports read. -/
theorem wp_udpTakes (u : Demux.Udp) (hs : 34 ≤ size) : wp (Touch.Safe size) (udpTakes 14 34 u) post m ↔
    (ipAddrIsany u.raddr = false → 36 ≤ size ∧ (u.rport = be16 m.buf 34 → 38 ≤ size)) ∧
    post (!u.skips (dgramOf m)) m := by
  have h26 : (26 : UInt64).toNat + 4 ≤ size := by simp; omega
  have h30 : (30 : UInt64).toNat + 4 ≤ size := by simp; omega
  have hport : ∀ (a : UInt64) (v : UInt16) (q : Bool → Mbuf → Prop) (s : Mbuf),
      wp (Touch.Safe size) (do return v == (← rd16 a)) q s ↔ a.toNat + 2 ≤ size ∧ q (v == be16 s.buf a) s := by
    intro a v q s
    rw [wp_bind, rd16, rd, wp_event, wp_pure]
    simp [Touch.Safe]
  have e26 : (14 + 12 : UInt64) = 26 := rfl
  have e30 : (14 + 16 : UInt64) = 30 := rfl
  have e36 : (34 + 2 : UInt64) = 36 := rfl
  have e34 : (34 : UInt64).toNat = 34 := rfl
  have e36' : (36 : UInt64).toNat = 36 := rfl
  simp only [udpTakes, wp_andThen, wp_skipIf, hport, e26, e30, e36, wp_addrIs h26, wp_addrIs h30, e34, e36',
    Demux.Udp.skips, dgramOf, bne, ← beq_iff_eq (a := u.rport)]
  cases ipAddrIsany u.raddr <;> cases u.rport == be16 m.buf 34 <;> cases u.lport == be16 m.buf 36 <;>
    cases u.raddr == ipv4At m.buf 26 <;> cases ipAddrIsany u.laddr <;> cases u.laddr == ipv4At m.buf 30 <;>
      simp [and_assoc]

/-! ## The handlers -/

theorem wp_unless {c : Prop} [Decidable c] {x : Rx Unit} : wp (Touch.Safe size) (if c then pure () else x)
    (fun _ _ => True) m ↔ (¬ c → wp (Touch.Safe size) x (fun _ _ => True) m) := by
  split
  · next hc => exact ⟨fun _ h => absurd hc h, fun _ => (wp_pure ()).2 trivial⟩
  · next hc => exact ⟨fun h _ => h, fun h => h hc⟩

theorem wp_pushhdr {k : UInt64} {post : Unit → Mbuf → Prop} (hk : k ≤ m.head) :
    wp (Touch.Safe size) (pushhdr k) post m ↔ post () (mbufPush m k) := by
  rw [pushhdr, wp_event]
  exact and_iff_right hk

/-- A raw socket that takes the packet ends the path. -/
theorem wp_sockRxRaw (raws : List Raw) (hm : m.head = 34) (hs : 34 ≤ size) :
    wp (Touch.Safe size) (sockRxRaw 14 raws) (fun b s => b = false → post b s) m ↔
      (raws.any (Raw.takes m) = false → post false m) := by
  induction raws with
  | nil => exact wp_pure false
  | cons r raws ih =>
    rw [sockRxRaw, wp_bind, wp_rawTakes r hs, List.any_cons]
    cases hr : r.takes m with
    | false => simpa using ih
    | true =>
      have hpush : 20 ≤ m.head := by rw [hm]; decide
      simp only [if_true, wp_bind, wp_pushhdr hpush, wp_pure]
      simp

/-- The ports read in one turn of the search. -/
theorem portsIn_cons {u : Demux.Udp} {udps : List Demux.Udp} {d : Demux.Dgram} : PortsIn size d (u :: udps) ↔
    (ipAddrIsany u.raddr = false → 36 ≤ size ∧ (u.rport = d.sport → 38 ≤ size)) ∧
      (u.skips d = true → PortsIn size d udps) := by
  have hskip : u.skips d = true ↔ ¬ u.Hears d := by rw [← Demux.Udp.skips_iff, Bool.not_eq_false]
  rw [hskip]
  constructor
  · intro h
    refine ⟨h [] u udps rfl fun v hv => absurd hv List.not_mem_nil, fun hu before v behind heq hno => ?_⟩
    exact h (u :: before) v behind (by rw [heq]; rfl) (List.forall_mem_cons.2 ⟨hu, hno⟩)
  · rintro ⟨hu, hrest⟩ before v behind heq hno
    cases before with
    | nil => exact (List.cons.inj heq).1 ▸ hu
    | cons w before =>
      obtain ⟨rfl, htail⟩ := List.cons.inj heq
      exact hrest (hno u List.mem_cons_self) before v behind htail fun v hv => hno v (List.mem_cons_of_mem u hv)

/-- The search over the sockets stays in the frame if the ports it reads do. -/
theorem wp_udpLoop (udps : List Demux.Udp) (hm : m.head = 42) (hs : 34 ≤ size) :
    wp (Touch.Safe size) (udpLoop 14 34 udps) (fun _ _ => True) m ↔ PortsIn size (dgramOf m) udps := by
  induction udps with
  | nil =>
    refine ⟨fun _ before u behind heq => ?_, fun _ => (wp_pure ()).2 trivial⟩
    exact absurd heq.symm (List.append_ne_nil_of_right_ne_nil _ (List.cons_ne_nil u behind))
  | cons u udps ih =>
    rw [udpLoop, wp_bind, wp_udpTakes u hs, portsIn_cons]
    refine and_congr Iff.rfl ?_
    cases hu : u.skips (dgramOf m) with
    | true => simpa using ih
    | false =>
      have h8 : 8 ≤ m.head := by rw [hm]; decide
      have h20 : 20 ≤ (mbufPush m 8).head := by rw [head_push, hm]; decide
      simp [wp_pushhdr h8, wp_pushhdr h20]

theorem wp_pullhdr {k : UInt64} {post : UInt64 → Mbuf → Prop} (hm : m.head = 34) (hk : k.toNat ≤ 20) :
    wp (Touch.Safe size) (pullhdr k) post m ↔ k.toNat ≤ m.len.toNat ∧ post 34 (mbufPull m k) := by
  have hroom : m.head.toNat + k.toNat ≤ mbufSize := by
    rw [hm]
    show 34 + _ ≤ 2048
    omega
  rw [pullhdr, wp_event, hm]
  exact and_congr_left' ((and_iff_left (hm ▸ hroom)).trans UInt64.le_iff_toNat_le)

theorem wp_sockRxUdp (udps : List Demux.Udp) (hm : m.head = 34) (hs : 34 ≤ size) :
    wp (Touch.Safe size) (sockRxUdp udps 14) (fun _ _ => True) m ↔ 8 ≤ m.len.toNat ∧ PortsIn size (dgramOf m) udps := by
  have hpull : (mbufPull m 8).head = 42 := by
    rw [head_pull, hm]
    rfl
  rw [sockRxUdp, wp_bind, wp_pullhdr hm (by decide), wp_udpLoop udps hpull hs]
  rfl

/-- The window is read where it is. -/
theorem wp_rdWindow {post : List UInt8 → Mbuf → Prop} (hm : m.head = 34) (hl : m.len.toNat < 2 ^ 16) :
    wp (Touch.Safe size) rdWindow post m ↔ (m.len.toNat ≠ 0 → 34 + m.len.toNat ≤ size) ∧ post m.bytes m := by
  have hint : intLen m.len = m.len.toNat := by
    have h32 : m.len.toUInt32.toNat = m.len.toNat := Nat.mod_eq_of_lt (by omega)
    rw [intLen, h32, if_pos (by omega)]
  rw [rdWindow, wp_event, hint, Touch.Safe, hm]
  unfold Mbuf.bytes
  rw [hm]
  rfl

/-- When the handling of an ICMP packet stays inside the frame. -/
theorem wp_netRxIcmp (hm : m.head = 34) (hl : m.len.toNat < 2 ^ 16) (hs : 34 ≤ size) :
    wp (Touch.Safe size) (netRxIcmp 14) (fun _ _ => True) m ↔
      8 ≤ m.len.toNat ∧ 35 ≤ size ∧ (m.buf 34 = 8 → 34 + m.len.toNat ≤ size) := by
  rw [netRxIcmp, wp_bind, wp_pullhdr hm (by decide)]
  refine and_congr_right fun h8 => ?_
  rw [wp_bind, rd8, rd, wp_event]
  refine and_congr (by simp [Touch.Safe]) ?_
  by_cases hecho : m.buf 34 = 8
  · have h8' : 8 ≤ (mbufPull m 8).head := by rw [head_pull, hm]; decide
    have h20 : 20 ≤ m.head := by rw [hm]; decide
    have hbuf : (mbufPull m 8).buf 34 = 8 := hecho
    rw [if_pos hbuf, netRpIcmp, wp_bind, wp_pushhdr h8', mbufPush_pull, wp_bind, wp_rdWindow hm hl, wp_bind,
      wp_pushhdr h20, wp_bind, rdIp, wp_rd (by simp; omega), wp_rd (by simp; omega)]
    have h0 : m.len.toNat ≠ 0 := by
      have : 8 ≤ m.len.toNat := h8
      omega
    simp [hecho, h0]
  · have hbuf : (mbufPull m 8).buf 34 ≠ 8 := hecho
    rw [if_neg hbuf, wp_pure]
    simp [hecho]

/-- Only an urgent segment stops the handling. -/
theorem tcpRx_isSome {tick : UInt32} {i : Nat} {t : Tcp} {seg : Seg} : (tcpRx tick i t seg).isSome = true ↔
    ¬ Urgent t seg := by
  unfold tcpRx Urgent
  cases t.state with
  | closed | synSent | synRcvd | listen => simp
  | established =>
    simp only [tcpRxEstablished]
    split_ifs <;> simp_all
  | closeWait =>
    simp only [tcpRxClosewait]
    split_ifs <;> simp_all
  | lastAck =>
    simp only [tcpRxLastack]
    split_ifs <;> simp_all
  | finWait1 =>
    simp only [tcpRxFinwait]
    split_ifs <;> simp_all
  | finWait2 =>
    simp only [tcpRxFinwait]
    split_ifs <;> simp_all
  | closing =>
    simp only [tcpRxClosing]
    split_ifs <;> simp_all
  | timeWait =>
    simp only [tcpRxTimewait]
    split_ifs <;> simp_all

/-- The bytes TCP touches. -/
theorem wp_sockRxTcpBuf (hm : m.head = 34) (hl : m.len.toNat < 2 ^ 16) (hs : 34 ≤ size) :
    wp (Touch.Safe size) (sockRxTcpBuf h 14) (fun _ _ => True) m ↔ (m.len.toNat ≠ 0 → 34 + m.len.toNat ≤ size) ∧
      (netCksumTcp m.bytes (ipv4At m.buf 26) (ipv4At m.buf 30) m.len = 0 → 20 ≤ m.len.toNat ∧
        ∀ i, findTcb h.tcps (ipv4At m.buf 26) (ipv4At m.buf 30) (be16 m.buf 34) (be16 m.buf 36) = some i →
          ¬ Urgent (h.tcps.tcb i) (segOf 14 m)) := by
  rw [sockRxTcpBuf, wp_bind, rdIp, wp_rd (by simp; omega), wp_bind, rdIp, wp_rd (by simp; omega), wp_bind,
    wp_state, wp_bind, wp_rdWindow hm hl]
  refine and_congr_right fun hwin => ?_
  rw [wp_unless, not_not]
  refine imp_congr Iff.rfl ?_
  rw [wp_bind, wp_pullhdr hm (by decide)]
  refine and_congr_right fun h20 => ?_
  have h20' : 20 ≤ m.len.toNat := h20
  have h54 : 54 ≤ size := by
    have := hwin (by omega)
    omega
  rw [wp_bind, wp_rd (by simp; omega), wp_bind, wp_rd (by simp; omega), wp_bind, wp_rd (by simp; omega)]
  have hfind : findTcb h.tcps (segOf 14 m).sip (segOf 14 m).dip (segOf 14 m).hdr.sport (segOf 14 m).hdr.dport =
      findTcb h.tcps (ipv4At m.buf 26) (ipv4At m.buf 30) (be16 m.buf 34) (be16 m.buf 36) := by
    simp only [segOf, hdrAt, hm]
    rfl
  dsimp only
  rw [hfind]
  cases findTcb h.tcps (ipv4At m.buf 26) (ipv4At m.buf 30) (be16 m.buf 34) (be16 m.buf 36) with
  | none => simp
  | some i =>
    simp only [Option.some.injEq, forall_eq']
    rw [wp_bind, assertk, wp_event, Touch.Safe, tcpRx_isSome]
    refine and_iff_left ?_
    have h34 : 20 ≤ (mbufPull m 20).head := by rw [head_pull, hm]; decide
    have h14 : 20 ≤ m.head := by rw [hm]; decide
    dsimp only
    split
    · rw [wp_bind, wp_pushhdr h34, mbufPush_pull, wp_pushhdr h14]
      trivial
    · exact (wp_pure ()).2 trivial

/-! ## The path is safe -/

/-- The handlers behind the raw sockets. -/
theorem wp_handlers (hs : 34 ≤ m.len.toNat) (hlen : 20 ≤ (totalLen m).toNat) :
    wp (Touch.Safe m.len.toNat) (do
      let ptype ← rd8 (14 + 9)
      if ptype = 1 then netRxIcmp 14
      else if ptype = 6 then sockRxTcpBuf h 14
      else if ptype = 17 then sockRxUdp h.udps 14
      else pure ()) (fun _ _ => True) (ipPayload m) ↔ Covered h m := by
  have hfits : Covered h m ↔ _ ∧ _ ∧ _ := ⟨fun h => ⟨h.icmp, h.tcp, h.udp⟩, fun h => ⟨h.1, h.2.1, h.2.2⟩⟩
  rw [hfits]
  have hl : (ipPayload m).len.toNat = (totalLen m).toNat - 20 :=
    UInt64.toNat_sub_of_le _ _ (UInt64.le_iff_toNat_le.2 hlen)
  have hl16 : (ipPayload m).len.toNat < 2 ^ 16 := by
    have := (totalLen m).toNat_lt
    omega
  have h23 : (ipPayload m).buf (14 + 9) = m.buf 23 := rfl
  rw [wp_bind, wp_rd8 (by simp; omega), h23]
  by_cases h1 : m.buf 23 = 1
  · rw [if_pos h1, wp_netRxIcmp rfl hl16 hs, hl, h1]
    simp only [true_imp_iff,
      show ¬ (1 : UInt8) = 6 by decide, show ¬ (1 : UInt8) = 17 by decide, false_imp_iff, and_true]
    refine and_congr (by omega) (and_congr_right fun _ => imp_congr Iff.rfl (by omega))
  rw [if_neg h1]
  by_cases h6 : m.buf 23 = 6
  · rw [if_pos h6, wp_sockRxTcpBuf rfl hl16 hs, hl, h6]
    simp only [true_imp_iff,
      show ¬ (6 : UInt8) = 1 by decide, show ¬ (6 : UInt8) = 17 by decide, false_imp_iff, and_true, true_and]
    exact and_congr (by omega) (imp_congr Iff.rfl (and_congr (by omega) Iff.rfl))
  rw [if_neg h6]
  by_cases h17 : m.buf 23 = 17
  · rw [if_pos h17, wp_sockRxUdp h.udps rfl hs, hl, h17]
    simp only [true_imp_iff,
      show ¬ (17 : UInt8) = 1 by decide, show ¬ (17 : UInt8) = 6 by decide, false_imp_iff, true_and]
    exact and_congr (by omega) Iff.rfl
  rw [if_neg h17, wp_pure]
  simp [h1, h6, h17]

/-- The bytes touched from the IP header on. -/
theorem wp_netRxIp (h0 : m.head = 0) (heth : 14 ≤ m.len.toNat) :
    wp (Touch.Safe m.len.toNat) (netRxIp h) (fun _ _ => True) (mbufPull m 14) ↔ 34 ≤ m.len.toNat ∧
      (Accepted h m → 20 ≤ (totalLen m).toNat ∧ (h.raws.any (Raw.takes m) = false → Covered h m)) := by
  have hhead : (mbufPull m 14).head = 14 := by
    rw [head_pull, h0]
    rfl
  have hpull : (mbufPull m 14).len.toNat = m.len.toNat - 14 :=
    UInt64.toNat_sub_of_le _ _ (UInt64.le_iff_toNat_le.2 heth)
  rw [netRxIp, wp_bind, pullhdr, wp_event, Touch.Safe, hhead, UInt64.le_iff_toNat_le, hpull]
  have hroom : ((20 : UInt64).toNat ≤ m.len.toNat - 14 ∧ (14 : UInt64).toNat + (20 : UInt64).toNat ≤ mbufSize) ↔
      34 ≤ m.len.toNat := by
    show (20 ≤ m.len.toNat - 14 ∧ 34 ≤ 2048) ↔ _
    omega
  have h34 : (mbufPull (mbufPull m 14) 20).head = 34 := by
    rw [head_pull, hhead]
    rfl
  rw [hroom]
  refine and_congr_right fun hs => ?_
  dsimp only
  rw [wp_bind, wp_rd8 (by simp; omega), wp_unless, wp_bind, wp_rd8 (by simp; omega), wp_unless, wp_bind, wp_rd8
    (by simp; omega), wp_unless, wp_bind, wp_rd8 (by simp; omega), wp_unless, wp_bind, rdIp, wp_rd (by simp; omega),
    wp_unless]
  simp only [not_not, Accepted, and_imp]
  refine imp_congr Iff.rfl (imp_congr Iff.rfl (imp_congr Iff.rfl (imp_congr Iff.rfl (imp_congr Iff.rfl ?_))))
  rw [wp_bind, rd16, wp_rd (by simp; omega), wp_bind, setLen, wp_event, Touch.Safe, UInt16.le_iff_toNat_le]
  refine and_congr_right fun hlen => ?_
  dsimp only
  rw [h34]
  show wp _ _ _ (ipPayload m) ↔ _
  rw [wp_bind]
  simp only [wp_unless, Bool.not_eq_true]
  rw [wp_sockRxRaw h.raws rfl hs, wp_handlers hs hlen]
  rfl

/-- **The receive path is safe** iff the frame is as long as what is read of it and meets the assertions. -/
theorem rx_safe (h : Host) (m : Mbuf) (h0 : m.head = 0) :
    (∀ e ∈ (nifEthRx h).trace m, e.Safe m.len.toNat) ↔ Framed h m := by
  have hwp : (∀ e ∈ (nifEthRx h).trace m, e.Safe m.len.toNat) ↔
      wp (Touch.Safe m.len.toNat) (nifEthRx h) (fun _ _ => True) m := ⟨fun h => ⟨h, trivial⟩, fun h => h.1⟩
  have hframed : Framed h m ↔ 14 ≤ m.len.toNat ∧ (be16 m.buf 12 = 0x800 → 34 ≤ m.len.toNat ∧ (Accepted h m →
      20 ≤ (totalLen m).toNat ∧ (h.raws.any (Raw.takes m) = false → Covered h m))) :=
    ⟨fun hf => ⟨hf.eth, fun ht => ⟨hf.ip ht, fun ha => ⟨hf.total ht ha, hf.fits ht ha⟩⟩⟩,
      fun ⟨h14, hip⟩ => ⟨h14, fun ht => (hip ht).1, fun ht ha => ((hip ht).2 ha).1, fun ht ha => ((hip ht).2 ha).2⟩⟩
  rw [hwp, hframed, nifEthRx, wp_bind, pullhdr, wp_event, Touch.Safe, h0, UInt64.le_iff_toNat_le]
  have hroom : ((14 : UInt64).toNat ≤ m.len.toNat ∧ (0 : UInt64).toNat + (14 : UInt64).toNat ≤ mbufSize) ↔
      14 ≤ m.len.toNat := and_iff_left (by decide)
  rw [hroom]
  refine and_congr_right fun heth => ?_
  dsimp only
  rw [wp_bind, rd16, wp_rd (by simp; omega)]
  by_cases ht : be16 m.buf 12 = 0x800
  · have ht' : be16 (mbufPull m 14).buf (0 + 12) = 0x800 := ht
    rw [if_pos ht', wp_netRxIp h0 heth]
    simp [ht]
  · have ht' : be16 (mbufPull m 14).buf (0 + 12) ≠ 0x800 := ht
    rw [if_neg ht', wp_pure]
    simp [ht]

/-- A frame in a new buffer. -/
def sampleFrame (bytes : List UInt8) : Mbuf := ⟨fun a => bytes.getD a.toNat 0, 0, .ofNat bytes.length, 0, 0⟩

/-- An Ethernet and an IP header from 10.0.0.1 to 10.0.0.2 with the given total length, and a TCP segment. -/
def sampleTcp (len : UInt8) (seg : List UInt8) : Mbuf :=
  sampleFrame ([0, 0, 0, 0, 0, 0, 0, 0, 0, 0, 0, 0, 8, 0] ++
    [0x45, 0, 0, len, 0, 0, 0, 0, 64, 6, 0, 0, 10, 0, 0, 1, 10, 0, 0, 2] ++ seg)

/-- The host of the sample connection. -/
def sampleHost : Host := ⟨(10, 0, 0, 2), [], [], sampleSocks, 0⟩

/-- Two bytes for the connection. -/
def sampleData : Mbuf :=
  sampleTcp 42 [0, 80, 3, 232, 0, 0, 0, 101, 0, 0, 0, 0, 80, 16, 0, 0, 46, 202, 0, 0, 104, 105]

/-- The segment is taken, and the headers are put back. -/
theorem rx_safe_data : ((nifEthRx sampleHost).trace sampleData).length = 21 ∧ Framed sampleHost sampleData :=
  ⟨by decide +kernel, (rx_safe sampleHost sampleData rfl).1 (by decide +kernel)⟩

/-- A frame that ends with its Ethernet header, one whose total length is one byte too large, and one with `URG`. -/
theorem rx_unsafe :
    (∃ e ∈ (nifEthRx sampleHost).trace (sampleFrame [0, 0, 0, 0, 0, 0, 0, 0, 0, 0, 0, 0, 8, 0]), ¬ e.Safe 14) ∧
    (∃ e ∈ (nifEthRx sampleHost).trace (sampleTcp 41 (List.replicate 20 0)), ¬ e.Safe 54) ∧
    ∃ e ∈ (nifEthRx sampleHost).trace
      (sampleTcp 40 [0, 80, 3, 232, 0, 0, 0, 101, 0, 0, 0, 0, 80, 32, 0, 0, 151, 37, 0, 0]), ¬ e.Safe 54 := by
  decide +kernel

end TextOS.Net
