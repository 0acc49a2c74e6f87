import TextOS.Net.TcpSock

/-!
# UDP sockets: `kernel/net/socket/udp.c`

- **a datagram is queued on a socket it is for, if there is one** (`udp_demux`), iff the first socket that hears it has
  its port and a task waits there: `sock_rx_udp` compares the ports of connected sockets only, and wakes a task that may
  not be there (`udp_stolen`).
-/

namespace TextOS.Net.Demux

open List Function

/-! ## The code -/

/-- A datagram, with the addresses of its IP header. -/
structure Dgram where
  sip : Ipv4
  dip : Ipv4
  sport : UInt16
  dport : UInt16
  data : List UInt8
deriving DecidableEq

/-- `udp_t`; `rxWaiter` says that `rx_waiter` is not `NULL`. -/
structure Udp where
  laddr : Ipv4
  raddr : Ipv4
  lport : UInt16
  rport : UInt16
  rxQue : List Dgram
  rxWaiter : Bool
deriving DecidableEq

def udpSocket : Udp := ⟨(0, 0, 0, 0), (0, 0, 0, 0), 0, 0, [], false⟩

/-- `ck_lport`, with the bitmap of the ports. -/
def Udp.ckLport (bmp : UInt16 → Bool) (u : Udp) : Option ((UInt16 → Bool) × Udp) :=
  if u.lport ≠ 0 then some (bmp, u)
  else (findClear bmp 65536 0).map fun port => (update bmp port true, { u with lport := port })

/-- `udp_bind`, where `laddr` is the address of an interface, or there is none for the address that is asked for. -/
def udpBind (bmp : UInt16 → Bool) (u : Udp) (port : UInt16) (laddr : Option Ipv4) (len : Nat) :
    Option ((UInt16 → Bool) × Udp) :=
  let set (u : Udp) : Udp := { u with laddr := laddr.getD u.laddr }
  if len ≤ 16 then some (bmp, u)
  else if port ≠ 0 then
    if bmp port then some (bmp, u) else some (bmp, set u)
  else (u.ckLport bmp).map fun r => (r.1, set r.2)

def udpConnect (u : Udp) (raddr : Ipv4) (rport : UInt16) : Udp := { u with raddr := raddr, rport := rport }

/-- The tests of `sock_rx_udp`. -/
def Udp.skips (u : Udp) (d : Dgram) : Bool :=
  (!ipAddrIsany u.raddr && (u.rport != d.sport || u.lport != d.dport)) ||
    (!ipAddrIsany u.raddr && u.raddr != d.sip) || (!ipAddrIsany u.laddr && u.laddr != d.dip)

/-- `sock_rx_udp`, over the sockets in `intype`; whether the datagram was queued. The test `rx_waiter >= 0` is true of
`NULL` too, for which the assertion in `task_unblock` fails. -/
def sockRxUdp : List Udp → Dgram → Option (List Udp × Bool)
  | [], _ => some ([], false)
  | u :: us, d =>
    if u.skips d then (sockRxUdp us d).map fun r => (u :: r.1, r.2)
    else if u.rxWaiter then some ({ u with rxQue := u.rxQue ++ [d], rxWaiter := false } :: us, true)
    else none

/-! ## Which socket a datagram is for -/

/-- The datagram is for the port and the address of the socket, and comes from the host it is connected to. -/
structure Udp.For (u : Udp) (d : Dgram) : Prop where
  lport : u.lport = d.dport
  laddr : ipAddrIsany u.laddr = false → u.laddr = d.dip
  remote : ipAddrIsany u.raddr = false → u.raddr = d.sip ∧ u.rport = d.sport

/-- The datagram is for the address of the socket; and for its port and from the host it is connected to, if it is. -/
structure Udp.Hears (u : Udp) (d : Dgram) : Prop where
  laddr : ipAddrIsany u.laddr = false → u.laddr = d.dip
  remote : ipAddrIsany u.raddr = false → u.raddr = d.sip ∧ u.rport = d.sport ∧ u.lport = d.dport

theorem Udp.skips_iff {u : Udp} {d : Dgram} : u.skips d = false ↔ u.Hears d := by
  have hiff : u.skips d = false ↔ (ipAddrIsany u.raddr = false → u.rport = d.sport ∧ u.lport = d.dport) ∧
      (ipAddrIsany u.raddr = false → u.raddr = d.sip) ∧ (ipAddrIsany u.laddr = false → u.laddr = d.dip) := by
    simp [skips, and_assoc]
  rw [hiff]
  exact ⟨fun ⟨hport, hraddr, hladdr⟩ => ⟨hladdr, fun hcon => ⟨hraddr hcon, hport hcon⟩⟩,
    fun ⟨hladdr, hremote⟩ => ⟨fun hcon => (hremote hcon).2, fun hcon => (hremote hcon).1, hladdr⟩⟩

/-- A datagram for a socket is heard; it is for a socket that hears it iff it is for its port. -/
theorem Udp.for_iff {u : Udp} {d : Dgram} : u.For d ↔ u.Hears d ∧ u.lport = d.dport :=
  ⟨fun h => ⟨⟨h.laddr, fun hcon => ⟨(h.remote hcon).1, (h.remote hcon).2, h.lport⟩⟩, h.lport⟩,
    fun ⟨h, hport⟩ => ⟨hport, h.laddr, fun hcon => ⟨(h.remote hcon).1, (h.remote hcon).2.1⟩⟩⟩

/-- The datagram is added to the queue of one socket that it is for, and nothing else changes but a waiter; or there is
no such socket, and nothing changes. -/
def Demuxed (us : List Udp) (d : Dgram) : Prop :=
  (∃ before u behind, us = before ++ u :: behind ∧ u.For d ∧
    sockRxUdp us d = some (before ++ { u with rxQue := u.rxQue ++ [d], rxWaiter := false } :: behind, true)) ∨
  (∀ u ∈ us, ¬ u.For d) ∧ sockRxUdp us d = some (us, false)

/-- The first socket that hears the datagram, if there is one, has its port, and a task waits there. -/
def FirstFits (us : List Udp) (d : Dgram) : Prop :=
  ∀ before u behind, us = before ++ u :: behind → (∀ v ∈ before, ¬ v.Hears d) → u.Hears d →
  u.lport = d.dport ∧ u.rxWaiter

/-- A socket that hears nothing is passed over. -/
theorem demuxed_cons {u : Udp} {us : List Udp} {d : Dgram} (hu : ¬ u.Hears d) : Demuxed (u :: us) d ↔ Demuxed us d := by
  have hskip : u.skips d = true := by
    by_contra hs
    exact hu (Udp.skips_iff.1 (Bool.eq_false_iff.2 hs))
  have hfor : ¬ u.For d := fun h => hu (Udp.for_iff.1 h).1
  have hrx : sockRxUdp (u :: us) d = (sockRxUdp us d).map fun r => (u :: r.1, r.2) := if_pos hskip
  unfold Demuxed
  rw [hrx]
  constructor
  · rintro (⟨before, v, behind, heq, hv, hr⟩ | ⟨hno, hr⟩)
    · cases before with
      | nil => exact absurd ((cons.inj heq).1 ▸ hv) hfor
      | cons w before =>
        obtain ⟨⟨l, b⟩, hrx, hl⟩ := Option.map_eq_some_iff.1 hr
        obtain ⟨hl, rfl⟩ := Prod.mk.inj hl
        exact .inl ⟨before, v, behind, (cons.inj heq).2, hv, hrx.trans (congrArg some (Prod.ext (cons.inj hl).2 rfl))⟩
    · obtain ⟨⟨l, b⟩, hrx, hl⟩ := Option.map_eq_some_iff.1 hr
      obtain ⟨hl, rfl⟩ := Prod.mk.inj hl
      exact .inr ⟨fun v hv => hno v (mem_cons_of_mem u hv), hrx.trans (congrArg some (Prod.ext (cons.inj hl).2 rfl))⟩
  · rintro (⟨before, v, behind, heq, hv, hr⟩ | ⟨hno, hr⟩)
    · exact .inl ⟨u :: before, v, behind, by rw [heq]; rfl, hv, by rw [hr]; rfl⟩
    · exact .inr ⟨forall_mem_cons.2 ⟨hfor, hno⟩, by rw [hr]; rfl⟩

theorem firstFits_cons {u : Udp} {us : List Udp} {d : Dgram} (hu : ¬ u.Hears d) : FirstFits (u :: us) d ↔
    FirstFits us d := by
  constructor
  · intro h before v behind heq hno hv
    exact h (u :: before) v behind (by rw [heq]; rfl) (forall_mem_cons.2 ⟨hu, hno⟩) hv
  · intro h before v behind heq hno hv
    cases before with
    | nil => exact absurd ((cons.inj heq).1 ▸ hv) hu
    | cons w before => exact h before v behind (cons.inj heq).2 (fun v hv => hno v (mem_cons_of_mem w hv)) hv

/-- **Demultiplexing** is right iff the first socket that hears the datagram has its port and a task that waits. -/
theorem udp_demux (us : List Udp) (d : Dgram) : Demuxed us d ↔ FirstFits us d := by
  induction us with
  | nil => exact ⟨fun _ before u behind h => absurd h.symm (append_ne_nil_of_right_ne_nil _ (cons_ne_nil u behind)),
      fun _ => .inr ⟨fun u hu => absurd hu not_mem_nil, rfl⟩⟩
  | cons u us ih =>
    by_cases hu : u.Hears d
    · have hrx : sockRxUdp (u :: us) d =
          if u.rxWaiter then some ({ u with rxQue := u.rxQue ++ [d], rxWaiter := false } :: us, true) else none :=
        if_neg (by simp [Udp.skips_iff.2 hu])
      constructor
      · intro h before v behind heq hno hv
        -- the first socket that hears it is `u`, which takes it
        cases before with
        | cons w before => exact absurd ((cons.inj heq).1 ▸ hu) (hno w mem_cons_self)
        | nil =>
          obtain ⟨rfl, -⟩ := cons.inj heq
          have hwait : u.rxWaiter = true := by
            by_contra hw
            rw [Demuxed, hrx, if_neg hw] at h
            rcases h with ⟨_, _, _, _, _, h⟩ | ⟨_, h⟩ <;> cases h
          refine ⟨?_, hwait⟩
          rw [Demuxed, hrx, if_pos hwait] at h
          rcases h with ⟨before, v, behind, heq, hfor, h⟩ | ⟨_, h⟩
          · cases before with
            | nil => exact (cons.inj heq).1 ▸ hfor.lport
            | cons w before =>
              -- only the queue of `u` has grown
              have hw := (cons.inj (Prod.mk.inj (Option.some.inj h)).1).1
              have hlen := congrArg (fun u : Udp => u.rxQue.length) (hw.trans (cons.inj heq).1.symm)
              simp at hlen
          · cases (Prod.mk.inj (Option.some.inj h)).2
      · intro h
        obtain ⟨hport, hwait⟩ := h [] u us rfl (fun v hv => absurd hv not_mem_nil) hu
        exact .inl ⟨[], u, us, rfl, Udp.for_iff.2 ⟨hu, hport⟩, by rw [hrx, if_pos hwait]; rfl⟩
    · rw [demuxed_cons hu, firstFits_cons hu, ih]

/-- A datagram for port 7. -/
def dgramTo7 (sport : UInt16) : Dgram := ⟨(10, 0, 0, 9), (10, 0, 0, 1), sport, 7, [1]⟩

/-- A datagram for port 7 is queued on the socket for port 6, which is not connected and comes first; a socket that was
bound to port 7 has no port; and the kernel stops if no task waits. -/
theorem udp_stolen : (sockRxUdp [{ udpSocket with lport := 6, rxWaiter := true }, { udpSocket with lport := 7 }]
      (dgramTo7 8)).map (fun r => r.1.map fun u => (u.lport, u.rxQue.length)) = some [(6, 1), (7, 0)] ∧
    (udpBind (fun _ => false) udpSocket 7 (some (10, 0, 0, 1)) 17).map (fun r => (r.2.laddr, r.2.lport)) =
      some ((10, 0, 0, 1), 0) ∧
    sockRxUdp [{ udpSocket with lport := 7 }] (dgramTo7 8) = none := by
  decide

end TextOS.Net.Demux
