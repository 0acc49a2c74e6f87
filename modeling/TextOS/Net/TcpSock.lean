import TextOS.Klib.Bitmap
import TextOS.Net.TcpRx

/-!
# The calls on a TCP socket: `kernel/net/socket/tcp.c`

- the local ports are bits of a bitmap: a search finds a clear one (`findClear_some`);
- `tcpRx_reacts`: a segment leaves the local port of a connection, its parent and its part (`Role`), and what `tcp_rx`
  asks for beyond sending are a release, a new connection of a listening socket, or one that is given up.
-/

namespace TextOS.Net

open Lib Klib Function

/-! ## Local ports -/

/-- The first clear bit of the port bitmap among `k` from `p` on. -/
def findClear (bmp : UInt16 → Bool) : Nat → Nat → Option UInt16
  | 0, _ => none
  | k + 1, p => if bmp (.ofNat p) then findClear bmp k (p + 1) else some (.ofNat p)

def ckLport (n : Socks) (i : Nat) : Option Socks :=
  if (n.tcb i).key.lport ≠ 0 then some n
  else (findClear n.bmp 65536 0).map fun port => { n with
    tcb := update n.tcb i { n.tcb i with key := { (n.tcb i).key with lport := port } }
    bmp := update n.bmp port true }

/-! ## The calls -/

/-- A control block as `tcp_socket` sets it up; `t` is what was in its memory. -/
def tcpNew (t : Tcp) : Tcp := { t with
  key := ⟨(0, 0, 0, 0), (0, 0, 0, 0), 0, 0⟩, mss := 536, nagle := true, state := .closed, shutWr := false, errno := 0
  passive := false, ptcp := none, pchd := [], acpt := [], backlog := 0, backcnt := 0
  snd := { t.snd with sndQue := [], unaQue := [] }, rcv := { t.rcv with bufQue := [] }
  tmrAck := false, tmrWait := false, rxWaiter := false, synWaiter := false }

/-- What is in the memory of a new control block. -/
def blank : Tcp := tcpNew
  { key := ⟨(0, 0, 0, 0), (0, 0, 0, 0), 0, 0⟩, mss := 0, nagle := false, state := .closed, shutWr := false, errno := 0
    passive := false, ptcp := none, pchd := [], acpt := [], backlog := 0, backcnt := 0, snd := ⟨0, 0, 0, [], []⟩
    rcv := ⟨0, 0, []⟩, tmrAck := false, tmrWait := false, rxWaiter := false, synWaiter := false }

def tcpSocket (n : Socks) : Socks := { n with
  tcb := update n.tcb n.next (tcpNew (n.tcb n.next)), common := n.common ++ [n.next], next := n.next + 1 }

/-- The end of `tcp_bind`: the local address, if there is an interface with it. -/
def setLaddr (n : Socks) (i : Nat) : Option Ipv4 → Socks
  | none => n
  | some laddr => { n with
      tcb := update n.tcb i { n.tcb i with key := { (n.tcb i).key with laddr := laddr } } }

def tcpBind (n : Socks) (i : Nat) (port : UInt16) (laddr : Option Ipv4) : Option Socks :=
  if port ≠ 0 then
    if n.bmp port then some n
    else some (setLaddr { n with
      tcb := update n.tcb i { n.tcb i with key := { (n.tcb i).key with lport := port } } } i laddr)
  else (ckLport n i).map fun n => setLaddr n i laddr

def tcpListen (n : Socks) (i : Nat) (backlog : Int) : Socks := { n with
  tcb := update n.tcb i { n.tcb i with state := .listen, backlog := backlog }
  common := n.common.erase i, listen := i :: n.listen.erase i }

def tcpTxSetup (t : Tcp) (tick : UInt32) : Tcp × TxSeg :=
  let iss := tick ^^^ 0x20250403
  ({ t with snd := { t.snd with iss := iss, una := iss, nxt := iss + 1 }, state := .synSent }, t.out iss 0 2 [])

/-- `tcp_connect`, up to where it blocks. -/
def tcpConnect (n : Socks) (i : Nat) (raddr : Ipv4) (rport : UInt16) (tick : UInt32) : Option Socks :=
  if (n.tcb i).key.rport ≠ 0 ∨ rport = 0 then some n
  else
    let t := { n.tcb i with key := { (n.tcb i).key with raddr := raddr, rport := rport } }
    (ckLport { n with tcb := update n.tcb i t } i).bind fun n =>
      let r := tcpTxSetup (n.tcb i) tick
      if r.1.synWaiter then none
      else some { n with tcb := update n.tcb i { r.1 with synWaiter := true }, tx := n.tx ++ [r.2] }

/-- `tcp_accept`: the oldest offered connection that is still established, or the task blocks. `bad` says that only one
of `addr` and `len` is given, `fd` that a file descriptor is left. -/
def tcpAccept (n : Socks) (i : Nat) (bad fd : Bool) : Option (Socks × Option Nat) :=
  let t := n.tcb i
  match t.acpt.reverse.dropWhile fun c => (n.tcb c).state ≠ .established with
  | [] =>
    if t.synWaiter then none
    else some ({ n with tcb := update n.tcb i { t with acpt := [], synWaiter := true } }, none)
  | c :: rest =>
    if bad then some ({ n with tcb := update n.tcb i { t with acpt := rest.reverse } }, none)
    else if fd then
      some ({ n with tcb := update n.tcb i { t with acpt := rest.reverse, backcnt := t.backcnt - 1 } }, some c)
    else some ({ n with tcb := update n.tcb i { t with acpt := rest.reverse ++ [c] } }, none)

/-- `tcp_shutdown` with `SHUT_WR` or `SHUT_RDWR`, which is also what closing a socket does. -/
def tcpShutdown (n : Socks) (i : Nat) : Socks := { n with
  tcb := update n.tcb i { n.tcb i with shutWr := true } }

/-- `tcp_tmr_timewait`, for a timer that runs. -/
def tcpTmrTimewait (n : Socks) (i : Nat) : Option Socks :=
  if (n.tcb i).tmrWait then
    some ({ n with tcb := update n.tcb i { n.tcb i with tmrWait := false } }.act i .release)
  else none

/-! ## The port bitmap -/

section Port

variable {bmp : UInt16 → Bool} {k p : Nat} {port : UInt16}

/-- The first clear port of the range. -/
theorem findClear_some (h : findClear bmp k p = some port) : bmp port = false ∧
    ∃ q, p ≤ q ∧ q < p + k ∧ port = .ofNat q ∧ ∀ j, p ≤ j → j < q → bmp (.ofNat j) = true := by
  induction k generalizing p with
  | zero => cases h
  | succ k ih =>
    rw [findClear] at h
    split at h
    · next hb =>
      obtain ⟨hc, q, hle, hlt, hq, hset⟩ := ih h
      refine ⟨hc, q, by omega, by omega, hq, fun j hj hjq => ?_⟩
      by_cases he : j = p
      · rw [he, hb]
      · exact hset j (by omega) hjq
    next hb =>
    cases h
    exact ⟨by simpa using hb, p, le_rfl, by omega, rfl, fun j hj hjq => by omega⟩

end Port

/-! ## What handling a segment can do -/

variable {t t' : Tcp} {seg : Seg} {acts : List Act}

/-- The addresses and ports, the parent and the side of a connection stay, and it gets into the states of the handshake
from there only. -/
structure Role (t t' : Tcp) : Prop where
  key : t'.key = t.key
  ptcp : t'.ptcp = t.ptcp
  passive : t'.passive = t.passive
  sent : t'.state = .synSent → t.state = .synSent
  rcvd : t'.state = .synRcvd → t.state = .synRcvd ∨ t.state = .synSent

theorem Role.refl (t : Tcp) : Role t t := ⟨rfl, rfl, rfl, id, .inl⟩

/-- What handling a segment can do to the connection `self`, and the actions it asks for. -/
inductive Reacts (self : Nat) (t : Tcp) : Tcp → List Act → Prop
  | quiet {t' : Tcp} {acts : List Act} (role : Role t t') (hq : Quiet acts) : Reacts self t t' acts
  | release {t' : Tcp} {acts : List Act} (role : Role t t') (last : t.state ∈ [St.lastAck, .closing, .timeWait])
      (hq : Quiet acts) :
    Reacts self t t' (.release :: acts)
  | orphan (hst : t.state = .synRcvd) (hp : t.passive = true) : Reacts self t t [.orphan]
  | offer {t' : Tcp} (role : Role t t') (hst : t.state = .synRcvd) (hst' : t'.state = .established) :
    Reacts self t t' [.offer]
  | spawn {t' : Tcp} {acts acts' : List Act} (conn : Tcp) (role : Role t t') (hst : t.state = .listen)
      (lport : conn.key.lport = t.key.lport)
    (ptcp : conn.ptcp = some self) (passive : conn.passive = true) (state : conn.state = .synRcvd) (hq : Quiet acts)
    (hq' : Quiet acts') : Reacts self t t' (acts ++ .spawn conn :: acts')

theorem Role.of_state (hkey : t'.key = t.key) (hptcp : t'.ptcp = t.ptcp) (hp : t'.passive = t.passive)
    (hst : t'.state ≠ .synSent) (hst' : t'.state ≠ .synRcvd) : Role t t' :=
  ⟨hkey, hptcp, hp, fun h => absurd h hst, fun h => absurd h hst'⟩

theorem quiet_tcpTxReset (seg : Seg) : Quiet (tcpTxReset seg) := by
  unfold tcpTxReset
  split <;> exact quiet_cons quiet_nil

theorem ack_role (t : Tcp) (seg : Seg) (b : Bool) : Role t (if b then tcpXAck t seg else (t, [])).1 := by
  have hs := ack_spec t seg b
  refine ⟨hs.key, hs.ptcp, hs.passive, fun h => ?_, fun h => ?_⟩
  · rcases hs.state with he | ⟨-, he⟩ | ⟨-, he⟩
    · rw [← he, h]
    · rw [h] at he; cases he
    · rw [h] at he; cases he
  rcases hs.state with he | ⟨-, he⟩ | ⟨-, he⟩
  · exact .inl (by rw [← he, h])
  · rw [h] at he; cases he
  · rw [h] at he; cases he

theorem tcpRxData_role (t : Tcp) (seg : Seg) : Role t (tcpRxData t seg).1 := by
  obtain ⟨-, hkey, hst, -⟩ := tcpRxData_spec t seg
  have hr : (tcpRxData t seg).1.ptcp = t.ptcp ∧ (tcpRxData t seg).1.passive = t.passive := by
    unfold tcpRxData
    split_ifs <;> exact ⟨rfl, rfl⟩
  exact ⟨hkey, hr.1, hr.2, fun h => hst ▸ h, fun h => .inl (hst ▸ h)⟩

theorem Role.trans {t'' : Tcp} (h : Role t t') (h' : Role t' t'') : Role t t'' :=
  ⟨h'.key.trans h.key, h'.ptcp.trans h.ptcp, h'.passive.trans h.passive, fun hs => h.sent (h'.sent hs), fun hs => by
    rcases h'.rcvd hs with hs | hs
    · exact h.rcvd hs
    · exact .inr (h.sent hs)⟩

/-- `SYN_SENT` keeps the connection's role and only transmits. -/
theorem tcpRxSent_role (seg : Seg) (hst : t.state = .synSent) :
    Role t (tcpRxSent t seg).1 ∧ Quiet (tcpRxSent t seg).2 := by
  have role : ∀ {u : Tcp}, u.key = t.key → u.ptcp = t.ptcp → u.passive = t.passive → Role t u := fun h1 h2 h3 =>
    ⟨h1, h2, h3, fun _ => hst, fun _ => .inr hst⟩
  unfold tcpRxSent
  split
  · exact ⟨.refl t, quiet_tcpTxReset seg⟩
  generalize hu : (if (seg.hdr.rst && seg.hdr.ack) = true then tcpExitWith { t with state := .closed }
    (-104) else t) = u
  have hu' : u.key = t.key ∧ u.ptcp = t.ptcp ∧ u.passive = t.passive := by
    rw [← hu]
    split <;> exact ⟨rfl, rfl, rfl⟩
  obtain ⟨h1, h2, h3⟩ := hu'
  dsimp only
  split
  · generalize (if seg.hdr.ack = true then seg.hdr.acknr else u.snd.una) = una
    split
    · exact ⟨role h1 h2 h3, quiet_cons quiet_nil⟩
    · exact ⟨role h1 h2 h3, quiet_cons quiet_nil⟩
  · exact ⟨role h1 h2 h3, quiet_nil⟩

/-- In `SYN_RCVD` a segment may leave the listener. -/
theorem tcpRxRcvd_reacts (self : Nat) (seg : Seg) (hst : t.state = .synRcvd) :
    Reacts self t (tcpRxRcvd t seg).1 (tcpRxRcvd t seg).2 := by
  unfold tcpRxRcvd
  split
  · split
    · next hp => exact .orphan hst hp
    · exact .quiet ⟨rfl, rfl, rfl, id, .inl⟩ quiet_nil
  split
  · next h => exact .orphan hst (Bool.and_eq_true_iff.1 h).2
  split
  · split
    · split
      · exact .offer (.of_state rfl rfl rfl nofun nofun) hst rfl
      · exact .quiet (.of_state rfl rfl rfl nofun nofun) quiet_nil
    · exact .quiet (.refl t) (quiet_tcpTxReset seg)
  · exact .quiet (.refl t) quiet_nil

theorem tcpRxListen_reacts (tick : UInt32) (self : Nat) (seg : Seg) (hst : t.state = .listen) :
    Reacts self t (tcpRxListen tick self t seg).1 (tcpRxListen tick self t seg).2 := by
  unfold tcpRxListen
  split
  · exact .quiet (.refl t) quiet_nil
  split
  · exact .quiet (.refl t) (quiet_tcpTxReset seg)
  split
  · refine .spawn _ ⟨rfl, rfl, rfl, id, .inl⟩ hst rfl rfl rfl rfl ?_ (quiet_cons quiet_nil)
    split
    · exact quiet_nil
    · exact quiet_tcpTxReset seg
  · exact .quiet (.refl t) quiet_nil

/-- `ESTABLISHED` keeps the connection's role and only transmits. -/
theorem tcpRxEstablished_role (h : tcpRxEstablished t seg = some (t', acts)) : Role t t' ∧ Quiet acts := by
  have ha := ack_role t seg seg.hdr.ack
  have hs := ack_spec t seg seg.hdr.ack
  unfold tcpRxEstablished at h
  split at h
  · cases h
    exact ⟨⟨rfl, rfl, rfl, id, .inl⟩, quiet_nil⟩
  split at h
  · cases h
    exact ⟨.refl t, quiet_cons quiet_nil⟩
  generalize (if seg.hdr.ack = true then tcpXAck t seg else (t, [])) = r at h ha hs
  have hd := tcpRxData_role r.1 seg
  obtain ⟨-, -, -, hq⟩ := tcpRxData_spec r.1 seg
  split at h
  · cases h
  cases h
  refine ⟨?_, hs.quiet.append hq⟩
  split
  · exact .of_state (ha.trans hd).key (ha.trans hd).ptcp (ha.trans hd).passive nofun nofun
  · exact ha.trans hd

theorem tcpRxClosewait_role (h : tcpRxClosewait t seg = some (t', acts)) : Role t t' ∧ Quiet acts := by
  unfold tcpRxClosewait at h
  generalize hu : (if seg.hdr.rst = true then tcpExitWith t (-104) else t) = u at h
  have hr : Role t u := by
    rw [← hu]
    split
    · exact ⟨rfl, rfl, rfl, id, .inl⟩
    · exact .refl t
  have ha := ack_role u seg seg.hdr.ack
  have hs := ack_spec u seg seg.hdr.ack
  dsimp only at h
  split at h
  · cases h
    exact ⟨hr, quiet_cons quiet_nil⟩
  generalize (if seg.hdr.ack = true then tcpXAck u seg else (u, [])) = r at h ha hs
  split at h
  · cases h
  · cases h
    exact ⟨hr.trans ha, hs.quiet⟩

theorem tcpRxFinwait_role (h : tcpRxFinwait t seg = some (t', acts)) : Role t t' ∧ Quiet acts := by
  unfold tcpRxFinwait at h
  split at h
  · cases h
    exact ⟨⟨rfl, rfl, rfl, id, .inl⟩, quiet_nil⟩
  split at h
  · cases h
    exact ⟨.refl t, quiet_cons quiet_nil⟩
  generalize hu : (if (seg.hdr.ack && seg.hdr.acknr == t.snd.nxt && t.state == .finWait1) = true then
    { t with state := .finWait2 } else t) = u at h
  have hr : Role t u := by
    rw [← hu]
    split
    · exact .of_state rfl rfl rfl nofun nofun
    · exact .refl t
  have hd := hr.trans (tcpRxData_role u seg)
  obtain ⟨-, -, -, hq⟩ := tcpRxData_spec u seg
  split at h
  · cases h
  cases h
  refine ⟨?_, hq⟩
  split
  · split
    · exact .of_state hd.key hd.ptcp hd.passive nofun nofun
    · exact .of_state hd.key hd.ptcp hd.passive nofun nofun
    · exact hd
  · exact hd

theorem Ends.reacts {self : Nat} (hst : t.state ∈ [St.lastAck, .closing, .timeWait]) (h : Ends seg t t' acts) :
    Reacts self t t' acts := by
  have hrole : Role t t' := by
    rcases h.state with hs | hs | hs
    · exact ⟨h.key, h.ptcp, h.passive, fun hst => hs ▸ hst, fun hst => .inl (hs ▸ hst)⟩
    · exact .of_state h.key h.ptcp h.passive (by rw [hs]; nofun) (by rw [hs]; nofun)
    · exact .of_state h.key h.ptcp h.passive (by rw [hs]; nofun) (by rw [hs]; nofun)
  obtain ⟨more, hq, rfl⟩ := h.acts
  split
  · exact .release hrole hst hq
  · exact .quiet hrole hq

/-- **What handling any segment can do.** -/
theorem tcpRx_reacts {tick : UInt32} {self : Nat} (h : tcpRx tick self t seg = some (t', acts)) :
    Reacts self t t' acts := by
  unfold tcpRx at h
  cases hst : t.state with
  | synSent =>
    have hr := tcpRxSent_role seg hst
    rw [hst] at h
    rw [Option.some.inj h] at hr
    exact .quiet hr.1 hr.2
  | synRcvd =>
    have hr := tcpRxRcvd_reacts self seg hst
    rw [hst] at h
    rwa [Option.some.inj h] at hr
  | listen =>
    have hr := tcpRxListen_reacts tick self seg hst
    rw [hst] at h
    rwa [Option.some.inj h] at hr
  | established => rw [hst] at h; exact .quiet (tcpRxEstablished_role h).1 (tcpRxEstablished_role h).2
  | closeWait => rw [hst] at h; exact .quiet (tcpRxClosewait_role h).1 (tcpRxClosewait_role h).2
  | lastAck => exact (tcpRx_ends (by simp [hst]) h).reacts (by simp [hst])
  | finWait1 => rw [hst] at h; exact .quiet (tcpRxFinwait_role h).1 (tcpRxFinwait_role h).2
  | finWait2 => rw [hst] at h; exact .quiet (tcpRxFinwait_role h).1 (tcpRxFinwait_role h).2
  | closing => exact (tcpRx_ends (by simp [hst]) h).reacts (by simp [hst])
  | timeWait => exact (tcpRx_ends (by simp [hst]) h).reacts (by simp [hst])
  | closed => rw [hst] at h; cases h; exact .quiet (.refl t) (quiet_tcpTxReset seg)

end TextOS.Net
