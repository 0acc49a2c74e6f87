import TextOS.Net.TcpSock

/-!
# The local ports of TCP sockets

A port is taken by `tcp_bind`, by `tcp_connect` or with a connection that a listening socket gets, and given back by
`tcp_release`.

- the runs of `Socks`, all sockets with those that user programs have, are calls, arriving segments and timers;
- `PortInv`: the bits of the bitmap are the ports of the live sockets, and sockets with one port are related through
  their parents;
- if no port is bound by number, no socket is used after its release, and a release is the last use of its port,
  **ports are owned** (`ports_owned`): both hold in every state, so a port in use is never handed out.
-/

namespace TextOS.Net

open Lib List Function Option

/-- The socket is in one of the lists. -/
def Socks.live (n : Socks) (i : Nat) : Prop := i ∈ n.common ++ n.listen
deriving Decidable

/-- The local port of a socket. -/
def Socks.lport (n : Socks) (i : Nat) : UInt16 := (n.tcb i).key.lport

inductive PortOp
  | socket
  | bind (i : Nat) (port : UInt16) (laddr : Option Ipv4)
  | listen (i : Nat) (backlog : Int)
  | connect (i : Nat) (raddr : Ipv4) (rport : UInt16) (tick : UInt32)
  | accept (i : Nat) (bad fd : Bool)
  | shutdown (i : Nat)
  | rx (tick : UInt32) (ip : UInt64) (m : Mbuf)
  | timer (i : Nat)

/-- A call, a segment that arrives or the timer of a connection. -/
def portStep (n : Socks) : PortOp → Option Socks
  | .socket => some (tcpSocket n)
  | .bind i port laddr => tcpBind n i port laddr
  | .listen i backlog => some (tcpListen n i backlog)
  | .connect i raddr rport tick => tcpConnect n i raddr rport tick
  | .accept i bad fd => (tcpAccept n i bad fd).map Prod.fst
  | .shutdown i => some (tcpShutdown n i)
  | .rx tick ip m => sockRxTcp tick n ip m
  | .timer i => tcpTmrTimewait n i

/-- No socket, and a bitmap of zeros with bit 0 set. -/
def Socks.init (tcb : Nat → Tcp) : Socks := ⟨tcb, [], [], 0, (· == 0), []⟩

/-- A live connection of a listening socket whose handshake is not finished, so that it was not accepted yet. -/
def Socks.Half (n : Socks) (i : Nat) : Prop := n.live i ∧ (n.tcb i).passive = true ∧ (n.tcb i).state = .synRcvd
deriving Decidable

/-! ## What is assumed of a run -/

/-- No other live socket has the port. -/
def Socks.Sole (n : Socks) (i : Nat) : Prop := ∀ j ∈ n.common ++ n.listen, j ≠ i → n.lport j ≠ n.lport i
deriving Decidable

def Act.isRelease : Act → Bool
  | .release => true
  | _ => false

/-- A segment that makes a connection be released. -/
def releases (n : Socks) (tick : UInt32) (ip : UInt64) (m : Mbuf) (i : Nat) : Bool :=
  let seg := segOf ip m
  netCksumTcp m.bytes seg.sip seg.dip m.len == 0 &&
    findTcb n seg.sip seg.dip seg.hdr.sport seg.hdr.dport == some i &&
      ((tcpRx tick i (n.tcb i) seg).map fun r => r.2.any Act.isRelease).getD false

/-- No port is bound by number; `tcp_bind`, `tcp_listen` and `tcp_connect` are called with a live socket that a program
can have, `tcp_connect` not with an accepted one; and a socket is released once, as the last one with its port. -/
def Careful (n : Socks) : PortOp → Prop
  | .bind i port _ => n.live i ∧ ¬ n.Half i ∧ (port = 0 ∨ n.bmp port = true)
  | .listen i _ => n.live i
  | .connect i .. => n.live i ∧ (n.tcb i).passive = false
  | .rx tick ip m => ∀ i ∈ n.common ++ n.listen, releases n tick ip m i = true → n.Sole i
  | .timer i => n.live i ∧ n.Sole i
  | .socket | .accept .. | .shutdown _ => True

instance (n : Socks) (o : PortOp) : Decidable (Careful n o) := by
  unfold Careful
  split <;> infer_instance

/-! ## The invariant -/

/-- A socket and its parent. -/
def Socks.Link (n : Socks) (i p : Nat) : Prop := i < n.next ∧ (n.tcb i).ptcp = some p

/-- The sockets are related: through parents, in any number of steps. -/
def Socks.Family (n : Socks) : Nat → Nat → Prop := Relation.EqvGen n.Link

/-- The parent of a half-open connection is live and has the same port, and the connection is nobody's parent. -/
structure HalfOk (n : Socks) (i : Nat) : Prop where
  childless : ∀ k < n.next, (n.tcb k).ptcp ≠ some i
  parent : n.lport i ≠ 0 → ∃ p, p ≠ i ∧ n.live p ∧ n.lport p = n.lport i ∧ (n.tcb i).ptcp = some p

structure PortInv (n : Socks) : Prop where
  nodup : (n.common ++ n.listen).Nodup
  old : ∀ i, n.live i → i < n.next
  parents : ∀ i p, n.Link i p → p < n.next
  bits : ∀ p ≠ 0, n.bmp p = true ↔ ∃ i, n.live i ∧ n.lport i = p
  family : ∀ i j, n.live i → n.live j → n.lport i = n.lport j → n.lport i ≠ 0 → n.Family i j
  active : ∀ i < n.next, (n.tcb i).state = .synSent → (n.tcb i).passive = false
  half : ∀ i, n.Half i → HalfOk n i

variable {n n' : Socks} {i j p : Nat} {t : Tcp}

/-! ## Changes that do not concern the ports -/

/-- The port, the parent and the side of a socket stay, and an accepted connection does not get half open. -/
structure Same (t t' : Tcp) : Prop where
  lport : t'.key.lport = t.key.lport
  ptcp : t'.ptcp = t.ptcp
  passive : t'.passive = t.passive
  sent : t.passive = true → t'.state = .synSent → t.state = .synSent
  rcvd : t.passive = true → t'.state = .synRcvd → t.state = .synRcvd ∨ t.state = .synSent

theorem Same.refl (t : Tcp) : Same t t := ⟨rfl, rfl, rfl, fun _ => id, fun _ => .inl⟩

theorem Role.same {t t' : Tcp} (h : Role t t') : Same t t' :=
  ⟨by rw [h.key], h.ptcp, h.passive, fun _ => h.sent, fun _ => h.rcvd⟩

theorem same_update {tcb : Nat → Tcp} (h : Same (tcb i) t) (k : Nat) : Same (tcb k) (update tcb i t k) := by
  by_cases hk : k = i
  · rw [hk, update_self]
    exact h
  · rw [update_of_ne hk]
    exact .refl _

/-- Nothing changes that concerns the ports. -/
structure Like (n n' : Socks) : Prop where
  next : n'.next = n.next
  bmp : n'.bmp = n.bmp
  live : ∀ i, n'.live i ↔ n.live i
  nodup : (n.common ++ n.listen).Nodup → (n'.common ++ n'.listen).Nodup
  same : ∀ i, Same (n.tcb i) (n'.tcb i)

theorem Like.refl (n : Socks) : Like n n := ⟨rfl, rfl, fun _ => .rfl, id, fun _ => .refl _⟩

theorem Like.link (h : Like n n') : n'.Link = n.Link := by
  funext i p
  rw [Socks.Link, Socks.Link, h.next, (h.same i).ptcp]

/-- The invariant reads only ports, lists and parents. -/
theorem PortInv.like (hi : PortInv n) (h : Like n n') : PortInv n' := by
  have hlport : ∀ i, n'.lport i = n.lport i := fun i => (h.same i).lport
  refine ⟨h.nodup hi.nodup, fun i hl => ?_, fun i p hl => ?_, fun p hp => ?_, fun i j hli hlj he h0 => ?_,
    fun i hlt hs => ?_, fun i hh => ?_⟩
  · exact h.next ▸ hi.old i ((h.live i).1 hl)
  · exact h.next ▸ hi.parents i p (h.link ▸ hl)
  · simp only [h.bmp, h.live, hlport]
    exact hi.bits p hp
  · rw [hlport, hlport] at he
    rw [hlport] at h0
    have := hi.family i j ((h.live i).1 hli) ((h.live j).1 hlj) he h0
    rwa [Socks.Family, h.link]
  · rw [(h.same i).passive]
    by_contra hp
    have hp' : (n.tcb i).passive = true := by simpa using hp
    exact hp (hi.active i (h.next ▸ hlt) ((h.same i).sent hp' hs))
  obtain ⟨hl, hp, hst⟩ := hh
  rw [(h.same i).passive] at hp
  have hl' := (h.live i).1 hl
  have hh : n.Half i := by
    refine ⟨hl', hp, ?_⟩
    rcases (h.same i).rcvd hp hst with hs | hs
    · exact hs
    · rw [hi.active i (hi.old i hl') hs] at hp
      cases hp
  obtain ⟨h2, h3⟩ := hi.half i hh
  refine ⟨fun k hk => ?_, fun h0 => ?_⟩
  · rw [(h.same k).ptcp]
    exact h2 k (h.next ▸ hk)
  rw [hlport] at h0
  obtain ⟨p, hne, hlp, he, hpt⟩ := h3 h0
  exact ⟨p, hne, (h.live p).2 hlp, by rw [hlport, hlport, he], by rw [(h.same i).ptcp, hpt]⟩

theorem Like.update (h : Same (n.tcb i) t) : Like n { n with tcb := update n.tcb i t } :=
  ⟨rfl, rfl, fun _ => .rfl, id, same_update h⟩

theorem Like.sole (h : Like n n') (hs : n.Sole i) : n'.Sole i := by
  intro j hj hne
  rw [Socks.lport, Socks.lport, (h.same j).lport, (h.same i).lport]
  exact hs j ((h.live j).1 hj) hne

theorem Like.offer (n : Socks) (i : Nat) : Like n (n.act i .offer) := by
  rw [Socks.act]
  cases (n.tcb i).ptcp with
  | none => exact .refl n
  | some p => exact .update ⟨rfl, rfl, rfl, fun _ => id, fun _ => .inl⟩

theorem Like.quiet (self : Nat) {acts : List Act} (h : Quiet acts) (n : Socks) :
    Like n (acts.foldl (Socks.act self) n) := by
  obtain ⟨tx, he, -⟩ := foldl_act_quiet self n h
  rw [he]
  exact ⟨rfl, rfl, fun _ => .rfl, id, fun _ => .refl _⟩

/-! ## Taking a port -/

/-- Choosing a local port marks a port no other family has. -/
theorem PortInv.ckLport (hi : PortInv n) (hl : n.live i) (hu : ¬ n.Half i) (h : ckLport n i = some n') :
    PortInv n' := by
  rw [Net.ckLport] at h
  split at h
  · cases h
    exact hi
  next h0 =>
  obtain ⟨port, hf, rfl⟩ := map_eq_some_iff.1 h
  have h0 : n.lport i = 0 := not_not.1 h0
  have hclear := (findClear_some hf).1
  set n' : Socks := { n with
    tcb := update n.tcb i { n.tcb i with key := { (n.tcb i).key with lport := port } }
    bmp := update n.bmp port true } with hn'
  have hself : n'.lport i = port := by simp [hn', Socks.lport]
  have hother : ∀ j, j ≠ i → n'.lport j = n.lport j := fun j hj => by simp [hn', Socks.lport, hj]
  have htcb : ∀ j, (n'.tcb j).ptcp = (n.tcb j).ptcp ∧ (n'.tcb j).passive = (n.tcb j).passive ∧
      (n'.tcb j).state = (n.tcb j).state := by
    intro j
    by_cases hj : j = i
    · subst hj
      simp [hn']
    · simp [hn', hj]
  have hlink : n'.Link = n.Link := by
    funext a b
    rw [Socks.Link, Socks.Link, (htcb a).1]
  -- nobody live had the port
  have hfree : ∀ j, n.live j → n.lport j = port → port = 0 := by
    intro j hlj hp
    by_contra hne
    rw [(hi.bits port hne).2 ⟨j, hlj, hp⟩] at hclear
    cases hclear
  refine ⟨hi.nodup, hi.old, fun a p hl => hi.parents a p (hlink ▸ hl), fun p hp => ?_, fun a b hla hlb he h0' => ?_,
    fun a hlt hs => ?_, fun a hh => ?_⟩
  · change update n.bmp port true p = true ↔ ∃ j, n.live j ∧ n'.lport j = p
    by_cases hpp : p = port
    · subst hpp
      exact ⟨fun _ => ⟨i, hl, hself⟩, fun _ => by simp⟩
    rw [update_of_ne hpp, hi.bits p hp]
    refine exists_congr fun j => and_congr_right fun _ => ?_
    by_cases hj : j = i
    · rw [hj, hself, h0]
      exact ⟨fun he => absurd he.symm hp, fun he => absurd he.symm hpp⟩
    · rw [hother j hj]
  · rw [Socks.Family, hlink]
    by_cases ha : a = i
    · by_cases hb : b = i
      · rw [ha, hb]
        exact .refl i
      rw [ha, hself] at he h0'
      rw [hother b hb] at he
      exact absurd (hfree b hlb he.symm) h0'
    by_cases hb : b = i
    · rw [hother a ha, hb, hself] at he
      rw [hother a ha, he] at h0'
      exact absurd (hfree a hla he) h0'
    rw [hother a ha, hother b hb] at he
    rw [hother a ha] at h0'
    exact hi.family a b hla hlb he h0'
  · rw [(htcb a).2.1]
    exact hi.active a hlt ((htcb a).2.2 ▸ hs)
  have hh' : n.Half a := ⟨hh.1, (htcb a).2.1 ▸ hh.2.1, (htcb a).2.2 ▸ hh.2.2⟩
  obtain ⟨h2, h3⟩ := hi.half a hh'
  have hai : a ≠ i := fun he => hu (he ▸ hh')
  refine ⟨fun k hk => (htcb k).1 ▸ h2 k hk, fun hne => ?_⟩
  rw [hother a hai] at hne ⊢
  obtain ⟨p, hpa, hlp, hpe, hpt⟩ := h3 hne
  have hpi : p ≠ i := fun he => hne (by rw [← hpe, he, h0])
  exact ⟨p, hpa, hlp, by rw [hother p hpi, hpe], (htcb a).1 ▸ hpt⟩

theorem ckLport_passive (h : ckLport n i = some n') : (n'.tcb i).passive = (n.tcb i).passive := by
  rw [Net.ckLport] at h
  split at h
  · cases h
    rfl
  · obtain ⟨port, -, rfl⟩ := map_eq_some_iff.1 h
    simp

/-! ## Leaving the lists -/

/-- The sockets without `i`. -/
def Socks.drop (n : Socks) (i : Nat) (bmp : UInt16 → Bool) : Socks :=
  { n with common := n.common.erase i, listen := n.listen.erase i, bmp := bmp }

theorem live_drop (hn : (n.common ++ n.listen).Nodup) {bmp : UInt16 → Bool} :
    (n.drop i bmp).live j ↔ n.live j ∧ j ≠ i := by
  obtain ⟨hc, hl, -⟩ := nodup_append.1 hn
  simp only [Socks.live, Socks.drop, mem_append, hc.mem_erase_iff, hl.mem_erase_iff]
  tauto

/-- A socket leaves the lists; no half-open connection loses its parent, and the bits stay right. -/
theorem PortInv.drop (hi : PortInv n) {bmp : UInt16 → Bool}
    (hbits : ∀ p ≠ 0, bmp p = true ↔ ∃ j, (n.live j ∧ j ≠ i) ∧ n.lport j = p)
    (hpar : ∀ j, n.Half j → j ≠ i → n.lport j ≠ 0 → ¬ ((n.tcb j).ptcp = some i ∧ n.lport i = n.lport j)) :
    PortInv (n.drop i bmp) := by
  have hlive : ∀ j, (n.drop i bmp).live j ↔ n.live j ∧ j ≠ i := fun j => live_drop hi.nodup
  refine ⟨?_, fun j hj => hi.old j ((hlive j).1 hj).1, hi.parents, fun p hp => ?_, fun a b ha hb => ?_, hi.active,
    fun j hj => ?_⟩
  · exact (List.Sublist.append erase_sublist erase_sublist).nodup hi.nodup
  · simp only [hlive]
    exact hbits p hp
  · exact hi.family a b ((hlive a).1 ha).1 ((hlive b).1 hb).1
  obtain ⟨hl, hp, hst⟩ := hj
  obtain ⟨hl', hji⟩ := (hlive j).1 hl
  have hh : n.Half j := ⟨hl', hp, hst⟩
  obtain ⟨h2, h3⟩ := hi.half j hh
  refine ⟨h2, fun h0 => ?_⟩
  obtain ⟨p, hpj, hlp, he, hpt⟩ := h3 h0
  have hpi : p ≠ i := by
    rintro rfl
    exact hpar j hh hji h0 ⟨hpt, he⟩
  exact ⟨p, hpj, (hlive p).2 ⟨hlp, hpi⟩, he, hpt⟩

theorem PortInv.release (hi : PortInv n) (hs : n.Sole i) : PortInv (n.act i .release) := by
  refine hi.drop (fun p hp => ?_) fun j hj hji h0 ⟨_, he⟩ => hs j hj.1 hji he.symm
  change update n.bmp (n.lport i) false p = true ↔ _
  by_cases hpi : p = n.lport i
  · subst hpi
    rw [update_self]
    refine ⟨nofun, ?_⟩
    rintro ⟨j, ⟨hlj, hji⟩, he⟩
    exact absurd he (hs j hlj hji)
  rw [update_of_ne hpi, hi.bits p hp]
  constructor
  · rintro ⟨j, hlj, he⟩
    exact ⟨j, ⟨hlj, fun hji => hpi (by rw [← he, hji])⟩, he⟩
  · rintro ⟨j, ⟨hlj, -⟩, he⟩
    exact ⟨j, hlj, he⟩

/-- A half-open connection leaves its listener. -/
theorem PortInv.orphan (hi : PortInv n) (hh : n.Half i) : PortInv (n.act i .orphan) := by
  obtain ⟨hch, hpar⟩ := hi.half i hh
  have hdrop : PortInv (n.drop i n.bmp) := by
    refine hi.drop (fun p hp => ?_) fun j hj hji _ hc => hch j (hi.old j hj.1) hc.1
    rw [hi.bits p hp]
    constructor
    · rintro ⟨j, hlj, he⟩
      by_cases hji : j = i
      · subst hji
        obtain ⟨q, hq, hlq, hqe, -⟩ := hpar (he ▸ hp)
        exact ⟨q, ⟨hlq, hq⟩, hqe.trans he⟩
      · exact ⟨j, ⟨hlj, hji⟩, he⟩
    · rintro ⟨j, ⟨hlj, -⟩, he⟩
      exact ⟨j, hlj, he⟩
  refine hdrop.like ⟨rfl, rfl, fun _ => .rfl, id, fun k => ?_⟩
  dsimp only [Socks.act, Socks.drop]
  cases (n.tcb i).ptcp with
  | none => exact .refl _
  | some p =>
    have hs : Same (n.tcb p) { n.tcb p with pchd := (n.tcb p).pchd.erase i } :=
      ⟨rfl, rfl, rfl, fun _ => id, fun _ => .inl⟩
    exact same_update hs k

/-! ## New sockets -/

/-- A new socket, either without a port or in a live family. -/
theorem PortInv.add (hi : PortInv n) (hnext : n'.next = n.next + 1) (hbmp : n'.bmp = n.bmp)
    (hlive : ∀ j, n'.live j ↔ j = n.next ∨ n.live j)
    (hnodup : n.next ∉ n.common ++ n.listen → (n'.common ++ n'.listen).Nodup) (htcb : n'.tcb n.next = t)
    (hother : ∀ j, j ≠ n.next → Same (n.tcb j) (n'.tcb j)) (hst : t.state ≠ .synSent)
    (hnew : (t.key.lport = 0 ∧ t.ptcp = none ∧ t.passive = false) ∨
      ∃ p, n.live p ∧ (n.tcb p).state ≠ .synRcvd ∧ t.key.lport = n.lport p ∧ t.ptcp = some p) : PortInv n' := by
  have hold : ∀ j, n.live j → j ≠ n.next := fun j hl => Nat.ne_of_lt (hi.old j hl)
  have hlport : ∀ j, n.live j → n'.lport j = n.lport j := fun j hj => (hother j (hold j hj)).lport
  have hlp : n'.lport n.next = t.key.lport := by rw [Socks.lport, htcb]
  have hlink : ∀ a b, n.Link a b → n'.Link a b := by
    rintro a b ⟨ha, hab⟩
    refine ⟨by omega, ?_⟩
    rw [(hother a (Nat.ne_of_lt ha)).ptcp, hab]
  have hfam : ∀ a b, n.Family a b → n'.Family a b := Relation.EqvGen.mono hlink
  -- a live socket with the port of the new one is related to it
  have hrel : ∀ b, n.live b → n'.lport n.next = n.lport b → n.lport b ≠ 0 → n'.Family n.next b := by
    intro b hb he h0
    rw [hlp] at he
    rcases hnew with ⟨hz, -⟩ | ⟨p, hp, -, hpl, hpt⟩
    · exact absurd (he.symm.trans hz) h0
    · have hup : n'.Link n.next p := ⟨by omega, htcb ▸ hpt⟩
      exact .trans _ _ _ (.rel _ _ hup) (hfam p b (hi.family p b hp hb (hpl.symm.trans he) (by rwa [← hpl, he])))
  refine ⟨hnodup fun h => hold _ h rfl, fun j hj => ?_, fun a p hl => ?_, fun p hp => ?_, fun a b ha hb he h0 => ?_,
    fun a ha hs => ?_, fun a ha => ?_⟩
  · rcases (hlive j).1 hj with rfl | hj
    · omega
    · have := hi.old j hj
      omega
  · obtain ⟨ha, hap⟩ := hl
    by_cases hn : a = n.next
    · subst hn
      rw [htcb] at hap
      rcases hnew with ⟨-, hz, -⟩ | ⟨q, hq, -, -, hpt⟩
      · rw [hz] at hap
        cases hap
      rw [hpt] at hap
      cases hap
      have := hi.old p hq
      omega
    · rw [(hother a hn).ptcp] at hap
      have := hi.parents a p ⟨by omega, hap⟩
      omega
  · rw [hbmp, hi.bits p hp]
    constructor
    · rintro ⟨j, hj, he⟩
      exact ⟨j, (hlive j).2 (.inr hj), (hlport j hj).trans he⟩
    rintro ⟨j, hj, he⟩
    rcases (hlive j).1 hj with rfl | hj
    · rw [hlp] at he
      rcases hnew with ⟨hz, -⟩ | ⟨q, hq, -, hpl, -⟩
      · exact absurd (he.symm.trans hz) hp
      · exact ⟨q, hq, hpl.symm.trans he⟩
    · exact ⟨j, hj, (hlport j hj).symm.trans he⟩
  · rcases (hlive a).1 ha with rfl | ha
    · rcases (hlive b).1 hb with rfl | hb
      · exact .refl _
      · rw [hlport b hb] at he
        exact hrel b hb he (he ▸ h0)
    rw [hlport a ha] at he h0
    rcases (hlive b).1 hb with rfl | hb
    · exact .symm _ _ (hrel a ha he.symm h0)
    · rw [hlport b hb] at he
      exact hfam a b (hi.family a b ha hb he h0)
  · by_cases hn : a = n.next
    · rw [hn, htcb] at hs
      exact absurd hs hst
    rw [(hother a hn).passive]
    by_contra hp
    have hp' : (n.tcb a).passive = true := by simpa using hp
    exact hp (hi.active a (by omega) ((hother a hn).sent hp' hs))
  obtain ⟨hl, hp, hs⟩ := ha
  rcases (hlive a).1 hl with rfl | hl'
  · rw [htcb] at hp
    rcases hnew with ⟨-, -, hz⟩ | ⟨q, hq, -, hpl, hpt⟩
    · rw [hz] at hp
      cases hp
    refine ⟨fun k hk hk' => ?_, fun _ => ⟨q, hold q hq, (hlive q).2 (.inr hq), ?_, htcb ▸ hpt⟩⟩
    · by_cases hkn : k = n.next
      · rw [hkn, htcb, hpt] at hk'
        exact hold q hq (some.inj hk')
      · rw [(hother k hkn).ptcp] at hk'
        exact absurd (hi.parents k n.next ⟨by omega, hk'⟩) (Nat.lt_irrefl _)
    · rw [hlport q hq, hlp, hpl]
  · have hne := hold a hl'
    rw [(hother a hne).passive] at hp
    have hs' : (n.tcb a).state = .synRcvd := by
      rcases (hother a hne).rcvd hp hs with hs | hs
      · exact hs
      · rw [hi.active a (hi.old a hl') hs] at hp
        cases hp
    obtain ⟨h2, h3⟩ := hi.half a ⟨hl', hp, hs'⟩
    refine ⟨fun k hk hk' => ?_, fun h0 => ?_⟩
    · by_cases hkn : k = n.next
      · rw [hkn, htcb] at hk'
        rcases hnew with ⟨-, hz, -⟩ | ⟨q, -, hqs, -, hpt⟩
        · rw [hz] at hk'
          cases hk'
        rw [hpt] at hk'
        cases hk'
        exact hqs hs'
      · rw [(hother k hkn).ptcp] at hk'
        exact h2 k (by omega) hk'
    · rw [hlport a hl'] at h0 ⊢
      obtain ⟨q, hqa, hq, he, hpt⟩ := h3 h0
      exact ⟨q, hqa, (hlive q).2 (.inr hq), by rw [hlport q hq, he], by rw [(hother a hne).ptcp, hpt]⟩

theorem PortInv.tcpSocket (hi : PortInv n) : PortInv (tcpSocket n) := by
  refine hi.add rfl rfl (fun j => ?_) (fun hn => ?_) (update_self ..) (fun j hj => ?_) nofun (.inl ⟨rfl, rfl, rfl⟩)
  · simp only [Socks.live, Net.tcpSocket, mem_append, mem_singleton]
    tauto
  · have hperm : ((Net.tcpSocket n).common ++ (Net.tcpSocket n).listen).Perm (n.next :: (n.common ++ n.listen)) := by
      rw [Net.tcpSocket, append_assoc]
      exact perm_middle
    exact hperm.nodup_iff.2 (nodup_cons.2 ⟨hn, hi.nodup⟩)
  rw [Net.tcpSocket]
  dsimp only
  rw [update_of_ne hj]
  exact .refl _

/-- A listener's new connection shares its port. -/
theorem PortInv.spawn (hi : PortInv n) (hl : n.live i) {conn : Tcp} (hst : (n.tcb i).state ≠ .synRcvd)
    (hlport : conn.key.lport = n.lport i) (hptcp : conn.ptcp = some i) (hconn : conn.state ≠ .synSent) :
    PortInv (n.act i (.spawn conn)) := by
  have hne : n.next ≠ i := Nat.ne_of_gt (hi.old i hl)
  refine hi.add rfl rfl (fun j => ?_) (fun hn => nodup_cons.2 ⟨hn, hi.nodup⟩) (t := conn) ?_ (fun j hj => ?_) hconn
    (.inr ⟨i, hl, hst, hlport, hptcp⟩)
  · simp only [Socks.live, Socks.act, cons_append, mem_cons]
  · rw [Socks.act]
    dsimp only
    rw [update_of_ne hne, update_self]
  have hself : Same (n.tcb i) { n.tcb i with pchd := n.next :: (n.tcb i).pchd } :=
    ⟨rfl, rfl, rfl, fun _ => id, fun _ => .inl⟩
  rw [Socks.act]
  dsimp only
  by_cases hji : j = i
  · rw [hji, update_self]
    exact hself
  · rw [update_of_ne hji, update_of_ne hj]
    exact .refl _

/-! ## Segments -/

/-- All that a segment's handling does to the lists. -/
theorem PortInv.reacts (hi : PortInv n) (hl : n.live i) {acts : List Act} (h : Reacts i (n.tcb i) t acts)
    (hrel : acts.any Act.isRelease = true → n.Sole i) :
    PortInv (acts.foldl (Socks.act i) { n with tcb := update n.tcb i t }) := by
  have hrole : Role (n.tcb i) t := by
    cases h with
    | quiet role _ | release role _ | offer role _ _ | spawn _ role => exact role
    | orphan => exact .refl _
  have hlike : Like n { n with tcb := update n.tcb i t } := .update hrole.same
  have hi' := hi.like hlike
  have hl' := (hlike.live i).2 hl
  have hti : update n.tcb i t i = t := update_self ..
  cases h with
  | quiet _ hq => exact hi'.like (.quiet i hq _)
  | release _ _ hq => exact (hi'.release (hlike.sole (hrel rfl))).like (.quiet i hq _)
  | orphan hst hp => exact hi'.orphan ⟨hl', (congrArg Tcp.passive hti).trans hp, (congrArg Tcp.state hti).trans hst⟩
  | offer => exact hi'.like (.offer _ i)
  | spawn conn role hst hlport hptcp hp hcst hq hq' =>
    rename_i acts acts'
    rw [foldl_append, foldl_cons]
    obtain ⟨tx, he, -⟩ := foldl_act_quiet i { n with tcb := update n.tcb i t } hq
    have hlike' := Like.quiet i hq { n with tcb := update n.tcb i t }
    rw [he] at hlike' ⊢
    have hne : t.state ≠ .synRcvd := fun hs => by rcases role.rcvd hs with h | h <;> rw [hst] at h <;> cases h
    refine PortInv.like ((hi'.like hlike').spawn ((hlike'.live i).2 hl') ?_ ?_ hptcp ?_) (.quiet i hq' _)
    · simpa using hne
    · simp [hlport, Socks.lport, role.key]
    · rw [hcst]
      nofun

/-- A received segment keeps the invariant. -/
theorem PortInv.rx (hi : PortInv n) {tick : UInt32} {ip : UInt64} {m : Mbuf} (hc : Careful n (.rx tick ip m))
    (h : sockRxTcp tick n ip m = some n') : PortInv n' := by
  rw [sockRxTcp] at h
  split at h
  · cases h
    exact hi
  next hk =>
  split at h
  · cases h
    exact hi.like (.quiet 0 (quiet_tcpTxReset _) n)
  next i hf =>
  obtain ⟨⟨t, acts⟩, hr, rfl⟩ := map_eq_some_iff.1 h
  have hl := mem_append.2 (findTcb_mem hf)
  refine hi.reacts hl (tcpRx_reacts hr) fun ha => hc i hl ?_
  simp only [releases, hf, hr, map_some, getD_some, beq_self_eq_true, Bool.and_true, beq_iff_eq,
    Bool.and_eq_true]
  exact ⟨not_not.1 hk, ha⟩

/-! ## Calls -/

/-- `bind` keeps the invariant. -/
theorem PortInv.tcpBind (hi : PortInv n) {port : UInt16} {laddr : Option Ipv4}
    (hc : Careful n (.bind i port laddr)) (h : tcpBind n i port laddr = some n') : PortInv n' := by
  obtain ⟨hl, hh, hport⟩ := hc
  rw [Net.tcpBind] at h
  split at h
  · next h0 =>
    rw [if_pos (hport.resolve_left h0)] at h
    cases h
    exact hi
  obtain ⟨n1, hck, rfl⟩ := map_eq_some_iff.1 h
  refine (hi.ckLport hl hh hck).like ?_
  cases laddr with
  | none => exact .refl n1
  | some laddr => exact .update ⟨rfl, rfl, rfl, fun _ => id, fun _ => .inl⟩

theorem live_tcpListen (hn : (n.common ++ n.listen).Nodup) (hl : n.live i) (backlog : Int) :
    (tcpListen n i backlog).live j ↔ n.live j := by
  obtain ⟨hc, hl', -⟩ := nodup_append.1 hn
  have hl'' : i ∈ n.common ∨ i ∈ n.listen := mem_append.1 hl
  simp only [Socks.live, tcpListen, mem_append, mem_cons, hc.mem_erase_iff, hl'.mem_erase_iff]
  by_cases hj : j = i
  · simp [hj, hl'']
  · simp [hj]

theorem PortInv.tcpListen (hi : PortInv n) (hl : n.live i) (backlog : Int) : PortInv (tcpListen n i backlog) := by
  refine hi.like ⟨rfl, rfl, fun j => live_tcpListen hi.nodup hl backlog, fun hn => ?_, fun k => ?_⟩
  · obtain ⟨hc, hl', hdis⟩ := nodup_append.1 hn
    have hperm : ((Net.tcpListen n i backlog).common ++ (Net.tcpListen n i backlog).listen).Perm
        (i :: (n.common.erase i ++ n.listen.erase i)) := perm_middle
    refine hperm.nodup_iff.2 (nodup_cons.2 ⟨fun h => ?_, ?_⟩)
    · rcases mem_append.1 h with h | h
      · exact (hc.mem_erase_iff.1 h).1 rfl
      · exact (hl'.mem_erase_iff.1 h).1 rfl
    · exact (List.Sublist.append erase_sublist erase_sublist).nodup hn
  have hs : Same (n.tcb i) { n.tcb i with state := .listen, backlog := backlog } :=
    ⟨rfl, rfl, rfl, fun _ h => (nomatch h), fun _ h => (nomatch h)⟩
  exact same_update hs k

/-- `connect` keeps the invariant. -/
theorem PortInv.tcpConnect (hi : PortInv n) {raddr : Ipv4} {rport : UInt16} {tick : UInt32}
    (hc : Careful n (.connect i raddr rport tick)) (h : tcpConnect n i raddr rport tick = some n') : PortInv n' := by
  obtain ⟨hl, hp⟩ := hc
  rw [Net.tcpConnect] at h
  split at h
  · cases h
    exact hi
  obtain ⟨n2, hck, hset⟩ := bind_eq_some_iff.1 h
  clear h
  set t1 : Tcp := { n.tcb i with key := { (n.tcb i).key with raddr := raddr, rport := rport } } with ht1
  set n1 : Socks := { n with tcb := update n.tcb i t1 } with hn1
  have hlike : Like n n1 := .update ⟨rfl, rfl, rfl, fun _ => id, fun _ => .inl⟩
  have hp1 : (n1.tcb i).passive = false := by simp [hn1, ht1, hp]
  have hhalf : ¬ n1.Half i := fun hh => by
    rw [hh.2.1] at hp1
    cases hp1
  have hi2 := (hi.like hlike).ckLport ((hlike.live i).2 hl) hhalf hck
  have hp2 : (n2.tcb i).passive = false := by rw [ckLport_passive hck, hp1]
  dsimp only at hset
  split at hset
  · cases hset
  cases hset
  have hs : Same (n2.tcb i) { (tcpTxSetup (n2.tcb i) tick).1 with synWaiter := true } :=
    ⟨rfl, rfl, rfl, fun h => absurd (hp2.symm.trans h) nofun, fun h => absurd (hp2.symm.trans h) nofun⟩
  exact hi2.like ⟨rfl, rfl, fun _ => .rfl, id, same_update hs⟩

theorem tcpAccept_like {bad fd : Bool} {r : Socks × Option Nat} (h : tcpAccept n i bad fd = some r) : Like n r.1 := by
  rw [tcpAccept] at h
  split at h
  · split at h
    · cases h
    · cases h
      exact .update ⟨rfl, rfl, rfl, fun _ => id, fun _ => .inl⟩
  split at h
  · cases h
    exact .update ⟨rfl, rfl, rfl, fun _ => id, fun _ => .inl⟩
  split at h
  · cases h
    exact .update ⟨rfl, rfl, rfl, fun _ => id, fun _ => .inl⟩
  · cases h
    exact .update ⟨rfl, rfl, rfl, fun _ => id, fun _ => .inl⟩

theorem PortInv.timer (hi : PortInv n) (hs : n.Sole i) (h : tcpTmrTimewait n i = some n') : PortInv n' := by
  rw [tcpTmrTimewait] at h
  split at h
  · cases h
    have hlike : Like n { n with tcb := update n.tcb i { n.tcb i with tmrWait := false } } :=
      .update ⟨rfl, rfl, rfl, fun _ => id, fun _ => .inl⟩
    exact (hi.like hlike).release (hlike.sole hs)
  · cases h

/-! ## Runs -/

theorem portStep_inv {o : PortOp} (hi : PortInv n) (hc : Careful n o) (h : portStep n o = some n') : PortInv n' := by
  cases o with
  | socket => cases h; exact hi.tcpSocket
  | bind i port laddr => exact hi.tcpBind hc h
  | listen i backlog => cases h; exact hi.tcpListen hc backlog
  | connect i raddr rport tick => exact hi.tcpConnect hc h
  | accept i bad fd =>
    obtain ⟨r, hr, rfl⟩ := map_eq_some_iff.1 h
    exact hi.like (tcpAccept_like hr)
  | shutdown i => cases h; exact hi.like (.update ⟨rfl, rfl, rfl, fun _ => id, fun _ => .inl⟩)
  | rx tick ip m => exact hi.rx hc h
  | timer i => exact hi.timer hc.2 h

theorem portInv_init (tcb : Nat → Tcp) : PortInv (.init tcb) where
  nodup := nodup_nil
  old := fun _ h => (nomatch h)
  parents := fun _ _ h => absurd h.1 (Nat.not_lt_zero _)
  bits := fun _ hp => ⟨fun h => absurd (beq_iff_eq.1 h) hp, fun ⟨_, h, _⟩ => (nomatch h)⟩
  family := fun _ _ h => (nomatch h)
  active := fun _ h => absurd h (Nat.not_lt_zero _)
  half := fun _ h => (nomatch h.1)

/-- **Ports are owned**: live sockets with one port are related through their parents, the bits of the bitmap are the
ports of the live sockets, and the port that `bitmap_find` hands out next is not in use. -/
theorem ports_owned (tcb : Nat → Tcp) (os : List PortOp) (n : Socks) (hos : Meets portStep Careful (.init tcb) os)
    (hr : run portStep (.init tcb) os = some n) :
    (∀ i j, n.live i → n.live j → n.lport i = n.lport j → n.lport i ≠ 0 → n.Family i j) ∧
      (∀ p ≠ 0, n.bmp p = true ↔ ∃ i, n.live i ∧ n.lport i = p) ∧
      ∀ p, findClear n.bmp 65536 0 = some p → p ≠ 0 → ∀ i, n.live i → n.lport i ≠ p := by
  have hi : PortInv n := run_meets_inv (fun _ _ _ => portStep_inv) (portInv_init tcb) hos hr
  refine ⟨hi.family, hi.bits, fun p hf hp i hl he => ?_⟩
  have hclear := (findClear_some hf).1
  rw [(hi.bits p hp).2 ⟨i, hl, he⟩] at hclear
  cases hclear

/-- A server and a client get the ports 1 and 2. -/
theorem ports_owned_pair : (run portStep (.init fun _ => blank) [.socket, .bind 0 0 none, .listen 0 1, .socket,
        .connect 1 (10, 0, 0, 9) 80 0]).map (fun n => (n.common, n.listen, n.lport 0, n.lport 1)) =
      some ([1], [0], 1, 2) ∧
    ∀ n, run portStep (.init fun _ => blank) [.socket, .bind 0 0 none, .listen 0 1, .socket,
        .connect 1 (10, 0, 0, 9) 80 0] = some n → ∀ p ≠ 0, n.bmp p = true ↔ ∃ i, n.live i ∧ n.lport i = p :=
  ⟨by decide, fun n hn => (ports_owned _ _ n (by decide) hn).2.1⟩

/-- Two sockets are bound to port 80, and no bit is set for it. -/
theorem port_bound_twice :
    (run portStep (.init fun _ => blank) [.socket, .socket, .bind 0 80 none, .bind 1 80 none]).map
      (fun n => (n.common, [n.lport 0, n.lport 1], n.bmp 80, [(n.tcb 0).ptcp, (n.tcb 1).ptcp])) =
      some ([0, 1], [80, 80], false, [none, none]) := by
  decide

end TextOS.Net
