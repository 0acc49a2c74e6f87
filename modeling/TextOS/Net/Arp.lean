import TextOS.Lib.Keyed
import TextOS.Lib.Run
import TextOS.Net.Tcp

/-!
# Address resolution: `kernel/net/arp.c`

`net_tx_arpip` sends an IP packet to the hardware address of its next hop; if the address is not known, the packet waits
in the entry of the hop. A request or reply of the hop fills the entry and sends what waits there (`arp_set`).

- for packets to the own network the entries are a picture of the hops (`Pictures`), and **the interface sends what the
  link sends** (`sends_resolved`): each packet once, in order, to the address of its own hop.
-/

namespace TextOS.Net

open Lib Option Function

abbrev Mac := Vector UInt8 6

/-- An IP packet; `dip` is the destination in its header. -/
structure Pkt where
  dip : Ipv4
  id : Nat
deriving DecidableEq

/-- `arpent_t`. -/
structure Arpent where
  ip : Ipv4
  init : Bool
  hw : Mac
  expires : Nat
  ipque : List Pkt

/-- What `nif_eth_tx` is called for. -/
inductive Frame
  | ip (m : Pkt) (dest : Mac)
  | arp (op : UInt16) (dest : Mac) (dip : Ipv4)
deriving DecidableEq

/-- `nif_t`, with the tick count and the frames sent. -/
structure Nif where
  ip : Ipv4
  gateway : Ipv4
  netmask : Ipv4
  arps : List Arpent
  ktick : Nat
  out : List Frame

/-- `arphdr_t`, in host order. -/
structure Arphdr where
  htype : UInt16
  ptype : UInt16
  hlen : UInt8
  plen : UInt8
  opcode : UInt16
  srchw : Mac
  srcpr : Ipv4
  dstpr : Ipv4

def ipAddrMaskcmp (a b m : Ipv4) : Bool :=
  (a.1 &&& m.1, a.2.1 &&& m.2.1, a.2.2.1 &&& m.2.2.1, a.2.2.2 &&& m.2.2.2) ==
    (b.1 &&& m.1, b.2.1 &&& m.2.1, b.2.2.1 &&& m.2.2.1, b.2.2.2 &&& m.2.2.2)

def bc : Mac := #v[0xff, 0xff, 0xff, 0xff, 0xff, 0xff]

def arpTimeout : Nat := 6000

def arpGet (n : Nif) (ip : Ipv4) : Option Arpent := n.arps.find? fun arp => arp.ip == ip

def netTxArp (n : Nif) (op : UInt16) (dmac : Mac) (dip : Ipv4) : Nif := { n with out := n.out ++ [.arp op dmac dip] }

/-- `arp_request`; the default interface sends it, which `out` does not tell from the others. -/
def arpRequest (n : Nif) (dip : Ipv4) : Nif := netTxArp n 1 bc dip

/-- The next hop. -/
def dip0 (n : Nif) (dip : Ipv4) : Ipv4 := if ipAddrMaskcmp dip n.ip n.netmask then dip else n.gateway

/-- `list_insert_before(&arp->ipque, &m->wque)`. -/
def Arpent.enqueue (m : Pkt) (arp : Arpent) : Arpent := { arp with ipque := arp.ipque ++ [m] }

/-- `net_tx_arpip`. A new entry has no hardware address yet. -/
def netTxArpip (n : Nif) (m : Pkt) : Nif :=
  match arpGet n m.dip with
  | none => arpRequest { n with arps := ⟨dip0 n m.dip, false, .replicate 6 0, 0, [m]⟩ :: n.arps } (dip0 n m.dip)
  | some arp =>
    if !arp.init || decide (arp.expires < n.ktick) then
      arpRequest { n with arps := updFirst (fun arp => arp.ip == m.dip) (Arpent.enqueue m) n.arps } (dip0 n m.dip)
    else { n with out := n.out ++ [.ip m arp.hw] }

/-- `arp_set`: fill the entry, send what waits and move the entry to the front. -/
def arpSet (n : Nif) (ip : Ipv4) (hw : Mac) (ticks : Nat) : Nif :=
  let ipque := ((arpGet n ip).map Arpent.ipque).getD []
  { n with
    arps := ⟨ip, true, hw, n.ktick + ticks, []⟩ :: n.arps.eraseP fun arp => arp.ip == ip
    out := n.out ++ ipque.map fun m => .ip m hw }

/-- What `net_rx_arp` asks of a header. -/
def Arphdr.valid (hdr : Arphdr) : Bool := hdr.htype == 1 && hdr.ptype == 0x800 && hdr.hlen == 6 && hdr.plen == 4

def netRxArp (n : Nif) (hdr : Arphdr) : Nif :=
  if !hdr.valid then n
  else if hdr.opcode = 1 then
    arpSet (if n.ip = hdr.dstpr then netTxArp n 2 hdr.srchw hdr.srcpr else n) hdr.srcpr hdr.srchw arpTimeout
  else if hdr.opcode = 2 then arpSet n hdr.srcpr hdr.srchw arpTimeout
  else n

inductive ArpOp
  | tx (m : Pkt)
  | rx (hdr : Arphdr)
  | tick

def arpStep (n : Nif) : ArpOp → Option Nif
  | .tx m => some (netTxArpip n m)
  | .rx hdr => some (netRxArp n hdr)
  | .tick => some { n with ktick := n.ktick + 1 }

/-- An interface before its first packet. -/
def Nif.init (ip gateway netmask : Ipv4) (ktick : Nat) : Nif := ⟨ip, gateway, netmask, [], ktick, []⟩

/-- The IP packets among the frames, with their hardware addresses. -/
def ipFrames (out : List Frame) : List (Pkt × Mac) :=
  out.filterMap fun
    | .ip m dest => some (m, dest)
    | .arp .. => none

/-! ## What it is for -/

/-- A next hop: its address and when that expires, and the packets that wait for it. -/
structure Hop where
  addr : Option (Mac × Nat)
  waiting : List Pkt

/-- The address of the hop, if it is known and not expired. -/
def Hop.fresh (h : Hop) (ktick : Nat) : Option Mac := h.addr.bind fun x => if x.2 < ktick then none else some x.1

/-- The hops behind an interface, and what was sent to them. -/
structure Link where
  hops : Ipv4 → Hop
  ktick : Nat
  sent : List (Pkt × Mac)

def Link.init (ktick : Nat) : Link := ⟨fun _ => ⟨none, []⟩, ktick, []⟩

/-- A packet for the hop is sent at once or waits. -/
def Link.send (l : Link) (hop : Ipv4) (m : Pkt) : Link :=
  match (l.hops hop).fresh l.ktick with
  | some hw => { l with sent := l.sent ++ [(m, hw)] }
  | none => { l with hops := update l.hops hop ⟨(l.hops hop).addr, (l.hops hop).waiting ++ [m]⟩ }

/-- The address of a hop is heard, and what waits for it is sent. -/
def Link.hear (l : Link) (hop : Ipv4) (hw : Mac) : Link :=
  { l with
    hops := update l.hops hop ⟨some (hw, l.ktick + arpTimeout), []⟩
    sent := l.sent ++ (l.hops hop).waiting.map fun m => (m, hw) }

/-- A request or a reply: the sender tells its address. -/
def Arphdr.tells (hdr : Arphdr) : Bool := hdr.valid && (hdr.opcode == 1 || hdr.opcode == 2)

/-- The link of an interface with the next hops `hop`. -/
def Link.step (hop : Ipv4 → Ipv4) (l : Link) : ArpOp → Link
  | .tx m => l.send (hop m.dip) m
  | .rx hdr => if hdr.tells then l.hear hdr.srcpr hdr.srchw else l
  | .tick => { l with ktick := l.ktick + 1 }

def Link.run (hop : Ipv4 → Ipv4) (l : Link) (os : List ArpOp) : Link := os.foldl (Link.step hop) l

/-- The packets given to `net_tx_arpip` for a hop. -/
def given (hop : Ipv4 → Ipv4) (h : Ipv4) (os : List ArpOp) : List Pkt :=
  os.filterMap fun
    | .tx m => if hop m.dip = h then some m else none
    | .rx _ | .tick => none

/-- The packets sent to a hop. -/
def sentTo (hop : Ipv4 → Ipv4) (h : Ipv4) (sent : List (Pkt × Mac)) : List Pkt :=
  (sent.map Prod.fst).filter fun m => hop m.dip = h

variable {hop : Ipv4 → Ipv4} {h ip : Ipv4} {l : Link} {n : Nif} {o : ArpOp} {os : List ArpOp} {m : Pkt} {hw : Mac}

/-- What waits for a hop is for that hop, and nothing waits for a hop that is known. -/
structure Link.Ok (hop : Ipv4 → Ipv4) (l : Link) : Prop where
  sorted : ∀ h, ∀ m ∈ (l.hops h).waiting, hop m.dip = h
  idle : ∀ h hw, (l.hops h).fresh l.ktick = some hw → (l.hops h).waiting = []

theorem Hop.fresh_succ {x : Hop} {k : Nat} (hf : x.fresh (k + 1) = some hw) : x.fresh k = some hw := by
  obtain ⟨y, hy, hf⟩ := bind_eq_some_iff.1 hf
  split at hf
  · cases hf
  next hk =>
  rw [Hop.fresh, hy, bind_some, if_neg (by omega)]
  exact hf

theorem sentTo_append (hop : Ipv4 → Ipv4) (h : Ipv4) (sent sent' : List (Pkt × Mac)) :
    sentTo hop h (sent ++ sent') = sentTo hop h sent ++ sentTo hop h sent' := by
  simp [sentTo]

theorem sentTo_waiting {ms : List Pkt} (hms : ∀ m ∈ ms, hop m.dip = ip) (h : Ipv4) (hw : Mac) :
    sentTo hop h (ms.map fun m => (m, hw)) = if ip = h then ms else [] := by
  have hfst : (ms.map fun m => (m, hw)).map Prod.fst = ms := by simp [comp_def]
  rw [sentTo, hfst]
  split
  · next he =>
    subst he
    simpa using hms
  next hne =>
  rw [List.filter_eq_nil_iff]
  intro m hm
  simp [hms m hm, hne]

/-- A packet is sent or waits behind the others for its hop. -/
theorem Link.send_spec (hl : l.Ok hop) (m : Pkt) : (l.send (hop m.dip) m).Ok hop ∧
    ∀ h, sentTo hop h (l.send (hop m.dip) m).sent ++ ((l.send (hop m.dip) m).hops h).waiting =
      sentTo hop h l.sent ++ (l.hops h).waiting ++ if hop m.dip = h then [m] else [] := by
  cases hf : (l.hops (hop m.dip)).fresh l.ktick with
  | some hw =>
    simp only [Link.send, hf]
    refine ⟨⟨hl.sorted, hl.idle⟩, fun h => ?_⟩
    have hms : ∀ m' ∈ [m], hop m'.dip = hop m.dip := by simp
    have hm : sentTo hop h [(m, hw)] = if hop m.dip = h then [m] else [] := sentTo_waiting hms h hw
    rw [sentTo_append, hm]
    split
    · next he =>
      subst he
      simp [hl.idle _ hw hf]
    · simp
  | none =>
    simp only [Link.send, hf]
    have hops : ∀ h, update l.hops (hop m.dip) ⟨(l.hops (hop m.dip)).addr,
        (l.hops (hop m.dip)).waiting ++ [m]⟩ h =
        ⟨(l.hops h).addr, (l.hops h).waiting ++ if hop m.dip = h then [m] else []⟩ := by
      intro h
      by_cases he : h = hop m.dip
      · subst he
        rw [update_self, if_pos rfl]
      · rw [update_of_ne he, if_neg (Ne.symm he), List.append_nil]
    refine ⟨⟨fun h m' hm' => ?_, fun h hw hfr => ?_⟩, fun h => ?_⟩
    · dsimp only at hm'
      rw [hops, List.mem_append] at hm'
      rcases hm' with hm' | hm'
      · exact hl.sorted h m' hm'
      split at hm'
      · next he =>
        obtain rfl := List.mem_singleton.1 hm'
        exact he
      · cases hm'
    · dsimp only at hfr ⊢
      rw [hops] at hfr ⊢
      have hne : hop m.dip ≠ h := by
        rintro rfl
        rw [show (l.hops (hop m.dip)).fresh l.ktick = some hw from hfr] at hf
        cases hf
      rw [if_neg hne, List.append_nil]
      exact hl.idle h hw hfr
    · rw [hops, List.append_assoc]

/-- What is heard sends the waiting packets in their order. -/
theorem Link.hear_spec (hl : l.Ok hop) (ip : Ipv4) (hw : Mac) : (l.hear ip hw).Ok hop ∧
    ∀ h, sentTo hop h (l.hear ip hw).sent ++ ((l.hear ip hw).hops h).waiting =
      sentTo hop h l.sent ++ (l.hops h).waiting := by
  have hself : (l.hear ip hw).hops ip = ⟨some (hw, l.ktick + arpTimeout), []⟩ := update_self _ _ _
  have hother : ∀ h, h ≠ ip → (l.hear ip hw).hops h = l.hops h := fun h hne => update_of_ne hne _ _
  refine ⟨⟨fun h m hm => ?_, fun h hw' hf => ?_⟩, fun h => ?_⟩
  · by_cases he : h = ip
    · subst he
      rw [hself] at hm
      cases hm
    · rw [hother h he] at hm
      exact hl.sorted h m hm
  · by_cases he : h = ip
    · rw [he, hself]
    · rw [hother h he] at hf ⊢
      exact hl.idle h hw' hf
  rw [Link.hear, sentTo_append, sentTo_waiting (hl.sorted ip)]
  by_cases he : h = ip
  · subst he
    simp
  · simp [Ne.symm he, update_of_ne he]

/-- One event keeps each hop's packets in order. -/
theorem Link.step_spec (hl : l.Ok hop) (o : ArpOp) : (l.step hop o).Ok hop ∧
    ∀ h, sentTo hop h (l.step hop o).sent ++ ((l.step hop o).hops h).waiting =
      sentTo hop h l.sent ++ (l.hops h).waiting ++ given hop h [o] := by
  cases o with
  | tx m =>
    obtain ⟨hok, hg⟩ := Link.send_spec hl m
    refine ⟨hok, fun h => (hg h).trans ?_⟩
    by_cases he : hop m.dip = h
    · simp [given, he]
    · simp [given, he]
  | rx hdr =>
    rw [Link.step]
    split
    · obtain ⟨hok, hg⟩ := Link.hear_spec hl hdr.srcpr hdr.srchw
      exact ⟨hok, fun h => (hg h).trans (List.append_nil _).symm⟩
    · exact ⟨hl, fun h => (List.append_nil _).symm⟩
  | tick => exact ⟨⟨hl.sorted, fun h hw hf => hl.idle h hw (Hop.fresh_succ hf)⟩, fun h => (List.append_nil _).symm⟩

/-- **What was sent to a hop and what waits for it is what was given for it**, in this order. -/
theorem Link.run_given (hl : l.Ok hop) (os : List ArpOp) (h : Ipv4) :
    sentTo hop h (l.run hop os).sent ++ ((l.run hop os).hops h).waiting =
      sentTo hop h l.sent ++ (l.hops h).waiting ++ given hop h os := by
  induction os generalizing l with
  | nil => simp [Link.run, given]
  | cons o os ih =>
    obtain ⟨hok, hg⟩ := Link.step_spec hl o
    have hcons : given hop h (o :: os) = given hop h [o] ++ given hop h os := by
      rw [given, given, given, ← List.filterMap_append]
      rfl
    rw [Link.run, List.foldl_cons, ← Link.run, ih hok, hg, hcons, List.append_assoc]

/-- The addresses of the hops, and those that packets were sent to, were told by the hops. -/
structure Link.Told (hop : Ipv4 → Ipv4) (os : List ArpOp) (l : Link) : Prop where
  addr : ∀ h x, (l.hops h).addr = some x → ∃ hdr, .rx hdr ∈ os ∧ hdr.tells ∧ hdr.srcpr = h ∧ hdr.srchw = x.1
  sent : ∀ x ∈ l.sent, ∃ hdr, .rx hdr ∈ os ∧ hdr.tells ∧ hdr.srcpr = hop x.1.dip ∧ hdr.srchw = x.2

/-- One event takes addresses from what hops tell, and from nowhere else. -/
theorem Link.step_told (hl : l.Ok hop) (ht : l.Told hop os) (ho : o ∈ os) : (l.step hop o).Told hop os := by
  cases o with
  | tx m =>
    rw [Link.step, Link.send]
    cases hf : (l.hops (hop m.dip)).fresh l.ktick with
    | some hw =>
      obtain ⟨x, hx, hxf⟩ := bind_eq_some_iff.1 hf
      refine ⟨ht.addr, fun y hy => ?_⟩
      rcases List.mem_append.1 hy with hy | hy
      · exact ht.sent y hy
      obtain rfl := List.mem_singleton.1 hy
      obtain ⟨hdr, hmem, htell, hsrc, hhw⟩ := ht.addr _ _ hx
      split at hxf
      · cases hxf
      · cases hxf
        exact ⟨hdr, hmem, htell, hsrc, hhw⟩
    | none =>
      refine ⟨fun h x hx => ?_, ht.sent⟩
      dsimp only at hx
      by_cases he : h = hop m.dip
      · subst he
        rw [update_self] at hx
        exact ht.addr _ x hx
      · rw [update_of_ne he] at hx
        exact ht.addr h x hx
  | rx hdr =>
    rw [Link.step]
    split
    · next htell =>
      refine ⟨fun h x hx => ?_, fun y hy => ?_⟩
      · rw [Link.hear] at hx
        by_cases he : h = hdr.srcpr
        · simp only [he, update_self, some.injEq] at hx
          exact ⟨hdr, ho, htell, he.symm, by rw [← hx]⟩
        · simp only [update_of_ne he] at hx
          exact ht.addr h x hx
      rcases List.mem_append.1 hy with hy | hy
      · exact ht.sent y hy
      · obtain ⟨m, hm, rfl⟩ := List.mem_map.1 hy
        exact ⟨hdr, ho, htell, (hl.sorted _ m hm).symm, rfl⟩
    · exact ht
  | tick => exact ⟨ht.addr, ht.sent⟩

theorem Link.run_told {os' : List ArpOp} (hl : l.Ok hop) (ht : l.Told hop os') (hos : ∀ o ∈ os, o ∈ os') :
    (l.run hop os).Told hop os' := by
  induction os generalizing l with
  | nil => exact ht
  | cons o os ih =>
    rw [List.forall_mem_cons] at hos
    exact ih (Link.step_spec hl o).1 (Link.step_told hl ht hos.1) hos.2

/-! ## The entries are a picture of the hops -/

/-- The hop that an entry stands for. -/
def hopOf : Option Arpent → Hop
  | none => ⟨none, []⟩
  | some arp => ⟨if arp.init then some (arp.hw, arp.expires) else none, arp.ipque⟩

/-- The packets in the entry of a hop. -/
def Nif.waiting (n : Nif) (h : Ipv4) : List Pkt := ((arpGet n h).map Arpent.ipque).getD []

/-- The interface is a picture of the link. -/
structure Pictures (hop : Ipv4 → Ipv4) (n : Nif) (l : Link) : Prop where
  route : ∀ dip, dip0 n dip = hop dip
  hops : ∀ h, l.hops h = hopOf (arpGet n h)
  ktick : l.ktick = n.ktick
  sent : l.sent = ipFrames n.out

theorem Pictures.waiting (hp : Pictures hop n l) (h : Ipv4) : (l.hops h).waiting = n.waiting h := by
  rw [hp.hops h, Nif.waiting]
  cases arpGet n h with
  | none => rfl
  | some arp => rfl

theorem ipFrames_append (out out' : List Frame) : ipFrames (out ++ out') = ipFrames out ++ ipFrames out' :=
  List.filterMap_append

theorem ipFrames_map (ms : List Pkt) (hw : Mac) : ipFrames (ms.map fun m => .ip m hw) = ms.map fun m => (m, hw) := by
  rw [ipFrames, List.filterMap_map]
  exact congrFun List.filterMap_eq_map' ms

theorem arpGet_enqueue (n : Nif) (ip h : Ipv4) (m : Pkt) :
    arpGet { n with arps := updFirst (fun arp => arp.ip == ip) (Arpent.enqueue m) n.arps } h =
      if h = ip then (arpGet n ip).map (Arpent.enqueue m) else arpGet n h := by
  rw [arpGet, find?_updFirst (Arpent.enqueue m) fun _ => rfl]
  simp only [beq_iff_eq]
  rfl

theorem Pictures.netTxArp (hp : Pictures hop n l) (op : UInt16) (dmac : Mac) (dip : Ipv4) :
    Pictures hop (netTxArp n op dmac dip) l :=
  { hp with sent := by rw [hp.sent, Net.netTxArp, ipFrames_append]; exact (List.append_nil _).symm }

theorem Pictures.update (hp : Pictures hop n l) (arps : List Arpent) {x : Hop}
    (hself : hopOf (arpGet { n with arps } h) = x) (hother : ∀ h', h' ≠ h → arpGet { n with arps } h' = arpGet n h') :
    Pictures hop { n with arps } { l with hops := Function.update l.hops h x } := by
  refine { hp with hops := fun h' => ?_ }
  dsimp only
  by_cases he : h' = h
  · rw [he, update_self, hself]
  · rw [update_of_ne he, hother h' he, hp.hops]

/-- `net_tx_arpip` is a send of the link. -/
theorem Pictures.netTxArpip (hp : Pictures hop n l) (hm : hop m.dip = m.dip) :
    Pictures hop (netTxArpip n m) (l.send (hop m.dip) m) := by
  have hd : dip0 n m.dip = m.dip := (hp.route _).trans hm
  rw [Net.netTxArpip, Link.send, hm, hp.hops, hd]
  cases hg : arpGet n m.dip with
  | none =>
    refine Pictures.netTxArp (hp.update _ ?_ fun h' hne => ?_) ..
    · rw [arpGet, List.find?_cons_of_pos (by simp)]
      rfl
    · rw [arpGet, List.find?_cons_of_neg (by simpa using Ne.symm hne), arpGet]
  | some arp =>
    have hfresh : (hopOf (some arp)).fresh l.ktick =
        if !arp.init || decide (arp.expires < n.ktick) then none else some arp.hw := by
      rw [hopOf, Hop.fresh, hp.ktick]
      cases arp.init with
      | false => rfl
      | true => simp
    dsimp only
    rw [hfresh]
    split
    · refine Pictures.netTxArp (hp.update _ ?_ fun h' hne => ?_) ..
      · rw [arpGet_enqueue, if_pos rfl, hg]
        rfl
      · rw [arpGet_enqueue, if_neg hne]
    · exact { hp with sent := by rw [hp.sent, ipFrames_append]; rfl }

theorem Pictures.arpSet (hp : Pictures hop n l) (ip : Ipv4) (hw : Mac) :
    Pictures hop (arpSet n ip hw arpTimeout) (l.hear ip hw) := by
  have hup := hp.update (⟨ip, true, hw, n.ktick + arpTimeout, []⟩ :: n.arps.eraseP fun arp => arp.ip == ip)
    (h := ip) (x := ⟨some (hw, l.ktick + arpTimeout), []⟩)
    (by rw [arpGet, List.find?_cons_of_pos (by simp), hp.ktick]; rfl) fun h' hne => by
      rw [arpGet, List.find?_cons_of_neg (by simpa using Ne.symm hne), find?_eraseP_key hne, arpGet]
  refine { hup with sent := ?_ }
  rw [Link.hear, Net.arpSet, ipFrames_append, ipFrames_map, hp.sent, hp.waiting, Nif.waiting]

/-- `net_rx_arp` is something heard on the link. -/
theorem Pictures.netRxArp (hp : Pictures hop n l) (hdr : Arphdr) :
    Pictures hop (netRxArp n hdr) (if hdr.tells then l.hear hdr.srcpr hdr.srchw else l) := by
  rw [Net.netRxArp, Arphdr.tells]
  cases hdr.valid with
  | false => exact hp
  | true =>
    by_cases h1 : hdr.opcode = 1
    · simp only [h1, Bool.not_true, Bool.false_eq_true, if_false, if_true, beq_self_eq_true, Bool.true_or,
        Bool.true_and]
      split
      · exact (hp.netTxArp ..).arpSet ..
      · exact hp.arpSet ..
    by_cases h2 : hdr.opcode = 2
    · simpa [h2] using hp.arpSet hdr.srcpr hdr.srchw
    · simpa [h1, h2] using hp

/-- The packet is for a host that is its own next hop. -/
def Direct (hop : Ipv4 → Ipv4) : ArpOp → Prop
  | .tx m => hop m.dip = m.dip
  | .rx _ | .tick => True

instance : ∀ o, Decidable (Direct hop o)
  | .tx m => inferInstanceAs (Decidable (hop m.dip = m.dip))
  | .rx _ | .tick => .isTrue trivial

theorem arpStep_pictures (hp : Pictures hop n l) (ho : Direct hop o) :
    ∃ n', arpStep n o = some n' ∧ Pictures hop n' (l.step hop o) := by
  cases o with
  | tx m => exact ⟨_, rfl, hp.netTxArpip ho⟩
  | rx hdr => exact ⟨_, rfl, hp.netRxArp hdr⟩
  | tick => exact ⟨_, rfl, hp.route, hp.hops, congrArg (· + 1) hp.ktick, hp.sent⟩

theorem run_pictures (hp : Pictures hop n l) (hos : ∀ o ∈ os, Direct hop o) :
    ∃ n', run arpStep n os = some n' ∧ Pictures hop n' (l.run hop os) := by
  induction os generalizing n l with
  | nil => exact ⟨n, rfl, hp⟩
  | cons o os ih =>
    rw [List.forall_mem_cons] at hos
    obtain ⟨t, ht, hpt⟩ := arpStep_pictures hp hos.1
    obtain ⟨n', hr, hp'⟩ := ih hpt hos.2
    exact ⟨n', run_cons.2 ⟨t, ht, hr⟩, hp'⟩

theorem Nif.init_pictures (ip gateway netmask : Ipv4) (ktick : Nat) :
    Pictures (dip0 (.init ip gateway netmask ktick)) (.init ip gateway netmask ktick) (.init ktick) :=
  ⟨fun _ => rfl, fun _ => rfl, rfl, rfl⟩

/-- **The interface sends what the link sends.** What was sent to a hop and what waits for it is what was given for it,
and every packet went to an address that its own hop told. -/
theorem sends_resolved (ip gateway netmask : Ipv4) (ktick : Nat) (os : List ArpOp)
    (hos : ∀ o ∈ os, Direct (dip0 (.init ip gateway netmask ktick)) o) :
    ∃ n, run arpStep (.init ip gateway netmask ktick) os = some n ∧
      ipFrames n.out = ((Link.init ktick).run (dip0 (.init ip gateway netmask ktick)) os).sent ∧
      (∀ h, sentTo (dip0 (.init ip gateway netmask ktick)) h (ipFrames n.out) ++ n.waiting h =
        given (dip0 (.init ip gateway netmask ktick)) h os) ∧
      ∀ x ∈ ipFrames n.out, ∃ hdr, .rx hdr ∈ os ∧ hdr.tells ∧
        hdr.srcpr = dip0 (.init ip gateway netmask ktick) x.1.dip ∧ hdr.srchw = x.2 := by
  obtain ⟨n, hr, hp⟩ := run_pictures (Nif.init_pictures ip gateway netmask ktick) hos
  generalize dip0 (.init ip gateway netmask ktick) = hop at *
  have hok : (Link.init ktick).Ok hop := ⟨fun _ _ hm => (nomatch hm), fun _ _ _ => rfl⟩
  have htold : (Link.init ktick).Told hop os := ⟨fun _ _ hx => (nomatch hx), fun _ hx => (nomatch hx)⟩
  refine ⟨n, hr, hp.sent.symm, fun h => ?_, ?_⟩
  · rw [← hp.sent, ← hp.waiting, Link.run_given hok os h]
    rfl
  · rw [← hp.sent]
    exact (Link.run_told hok htold fun _ ho => ho).sent

/-- A reply of the host `ip`. -/
def replyOf (ip : Ipv4) (hw : Mac) : Arphdr := ⟨1, 0x800, 6, 4, 2, hw, ip, (10, 0, 0, 1)⟩

/-- Two packets for a host of the own network and one for another wait; the reply sends the first two. -/
theorem sends_resolved_local : ∃ n, run arpStep (.init (10, 0, 0, 1) (10, 0, 0, 254) (255, 255, 255, 0) 0)
        [.tx ⟨(10, 0, 0, 2), 0⟩, .tx ⟨(10, 0, 0, 3), 1⟩, .tx ⟨(10, 0, 0, 2), 2⟩, .rx (replyOf (10, 0, 0, 2) bc)] =
      some n ∧ ipFrames n.out = [(⟨(10, 0, 0, 2), 0⟩, bc), (⟨(10, 0, 0, 2), 2⟩, bc)] := by
  obtain ⟨n, hr, hs, -⟩ := sends_resolved (10, 0, 0, 1) (10, 0, 0, 254) (255, 255, 255, 0) 0
    [.tx ⟨(10, 0, 0, 2), 0⟩, .tx ⟨(10, 0, 0, 3), 1⟩, .tx ⟨(10, 0, 0, 2), 2⟩, .rx (replyOf (10, 0, 0, 2) bc)] (by decide)
  exact ⟨n, hr, hs.trans (by decide)⟩

/-- Two packets go through the gateway. Its replies send the second of them only; a third one sends no packet either,
though the gateway is known. -/
theorem gateway_stuck : (run arpStep (.init (10, 0, 0, 1) (10, 0, 0, 254) (255, 255, 255, 0) 0)
        [.tx ⟨(1, 1, 1, 1), 0⟩, .tx ⟨(8, 8, 8, 8), 1⟩, .rx (replyOf (10, 0, 0, 254) bc),
          .rx (replyOf (10, 0, 0, 254) bc), .tx ⟨(1, 1, 1, 1), 2⟩]).map (fun n => ipFrames n.out) =
      some [(⟨(8, 8, 8, 8), 1⟩, bc)] ∧
    ((Link.init 0).run (dip0 (.init (10, 0, 0, 1) (10, 0, 0, 254) (255, 255, 255, 0) 0))
        [.tx ⟨(1, 1, 1, 1), 0⟩, .tx ⟨(8, 8, 8, 8), 1⟩, .rx (replyOf (10, 0, 0, 254) bc),
          .rx (replyOf (10, 0, 0, 254) bc), .tx ⟨(1, 1, 1, 1), 2⟩]).sent =
      [(⟨(1, 1, 1, 1), 0⟩, bc), (⟨(8, 8, 8, 8), 1⟩, bc), (⟨(1, 1, 1, 1), 2⟩, bc)] := by
  decide

end TextOS.Net
