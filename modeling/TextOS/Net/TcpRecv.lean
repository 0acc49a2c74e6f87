import TextOS.Net.TcpRx

/-!
# Reading from a connection: `tcp_recvmsg`

`RecvSys` is a connection with the call of `tcp_recvmsg` in progress, if any. The passes of its loop are steps of their
own, so that segments arrive between them; a pass that finds `buf_que` empty blocks, and goes on once an arrival has
woken the task.
-/

namespace TextOS.Net

open Lib List Option

/-- A call in progress: the room left, whether a segment with `PSH` was met, whether the task has blocked, and the bytes
copied so far. -/
structure Call where
  rem : UInt64
  wind : Bool
  waits : Bool
  data : List UInt8

/-- The connection, the call in progress, the bytes returned by the calls before, and the payloads queued so far. -/
structure RecvSys where
  tcp : Tcp
  call : Option Call
  returned : List UInt8
  queued : List UInt8

inductive RecvOp
  | rx (seg : Seg)
  | recv (len : UInt64)
  | pass

/-- The flags of the TCP header of a buffer in `buf_que`, behind an IP header. -/
def flgsOf (m : Mbuf) : UInt8 := m.buf ((mbufPull m 20).head + 13)

def psh (m : Mbuf) : Bool := flgsOf m &&& 8 != 0

/-- One pass of the loop with the buffer `m` at the front: what becomes of the call and of the buffer. -/
def recvPass (c : Call) (m : Mbuf) : Call × Mbuf :=
  let m₁ := mbufPull (mbufPull m 20) 20
  let cpy := if c.rem < m₁.len then c.rem else m₁.len
  (⟨c.rem - cpy, c.wind || psh m, false, c.data ++ m₁.bytes.take cpy.toNat⟩, mbufPull m₁ cpy)

/-- An arrival, the start of a call, or a pass of its loop. -/
def recvStep (s : RecvSys) : RecvOp → Option RecvSys
  | .rx seg =>
    let t := (tcpRxData s.tcp seg).1
    some { s with
      tcp := t
      queued := s.queued ++ ((t.rcv.bufQue.drop s.tcp.rcv.bufQue.length).map payload).flatten }
  | .recv len => match s.call with
    | some _ => none
    | none => some { s with call := if len = 0 then none else some ⟨len, false, false, []⟩ }
  | .pass => match s.call with
    | none => none
    | some c =>
      if s.tcp.rcv.bufQue.isEmpty && !c.waits then
        some { s with tcp := { s.tcp with rxWaiter := true }, call := some { c with waits := true } }
      else if c.waits && s.tcp.rxWaiter then none
      else if s.tcp.errno < 0 then some { s with call := none }
      else match s.tcp.rcv.bufQue with
        | [] => none
        | m :: que =>
          let r := recvPass c m
          let tcp := { s.tcp with rcv.bufQue := if r.2.len = 0 then que else r.2 :: que }
          if r.1.wind then some { s with tcp := tcp, call := none, returned := s.returned ++ r.1.data }
          else some { s with tcp := tcp, call := some r.1 }

/-- A pass finds room for the whole payload at the front. -/
def Fits (s : RecvSys) : RecvOp → Prop
  | .pass => ∀ c ∈ s.call, ∀ m ∈ s.tcp.rcv.bufQue.head?, (payload m).length ≤ c.rem.toNat
  | _ => True

variable {s s' : RecvSys} {c : Call} {m : Mbuf} {que : List Mbuf}

/-- The bytes copied by the call in progress. -/
def RecvSys.copied (s : RecvSys) : List UInt8 := (s.call.map Call.data).getD []

/-- The connection has no error, the call in progress has met no `PSH`, a blocked task has nothing to read, and what was
queued is what was returned, what the call in progress has copied and what is still in `buf_que`. -/
structure Delivers (s : RecvSys) : Prop where
  errno : ¬ s.tcp.errno < 0
  unwound : ∀ c ∈ s.call, c.wind = false
  asleep : ∀ c ∈ s.call, c.waits = true → s.tcp.rxWaiter = true → s.tcp.rcv.bufQue = []
  bytes : s.returned ++ s.copied ++ received s.tcp = s.queued

/-! ## A pass with room for the payload -/

/-- A buffer that fits is copied whole. -/
theorem recvPass_fits (h : (payload m).length ≤ c.rem.toNat) :
    (recvPass c m).1.data = c.data ++ payload m ∧ (recvPass c m).2.len = 0 ∧
      (recvPass c m).1.rem.toNat = c.rem.toNat - (payload m).length := by
  have hlen : (payload m).length = (mbufPull (mbufPull m 20) 20).len.toNat := length_bytes _
  have hcpy : (if c.rem < (mbufPull (mbufPull m 20) 20).len then c.rem else (mbufPull (mbufPull m 20) 20).len) =
      (mbufPull (mbufPull m 20) 20).len := by
    rw [if_neg]
    rw [UInt64.lt_iff_toNat_lt]
    omega
  simp only [recvPass, hcpy]
  refine ⟨?_, ?_, ?_⟩
  · rw [payload, ← length_bytes, take_length]
  · exact UInt64.sub_self _
  · rw [UInt64.toNat_sub_of_le _ _ (UInt64.le_iff_toNat_le.2 (by omega)), hlen]

/-- One pass over the first buffer of the queue. -/
theorem pass_cons (hd : Delivers s) (hc : s.call = some c) (hq : s.tcp.rcv.bufQue = m :: que)
    (hf : (payload m).length ≤ c.rem.toNat) : recvStep s .pass = some (if c.wind || psh m then
      { s with tcp := { s.tcp with rcv.bufQue := que }, call := none, returned := s.returned ++ (c.data ++ payload m) }
      else { s with tcp := { s.tcp with rcv.bufQue := que }, call := some (recvPass c m).1 }) := by
  obtain ⟨h1, h2, -⟩ := recvPass_fits hf
  have hawake : (c.waits && s.tcp.rxWaiter) = false := by
    by_contra hw
    simp only [Bool.and_eq_false_iff, not_or, Bool.not_eq_false] at hw
    have := hd.asleep c hc hw.1 hw.2
    rw [hq] at this
    cases this
  have hwind : (recvPass c m).1.wind = (c.wind || psh m) := rfl
  simp only [recvStep, hc, hq, isEmpty_cons, Bool.false_and, Bool.false_eq_true, if_false, hawake, hd.errno, h1, h2,
    hwind, if_true]
  split <;> rfl

theorem pass_nil (hc : s.call = some c) (hq : s.tcp.rcv.bufQue = []) (h : recvStep s .pass = some s')
    (hd : Delivers s) :
    s' = { s with tcp := { s.tcp with rxWaiter := true }, call := some { c with waits := true } } := by
  simp only [recvStep, hc, hq, isEmpty_nil, Bool.true_and, hd.errno, if_false] at h
  split at h
  · exact (some.inj h).symm
  · split at h <;> cases h

/-- An arrival appends to `buf_que`, and wakes the task if it does. -/
theorem tcpRxData_wakes (t : Tcp) (seg : Seg) : (tcpRxData t seg).1.errno = t.errno ∧
    ∃ new, (tcpRxData t seg).1.rcv.bufQue = t.rcv.bufQue ++ new ∧
      (new = [] ∧ (tcpRxData t seg).1.rxWaiter = t.rxWaiter ∨ (tcpRxData t seg).1.rxWaiter = false) := by
  unfold tcpRxData
  split
  · exact ⟨rfl, [], (append_nil _).symm, .inl ⟨rfl, rfl⟩⟩
  split
  · exact ⟨rfl, [], (append_nil _).symm, .inl ⟨rfl, rfl⟩⟩
  split
  · exact ⟨rfl, [], (append_nil _).symm, .inl ⟨rfl, rfl⟩⟩
  split
  · exact ⟨rfl, [], (append_nil _).symm, .inl ⟨rfl, rfl⟩⟩
  · exact ⟨rfl, _, rfl, .inr rfl⟩

/-- **A step keeps the accounting**, passes having room for the payload at the front. -/
theorem recvStep_delivers {o : RecvOp} (hd : Delivers s) (hf : Fits s o) (h : recvStep s o = some s') :
    Delivers s' := by
  cases o with
  | rx seg =>
    obtain rfl := (some.inj h).symm
    obtain ⟨herr, new, hnew, hw⟩ := tcpRxData_wakes s.tcp seg
    refine ⟨by rw [herr]; exact hd.errno, hd.unwound, fun c hc hwait hrx => ?_, ?_⟩
    · rcases hw with ⟨rfl, hw⟩ | hw
      · rw [hnew, hd.asleep c hc hwait (hw ▸ hrx)]
        rfl
      · rw [hw] at hrx
        cases hrx
    show s.returned ++ s.copied ++ received _ = s.queued ++ _
    rw [← hd.bytes, hnew, drop_left, received, hnew, map_append, flatten_append, ← append_assoc]
    rfl
  | recv len =>
    cases hc : s.call with
    | some c => simp [recvStep, hc] at h
    | none =>
      simp only [recvStep, hc, some.injEq] at h
      subst h
      refine ⟨hd.errno, fun c' hc' => ?_, fun c' hc' hw => ?_, ?_⟩
      · split at hc'
        · cases hc'
        · obtain rfl := some.inj hc'
          rfl
      · split at hc'
        · cases hc'
        · obtain rfl := some.inj hc'
          cases hw
      rw [← hd.bytes]
      simp only [RecvSys.copied, hc]
      split <;> rfl
  | pass =>
    cases hc : s.call with
    | none => simp [recvStep, hc] at h
    | some c =>
      cases hq : s.tcp.rcv.bufQue with
      | nil =>
        rw [pass_nil hc hq h hd]
        refine ⟨hd.errno, fun c' hc' => ?_, fun _ _ _ _ => hq, ?_⟩
        · obtain rfl := some.inj hc'
          exact hd.unwound c hc
        rw [← hd.bytes]
        simp only [RecvSys.copied, hc]
        rfl
      | cons m que =>
        have hfit := hf c hc m (by rw [hq]; rfl)
        rw [pass_cons hd hc hq hfit] at h
        obtain rfl := (some.inj h).symm
        have hbytes : s.returned ++ (c.data ++ payload m) ++ (que.map payload).flatten = s.queued := by
          rw [← hd.bytes, RecvSys.copied, hc, received, hq]
          simp
        split
        · exact ⟨hd.errno, by simp, by simp, by simpa [RecvSys.copied, received] using hbytes⟩
        next hwind =>
        refine ⟨hd.errno, fun c' hc' => ?_, fun c' hc' hw => ?_, ?_⟩
        · obtain rfl := some.inj hc'
          simpa [recvPass] using hwind
        · obtain rfl := some.inj hc'
          cases hw
        · rw [← hbytes, RecvSys.copied, map_some, (recvPass_fits hfit).1]
          rfl

/-! ## A call returns at the first segment with PSH -/

/-- The passes over segments without `PSH` and the one over the first segment with it. -/
theorem passes_return {pre suf : List Mbuf} (hd : Delivers s) (hc : s.call = some c)
    (hq : s.tcp.rcv.bufQue = pre ++ m :: suf) (hpre : ∀ q ∈ pre, psh q = false) (hm : psh m = true)
    (hroom : ((pre ++ [m]).map payload).flatten.length ≤ c.rem.toNat) :
    ∃ s', run recvStep s (List.replicate (pre.length + 1) .pass) = some s' ∧ s'.call = none ∧
      s'.returned = s.returned ++ c.data ++ ((pre ++ [m]).map payload).flatten ∧ s'.tcp.rcv.bufQue = suf := by
  induction pre generalizing s c with
  | nil =>
    have hfit : (payload m).length ≤ c.rem.toNat := by simpa using hroom
    refine ⟨_, run_cons.2 ⟨_, pass_cons hd hc hq hfit, rfl⟩, ?_⟩
    simp [hm]
  | cons q pre ih =>
    have hfit : (payload q).length ≤ c.rem.toNat := by
      simp only [cons_append, map_cons, flatten_cons, length_append] at hroom
      omega
    have hpass := pass_cons hd hc hq hfit
    rw [hd.unwound c hc, hpre q mem_cons_self] at hpass
    have hd' : Delivers { s with
        tcp := { s.tcp with rcv.bufQue := pre ++ m :: suf }, call := some (recvPass c q).1 } := by
      refine recvStep_delivers (o := .pass) hd ?_ hpass
      intro c' hc' m' hm'
      rw [hc] at hc'
      rw [hq] at hm'
      obtain rfl := some.inj hc'
      obtain rfl := some.inj hm'
      exact hfit
    obtain ⟨h1, -, h3⟩ := recvPass_fits hfit
    obtain ⟨s', hr, hcall, hret, hque⟩ := ih hd' rfl rfl
      (fun x hx => hpre x (mem_cons_of_mem q hx)) (by
        simp only [cons_append, map_cons, flatten_cons, length_append] at hroom
        omega)
    refine ⟨s', run_cons.2 ⟨_, hpass, hr⟩, hcall, ?_, hque⟩
    rw [hret, h1]
    simp

instance (s : RecvSys) : DecidablePred (Fits s) := fun o => by
  unfold Fits
  split <;> infer_instance

/-- A connection from which nothing was read and for which nothing is queued. -/
def RecvSys.init (t : Tcp) : RecvSys := ⟨t, none, [], []⟩

/-- **The stream is delivered.** In every run in which each pass finds room for the payload at the front: the bytes
returned are a prefix of the payloads queued; with what the call in progress has copied and the payloads still in the
queue they are exactly these; and a call returns at the first segment with `PSH` if there is room up to it. -/
theorem stream_delivered (t : Tcp) (os : List RecvOp) (s : RecvSys) (ht : t.rcv.bufQue = []) (he : ¬ t.errno < 0)
    (hm : Meets recvStep Fits (RecvSys.init t) os) (hr : run recvStep (RecvSys.init t) os = some s) :
    s.returned <+: s.queued ∧ s.returned ++ s.copied ++ received s.tcp = s.queued ∧
    ∀ c ∈ s.call, ∀ pre m suf, s.tcp.rcv.bufQue = pre ++ m :: suf → (∀ q ∈ pre, psh q = false) → psh m = true →
      ((pre ++ [m]).map payload).flatten.length ≤ c.rem.toNat →
      ∃ s', run recvStep s (List.replicate (pre.length + 1) .pass) = some s' ∧ s'.call = none ∧
        s'.returned = s.returned ++ c.data ++ ((pre ++ [m]).map payload).flatten := by
  have hinit : Delivers (RecvSys.init t) := by
    refine ⟨he, nofun, nofun, ?_⟩
    simp [RecvSys.init, RecvSys.copied, received, ht]
  have hd := run_meets_inv (fun _ _ _ hd hf h => recvStep_delivers hd hf h) hinit hm hr
  refine ⟨⟨s.copied ++ received s.tcp, by rw [← append_assoc]; exact hd.bytes⟩, hd.bytes, ?_⟩
  intro c hc pre m suf hq hpre hpsh hroom
  obtain ⟨s', h1, h2, h3, -⟩ := passes_return hd hc hq hpre hpsh hroom
  exact ⟨s', h1, h2, h3⟩

/-- Two segments, the second with `PSH`, read by one call that blocks in between. -/
def sampleReads : List RecvOp :=
  [.rx (segOf 0 (sampleArrival 101 0 0 0 [104, 105]).m), .recv 10, .pass, .pass,
    .rx (segOf 0 (sampleArrival 103 8 0 0 [33]).m), .pass]

theorem stream_delivered_two : ∃ s, run recvStep (RecvSys.init (sampleSocks.tcb 0)) sampleReads = some s ∧
    s.returned <+: s.queued ∧ s.returned ++ s.copied ++ received s.tcp = s.queued := by
  refine ⟨_, rfl, ?_⟩
  have h := stream_delivered (sampleSocks.tcb 0) sampleReads _ rfl (by decide) (by decide) rfl
  exact ⟨h.1, h.2.1⟩

example : (run recvStep (RecvSys.init (sampleSocks.tcb 0)) sampleReads).map (fun s => (s.returned, s.call.isNone)) =
    some ([104, 105, 33], true) := by
  decide

/-- One segment of 60 bytes with `PSH`, read by two calls of 10 bytes. -/
def splitReads : List RecvOp :=
  [.rx (segOf 0 (sampleArrival 101 8 0 0 ((List.range 60).map .ofNat)).m), .recv 10, .pass, .recv 10, .pass]

/-- The second call returns the last 10 bytes: the 40 bytes before them were pulled as headers. -/
theorem stream_broken : ∃ s, run recvStep (RecvSys.init (sampleSocks.tcb 0)) splitReads = some s ∧
    s.queued = (List.range 60).map .ofNat ∧ s.call.isNone = true ∧ received s.tcp = [] ∧
    s.returned = ((List.range 10 ++ List.range' 50 10).map .ofNat) ∧ ¬ s.returned <+: s.queued :=
  ⟨_, rfl, by decide, by decide, by decide, by decide, by decide⟩

end TextOS.Net
