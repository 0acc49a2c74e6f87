import TextOS.Pipe.Stream

/-!
# Blocking and readiness of pipes: `kernel/fs/drift/pipe.c`

- `pipe_poll_setup` reports `POLLHUP` before anything else, and asks `fifo_full`, which is never true;
- `Progress`: a writer without readers is not blocked, and neither is a writer that must not block;
- **`progress_kept`**: the two hold along every run in which a writer that must not block finds room, and the last
  reader closes with room in the buffer while the writer is not on its way into `task_block`; readiness is right while
  the other end is open and there is room.
-/

namespace TextOS.Pipe

open Lib Klib List

def POLLIN : Nat := 0x001
def POLLOUT : Nat := 0x004
def POLLERR : Nat := 0x008
def POLLHUP : Nat := 0x010
def POLLNVAL : Nat := 0x020

/-- `fs_poller_init` and `fs_poll_deliver_to`: the events asked for have one of `revents`. -/
def deliverTo (events revents : Nat) : Bool := (events ||| (POLLHUP ||| POLLERR ||| POLLNVAL)) &&& revents != 0

/-- `pipe_poll_setup`: the value returned and `revents`. -/
def pipePollSetup (s : Sys) (side : Side) (events : Nat) : Int × Nat :=
  match side with
  | .rd =>
    if s.wrAlive = 0 ∧ deliverTo events POLLHUP = true then (1, POLLHUP)
    else if fifoEmpty s.fifo = false ∧ deliverTo events POLLIN = true then (1, POLLIN)
    else (0, 0)
  | .wr =>
    if s.rdAlive = 0 ∧ deliverTo events POLLHUP = true then (1, POLLHUP)
    else if fifoFull s.fifo = false ∧ deliverTo events POLLOUT = true then (1, POLLOUT)
    else (0, 0)

/-- The bytes in the buffer. -/
def Sys.queued (s : Sys) : Nat := s.accepted.length - s.returned.length

/-- The task is blocked, or will be as soon as it runs. -/
def Phase.blocked {κ : Type} : Phase κ → Bool
  | .leaving _ | .asleep _ => true
  | _ => false

/-- The task is on its way into `task_block`. -/
def Phase.leaves {κ : Type} : Phase κ → Bool
  | .leaving _ => true
  | _ => false

structure Progress (s : Sys) : Prop where
  data : ∀ c ∈ s.writer.call, c.data ≠ []
  wrAlive : s.writer.call ≠ none → s.wrAlive ≠ 0
  closed : s.rdAlive = 0 → s.writer.blocked = false ∧ (s.writer.call ≠ none → s.queued < PAGE_SIZ)
  nonblock : ∀ c ∈ s.writer.call, c.nonblock = true → s.writer.waits = false

/-- What the tasks have to see to. The write end is open in a call, and writes have less than 2^31 bytes. -/
def Orderly (s : Sys) : Event → Prop
  | .write data _ => data.length < 2 ^ 31 ∧ s.wrAlive ≠ 0
  | .run .wr => match s.writer with
    | .loop c => c.nonblock = true → s.queued < PAGE_SIZ
    | _ => True
  | .close .rd => s.rdAlive = 1 → s.queued < PAGE_SIZ ∧ s.writer.leaves = false
  | .close .wr => s.writer.call = none
  | _ => True

instance (s : Sys) (o : Event) : Decidable (Orderly s o) := by
  unfold Orderly
  generalize s.writer = w
  rcases o with _ | _ | (_ | _) | _ | (_ | _) <;> cases w <;> infer_instance

theorem Orderly.small {s : Sys} {o : Event} (h : Orderly s o) : Small o := by
  cases o with
  | write data nonblock => exact h.1
  | read | run | signal | close => trivial

theorem Sys.unblockReader_rdAlive (s : Sys) : s.unblockReader.rdAlive = s.rdAlive := by
  rw [Sys.unblockReader]
  split <;> rfl

theorem Sys.unblockReader_wrAlive (s : Sys) : s.unblockReader.wrAlive = s.wrAlive := by
  rw [Sys.unblockReader]
  split <;> rfl

variable {s s' : Sys} {c : WriteCall}

theorem Inv.queued (h : Inv s) : ∃ q, Holds s.fifo s.returned.length q ∧ s.queued = q.length ∧
    s.accepted = s.returned ++ q := by
  obtain ⟨q, hq, hacc⟩ := h.queue
  refine ⟨q, hq, ?_, hacc⟩
  rw [Sys.queued, hacc, length_append, Nat.add_sub_cancel_left]

namespace Progress

/-- The writer at most wakes and the pipe at most empties. -/
theorem frame (h : Progress s) (hw : s'.writer = s.writer ∨ s'.writer = s.writer.wake) (hra : s'.rdAlive = s.rdAlive)
    (hwa : s'.wrAlive = s.wrAlive) (hq : s'.queued ≤ s.queued) : Progress s' := by
  have hcall : s'.writer.call = s.writer.call := by rcases hw with hw | hw <;> simp [hw]
  have hwaits : s'.writer.waits = s.writer.waits := by rcases hw with hw | hw <;> simp [hw]
  have hblocked : s.writer.blocked = false → s'.writer.blocked = false := by
    rcases hw with hw | hw
    · rw [hw]
      exact id
    · rw [hw]
      cases s.writer <;> simp [Phase.blocked, Phase.wake]
  refine ⟨?_, ?_, fun h0 => ?_, ?_⟩
  · rw [hcall]
    exact h.data
  · rw [hcall, hwa]
    exact h.wrAlive
  · rw [hra] at h0
    obtain ⟨hb, hc⟩ := h.closed h0
    refine ⟨hblocked hb, fun hne => ?_⟩
    rw [hcall] at hne
    exact hq.trans_lt (hc hne)
  · rw [hcall, hwaits]
    exact h.nonblock

theorem unblockWriter_cases (s : Sys) : s.unblockWriter = s ∨ s.unblockWriter = { s with writer := s.writer.wake } := by
  rw [Sys.unblockWriter]
  split
  · exact Or.inr rfl
  · exact Or.inl rfl

/-- One round of a read keeps progress possible. -/
theorem readLoop (h : Progress s) (c : ReadCall) : Progress (s.readLoop c) := by
  have hq : s.accepted.length - (s.returned ++ (fifoRead s.fifo c.siz).2).length ≤ s.queued := by
    rw [length_append, Sys.queued]
    omega
  rw [Sys.readLoop]
  split
  · split
    · exact h.frame (.inl rfl) rfl rfl hq
    rw [Sys.blockReader]
    split
    · exact h.frame (.inl rfl) rfl rfl hq
    · exact h.frame (.inl rfl) rfl rfl hq
  rcases unblockWriter_cases
    { s with fifo := (fifoRead s.fifo c.siz).1, returned := s.returned ++ (fifoRead s.fifo c.siz).2 } with he | he
  · rw [he]
    exact h.frame (.inl rfl) rfl rfl hq
  · rw [he]
    exact h.frame (.inr rfl) rfl rfl hq

theorem runReader (h : Progress s) : Progress s.runReader := by
  rw [Sys.runReader]
  split
  · exact h
  · exact h
  · split
    · exact h.frame (.inl rfl) rfl rfl le_rfl
    · exact h
  next c _ => exact h.readLoop c
  · exact h.frame (.inl rfl) rfl rfl le_rfl
  split
  · exact h.frame (.inl rfl) rfl rfl le_rfl
  · exact h

/-- The writer's call goes on in another phase that does not sleep. -/
theorem move {p : Phase WriteCall} (h : Progress s) (hc : s.writer.call = some c) (hp : p.call = some c)
    (hb : p.blocked = false) (hw : c.nonblock = true → p.waits = false) (hs : s'.writer = p)
    (hra : s'.rdAlive = s.rdAlive) (hwa : s'.wrAlive = s.wrAlive) (hq : s'.queued = s.queued) : Progress s' := by
  have hcall : s'.writer.call = s.writer.call := by rw [hs, hp, hc]
  refine ⟨?_, ?_, fun h0 => ⟨by rwa [hs], ?_⟩, fun c' hc' hn => ?_⟩
  · rw [hcall]
    exact h.data
  · rw [hcall, hwa]
    exact h.wrAlive
  · rw [hra] at h0
    rw [hcall, hq]
    exact (h.closed h0).2
  rw [hs]
  rw [hs, hp] at hc'
  obtain rfl := Option.some.inj hc'
  exact hw hn

theorem idle (hw : s'.writer = .idle) : Progress s' := by
  refine ⟨?_, ?_, fun _ => ⟨?_, ?_⟩, ?_⟩ <;> simp [hw, Phase.call, Phase.blocked]

/-- A blocking writer sleeps only while there is a reader. -/
theorem blockWriter (h : Progress s) (hc : s.writer = .loop c) (hra : s.rdAlive ≠ 0)
    (hn : c.nonblock = false) : Progress (s.blockWriter c) := by
  have hcall : s.writer.call = some c := by rw [hc]; rfl
  rw [Sys.blockWriter]
  split
  · exact h.frame (.inl rfl) rfl rfl le_rfl
  refine ⟨?_, ?_, fun h0 => absurd h0 hra, ?_⟩
  · rintro _ ⟨⟩
    exact h.data c hcall
  · intro _
    exact h.wrAlive (by simp [hcall])
  rintro _ ⟨⟩ hn'
  rw [hn] at hn'
  cases hn'

/-- One round of a write keeps progress possible. -/
theorem writeLoop (h : Progress s) (hi : Inv s) (hc : s.writer = .loop c)
    (ho : c.nonblock = true → s.queued < PAGE_SIZ) : Progress (s.writeLoop c) := by
  have hcall : s.writer.call = some c := by rw [hc]; rfl
  have hdata : 0 < c.data.length := length_pos_iff.2 (h.data c hcall)
  obtain ⟨q, hq, hlen, hacc⟩ := hi.queued
  obtain ⟨hrem, -, -⟩ := hq.write c.data
  have hle := hq.len
  rw [hi.siz] at hrem hle
  rw [Sys.writeLoop]
  split
  next h0 =>
    -- the buffer is full
    have hfull : ¬ s.queued < PAGE_SIZ := by omega
    have hra : s.rdAlive ≠ 0 := fun hra => hfull ((h.closed hra).2 (by simp [hcall]))
    have hn : c.nonblock = false := by
      cases hn : c.nonblock
      · rfl
      · exact absurd (ho hn) hfull
    refine blockWriter (h.frame (.inl rfl) rfl rfl ?_) hc hra hn
    rw [h0, take_zero, append_nil]
    exact le_rfl
  next =>
    dsimp only
    split
    · exact idle rfl
    next hmore =>
      simp only [not_or] at hmore
      obtain ⟨hrest, hra, hn⟩ := hmore
      have hwa := h.wrAlive (by simp [hcall])
      refine ⟨?_, fun _ => ?_, fun h0 => ?_, fun _ _ _ => rfl⟩
      · rintro _ ⟨⟩
        exact hrest
      · rwa [Sys.unblockReader_wrAlive]
      · rw [Sys.unblockReader_rdAlive] at h0
        exact absurd h0 hra

/-- The writer runs on from where it was. -/
theorem runWriter (h : Progress s) (hi : Inv s) (ho : Orderly s (.run .wr)) : Progress s.runWriter := by
  rw [Sys.runWriter]
  simp only [Orderly] at ho
  split
  · exact h
  · exact h
  next c hc =>
    split
    · exact h.move (by rw [hc]; rfl) rfl rfl (fun _ => rfl) rfl rfl rfl rfl
    · exact h
  next c hc =>
    rw [hc] at ho
    exact h.writeLoop hi hc ho
  next c hc =>
    -- into `task_block`: the call is the same
    have hcall : s.writer.call = some c := by rw [hc]; rfl
    have hwaits : s.writer.waits = true := by rw [hc]; rfl
    refine ⟨?_, fun _ => h.wrAlive (by simp [hcall]), fun h0 => ?_, ?_⟩
    · rintro _ ⟨⟩
      exact h.data c hcall
    · have hb := (h.closed h0).1
      rw [hc] at hb
      cases hb
    rintro _ ⟨⟩ hn
    have hw := h.nonblock c hcall hn
    rw [hwaits] at hw
    cases hw
  next c hc =>
    split
    · exact h.move (by rw [hc]; rfl) rfl rfl (fun _ => rfl) rfl rfl rfl rfl
    · exact h

theorem pipeWrite (hwa : s.wrAlive ≠ 0) (data : List UInt8) (nonblock : Bool) :
    Progress (s.pipeWrite data nonblock) := by
  rw [Sys.pipeWrite]
  split
  · exact idle rfl
  next hne =>
    split
    · exact idle rfl
    next hra =>
      refine ⟨?_, fun _ => hwa, fun h0 => absurd h0 hra, fun _ _ _ => rfl⟩
      rintro _ ⟨⟩
      exact fun hnil => hne (length_eq_zero_iff.2 hnil)

theorem withReaders (h : Progress s) (hw : s'.writer = s.writer ∨ s'.writer = s.writer.wake)
    (hwa : s'.wrAlive = s.wrAlive) (hra : s'.rdAlive ≠ 0) : Progress s' := by
  have hcall : s'.writer.call = s.writer.call := by rcases hw with hw | hw <;> simp [hw]
  have hwaits : s'.writer.waits = s.writer.waits := by rcases hw with hw | hw <;> simp [hw]
  refine ⟨?_, ?_, fun h0 => absurd h0 hra, ?_⟩
  · rw [hcall]
    exact h.data
  · rw [hcall, hwa]
    exact h.wrAlive
  · rw [hcall, hwaits]
    exact h.nonblock

/-- A writer that is not on its way into `task_block` is woken from it. -/
theorem woken (h : Progress s) (hq : s.queued < PAGE_SIZ) (hl : s.writer.leaves = false)
    (hw : s'.writer = s.writer.wake) (hwa : s'.wrAlive = s.wrAlive) (hqe : s'.queued = s.queued) : Progress s' := by
  refine ⟨?_, ?_, fun _ => ⟨?_, fun _ => by rwa [hqe]⟩, ?_⟩
  · simpa [hw] using h.data
  · simpa [hw, hwa] using h.wrAlive
  · rw [hw]
    revert hl
    cases s.writer <;> simp [Phase.blocked, Phase.wake, Phase.leaves]
  · simpa [hw] using h.nonblock

/-- Both tasks are unblocked at the end of `pipe__fini_pctx`. -/
theorem unblocked (hw : s.wrWaiter = s.writer.waits) : s.unblockReader.unblockWriter.writer = s.writer.wake ∧
    s.unblockReader.unblockWriter.rdAlive = s.rdAlive ∧ s.unblockReader.unblockWriter.wrAlive = s.wrAlive ∧
    s.unblockReader.unblockWriter.queued = s.queued := by
  have hnot : s.wrWaiter = false → s.writer.wake = s.writer := by
    rw [hw]
    cases s.writer <;> simp [Phase.waits, Phase.wake]
  unfold Sys.unblockWriter Sys.unblockReader Sys.queued
  cases hr : s.rdWaiter <;> cases hwr : s.wrWaiter <;> simp_all

/-- Closing an end keeps progress possible. -/
theorem finiPctx (h : Progress s) (hi : Inv s) {side : Side} (ho : Orderly s (.close side)) :
    Progress (s.finiPctx side) := by
  cases side with
  | wr =>
    have hidle : s.writer = .idle := by
      have hnone : s.writer.call = none := ho
      revert hnone
      cases s.writer <;> simp [Phase.call]
    obtain ⟨hw, -⟩ := unblocked (s := { s with wrAlive := s.wrAlive - 1 }) hi.wrWaiter
    rw [Sys.finiPctx]
    split
    · exact idle (hw.trans (congrArg Phase.wake hidle))
    · exact idle hidle
  | rd =>
    obtain ⟨hw, hra, hwa, hq⟩ := unblocked (s := { s with rdAlive := s.rdAlive - 1 }) hi.wrWaiter
    rw [Sys.finiPctx]
    by_cases hlast : s.rdAlive = 1
    · obtain ⟨hroom, hl⟩ := ho hlast
      split
      · exact h.woken hroom hl hw hwa hq
      next hboth =>
        -- no writer is left either
        have hidle : s.writer = .idle := by
          have hnone : s.writer.call = none := by
            by_contra hne
            have hwa := h.wrAlive hne
            simp [hlast, hwa] at hboth
          revert hnone
          cases s.writer <;> simp [Phase.call]
        exact idle hidle
    · have hne : s.rdAlive - 1 ≠ 0 := by omega
      split
      · exact h.withReaders (.inr hw) hwa (by rwa [hra])
      · exact h.withReaders (.inl rfl) rfl hne

/-- **One event.** -/
theorem step {o : Event} (h : Progress s) (hi : Inv s) (ho : Orderly s o) (hs : step s o = some s') : Progress s' := by
  cases o with
  | read siz nonblock =>
    cases hs
    split
    · rw [Sys.pipeRead]
      split
      · exact h.frame (.inl rfl) rfl rfl le_rfl
      · exact h.frame (.inl rfl) rfl rfl le_rfl
    · exact h
  | write data nonblock =>
    cases hs
    split
    · exact pipeWrite ho.2 data nonblock
    · exact h
  | run side =>
    cases side <;> cases hs
    · exact h.runReader
    · exact h.runWriter hi ho
  | signal side =>
    cases side <;> cases hs
    · exact h.frame (.inl rfl) rfl rfl le_rfl
    · exact h.frame (.inr rfl) rfl rfl le_rfl
  | close side =>
    cases hs
    exact h.finiPctx hi ho

end Progress

/-! ## Readiness -/

/-- The other end is open while there are bytes, and the buffer is full only when nobody reads. -/
def Askable (s : Sys) : Side → Prop
  | .rd => s.wrAlive = 0 → s.queued = 0
  | .wr => s.rdAlive = 0 ↔ s.queued = PAGE_SIZ

theorem deliverTo_hup (events : Nat) : deliverTo events POLLHUP = true := by
  unfold deliverTo
  simp only [bne_iff_ne, ne_eq]
  intro h
  have hbit := congrArg (Nat.testBit · 4) h
  simp [POLLHUP, POLLERR, POLLNVAL, Nat.testBit_and, Nat.testBit_or] at hbit
  exact absurd (hbit (Or.inr (by decide))) (by decide)

/-- `pipe_poll_setup` reports `POLLIN` for bytes in the buffer. -/
theorem pollin_iff (h : Inv s) (ha : Askable s .rd) {events : Nat} (he : deliverTo events POLLIN = true) :
    pipePollSetup s .rd events = (1, POLLIN) ↔ 0 < s.queued := by
  obtain ⟨q, hq, hlen, -⟩ := h.queued
  have hempty : fifoEmpty s.fifo = false ↔ 0 < s.queued := by
    rw [← Bool.not_eq_true, hq.fifoEmpty_iff, hlen, length_pos_iff]
  simp only [pipePollSetup, deliverTo_hup, he, and_true]
  split
  next h0 =>
    simp only [ha h0, lt_irrefl, iff_false]
    decide
  next =>
    split
    next hne => simp [hempty.1 hne]
    next hne =>
      rw [hempty] at hne
      simp only [hne, iff_false]
      decide

/-- `pipe_poll_setup` reports `POLLOUT` for room in the buffer. -/
theorem pollout_iff (h : Inv s) (ha : Askable s .wr) {events : Nat} (he : deliverTo events POLLOUT = true) :
    pipePollSetup s .wr events = (1, POLLOUT) ↔ s.queued < PAGE_SIZ := by
  obtain ⟨q, hq, hlen, -⟩ := h.queued
  have hle := hq.len
  rw [h.siz, ← hlen] at hle
  have hsiz : 2 * s.fifo.siz < 2 ^ 64 := by
    rw [h.siz]
    decide
  simp only [pipePollSetup, deliverTo_hup, he, and_true, hq.fifoFull_eq hsiz]
  split
  next h0 =>
    simp only [ha.1 h0, lt_irrefl, iff_false]
    decide
  next h0 =>
    have hne : s.queued ≠ PAGE_SIZ := fun hfull => h0 (ha.2 hfull)
    simp only [if_true, true_iff]
    omega

/-! ## Runs -/

/-- **Progress and readiness**: in every state that an orderly run reaches, a writer is not blocked once the last reader
has closed, a writer that must not block is not in `block_as`, and `pipe_poll_setup` is right about room and bytes where
it may be asked. -/
theorem progress_kept (buf : Nat → UInt8) (rdAlive wrAlive : Int) (os : List Event) (s : Sys)
    (hos : Meets step Orderly (create buf rdAlive wrAlive) os)
    (hr : run step (create buf rdAlive wrAlive) os = some s) : (s.rdAlive = 0 → s.writer.blocked = false) ∧
    (∀ c ∈ s.writer.call, c.nonblock = true → s.writer.waits = false) ∧
    (∀ events, Askable s .rd → deliverTo events POLLIN = true →
      (pipePollSetup s .rd events = (1, POLLIN) ↔ 0 < s.queued)) ∧
    ∀ events, Askable s .wr → deliverTo events POLLOUT = true →
      (pipePollSetup s .wr events = (1, POLLOUT) ↔ s.queued < PAGE_SIZ) := by
  have h := run_meets_inv (I := fun s => Inv s ∧ Progress s)
    (fun _ _ _ hi hc hs => ⟨hi.1.step hc.small hs, hi.2.step hi.1 hc hs⟩)
    ⟨inv_create buf rdAlive wrAlive, Progress.idle rfl⟩ hos hr
  obtain ⟨hi, hp⟩ := h
  exact ⟨fun h0 => (hp.closed h0).1, hp.nonblock, fun events ha he => pollin_iff hi ha he,
    fun events ha he => pollout_iff hi ha he⟩

/-- A page is written, a byte of it read, another byte written, and the reader closes. -/
def farewell : List Event :=
  [.write (List.replicate PAGE_SIZ 7) false, .run .wr, .run .wr, .read 2 true, .run .rd, .run .rd,
  .write [8] true, .run .wr,
    .run .wr, .close .rd]

theorem progress_kept_farewell : ∃ s, run step (create (fun _ => 0) 1 1) farewell = some s ∧
    (s.rdAlive = 0 → s.writer.blocked = false) ∧ s.rdAlive = 0 ∧ s.queued = 4095 := by
  obtain ⟨s, hr⟩ : ∃ s, run step (create (fun _ => 0) 1 1) farewell = some s := ⟨_, rfl⟩
  have hval : (run step (create (fun _ => 0) 1 1) farewell).map (fun s => (s.rdAlive, s.queued)) = some (0, 4095) := by
    decide +kernel
  rw [hr] at hval
  obtain ⟨hra, hq⟩ := Prod.mk.inj (Option.some.inj hval)
  exact ⟨s, hr, (progress_kept _ 1 1 farewell s (by decide +kernel) hr).1, hra, hq⟩

/-- The writer fills the buffer. -/
def fillUp : List Event := [.write (List.replicate PAGE_SIZ 7) false, .run .wr, .run .wr]

/-- **A full buffer**: a writer blocks again after the last reader has closed, a writer that must not block blocks, and
`POLLOUT` is reported without room. When the writer has closed, `POLLHUP` is reported instead of `POLLIN`. -/
theorem full_buffer_wrong :
    (run step (create (fun _ => 0) 1 1) (fillUp ++ [.write [8] false, .run .wr, .run .wr, .run .wr, .close .rd,
    .run .wr, .run .wr,
      .run .wr])).map (fun s => (s.rdAlive, s.writer.blocked)) = some (0, true) ∧
    (run step (create (fun _ => 0) 1 1) (fillUp ++ [.write [8] true, .run .wr, .run .wr, .run .wr])).map
      (fun s => (s.writer.call.map (·.nonblock), s.writer.blocked)) = some (some true, true) ∧
    (run step (create (fun _ => 0) 1 1) fillUp).map (fun s => (pipePollSetup s .wr POLLOUT, s.queued)) =
      some ((1, POLLOUT), PAGE_SIZ) ∧
    (run step (create (fun _ => 0) 1 1) [.write [8] false, .run .wr, .run .wr, .close .wr]).map
      (fun s => (pipePollSetup s .rd POLLIN, s.queued)) = some ((1, POLLHUP), 1) := by
  decide +kernel

end TextOS.Pipe
