import TextOS.Klib.Fifo
import TextOS.Lib.Run

/-!
# Pipes: `kernel/fs/drift/pipe.c`

One task reads a pipe and one writes it. A task that has the lock is not interrupted by the other one at the pipe; a
task in `block_as` gives the lock back, then blocks, and takes the lock again after it has been woken, by the other
task, by a close or by a signal.

- **over every run with writes of less than 2^31 bytes the bytes returned are a prefix of those accepted, at most one
  page is in between, and each call returns the number of bytes it moved** (`stream_kept`); the value of a longer write
  does not fit into an `int` (`write_overflows`).
-/

namespace TextOS.Pipe

open Lib Klib List

def PAGE_SIZ : Nat := 4096

/-- A `size_t` as `int`. -/
def toInt (n : Nat) : Int := (BitVec.ofNat 32 n).toInt

inductive Side
  | rd
  | wr
deriving DecidableEq

/-- Where a task is in its call. -/
inductive Phase (κ : Type)
  | idle
  /-- Before `lock_acquire`. -/
  | enter (c : κ)
  /-- With the lock, at the start of the loop. -/
  | loop (c : κ)
  /-- In `block_as`, without the lock and not yet blocked. -/
  | leaving (c : κ)
  /-- In `task_block`. -/
  | asleep (c : κ)
  /-- After `task_block`. -/
  | woken (c : κ)

namespace Phase

variable {κ : Type}

/-- `task_unblock`; a task that is not yet blocked will block. -/
def wake : Phase κ → Phase κ
  | .asleep c => .woken c
  | p => p

/-- The task is in `block_as`. -/
def waits : Phase κ → Bool
  | .leaving _ | .asleep _ | .woken _ => true
  | _ => false

/-- The task has the lock. -/
def owns : Phase κ → Bool
  | .loop _ => true
  | _ => false

def call : Phase κ → Option κ
  | .idle => none
  | .enter c | .loop c | .leaving c | .asleep c | .woken c => some c

@[simp] theorem waits_wake (p : Phase κ) : p.wake.waits = p.waits := by cases p <;> rfl
@[simp] theorem owns_wake (p : Phase κ) : p.wake.owns = p.owns := by cases p <;> rfl
@[simp] theorem call_wake (p : Phase κ) : p.wake.call = p.call := by cases p <;> rfl

end Phase

/-- The arguments of `pipe_read`. -/
structure ReadCall where
  siz : Nat
  nonblock : Bool

/-- The arguments of `pipe_write`, with the bytes that are left; `moved` counts the bytes that were accepted. -/
structure WriteCall where
  reqsiz : Nat
  data : List UInt8
  nonblock : Bool
  moved : Nat

/-- What a call returned, and how many bytes it moved. -/
structure Result where
  value : Int
  moved : Nat

/-- `pipe_t` and the two tasks; `accepted` and `returned` are the bytes so far. -/
structure Sys where
  fifo : Fifo
  rdAlive : Int
  wrAlive : Int
  lock : Option Side
  rdWaiter : Bool
  wrWaiter : Bool
  reader : Phase ReadCall
  writer : Phase WriteCall
  /-- An assertion has failed. -/
  failed : Bool
  accepted : List UInt8
  returned : List UInt8
  results : List Result

namespace Sys

variable (s : Sys)

/-- `if (pi->rd_waiter) task_unblock(pi->rd_waiter, 0)`. -/
def unblockReader : Sys := if s.rdWaiter then { s with reader := s.reader.wake } else s

/-- `if (pi->wr_waiter) task_unblock(pi->wr_waiter, 0)`. -/
def unblockWriter : Sys := if s.wrWaiter then { s with writer := s.writer.wake } else s

def retRead (value : Int) (moved : Nat) : Sys := { s with reader := .idle, results := s.results ++ [⟨value, moved⟩] }

def retWrite (value : Int) (moved : Nat) : Sys := { s with writer := .idle, results := s.results ++ [⟨value, moved⟩] }

def release : Sys := { s with lock := none }

/-- `block_as` of the reader. -/
def blockReader (c : ReadCall) : Sys :=
  if s.rdWaiter then { s with failed := true } else { s.release with rdWaiter := true, reader := .leaving c }

/-- `block_as` of the writer. -/
def blockWriter (c : WriteCall) : Sys :=
  if s.wrWaiter then { s with failed := true } else { s.release with wrWaiter := true, writer := .leaving c }

/-- One turn of the loop of `pipe_read`. -/
def readLoop (c : ReadCall) : Sys :=
  let r := fifoRead s.fifo c.siz
  let s' := { s with fifo := r.1, returned := s.returned ++ r.2 }
  let rem := c.siz - r.2.length
  if r.2 = [] then
    if s.wrAlive = 0 ∨ c.nonblock = true then (s'.retRead (toInt (c.siz - rem)) 0).release else s'.blockReader c
  else (s'.unblockWriter.retRead (toInt (c.siz - rem)) r.2.length).release

/-- One turn of the loop of `pipe_write`. -/
def writeLoop (c : WriteCall) : Sys :=
  let w := fifoWrite s.fifo c.data
  let s' := { s with fifo := w.1, accepted := s.accepted ++ c.data.take w.2 }
  if w.2 = 0 then s'.blockWriter c
  else
    let c' := { c with data := c.data.drop w.2, moved := c.moved + w.2 }
    let s' := s'.unblockReader
    if c'.data = [] ∨ s.rdAlive = 0 ∨ c.nonblock = true then (s'.retWrite (toInt (c.reqsiz - c'.data.length))
      c'.moved).release
    else { s' with writer := .loop c' }

/-- The reader goes on. -/
def runReader : Sys :=
  match s.reader with
  | .idle | .asleep _ => s
  | .enter c => if s.lock = none then { s with lock := some .rd, reader := .loop c } else s
  | .loop c => s.readLoop c
  | .leaving c => { s with reader := .asleep c }
  | .woken c => if s.lock = none then { s with lock := some .rd, rdWaiter := false, reader := .loop c } else s

/-- The writer goes on. -/
def runWriter : Sys :=
  match s.writer with
  | .idle | .asleep _ => s
  | .enter c => if s.lock = none then { s with lock := some .wr, writer := .loop c } else s
  | .loop c => s.writeLoop c
  | .leaving c => { s with writer := .asleep c }
  | .woken c => if s.lock = none then { s with lock := some .wr, wrWaiter := false, writer := .loop c } else s

/-- The start of `pipe_read`. -/
def pipeRead (siz : Nat) (nonblock : Bool) : Sys :=
  if siz = 0 then s.retRead 0 0 else { s with reader := .enter ⟨siz, nonblock⟩ }

/-- The start of `pipe_write`. -/
def pipeWrite (data : List UInt8) (nonblock : Bool) : Sys :=
  if data.length = 0 then s.retWrite 0 0
  else if s.rdAlive = 0 then s.retWrite 0 0
  else { s with writer := .enter ⟨data.length, data, nonblock, 0⟩ }

/-- `pipe__fini_pctx`, for a pipe that stays. -/
def finiPctx (side : Side) : Sys :=
  let s' := match side with
    | .rd => { s with rdAlive := s.rdAlive - 1 }
    | .wr => { s with wrAlive := s.wrAlive - 1 }
  if (s'.rdAlive == 0) != (s'.wrAlive == 0) then s'.unblockReader.unblockWriter else s'

end Sys

inductive Event
  | read (siz : Nat) (nonblock : Bool)
  | write (data : List UInt8) (nonblock : Bool)
  | run (side : Side)
  | signal (side : Side)
  | close (side : Side)

/-- A task that is in a call starts no other one. -/
def step (s : Sys) : Event → Option Sys
  | .read siz nonblock => some (match s.reader with | .idle => s.pipeRead siz nonblock | _ => s)
  | .write data nonblock => some (match s.writer with | .idle => s.pipeWrite data nonblock | _ => s)
  | .run .rd => some s.runReader
  | .run .wr => some s.runWriter
  | .signal .rd => some { s with reader := s.reader.wake }
  | .signal .wr => some { s with writer := s.writer.wake }
  | .close side => some (s.finiPctx side)

/-- `vfs_pipe_create_dead`, with the ends that are open. -/
def create (buf : Nat → UInt8) (rdAlive wrAlive : Int) : Sys :=
  ⟨fifoInit buf PAGE_SIZ, rdAlive, wrAlive, none, false, false, .idle, .idle, false, [], [], []⟩

/-! ## The invariant -/

theorem toInt_of_lt {n : Nat} (h : n < 2 ^ 31) : toInt n = n := by
  rw [toInt, BitVec.toInt_eq_toNat_cond, BitVec.toNat_ofNat, Nat.mod_eq_of_lt (by omega), if_pos (by omega)]

/-- The bytes of the queue, the tasks and the results. -/
structure Inv (s : Sys) : Prop where
  queue : ∃ q, Holds s.fifo s.returned.length q ∧ s.accepted = s.returned ++ q
  siz : s.fifo.siz = PAGE_SIZ
  lock : s.lock = if s.reader.owns then some .rd else if s.writer.owns then some .wr else none
  excl : s.reader.owns = false ∨ s.writer.owns = false
  rdWaiter : s.rdWaiter = s.reader.waits
  wrWaiter : s.wrWaiter = s.writer.waits
  writer : ∀ c ∈ s.writer.call, c.moved + c.data.length = c.reqsiz ∧ c.reqsiz < 2 ^ 31
  sound : s.failed = false
  results : ∀ r ∈ s.results, r.value = r.moved

/-- Writes have less than 2^31 bytes. -/
def Small : Event → Prop
  | .write data _ => data.length < 2 ^ 31
  | _ => True

instance (o : Event) : Decidable (Small o) := by
  unfold Small
  split <;> infer_instance

namespace Inv

variable {s s' : Sys} {c : WriteCall} {value : Int} {moved : Nat}

theorem wakeReader (h : Inv s) : Inv { s with reader := s.reader.wake } :=
  { h with lock := by simpa using h.lock, excl := by simpa using h.excl, rdWaiter := by simpa using h.rdWaiter }

theorem wakeWriter (h : Inv s) : Inv { s with writer := s.writer.wake } :=
  ⟨h.queue, h.siz, by simpa using h.lock, by simpa using h.excl, h.rdWaiter, by simpa using h.wrWaiter,
    by simpa using h.writer, h.sound, h.results⟩

theorem unblockReader (h : Inv s) : Inv s.unblockReader := by
  rw [Sys.unblockReader]
  split
  · exact h.wakeReader
  · exact h

theorem unblockWriter (h : Inv s) : Inv s.unblockWriter := by
  rw [Sys.unblockWriter]
  split
  · exact h.wakeWriter
  · exact h

theorem unlocked (h : Inv s) (hl : s.lock = none) : s.reader.owns = false ∧ s.writer.owns = false := by
  have hlock := h.lock
  rw [hl] at hlock
  cases hr : s.reader.owns with
  | true =>
    rw [hr] at hlock
    cases hlock
  | false =>
    cases hw : s.writer.owns with
    | true =>
      rw [hr, hw] at hlock
      cases hlock
    | false => exact ⟨rfl, rfl⟩

theorem mem_results {r : Result} (h : Inv s) (hv : value = moved)
    (hr : r ∈ s.results ++ [⟨value, moved⟩]) : r.value = r.moved := by
  rcases mem_append.1 hr with hr | hr
  · exact h.results r hr
  · rw [mem_singleton.1 hr]
    exact hv

theorem retRead {c : ReadCall} (h : Inv s) (hc : s.reader = .loop c) (hv : value = moved) :
    Inv (s.retRead value moved).release := by
  have hown : s.writer.owns = false := h.excl.resolve_left (by rw [hc]; nofun)
  refine ⟨h.queue, h.siz, ?_, .inl rfl, ?_, h.wrWaiter, h.writer, h.sound, fun r hr => h.mem_results hv hr⟩
  · show none = if s.writer.owns then _ else none
    rw [hown]
    rfl
  · exact h.rdWaiter.trans (by rw [hc]; rfl)

theorem retWrite (h : Inv s) (hc : s.writer = .loop c) (hv : value = moved) :
    Inv (s.retWrite value moved).release := by
  have hown : s.reader.owns = false := h.excl.resolve_right (by rw [hc]; nofun)
  refine ⟨h.queue, h.siz, ?_, .inr rfl, h.rdWaiter, ?_, nofun, h.sound, fun r hr => h.mem_results hv hr⟩
  · show none = if s.reader.owns then _ else none
    rw [hown]
    rfl
  · exact h.wrWaiter.trans (by rw [hc]; rfl)

theorem blockReader {c : ReadCall} (h : Inv s) (hc : s.reader = .loop c) : Inv (s.blockReader c) := by
  have hw : s.rdWaiter = false := h.rdWaiter.trans (by rw [hc]; rfl)
  have hown : s.writer.owns = false := h.excl.resolve_left (by rw [hc]; nofun)
  rw [Sys.blockReader, if_neg (by rw [hw]; nofun)]
  refine { h with lock := ?_, excl := .inl rfl, rdWaiter := rfl }
  show none = if s.writer.owns then _ else none
  rw [hown]
  rfl

theorem blockWriter (h : Inv s) (hc : s.writer = .loop c) : Inv (s.blockWriter c) := by
  have hw : s.wrWaiter = false := h.wrWaiter.trans (by rw [hc]; rfl)
  have hown : s.reader.owns = false := h.excl.resolve_right (by rw [hc]; nofun)
  rw [Sys.blockWriter, if_neg (by rw [hw]; nofun)]
  refine ⟨h.queue, h.siz, ?_, .inr rfl, h.rdWaiter, rfl, fun c' hc' => h.writer c' ?_, h.sound, h.results⟩
  · show none = if s.reader.owns then _ else none
    rw [hown]
    rfl
  · rw [hc]
    exact hc'

theorem nextTurn {c c' : WriteCall} (h : Inv s) (hc : s.writer = .loop c) (hm : c'.moved + c'.data.length = c'.reqsiz)
    (hs : c'.reqsiz < 2 ^ 31) : Inv { s with writer := .loop c' } := by
  refine ⟨h.queue, h.siz, h.lock.trans (by rw [hc]; rfl), ?_, h.rdWaiter, h.wrWaiter.trans (by rw [hc]; rfl), ?_,
    h.sound, h.results⟩
  · exact h.excl.imp_right fun hw => by rw [hc] at hw; cases hw
  · rintro _ ⟨⟩
    exact ⟨hm, hs⟩

/-- One turn of the loop of `pipe_read`: the first bytes of the queue are returned. -/
theorem readLoop {c : ReadCall} (h : Inv s) (hc : s.reader = .loop c) : Inv (s.readLoop c) := by
  obtain ⟨q, hq, hacc⟩ := h.queue
  obtain ⟨hout, hrest, hsiz⟩ := hq.read c.siz
  have htaken : Inv { s with fifo := (fifoRead s.fifo c.siz).1, returned := s.returned ++ (fifoRead s.fifo c.siz).2 } :=
    by
    refine { h with queue := ⟨q.drop c.siz, ?_, ?_⟩, siz := hsiz.trans h.siz }
    · rw [length_append]
      exact hrest
    · rw [hout, append_assoc, take_append_drop]
      exact hacc
  have hlen : (fifoRead s.fifo c.siz).2.length ≤ min c.siz PAGE_SIZ := by
    rw [hout, length_take, ← h.siz]
    have := hq.len
    omega
  have hval : ∀ n, n ≤ min c.siz PAGE_SIZ → toInt (c.siz - (c.siz - n)) = n := by
    intro n hn
    rw [PAGE_SIZ] at hn
    rw [show c.siz - (c.siz - n) = n by omega, toInt_of_lt (by omega)]
  rw [Sys.readLoop]
  split
  next hnil =>
    split
    · refine htaken.retRead hc ?_
      rw [hnil]
      exact hval 0 (Nat.zero_le _)
    · exact htaken.blockReader hc
  next =>
    refine htaken.unblockWriter.retRead (c := c) ?_ (hval _ hlen)
    rw [Sys.unblockWriter]
    split <;> exact hc

/-- One turn of the loop of `pipe_write`: the first bytes that are left are accepted. -/
theorem writeLoop (h : Inv s) (hc : s.writer = .loop c) : Inv (s.writeLoop c) := by
  obtain ⟨q, hq, hacc⟩ := h.queue
  obtain ⟨hrem, hrest, hsiz⟩ := hq.write c.data
  obtain ⟨hmoved, hsmall⟩ := h.writer c (by rw [hc]; rfl)
  have hput : Inv { s with fifo := (fifoWrite s.fifo c.data).1,
                           accepted := s.accepted ++ c.data.take (fifoWrite s.fifo c.data).2 } := by
    refine { h with queue := ⟨_, hrest, ?_⟩, siz := hsiz.trans h.siz }
    rw [hacc, append_assoc]
  have hle : (fifoWrite s.fifo c.data).2 ≤ c.data.length := by
    rw [hrem]
    exact Nat.min_le_left _ _
  rw [Sys.writeLoop]
  split
  · exact hput.blockWriter hc
  have hwriter : ∀ {s1 : Sys}, s1.writer = .loop c → s1.unblockReader.writer = .loop c := by
    intro s1 h1
    rw [Sys.unblockReader]
    split <;> exact h1
  have hwake := hput.unblockReader
  dsimp only
  split
  · refine hwake.retWrite (hwriter hc) ?_
    rw [length_drop, toInt_of_lt (by omega)]
    omega
  refine hwake.nextTurn (hwriter hc) ?_ hsmall
  show c.moved + _ + (c.data.drop _).length = c.reqsiz
  rw [length_drop]
  omega

/-- The reader runs on and takes bytes from the front. -/
theorem runReader (h : Inv s) : Inv s.runReader := by
  rw [Sys.runReader]
  split
  · exact h
  · exact h
  next c hc =>
    split
    next hl =>
      exact { h with lock := rfl, excl := .inr (h.unlocked hl).2, rdWaiter := h.rdWaiter.trans (by rw [hc]; rfl) }
    next => exact h
  next c hc => exact h.readLoop hc
  next c hc =>
    exact { h with lock := h.lock.trans (by rw [hc]; rfl), excl := .inl rfl,
                   rdWaiter := h.rdWaiter.trans (by rw [hc]; rfl) }
  next c hc =>
    split
    next hl =>
      exact { h with lock := rfl, excl := .inr (h.unlocked hl).2, rdWaiter := rfl }
    next => exact h

/-- The writer runs on and adds bytes at the back. -/
theorem runWriter (h : Inv s) : Inv s.runWriter := by
  have hcall : ∀ {p : Phase WriteCall}, p.call = s.writer.call →
      ∀ c ∈ p.call, c.moved + c.data.length = c.reqsiz ∧ c.reqsiz < 2 ^ 31 := fun hp => by
    rw [hp]
    exact h.writer
  rw [Sys.runWriter]
  split
  · exact h
  · exact h
  next c hc =>
    split
    next hl =>
      refine ⟨h.queue, h.siz, ?_, .inl (h.unlocked hl).1, h.rdWaiter, h.wrWaiter.trans (by rw [hc]; rfl),
        hcall (by rw [hc]; rfl), h.sound, h.results⟩
      rw [(h.unlocked hl).1]
      rfl
    next => exact h
  next c hc => exact h.writeLoop hc
  next c hc =>
    exact ⟨h.queue, h.siz, h.lock.trans (by rw [hc]; rfl), .inr rfl, h.rdWaiter, h.wrWaiter.trans (by rw [hc]; rfl),
      hcall (by rw [hc]; rfl), h.sound, h.results⟩
  next c hc =>
    split
    next hl =>
      refine ⟨h.queue, h.siz, ?_, .inl (h.unlocked hl).1, h.rdWaiter, rfl, hcall (by rw [hc]; rfl), h.sound, h.results⟩
      rw [(h.unlocked hl).1]
      rfl
    next => exact h

theorem pipeRead (h : Inv s) (hi : s.reader = .idle) (siz : Nat) (nonblock : Bool) : Inv (s.pipeRead siz nonblock) := by
  rw [Sys.pipeRead]
  split
  · exact ⟨h.queue, h.siz, h.lock.trans (by rw [hi]; rfl), .inl rfl, h.rdWaiter.trans (by rw [hi]; rfl), h.wrWaiter,
      h.writer, h.sound, fun r hr => h.mem_results rfl hr⟩
  · exact { h with lock := h.lock.trans (by rw [hi]; rfl), excl := .inl rfl,
                   rdWaiter := h.rdWaiter.trans (by rw [hi]; rfl) }

/-- A write begins with nothing moved. -/
theorem pipeWrite (h : Inv s) (hi : s.writer = .idle) {data : List UInt8} (hd : data.length < 2 ^ 31)
    (nonblock : Bool) : Inv (s.pipeWrite data nonblock) := by
  have hret : Inv (s.retWrite 0 0) :=
    ⟨h.queue, h.siz, h.lock.trans (by rw [hi]; rfl), .inr rfl, h.rdWaiter, h.wrWaiter.trans (by rw [hi]; rfl),
      nofun, h.sound, fun r hr => h.mem_results rfl hr⟩
  rw [Sys.pipeWrite]
  split
  · exact hret
  split
  · exact hret
  refine ⟨h.queue, h.siz, h.lock.trans (by rw [hi]; rfl), .inr rfl, h.rdWaiter,
    h.wrWaiter.trans (by rw [hi]; rfl), ?_, h.sound, h.results⟩
  rintro _ ⟨⟩
  exact ⟨Nat.zero_add _, hd⟩

theorem finiPctx (h : Inv s) (side : Side) : Inv (s.finiPctx side) := by
  have hend : ∀ {s1 : Sys} (b : Bool), Inv s1 → Inv (if b then s1.unblockReader.unblockWriter else s1) := by
    intro s1 b h1
    cases b
    · exact h1
    · exact h1.unblockReader.unblockWriter
  cases side with
  | rd => exact hend _ { h with }
  | wr => exact hend _ { h with }

/-- One event keeps the bytes in order. -/
theorem step {o : Event} (h : Inv s) (ho : Small o) (hs : step s o = some s') : Inv s' := by
  cases o with
  | read siz nonblock =>
    cases hs
    split
    next hi => exact h.pipeRead hi siz nonblock
    next => exact h
  | write data nonblock =>
    cases hs
    split
    next hi => exact h.pipeWrite hi ho nonblock
    next => exact h
  | run side =>
    cases side <;> cases hs
    · exact h.runReader
    · exact h.runWriter
  | signal side =>
    cases side <;> cases hs
    · exact h.wakeReader
    · exact h.wakeWriter
  | close side =>
    cases hs
    exact h.finiPctx side

end Inv

/-! ## Runs -/

theorem inv_create (buf : Nat → UInt8) (rdAlive wrAlive : Int) : Inv (create buf rdAlive wrAlive) :=
  ⟨⟨[], holds_fifoInit buf (by decide) (by decide) (by decide), rfl⟩, rfl, rfl, .inl rfl, rfl, rfl, nofun, rfl, nofun⟩

/-- **The stream**: in every state that is reached with writes of less than 2^31 bytes, the bytes returned are a prefix
of the bytes accepted, at most one page is in between, each call that has returned returned the number of bytes that it
moved, and no assertion has failed. -/
theorem stream_kept (buf : Nat → UInt8) (rdAlive wrAlive : Int) (os : List Event) (s : Sys) (hos : ∀ o ∈ os, Small o)
    (hr : run step (create buf rdAlive wrAlive) os = some s) :
    s.returned <+: s.accepted ∧ s.accepted.length - s.returned.length ≤ PAGE_SIZ ∧
    (∀ r ∈ s.results, r.value = r.moved) ∧
      s.failed = false := by
  have h := run_meets_inv (C := fun _ => Small) (fun _ _ _ hi hc hs => hi.step hc hs) (inv_create buf rdAlive wrAlive)
    (meets_of_forall_mem _ hos) hr
  obtain ⟨q, hq, hacc⟩ := h.queue
  refine ⟨⟨q, hacc.symm⟩, ?_, h.results, h.sound⟩
  rw [hacc, length_append, Nat.add_sub_cancel_left, ← h.siz]
  exact hq.len

/-- A read that has to wait for the write, and takes only a part of it. -/
def talk : List Event :=
  [.read 2 false, .run .rd, .run .rd, .run .rd, .write [7, 8, 9] false, .run .wr, .run .wr, .run .rd, .run .rd]

theorem stream_kept_talk : ∃ s, run step (create (fun _ => 0) 1 1) talk = some s ∧ s.accepted = [7, 8, 9] ∧
    s.returned = [7, 8] ∧ s.returned <+: s.accepted := by
  obtain ⟨s, hr⟩ : ∃ s, run step (create (fun _ => 0) 1 1) talk = some s := ⟨_, rfl⟩
  have hval : (run step (create (fun _ => 0) 1 1) talk).map (fun s => (s.accepted, s.returned)) =
    some ([7, 8, 9], [7, 8]) := by
    decide +kernel
  rw [hr] at hval
  obtain ⟨hacc, hret⟩ := Prod.mk.inj (Option.some.inj hval)
  exact ⟨s, hr, hacc, hret, (stream_kept _ 1 1 talk s (by decide) hr).1⟩

/-! ## A long write -/

/-- The writer is in its loop and the queue is empty. -/
def writing (f : Fifo) (accepted returned : List UInt8) (results : List Result) (c : WriteCall) : Sys :=
  ⟨f, 1, 1, some .wr, false, false, .idle, .loop c, false, accepted, returned, results⟩

/-- The writer fills the queue and blocks, and the reader comes. -/
def fill : List Event := [.run .wr, .run .wr, .run .wr, .read PAGE_SIZ false, .run .rd]

/-- The reader empties the queue and wakes the writer. -/
def drain : List Event := [.run .rd, .run .wr]

variable {f : Fifo} (accepted returned : List UInt8) (results : List Result) {c : WriteCall} {s : Sys} {r : ReadCall}

theorem step_writer {s s' : Sys} (h : s.writer = .loop c) (hs : s.writeLoop c = s') : step s (.run .wr) = some s' := by
  simp only [step, Sys.runWriter, h, hs]

theorem step_enter_write (h : s.writer = .enter c) (hl : s.lock = none) :
    step s (.run .wr) = some { s with lock := some .wr, writer := .loop c } := by
  simp only [step, Sys.runWriter, h, hl, if_true]

theorem step_leaving (h : s.writer = .leaving c) : step s (.run .wr) = some { s with writer := .asleep c } := by
  simp only [step, Sys.runWriter, h]

theorem step_woken (h : s.writer = .woken c) (hl : s.lock = none) :
    step s (.run .wr) = some { s with lock := some .wr, wrWaiter := false, writer := .loop c } := by
  simp only [step, Sys.runWriter, h, hl, if_true]

theorem step_read {siz : Nat} {nonblock : Bool} (h : s.reader = .idle) (hsiz : siz ≠ 0) :
    step s (.read siz nonblock) = some { s with reader := .enter ⟨siz, nonblock⟩ } := by
  simp only [step, h, Sys.pipeRead, if_neg hsiz]

theorem step_enter (h : s.reader = .enter r) (hl : s.lock = none) :
    step s (.run .rd) = some { s with lock := some .rd, reader := .loop r } := by
  simp only [step, Sys.runReader, h, hl, if_true]

theorem step_reader {s s' : Sys} (h : s.reader = .loop r) (hs : s.readLoop r = s') : step s (.run .rd) = some s' := by
  simp only [step, Sys.runReader, h, hs]

theorem writeLoop_more {f' : Fifo} {n : Nat} (hrd : s.rdAlive = 1) (hwait : s.rdWaiter = false)
    (hw : fifoWrite s.fifo c.data = (f', n)) (hn : n ≠ 0) (hne : c.data.drop n ≠ []) (hblock : c.nonblock = false) :
    s.writeLoop c = { s with
      fifo := f', accepted := s.accepted ++ c.data.take n, writer :=
        .loop { c with data := c.data.drop n, moved := c.moved + n } } := by
  simp [Sys.writeLoop, Sys.unblockReader, hw, hn, hne, hblock, hrd, hwait]

theorem writeLoop_full {f' : Fifo} (hwait : s.wrWaiter = false) (hw : fifoWrite s.fifo c.data = (f', 0)) :
    s.writeLoop c = { s with fifo := f', lock := none, wrWaiter := true, writer := .leaving c } := by
  simp [Sys.writeLoop, Sys.blockWriter, Sys.release, hw, hwait]

theorem readLoop_some {f' : Fifo} {out : List UInt8} (hwait : s.wrWaiter = true) (hd : s.writer = .asleep c)
    (hr : fifoRead s.fifo r.siz = (f', out)) (hne : out ≠ []) : ∃ results', s.readLoop r = { s with
      fifo := f', returned := s.returned ++ out, lock := none, reader := .idle, writer := .woken c,
        results := results' } := by
  simp [Sys.readLoop, Sys.unblockWriter, Sys.retRead, Sys.release, Phase.wake, hwait, hd, hr, hne]

/-- The pipe is filled, and then drained. -/
theorem run_fill_drain {f1 f2 f3 : Fifo} {out : List UInt8} (hblock : c.nonblock = false)
    (hw : fifoWrite f c.data = (f1, PAGE_SIZ)) (hne : c.data.drop PAGE_SIZ ≠ [])
    (hfull : fifoWrite f1 (c.data.drop PAGE_SIZ) = (f2, 0)) (hr : fifoRead f2 PAGE_SIZ = (f3, out)) (hout : out ≠ []) :
    ∃ results', run step (writing f accepted returned results c) (fill ++ drain) =
      some (writing f3 (accepted ++ c.data.take PAGE_SIZ) (returned ++ out) results'
        { c with data := c.data.drop PAGE_SIZ, moved := c.moved + PAGE_SIZ }) := by
  have hfill := step_writer (s := writing f accepted returned results c) rfl
    (writeLoop_more rfl rfl hw (by decide) hne hblock)
  have hblocks := step_writer (s := writing f1 (accepted ++ c.data.take PAGE_SIZ) returned results
    { c with data := c.data.drop PAGE_SIZ, moved := c.moved + PAGE_SIZ }) rfl (writeLoop_full rfl hfull)
  obtain ⟨results', hread⟩ := readLoop_some (s := ⟨f2, 1, 1, some .rd, false, true, .loop ⟨PAGE_SIZ, false⟩,
    .asleep { c with data := c.data.drop PAGE_SIZ, moved := c.moved + PAGE_SIZ }, false,
    accepted ++ c.data.take PAGE_SIZ, returned, results⟩) (r := ⟨PAGE_SIZ, false⟩) rfl rfl hr hout
  refine ⟨results', ?_⟩
  exact run_cons.2 ⟨_, hfill,
    run_cons.2 ⟨_, hblocks, run_cons.2 ⟨_, step_leaving rfl, run_cons.2 ⟨_, step_read rfl (by decide),
    run_cons.2 ⟨_, step_enter rfl rfl, run_cons.2 ⟨_, step_reader rfl hread,
    run_cons.2 ⟨_, step_woken rfl rfl, rfl⟩⟩⟩⟩⟩⟩⟩

/-- One turn of filling and draining moves a page. -/
theorem run_turn (hq : Holds f returned.length []) (hsiz : f.siz = PAGE_SIZ) (hblock : c.nonblock = false)
    (hlong : PAGE_SIZ < c.data.length) :
    ∃ f' accepted' returned' results', Holds f' returned'.length [] ∧ f'.siz = PAGE_SIZ ∧
      run step (writing f accepted returned results c) (fill ++ drain) = some (writing f' accepted' returned' results'
        { c with data := c.data.drop PAGE_SIZ, moved := c.moved + PAGE_SIZ }) := by
  have hlen : (c.data.take PAGE_SIZ).length = PAGE_SIZ := length_take_of_le hlong.le
  obtain ⟨hn, hq1, hsiz1⟩ := hq.write c.data
  rcases hw : fifoWrite f c.data with ⟨f1, n⟩
  rw [hw] at hn hq1 hsiz1
  obtain rfl : n = PAGE_SIZ := by
    rw [hsiz, length_nil] at hn
    omega
  rw [nil_append] at hq1
  obtain ⟨hn, hq2, hsiz2⟩ := hq1.write (c.data.drop PAGE_SIZ)
  rcases hw' : fifoWrite f1 (c.data.drop PAGE_SIZ) with ⟨f2, n⟩
  rw [hw'] at hn hq2 hsiz2
  obtain rfl : n = 0 := by
    rw [hsiz1, hsiz, hlen] at hn
    omega
  rw [take_zero, append_nil] at hq2
  obtain ⟨hout, hq3, hsiz3⟩ := hq2.read PAGE_SIZ
  rcases hr : fifoRead f2 PAGE_SIZ with ⟨f3, out⟩
  rw [hr] at hout hq3 hsiz3
  obtain rfl : out = c.data.take PAGE_SIZ := hout.trans (by rw [take_take, Nat.min_self])
  rw [drop_take, Nat.sub_self, take_zero, ← length_append] at hq3
  have hne : c.data.drop PAGE_SIZ ≠ [] := by
    rw [Ne, drop_eq_nil_iff, not_le]
    exact hlong
  have hpage : c.data.take PAGE_SIZ ≠ [] := by
    rw [← length_pos_iff, hlen]
    decide
  obtain ⟨results', hrun⟩ := run_fill_drain accepted returned results hblock hw hne hw' hr hpage
  exact ⟨f3, _, _, results', hq3, hsiz3.trans (hsiz2.trans (hsiz1.trans hsiz)), hrun⟩

theorem writeLoop_last (hq : Holds f returned.length []) (hsiz : f.siz = PAGE_SIZ) (hshort : c.data.length ≤ PAGE_SIZ)
    (hne : c.data ≠ []) :
    (Sys.writeLoop (writing f accepted returned results c) c).results = results ++
    [⟨toInt c.reqsiz, c.moved + c.data.length⟩] := by
  have hw : (fifoWrite f c.data).2 = c.data.length := by
    rw [(hq.write c.data).1, hsiz, length_nil]
    omega
  simp [writing, Sys.writeLoop, hw, hne, Sys.unblockReader, Sys.retWrite, Sys.release]

/-- A blocking write returns after enough turns. -/
theorem write_returns (n : Nat) : ∀ accepted returned results {f c}, c.data.length = n → Holds f returned.length [] →
    f.siz = PAGE_SIZ → c.nonblock = false → c.data ≠ [] →
    ∃ os s, run step (writing f accepted returned results c) os = some s ∧
      ⟨toInt c.reqsiz, c.moved + c.data.length⟩ ∈ s.results := by
  induction n using Nat.strong_induction_on with
  | _ n ih =>
    intro accepted returned results f c hn hq hsiz hblock hne
    by_cases hshort : c.data.length ≤ PAGE_SIZ
    · refine ⟨[.run .wr], _, run_cons.2 ⟨_, step_writer rfl rfl, rfl⟩, ?_⟩
      rw [writeLoop_last accepted returned results hq hsiz hshort hne]
      exact mem_append_right _ (mem_singleton_self _)
    rw [not_le] at hshort
    obtain ⟨f', accepted', returned', results', hq', hsiz', hrun⟩ :=
      run_turn accepted returned results hq hsiz hblock hshort
    have hlen : (c.data.drop PAGE_SIZ).length = n - PAGE_SIZ := by rw [length_drop, hn]
    have hne' : c.data.drop PAGE_SIZ ≠ [] := by
      rw [Ne, drop_eq_nil_iff]
      exact not_le.2 hshort
    obtain ⟨os, s, hos, hres⟩ := ih (n - PAGE_SIZ) (Nat.sub_lt (by omega) (by decide)) accepted' returned' results'
      (c := { c with data := c.data.drop PAGE_SIZ, moved := c.moved + PAGE_SIZ }) hlen hq' hsiz' hblock hne'
    refine ⟨fill ++ drain ++ os, s, (run_append _ _ _).trans ?_, ?_⟩
    · rw [hrun]
      exact hos
    · rwa [hlen, Nat.add_assoc, Nat.add_sub_of_le (by omega), ← hn] at hres

theorem write_returns_create (data : List UInt8) (hne : data ≠ []) : ∃ os s,
    run step (create (fun _ => 0) 1 1) (.write data false :: os) = some s ∧
    ⟨toInt data.length, data.length⟩ ∈ s.results := by
  obtain ⟨os, s, hrun, hres⟩ := write_returns data.length [] [] []
    (c := ⟨data.length, data, false, 0⟩) rfl (holds_fifoInit (fun _ => 0) (by decide) (by decide)
    (by decide)) rfl rfl hne
  rw [Nat.zero_add] at hres
  refine ⟨.run .wr :: os, s, ?_, hres⟩
  have hwrite : step (create (fun _ => 0) 1 1) (.write data false) =
      some { create (fun _ => 0) 1 1 with writer := .enter ⟨data.length, data, false, 0⟩ } := by
    simp [step, create, Sys.pipeWrite, hne]
  exact run_cons.2 ⟨_, hwrite, run_cons.2 ⟨_, step_enter_write rfl rfl, hrun⟩⟩

/-- A write of 2^31 bytes moves all of them and returns a negative value. -/
theorem write_overflows : ∃ (data : List UInt8) (os : List Event) (s : Sys), data.length = 2 ^ 31 ∧
    run step (create (fun _ => 0) 1 1) (.write data false :: os) = some s ∧ ⟨-2 ^ 31, 2 ^ 31⟩ ∈ s.results := by
  obtain ⟨data, hlen⟩ : ∃ data : List UInt8, data.length = 2 ^ 31 := ⟨List.replicate (2 ^ 31) 0, length_replicate⟩
  obtain ⟨os, s, hrun, hres⟩ := write_returns_create data (by rw [Ne, ← length_eq_zero_iff, hlen]; decide)
  refine ⟨data, os, s, hlen, hrun, ?_⟩
  have hval : toInt (2 ^ 31) = -2 ^ 31 := by decide +kernel
  rwa [hlen, hval] at hres

end TextOS.Pipe
