import TextOS.Lib.Bytes
import TextOS.Signal.Default

/-!
# Signal frames: `kernel/signal.c`, `kernel/arch/x86_64/intr.S`, `kernel/user/syscall.S`

A handler runs in user mode. `__handle_signal` stores what the kernel would have gone back to in a frame on the user's
stack, below the red zone, and `sigreturn` finds the frame again from the stack pointer.

- **in every nested run the handler that returns gets back the registers, the mask and the current signal that were in
  force when it was entered** (`sigreturn_restores`); a system call with a negative number is taken for an interrupt
  (`negative_number_wrong`).
-/

namespace TextOS.Signal.Frames

open Lib List Function BitVec

/-! ## Contexts -/

/-- The registers of user mode. -/
inductive Reg
  | r15 | r14 | r13 | r12 | r11 | r10 | r9 | r8 | rdi | rsi | rbp | rdx | rcx | rbx | rax
  | rip
  | rflags
  | rsp
deriving DecidableEq

abbrev Regs := Reg → BitVec 64

/-- The fields of `intr_frame_t`. -/
inductive Slot
  | reg (r : Reg)
  | vector
  | errcode
  | cs
  | ss
deriving DecidableEq

/-- The fields in their order; each of them has 8 bytes. -/
def slots : List Slot :=
  [.reg .r15, .reg .r14, .reg .r13, .reg .r12, .reg .r11, .reg .r10, .reg .r9, .reg .r8, .reg .rdi,
  .reg .rsi, .reg .rbp,
    .reg .rdx, .reg .rcx, .reg .rbx, .reg .rax, .vector, .errcode, .reg .rip, .cs, .reg .rflags, .reg .rsp, .ss]

/-- `intr_frame_t`. -/
abbrev IntrFrame := Slot → BitVec 64

/-- `(USER_CODE_SEG << 3) | 3`. -/
def userCs : BitVec 64 := 0x2b

/-- `(USER_DATA_SEG << 3) | 3`. -/
def userSs : BitVec 64 := 0x23

def INT_MSYSCALL : BitVec 64 := 0x81
def SYS_sigreturn : Int := 15

/-- How the kernel is entered: by an interrupt, or by `syscall`, which then has a result. -/
inductive Entry
  | intr (vector errcode : BitVec 64)
  | syscall (ret : BitVec 64)

/-- What `intr_caller` and `msyscall_handler` push. `syscall` has put `rip` and `rflags` in `rcx` and `r11`; the frame
has 0 for them. The result of the call is in `rax` when the signals are looked at. -/
def Entry.frame (r : Regs) : Entry → IntrFrame
  | .intr vector errcode => fun
    | .reg x => r x
    | .vector => vector
    | .errcode => errcode
    | .cs => userCs
    | .ss => userSs
  | .syscall ret => fun
    | .reg .rcx | .reg .r11 => 0
    | .reg .rax => ret
    | .reg x => r x
    | .vector => INT_MSYSCALL
    | .errcode => 2333
    | .cs => userCs
    | .ss => userSs

/-- The second argument of `__handle_signal`: `-1`, or the low half of `rax` before the call. -/
def Entry.nr (r : Regs) : Entry → Int
  | .intr .. => -1
  | .syscall _ => ((r .rax).setWidth 32).toInt

def intrExit (f : IntrFrame) : Regs := fun x => f (.reg x)

/-- `sysretq` takes `rip` and `rflags` from `rcx` and `r11`. -/
def msyscallExit (f : IntrFrame) : Regs
  | .rcx => f (.reg .rip)
  | .r11 => f (.reg .rflags)
  | x => f (.reg x)

def Entry.leave : Entry → IntrFrame → Regs
  | .intr .. => intrExit
  | .syscall _ => msyscallExit

/-- The registers that the user has after the entry, if nothing intervenes. -/
def Entry.inForce (r : Regs) : Entry → Regs
  | .intr .. => r
  | .syscall ret => fun
    | .rcx => r .rip
    | .r11 => r .rflags
    | .rax => ret
    | x => r x

theorem Entry.leave_frame (e : Entry) (r : Regs) : e.leave (e.frame r) = e.inForce r := by
  cases e with
  | intr => rfl
  | syscall =>
    funext x
    cases x <;> rfl

/-! ## Actions -/

/-- `sigaction_t`. -/
structure SigAct where
  handler : BitVec 64
  flags : BitVec 64
  restorer : BitVec 64
  mask : SigSet

def SIG_DFL : BitVec 64 := 0
def SIG_IGN : BitVec 64 := 1
def SA_RESTART : BitVec 64 := 0x10000000
def SA_NODEFER : BitVec 64 := 0x40000000
def SA_RESETHAND : BitVec 64 := 0x80000000

/-- `-EINTR`. -/
def negEINTR : BitVec 64 := -4

/-- `struct signal_ffl`. -/
structure Ffl where
  sysret : Bool
  syscall : Int

/-- The 8 bytes of the structure. -/
def Ffl.word (x : Ffl) : BitVec 64 := BitVec.ofInt 32 x.syscall ++ BitVec.ofNat 32 x.sysret.toNat

def Ffl.ofWord (w : BitVec 64) : Ffl := ⟨w.getLsbD 0, (w.extractLsb' 32 32).toInt⟩

/-- The flags of the frame; `tsk->sframe` is the frame of the call. -/
def signalFfl (act : SigAct) (f : IntrFrame) (nr : Int) : Ffl :=
  if 0 ≤ nr then ⟨true, if f (.reg .rax) = negEINTR ∧ act.flags &&& SA_RESTART ≠ 0 then nr else -1⟩ else ⟨false, -1⟩

/-- `signal_frame_t`, as 64-bit words. -/
def signalFrame (restorer : BitVec 64) (signum sigprv : BitVec 32) (sigmask : SigSet) (ffl : Ffl) (f : IntrFrame) :
    List (BitVec 64) :=
  restorer :: signum.signExtend 64 :: sigprv.signExtend 64 :: sigmask :: ffl.word :: slots.map f

/-! ## The thread -/

/-- How a handler was entered: the entry of the kernel and the registers at that time, and the signal, the mask, the
current signal and the action. -/
structure Saved where
  entry : Entry
  user : Regs
  signum : BitVec 32
  mask : SigSet
  curr : BitVec 32
  act : SigAct

/-- The fields of `task_t` that concern signals, the memory and the registers of the user, and the handlers that have
not returned, the last one first. -/
structure Thread where
  sigpend : SigSet
  sigmask : SigSet
  sigacts : Nat → SigAct
  sigcurr : BitVec 32
  status : Status
  mem : Bytes
  regs : Regs
  saved : List Saved

/-- The handler for a signal is entered. -/
def deliver (t : Thread) (i : Nat) (act : SigAct) (f : IntrFrame) (nr : Int) : Thread × IntrFrame :=
  let frame := f (.reg .rsp) - 216 - 128
  ({ t with
      sigacts := if act.flags &&& SA_RESETHAND ≠ 0 then update t.sigacts i { act with handler := SIG_DFL }
        else t.sigacts
      mem := putQuads t.mem frame.toNat (signalFrame act.restorer (.ofNat 32 i) t.sigcurr t.sigmask
        (signalFfl act f nr) f)
      sigcurr := .ofNat 32 i
      sigmask := t.sigmask ||| (if ~~~act.flags &&& SA_NODEFER ≠ 0 then sigaddset act.mask i else act.mask) },
    update (update (update f (.reg .rdi) (.ofNat 64 i)) (.reg .rip) act.handler) (.reg .rsp) frame)

/-- `sig_def[i](i)`. -/
def defaultStatus (i : Nat) (status : Status) : Status :=
  match sigDef i with
  | none => .fault
  | some .term | some .core => .exited i
  | some _ => status

def handleSignal (t : Thread) (f : IntrFrame) (nr : Int) : Thread × IntrFrame :=
  let pend := t.sigpend &&& ~~~t.sigmask
  if pend = 0#64 then ({ t with sigpend := pend }, f)
  else if sigismember pend SIGKILL then ({ t with sigpend := pend, status := .exited SIGKILL }, f)
  else
    match firstSig pend with
    | none => ({ t with sigpend := pend }, f)
    | some i =>
      let act := t.sigacts i
      if act.handler = SIG_IGN then ({ t with sigpend := sigdelset pend i }, f)
      else if act.handler = SIG_DFL then ({ t with sigpend := sigdelset pend i, status := defaultStatus i t.status }, f)
      else deliver { t with sigpend := sigdelset pend i } i act f nr

def quadAt (m : Bytes) (a : Nat) : BitVec 64 := .ofNat 64 (quad m a)

def slotAddr (a : Nat) (s : Slot) : Nat := a + 8 * slots.idxOf s

/-- The interrupt frame at `a`. -/
def slotsAt (m : Bytes) (a : Nat) : IntrFrame := fun s => quadAt m (slotAddr a s)

def putSlot (m : Bytes) (a : Nat) (s : Slot) (v : BitVec 64) : Bytes := putQuad m (slotAddr a s) v.toNat

def sigreturn (t : Thread) (sframe : IntrFrame) : Thread :=
  let frame := (sframe (.reg .rsp) - 8).toNat
  let iframe := slotsAt t.mem (frame + 40)
  let ffl := Ffl.ofWord (quadAt t.mem (frame + 32))
  if quadAt t.mem (frame + 8) ≠ t.sigcurr.signExtend 64 then { t with status := .panic }
  else if iframe .cs ≠ userCs ∨ iframe .ss ≠ userSs then { t with status := .panic }
  else if (iframe (.reg .rflags)).getLsbD 9 = false then { t with status := .panic }
  else
    let mem :=
      if 0 ≤ ffl.syscall then
        putSlot (putSlot t.mem (frame + 40) (.reg .rip) (iframe (.reg .rip) - 2)) (frame + 40) (.reg .rax)
        (.ofInt 64 ffl.syscall)
      else t.mem
    { t with
      sigcurr := (quadAt t.mem (frame + 16)).setWidth 32
      sigmask := quadAt t.mem (frame + 24)
      mem := mem
      regs := if ffl.sysret then msyscallExit (slotsAt mem (frame + 40)) else intrExit (slotsAt mem (frame + 40))
      saved := t.saved.tail }

/-- The signal whose handler `__handle_signal` enters. -/
def entering (t : Thread) : Option Nat :=
  let pend := t.sigpend &&& ~~~t.sigmask
  if sigismember pend SIGKILL then none
  else (firstSig pend).filter fun i => (t.sigacts i).handler ≠ SIG_IGN ∧ (t.sigacts i).handler ≠ SIG_DFL

/-- The kernel is entered and left. -/
def kernel (t : Thread) (e : Entry) : Thread :=
  if e.nr t.regs = SYS_sigreturn then sigreturn t (e.frame t.regs)
  else
    let (t', f) := handleSignal t (e.frame t.regs) (e.nr t.regs)
    { t' with
      regs := e.leave f
      saved := ((entering t).map fun i => ⟨e, t.regs, .ofNat 32 i, t.sigmask, t.sigcurr,
        t.sigacts i⟩).toList ++ t.saved }

/-- The registers of a program in user mode: interrupts are on. -/
def UserRegs := { r : Regs // (r .rflags).getLsbD 9 = true }

/-- The program goes on, in user mode or with system calls and signals of others that change the fields of the task. -/
inductive Event
  | user (r : UserRegs) (mem : Bytes → Bytes)
  | task (sigpend sigmask : SigSet) (sigacts : Nat → SigAct)
  | enter (e : Entry)

def step (t : Thread) (o : Event) : Option Thread :=
  if t.status = .run then
    match o with
    | .user r mem => some { t with regs := r.1, mem := mem t.mem }
    | .task pend mask acts => some { t with sigpend := pend, sigmask := mask, sigacts := acts }
    | .enter e => some (kernel t e)
  else some t

/-! ## Pending signals -/

def SigAct.action (act : SigAct) : Action where
  handler := if act.handler = SIG_IGN then .ign else if act.handler = SIG_DFL then .dfl else .user
  nodefer := decide (~~~act.flags &&& SA_NODEFER = 0)
  resethand := decide (act.flags &&& SA_RESETHAND ≠ 0)
  mask := act.mask

def Thread.task (t : Thread) (sent : List Nat) (log : List (Nat × SigSet)) : Task :=
  ⟨t.sigpend, t.sigmask, fun i => (t.sigacts i).action, t.sigcurr.toNat, t.status, sent, log⟩

variable {m m' : Bytes} {a i : Nat} {t t' : Thread} {f : IntrFrame} {nr : Int}

/-- Delivery with frames is delivery as the task sees it. -/
theorem deliver_task (hi : i ≤ NSIG) (t : Thread) (act : SigAct) (f : IntrFrame) (nr : Int) (sent : List Nat)
    (log : List (Nat × SigSet)) : (deliver t i act f nr).1.task sent log = enter (t.task sent log) i act.action := by
  have hcurr : (BitVec.ofNat 32 i).toNat = i := by rw [toNat_ofNat, Nat.mod_eq_of_lt (hi.trans_lt (by decide))]
  have hacts : ∀ b : SigAct, (fun j => (update t.sigacts i b j).action) =
      update (fun j => (t.sigacts j).action) i b.action := by
    intro b
    funext j
    by_cases hj : j = i
    · subst hj
      simp
    · simp [hj]
  have hdfl : SigAct.action { act with handler := SIG_DFL } = { act.action with handler := .dfl } := by
    simp [SigAct.action, SIG_DFL, SIG_IGN]
  have hreset : act.action.resethand = decide (act.flags &&& SA_RESETHAND ≠ 0) := rfl
  have hdefer : act.action.nodefer = decide (~~~act.flags &&& SA_NODEFER = 0) := rfl
  have hmask : act.action.mask = act.mask := rfl
  unfold deliver Thread.task enter
  congr 1
  · split_ifs <;> simp_all
  · split_ifs <;> simp_all

/-- **The pending signals are treated as by `TextOS.Signal.handleSignal`.** -/
theorem handleSignal_task (t : Thread) (f : IntrFrame) (nr : Int) (sent : List Nat) (log : List (Nat × SigSet)) :
    (handleSignal t f nr).1.task sent (Signal.handleSignal (t.task sent log)).log =
    Signal.handleSignal (t.task sent log) := by
  unfold handleSignal Signal.handleSignal
  dsimp only [Thread.task]
  split
  · rfl
  split
  · rfl
  cases hf : firstSig (t.sigpend &&& ~~~t.sigmask) with
  | none => rfl
  | some i =>
    dsimp only
    have hi := (sigismember_range (firstSig_eq_some hf)).2
    unfold takeAction
    by_cases hign : (t.sigacts i).handler = SIG_IGN
    · simp [SigAct.action, hign]
    by_cases hdfl : (t.sigacts i).handler = SIG_DFL
    · simp only [SigAct.action, hdfl, defaultStatus, if_neg (show SIG_DFL ≠ SIG_IGN by decide), if_true]
      split <;> simp_all
    rw [if_neg hign, if_neg hdfl]
    have huser : (t.sigacts i).action.handler = .user := by simp [SigAct.action, hign, hdfl]
    rw [huser]
    exact deliver_task hi _ _ f nr sent _

/-! ## A frame in memory -/

theorem mem_slots (s : Slot) : s ∈ slots := by
  cases s with
  | reg r => cases r <;> simp [slots]
  | _ => simp [slots]

theorem slotsAt_putSlot (m : Bytes) (a : Nat) (s : Slot) (v : BitVec 64) :
    slotsAt (putSlot m a s v) a = update (slotsAt m a) s v := by
  funext x
  by_cases hx : x = s
  · subst hx
    rw [update_self, slotsAt, quadAt, putSlot, quad_putQuad, Nat.mod_eq_of_lt v.isLt, ofNat_toNat,
      setWidth_eq]
  have hidx : slots.idxOf x ≠ slots.idxOf s := fun h => hx ((idxOf_inj (mem_slots x)).1 h)
  rw [update_of_ne hx, slotsAt, slotsAt, quadAt, quadAt, putSlot]
  congr 1
  refine quad_congr fun y hy hy' => putQuad_outside m _ _ y ?_
  unfold slotAddr at *
  omega

theorem putSlot_outside (m : Bytes) (a : Nat) (s : Slot) (v : BitVec 64) :
    SameOutside m (putSlot m a s v) a (a + 176) := by
  have hlt : slots.idxOf s < slots.length := idxOf_lt_length_of_mem (mem_slots s)
  have hlen : slots.length = 22 := rfl
  refine (putQuad_outside m _ _).mono ?_ ?_ <;> unfold slotAddr <;> omega

theorem quadAt_of_hasQuads {vs : List (BitVec 64)} (h : HasQuads m a vs) (k : Nat) (hk : k < vs.length) :
    quadAt m (a + 8 * k) = vs[k] := by
  rw [quadAt, h k hk, ofNat_toNat, setWidth_eq]

theorem slotsAt_of_hasQuads {restorer : BitVec 64} {signum sigprv : BitVec 32} {mask : SigSet} {ffl : Ffl}
    (h : HasQuads m a (signalFrame restorer signum sigprv mask ffl f)) : slotsAt m (a + 40) = f := by
  funext s
  have hlt : slots.idxOf s < slots.length := idxOf_lt_length_of_mem (mem_slots s)
  have hq := quadAt_of_hasQuads h (slots.idxOf s + 5) (by simpa [signalFrame] using hlt)
  rw [slotsAt, slotAddr, show a + 40 + 8 * slots.idxOf s = a + 8 * (slots.idxOf s + 5) by omega, hq]
  simp [signalFrame]

theorem Ffl.ofWord_word {x : Ffl} (h : -2 ^ 31 ≤ x.syscall) (h' : x.syscall < 2 ^ 31) : Ffl.ofWord x.word = x := by
  obtain ⟨b, n⟩ := x
  have hbit : (BitVec.ofInt 32 n ++ BitVec.ofNat 32 b.toNat).getLsbD 0 = b := by
    rw [BitVec.getLsbD_append]
    cases b <;> rfl
  have hint : (BitVec.extractLsb' 32 32 (BitVec.ofInt 32 n ++ BitVec.ofNat 32 b.toNat)).toInt = n := by
    rw [BitVec.extractLsb'_append_eq_left, BitVec.toInt_ofInt]
    exact Int.bmod_eq_of_le (by simpa using h) (by simpa using h')
  unfold ofWord word
  rw [hbit, hint]

/-! ## Handlers that have not returned -/

namespace Saved

/-- The interrupt frame of the entry. -/
def frame (c : Saved) : IntrFrame := c.entry.frame c.user

/-- The address of the signal frame. -/
def addr (c : Saved) : Nat := (c.user .rsp - 216 - 128).toNat

/-- The system call that is made again when the handler returns. -/
def restart (c : Saved) : Option Int :=
  match c.entry with
  | .intr .. => none
  | .syscall ret => if ret = negEINTR ∧ c.act.flags &&& SA_RESTART ≠ 0 then some (c.entry.nr c.user) else none

/-- What the handler has to go back to. Where the call is made again, `rip` is that of the `syscall` instruction and
`rax` has the number of the call; `sysretq` leaves `rip` in `rcx`. -/
def restored (c : Saved) : Regs :=
  match c.restart with
  | none => c.entry.inForce c.user
  | some nr => fun
    | .rip | .rcx => c.user .rip - 2
    | .rax => .ofInt 64 nr
    | x => c.entry.inForce c.user x

def image (c : Saved) : List (BitVec 64) :=
  signalFrame c.act.restorer c.signum c.curr c.mask (signalFfl c.act c.frame (c.entry.nr c.user)) c.frame

end Saved

/-- A system call has a number that is not negative. -/
def Entry.Numbered (r : Regs) (e : Entry) : Prop :=
  match e with
  | .intr .. => True
  | .syscall _ => 0 ≤ e.nr r

/-- The user was in user mode, with room for the frame, and did no system call with a negative number. -/
structure Saved.Ok (c : Saved) : Prop where
  flag : (c.user .rflags).getLsbD 9 = true
  room : 344 ≤ (c.user .rsp).toNat
  numbered : c.entry.Numbered c.user

/-- The frames of the handlers lie on the stack, that of the last one lowest. -/
def Stacked (m : Bytes) : BitVec 32 → List Saved → Prop
  | _, [] => True
  | curr, c :: rest =>
    curr = c.signum ∧ c.Ok ∧ HasQuads m c.addr c.image ∧ (∀ d ∈ rest, c.addr + 344 ≤ d.addr) ∧ Stacked m c.curr rest

variable {c : Saved} {e : Entry} {saved : List Saved} {curr : BitVec 32}

theorem length_image (c : Saved) : c.image.length = 27 := rfl

theorem Saved.Ok.addr_add (h : c.Ok) : c.addr + 344 = (c.user .rsp).toNat := by
  have := h.room
  unfold Saved.addr
  bv_omega

theorem Stacked.congr (h : Stacked m curr saved) (hm : ∀ c ∈ saved, ∀ k < 216, m' (c.addr + k) = m (c.addr + k)) :
    Stacked m' curr saved := by
  induction saved generalizing curr with
  | nil => trivial
  | cons c rest ih =>
    obtain ⟨hcurr, hok, hq, hbelow, hrest⟩ := h
    refine ⟨hcurr, hok, hq.congr fun x hx hx' => ?_, hbelow, ih hrest fun d hd => hm d (mem_cons_of_mem c hd)⟩
    obtain ⟨k, rfl⟩ := Nat.exists_eq_add_of_le hx
    rw [length_image] at hx'
    exact hm c mem_cons_self k (by omega)

theorem Entry.frame_rsp (e : Entry) (r : Regs) : e.frame r (.reg .rsp) = r .rsp := by cases e <;> rfl

theorem Entry.frame_rflags (e : Entry) (r : Regs) : e.frame r (.reg .rflags) = r .rflags := by cases e <;> rfl

theorem Entry.leave_rflags (e : Entry) (f : IntrFrame) : e.leave f .rflags = f (.reg .rflags) := by cases e <;> rfl

theorem nr_range (e : Entry) (r : Regs) : -2 ^ 31 ≤ e.nr r ∧ e.nr r < 2 ^ 31 := by
  cases e with
  | intr => simp [Entry.nr]
  | syscall ret => exact ⟨le_toInt _, toInt_lt⟩

theorem ffl_ofWord (act : SigAct) (f : IntrFrame) (e : Entry) (r : Regs) :
    Ffl.ofWord (signalFfl act f (e.nr r)).word = signalFfl act f (e.nr r) := by
  have := nr_range e r
  apply Ffl.ofWord_word <;> unfold signalFfl <;> split_ifs <;> dsimp only <;> omega

/-! ## The way back -/

/-- The interrupt frame as `sigreturn` changes it and the way out that it takes, together. -/
theorem Saved.Ok.leave_restored (h : c.Ok) : (let ffl := signalFfl c.act c.frame (c.entry.nr c.user)
     let iframe := if 0 ≤ ffl.syscall then update (update c.frame (.reg .rip) (c.frame (.reg .rip) - 2))
        (.reg .rax) (.ofInt 64 ffl.syscall) else c.frame
     if ffl.sysret then msyscallExit iframe else intrExit iframe) = c.restored := by
  obtain ⟨entry, user, signum, mask, prev, act⟩ := c
  have hnr := h.numbered
  cases entry with
  | intr vector errcode => rfl
  | syscall ret =>
    change 0 ≤ Entry.nr user (.syscall ret) at hnr
    unfold Saved.restored Saved.restart Saved.frame signalFfl
    dsimp only
    rw [if_pos hnr, show Entry.frame user (.syscall ret) (.reg .rax) = ret from rfl]
    by_cases hre : ret = negEINTR ∧ act.flags &&& SA_RESTART ≠ 0
    · rw [if_pos hre, if_pos hnr, if_pos hre]
      funext x
      cases x <;> rfl
    · rw [if_neg hre, if_neg hre]
      exact Entry.leave_frame (.syscall ret) user

/-- `sigreturn` reads back what delivery saved. -/
theorem sigreturn_eq (hcurr : t.sigcurr = c.signum) (hok : c.Ok) (hq : HasQuads t.mem c.addr c.image)
    (hrsp : f (.reg .rsp) = .ofNat 64 (c.addr + 8)) : ∃ mem, SameOutside t.mem mem c.addr (c.addr + 216) ∧
      sigreturn t f = { t with sigcurr := c.curr, sigmask := c.mask, mem := mem, regs := c.restored,
                               saved := t.saved.tail } := by
  have hframe : (f (.reg .rsp) - 8).toNat = c.addr := by
    have := hok.addr_add
    have := (c.user .rsp).isLt
    bv_omega
  have hiframe : slotsAt t.mem (c.addr + 40) = c.frame := slotsAt_of_hasQuads hq
  have hffl : Ffl.ofWord (quadAt t.mem (c.addr + 32)) = signalFfl c.act c.frame (c.entry.nr c.user) := by
    rw [quadAt_of_hasQuads hq 4 (by rw [length_image]; decide)]
    exact ffl_ofWord c.act c.frame c.entry c.user
  have hsignum : quadAt t.mem (c.addr + 8) = c.signum.signExtend 64 :=
    quadAt_of_hasQuads hq 1 (by rw [length_image]; decide)
  have hprev : quadAt t.mem (c.addr + 16) = c.curr.signExtend 64 :=
    quadAt_of_hasQuads hq 2 (by rw [length_image]; decide)
  have hmask : quadAt t.mem (c.addr + 24) = c.mask := quadAt_of_hasQuads hq 3 (by rw [length_image]; decide)
  have hsegs : ¬ (c.frame .cs ≠ userCs ∨ c.frame .ss ≠ userSs) := by
    unfold Saved.frame
    cases c.entry <;> simp [Entry.frame]
  have hflag : ¬ (c.frame (.reg .rflags)).getLsbD 9 = false := by
    rw [Saved.frame, Entry.frame_rflags, hok.flag]
    nofun
  unfold sigreturn
  dsimp only
  rw [hframe, hsignum, hcurr, if_neg (not_not.2 rfl), hiframe, if_neg hsegs, if_neg hflag, hffl, hprev, hmask,
    ← hok.leave_restored]
  dsimp only
  have hwidth : (c.curr.signExtend 64).setWidth 32 = c.curr := by
    refine eq_of_getLsbD_eq fun k hk => ?_
    rw [getLsbD_setWidth, getLsbD_signExtend, if_pos hk]
    simp [hk, show k < 64 by omega]
  rw [hwidth]
  have hout : ∀ v w, SameOutside t.mem (putSlot (putSlot t.mem (c.addr + 40) (.reg .rip) v) (c.addr + 40) (.reg .rax) w)
      c.addr (c.addr + 216) := fun v w =>
    ((putSlot_outside _ _ _ v).mono (by omega) (by omega)).trans ((putSlot_outside _ _ _ w).mono (by omega) (by omega))
  split
  · exact ⟨_, hout _ _, by rw [slotsAt_putSlot, slotsAt_putSlot, hiframe]⟩
  · exact ⟨t.mem, .refl _ _ _, by rw [hiframe]⟩

/-! ## Entering a handler -/

/-- A signal with a handler is delivered. -/
theorem handleSignal_of_entering (h : entering t = some i) (f : IntrFrame) (nr : Int) : handleSignal t f nr =
      deliver { t with sigpend := sigdelset (t.sigpend &&& ~~~t.sigmask) i } i (t.sigacts i) f nr := by
  unfold entering at h
  dsimp only at h
  split at h
  · cases h
  next hkill =>
    obtain ⟨hf, hh⟩ := Option.filter_eq_some_iff.1 h
    obtain ⟨hign, hdfl⟩ := of_decide_eq_true hh
    have hne : t.sigpend &&& ~~~t.sigmask ≠ 0#64 := by
      intro h0
      have hmem := firstSig_eq_some hf
      rw [h0, sigismember, getLsbD_zero, Bool.and_false] at hmem
      cases hmem
    unfold handleSignal
    rw [if_neg hne, if_neg hkill, hf]
    dsimp only
    rw [if_neg hign, if_neg hdfl]

/-- Without a handler to enter, the frame stays. -/
theorem handleSignal_of_not_entering (h : entering t = none) (f : IntrFrame) (nr : Int) :
    ∃ pend status, handleSignal t f nr = ({ t with sigpend := pend, status := status }, f) := by
  unfold entering at h
  unfold handleSignal
  dsimp only at h ⊢
  split
  · exact ⟨_, _, rfl⟩
  split
  · exact ⟨_, _, rfl⟩
  next hkill =>
    cases hf : firstSig (t.sigpend &&& ~~~t.sigmask) with
    | none => exact ⟨_, _, rfl⟩
    | some i =>
      split
      · exact ⟨_, _, rfl⟩
      split
      · exact ⟨_, _, rfl⟩
      · simp_all

/-- A delivery stacks its context below the older ones. -/
theorem Stacked.push (h : Stacked m curr saved) (hok : c.Ok) (hcurr : c.curr = curr)
    (hbelow : ∀ d ∈ saved.head?, (c.user .rsp).toNat ≤ d.addr) :
    Stacked (putQuads m c.addr c.image) c.signum (c :: saved) := by
  have hall : ∀ d ∈ saved, c.addr + 344 ≤ d.addr := by
    rw [hok.addr_add]
    cases saved with
    | nil => nofun
    | cons d rest =>
      have hd := hbelow d rfl
      have hrest := h.2.2.2.1
      intro b hb
      rcases mem_cons.1 hb with rfl | hb
      · exact hd
      · exact (hd.trans (Nat.le_add_right _ 344)).trans (hrest b hb)
  have hout := putQuads_outside c.image m c.addr
  rw [length_image] at hout
  refine ⟨rfl, hok, hasQuads_putQuads _ _ _, hall, ?_⟩
  rw [hcurr]
  refine h.congr fun d hd k hk => hout _ (.inr ?_)
  have := hall d hd
  omega

/-- Handlers are entered at a stack pointer at or below the frame of the last one, and not from a system call with a
negative number; programs leave the frames alone; the last handler returns to the restorer first, with the stack pointer
behind the address of the restorer. -/
def Nested (t : Thread) : Event → Prop
  | .user _ mem => ∀ c ∈ t.saved, ∀ k < 216, mem t.mem (c.addr + k) = t.mem (c.addr + k)
  | .task .. => True
  | .enter e =>
    if e.nr t.regs = SYS_sigreturn then ∃ c ∈ t.saved.head?, t.regs .rsp = .ofNat 64 (c.addr + 8)
    else (entering t).isSome = true → 344 ≤ (t.regs .rsp).toNat ∧ (∀ c ∈ t.saved.head?, (t.regs .rsp).toNat ≤ c.addr) ∧
      e.Numbered t.regs

instance (r : Regs) (e : Entry) : Decidable (e.Numbered r) := by
  unfold Entry.Numbered
  split <;> infer_instance

instance (t : Thread) (o : Event) : Decidable (Nested t o) := by
  unfold Nested
  split <;> infer_instance

/-- The program is in user mode, and the frames of its handlers are on its stack. -/
def Inv (t : Thread) : Prop := t.status = .run → (t.regs .rflags).getLsbD 9 = true ∧ Stacked t.mem t.sigcurr t.saved

theorem Inv.sigreturn {rest : List Saved} (h : Inv t) (hrun : t.status = .run) (hc : t.saved = c :: rest)
    (hnr : e.nr t.regs = SYS_sigreturn) (hrsp : t.regs .rsp = .ofNat 64 (c.addr + 8)) :
    ∃ mem, SameOutside t.mem mem c.addr (c.addr + 216) ∧ kernel t e =
      { t with sigcurr := c.curr, sigmask := c.mask, mem := mem, regs := c.restored, saved := rest } := by
  have hst := (h hrun).2
  rw [hc] at hst
  obtain ⟨hcurr, hok, hq, -, -⟩ := hst
  obtain ⟨mem, hmem, heq⟩ := sigreturn_eq (f := e.frame t.regs) hcurr hok hq (by rw [Entry.frame_rsp, hrsp])
  refine ⟨mem, hmem, ?_⟩
  rw [kernel, if_pos hnr, heq, hc]
  rfl

theorem Saved.Ok.restored_rflags (h : c.Ok) : (c.restored .rflags).getLsbD 9 = true := by
  have hrflags : c.restored .rflags = c.user .rflags := by
    unfold Saved.restored
    cases c.restart <;> cases c.entry <;> rfl
  rw [hrflags, h.flag]

/-- An entry to the kernel keeps the saved contexts. -/
theorem Inv.kernel (h : Inv t) (hrun : t.status = .run) (hn : Nested t (.enter e)) : Inv (kernel t e) := by
  obtain ⟨hflag, hst⟩ := h hrun
  by_cases hnr : e.nr t.regs = SYS_sigreturn
  · rw [Nested, if_pos hnr] at hn
    obtain ⟨c, hc, hrsp⟩ := hn
    obtain ⟨rest, hsaved⟩ : ∃ rest, t.saved = c :: rest := head?_eq_some_iff.1 hc
    obtain ⟨mem, hmem, heq⟩ := h.sigreturn hrun hsaved hnr hrsp
    rw [hsaved] at hst
    obtain ⟨-, hok, -, hbelow, hrest⟩ := hst
    intro
    rw [heq]
    refine ⟨hok.restored_rflags, hrest.congr fun d hd k _ => hmem _ (.inr ?_)⟩
    have := hbelow d hd
    omega
  · rw [Nested, if_neg hnr] at hn
    unfold Frames.kernel
    rw [if_neg hnr]
    cases hent : entering t with
    | none =>
      obtain ⟨pend, status, heq⟩ := handleSignal_of_not_entering hent (e.frame t.regs) (e.nr t.regs)
      rw [heq]
      intro
      refine ⟨?_, hst⟩
      dsimp only
      cases e <;> exact hflag
    | some i =>
      obtain ⟨hroom, hbelow, hnum⟩ := hn (by rw [hent]; rfl)
      have hpush := hst.push (c := ⟨e, t.regs, .ofNat 32 i, t.sigmask, t.sigcurr, t.sigacts i⟩) ⟨hflag, hroom,
        hnum⟩ rfl hbelow
      rw [handleSignal_of_entering hent, deliver, Entry.frame_rsp]
      intro
      refine ⟨?_, hpush⟩
      dsimp only
      rw [Entry.leave_rflags]
      simpa [Entry.frame_rflags] using hflag

/-- One event keeps the saved contexts. -/
theorem Inv.step {o : Event} (h : Inv t) (hn : Nested t o) (hs : step t o = some t') : Inv t' := by
  unfold Frames.step at hs
  split at hs
  next hrun =>
    cases o with
    | user r mem =>
      cases hs
      exact fun _ => ⟨r.2, (h hrun).2.congr hn⟩
    | task pend mask acts =>
      cases hs
      exact fun _ => h hrun
    | enter e =>
      cases hs
      exact h.kernel hrun hn
  next =>
    cases hs
    exact h

/-- **Nested handlers**: from a program in user mode without handlers, in every state that is reached by a nested run,
the last handler that has not returned, when it returns to the restorer, gets back the registers, the mask and the
current signal in force when it was entered (`rip` and `rax` for the same call again, if it is to be made again), and
the handler before it is the last one then. -/
theorem sigreturn_restores (t₀ t : Thread) (hsaved : t₀.saved = []) (hflag : (t₀.regs .rflags).getLsbD 9 = true)
    (os : List Event) (hos : Meets step Nested t₀ os) (hr : run step t₀ os = some t)
    (hrun : t.status = .run) (c : Saved) (rest : List Saved) (hc : t.saved = c :: rest)
    (hrsp : t.regs .rsp = .ofNat 64 (c.addr + 8)) (e : Entry) (hnr : e.nr t.regs = SYS_sigreturn) :
    ∃ t', step t (.enter e) = some t' ∧ t'.status = .run ∧ t'.regs = c.restored ∧ t'.sigmask = c.mask ∧
      t'.sigcurr = c.curr ∧ t'.saved = rest := by
  have h0 : Inv t₀ := by
    intro
    rw [hsaved]
    exact ⟨hflag, trivial⟩
  have h : Inv t := run_meets_inv (fun _ _ _ hi hn hs => hi.step hn hs) h0 hos hr
  obtain ⟨mem, -, heq⟩ := h.sigreturn hrun hc hnr hrsp
  refine ⟨_, by rw [step, if_pos hrun], ?_⟩
  rw [heq]
  exact ⟨hrun, rfl, rfl, rfl, rfl⟩

/-! ## Examples of runs -/

/-- Registers in user mode. -/
def regsAt (rip rsp rax : BitVec 64) : UserRegs :=
  ⟨fun
    | .rip => rip
    | .rsp => rsp
    | .rax => rax
    | .rflags => 0x202
    | _ => 7, by dsimp only; decide⟩

/-- Handlers for all signals, which let system calls be made again. -/
def handlers : Nat → SigAct := fun i => ⟨0x4000 + .ofNat 64 i, SA_RESTART, 0x5000, 0⟩

/-- A program in user mode without handlers that run. -/
def idle : Thread := ⟨0, 0, handlers, 0, .run, fun _ => 0, (regsAt 0x1000 0x8000 0).1, []⟩

/-- Signal 10 interrupts system call 0, signal 12 interrupts its handler; both handlers return. -/
def nestedRun : List Event :=
  [.task (sigaddset 0 10) 0 handlers, .enter (.syscall negEINTR), .task (sigaddset 0 12) 1 handlers,
    .user (regsAt 0x4100 (0x8000 - 400) 3) id, .enter (.intr 32 2333),
    .user (regsAt 0x5007 (0x8000 - 400 - 344 + 8) 15) id,
    .enter (.syscall 0), .user (regsAt 0x5007 (0x8000 - 344 + 8) 15) id]

/-- What `Nested` asks for the entries of the kernel. -/
def NestedEntry (t : Thread) : Event → Prop
  | .enter e => Nested t (.enter e)
  | _ => True

instance (t : Thread) (o : Event) : Decidable (NestedEntry t o) := by
  unfold NestedEntry
  split <;> infer_instance

theorem nestedRun_meets : Meets step Nested idle nestedRun := by
  have hentry : Meets step NestedEntry idle nestedRun := by decide +kernel
  refine hentry.imp fun o ho t h => ?_
  cases o with
  | enter e => exact h
  | task => trivial
  | user r mem =>
    have hid : mem = id := by
      simp only [nestedRun, mem_cons, reduceCtorEq, Event.user.injEq, not_mem_nil, or_false, false_or] at ho
      rcases ho with ⟨-, h⟩ | ⟨-, h⟩ | ⟨-, h⟩ <;> exact h
    rw [hid]
    exact fun _ _ _ _ => rfl

theorem sigreturn_restores_nestedRun : ∃ t t', run step idle nestedRun = some t ∧
    step t (.enter (.syscall 0)) = some t' ∧ t'.status = .run ∧ t'.regs .rip = 0x1000 - 2 ∧ t'.regs .rsp = 0x8000 ∧
    t'.regs .rax = 0 ∧ t'.regs .rbx = 7 ∧ t'.sigmask = 0 ∧ t'.sigcurr = 0 ∧ t'.saved = [] := by
  obtain ⟨t, hr⟩ : ∃ t, run step idle nestedRun = some t := ⟨_, rfl⟩
  have hval : (run step idle nestedRun).map (fun t => (t.status, t.saved.length, t.regs .rsp,
    Entry.nr t.regs (.syscall 0))) =
      some (.run, 1, 0x8000 - 344 + 8, SYS_sigreturn) := by decide +kernel
  have htop : ∀ t ∈ run step idle nestedRun, ∀ c ∈ t.saved, c.addr + 8 = 0x8000 - 344 + 8 ∧
    c.restored .rip = 0x1000 - 2 ∧
      c.restored .rsp = 0x8000 ∧ c.restored .rax = 0 ∧ c.restored .rbx = 7 ∧ c.mask = 0 ∧ c.curr = 0 := by
        decide +kernel
  rw [hr] at hval
  obtain ⟨hrun, hlen, hrsp, hnr⟩ : t.status = .run ∧ t.saved.length = 1 ∧ t.regs .rsp = 0x8000 - 344 + 8 ∧
      Entry.nr t.regs (.syscall 0) = SYS_sigreturn := by simpa using hval
  obtain ⟨c, hc⟩ := length_eq_one_iff.1 hlen
  obtain ⟨haddr, hrip, hsp, hrax, hrbx, hmask, hcurr⟩ := htop t hr c (by rw [hc]; exact mem_singleton_self c)
  obtain ⟨t', hs, hrun', hregs, hm, hcu, hsaved⟩ := sigreturn_restores idle t rfl rfl nestedRun
    nestedRun_meets hr hrun c [] hc (by rw [hrsp, haddr]; rfl) (.syscall 0) hnr
  exact ⟨t, t', hr, hs, hrun', by rw [hregs, hrip], by rw [hregs, hsp], by rw [hregs, hrax], by rw [hregs, hrbx],
    hm.trans hmask, hcu.trans hcurr, hsaved⟩

/-- System call `-1` is interrupted by signal 10: after it, and before the handler, `rcx` and `r11` have `rip` and
`rflags`; after the handler they have 0. -/
theorem negative_number_wrong : let r := (regsAt 0x1000 0x8000 (-1)).1
    (Entry.inForce r (.syscall (-38)) .rcx, Entry.inForce r (.syscall (-38)) .r11) = (0x1000, 0x202) ∧
    (run step idle [.task (sigaddset 0 10) 0 handlers, .user (regsAt 0x1000 0x8000 (-1)) id, .enter (.syscall (-38)),
        .user (regsAt 0x5007 (0x8000 - 344 + 8) 15) id, .enter (.syscall 0)]).map
      (fun t => (t.status, t.saved.length, t.regs .rip, t.regs .rflags, t.regs .rcx, t.regs .r11)) =
      some (.run, 0, 0x1000, 0x202, 0, 0) := by
  decide +kernel

end TextOS.Signal.Frames
