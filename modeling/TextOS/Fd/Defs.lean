import TextOS.Lib.Refs
import TextOS.Lib.Run

/-!
# Open files: `kernel/file.c`, `kernel/net/socket.c`, `kernel/task.c`

A `file_t` is known by a number that `malloc` has not given out before; its `refer` is what was in the memory until the
call sets it. Files share nodes: `vfs_open` gives the node that the tree has for a path. A call gives `none` when it
uses memory that it does not own: an index outside of `files`, a `file_t` or a node that has been freed, or the node of
a `file_t` that has none. What the calls return to the task is left out, and so are named FIFOs.
-/

namespace TextOS.Fd

open Lib Function

def MAX_FILE : Nat := 32

/-! ## Nodes -/

/-- A `node_t`. -/
structure Node where
  /-- The node and the directories above it, by numbers that no node had before; a pipe or a socket is in no tree. -/
  path : List Nat
  /-- `close` gives the node to `vfs_release`, as `fat32_close` and `procfs_close` do; those of `tmpfs`, `minix`,
  devices, pipes and sockets do not. -/
  release : Bool

/-- `vfs_release` frees the nodes below a directory with it. -/
def Node.Freed (freed : List Nat) (n : Node) : Prop := ∃ d ∈ n.path, d ∈ freed

/-- When `n` is closed, `m` is freed. -/
def Node.Takes (n m : Node) : Prop := n.release = true ∧ ∃ d ∈ n.path.head?, d ∈ m.path

instance (freed : List Nat) (n : Node) : Decidable (n.Freed freed) := inferInstanceAs (Decidable (∃ _ ∈ _, _))

instance (n m : Node) : Decidable (n.Takes m) := inferInstanceAs (Decidable (_ ∧ ∃ _ ∈ _, _))

/-- The tasks with their `files`, and all `file_t`. -/
structure Sys where
  live : Nat → Bool
  /-- `files[fd]` of a task. -/
  slot : Nat × Nat → Option Nat
  /-- `refer` of each `file_t` in memory. -/
  refer : Nat → Option Int
  next : Nat
  /-- `node` of each `file_t` that got one. -/
  node : Nat → Node
  /-- The nodes that `vfs_release` was called for. -/
  freed : List Nat
  /-- The `file_t` that got a node. -/
  opened : List Nat
  /-- The `file_t` whose node has been closed, the last one first. -/
  released : List Nat

/-! ## Descriptors -/

/-- `fd_get`: the first free descriptor from `min` on. -/
def fdGet (s : Sys) (t min : Nat) : Option Nat :=
  (List.range MAX_FILE).find? fun i => decide (min ≤ i) && (s.slot (t, i)).isNone

/-- `fd_verify`, with the file. -/
def fdVerify (s : Sys) (t : Nat) (fd : Int) : Option Nat :=
  if fd < 0 ∨ MAX_FILE ≤ fd then none else s.slot (t, fd.toNat)

/-- A new `file_t` at a descriptor; `junk` is what was in the memory. -/
def addFile (s : Sys) (x : Nat × Nat) (junk : Int) : Sys :=
  { s with
    slot := update s.slot x (some s.next)
    refer := update s.refer s.next (some junk)
    next := s.next + 1 }

/-- `file_get`: `mem` is what was in the memory that `malloc` gives, `none` if there is none. Without a free descriptor
`files[-EMFILE]` is written. -/
def fileGet (s : Sys) (t : Nat) (min : Int) (mem : Option Int) : Option (Sys × Option (Nat × Nat)) :=
  if min < 0 then none
  else
    match fdGet s t min.toNat, mem with
    | none, _ => none
    | some _, none => some (s, none)
    | some fd, some junk => some (addFile s (t, fd) junk, some (fd, s.next))

def filePut (s : Sys) (t fd : Nat) : Sys :=
  match s.slot (t, fd) with
  | none => s
  | some f => { s with slot := update s.slot (t, fd) none, refer := update s.refer f none }

/-- A file gets its node and its first reference. -/
def setOpen (s : Sys) (f : Nat) (n : Node) : Sys :=
  { s with refer := update s.refer f (some 1), node := update s.node f n, opened := f :: s.opened }

def vfsClose (s : Sys) (n : Node) : Option Sys :=
  if n.Freed s.freed then none
  else if n.release then some { s with freed := n.path.head?.toList ++ s.freed }
  else some s

def fileDecRef (s : Sys) (f : Nat) : Option Sys :=
  match s.refer f with
  | none => none
  | some r =>
    if r - 1 > 0 then some { s with refer := update s.refer f (some (r - 1)) }
    else if f ∈ s.opened then
      (vfsClose s (s.node f)).map fun s => { s with refer := update s.refer f none, released := f :: s.released }
    else none

/-! ## System calls -/

/-- `vfs_open` finds no node that has been freed: `vfs_release` takes it out of the tree. -/
def found (s : Sys) (res : Option (Node × Bool)) : Option (Node × Bool) :=
  res.filter fun r => !decide (r.1.Freed s.freed)

/-- `open`; `res` is the node that `vfs_open` gives, if it succeeds, and whether the flags are right, without which the
node is closed. -/
def openFile (s : Sys) (t : Nat) (mem : Option Int) (res : Option (Node × Bool)) : Option Sys :=
  (fileGet s t 0 mem).bind fun
    | (s, none) => some s
    | (s, some (fd, f)) =>
      match found s res with
      | none => some (filePut s t fd)
      | some (n, true) => some (setOpen s f n)
      | some (n, false) => (vfsClose s n).map fun s => filePut s t fd

def close (s : Sys) (t : Nat) (fd : Int) : Option Sys :=
  match fdVerify s t fd with
  | none => some s
  | some f => (fileDecRef s f).map fun s => { s with slot := update s.slot (t, fd.toNat) none }

def dup2 (s : Sys) (t : Nat) (old new : Int) : Option Sys :=
  -- `ft[old]` is read before `fd_verify`
  if old < 0 ∨ MAX_FILE ≤ old then none
  else
    match fdVerify s t old with
    | none => some s
    | some f =>
      if old = new then some s
      else if new < 0 ∨ MAX_FILE ≤ new then none
      else
        (if (s.slot (t, new.toNat)).isSome then close s t new else some s).bind fun s =>
          (s.refer f).map fun r =>
            { s with refer := update s.refer f (some (r + 1)),
                     slot := update s.slot (t, new.toNat) (some f) }

def dup (s : Sys) (t : Nat) (fd : Int) : Option Sys :=
  match fdGet s t 0 with
  | none => some s
  | some new => dup2 s t fd new

/-- `fcntl` with `F_DUPFD`: it makes a new file for the new descriptor, which `dup2` closes. -/
def fcntlDupfd (s : Sys) (t : Nat) (fd arg : Int) (mem : Option Int) : Option Sys :=
  match fdVerify s t fd with
  | none => some s
  | some _ =>
    (fileGet s t arg mem).bind fun
      | (s, none) => some s
      | (s, some (newfd, _)) => dup2 s t fd newfd

/-- The node of a pipe or a socket. -/
def anon : Node := ⟨[], false⟩

/-- `pipe`; `ok` says that there is memory for the node. -/
def pipe (s : Sys) (t : Nat) (mem₀ mem₁ : Option Int) (ok : Bool) : Option Sys :=
  (fileGet s t 0 mem₀).bind fun
    | (s, none) => some s
    | (s, some (fd₀, f₀)) =>
      (fileGet s t 0 mem₁).map fun
        | (s, none) => filePut s t fd₀
        | (s, some (fd₁, f₁)) =>
          if ok then setOpen (setOpen s f₀ anon) f₁ anon else filePut (filePut s t fd₁) t fd₀

/-- `socket_makefd`: the file gets a node, but `refer` is not set. `ok` says that there is memory for the node, which is
not checked. -/
def socket (s : Sys) (t : Nat) (mem : Option Int) (ok : Bool) : Option Sys :=
  (fileGet s t 0 mem).bind fun
    | (s, none) => some s
    | (s, some (_, f)) =>
      if ok then some { s with node := update s.node f anon, opened := f :: s.opened } else none

/-- One round of `fork_fd`. -/
def forkFd (t c : Nat) (s : Sys) (i : Nat) : Option Sys :=
  match s.slot (t, i) with
  | none => some { s with slot := update s.slot (c, i) none }
  | some f => (s.refer f).map fun r =>
      { s with refer := update s.refer f (some (r + 1)), slot := update s.slot (c, i) (some f) }

/-- `task_fork`; `c` is the place of the child. -/
def taskFork (s : Sys) (t c : Nat) : Option Sys :=
  (run (forkFd t c) s (List.range MAX_FILE)).map fun s => { s with live := update s.live c true }

/-- One round of `task_destroy`. -/
def destroyFd (c : Nat) (s : Sys) (i : Nat) : Option Sys :=
  match s.slot (c, i) with
  | none => some s
  | some f => fileDecRef s f

/-- `task_destroy`, after which the place of the task is free. -/
def taskDestroy (s : Sys) (c : Nat) : Option Sys :=
  (run (destroyFd c) s (List.range MAX_FILE)).map fun s =>
    { s with live := update s.live c false, slot := fun x => if x.1 = c then none else s.slot x }

inductive Call
  | openFile (mem : Option Int) (res : Option (Node × Bool))
  | close (fd : Int)
  | dup (fd : Int)
  | dup2 (old new : Int)
  | dupfd (fd arg : Int) (mem : Option Int)
  | pipe (mem₀ mem₁ : Option Int) (ok : Bool)
  | socket (mem : Option Int) (ok : Bool)
  | fork (c : Nat)
  | destroy

/-- A call of the task `t`, or its end. Nothing happens without such a task, or without a free place for a child. -/
def step (N : Nat) (s : Sys) (o : Nat × Call) : Option Sys :=
  if s.live o.1 = true then
    match o.2 with
    | .openFile mem res => openFile s o.1 mem res
    | .close fd => close s o.1 fd
    | .dup fd => dup s o.1 fd
    | .dup2 old new => dup2 s o.1 old new
    | .dupfd fd arg mem => fcntlDupfd s o.1 fd arg mem
    | .pipe mem₀ mem₁ ok => pipe s o.1 mem₀ mem₁ ok
    | .socket mem ok => socket s o.1 mem ok
    | .fork c => if c < N ∧ s.live c = false then taskFork s o.1 c else some s
    | .destroy => taskDestroy s o.1
  else some s

end TextOS.Fd
