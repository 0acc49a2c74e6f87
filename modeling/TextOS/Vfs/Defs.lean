import TextOS.Lib.Fields

/-!
# Opening a path: `kernel/fs/vopenwalk.c`

Nodes are numbered. A directory has the nodes that are registered below it (`child`) and, in a file system on a disk,
its entries (`ents`); a node whose entry was not opened yet stands in the table as it is when it is loaded. The `open`
operations of tmpfs, minix and fat32 are modelled; a link is not followed, opening one has no result here.
-/

namespace TextOS.Vfs

open Lib Function

/-! ## Constants -/

def EPERM : Int := 1
def ENOENT : Int := 2
def EACCES : Int := 13
def ENOTDIR : Int := 20
def EISDIR : Int := 21
def ENOSPC : Int := 28
def ENAMETOOLONG : Int := 36
def ELOOP : Int := 40

def S_IFMT : Nat := 0o170000
def S_IFDIR : Nat := 0o040000
def S_IFREG : Nat := 0o100000
def S_IFLNK : Nat := 0o120000

def O_ACCMODE : Nat := 0o3
def O_RDONLY : Nat := 0o0
def O_WRONLY : Nat := 0o1
def O_RDWR : Nat := 0o2
def O_CREAT : Nat := 0o100
def O_DIRECTORY : Nat := 0o200000
def O_NOFOLLOW : Nat := 0o400000

def FS_GAIN : Nat := 2 ^ 32
def FS_GAINMNT : Nat := 2 ^ 33
def FS_GAINLNK : Nat := 2 ^ 34
def FS_NOPCTX : Nat := 2 ^ 35

def MAY_READ : Nat := 1
def MAY_WRITE : Nat := 2
def MAY_EXEC : Nat := 4

/-- `args & flag`. -/
def has (args flag : Nat) : Bool := args &&& flag ≠ 0

/-- `mode & ~mask` of an `unsigned`. -/
def clearBits (mode mask : Nat) : Nat := mode &&& (0xFFFFFFFF ^^^ mask)

/-- `S_ISDIR`. -/
def isDir (mode : Nat) : Bool := mode &&& S_IFMT = S_IFDIR

/-- `S_ISLNK`. -/
def isLnk (mode : Nat) : Bool := mode &&& S_IFMT = S_IFLNK

/-! ## Nodes -/

/-- The file system of a superblock. -/
inductive Fs
  | tmpfs
  | minix1
  | minix3
  | fat32
deriving DecidableEq

/-- `MAX_FILENAME` of minix. -/
def Fs.maxFilename : Fs → Nat
  | .minix1 => 14
  | _ => 60

/-- The number of group ids that an inode of minix can hold. -/
def Fs.gids : Fs → Nat
  | .minix1 => 2 ^ 8
  | _ => 2 ^ 16

/-- `node_t`; `child` are the nodes of the list, `mnt` is `FSA_MNT`, `pctx` is what `_init_pctx` returns, zero if there
is none. -/
structure Node where
  name : List Char
  mode : Nat
  uid : Nat
  gid : Nat
  parent : Nat
  child : List Nat
  ents : List Nat
  mnt : Bool
  fs : Fs
  pctx : Int

/-- What is left on a minix volume: whether there is an inode, a place for an entry and a zone. -/
structure Space where
  ino : Bool
  ent : Bool
  zone : Bool

/-- `protcap` of fat32. -/
structure Protcap where
  dmask : Nat
  fmask : Nat
  uid : Nat
  gid : Nat

/-- All nodes; `next` is the number of the next one that is made. -/
structure Tree where
  node : Nat → Node
  root : Nat
  next : Nat
  space : Space
  protcap : Protcap

/-- The ids of the task. -/
structure Cred where
  euid : Nat
  egid : Nat
  umask : Nat

def vfsPermission (tsk : Cred) (n : Node) (want : Nat) : Int :=
  let bits := if tsk.euid = n.uid then n.mode >>> 6 else if tsk.egid = n.gid then n.mode >>> 3 else n.mode
  if has want MAY_READ && !has bits 4 then -EACCES
  else if has want MAY_WRITE && !has bits 2 then -EACCES
  else if has want MAY_EXEC && !has bits 1 then -EACCES
  else 0

def fsPathNext (p : List Char) : List Char := afterField '/' p

def fsNameCmp (a b : List Char) : Bool := field '/' a = field '/' b

def vfsExist (t : Tree) (dir : Nat) (path : List Char) : Option Nat :=
  (t.node dir).child.find? fun c => fsNameCmp (t.node c).name path

def vfsGetprt (t : Tree) (n : Nat) : Nat :=
  let p := (t.node n).parent
  if (t.node p).mnt then (t.node p).parent else p

/-- The node is first in the list of its parent. -/
def vfsRegst (t : Tree) (n p : Nat) : Tree :=
  let node := update t.node p { t.node p with child := n :: (t.node p).child }
  { t with node := update node n { node n with parent := p } }

/-- A new node is made and registered, on a disk with an entry. -/
def makeNode (t : Tree) (p : Nat) (n : Node) (disk : Bool) : Tree :=
  let node := update t.node t.next n
  let ents := if disk then t.next :: (t.node p).ents else (t.node p).ents
  vfsRegst { t with node := update node p { node p with ents := ents }, next := t.next + 1 } t.next p

/-! ## File systems -/

/-- The attributes of a new node. -/
def created (t : Tree) (tsk : Cred) (parent : Nat) (name : List Char) (args mode : Nat) : Node :=
  let fmt := if has args O_DIRECTORY then S_IFDIR else S_IFREG
  let fs := (t.node parent).fs
  match fs with
  | .tmpfs => ⟨name, clearBits (mode ||| fmt) tsk.umask, tsk.euid, tsk.egid, parent, [], [], false, fs, 0⟩
  | .minix1 | .minix3 =>
    ⟨field '/' name, (clearBits mode S_IFMT % 2 ^ 16) ||| fmt, tsk.euid % 2 ^ 16, tsk.egid % fs.gids, parent,
      [], [], false, fs, 0⟩
  | .fat32 =>
    let basic := if has args O_DIRECTORY then clearBits 0o777 t.protcap.dmask else clearBits 0o666 t.protcap.fmask
    ⟨name, fmt ||| basic, t.protcap.uid, t.protcap.gid, parent, [], [], false, fs, 0⟩

def tmpfsOpen (t : Tree) (tsk : Cred) (parent : Nat) (name : List Char) (args mode : Nat) : Tree × Except Int Nat :=
  if !has args O_CREAT then (t, .error (-ENOENT))
  else (makeNode t parent (created t tsk parent name args mode) false, .ok t.next)

/-- `minix_open`. If there is no zone for a new directory then its entry stays. -/
def minixOpen (t : Tree) (tsk : Cred) (parent : Nat) (name : List Char) (args mode : Nat) : Tree × Except Int Nat :=
  let filname := field '/' name
  if (t.node parent).fs.maxFilename < filname.length then (t, .error (-ENAMETOOLONG))
  else
    match (t.node parent).ents.find? fun e => (t.node e).name = filname with
    | some e => (vfsRegst t e parent, .ok e)
    | none =>
      if !has args O_CREAT then (t, .error (-ENOENT))
      else if vfsPermission tsk (t.node parent) MAY_WRITE < 0 then (t, .error (-EPERM))
      else if !t.space.ino then (t, .error (-ENOSPC))
      else if !t.space.ent then (t, .error (-ENOSPC))
      else
        let new := created t tsk parent name args mode
        if has args O_DIRECTORY && !t.space.zone then
          let node := update t.node t.next new
          ({ t with
              node := update node parent { node parent with ents := t.next :: (t.node parent).ents },
              next := t.next + 1 }, .error (-ENOSPC))
        else (makeNode t parent new true, .ok t.next)

def fat32Open (t : Tree) (tsk : Cred) (parent : Nat) (path : List Char) (args mode : Nat) : Tree × Except Int Nat :=
  match (t.node parent).ents.find? fun e => fsNameCmp path (t.node e).name with
  | some e => (vfsRegst t e parent, .ok e)
  | none =>
    if has args O_CREAT then
      if fsPathNext path ≠ [] then (t, .error (-ENOENT))
      else (makeNode t parent (created t tsk parent path args mode) true, .ok t.next)
    else (t, .error (-ENOENT))

/-- `dir->sb->op->open`. -/
def fsOpen (t : Tree) (tsk : Cred) (dir : Nat) (path : List Char) (args mode : Nat) : Tree × Except Int Nat :=
  match (t.node dir).fs with
  | .tmpfs => tmpfsOpen t tsk dir path args mode
  | .minix1 | .minix3 => minixOpen t tsk dir path args mode
  | .fat32 => fat32Open t tsk dir path args mode

/-! ## Walking -/

/-- `_vfs_open`; the last step of it. -/
def openFound (t : Tree) (res args : Nat) : Option (Tree × Except Int Nat) :=
  let mnt := if (t.node res).mnt && !has args FS_GAINMNT then (t.node res).child.head? else some res
  mnt.bind fun res => if isLnk (t.node res).mode && !has args FS_GAINLNK then none else some (t, .ok res)

/-- `_vfs_open`. -/
def vfsOpenAt (t : Tree) (tsk : Cred) (dir : Nat) (path : List Char) (args mode : Nat) :
    Option (Tree × Except Int Nat) :=
  if path = [] || fsNameCmp path ['.'] then some (t, .ok dir)
  else if fsNameCmp path ['.', '.'] then some (t, .ok (vfsGetprt t dir))
  else
    match vfsExist t dir path with
    | some res => openFound t res args
    | none =>
      match fsOpen t tsk dir path args mode with
      | (t', .error e) => some (t', .error e)
      | (t', .ok res) => openFound t' res args

/-- The loop of `vfs_walkd`: the tree, the node and the path, at every end of the loop. -/
def walkLoop (tsk : Cred) : Nat → Tree → Nat → List Char → Option (Tree × Nat × List Char)
  | 0, _, _, _ => none
  | n + 1, t, cur, p =>
    let nxt := fsPathNext p
    if nxt = [] then some (t, cur, p)
    else if !isDir (t.node cur).mode then some (t, cur, p)
    else if vfsPermission tsk (t.node cur) MAY_EXEC < 0 then some (t, cur, p)
    else (vfsOpenAt t tsk cur p FS_GAIN 0).bind fun r =>
      match r with
      | (t', .error _) => some (t', cur, p)
      | (t', .ok chd) => walkLoop tsk n t' chd nxt

/-- Where a path starts. -/
def startOf (t : Tree) (start : Option Nat) (path : List Char) : Nat :=
  if path.head? = some '/' then t.root else start.getD t.root

/-- `vfs_walkd`, which always returns zero. -/
def vfsWalkd (t : Tree) (tsk : Cred) (start : Option Nat) (path : List Char) : Option (Tree × Nat × List Char) :=
  walkLoop tsk (path.length + 1) t (startOf t start path) (path.dropWhile (· = '/'))

/-- `want` of `vfs_open`. -/
def accessOf (args : Nat) : Nat :=
  if args &&& O_ACCMODE = O_RDONLY then MAY_READ
  else if args &&& O_ACCMODE = O_WRONLY then MAY_WRITE
  else if args &&& O_ACCMODE = O_RDWR then MAY_READ ||| MAY_WRITE
  else 0

/-- The checks of `vfs_open` on the node that was found. -/
def openCheck (tsk : Cred) (dir res : Node) (args : Nat) : Int :=
  if has args FS_GAIN then 0
  else
    let ret := vfsPermission tsk res (accessOf args)
    if ret < 0 then ret
    else if isLnk dir.mode && has args O_NOFOLLOW then -ELOOP
    else if !isDir res.mode && has args O_DIRECTORY then -ENOTDIR
    else if isDir res.mode && !has args O_DIRECTORY then -EISDIR
    else 0

def vfsOpen (t : Tree) (tsk : Cred) (parent : Option Nat) (path : List Char) (args mode : Nat) :
    Option (Tree × Except Int Nat) :=
  (vfsWalkd t tsk parent path).bind fun w =>
    (vfsOpenAt w.1 tsk w.2.1 w.2.2 args mode).bind fun r =>
      match r with
      | (t', .error e) => some (t', .error e)
      | (t', .ok res) =>
        let ret := openCheck tsk (t'.node w.2.1) (t'.node res) args
        if ret < 0 then some (t', .error ret)
        else if !has args FS_NOPCTX && (t'.node res).pctx < 0 then some (t', .error (t'.node res).pctx)
        else some (t', .ok res)

end TextOS.Vfs
