import TextOS.Lib.Blocks
import TextOS.Lib.Word

/-!
# Streams: `app/libc/stdio`

A stream over a seekable file. A pointer into the buffer is its distance from `buf`, and `none` is `NULL`. The transfers
of the system calls come as far as `ω` says, at least one byte if there is one.

- `fgetc`, `fread`, `fgets`, `fputc`, `fwrite`, `fseeko`, `ftello`.
-/

namespace TextOS.Stdio

open Lib

def EOL : UInt8 := 10

def SEEK_SET : Int := 0
def SEEK_CUR : Int := 1
def SEEK_END : Int := 2

def BadWhence (whence : Int) : Prop := whence ≠ SEEK_SET ∧ whence ≠ SEEK_CUR ∧ whence ≠ SEEK_END
deriving Decidable

/-- Where the offset of `lseek` starts. -/
def base (whence : Int) (off size : Nat) : Int := if whence = SEEK_SET then 0 else if whence =
    SEEK_CUR then off else size

/-- A file with `bytes` written at `off`; a gap behind the old end is filled with zeros. -/
def put (data : List UInt8) (off : Nat) (bytes : List UInt8) : List UInt8 :=
  if bytes = [] then data else splice (data ++ List.replicate (off - data.length) 0) off bytes

/-- `FILE`, with the contents of the file and the offset of the descriptor; `calls` counts the transfers. -/
structure Stream where
  nord : Bool
  nowr : Bool
  app : Bool
  eof : Bool
  err : Bool
  lbf : Int
  buf : List UInt8
  rpos : Option Nat
  rend : Option Nat
  wpos : Option Nat
  wend : Option Nat
  wbase : Option Nat
  data : List UInt8
  off : Nat
  calls : Nat

/-- The distance of two pointers. -/
def dist (p q : Option Nat) : Nat := p.getD 0 - q.getD 0

namespace Stream

variable (ω : Nat → Nat) (s : Stream)

def bufsz : Nat := s.buf.length

/-- The bytes of the buffer that were not read. -/
def unread : List UInt8 := (s.buf.drop (s.rpos.getD 0)).take (dist s.rend s.rpos)

/-- The bytes of the buffer that were not written to the file. -/
def pending : List UInt8 := (s.buf.drop (s.wbase.getD 0)).take (dist s.wpos s.wbase)

/-! ## System calls -/

/-- `read` and `readv` of `n` bytes. -/
def readv (n : Nat) : Stream × List UInt8 :=
  let bytes := (s.data.drop s.off).take (min n (max 1 (ω s.calls)))
  ({ s with off := s.off + bytes.length, calls := s.calls + 1 }, bytes)

/-- `writev`: the number of bytes is returned. -/
def writev (iov : List (List UInt8)) : Stream × Nat :=
  let bytes := iov.flatten.take (max 1 (ω s.calls))
  ({ s with data := put s.data s.off bytes, off := s.off + bytes.length, calls := s.calls + 1 }, bytes.length)

/-- `lseek`: the offset is unsigned and moves in any case; what is returned is signed, and -1 if `syscall_ret` takes it
for an error. -/
def lseek (offset whence : Int) : Stream × Int :=
  let pos := (base whence s.off s.data.length + offset) % 2 ^ 64
  let ret := if pos < 2 ^ 63 then pos else pos - 2 ^ 64
  ({ s with off := pos.toNat }, if -4096 < ret ∧ ret < 0 then -1 else ret)

/-! ## The buffer -/

/-- `__stdio_read` of `len` bytes: the bytes that were stored. -/
def stdioRead (len : Nat) : Stream × List UInt8 :=
  let r := s.readv ω (len + s.bufsz)
  if r.2 = [] then ({ r.1 with eof := true }, [])
  else if r.2.length ≤ len then r
  else
    ({ r.1 with buf := splice s.buf 0 (r.2.drop len), rpos := some 0, rend := some (r.2.length - len) }, r.2.take len)

/-- The vectors that are left after `cnt` bytes. -/
def advance (cnt : Nat) : List (List UInt8) → List (List UInt8)
  | v :: u :: us => if v.length < cnt then u.drop (cnt - v.length) :: us else v.drop cnt :: u :: us
  | [v] => [v.drop cnt]
  | [] => []

/-- The loop of `__stdio_write`. -/
def stdioWriteLoop : Nat → Stream → List (List UInt8) → Option Stream
  | 0, _, _ => none
  | fuel + 1, s, iov =>
    let r := s.writev ω iov
    if r.2 = iov.flatten.length then
      some { r.1 with wend := some s.bufsz, wpos := some 0, wbase := some 0 }
    else stdioWriteLoop fuel r.1 (advance r.2 iov)

def stdioWrite (bytes : List UInt8) : Option Stream :=
  stdioWriteLoop ω (s.pending.length + bytes.length + 1) s [s.pending, bytes]

/-- `__toread`; `true` is `EOF`. -/
def toread : Option (Stream × Bool) := do
  let s ← if s.wbase ≠ s.wpos then s.stdioWrite ω [] else some s
  let s := { s with wbase := none, wpos := none, wend := none }
  if s.nord then some ({ s with err := true }, true)
  else some ({ s with rpos := some s.bufsz, rend := some s.bufsz }, s.eof)

/-- `__towrite`; `true` is `EOF`. -/
def towrite : Stream × Bool :=
  if s.nowr then ({ s with err := true }, true)
  else ({ s with rpos := none, rend := none, wpos := some 0, wbase := some 0, wend := some s.bufsz }, false)

/-! ## Reading -/

def fgetc : Option (Stream × Option UInt8) :=
  if s.rpos ≠ s.rend then some ({ s with rpos := s.rpos.map (· + 1) }, some (s.buf.getD (s.rpos.getD 0) 0))
  else do
    let (s, eof) ← s.toread ω
    if eof then return (s, none)
    let (s, bytes) := s.stdioRead ω 1
    if bytes.length ≠ 1 then return (s, none)
    return (s, some (bytes.headD 0))

/-- The loop of `fread`: the bytes that were stored. -/
def freadLoop : Nat → Stream → Nat → Option (Stream × List UInt8)
  | 0, _, _ => none
  | fuel + 1, s, rem =>
    if rem = 0 then some (s, [])
    else do
      let (s, eof) ← s.toread ω
      if eof then return (s, [])
      let (s, bytes) := s.stdioRead ω rem
      if bytes = [] then return (s, [])
      let (s, rest) ← freadLoop fuel s (rem - bytes.length)
      return (s, bytes ++ rest)

/-- `fread`: the bytes that were stored and the number of items. -/
def fread (size nmemb : Nat) : Option (Stream × List UInt8 × Nat) := do
  let len := u64 (size * nmemb)
  let out := if s.rpos ≠ s.rend then s.unread.take len else []
  let s := if s.rpos ≠ s.rend then { s with rpos := s.rpos.map (· + out.length) } else s
  let (s, rest) ← freadLoop ω (len + 1) s (len - out.length)
  return (s, out ++ rest, (out ++ rest).length / size)

/-- The loop of `fgets`. -/
def fgetsLoop : Nat → Stream → Nat → Option (Stream × List UInt8)
  | 0, _, _ => none
  | fuel + 1, s, rem =>
    let dpos := s.unread.findIdx? (· = EOL)
    let out := s.unread.take (min rem (match dpos with | some i => i + 1 | none => s.unread.length))
    let rem := rem - out.length
    let s := { s with rpos := s.rpos.map (· + out.length) }
    if dpos.isSome ∨ rem = 0 then some (s, out)
    else
      let r := s.stdioRead ω 0
      if r.2 ≠ [] then some (r.1, out)
      else if r.1.rpos = r.1.rend then some (r.1, out)
      else do
        let (s, rest) ← fgetsLoop fuel r.1 rem
        return (s, out ++ rest)

/-- `fgets`; `none` is `NULL`. -/
def fgets (n : Nat) : Option (Stream × Option (List UInt8)) := do
  if s.rpos ≠ s.rend then
    let (s, out) ← fgetsLoop ω (n + 1) s (n - 1)
    return (s, some out)
  let (s, eof) ← s.toread ω
  if eof then return (s, none)
  let r := s.stdioRead ω 0
  if r.2 ≠ [] then return (r.1, none)
  if r.1.rpos = r.1.rend then return (r.1, none)
  let (s, out) ← fgetsLoop ω (n + 1) r.1 (n - 1)
  return (s, some out)

/-! ## Writing -/

/-- `memcpy` to `wpos`. -/
def store (bytes : List UInt8) : Stream :=
  { s with buf := splice s.buf (s.wpos.getD 0) bytes, wpos := s.wpos.map (· + bytes.length) }

/-- `fputc`; -1 is `EOF`. -/
def fputc (c : Int) : Option (Stream × Int) := do
  let r := if s.wpos = none then s.towrite else (s, false)
  if r.2 then return (r.1, -1)
  if r.1.wpos ≠ r.1.wend ∧ c ≠ r.1.lbf then return (r.1.store [UInt8.ofInt c], (UInt8.ofInt c).toNat)
  let s ← r.1.stdioWrite ω [UInt8.ofInt c]
  return (s, c)

/-- The number of bytes up to the last newline of the first `i`. -/
def lastEol (bytes : List UInt8) : Nat → Nat
  | 0 => 0
  | i + 1 => if bytes[i]? = some EOL then i + 1 else lastEol bytes i

def fwritex (bytes : List UInt8) : Option (Stream × Nat) := do
  let r := if s.wend = none then s.towrite else (s, false)
  if r.2 then return (r.1, 0)
  if dist r.1.wend r.1.wpos < bytes.length then
    let s ← r.1.stdioWrite ω bytes
    return (s, bytes.length)
  if 0 ≤ r.1.lbf then
    let i := lastEol bytes bytes.length
    let s ← if i ≠ 0 then r.1.stdioWrite ω (bytes.take i) else some r.1
    return (s.store (bytes.drop i), (bytes.drop i).length + i)
  let s ← r.1.stdioWrite ω bytes
  return (s, bytes.length)

def fwrite (ptr : List UInt8) (size nmemb : Nat) : Option (Stream × Nat) := do
  if size = 0 ∨ nmemb = 0 then return (s, 0)
  let l := u64 (size * nmemb)
  let (s, i) ← s.fwritex ω (ptr.take l)
  return (s, if i = l then nmemb else i / size)

/-! ## Positions -/

/-- `fseeko` writes the pending bytes. -/
def seekFlush : Option Stream :=
  if s.wpos ≠ s.wbase then (s.stdioWrite ω []).map fun s => { s with wpos := none, wbase := none,
                                                                     wend := none } else some s

def fseeko (offset whence : Int) : Option (Stream × Int) := do
  if BadWhence whence then return (s, -1)
  let offset := if whence = SEEK_CUR ∧ s.rend ≠ none then offset - dist s.rend s.rpos else offset
  let s ← s.seekFlush ω
  let r := s.lseek offset whence
  if r.2 < 0 then return (r.1, -1)
  return ({ r.1 with rpos := none, rend := none, eof := false }, 0)

/-- `__fdpos`. -/
def fdpos : Stream × Int :=
  if s.app = true ∧ s.wbase ≠ s.wpos then s.lseek 0 SEEK_END else s.lseek 0 SEEK_CUR

def ftello : Stream × Int :=
  let r := s.fdpos
  if r.2 < 0 then r
  else
    (r.1, if s.rend ≠ none then r.2 + s.rpos.getD 0 - s.rend.getD 0
      else if s.wbase ≠ none then r.2 + s.wpos.getD 0 - s.wbase.getD 0 else r.2)

end Stream

/-- A stream that `fdopen` made for reading and writing, at the offset `off` of the file. -/
def fdopen (data : List UInt8) (off : Nat) (buf : List UInt8) (lbf : Int) : Stream :=
  ⟨false, false, false, false, false, lbf, buf, none, none, none, none, none, data, off, 0⟩

end TextOS.Stdio
