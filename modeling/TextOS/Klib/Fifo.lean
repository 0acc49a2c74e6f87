import TextOS.Lib.Word

/-!
# Byte queues: `kernel/klib/fifo.c`

The counters `head` and `tail` of a queue run through all of `size_t`; `tail` is ahead by the size of the buffer.

- a queue that holds a list (`Holds`) takes as many bytes as it has room for (`Holds.write`) and gives the first ones
  back (`Holds.read`).
-/

namespace TextOS.Klib

open Lib List Function

/-- `fifo_t`. -/
structure Fifo where
  buf : Nat → UInt8
  siz : Nat
  head : Nat
  tail : Nat

def fifoInit (buf : Nat → UInt8) (siz : Nat) : Fifo := ⟨buf, siz, 0, siz⟩

namespace Fifo

/-- `tail - siz - head`. -/
def used (f : Fifo) : Nat := u64 (f.tail + 2 ^ 64 - f.siz + 2 ^ 64 - f.head)

/-- One turn of the loop of `fifo_write`. -/
def put (f : Fifo) (b : UInt8) : Fifo :=
  { f with buf := update f.buf (f.tail % f.siz) b, tail := u64 (f.tail + 1) }

/-- The loop of `fifo_read`. -/
def get : Nat → Fifo → Fifo × List UInt8
  | 0, f => (f, [])
  | n + 1, f =>
    let r := get n { f with head := u64 (f.head + 1) }
    (r.1, f.buf (f.head % f.siz) :: r.2)

end Fifo

@[irreducible]
def fifoWrite (f : Fifo) (data : List UInt8) : Fifo × Nat :=
  let rem := min data.length (u64 (f.siz + 2 ^ 64 - f.used))
  ((data.take rem).foldl Fifo.put f, rem)

@[irreducible]
def fifoRead (f : Fifo) (siz : Nat) : Fifo × List UInt8 := f.get (min siz f.used)

def fifoFull (f : Fifo) : Bool := f.head == f.tail

def fifoEmpty (f : Fifo) : Bool := u64 (f.head + f.siz) == f.tail

/-- The bytes of `q` are in the queue, and `r` bytes have been taken before them. -/
structure Holds (f : Fifo) (r : Nat) (q : List UInt8) : Prop where
  pos : 0 < f.siz
  dvd : f.siz ∣ 2 ^ 64
  lt : f.siz < 2 ^ 64
  head : f.head = u64 r
  tail : f.tail = u64 (r + q.length + f.siz)
  len : q.length ≤ f.siz
  get : ∀ i (h : i < q.length), f.buf ((r + i) % f.siz) = q[i]

variable {f : Fifo} {r : Nat} {q : List UInt8}

theorem holds_fifoInit (buf : Nat → UInt8) {siz : Nat} (hpos : 0 < siz) (hdvd : siz ∣ 2 ^ 64) (hlt : siz < 2 ^ 64) :
    Holds (fifoInit buf siz) 0 [] :=
  ⟨hpos, hdvd, hlt, rfl, by simp [fifoInit, u64_of_lt hlt], Nat.zero_le _, nofun⟩

theorem mod_ne_of_lt {a b n : Nat} (hab : a < b) (hbn : b < a + n) : a % n ≠ b % n := by
  intro h
  have hdvd : n ∣ b - a := (Nat.modEq_iff_dvd' hab.le).1 h
  have := Nat.le_of_dvd (by omega) hdvd
  omega

namespace Holds

theorem used_eq (h : Holds f r q) : f.used = q.length := by
  have hlt := h.lt
  have hlen := h.len
  rw [Fifo.used, h.head, h.tail, u64, u64, u64]
  omega

theorem fifoEmpty_iff (h : Holds f r q) : fifoEmpty f = true ↔ q = [] := by
  have hlt := h.lt
  have hlen := h.len
  rw [fifoEmpty, beq_iff_eq, h.head, h.tail, ← length_eq_zero_iff, u64, u64, u64]
  omega

/-- **`fifo_full` is never true**: `tail` is ahead of `head` by the size even when the queue is empty. -/
theorem fifoFull_eq (h : Holds f r q) (hsiz : 2 * f.siz < 2 ^ 64) : fifoFull f = false := by
  have hpos := h.pos
  have hlen := h.len
  rw [fifoFull, beq_eq_false_iff_ne, h.head, h.tail, u64, u64]
  omega

theorem head_mod (h : Holds f r q) : f.head % f.siz = r % f.siz := by rw [h.head, u64, Nat.mod_mod_of_dvd _ h.dvd]

theorem tail_mod (h : Holds f r q) : f.tail % f.siz = (r + q.length) % f.siz := by
  rw [h.tail, u64, Nat.mod_mod_of_dvd _ h.dvd, Nat.add_mod_right]

theorem put (h : Holds f r q) (hroom : q.length < f.siz) (b : UInt8) : Holds (f.put b) r (q ++ [b]) := by
  refine ⟨h.pos, h.dvd, h.lt, h.head, ?_, by rw [length_append]; exact hroom, fun i hi => ?_⟩
  · show u64 (f.tail + 1) = u64 (r + (q ++ [b]).length + f.siz)
    rw [h.tail, length_append, length_singleton, u64, u64, u64]
    omega
  show update f.buf (f.tail % f.siz) b ((r + i) % f.siz) = (q ++ [b])[i]
  rw [length_append, length_singleton] at hi
  rw [h.tail_mod]
  by_cases hl : i < q.length
  · rw [update_of_ne (mod_ne_of_lt (by omega) (by omega)), h.get i hl, getElem_append_left hl]
  · obtain rfl : i = q.length := by omega
    simp

theorem foldl_put (h : Holds f r q) (data : List UInt8) (hroom : q.length + data.length ≤ f.siz) :
    Holds (data.foldl Fifo.put f) r (q ++ data) ∧ (data.foldl Fifo.put f).siz = f.siz := by
  induction data generalizing f q with
  | nil =>
    rw [append_nil]
    exact ⟨h, rfl⟩
  | cons b data ih =>
    rw [length_cons] at hroom
    have hput := h.put (by omega) b
    have := ih hput (by rw [length_append, length_singleton]; show _ ≤ f.siz; omega)
    rwa [append_assoc] at this

theorem write (h : Holds f r q) (data : List UInt8) : (fifoWrite f data).2 = min data.length (f.siz - q.length) ∧
    Holds (fifoWrite f data).1 r (q ++ data.take (fifoWrite f data).2) ∧ (fifoWrite f data).1.siz = f.siz := by
  have hlt := h.lt
  have hlen := h.len
  have hrem : (fifoWrite f data).2 = min data.length (f.siz - q.length) := by
    rw [fifoWrite, h.used_eq, u64]
    omega
  have hput := h.foldl_put (data.take (fifoWrite f data).2) (by rw [length_take, hrem]; omega)
  refine ⟨hrem, ?_⟩
  rwa [fifoWrite] at hput ⊢

/-- `n` bytes are taken from the front, across the end of the buffer. -/
theorem get_loop (n : Nat) (h : Holds f r q) (hn : n ≤ q.length) :
    (f.get n).2 = q.take n ∧ Holds (f.get n).1 (r + n) (q.drop n) ∧ (f.get n).1.siz = f.siz := by
  induction n generalizing f r q with
  | zero => exact ⟨rfl, h, rfl⟩
  | succ n ih =>
    obtain ⟨b, q, rfl⟩ := exists_cons_of_length_pos (by omega : 0 < q.length)
    rw [length_cons] at hn
    have hhead : f.buf (f.head % f.siz) = b := by
      rw [h.head_mod]
      exact h.get 0 (by simp)
    have hnext : Holds { f with head := u64 (f.head + 1) } (r + 1) q := by
      have hlen := h.len
      refine ⟨h.pos, h.dvd, h.lt, ?_, ?_, Nat.le_of_succ_le hlen, fun i hi => ?_⟩
      · show u64 (f.head + 1) = u64 (r + 1)
        rw [h.head, u64, u64, u64]
        omega
      · show f.tail = u64 (r + 1 + q.length + f.siz)
        rw [h.tail, length_cons]
        congr 1
        omega
      have hget := h.get (i + 1) (by rw [length_cons]; omega)
      rw [getElem_cons_succ] at hget
      rw [← hget, Nat.add_right_comm, Nat.add_assoc]
    obtain ⟨hout, hrest, hsiz⟩ := ih hnext (by omega)
    refine ⟨?_, ?_, hsiz⟩
    · show f.buf (f.head % f.siz) :: _ = _
      rw [hhead, hout, take_succ_cons]
    · rw [drop_succ_cons, show r + (n + 1) = r + 1 + n by omega]
      exact hrest

/-- A read takes what it asks for, or all there is. -/
theorem read (h : Holds f r q) (siz : Nat) :
    (fifoRead f siz).2 = q.take siz ∧ Holds (fifoRead f siz).1 (r + (fifoRead f siz).2.length) (q.drop siz) ∧
      (fifoRead f siz).1.siz = f.siz := by
  obtain ⟨hout, hrest, hs⟩ := h.get_loop (min siz q.length) (Nat.min_le_right _ _)
  rw [fifoRead, h.used_eq]
  have htake : q.take (min siz q.length) = q.take siz := by rw [take_eq_take_iff]; omega
  have hdrop : q.drop (min siz q.length) = q.drop siz := by
    rcases le_total siz q.length with hle | hle
    · rw [Nat.min_eq_left hle]
    · rw [Nat.min_eq_right hle, drop_length, drop_eq_nil_of_le hle]
  rw [hout, htake]
  refine ⟨rfl, ?_, hs⟩
  rw [length_take, ← hdrop]
  exact hrest

end Holds

end TextOS.Klib
