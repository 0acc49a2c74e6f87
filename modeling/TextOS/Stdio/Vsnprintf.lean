import TextOS.Stdio.File

/-!
# Formatting to memory: `app/libc/stdio/vsnprintf.c`

The stream of `vsnprintf` has no buffer, so that all output comes to `cw` at once. `vfprintf` uses the stream only
through calls, and what it does next depends only on what they return: it is any `Client`.

- **`vsnprintf` stores the first bytes that the client passes, as far as they fit, and a zero behind them; nothing else
  is touched, and the result does not depend on the size** (`vsnprintf_bounded`).
-/

namespace TextOS.Vsnprintf

open Lib List Stdio

/-- `FILE` with its cookie: `s` is the place in `buf`, or `dummy` if there is no `buf`; `mem` is the memory at `buf`. -/
structure File where
  bufsz : Nat
  dummy : List UInt8
  wpos : Option Nat
  wend : Option Nat
  wbase : Option Nat
  inBuf : Bool
  s : Nat
  n : Nat
  mem : Nat → UInt8

namespace File

variable (f : File)

/-- Bytes are stored at `s`. -/
def store (bytes : List UInt8) : File := if f.inBuf then { f with mem := writeAt f.mem f.s bytes } else f

/-- `memcpy` to `s`, at most `n` bytes. -/
def copy (bytes : List UInt8) : File :=
  let k := min f.n bytes.length
  { f.store (bytes.take k) with s := f.s + k, n := f.n - k }

def cw (bytes : List UInt8) : File × Nat :=
  let f := f.copy ((f.dummy.drop (f.wbase.getD 0)).take (dist f.wpos f.wbase))
  let f := (f.copy bytes).store [0]
  ({ f with wpos := some 0, wbase := some 0 }, bytes.length)

def towrite : File := { f with wpos := some 0, wbase := some 0, wend := some f.bufsz }

/-- `fputc`; `lbf` is `EOF`. -/
def fputc (c : Int) : File × Int :=
  let f := if f.wpos = none then f.towrite else f
  if f.wpos ≠ f.wend ∧ c ≠ -1 then
    ({ f with dummy := f.dummy.set (f.wpos.getD 0) (UInt8.ofInt c), wpos := f.wpos.map (· + 1) }, (UInt8.ofInt c).toNat)
  else
    let r := f.cw [UInt8.ofInt c]
    (r.1, if r.2 ≠ 1 then -1 else c)

/-- `fwrite` of bytes; since `lbf` is `EOF`, `__fwritex` calls `cw` whether or not the buffer is full. -/
def fwrite (bytes : List UInt8) : File × Nat :=
  if bytes = [] then (f, 0) else (if f.wend = none then f.towrite else f).cw bytes

end File

/-- A function with a stream. -/
inductive Client
  | ret (n : Int)
  | fputc (c : Int) (next : Int → Client)
  | fwrite (bytes : List UInt8) (next : Nat → Client)
  | ferror (next : Bool → Client)

namespace Client

/-- The calls one by one; none of them sets `F_ERR`. -/
def run : Client → File → File × Int
  | .ret n, f => (f, n)
  | .fputc c next, f => (next (f.fputc c).2).run (f.fputc c).1
  | .fwrite bytes next, f => (next (f.fwrite bytes).2).run (f.fwrite bytes).1
  | .ferror next, f => (next false).run f

/-- The bytes that the client passes to a stream where all calls succeed. -/
def passed : Client → List UInt8
  | .ret _ => []
  | .fputc c next => UInt8.ofInt c :: (next c).passed
  | .fwrite bytes next => bytes ++ (next bytes.length).passed
  | .ferror next => (next false).passed

/-- What the client returns then. -/
def result : Client → Int
  | .ret n => n
  | .fputc c next => (next c).result
  | .fwrite bytes next => (next bytes.length).result
  | .ferror next => (next false).result

end Client

/-- `vsnprintf`: the memory at `buf` and what it returns; `vfprintf` is the client. -/
def vsnprintf (mem : Nat → UInt8) (n : Nat) (vfprintf : Client) : (Nat → UInt8) × Int :=
  let f : File := ⟨0, [0], none, none, none, decide (0 < n), 0, n - 1, mem⟩
  let r := vfprintf.run (f.store [0])
  (r.1.mem, r.2)

variable {mem : Nat → UInt8} {n : Nat} {out : List UInt8} {f : File}

/-- The memory holds `l` and a zero behind it. -/
def stored (mem : Nat → UInt8) (l : List UInt8) (i : Nat) : UInt8 :=
  if i < l.length then l.getD i 0 else if i = l.length then 0 else mem i

/-- The stream has taken `out`. -/
structure Took (mem : Nat → UInt8) (n : Nat) (out : List UInt8) (f : File) : Prop where
  bufsz : f.bufsz = 0
  empty : f.wpos = f.wend ∧ f.wbase = f.wend ∧ (f.wend = none ∨ f.wend = some 0)
  inBuf : f.inBuf = decide (0 < n)
  s : f.s = (out.take (n - 1)).length
  left : f.s + f.n = n - 1
  mem : f.mem = if 0 < n then stored mem (out.take (n - 1)) else mem

theorem stored_append (mem : Nat → UInt8) (xs ys : List UInt8) :
    writeAt (writeAt (stored mem xs) xs.length ys) (xs.length + ys.length) [0] = stored mem (xs ++ ys) := by
  funext i
  simp only [writeAt, stored, length_append]
  grind

theorem copy_nil (f : File) : f.copy [] = f := by
  have hmem : writeAt f.mem f.s [] = f.mem := by
    funext i
    simp [writeAt]
  unfold File.copy File.store
  split <;> simp [hmem]

/-- `cw` keeps what fits and counts the rest. -/
theorem Took.cw (h : Took mem n out f) (hw : f.wend = some 0) (bytes : List UInt8) :
    Took mem n (out ++ bytes) (f.cw bytes).1 := by
  obtain ⟨hb, ⟨he, he', -⟩, hi, hs, hl, hm⟩ := h
  have hout : (out ++ bytes).take (n - 1) = out.take (n - 1) ++ bytes.take (min f.n bytes.length) := by
    rw [take_append, ← take_eq_take_min]
    congr 2
    rw [length_take] at hs
    omega
  have hk : (bytes.take (min f.n bytes.length)).length = min f.n bytes.length := length_take_of_le (by omega)
  have hcw : (f.cw bytes).1 = { ((f.copy bytes).store [0]) with wpos := some 0, wbase := some 0 } := by
    rw [File.cw, he, he', Stdio.dist, Nat.sub_self, take_zero, copy_nil]
  rw [hcw, File.copy, File.store, File.store]
  by_cases hn : 0 < n
  · simp only [hi, hn, decide_true, if_true] at hm ⊢
    refine ⟨hb, ⟨hw.symm, hw.symm, .inr hw⟩, by simp [hn], ?_, by dsimp only; omega, ?_⟩
    · rw [hout, length_append, hk, ← hs]
    · rw [if_pos hn, hout, ← stored_append, hk, ← hs, hm]
  simp only [hi, hn, decide_false, Bool.false_eq_true, if_false] at hm ⊢
  refine ⟨hb, ⟨hw.symm, hw.symm, .inr hw⟩, by simp [hn], ?_, by dsimp only; omega, by rw [if_neg hn, hm]⟩
  rw [hout, length_append, hk, ← hs]

/-- The stream gets its pointers with the first call. -/
theorem Took.towrite (h : Took mem n out f) {p : Option Nat} (hp : p = f.wend) :
    Took mem n out (if p = none then f.towrite else f) ∧ (if p = none then f.towrite else f).wend = some 0 := by
  obtain ⟨hb, ⟨he, he', h0⟩, hi, hs, hl, hm⟩ := h
  have hend : some f.bufsz = some 0 := by rw [hb]
  rcases h0 with h0 | h0
  · rw [if_pos (hp.trans h0)]
    exact ⟨⟨hb, ⟨hend.symm, hend.symm, .inr hend⟩, hi, hs, hl, hm⟩, hend⟩
  · rw [if_neg (by rw [hp, h0]; nofun)]
    exact ⟨⟨hb, ⟨he, he', .inr h0⟩, hi, hs, hl, hm⟩, h0⟩

/-- All output of a formatter is taken. -/
theorem Took.run (h : Took mem n out f) (c : Client) : Took mem n (out ++ c.passed) (c.run f).1 ∧
    (c.run f).2 = c.result := by
  induction c generalizing f out with
  | ret r => exact ⟨by simpa [Client.passed, Client.run] using h, rfl⟩
  | fputc c next ih =>
    obtain ⟨h1, hw⟩ := h.towrite h.empty.1
    have hput : f.fputc c = (((if f.wpos = none then f.towrite else f).cw [UInt8.ofInt c]).1, c) := by
      rw [File.fputc, if_neg (by rw [h1.empty.1]; simp)]
      rfl
    rw [Client.run, hput, Client.passed, ← singleton_append, ← append_assoc]
    exact ih c (h1.cw hw _)
  | fwrite bytes next ih =>
    rw [Client.run, Client.passed, ← append_assoc]
    by_cases h0 : bytes = []
    · rw [File.fwrite, if_pos h0, h0, append_nil]
      exact ih 0 h
    obtain ⟨h1, hw⟩ := h.towrite rfl
    rw [File.fwrite, if_neg h0]
    exact ih bytes.length (h1.cw hw _)
  | ferror next ih => exact ih false h

/-- **`vsnprintf` stores the first `n - 1` bytes that `vfprintf` passes to the stream, and a zero behind them.** It
touches nothing else, nothing at all if `n` is zero, and returns the same for every `n`. -/
theorem vsnprintf_bounded (mem : Nat → UInt8) (n : Nat) (vfprintf : Client) :
    (vsnprintf mem n vfprintf).1 = (if 0 < n then stored mem (vfprintf.passed.take (n - 1)) else mem) ∧
      (vsnprintf mem n vfprintf).2 = vfprintf.result := by
  have h : Took mem n [] (File.store ⟨0, [0], none, none, none, decide (0 < n), 0, n - 1, mem⟩ [0]) := by
    have hzero : writeAt mem 0 [0] = stored mem [] := by
      funext i
      cases i <;> simp [writeAt, stored]
    unfold File.store
    by_cases hn : 0 < n
    · simp only [hn, decide_true, if_true]
      exact ⟨rfl, ⟨rfl, rfl, .inl rfl⟩, by simp [hn], by simp, by simp, by simp [hn, hzero]⟩
    · simp only [hn, decide_false, Bool.false_eq_true, if_false]
      exact ⟨rfl, ⟨rfl, rfl, .inl rfl⟩, by simp [hn], by simp, by simp, by simp [hn]⟩
  obtain ⟨hrun, hret⟩ := h.run vfprintf
  exact ⟨hrun.mem, hret⟩

end TextOS.Vsnprintf
