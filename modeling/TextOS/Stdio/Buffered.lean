import TextOS.Lib.Run
import TextOS.Stdio.File

/-!
# A buffered stream is a plain file

- **whatever the transfers, the size of the buffer and the setting of `lbf`, a stream returns what the plain file
  returns, as long as an `fseeko` that succeeds comes between a read and a write** (`stream_plain`); an `fseeko` that
  fails keeps the bytes read ahead, and then `__towrite` drops them without moving the descriptor back
  (`write_misplaced`).
-/

namespace TextOS.Stdio

open Lib List Option

/-! ## The plain file -/

/-- What a function returns. The value of `fputc` is not used. -/
inductive Out
  | char (c : Option UInt8)
  | items (bytes : List UInt8) (n : Nat)
  | line (s : Option (List UInt8))
  | put
  | written (n : Nat)
  | sought (ret : Int)
  | pos (p : Int)
deriving DecidableEq

inductive Op
  | fgetc
  | fread (size nmemb : Nat)
  | fgets (n : Nat)
  | fputc (c : Int)
  | fwrite (ptr : List UInt8) (size nmemb : Nat)
  | fseeko (offset whence : Int)
  | ftello

/-- At most `n` bytes, up to the first newline. -/
def line : Nat → List UInt8 → List UInt8
  | 0, _ => []
  | _ + 1, [] => []
  | n + 1, b :: bs => if b = EOL then [b] else b :: line n bs

/-- A file and a position. -/
structure Plain where
  data : List UInt8
  pos : Nat
deriving DecidableEq

namespace Plain

variable (t : Plain)

/-- The bytes behind the position. -/
def rest : List UInt8 := t.data.drop t.pos

def skip (n : Nat) : Plain := { t with pos := t.pos + n }

def write (bytes : List UInt8) : Plain := ⟨Stdio.put t.data t.pos bytes, t.pos + bytes.length⟩

/-- The position that `fseeko` moves to. -/
def target (offset whence : Int) : Option Nat :=
  if BadWhence whence then none
  else
    let pos := base whence t.pos t.data.length + offset
    if pos < 0 then none else some pos.toNat

def step : Op → Plain × Out
  | .fgetc => (t.skip (t.rest.take 1).length, .char t.rest.head?)
  | .fread size nmemb =>
    let bytes := t.rest.take (size * nmemb)
    (t.skip bytes.length, .items bytes (bytes.length / size))
  | .fgets n =>
    if t.rest = [] then (t, .line none)
    else (t.skip (line (n - 1) t.rest).length, .line (some (line (n - 1) t.rest)))
  | .fputc c => (t.write [UInt8.ofInt c], .put)
  | .fwrite ptr size nmemb => (t.write (ptr.take (size * nmemb)), .written (if size = 0 then 0 else nmemb))
  | .fseeko offset whence =>
    match t.target offset whence with
    | none => (t, .sought (-1))
    | some p => ({ t with pos := p }, .sought 0)
  | .ftello => (t, .pos t.pos)

end Plain

/-! ## Runs of a stream -/

/-- A stream, with what the functions have returned; `ahead`: there was a read after the last `fseeko` that succeeded.
-/
structure Sys where
  stream : Stream
  ahead : Bool
  outs : List Out

def Sys.step (ω : Nat → Nat) (s : Sys) : Op → Option Sys
  | .fgetc => do
    let (f, c) ← s.stream.fgetc ω
    return ⟨f, true, s.outs ++ [.char c]⟩
  | .fread size nmemb => do
    let (f, bytes, n) ← s.stream.fread ω size nmemb
    return ⟨f, true, s.outs ++ [.items bytes n]⟩
  | .fgets n => do
    let (f, l) ← s.stream.fgets ω n
    return ⟨f, true, s.outs ++ [.line l]⟩
  | .fputc c => do
    let (f, _) ← s.stream.fputc ω c
    return ⟨f, s.ahead, s.outs ++ [.put]⟩
  | .fwrite ptr size nmemb => do
    let (f, n) ← s.stream.fwrite ω ptr size nmemb
    return ⟨f, s.ahead, s.outs ++ [.written n]⟩
  | .fseeko offset whence => do
    let (f, ret) ← s.stream.fseeko ω offset whence
    return ⟨f, if ret = 0 then false else s.ahead, s.outs ++ [.sought ret]⟩
  | .ftello =>
    let r := s.stream.ftello
    some ⟨r.1, s.ahead, s.outs ++ [.pos r.2]⟩

/-- The position of the stream: what was read ahead is not passed yet, and what is pending is. -/
def Stream.pos (s : Stream) : Int := s.off + s.pending.length - s.unread.length

/-- Where `fseeko` goes to, from the position of the stream or the end of the file with the pending bytes. -/
def Stream.goal (s : Stream) (offset whence : Int) : Int :=
  (if whence = SEEK_SET then 0 else if whence = SEEK_CUR then s.pos else (put s.data s.off s.pending).length) + offset

/-- The items are in an object; a write does not come after a read without an `fseeko` that succeeds in between; the
positions are not negative and fit in an `off_t`. -/
def Fine (s : Sys) : Op → Prop
  | .fread size nmemb => 0 < size ∧ size * nmemb < 2 ^ 64
  | .fgets n => 1 ≤ n
  | .fputc _ => s.ahead = false
  | .fwrite ptr size nmemb => s.ahead = false ∧ ptr.length = size * nmemb ∧ size * nmemb < 2 ^ 64
  | .fseeko offset whence => BadWhence whence ∨ (0 ≤ s.stream.goal offset whence ∧ s.stream.goal offset whence < 2 ^ 63)
  | .ftello => s.stream.off < 2 ^ 63
  | .fgetc => True

instance (s : Sys) (o : Op) : Decidable (Fine s o) := by
  unfold Fine
  split <;> infer_instance

/-! ## The relation -/

/-- The buffer holds `k` bytes that are still to be written. -/
structure Writing (s : Stream) (t : Plain) (k : Nat) : Prop where
  rpos : s.rpos = none
  rend : s.rend = none
  wpos : s.wpos = some k
  wend : s.wend = some s.bufsz
  wbase : s.wbase = some 0
  le : k ≤ s.bufsz
  eof : s.eof = false
  data : t.data = put s.data s.off (s.buf.take k)
  off : t.pos = s.off + k

/-- How the buffer is used. -/
inductive View (s : Stream) (t : Plain) : Prop
  | idle (rpos : s.rpos = none) (rend : s.rend = none) (wpos : s.wpos = none) (wend : s.wend = none)
      (wbase : s.wbase = none) (eof : s.eof = false) (data : s.data = t.data) (off : s.off = t.pos)
  | reading (a b : Nat) (rpos : s.rpos = some a) (rend : s.rend = some b) (wpos : s.wpos = none) (wend : s.wend = none)
      (wbase : s.wbase = none) (le : a ≤ b) (eof : s.eof = true → s.data.length ≤ s.off) (data : s.data = t.data)
      (off : s.off = t.pos + (b - a)) (unread : (s.buf.drop a).take (b - a) = t.rest.take (b - a))
      (fit : b - a ≤ t.rest.length)
  | writing (k : Nat) (writing : Writing s t k)

/-- The stream `s` is the plain file `t`; `m` are its flags `F_NOWR` and `F_APP`. -/
structure Rel (m : Bool × Bool) (s : Stream) (t : Plain) : Prop where
  nord : s.nord = false
  modes : (s.nowr, s.app) = m
  bufsz : 0 < s.bufsz
  view : View s t

variable {ω : Nat → Nat} {m : Bool × Bool} {s s' : Stream} {t : Plain}

theorem put_nil (data : List UInt8) (off : Nat) : put data off [] = data := if_pos rfl

/-- Writing twice, the second time right behind, is writing once. -/
theorem put_put (data : List UInt8) (off : Nat) (x y : List UInt8) :
    put (put data off x) (off + x.length) y = put data off (x ++ y) := by
  by_cases hx : x = []
  · rw [hx, put_nil]
    rfl
  by_cases hy : y = []
  · rw [hy, put_nil, append_nil]
  have hoff : off ≤ (data ++ List.replicate (off - data.length) 0).length := by
    rw [length_append, length_replicate]
    omega
  have hlen : off + x.length - (put data off x).length = 0 := by
    rw [put, if_neg hx, length_splice hoff]
    omega
  rw [put, if_neg hy, hlen, replicate_zero, append_nil, put, if_neg hx, splice_splice _ _ hoff, put,
    if_neg (by simp [hx])]

/-- A line that ends in the first part. -/
theorem line_of_find {n i : Nat} {xs ys : List UInt8} (h : xs.findIdx? (· = EOL) = some i) :
    line n (xs ++ ys) = xs.take (min n (i + 1)) := by
  induction xs generalizing n i with
  | nil => cases h
  | cons b xs ih =>
    rw [findIdx?_cons] at h
    cases n with
    | zero => simp [line]
    | succ n =>
      by_cases hb : b = EOL
      · simp only [hb, decide_true, if_true, some.injEq] at h
        subst h
        simp [line, hb]
      simp only [hb, decide_false, Bool.false_eq_true, if_false, map_eq_some_iff] at h
      obtain ⟨j, hj, rfl⟩ := h
      rw [cons_append, line, if_neg hb, ih hj, Nat.succ_min_succ, take_succ_cons]

/-- A line that goes on behind the first part. -/
theorem line_append {n : Nat} {xs ys : List UInt8} (h : xs.findIdx? (· = EOL) = none) :
    line n (xs ++ ys) = xs.take n ++ line (n - xs.length) ys := by
  induction xs generalizing n with
  | nil => simp
  | cons b xs ih =>
    rw [findIdx?_cons] at h
    by_cases hb : b = EOL
    · simp [hb] at h
    simp only [hb, decide_false, Bool.false_eq_true, if_false, map_eq_none_iff] at h
    cases n with
    | zero => simp [line]
    | succ n => rw [cons_append, line, if_neg hb, ih h, take_succ_cons, cons_append, length_cons, Nat.succ_sub_succ]

/-! ## Writing out the buffer -/

/-- The state after everything has been written. -/
def Stream.wrote (s : Stream) (bytes : List UInt8) (calls : Nat) : Stream :=
  { s with
    data := put s.data s.off bytes, off := s.off + bytes.length, calls := calls, wend := some s.bufsz, wpos := some 0,
      wbase := some 0 }

/-- Advancing over the two pieces drops the written bytes. -/
theorem flatten_advance {iov : List (List UInt8)} (cnt : Nat) (htwo : iov.length ≤ 2) :
    (Stream.advance cnt iov).flatten = iov.flatten.drop cnt ∧ (Stream.advance cnt iov).length ≤ 2 := by
  match iov, htwo with
  | [], _ => simp [Stream.advance]
  | [v], _ => simp [Stream.advance]
  | [v, u], _ =>
    rw [Stream.advance]
    split
    · simp only [flatten_cons, flatten_nil, append_nil]
      rw [drop_append, drop_of_length_le (show v.length ≤ cnt by omega), nil_append]
      exact ⟨rfl, by simp⟩
    simp only [flatten_cons, flatten_nil, append_nil]
    rw [drop_append_of_le_length (by omega)]
    exact ⟨rfl, by simp⟩

/-- With enough fuel the loop writes all bytes, whatever the calls return. -/
theorem stdioWriteLoop_eq {fuel : Nat} {iov : List (List UInt8)} (hfuel : iov.flatten.length < fuel)
    (htwo : iov.length ≤ 2) : ∃ calls, Stream.stdioWriteLoop ω fuel s iov = some (s.wrote iov.flatten calls) := by
  induction fuel generalizing s iov with
  | zero => cases hfuel
  | succ fuel ih =>
    rw [Stream.stdioWriteLoop]
    obtain ⟨m, hm, hr⟩ : ∃ m, 1 ≤ m ∧ s.writev ω iov =
        ({ s with data := put s.data s.off (iov.flatten.take m), off := s.off + (iov.flatten.take m).length,
                  calls := s.calls + 1 },
          (iov.flatten.take m).length) := ⟨_, le_max_left _ _, rfl⟩
    rw [hr]
    split
    next hall =>
      have hle : iov.flatten.length ≤ m := by
        rw [length_take] at hall
        omega
      rw [take_of_length_le hle]
      exact ⟨_, rfl⟩
    next hpart =>
      have hput := put_put s.data s.off (iov.flatten.take m) (iov.flatten.drop m)
      rw [length_take] at hpart hput ⊢
      have hmin : min m iov.flatten.length = m := by omega
      rw [hmin] at hput ⊢
      rw [take_append_drop] at hput
      obtain ⟨hflat, htwo'⟩ := flatten_advance m htwo
      obtain ⟨calls, h⟩ := ih (by rw [hflat, length_drop]; omega) htwo'
      refine ⟨calls, h.trans ?_⟩
      rw [Stream.wrote, Stream.wrote, hflat, length_drop]
      rw [hput, Nat.add_assoc, Nat.add_sub_of_le (by omega)]
      rfl

/-- A flush writes the pending bytes and then the new ones. -/
theorem stdioWrite_eq (bytes : List UInt8) : ∃ calls, s.stdioWrite ω bytes =
    some (s.wrote (s.pending ++ bytes) calls) := by
  have hflat : [s.pending, bytes].flatten = s.pending ++ bytes := by simp
  have hfuel : [s.pending, bytes].flatten.length < s.pending.length + bytes.length + 1 := by
    rw [hflat, length_append]
    omega
  obtain ⟨calls, h⟩ := stdioWriteLoop_eq (ω := ω) (s := s) hfuel (by simp)
  rw [hflat] at h
  exact ⟨calls, h⟩

/-! ## Reading -/

@[simp] theorem Plain.rest_skip (t : Plain) (n : Nat) : (t.skip n).rest = t.rest.drop n := drop_drop.symm

theorem Plain.skip_skip (t : Plain) (m n : Nat) : (t.skip m).skip n = t.skip (m + n) := by
  rw [Plain.skip, Plain.skip, Plain.skip, Nat.add_assoc]

/-- Nothing was read ahead. -/
def Drained (s : Stream) : Prop := ∃ a, s.rpos = some a ∧ s.rend = some a

/-- The state after `__toread`, except for pending bytes. -/
def Stream.ready (s : Stream) : Stream :=
  { s with wbase := none, wpos := none, wend := none, rpos := some s.bufsz, rend := some s.bufsz }

theorem toread_clean (hn : s.nord = false) (hw : s.wbase = s.wpos) : s.toread ω = some (s.ready, s.eof) := by
  simp [Stream.toread, hw, hn, Stream.ready, Stream.bufsz]

theorem toread_dirty (hn : s.nord = false) (hw : s.wbase ≠ s.wpos) :
    ∃ calls, s.toread ω = some ((s.wrote s.pending calls).ready, s.eof) := by
  obtain ⟨calls, h⟩ := stdioWrite_eq (ω := ω) (s := s) []
  refine ⟨calls, ?_⟩
  simp [Stream.toread, hw, h, Stream.wrote, hn, Stream.ready, Stream.bufsz]

namespace Rel

theorem ready (hn : s.nord = false) (hm : (s.nowr, s.app) = m) (hb : 0 < s.bufsz) (hd : s.data = t.data)
    (ho : s.off = t.pos) (he : s.eof = true → s.data.length ≤ s.off) : Rel m s.ready t ∧ Drained s.ready :=
  ⟨⟨hn, hm, hb, .reading s.bufsz s.bufsz rfl rfl rfl rfl rfl le_rfl he hd (by rw [Nat.sub_self]; exact ho)
    (by simp) (by simp)⟩, s.bufsz, rfl, rfl⟩

theorem pending_writing {k : Nat} (hpos : s.wpos = some k) (hbase : s.wbase = some 0) : s.pending = s.buf.take k := by
  simp [Stream.pending, dist, hpos, hbase]

/-- Turning to reading leaves nothing pending and the buffer drained. -/
theorem toread (h : Rel m s t) (hr : s.rpos = s.rend) : ∃ s', s.toread ω = some (s', s'.eof) ∧ Rel m s' t ∧
    Drained s' := by
  cases h.view with
  | idle rpos rend wpos wend wbase eof data off =>
    refine ⟨_, toread_clean h.nord (wbase.trans wpos.symm), ?_⟩
    apply ready h.nord h.modes h.bufsz data off
    rw [eof]
    nofun
  | reading a b rpos rend wpos wend wbase le eof data off =>
    have hab : a = b := some.inj (rpos.symm.trans (hr.trans rend))
    refine ⟨_, toread_clean h.nord (wbase.trans wpos.symm), ?_⟩
    apply ready h.nord h.modes h.bufsz data _ eof
    rw [off, hab, Nat.sub_self, Nat.add_zero]
  | writing k hw =>
    obtain ⟨rpos, rend, wpos, wend, wbase, le, eof, data, off⟩ := hw
    by_cases hk : k = 0
    · subst hk
      refine ⟨_, toread_clean h.nord (wbase.trans wpos.symm), ?_⟩
      apply ready h.nord h.modes h.bufsz
      · rw [data, take_zero, put_nil]
      · exact off.symm
      · rw [eof]
        nofun
    have hne : s.wbase ≠ s.wpos := by
      rw [wbase, wpos]
      simpa using Ne.symm hk
    obtain ⟨calls, ht⟩ := toread_dirty (ω := ω) h.nord hne
    refine ⟨_, ht, ?_⟩
    have hlen : (s.buf.take k).length = k := length_take_of_le le
    apply ready (s := s.wrote s.pending calls) h.nord h.modes h.bufsz
    · exact (pending_writing wpos wbase).symm ▸ data.symm
    · show s.off + s.pending.length = t.pos
      rw [pending_writing wpos wbase, hlen, off]
    show s.eof = true → _
    rw [eof]
    nofun

/-- A drained stream stands where the plain file stands. -/
theorem drained (h : Rel m s t) (hd : Drained s) :
    s.data = t.data ∧ s.off = t.pos ∧ s.wpos = none ∧ s.wend = none ∧ s.wbase = none ∧
    (s.eof = true → s.data.length ≤ s.off) := by
  obtain ⟨c, hr, he⟩ := hd
  cases h.view with
  | idle rpos =>
    rw [rpos] at hr
    cases hr
  | writing k hw =>
    rw [hw.rpos] at hr
    cases hr
  | reading a b rpos rend wpos wend wbase le eof data off =>
    cases rpos.symm.trans hr
    cases rend.symm.trans he
    rw [Nat.sub_self, Nat.add_zero] at off
    exact ⟨data, off, wpos, wend, wbase, eof⟩

/-- What `__stdio_read` of `len` bytes does for a drained stream. -/
structure Fills (m : Bool × Bool) (t : Plain) (len : Nat) (r : Stream × List UInt8) : Prop where
  rel : Rel m r.1 (t.skip r.2.length)
  bytes : r.2 = t.rest.take r.2.length
  le : r.2.length ≤ len
  /-- The buffer is not used before the bytes asked for are there. -/
  part : r.2.length < len → Drained r.1
  /-- Nothing is read only at the end of the file. -/
  none : r.2.length = 0 → len ≠ 0 ∨ r.1.rpos = r.1.rend → t.rest = []
  some : t.rest = [] → r.1.rpos = r.1.rend

/-- One refill delivers a part of what the plain file holds next. -/
theorem stdioRead (h : Rel m s t) (hd : Drained s) (len : Nat) : Fills m t len (s.stdioRead ω len) := by
  obtain ⟨hdata, hoff, hwpos, hwend, hwbase, heof⟩ := h.drained hd
  obtain ⟨a, hrpos, hrend⟩ := hd
  obtain ⟨m, hm, hmax, hr⟩ : ∃ m, 1 ≤ m ∧ m ≤ len + s.bufsz ∧ s.readv ω (len + s.bufsz) =
      ({ s with off := s.off + (t.rest.take m).length, calls := s.calls + 1 }, t.rest.take m) := by
    have := h.bufsz
    refine ⟨min (len + s.bufsz) (max 1 (ω s.calls)), by omega, min_le_left _ _, ?_⟩
    rw [Stream.readv, Plain.rest, hdata, hoff]
  have hL : (t.rest.take m).length = min m t.rest.length := length_take
  rw [Stream.stdioRead, hr]
  dsimp only
  split
  next hnil =>
    have hrest : t.rest = [] := by
      rw [hnil, length_nil] at hL
      rw [← length_eq_zero_iff]
      omega
    have hend : s.data.length ≤ s.off + (t.rest.take m).length := by
      rw [hnil, hdata, hoff]
      exact drop_eq_nil_iff.1 hrest
    refine ⟨{ h with
      view := .reading a a hrpos hrend hwpos hwend hwbase le_rfl (fun _ => hend) hdata ?_ (by simp) (by simp) },
        by simp, Nat.zero_le _, fun _ => ⟨a, hrpos, hrend⟩, fun _ _ => hrest, fun _ => hrpos.trans hrend.symm⟩
    rw [hnil, hoff, Nat.sub_self]
    rfl
  next hne =>
    have hpos : 0 < (t.rest.take m).length := length_pos_iff.2 hne
    split
    next hle =>
      refine ⟨{ h with view := .reading a a hrpos hrend hwpos hwend hwbase le_rfl ?_ hdata ?_ (by simp) (by simp) }, ?_,
        hle, fun _ => ⟨a, hrpos, hrend⟩, fun h0 => absurd h0 hpos.ne', fun _ => hrpos.trans hrend.symm⟩
      · intro he
        have := heof he
        show s.data.length ≤ s.off + _
        omega
      · rw [hoff, Nat.sub_self]
        rfl
      · rw [hL, take_eq_take_iff]
        omega
    next hlt =>
      have hlen : ((t.rest.take m).take len).length = len := length_take_of_le (by omega)
      have hx : (t.rest.take m).drop len = (t.rest.drop len).take ((t.rest.take m).length - len) := by
        rw [drop_take, take_eq_take_iff, hL, length_drop]
        omega
      have hfit : (t.rest.take m).length - len ≤ (t.rest.drop len).length := by
        rw [length_drop]
        omega
      refine ⟨⟨h.nord, h.modes, ?_, .reading 0 _ rfl rfl hwpos hwend hwbase (Nat.zero_le _) ?_ hdata ?_ ?_ ?_⟩, ?_,
        hlen.le, fun hlt' => absurd hlt' (by rw [hlen]; exact lt_irrefl _), ?_, ?_⟩
      · show 0 < (splice s.buf 0 _).length
        rw [length_splice (Nat.zero_le _)]
        exact lt_max_of_lt_left h.bufsz
      · intro he
        have := heof he
        show s.data.length ≤ s.off + _
        omega
      · show s.off + _ = t.pos + _ + _
        rw [hlen, hoff]
        omega
      · rw [hlen, Plain.rest_skip, Nat.sub_zero, ← hx]
        have hxlen : ((t.rest.take m).drop len).length = (t.rest.take m).length - len := length_drop
        simp [splice]
      · rw [hlen, Plain.rest_skip]
        exact hfit
      · rw [hlen, take_take, take_eq_take_iff]
        omega
      · intro h0 hor
        rw [hlen] at h0
        rcases hor with hz | hz
        · exact absurd h0 hz
        · have := some.inj hz
          omega
      intro hnil
      rw [hnil] at hpos
      cases m <;> cases hpos

theorem rest_nil_of_eof (h : Rel m s t) (hd : Drained s) (he : s.eof = true) : t.rest = [] := by
  obtain ⟨hdata, hoff, -, -, -, heof⟩ := h.drained hd
  rw [Plain.rest, drop_eq_nil_iff, ← hdata, ← hoff]
  exact heof he

/-- The unread bytes of the buffer are the next ones of the plain file. -/
theorem unread (h : Rel m s t) (hne : s.rpos ≠ s.rend) : s.unread ≠ [] ∧ s.unread = t.rest.take s.unread.length ∧
      ∀ n ≤ s.unread.length, Rel m { s with rpos := s.rpos.map (· + n) } (t.skip n) ∧
        (n = s.unread.length → Drained { s with rpos := s.rpos.map (· + n) }) := by
  cases h.view with
  | idle rpos rend => exact absurd (rpos.trans rend.symm) hne
  | writing k hw => exact absurd (hw.rpos.trans hw.rend.symm) hne
  | reading a b rpos rend wpos wend wbase le eof data off unread fit =>
    have hab : a ≠ b := by
      rintro rfl
      exact hne (rpos.trans rend.symm)
    have hu : s.unread = t.rest.take (b - a) := by
      rw [← unread, Stream.unread, rpos, rend]
      rfl
    have hlen : s.unread.length = b - a := by
      rw [hu]
      exact length_take_of_le fit
    refine ⟨by rw [← length_pos_iff]; omega, by rw [hlen]; exact hu, fun n hn => ⟨?_, fun he => ⟨b, ?_, rend⟩⟩⟩
    · refine { h with view := .reading (a + n) b (by simp [rpos]) rend wpos wend wbase (by omega) eof data ?_ ?_ ?_ }
      · show s.off = t.pos + n + (b - (a + n))
        omega
      · rw [Plain.rest_skip, ← drop_drop, Nat.sub_add_eq, ← drop_take, unread, drop_take]
      · rw [Plain.rest_skip, length_drop]
        omega
    · rw [rpos]
      exact congrArg some (show a + n = b by omega)

theorem head?_of_take {n : Nat} {l : List UInt8} {b : UInt8} (h : (l.take n).head? = some b) : l.head? = some b := by
  rw [head?_take] at h
  split at h
  · cases h
  · exact h

/-- `fgetc` returns the plain file's next byte. -/
theorem fgetc (h : Rel m s t) : ∃ s', s.fgetc ω = some (s', t.rest.head?) ∧
    Rel m s' (t.skip (t.rest.take 1).length) := by
  rw [Stream.fgetc]
  split
  next hne =>
    obtain ⟨hnil, htake, hskip⟩ := h.unread hne
    obtain ⟨b, u, hu⟩ := exists_cons_of_ne_nil hnil
    have hhead : s.unread.head? = some b := by
      rw [hu]
      rfl
    have hb : s.buf[s.rpos.getD 0]? = some b := by
      rw [← head?_drop]
      exact head?_of_take hhead
    have hrest : t.rest.head? = some b := by
      rw [htake] at hhead
      exact head?_of_take hhead
    refine ⟨_, by rw [getD_eq_getElem?_getD, hb, hrest]; rfl, ?_⟩
    have hone : (t.rest.take 1).length = 1 := by
      rw [length_take]
      have := length_pos_of_mem (mem_of_head? hrest)
      omega
    rw [hone]
    exact (hskip 1 (by rw [hu, length_cons]; omega)).1
  next he =>
    obtain ⟨s1, ht, h1, hd⟩ := h.toread (ω := ω) (not_ne_iff.1 he)
    simp only [ht, bind_eq_bind, bind_some]
    cases heof : s1.eof with
    | true =>
      rw [h1.rest_nil_of_eof hd heof]
      exact ⟨s1, rfl, h1⟩
    | false =>
      have hread := h1.stdioRead (ω := ω) hd 1
      rcases hr : s1.stdioRead ω 1 with ⟨s2, bytes⟩
      rw [hr] at hread
      obtain ⟨hrel, hbytes, hle, -, hnone, -⟩ := hread
      dsimp only at hrel hbytes hle hnone ⊢
      by_cases hone : bytes.length = 1
      · rw [hone] at hrel hbytes
        rw [← hbytes, hone]
        refine ⟨s2, ?_, hrel⟩
        cases hrest : t.rest with
        | nil =>
          rw [hrest, take_nil] at hbytes
          rw [hbytes] at hone
          cases hone
        | cons b rest =>
          rw [hbytes, hrest]
          rfl
      · have hzero : bytes.length = 0 := by omega
        rw [if_pos hone, hnone hzero (.inl one_ne_zero)]
        rw [hzero] at hrel
        exact ⟨s2, rfl, hrel⟩

/-- The loop of `fread` delivers the bytes that are left of the request. -/
theorem freadLoop {fuel rem : Nat} (h : Rel m s t) (hr : rem = 0 ∨ s.rpos = s.rend) (hf : rem < fuel) :
    ∃ s', Stream.freadLoop ω fuel s rem = some (s', t.rest.take rem) ∧ Rel m s' (t.skip (t.rest.take rem).length) := by
  induction fuel generalizing s t rem with
  | zero => cases hf
  | succ fuel ih =>
    rw [Stream.freadLoop]
    split
    next h0 =>
      subst h0
      exact ⟨s, rfl, h⟩
    next h0 =>
      obtain ⟨s1, ht, h1, hd⟩ := h.toread (ω := ω) (hr.resolve_left h0)
      simp only [ht, bind_eq_bind, bind_some]
      cases heof : s1.eof with
      | true =>
        rw [h1.rest_nil_of_eof hd heof, take_nil]
        exact ⟨s1, rfl, h1⟩
      | false =>
        have hread := h1.stdioRead (ω := ω) hd rem
        rcases hr : s1.stdioRead ω rem with ⟨s2, bytes⟩
        rw [hr] at hread
        obtain ⟨hrel, hbytes, hle, hpart, hnone, -⟩ := hread
        dsimp only at hrel hbytes hle hpart hnone ⊢
        by_cases hnil : bytes = []
        · rw [if_pos hnil]
          rw [hnil, length_nil] at hrel hnone
          rw [hnone rfl (.inl h0), take_nil]
          exact ⟨s2, rfl, hrel⟩
        rw [if_neg hnil]
        have hpos := length_pos_iff.2 hnil
        have hdrained : rem - bytes.length = 0 ∨ s2.rpos = s2.rend := by
          rcases hle.eq_or_lt with he | hlt
          · exact .inl (by omega)
          · obtain ⟨a, ha, hb⟩ := hpart hlt
            exact .inr (ha.trans hb.symm)
        obtain ⟨s3, hloop, h3⟩ := ih hrel hdrained (by omega)
        rw [Plain.rest_skip] at hloop h3
        have htake : t.rest.take rem = bytes ++ (t.rest.drop bytes.length).take (rem - bytes.length) := by
          conv_lhs => rw [← Nat.add_sub_of_le hle, take_add, ← hbytes]
        rw [htake]
        refine ⟨s3, by rw [hloop]; rfl, ?_⟩
        rw [length_append, ← Plain.skip_skip]
        exact h3

/-- `fread` returns the plain file's next `size * nmemb` bytes, or all that are left. -/
theorem fread {size nmemb : Nat} (h : Rel m s t) (hlt : size * nmemb < 2 ^ 64) :
    ∃ s', s.fread ω size nmemb = some (s', t.rest.take (size * nmemb), (t.rest.take (size * nmemb)).length / size) ∧
      Rel m s' (t.skip (t.rest.take (size * nmemb)).length) := by
  rw [Stream.fread, u64_of_lt hlt]
  generalize size * nmemb = len
  by_cases hne : s.rpos ≠ s.rend
  · obtain ⟨-, htake, hskip⟩ := h.unread hne
    have hle : (s.unread.take len).length ≤ s.unread.length := length_take_le' _ _
    obtain ⟨hrel, hdrained⟩ := hskip _ hle
    have hdone : len - (s.unread.take len).length = 0 ∨
        s.rpos.map (· + (s.unread.take len).length) = s.rend := by
      rw [length_take]
      rcases le_total len s.unread.length with hl | hl
      · exact .inl (by omega)
      rw [Nat.min_eq_right hl]
      rw [length_take, Nat.min_eq_right hl] at hdrained
      obtain ⟨a, ha, hb⟩ := hdrained rfl
      exact .inr (ha.trans hb.symm)
    obtain ⟨s1, hloop, h1⟩ := hrel.freadLoop (ω := ω) hdone (Nat.lt_succ_of_le (Nat.sub_le _ _))
    have hout : s.unread.take len ++ (t.rest.drop (s.unread.take len).length).take (len - (s.unread.take len).length) =
      t.rest.take len := by
      have htake' : s.unread.take len = t.rest.take (s.unread.take len).length := by
        rw [length_take, ← take_take, ← htake]
      nth_rewrite 1 [htake']
      rw [← take_add, Nat.add_sub_of_le (length_take_le _ _)]
    rw [Plain.rest_skip] at hloop h1
    rw [Plain.skip_skip, ← length_append, hout] at h1
    simp only [if_pos hne]
    refine ⟨s1, ?_, h1⟩
    rw [hloop, ← hout]
    rfl
  · obtain ⟨s1, hloop, h1⟩ := h.freadLoop (ω := ω) (.inr (not_ne_iff.1 hne)) (Nat.lt_succ_self len)
    simp only [if_neg hne, length_nil, Nat.sub_zero]
    rw [hloop]
    exact ⟨s1, rfl, h1⟩

/-- The loop of `fgets` delivers the rest of the line. -/
theorem fgetsLoop {fuel rem : Nat} (h : Rel m s t) (hne : s.rpos ≠ s.rend) (hf : rem < fuel) :
    ∃ s', Stream.fgetsLoop ω fuel s rem = some (s', line rem t.rest) ∧ Rel m s' (t.skip (line rem t.rest).length) := by
  induction fuel generalizing s t rem with
  | zero => cases hf
  | succ fuel ih =>
    obtain ⟨hnil, htake, hskip⟩ := h.unread hne
    have hsplit : t.rest = s.unread ++ t.rest.drop s.unread.length := by
      have happ := take_append_drop s.unread.length t.rest
      rw [← htake] at happ
      exact happ.symm
    rw [Stream.fgetsLoop]
    cases hfind : s.unread.findIdx? (· = EOL) with
    | some i =>
      have hline : line rem t.rest = s.unread.take (min rem (i + 1)) := by
        conv_lhs => rw [hsplit]
        exact line_of_find hfind
      rw [hline]
      exact ⟨_, if_pos (.inl rfl), (hskip _ (length_take_le' _ _)).1⟩
    | none =>
      have hline : line rem t.rest = s.unread.take rem ++ line (rem - s.unread.length)
        (t.rest.drop s.unread.length) := by
        conv_lhs => rw [hsplit]
        exact line_append hfind
      have hcut : s.unread.take (min rem s.unread.length) = s.unread.take rem := by
        rw [take_eq_take_iff]
        omega
      rw [hcut]
      by_cases hrem : rem ≤ s.unread.length
      · have hlen : (s.unread.take rem).length = rem := length_take_of_le hrem
        rw [if_pos (.inr (by rw [hlen]; exact Nat.sub_self rem))]
        rw [Nat.sub_eq_zero_of_le hrem, line, append_nil] at hline
        rw [hline]
        exact ⟨_, rfl, (hskip _ (length_take_le' _ _)).1⟩
      rw [not_le] at hrem
      rw [take_of_length_le hrem.le] at hline ⊢
      obtain ⟨hrel, hdrained⟩ := hskip _ le_rfl
      have hread := hrel.stdioRead (ω := ω) (hdrained rfl) 0
      rw [if_neg (by simp only [isSome_none, Bool.false_eq_true, false_or]; omega)]
      rcases hr : Stream.stdioRead ω { s with rpos := s.rpos.map (· + s.unread.length) } 0 with ⟨s2, bytes⟩
      rw [hr] at hread
      obtain ⟨hrel2, -, hle, -, hnone, -⟩ := hread
      obtain rfl : bytes = [] := length_eq_zero_iff.1 (Nat.le_zero.1 hle)
      rw [if_neg (not_not.2 rfl)]
      by_cases hend : s2.rpos = s2.rend
      · have hrest := hnone rfl (.inr hend)
        rw [Plain.rest_skip] at hrest
        have hnil' : line (rem - s.unread.length) [] = [] := by cases rem - s.unread.length <;> rfl
        rw [hrest, hnil', append_nil] at hline
        rw [if_pos hend, hline]
        exact ⟨s2, rfl, hrel2⟩
      have hpos : 0 < s.unread.length := length_pos_iff.2 hnil
      obtain ⟨s3, hloop, h3⟩ := ih hrel2 hend (show rem - s.unread.length < fuel by omega)
      rw [if_neg hend]
      have hrest : ((t.skip s.unread.length).skip ([] : List UInt8).length).rest = t.rest.drop s.unread.length := by
        rw [Plain.rest_skip, Plain.rest_skip]
        rfl
      rw [hrest] at hloop h3
      rw [hloop, hline, length_append, ← Plain.skip_skip]
      exact ⟨s3, rfl, h3⟩

/-- `fgets` returns the plain file's next line, cut at `n - 1` bytes. -/
theorem fgets (h : Rel m s t) (n : Nat) :
    ∃ s', s.fgets ω n = some (s', if t.rest = [] then none else some (line (n - 1) t.rest)) ∧
      Rel m s' (if t.rest = [] then t else t.skip (line (n - 1) t.rest).length) := by
  rw [Stream.fgets]
  by_cases hne : s.rpos ≠ s.rend
  · obtain ⟨hnil, htake, -⟩ := h.unread hne
    have hrest : t.rest ≠ [] := by
      intro hr
      rw [hr, take_nil] at htake
      exact hnil htake
    obtain ⟨s1, hloop, h1⟩ := h.fgetsLoop (ω := ω) hne (show n - 1 < n + 1 by omega)
    rw [if_pos hne, if_neg hrest, if_neg hrest, hloop]
    exact ⟨s1, rfl, h1⟩
  obtain ⟨s1, ht, h1, hd⟩ := h.toread (ω := ω) (not_ne_iff.1 hne)
  rw [if_neg hne]
  simp only [ht, bind_eq_bind, bind_some]
  cases heof : s1.eof with
  | true =>
    have hrest := h1.rest_nil_of_eof hd heof
    rw [if_pos hrest, if_pos hrest]
    exact ⟨s1, rfl, h1⟩
  | false =>
    have hread := h1.stdioRead (ω := ω) hd 0
    rcases hr : s1.stdioRead ω 0 with ⟨s2, bytes⟩
    rw [hr] at hread
    obtain ⟨hrel, -, hle, -, hnone, hsome⟩ := hread
    obtain rfl : bytes = [] := length_eq_zero_iff.1 (Nat.le_zero.1 hle)
    by_cases hend : s2.rpos = s2.rend
    · have hrest := hnone rfl (.inr hend)
      rw [if_pos hend, if_pos hrest, if_pos hrest]
      exact ⟨s2, rfl, hrel⟩
    have hrest : t.rest ≠ [] := fun hr => hend (hsome hr)
    obtain ⟨s3, hloop, h3⟩ := hrel.fgetsLoop (ω := ω) hend (show n - 1 < n + 1 by omega)
    rw [if_neg hend, if_neg hrest, if_neg hrest]
    rw [hloop]
    exact ⟨s3, rfl, h3⟩

end Rel

/-! ## Writing -/

namespace Writing

variable {k : Nat} {bytes : List UInt8}

theorem pending (h : Writing s t k) : s.pending = s.buf.take k := Rel.pending_writing h.wpos h.wbase

theorem wrote (h : Writing s t k) (calls : Nat) : Writing (s.wrote (s.pending ++ bytes) calls) (t.write bytes) 0 := by
  have hlen : (s.buf.take k).length = k := length_take_of_le h.le
  have hput := put_put s.data s.off (s.buf.take k) bytes
  rw [hlen] at hput
  refine ⟨h.rpos, h.rend, rfl, rfl, rfl, Nat.zero_le _, h.eof, ?_, ?_⟩
  · show put t.data t.pos bytes = put (put s.data s.off (s.pending ++ bytes)) _ ((s.wrote _ _).buf.take 0)
    rw [take_zero, put_nil, h.data, h.off, h.pending, hput]
  · show t.pos + bytes.length = s.off + (s.pending ++ bytes).length + 0
    rw [h.off, h.pending, length_append, hlen, Nat.add_zero, Nat.add_assoc]

/-- Bytes that fit are kept in the buffer. -/
theorem store (h : Writing s t k) (hfit : k + bytes.length ≤ s.bufsz) : Writing (s.store bytes) (t.write bytes)
    (k + bytes.length) := by
  have hle : k ≤ s.buf.length := h.le
  have hlen : (s.buf.take k).length = k := length_take_of_le hle
  have hbuf : (s.store bytes).buf = splice s.buf k bytes := by
    rw [Stream.store, h.wpos]
    rfl
  have hsz : (s.store bytes).bufsz = s.bufsz := by
    rw [Stream.bufsz, hbuf, length_splice hle]
    exact max_eq_left hfit
  have hput := put_put s.data s.off (s.buf.take k) bytes
  rw [hlen] at hput
  refine ⟨h.rpos, h.rend,
    by simp [Stream.store, h.wpos], by rw [hsz]; exact h.wend, h.wbase, by rw [hsz]; exact hfit, h.eof, ?_, ?_⟩
  · show put t.data t.pos bytes = put s.data s.off ((s.store bytes).buf.take _)
    have htake : (splice s.buf k bytes).take (k + bytes.length) = s.buf.take k ++ bytes := by
      rw [splice, take_append_of_le_length (by rw [length_append, hlen])]
      exact take_of_length_le (by rw [length_append, hlen])
    rw [hbuf, htake, h.data, h.off, hput]
  · show t.pos + bytes.length = s.off + (k + bytes.length)
    rw [h.off, Nat.add_assoc]

end Writing

namespace Rel

variable {bytes : List UInt8}

/-- Turning to writing changes nothing of what the stream stands for. -/
theorem towrite (h : Rel m s t) (hm : m.1 = false) (hr : s.rpos = none) : ∃ s1 k,
    (if s.wpos = none then s.towrite else (s, false)) = (s1, false) ∧
    (if s.wend = none then s.towrite else (s, false)) = (s1, false) ∧
      Rel m s1 t ∧ Writing s1 t k := by
  cases h.view with
  | idle rpos rend wpos wend wbase eof data off =>
    have hw : Writing { s with rpos := none, rend := none, wpos := some 0, wbase := some 0,
                               wend := some s.bufsz } t 0 :=
      ⟨rfl, rfl, rfl, rfl, rfl, Nat.zero_le _, eof, by rw [take_zero, put_nil]; exact data.symm, off.symm⟩
    have ht : s.towrite = ({ s with rpos := none, rend := none, wpos := some 0, wbase := some 0, wend := some s.bufsz },
      false) := by
      rw [Stream.towrite, show s.nowr = false from (congrArg Prod.fst h.modes).trans hm]
      rfl
    have h1 := Rel.mk (s := { s with rpos := none, rend := none, wpos := some 0, wbase := some 0,
                                     wend := some s.bufsz }) h.nord
      h.modes h.bufsz (.writing 0 hw)
    exact ⟨_, 0, (if_pos wpos).trans ht, (if_pos wend).trans ht, h1, hw⟩
  | reading a b rpos =>
    rw [rpos] at hr
    cases hr
  | writing k hw => exact ⟨s, k, by rw [hw.wpos]; rfl, by rw [hw.wend]; rfl, h, hw⟩

theorem stdioWrite {k : Nat} (h : Rel m s t) (hw : Writing s t k) (bytes : List UInt8) :
    ∃ s', s.stdioWrite ω bytes = some s' ∧ Rel m s' (t.write bytes) ∧ Writing s' (t.write bytes) 0 ∧
    s'.bufsz = s.bufsz := by
  obtain ⟨calls, hs⟩ := stdioWrite_eq (ω := ω) (s := s) bytes
  exact ⟨_, hs, { h with view := .writing 0 (hw.wrote calls) }, hw.wrote calls, rfl⟩

theorem store {k : Nat} (h : Rel m s t) (hw : Writing s t k) (bytes : List UInt8) (hfit : k + bytes.length ≤ s.bufsz) :
    Rel m (s.store bytes) (t.write bytes) ∧ (s.store bytes).rpos = none := by
  have hw' := hw.store hfit
  refine ⟨⟨h.nord, h.modes, ?_, .writing _ hw'⟩, hw'.rpos⟩
  show 0 < (splice s.buf (s.wpos.getD 0) bytes).length
  rw [hw.wpos, getD_some, length_splice hw.le]
  exact lt_max_of_lt_left h.bufsz

/-- `fputc` writes one byte. -/
theorem fputc (h : Rel m s t) (hm : m.1 = false) (hr : s.rpos = none) (c : Int) :
    ∃ s' ret, s.fputc ω c = some (s', ret) ∧ Rel m s' (t.write [UInt8.ofInt c]) ∧ s'.rpos = none := by
  obtain ⟨s1, k, ht, -, h1, hw⟩ := h.towrite hm hr
  rw [Stream.fputc, ht]
  rw [if_neg Bool.false_ne_true]
  split
  next hroom =>
    have hk : k ≠ s1.bufsz := by
      have := hroom.1
      rw [hw.wpos, hw.wend] at this
      simpa using this
    obtain ⟨hrel, hrpos⟩ := h1.store hw [UInt8.ofInt c] (Nat.lt_of_le_of_ne hw.le hk)
    exact ⟨_, _, rfl, hrel, hrpos⟩
  next =>
    obtain ⟨s2, hs, h2, hw2, -⟩ := h1.stdioWrite (ω := ω) hw [UInt8.ofInt c]
    rw [hs]
    exact ⟨s2, c, rfl, h2, hw2.rpos⟩

theorem write_append (t : Plain) (x y : List UInt8) : (t.write x).write y = t.write (x ++ y) := by
  rw [Plain.write, Plain.write, Plain.write, put_put, length_append, Nat.add_assoc]

theorem write_nil (t : Plain) : t.write [] = t := by rfl

theorem lastEol_le (bytes : List UInt8) : ∀ i, Stream.lastEol bytes i ≤ i
  | 0 => le_rfl
  | i + 1 => by
    rw [Stream.lastEol]
    split
    · exact le_rfl
    · exact (lastEol_le bytes i).trans (Nat.le_succ i)

/-- `fwritex` writes all bytes, flushing up to the last end of line where the stream is line buffered. -/
theorem fwritex (h : Rel m s t) (hm : m.1 = false) (hr : s.rpos = none) (bytes : List UInt8) :
    ∃ s', s.fwritex ω bytes = some (s', bytes.length) ∧ Rel m s' (t.write bytes) ∧ s'.rpos = none := by
  obtain ⟨s1, k, -, ht, h1, hw⟩ := h.towrite hm hr
  have hall : ∃ s', ((s1.stdioWrite ω bytes).bind fun s' => some (s', bytes.length)) = some (s', bytes.length) ∧
    Rel m s' (t.write bytes) ∧
      s'.rpos = none := by
    obtain ⟨s2, hs, h2, hw2, -⟩ := h1.stdioWrite (ω := ω) hw bytes
    exact ⟨s2, by rw [hs]; rfl, h2, hw2.rpos⟩
  rw [Stream.fwritex, ht]
  rw [if_neg Bool.false_ne_true]
  split
  · exact hall
  next hroom =>
    split
    next =>
      have hdist : dist s1.wend s1.wpos = s1.bufsz - k := by
        rw [hw.wend, hw.wpos]
        rfl
      rw [hdist, not_lt] at hroom
      have hle := lastEol_le bytes bytes.length
      have hk := hw.le
      generalize Stream.lastEol bytes bytes.length = i at hle ⊢
      have hlen : (bytes.drop i).length + i = bytes.length := by
        rw [length_drop]
        omega
      by_cases hi : i ≠ 0
      · obtain ⟨s2, hs, h2, hw2, hsz⟩ := h1.stdioWrite (ω := ω) hw (bytes.take i)
        obtain ⟨hrel, hrpos⟩ := h2.store hw2 (bytes.drop i) (by rw [hsz]; omega)
        rw [write_append, take_append_drop] at hrel
        rw [if_pos hi, hs, hlen]
        exact ⟨_, rfl, hrel, hrpos⟩
      rw [not_ne_iff] at hi
      subst hi
      obtain ⟨hrel, hrpos⟩ := h1.store hw (bytes.drop 0) (by rw [drop_zero]; omega)
      exact ⟨_, rfl, hrel, hrpos⟩
    · exact hall

/-- `fwrite` writes `nmemb` objects. -/
theorem fwrite {ptr : List UInt8} {size nmemb : Nat} (h : Rel m s t) (hm : m.1 = false) (hr : s.rpos = none)
    (hptr : ptr.length = size * nmemb) (hlt : size * nmemb < 2 ^ 64) :
    ∃ s', s.fwrite ω ptr size nmemb = some (s', if size = 0 then 0 else nmemb) ∧ Rel m s' (t.write ptr) ∧
    s'.rpos = none := by
  rw [Stream.fwrite, u64_of_lt hlt]
  split
  next h0 =>
    have hnil : ptr = [] := by
      rw [← length_eq_zero_iff, hptr]
      exact Nat.mul_eq_zero.2 h0
    rw [hnil, write_nil]
    refine ⟨s, ?_, h, hr⟩
    rcases h0 with h0 | h0 <;> simp [h0]
  next h0 =>
    rw [not_or] at h0
    obtain ⟨s1, hs, h1, hr1⟩ := h.fwritex (ω := ω) hm hr ptr
    dsimp only
    rw [take_of_length_le hptr.le, hs, if_neg h0.1]
    exact ⟨s1, by rw [hptr]; exact congrArg (fun n => some (s1, n)) (if_pos rfl), h1, hr1⟩

/-! ## Positions -/

/-- Without pending bytes the file's offset is ahead by what is unread. -/
theorem clean (h : Rel m s t) (hw : s.wpos = s.wbase) : s.data = t.data ∧ (s.off : Int) = t.pos + dist s.rend s.rpos ∧
    (s.rend = none → s.rpos = none) ∧
    ∀ p, Rel m { s with off := p, rpos := none, rend := none, eof := false } { t with pos := p } := by
  cases h.view with
  | idle rpos rend wpos wend wbase eof data off =>
    refine ⟨data, by rw [rend, rpos, off]; rfl, fun _ => rpos, fun p => { h with view := ?_ }⟩
    exact .idle rfl rfl wpos wend wbase rfl data rfl
  | reading a b rpos rend wpos wend wbase le eof data off =>
    refine ⟨data, ?_, fun hn => ?_, fun p => { h with view := ?_ }⟩
    · rw [rend, rpos, off]
      exact Nat.cast_add _ _
    · rw [rend] at hn
      cases hn
    · exact .idle rfl rfl wpos wend wbase rfl data rfl
  | writing k hk =>
    rw [hk.wpos, hk.wbase] at hw
    cases some.inj hw
    have hdata : s.data = t.data := by rw [hk.data, take_zero, put_nil]
    refine ⟨hdata, by rw [hk.rend, hk.rpos, hk.off]; rfl, fun _ => hk.rpos, fun p => { h with view := ?_ }⟩
    refine .writing 0 ⟨rfl, rfl, hk.wpos, hk.wend, hk.wbase, Nat.zero_le _, rfl, ?_, rfl⟩
    exact hdata.symm

/-- Seeking first flushes the pending bytes. -/
theorem seekFlush (h : Rel m s t) :
    ∃ s1, s.seekFlush ω = some s1 ∧ Rel m s1 t ∧ s1.wpos = s1.wbase ∧ s1.rpos = s.rpos ∧ s1.rend = s.rend := by
  rw [Stream.seekFlush]
  by_cases hw : s.wpos ≠ s.wbase
  · cases h.view with
    | idle rpos rend wpos wend wbase => exact absurd (wpos.trans wbase.symm) hw
    | reading a b rpos rend wpos wend wbase => exact absurd (wpos.trans wbase.symm) hw
    | writing k hk =>
      obtain ⟨s1, hs, h1, hk1, -⟩ := h.stdioWrite (ω := ω) hk []
      rw [write_nil] at h1 hk1
      have hv : View { s1 with wpos := none, wbase := none, wend := none } t :=
        .idle hk1.rpos hk1.rend rfl rfl rfl hk1.eof (by rw [hk1.data, take_zero, put_nil]) hk1.off.symm
      rw [if_pos hw, hs]
      exact ⟨_, rfl, { h1 with view := hv }, rfl, hk1.rpos.trans hk.rpos.symm, hk1.rend.trans hk.rend.symm⟩
  · exact ⟨s, if_neg hw, h, not_ne_iff.1 hw, rfl, rfl⟩

/-- A stream and its file agree on where an `fseeko` goes. -/
theorem goal (h : Rel m s t) (offset whence : Int) : s.goal offset whence =
    base whence t.pos t.data.length + offset := by
  have hpos : s.pos = t.pos ∧ put s.data s.off s.pending = t.data := by
    rw [Stream.pos]
    cases h.view with
    | idle rpos rend wpos wend wbase eof data off =>
      have hp : s.pending = [] := by simp [Stream.pending, dist, wpos, wbase]
      have hu : s.unread = [] := by simp [Stream.unread, dist, rpos, rend]
      rw [hp, hu, put_nil, data, off]
      simp
    | reading a b rpos rend wpos wend wbase le eof data off unread fit =>
      have hp : s.pending = [] := by simp [Stream.pending, dist, wpos, wbase]
      have hu : s.unread.length = b - a := by
        rw [Stream.unread, rpos, rend, getD_some]
        exact (congrArg length unread).trans (length_take_of_le fit)
      rw [hp, hu, put_nil, data, off]
      simp
    | writing k hw =>
      have hlen : (s.buf.take k).length = k := length_take_of_le hw.le
      have hu : s.unread = [] := by simp [Stream.unread, dist, hw.rpos, hw.rend]
      rw [pending_writing hw.wpos hw.wbase, hlen, hu, hw.off, hw.data]
      simp
  rw [Stream.goal, base, hpos.1, hpos.2]

theorem lseek_eq {offset whence : Int} {p : Nat} (hp : base whence s.off s.data.length + offset = p)
    (hlt : p < 2 ^ 63) : s.lseek offset whence = ({ s with off := p }, (p : Int)) := by
  have hmod : (p : Int) % 2 ^ 64 = p := Int.emod_eq_of_lt (by omega) (by omega)
  have hpos : (p : Int) < 2 ^ 63 := by omega
  simp only [Stream.lseek, hp, hmod, if_pos hpos, Int.toNat_natCast]
  rw [if_neg (by omega)]

/-- A seek relative to the position counts the unread bytes. -/
theorem lseek (h : Rel m s t) (hw : s.wpos = s.wbase) (offset : Int) {whence : Int} {p : Nat}
    (hp : base whence t.pos t.data.length + offset = p) (hlt : p < 2 ^ 63) :
    s.lseek (if whence = SEEK_CUR ∧ s.rend ≠ none then offset - dist s.rend s.rpos else offset) whence =
      ({ s with off := p }, (p : Int)) := by
  obtain ⟨hdata, hoff, hnone, -⟩ := h.clean hw
  refine lseek_eq (Eq.trans ?_ hp) hlt
  by_cases hcur : whence = SEEK_CUR
  · subst hcur
    show (s.off : Int) + _ = t.pos + offset
    by_cases hr : s.rend = none
    · rw [if_neg (fun hn => hn.2 hr), hoff, hr, hnone hr]
      simp [dist]
    · rw [if_pos ⟨rfl, hr⟩, hoff]
      omega
  · rw [if_neg (fun hn => hcur hn.1), base, base, if_neg hcur, if_neg hcur, hdata]

/-- `fseeko` moves the plain file's position and drops the buffer. -/
theorem fseeko (h : Rel m s t) {offset whence : Int}
    (hfit : BadWhence whence ∨ (0 ≤ s.goal offset whence ∧ s.goal offset whence < 2 ^ 63)) :
    ∃ s' ret, s.fseeko ω offset whence = some (s', ret) ∧
    (t.step (.fseeko offset whence)).2 = .sought ret ∧ Rel m s' (t.step (.fseeko offset whence)).1 ∧
    (ret = 0 → s'.rpos = none ∧ s'.data = t.data) ∧ (ret ≠ 0 → s'.rpos = s.rpos) := by
  by_cases hwh : BadWhence whence
  · refine ⟨s, -1, by rw [Stream.fseeko, if_pos hwh]; rfl, ?_⟩
    rw [Plain.step, Plain.target, if_pos hwh]
    exact ⟨rfl, h, nofun, fun _ => rfl⟩
  obtain ⟨h0, hlt⟩ := hfit.resolve_left hwh
  rw [h.goal] at h0 hlt
  obtain ⟨p, hp⟩ := Int.eq_ofNat_of_zero_le h0
  obtain ⟨s1, hflush, h1, hw1, hrpos, hrend⟩ := h.seekFlush (ω := ω)
  have hseek := h1.lseek hw1 offset hp (by omega)
  rw [hrpos, hrend] at hseek
  have htarget : t.target offset whence = some p := by
    rw [Plain.target, if_neg hwh, hp]
    rfl
  obtain ⟨hdata, -, -, hany⟩ := h1.clean hw1
  rw [Stream.fseeko, if_neg hwh, hflush, bind_eq_bind, bind_some, hseek, Plain.step, htarget]
  exact ⟨_, 0, if_neg (by simp), rfl, hany p, fun _ => ⟨rfl, hdata⟩, fun h0 => absurd rfl h0⟩

/-- `ftello` tells the plain file's position. -/
theorem ftello (h : Rel m s t) (hm : m.2 = false) (hlt : s.off < 2 ^ 63) : s.ftello = (s, (t.pos : Int)) := by
  have hfd : s.fdpos = (s, (s.off : Int)) := by
    rw [Stream.fdpos, show s.app = false from (congrArg Prod.snd h.modes).trans hm, if_neg (by simp)]
    exact lseek_eq (by simp [base, SEEK_CUR, SEEK_SET]) hlt
  rw [Stream.ftello, hfd]
  dsimp only
  rw [if_neg (by omega)]
  congr 1
  cases h.view with
  | idle rpos rend wpos wend wbase eof data off => simp [rend, wbase, off]
  | reading a b rpos rend wpos wend wbase le eof data off =>
    simp only [rend, rpos, off, ne_eq, reduceCtorEq, not_false_eq_true, if_true, getD_some]
    omega
  | writing k hk =>
    simp only [hk.rend, hk.wbase, hk.wpos, hk.off, ne_eq, not_true_eq_false, reduceCtorEq, not_false_eq_true,
      if_true, if_false, getD_some]
    omega

end Rel

/-! ## Runs -/

/-- The functions that read; the items are in an object. -/
def Op.Reads : Op → Prop
  | .fgetc => True
  | .fread size nmemb => 0 < size ∧ size * nmemb < 2 ^ 64
  | .fgets n => 1 ≤ n
  | _ => False

/-- The reading calls, taken together. -/
theorem Rel.step_read {o : Op} (h : Rel m s t) (ho : o.Reads) (ahead : Bool) (outs : List Out) :
    ∃ f, Sys.step ω ⟨s, ahead, outs⟩ o = some ⟨f, true, outs ++ [(t.step o).2]⟩ ∧ Rel m f (t.step o).1 := by
  cases o with
  | fgetc =>
    obtain ⟨f, hs, hrel⟩ := h.fgetc (ω := ω)
    exact ⟨f, by rw [Sys.step, hs]; rfl, hrel⟩
  | fread size nmemb =>
    obtain ⟨f, hs, hrel⟩ := h.fread (ω := ω) ho.2
    exact ⟨f, by rw [Sys.step, hs]; rfl, hrel⟩
  | fgets n =>
    obtain ⟨f, hs, hrel⟩ := h.fgets (ω := ω) n
    refine ⟨f, by rw [Sys.step, hs, Plain.step]; split <;> rfl, ?_⟩
    rw [Plain.step]
    split at hrel <;> split <;> first | exact hrel | contradiction
  | fputc | fwrite | fseeko | ftello => cases ho

/-- The plain file and what was returned. -/
def spec (t : Plain × List Out) (o : Op) : Plain × List Out := ((t.1.step o).1, t.2 ++ [(t.1.step o).2])

/-- A run of the stream and a run of the plain file. -/
structure Follows (s : Sys) (t : Plain × List Out) : Prop where
  rel : Rel (false, false) s.stream t.1
  ahead : s.ahead = false → s.stream.rpos = none
  outs : s.outs = t.2

/-- One call of the stream is one call of the plain file. -/
theorem Follows.step {s : Sys} {t : Plain × List Out} {o : Op} (h : Follows s t) (hf : Fine s o) :
    ∃ s', s.step ω o = some s' ∧ Follows s' (spec t o) := by
  have houts : ∀ out, s.outs ++ [out] = t.2 ++ [out] := fun out => by rw [h.outs]
  have hread : o.Reads → ∃ s', s.step ω o = some s' ∧ Follows s' (spec t o) := fun ho => by
    obtain ⟨f, hs, hrel⟩ := h.rel.step_read (ω := ω) ho s.ahead s.outs
    exact ⟨_, hs, hrel, Bool.noConfusion, houts _⟩
  cases o with
  | fgetc | fread | fgets => exact hread hf
  | fputc c =>
    obtain ⟨f, ret, hs, hrel, hr⟩ := h.rel.fputc (ω := ω) rfl (h.ahead hf) c
    exact ⟨_, by rw [Sys.step, hs]; rfl, hrel, fun _ => hr, houts _⟩
  | fwrite ptr size nmemb =>
    obtain ⟨hahead, hptr, hlt⟩ := hf
    obtain ⟨f, hs, hrel, hr⟩ := h.rel.fwrite (ω := ω) rfl (h.ahead hahead) hptr hlt
    refine ⟨_, by rw [Sys.step, hs]; rfl, ?_, fun _ => hr, houts _⟩
    rw [spec, Plain.step, take_of_length_le hptr.le]
    exact hrel
  | fseeko offset whence =>
    obtain ⟨f, ret, hs, hout, hrel, hok, hfail⟩ := h.rel.fseeko (ω := ω) hf
    refine ⟨_, by rw [Sys.step, hs]; rfl, hrel, ?_, by rw [spec, hout]; exact houts _⟩
    intro hahead
    by_cases h0 : ret = 0
    · exact (hok h0).1
    · rw [if_neg h0] at hahead
      exact (hfail h0).trans (h.ahead hahead)
  | ftello =>
    have ht := h.rel.ftello rfl hf
    refine ⟨_, rfl, ?_, ?_, ?_⟩
    · rw [ht]
      exact h.rel
    · rw [ht]
      exact h.ahead
    · rw [ht]
      exact houts _

/-- **A buffered stream is a plain file**: every function returns, with what the plain file returns, and when an
`fseeko` succeeds the file has the contents of the plain file. -/
theorem stream_plain (ω : Nat → Nat) (data : List UInt8) (off : Nat) (buf : List UInt8) (lbf : Int) (os : List Op)
    (hbuf : 0 < buf.length) (hos : Meets (Sys.step ω) Fine ⟨fdopen data off buf lbf, false, []⟩ os) :
    ∃ s t, run (Sys.step ω) ⟨fdopen data off buf lbf, false, []⟩ os = some s ∧ t = os.foldl spec (⟨data, off⟩, []) ∧
    s.outs = t.2 ∧
      ∀ offset whence, Fine s (.fseeko offset whence) →
        ∃ f ret, s.stream.fseeko ω offset whence = some (f, ret) ∧ (ret = 0 → f.data = t.1.data) := by
  have h0 : Follows ⟨fdopen data off buf lbf, false, []⟩ (⟨data, off⟩, []) :=
    ⟨⟨rfl, rfl, hbuf, .idle rfl rfl rfl rfl rfl rfl rfl rfl⟩, fun _ => rfl, rfl⟩
  obtain ⟨s, hr, hf⟩ := run_meets_sim (fun _ _ _ h hc => h.step hc) h0 hos
  refine ⟨s, _, hr, rfl, hf.outs, fun offset whence hfit => ?_⟩
  obtain ⟨f, ret, hs, -, -, hok, -⟩ := hf.rel.fseeko (ω := ω) hfit
  exact ⟨f, ret, hs, fun h0 => (hok h0).2⟩

/-- A read that reads ahead, an `fseeko`, a write that waits in the buffer, and another `fseeko`. -/
def readWrite : List Op := [.fgetc, .fseeko 0 SEEK_CUR, .fputc 88, .ftello, .fseeko 0 SEEK_SET, .fgets 9]

theorem stream_plain_readWrite :
    ∃ s, run (Sys.step fun _ => 1) ⟨fdopen [97, 98, 10, 99] 0 [0, 0, 0, 0] 10, false, []⟩ readWrite = some s ∧
      s.outs = [.char (some 97), .sought 0, .put, .pos 2, .sought 0, .line (some [97, 88, 10])] := by
  obtain ⟨s, t, hr, ht, houts, -⟩ := stream_plain (fun _ => 1) [97, 98, 10, 99] 0 [0, 0, 0, 0] 10 readWrite (by decide)
    (by decide +kernel)
  refine ⟨s, hr, houts.trans ?_⟩
  rw [ht]
  decide +kernel

/-- Between a read and a write there is an `fseeko`, and between a write and a read; `last` is `true` after a read and
`false` after a write. -/
def separated : Option Bool → List Op → Bool
  | _, [] => true
  | last, o :: os =>
    match o with
    | .fgetc | .fread _ _ | .fgets _ => last != some false && separated (some true) os
    | .fputc _ | .fwrite _ _ _ => last != some true && separated (some false) os
    | .fseeko _ _ => separated none os
    | .ftello => separated last os

/-- The `fseeko` between the read and the write has no such `whence`. -/
def failedSeek : List Op := [.fgetc, .fseeko 0 3, .fputc 88, .fseeko 0 SEEK_SET]

/-- An `fseeko` before the beginning of the file. -/
def seekBefore : List Op := [.fgetc, .fseeko (-1) SEEK_SET, .fgetc, .fgetc]

/-- The byte that is written after `fseeko` failed goes behind the bytes read ahead; and when `lseek` fails, the
descriptor has moved away, and what is behind the buffer is not found. -/
theorem write_misplaced : separated none failedSeek = true ∧
    (run (Sys.step fun _ => 9) ⟨fdopen [97, 98] 0 [0, 0, 0, 0] 10, false, []⟩ failedSeek).map
    (fun s => (s.stream.data, s.outs)) =
      some ([97, 98, 88], [.char (some 97), .sought (-1), .put, .sought 0]) ∧
    failedSeek.foldl spec (⟨[97, 98], 0⟩, []) = (⟨[97, 88], 0⟩, [.char (some 97), .sought (-1), .put, .sought 0]) ∧
    separated none seekBefore = true ∧
    (run (Sys.step fun _ => 2) ⟨fdopen [97, 98, 99] 0 [0, 0, 0, 0] 10, false, []⟩ seekBefore).map Sys.outs =
      some [.char (some 97), .sought (-1), .char (some 98), .char none] ∧
    (seekBefore.foldl spec (⟨[97, 98, 99], 0⟩, [])).2 =
      [.char (some 97), .sought (-1), .char (some 98), .char (some 99)] := by
  decide +kernel

end TextOS.Stdio
