import TextOS.Net.TcpSend

/-!
# Acknowledgements: `tcp_x_ack`

The segments in `una_que` are numbered one after the other from `snd_una` to `snd_nxt`; sequence numbers wrap.

- **the segments that are not entirely acknowledged stay** (`ack_keeps`) iff the plain comparison of `tcp_x_ack` decides
  so for each segment (`Clear`): the acknowledgement number does not lie inside one, and the numbers do not wrap between
  them.
-/

namespace TextOS.Net

open List

variable {t : Tcp} {seg : Seg} {a b c : UInt32} {m : Mbuf}

/-! ## Circular comparison -/

theorem toNat_ofNat_lt {i : Nat} (hi : i < 2 ^ 31) : (UInt32.ofNat i).toNat = i := by
  rw [UInt32.toNat_ofNat', Nat.mod_eq_of_lt (by omega)]

theorem seqLt_add {i j : Nat} (hi : i < 2 ^ 31) (hj : j < 2 ^ 31) :
    seqLt (a + .ofNat i) (a + .ofNat j) = decide (i < j) := by
  have hsub : (a + .ofNat i) - (a + .ofNat j) = .ofNat i - .ofNat j := by grind
  rw [seqLt, hsub, UInt32.toNat_sub, toNat_ofNat_lt hi, toNat_ofNat_lt hj]
  apply decide_eq_decide.2
  omega

theorem add_ofNat_inj {i j : Nat} (hi : i < 2 ^ 31) (hj : j < 2 ^ 31) : a + .ofNat i = a + .ofNat j ↔ i = j := by
  constructor
  · intro h
    have := congrArg UInt32.toNat ((UInt32.add_right_inj a).1 h)
    rwa [toNat_ofNat_lt hi, toNat_ofNat_lt hj] at this
  · rintro rfl
    rfl

theorem seqLe_add {i j : Nat} (hi : i < 2 ^ 31) (hj : j < 2 ^ 31) :
    seqLe (a + .ofNat i) (a + .ofNat j) = decide (i ≤ j) := by
  have heq : (a + .ofNat i == a + .ofNat j) = decide (i = j) := by
    rw [Bool.eq_iff_iff, beq_iff_eq, decide_eq_true_iff, add_ofNat_inj hi hj]
  rw [seqLe, seqLt_add hi hj, heq, Bool.eq_iff_iff]
  simp only [Bool.or_eq_true, decide_eq_true_eq]
  omega

/-- An acceptable acknowledgement number lies behind `snd_una` and not behind `snd_nxt`. -/
theorem acceptable_iff {n : Nat} (hn : n < 2 ^ 31) :
    seqLe b a = false ∧ seqLt (a + .ofNat n) b = false ↔ ∃ k, 0 < k ∧ k ≤ n ∧ b = a + .ofNat k := by
  constructor
  · rintro ⟨hlow, hhigh⟩
    obtain ⟨k, hk, rfl⟩ : ∃ k, k < 2 ^ 32 ∧ b = a + .ofNat k := by
      refine ⟨(b - a).toNat, (b - a).toNat_lt, ?_⟩
      rw [UInt32.ofNat_toNat]
      grind
    have hsub : a + .ofNat k - a = .ofNat k := by grind
    have htoNat : (UInt32.ofNat k).toNat = k := by rw [UInt32.toNat_ofNat', Nat.mod_eq_of_lt hk]
    have hk31 : k < 2 ^ 31 := by
      simp only [seqLe, seqLt, hsub, htoNat, Bool.or_eq_false_iff, decide_eq_false_iff_not] at hlow
      omega
    have hne : k ≠ 0 := by
      rintro rfl
      simp [seqLe] at hlow
    rw [seqLt_add hn hk31, decide_eq_false_iff_not] at hhigh
    exact ⟨k, by omega, by omega, rfl⟩
  · rintro ⟨k, h0, hk, rfl⟩
    have hle := seqLe_add (a := a) (i := k) (j := 0) (by omega) (by omega)
    rw [show (UInt32.ofNat 0) = 0 from rfl, UInt32.add_zero] at hle
    rw [hle, seqLt_add hn (by omega)]
    simp only [decide_eq_false_iff_not]
    omega

/-! ## The queue -/

/-- The segments are numbered one after the other, from the number `o` bytes behind `una` to that `e` bytes behind it.
-/
def Numbered (una : UInt32) : Nat → List Mbuf → Nat → Prop
  | o, [], e => o = e
  | o, m :: que, e => m.id = (una + .ofNat o).toUInt64 ∧ Numbered una (o + m.dlen.toNat) que e

/-- All bytes of the segment have numbers before `a`. -/
def Mbuf.below (m : Mbuf) (a : UInt32) : Bool := seqLe (m.id.toUInt32 + m.dlen.toUInt32) a

theorem Numbered.mem : ∀ {que : List Mbuf} {o e : Nat}, Numbered a o que e → ∀ m ∈ que,
    ∃ i, m.id = (a + .ofNat i).toUInt64 ∧ i + m.dlen.toNat ≤ e
  | q :: que, o, e, h, m, hm => by
    have hle : ∀ {que : List Mbuf} {o : Nat}, Numbered a o que e → o ≤ e := by
      intro que
      induction que with
      | nil => exact fun h => h.le
      | cons q que ih => exact fun h => (Nat.le_add_right _ _).trans (ih h.2)
    rcases mem_cons.1 hm with rfl | hm
    · exact ⟨o, h.1, hle h.2⟩
    · exact Numbered.mem h.2 m hm

/-- A buffer without its number. -/
def Mbuf.unnumbered (m : Mbuf) : Mbuf := { m with id := 0 }

/-- Sending moves buffers from the front of `que` to the end of `una_que`, where they have numbers. -/
def Moves (que : List Mbuf) (t t' : Tcp) : Prop :=
  t'.snd.una = t.snd.una ∧ ∃ new sent, t'.snd.unaQue = t.snd.unaQue ++ new ∧ que = sent ++ t'.snd.sndQue ∧
    new.map Mbuf.unnumbered = sent.map Mbuf.unnumbered

theorem xmitLoop_moves : ∀ (que : List Mbuf) (t : Tcp), Moves que t (xmitLoop t que).1
  | [], t => ⟨rfl, [], [], (append_nil _).symm, rfl, rfl⟩
  | m :: que, t => by
    rw [xmitLoop]
    split
    · exact ⟨rfl, [_], [m], rfl, rfl, rfl⟩
    obtain ⟨huna, new, sent, hnew, hque, hsame⟩ := xmitLoop_moves que { (tcpTxSeg t m).1 with
      snd.unaQue := t.snd.unaQue ++ [{ m with id := t.snd.nxt.toUInt64 }] }
    refine ⟨huna, _ :: new, m :: sent, hnew.trans (append_assoc _ _ _), congrArg (m :: ·) hque, ?_⟩
    rw [map_cons, map_cons, hsame]
    rfl

theorem tcpDoXmit_moves (t : Tcp) : Moves t.snd.sndQue t (tcpDoXmit t).1 := by
  unfold tcpDoXmit
  split
  · exact ⟨rfl, [], [], (append_nil _).symm, rfl, rfl⟩
  obtain ⟨huna, new, sent, hnew, hque, hsame⟩ := xmitLoop_moves t.snd.sndQue { t with tmrAck := false }
  generalize xmitLoop { t with tmrAck := false } t.snd.sndQue = r at huna hnew hque
  have hfin : (xmitFin r.1).1.snd.una = r.1.snd.una ∧ (xmitFin r.1).1.snd.unaQue = r.1.snd.unaQue ∧
      (xmitFin r.1).1.snd.sndQue = r.1.snd.sndQue := by
    unfold xmitFin
    repeat' split
    all_goals exact ⟨rfl, rfl, rfl⟩
  exact ⟨hfin.1.trans huna, new, sent, hfin.2.1.trans hnew, by rw [hfin.2.2, ← hque], hsame⟩

/-! ## Which segments stay -/

/-- The plain comparison of the numbers is right for the segment. It starts `i` bytes behind `una` and the
acknowledgement number stands `k` bytes behind it; the numbers wrap after `w` bytes. -/
def Clear (una acknr : UInt32) (m : Mbuf) : Prop :=
  let i := (m.id.toUInt32 - una).toNat
  let k := (acknr - una).toNat
  let w := 2 ^ 32 - una.toNat
  if i < w ∧ w ≤ k then k < i + m.dlen.toNat
  else (i < w ∨ w ≤ k) ∧ (i + m.dlen.toNat ≤ k → i < k) ∧ (i < k → i + m.dlen.toNat ≤ k)

instance (una acknr : UInt32) (m : Mbuf) : Decidable (Clear una acknr m) := by
  unfold Clear
  infer_instance

theorem toNat_add_ofNat {i : Nat} (hi : i < 2 ^ 31) :
    (a + .ofNat i).toUInt64.toNat = if i < 2 ^ 32 - a.toNat then a.toNat + i else a.toNat + i - 2 ^ 32 := by
  have ha := a.toNat_lt
  rw [UInt32.toNat_toUInt64, UInt32.toNat_add, toNat_ofNat_lt hi]
  split <;> omega

/-- The code removes a segment iff all of it is acknowledged, exactly where its comparison is right. -/
theorem clear_iff {n i k : Nat} (hn : n < 2 ^ 31) (hid : m.id = (a + .ofNat i).toUInt64) (hi : i + m.dlen.toNat ≤ n)
    (hk : k ≤ n) : decide (m.id < (a + .ofNat k).toUInt64) = m.below (a + .ofNat k) ↔ Clear a (a + .ofNat k) m := by
  have hend : m.id.toUInt32 + m.dlen.toUInt32 = a + .ofNat (i + m.dlen.toNat) := by
    have hd : m.dlen.toUInt32 = .ofNat m.dlen.toNat := by
      rw [← UInt32.toNat_inj, UInt64.toNat_toUInt32, UInt32.toNat_ofNat']
    rw [hid, UInt32.toUInt32_toUInt64, hd, UInt32.ofNat_add]
    grind
  have hoff : ∀ j < 2 ^ 31, (a + .ofNat j - a).toNat = j := fun j hj => by
    rw [show a + UInt32.ofNat j - a = .ofNat j by grind, toNat_ofNat_lt hj]
  rw [Mbuf.below, hend, seqLe_add (by omega) (by omega), decide_eq_decide, UInt64.lt_iff_toNat_lt, hid,
    toNat_add_ofNat (by omega), toNat_add_ofNat (by omega), Clear, hid, UInt32.toUInt32_toUInt64, hoff i (by omega),
    hoff k (by omega)]
  have ha := a.toNat_lt
  split_ifs <;> omega

/-- `snd_una` is the acknowledgement number, and exactly the segments that are not entirely below it stay in `una_que`,
in their order, in front of what is sent now. -/
def Acked (t : Tcp) (seg : Seg) : Prop :=
  (tcpXAck t seg).1.snd.una = seg.hdr.acknr ∧
  ∃ new sent, (tcpXAck t seg).1.snd.unaQue = (t.snd.unaQue.filter fun m => !m.below seg.hdr.acknr) ++ new ∧
    t.snd.sndQue = sent ++ (tcpXAck t seg).1.snd.sndQue ∧ new.map Mbuf.unnumbered = sent.map Mbuf.unnumbered

/-- **Acknowledgement processing** of an acceptable number is right iff the plain comparison is right for every segment.
-/
theorem ack_keeps (t : Tcp) (seg : Seg) (n : Nat) (hque : Numbered t.snd.una 0 t.snd.unaQue n) (hn : n < 2 ^ 31)
    (hnxt : t.snd.nxt = t.snd.una + .ofNat n) (hlow : seqLe seg.hdr.acknr t.snd.una = false)
    (hhigh : seqLt t.snd.nxt seg.hdr.acknr = false) :
    Acked t seg ↔ ∀ m ∈ t.snd.unaQue, Clear t.snd.una seg.hdr.acknr m := by
  -- what the code keeps
  obtain ⟨huna, new, sent, hnew, hsent, hsame⟩ : Moves t.snd.sndQue { t with snd := { t.snd with
      unaQue := t.snd.unaQue.filter fun m => !decide (m.id < seg.hdr.acknr.toUInt64), una := seg.hdr.acknr } }
      (tcpXAck t seg).1 := by
    rw [tcpXAck, if_neg (by simp [hlow]), if_neg (by simp [hhigh])]
    exact tcpDoXmit_moves _
  dsimp only at huna hnew
  have hclear : (∀ m ∈ t.snd.unaQue, Clear t.snd.una seg.hdr.acknr m) ↔
      ∀ m ∈ t.snd.unaQue, decide (m.id < seg.hdr.acknr.toUInt64) = m.below seg.hdr.acknr := by
    rw [hnxt] at hhigh
    obtain ⟨k, -, hk, hack⟩ := (acceptable_iff hn).1 ⟨hlow, hhigh⟩
    refine forall₂_congr fun m hm => ?_
    obtain ⟨i, hid, hi⟩ := hque.mem m hm
    rw [hack, clear_iff hn hid hi hk]
  rw [hclear]
  constructor
  · rintro ⟨-, new', sent', hnew', hsent', hsame'⟩ m hm
    -- as many buffers were sent, so the same ones stay
    have hlen : new.length = new'.length := by
      have h1 := congrArg length hsame
      have h2 := congrArg length hsame'
      rw [length_map, length_map] at h1 h2
      rw [h1, h2, append_cancel_right (hsent.symm.trans hsent')]
    have hkept := (append_inj' (hnew.symm.trans hnew') hlen).1
    have hmem := congrArg (m ∈ ·) hkept
    simp only [mem_filter, hm, true_and, eq_iff_iff, Bool.not_eq_true'] at hmem
    exact Bool.eq_iff_iff.2 (by rw [← not_iff_not, Bool.not_eq_true, Bool.not_eq_true, hmem])
  · intro h
    refine ⟨huna, new, sent, hnew.trans ?_, hsent, hsame⟩
    rw [filter_congr fun m hm => by rw [h m hm]]

/-- A buffer with `n` bytes of data and a sequence number. -/
def sentMbuf (id : UInt32) (n : Nat) : Mbuf := { mbufPut mbufAlloc (List.replicate n 0) with id := id.toUInt64 }

/-- A connection with two segments of 3 and 2 bytes that are not acknowledged. -/
def twoSent (una : UInt32) : Tcp := { blank with
  state := .established, snd := ⟨una - 1, una, una + 5, [], [sentMbuf una 3, sentMbuf (una + 3) 2]⟩ }

/-- An acknowledgement. -/
def ackSeg (acknr : UInt32) : Seg := ⟨1, 0, (10, 0, 0, 9), (10, 0, 0, 1), mbufAlloc, ⟨80, 80, 1, acknr, 16⟩⟩

/-- The first segment is acknowledged; past 2 ^ 32 this goes wrong. -/
theorem ack_keeps_second : Acked (twoSent 100) (ackSeg 103) ∧ ¬ Acked (twoSent 0xfffffffe) (ackSeg 1) := by
  have hmem : ∀ una : UInt32, (twoSent una).snd.unaQue = [sentMbuf una 3, sentMbuf (una + 3) 2] := fun _ => rfl
  refine ⟨(ack_keeps (twoSent 100) (ackSeg 103) 5 ⟨by decide, by decide, rfl⟩ (by decide) (by decide) (by decide)
    (by decide)).2 ?_, fun h => ?_⟩
  · rw [hmem]
    simp only [mem_cons, not_mem_nil, or_false, forall_eq_or_imp, forall_eq]
    decide
  · have := (ack_keeps (twoSent 0xfffffffe) (ackSeg 1) 5 ⟨by decide, by decide, rfl⟩ (by decide) (by decide) (by decide)
      (by decide)).1 h (sentMbuf 0xfffffffe 3) (by rw [hmem]; exact mem_cons_self)
    revert this
    decide

/-- **What goes wrong**: an acknowledgement of two of the three bytes of a segment drops it; and where the numbers wrap
inside a segment, it stays although all of it is acknowledged. -/
theorem ack_wrong :
    ((tcpXAck (twoSent 100) (ackSeg 102)).1.snd.unaQue.map Mbuf.id = [103] ∧ (sentMbuf 100 3).below 102 = false) ∧
    ((tcpXAck (twoSent 0xfffffffe) (ackSeg 1)).1.snd.unaQue.map Mbuf.id = [0xfffffffe, 1] ∧
      (sentMbuf 0xfffffffe 3).below 1 = true) := by
  decide

end TextOS.Net
