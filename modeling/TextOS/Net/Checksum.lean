import TextOS.Net.Tcp

/-!
# The checksum of a segment: `kernel/net/tcp.c`

The words are added in one's complement: the sum of a segment counts modulo `65535`, and it is never zero as the pseudo
header is not.

- **the checksum over a segment that `net_tx_tcp` completed is 0, and with one word changed it is not**
  (`cksum_detects`).
-/

namespace TextOS.Net

open List

variable {data : List UInt8}

/-! ## The code -/

/-- `htons`, as bytes. -/
def htons (v : UInt16) : List UInt8 := [(v >>> 8).toUInt8, v.toUInt8]

/-- `htonl`, as bytes. -/
def htonl (v : UInt32) : List UInt8 := [(v >>> 24).toUInt8, (v >>> 16).toUInt8, (v >>> 8).toUInt8, v.toUInt8]

/-- The header that `net_tx_tcp` builds, `rev0` being the low half of its byte; `cksum` is stored as the machine stores
it. -/
def tcphdr (sport dport : UInt16) (seqnr acknr : UInt32) (flgs : UInt8) (window urgptr cksum : UInt16) : List UInt8 :=
  htons sport ++ htons dport ++ htonl seqnr ++ htonl acknr ++ [0x50, flgs] ++ htons window ++
    [cksum.toUInt8, (cksum >>> 8).toUInt8] ++ htons urgptr

/-- `net_tx_tcp`: the segment that is handed to `net_tx_ip`. -/
def netTxTcp (ip dip : Ipv4) (data : List UInt8) (sport dport : UInt16) (seqnr acknr : UInt32) (flgs : UInt8)
    (window urgptr : UInt16) : List UInt8 :=
  let hdr := tcphdr sport dport seqnr acknr flgs window urgptr
  hdr (netCksumTcp (hdr 0 ++ data) ip dip (.ofNat (hdr 0 ++ data).length)) ++ data

/-! ## The sum -/

/-- The sum of the words, without a limit. -/
def wordSum : List UInt8 → Nat
  | a :: b :: l => a.toNat + 256 * b.toNat + wordSum l
  | [a] => a.toNat
  | [] => 0

theorem sumWords_toNat : ∀ l, (sumWords l).toNat = wordSum l % 2 ^ 32
  | [] => rfl
  | [a] => by
    have := a.toNat_lt
    simp only [sumWords, wordSum, UInt8.toNat_toUInt32]
    omega
  | a :: b :: l => by
    have := b.toNat_lt
    simp only [sumWords, wordSum, UInt32.toNat_add, UInt32.toNat_shiftLeft, UInt8.toNat_toUInt32, sumWords_toNat l,
      show (8 : UInt32).toNat % 32 = 8 from rfl, Nat.shiftLeft_eq]
    omega

theorem wordSum_le : ∀ l, wordSum l ≤ 65535 * ((l.length + 1) / 2)
  | [] => by simp [wordSum]
  | [a] => by
    have := a.toNat_lt
    simp only [wordSum, length_singleton]
    omega
  | a :: b :: l => by
    have ha := a.toNat_lt
    have hb := b.toNat_lt
    have hl := wordSum_le l
    simp only [wordSum, length_cons]
    omega

theorem wordSum_append : ∀ {l : List UInt8} (r), l.length % 2 = 0 → wordSum (l ++ r) = wordSum l + wordSum r
  | [], r, _ => by simp [wordSum]
  | [a], r, h => by simp at h
  | a :: b :: l, r, h => by
    simp only [length_cons] at h
    simp only [cons_append, wordSum, wordSum_append (l := l) r (by omega), Nat.add_assoc]

/-- The pseudo header. -/
def pseudo (sip dip : Ipv4) (len : UInt64) : List UInt8 :=
  [sip.1, sip.2.1, sip.2.2.1, sip.2.2.2, dip.1, dip.2.1, dip.2.2.1, dip.2.2.2, 0, 6, (len >>> 8).toUInt8, len.toUInt8]

/-- What the checksum counts. -/
def total (data : List UInt8) (sip dip : Ipv4) (len : UInt64) : Nat := wordSum data + wordSum (pseudo sip dip len)

theorem total_bounds (h : data.length ≤ 65535) (sip dip : Ipv4) (len : UInt64) :
    0 < total data sip dip len ∧ total data sip dip len < 2 ^ 32 := by
  have hd := wordSum_le data
  have hp := wordSum_le (pseudo sip dip len)
  have hlen : (pseudo sip dip len).length = 12 := rfl
  have hpos : 0 < wordSum (pseudo sip dip len) := by
    simp only [pseudo, wordSum, show (6 : UInt8).toNat = 6 from rfl]
    omega
  rw [total]
  omega

/-- Carries that are added again leave the rest modulo `65535`. -/
theorem carry_fold {n s : Nat} (h0 : 0 < n) (h : n < 2 ^ 32) (hs : s = n / 2 ^ 16 + n % 65536) :
    ((s % 2 ^ 32 + s % 2 ^ 32 / 2 ^ 16) % 2 ^ 32) % 2 ^ 16 = (n - 1) % 65535 + 1 := by
  have hmod : (n - 1) % 65535 = (s - 1) % 65535 := by
    rw [show n - 1 = s - 1 + 65535 * (n / 65536) by omega, Nat.add_mul_mod_self_left]
  have hpos : 0 < s := by omega
  have hlt : s < 131071 := by omega
  by_cases hc : s < 65536 <;> omega

/-- **The checksum is the complement of the sum modulo `65535`**, which is counted from 1. -/
theorem cksum_toNat (h : data.length ≤ 65535) (sip dip : Ipv4) (len : UInt64) :
    (netCksumTcp data sip dip len).toNat = 65535 - ((total data sip dip len - 1) % 65535 + 1) := by
  obtain ⟨hpos, hlt⟩ := total_bounds h sip dip len
  have hs : (sumWords data + sumWords (pseudo sip dip len)).toNat = total data sip dip len := by
    rw [UInt32.toNat_add, sumWords_toNat, sumWords_toNat, ← Nat.add_mod]
    exact Nat.mod_eq_of_lt hlt
  obtain ⟨s, hsum⟩ : ∃ s : UInt32, s = sumWords data + sumWords (pseudo sip dip len) := ⟨_, rfl⟩
  rw [← hsum] at hs
  have hdef : netCksumTcp data sip dip len =
      (let s1 : UInt32 := s >>> 16 + (s &&& 0xffff); ~~~ (s1 + s1 >>> 16).toUInt16) := by
    rw [hsum]
    rfl
  have hand : total data sip dip len &&& 65535 = total data sip dip len % 65536 := Nat.and_two_pow_sub_one_eq_mod _ 16
  rw [hdef]
  simp only [UInt16.toNat_not, UInt32.toNat_toUInt16, UInt32.toNat_add, UInt32.toNat_shiftRight, UInt32.toNat_and,
    UInt32.reduceToNat, hand, hs, Nat.reduceMod, Nat.shiftRight_eq_div_pow, UInt16.size, carry_fold hpos hlt rfl]

theorem cksum_eq_zero_iff (h : data.length ≤ 65535) (sip dip : Ipv4) (len : UInt64) :
    netCksumTcp data sip dip len = 0 ↔ total data sip dip len % 65535 = 0 := by
  obtain ⟨hpos, -⟩ := total_bounds h sip dip len
  rw [← UInt16.toNat_inj, cksum_toNat h, UInt16.toNat_zero]
  omega

/-! ## Segments -/

theorem wordSum_tcphdr (sport dport : UInt16) (seqnr acknr : UInt32) (flgs : UInt8) (window urgptr cksum : UInt16)
    (data : List UInt8) : wordSum (tcphdr sport dport seqnr acknr flgs window urgptr cksum ++ data) =
      wordSum (tcphdr sport dport seqnr acknr flgs window urgptr 0 ++ data) + cksum.toNat := by
  have hc : cksum.toUInt8.toNat + 256 * (cksum >>> 8).toUInt8.toNat = cksum.toNat := by
    have := cksum.toNat_lt
    simp only [UInt16.toNat_toUInt8, UInt16.toNat_shiftRight, UInt16.reduceToNat, Nat.reduceMod,
      Nat.shiftRight_eq_div_pow]
    omega
  have h0 : (0 : UInt16).toUInt8.toNat + 256 * ((0 : UInt16) >>> 8).toUInt8.toNat = 0 := rfl
  simp only [tcphdr, htons, htonl, cons_append, nil_append, wordSum]
  omega

/-- One aligned word has another value, and not `0xFFFF` for 0 or conversely; an odd last byte is a word with a zero
behind it. -/
def Changed (seg seg' : List UInt8) : Prop :=
  ∃ before x y behind, seg = before ++ x ++ behind ∧ seg' = before ++ y ++ behind ∧ before.length % 2 = 0 ∧
    (x.length = 2 ∧ y.length = 2 ∨ x.length = 1 ∧ y.length = 1 ∧ behind = []) ∧ wordSum x ≠ wordSum y ∧
    ¬ (wordSum x = 0 ∧ wordSum y = 0xffff) ∧ ¬ (wordSum x = 0xffff ∧ wordSum y = 0)

theorem Changed.length_eq {seg seg' : List UInt8} (h : Changed seg seg') : seg'.length = seg.length := by
  obtain ⟨before, x, y, behind, rfl, rfl, -, hlen, -⟩ := h
  simp only [length_append]
  omega

/-- One changed word changes the sum. -/
theorem Changed.wordSum_mod_ne {seg seg' : List UInt8} (h : Changed seg seg') (n : Nat) :
    (wordSum seg + n) % 65535 ≠ (wordSum seg' + n) % 65535 := by
  obtain ⟨before, x, y, behind, rfl, rfl, heven, hlen, hne, hup, hdown⟩ := h
  have hx := wordSum_le x
  have hy := wordSum_le y
  have hsplit (z : List UInt8) (hz : z.length = 2 ∨ z.length = 1 ∧ behind = []) :
      wordSum (before ++ z ++ behind) = wordSum before + wordSum z + wordSum behind := by
    rw [append_assoc, wordSum_append _ heven]
    rcases hz with hz | ⟨-, rfl⟩
    · rw [wordSum_append behind (by rw [hz]), Nat.add_assoc]
    · rw [append_nil]
      rfl
  rw [hsplit x (hlen.imp And.left fun h => ⟨h.1, h.2.2⟩), hsplit y (hlen.imp And.right And.right)]
  omega

/-- **The checksum**: over the segment that `net_tx_tcp` completed, of 20 to 65535 bytes, it is 0; over one with a word
changed it is not. -/
theorem cksum_detects (ip dip : Ipv4) (data : List UInt8) (sport dport : UInt16) (seqnr acknr : UInt32) (flgs : UInt8)
    (window urgptr : UInt16) (hlen : 20 + data.length ≤ 65535) (seg : List UInt8)
    (hseg : seg = netTxTcp ip dip data sport dport seqnr acknr flgs window urgptr) :
    seg.length = 20 + data.length ∧ netCksumTcp seg ip dip (.ofNat seg.length) = 0 ∧
      ∀ seg', Changed seg seg' → netCksumTcp seg' ip dip (.ofNat seg'.length) ≠ 0 := by
  obtain ⟨c, hc⟩ : ∃ c, c = netCksumTcp (tcphdr sport dport seqnr acknr flgs window urgptr 0 ++ data) ip dip
    (.ofNat (20 + data.length)) := ⟨_, rfl⟩
  have hl (c : UInt16) : (tcphdr sport dport seqnr acknr flgs window urgptr c ++ data).length = 20 + data.length :=
    length_append
  have hcdef : seg = tcphdr sport dport seqnr acknr flgs window urgptr c ++ data := by rw [hseg, netTxTcp, hl, hc]
  have hseglen : seg.length = 20 + data.length := hcdef ▸ hl c
  have hzero : total seg ip dip (.ofNat seg.length) % 65535 = 0 := by
    have hnat := congrArg UInt16.toNat hc
    obtain ⟨hpos, -⟩ := total_bounds ((hl 0).trans_le hlen) ip dip (.ofNat (20 + data.length))
    rw [cksum_toNat ((hl 0).trans_le hlen)] at hnat
    rw [hseglen, hcdef, total, wordSum_tcphdr]
    rw [total] at hnat hpos
    omega
  refine ⟨hseglen, (cksum_eq_zero_iff (hseglen.trans_le hlen) ip dip _).2 hzero, fun seg' h => ?_⟩
  have hne := h.wordSum_mod_ne (wordSum (pseudo ip dip (.ofNat seg.length)))
  rw [Ne, cksum_eq_zero_iff ((h.length_eq.trans hseglen).trans_le hlen), h.length_eq]
  exact fun h0 => hne (hzero.trans h0.symm)

/-- A segment with three bytes. -/
theorem cksum_detects_odd : netCksumTcp (netTxTcp (10, 0, 0, 1) (10, 0, 0, 2) [1, 2, 3] 80 81 1 2 16 65535 0)
    (10, 0, 0, 1) (10, 0, 0, 2) 23 = 0 :=
  (cksum_detects (10, 0, 0, 1) (10, 0, 0, 2) [1, 2, 3] 80 81 1 2 16 65535 0 (by decide) _ rfl).2.1

end TextOS.Net
