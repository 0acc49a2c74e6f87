import TextOS.Lib.Run

/-!
# The number of symbols of a shared object: `app/libc/linker/linker.c`

Without `DT_HASH`, `dolkp` takes the number of dynamic symbols from `DT_GNU_HASH`, where it does not stand: the largest
bucket is the first symbol of the last chain, and that chain is followed to its end.

- **For every well-formed section the number is that of the dynamic symbols**, and only words of the section are read
  (`nrsym_eq`).
-/

namespace TextOS.Linker

open Lib List

/-- The `do` loop of `dolkp`; the words are those from `hashval` on, up to the end of the section. -/
def chainEnd : List UInt32 → Nat → Option Nat
  | [], _ => none
  | w :: ws, nsym => if w &&& 1 != 0 then some (nsym + 1) else chainEnd ws (nsym + 1)

/-- A round of the loop over the buckets. -/
def maxBucket (ghash : List UInt32) (buckets nsym i : Nat) : Option Nat :=
  ghash[buckets + i]?.map fun w => if w.toNat > nsym then w.toNat else nsym

/-- `nrsym` of `dolkp` with `ghash`; `none` is a read outside the section. -/
def nrsym (ghash : List UInt32) : Option Nat := do
  let nbuckets ← ghash[0]?
  let bloom ← ghash[2]?
  let buckets := 4 + bloom.toNat * 8 / 4
  let nsym ← run (maxBucket ghash buckets) 0 (range nbuckets.toNat)
  if nsym = 0 then return nsym
  let symoffset ← ghash[1]?
  let hashval : Int := buckets + nbuckets.toNat + (nsym - symoffset.toNat)
  if hashval < 0 then none
  else chainEnd (ghash.drop hashval.toNat) nsym

/-- A well-formed `DT_GNU_HASH` section. The symbols from `symoffset` on are hashed, those of a bucket next to each
other; symbol 0 is reserved, and an empty bucket has 0. -/
structure GnuHash where
  nbuckets : UInt32
  symoffset : UInt32
  bloomSize : UInt32
  bloomShift : UInt32
  bloom : List UInt32
  buckets : List UInt32
  chains : List (List UInt32)
  bloom_length : bloom.length = 2 * bloomSize.toNat
  buckets_length : buckets.length = nbuckets.toNat
  reserved : symoffset ≠ 0
  hashed : chains ≠ []
  ended : ∀ c ∈ chains, ∃ l w, c = l ++ [w] ∧ (∀ x ∈ l, x &&& 1 = 0) ∧ w &&& 1 ≠ 0
  starts : ∀ b ∈ buckets, b ≠ 0 → ∃ pre c post, chains = pre ++ c :: post ∧
    b.toNat = symoffset.toNat + pre.flatten.length
  reached : ∀ pre c post, chains = pre ++ c :: post → ∃ b ∈ buckets, b.toNat = symoffset.toNat + pre.flatten.length

namespace GnuHash

def words (g : GnuHash) : List UInt32 :=
  [g.nbuckets, g.symoffset, g.bloomSize, g.bloomShift] ++ g.bloom ++ g.buckets ++ g.chains.flatten

/-- The dynamic symbols: those that are not hashed, and one for each hash value. -/
def symbols (g : GnuHash) : Nat := g.symoffset.toNat + g.chains.flatten.length

/-- The words before the buckets. -/
def front (g : GnuHash) : Nat := 4 + g.bloomSize.toNat * 8 / 4

variable (g : GnuHash)

theorem front_eq : g.front = ([g.nbuckets, g.symoffset, g.bloomSize, g.bloomShift] ++ g.bloom).length := by
  rw [front, length_append, g.bloom_length]
  simp
  omega

theorem maxBucket_eq {i : Nat} (hi : i < g.buckets.length) (nsym : Nat) :
    maxBucket g.words g.front nsym i = some (max nsym g.buckets[i].toNat) := by
  rw [maxBucket, front_eq, words, getElem?_append_left (by simp; omega), getElem?_append_right (Nat.le_add_right ..),
    Nat.add_sub_cancel_left, getElem?_eq_getElem hi, Option.map_some]
  congr 1
  split <;> omega

theorem chainEnd_append {w : UInt32} (hw : w &&& 1 ≠ 0) : ∀ {l : List UInt32} {n : Nat}, (∀ x ∈ l, x &&& 1 = 0) →
    chainEnd (l ++ [w]) n = some (n + (l ++ [w]).length)
  | [], n, _ => by simp [chainEnd, hw]
  | x :: l, n, hl => by
    rw [cons_append, chainEnd, hl x mem_cons_self, chainEnd_append hw fun y hy => hl y (mem_cons_of_mem x hy)]
    simp
    omega

/-- The first symbol of the last chain is the largest bucket. -/
theorem largest {pre : List (List UInt32)} {c : List UInt32} (hc : g.chains = pre ++ [c]) : ∀ b ∈ g.buckets,
    b.toNat ≤ g.symoffset.toNat + pre.flatten.length := by
  intro b hb
  by_cases h0 : b = 0
  · simp [h0]
  obtain ⟨pre', c', post, hp, hbn⟩ := g.starts b hb h0
  have hpre := congrArg dropLast (hc.symm.trans hp)
  rw [dropLast_concat, dropLast_append_cons] at hpre
  rw [hbn, hpre, flatten_append, length_append]
  omega

/-- The loop over the buckets finds that symbol: the buckets so far are at most `nsym`, and `nsym` at most it. -/
theorem run_maxBucket {pre : List (List UInt32)} {c : List UInt32} (hc : g.chains = pre ++ [c]) :
    run (maxBucket g.words g.front) 0 (range g.nbuckets.toNat) = some (g.symoffset.toNat + pre.flatten.length) := by
  obtain ⟨nsym, hrun, hge, hle⟩ := run_range_total (I := fun i nsym => (∀ b ∈ g.buckets.take i, b.toNat ≤ nsym) ∧
    nsym ≤ g.symoffset.toNat + pre.flatten.length) g.nbuckets.toNat (fun i hi nsym h => by
      rw [← g.buckets_length] at hi
      refine ⟨_, g.maxBucket_eq hi nsym, fun b hb => ?_, max_le h.2 (g.largest hc _ (getElem_mem hi))⟩
      rw [take_succ_eq_append_getElem hi] at hb
      rcases mem_append.1 hb with hb | hb
      · exact (h.1 b hb).trans (le_max_left ..)
      · exact mem_singleton.1 hb ▸ le_max_right ..) ⟨nofun, Nat.zero_le _⟩
  rw [take_of_length_le g.buckets_length.le] at hge
  obtain ⟨b, hb, hbn⟩ := g.reached pre c [] hc
  rw [hrun, Nat.le_antisymm hle (hbn ▸ hge b hb)]

/-- **The number of symbols**: for every well-formed section it is the number of dynamic symbols. -/
theorem nrsym_eq : nrsym g.words = some g.symbols := by
  obtain ⟨pre, c, hc⟩ := (eq_nil_or_concat' g.chains).resolve_left g.hashed
  obtain ⟨l, w, rfl, hl, hw⟩ := g.ended c (by simp [hc])
  have hoff : g.symoffset.toNat ≠ 0 := fun h => g.reserved (UInt32.toNat_inj.1 h)
  have hdrop : g.words.drop (g.front + g.nbuckets.toNat + pre.flatten.length) = l ++ [w] := by
    rw [front_eq, words, hc, flatten_concat, ← append_assoc, drop_left']
    rw [length_append, length_append, g.buckets_length]
  have hat : (g.front : Int) + g.nbuckets.toNat + ((g.symoffset.toNat + pre.flatten.length : Nat) - g.symoffset.toNat) =
      (g.front + g.nbuckets.toNat + pre.flatten.length : Nat) := by omega
  have hrun := g.run_maxBucket hc
  rw [nrsym]
  dsimp only [front, words, cons_append, getElem?_cons_zero, getElem?_cons_succ, Option.bind_eq_bind,
    Option.bind_some] at *
  rw [hrun, Option.bind_some, if_neg (by omega), hat, if_neg (by omega), Int.toNat_natCast, hdrop,
    chainEnd_append hw hl, symbols, hc, flatten_concat, Nat.add_assoc, ← length_append]

/-- Three buckets, of which the second is empty: the symbols 1 and 2 have the chain of the third, symbol 3 that of the
first. -/
def twoChains : GnuHash where
  nbuckets := 3
  symoffset := 1
  bloomSize := 1
  bloomShift := 6
  bloom := [0, 0]
  buckets := [3, 0, 1]
  chains := [[8, 11], [7]]
  bloom_length := rfl
  buckets_length := rfl
  reserved := by decide
  hashed := by decide
  ended := by
    simp only [mem_cons, not_mem_nil, or_false, forall_eq_or_imp, forall_eq]
    exact ⟨⟨[8], 11, rfl, by simpa using by decide, by decide⟩, ⟨[], 7, rfl, by simp, by decide⟩⟩
  starts := by
    simp only [mem_cons, not_mem_nil, or_false, forall_eq_or_imp, forall_eq]
    exact ⟨fun _ => ⟨[[8, 11]], [7], [], rfl, by decide⟩, fun h => absurd rfl h,
      fun _ => ⟨[], [8, 11], [[7]], rfl, by decide⟩⟩
  reached := by
    intro pre c post h
    match pre, h with
    | [], _ => exact ⟨1, by decide, by decide⟩
    | [_], h =>
      obtain ⟨rfl, -⟩ := cons.inj h
      exact ⟨3, by decide, by decide⟩
    | _ :: _ :: pre, h => simp at h

theorem nrsym_twoChains : nrsym twoChains.words = some 4 := nrsym_eq twoChains

end GnuHash

end TextOS.Linker
