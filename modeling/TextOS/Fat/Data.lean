import TextOS.Fat.Cache
import TextOS.Lib.Pieces

/-!
# The bytes of a file: `kernel/fs/phy/fat32.c`

The sectors of a file are those of the clusters of its chain, one behind the other.

- `secs g l`: the sectors of the chain `l`;
- **`byte_rd` reads the bytes** that the sectors hold (`byteRd_spec`), and **`byte_wr` writes them** (`byteWr_spec`),
  both through the cache of the file.
-/

namespace TextOS.Fat

open Lib List Function

variable {g : Geo} {disk disk' : Disk} {l l' : List Nat} {t : List UInt8} {q off rem n curr : Nat} {c : Cache}
  {src : List UInt8}

/-! ## Sectors of a chain -/

def secs (g : Geo) (l : List Nat) : List Nat := (l.map fun c => (List.range g.secPerclst).map (clSec g c)).flatten

theorem full_secs (g : Geo) (l : List Nat) :
    ∀ x ∈ l.map fun c => (List.range g.secPerclst).map (clSec g c), x.length = g.secPerclst := by
  intro x hx
  obtain ⟨c, -, rfl⟩ := mem_map.1 hx
  rw [length_map, length_range]

theorem length_secs (g : Geo) (l : List Nat) : (secs g l).length = g.secPerclst * l.length := by
  rw [secs, length_flatten_of_full (full_secs g l), length_map]

/-- Sector `q` is in cluster `q / sec_perclst` of the chain. -/
theorem getElem?_secs (g : Geo) (l : List Nat) (q : Nat) :
    (secs g l)[q]? = (l[q / g.secPerclst]?).map fun c => clSec g c (q % g.secPerclst) := by
  have hk := Nat.mod_lt q g.perclstPos
  conv_lhs => rw [← Nat.div_add_mod q g.secPerclst]
  rw [secs, (pieces_of_full (full_secs g l)).getElem?_flatten hk, getElem?_map]
  cases l[q / g.secPerclst]? with
  | none => rfl
  | some c => simp [hk]

theorem mem_secs {s : Nat} : s ∈ secs g l ↔ ∃ c ∈ l, ∃ k < g.secPerclst, clSec g c k = s := by simp [secs]

theorem nodup_secs (hnd : l.Nodup) (hd : ∀ c ∈ l, InData g c) : (secs g l).Nodup := by
  rw [secs, nodup_flatten]
  constructor
  · intro x hx
    obtain ⟨c, hc, rfl⟩ := mem_map.1 hx
    refine nodup_range.map_on fun k hk k' hk' he => ?_
    exact (clSec_inj (hd c hc) (hd c hc) (mem_range.1 hk) (mem_range.1 hk') he).2
  rw [pairwise_map]
  refine hnd.imp_of_mem fun {a b} ha hb hne s hs hs' => hne ?_
  obtain ⟨k, hk, rfl⟩ := mem_map.1 hs
  obtain ⟨k', hk', he⟩ := mem_map.1 hs'
  exact (clSec_inj (hd b hb) (hd a ha) (mem_range.1 hk') (mem_range.1 hk) he).1.symm

theorem disjoint_secs (h : l.Disjoint l') (hd : ∀ c ∈ l, InData g c) (hd' : ∀ c ∈ l', InData g c) :
    (secs g l).Disjoint (secs g l') := by
  intro s hs hs'
  obtain ⟨c, hc, k, hk, rfl⟩ := mem_secs.1 hs
  obtain ⟨c', hc', k', hk', he⟩ := mem_secs.1 hs'
  obtain ⟨rfl, -⟩ := clSec_inj (hd' c' hc') (hd c hc) hk' hk he
  exact h hc hc'

theorem secs_append (g : Geo) (l l' : List Nat) : secs g (l ++ l') = secs g l ++ secs g l' := by
  rw [secs, secs, secs, map_append, flatten_append]

theorem Shows.of_sameData {new : List Nat} (h : Shows disk 512 (secs g l) t) (hd : ∀ c ∈ l, InData g c)
    (hnew : ∀ c ∈ l, c ∉ new) (hs : SameData g disk disk' new) : Shows disk' 512 (secs g l) t := by
  refine h.congr fun s hm => ?_
  obtain ⟨c, hc, k, hk, rfl⟩ := mem_secs.1 hm
  exact hs c (hd c hc) (hnew c hc) k hk

/-- From one sector to the next: in the same cluster, or in the next one of the chain. -/
theorem next_sector (hl : Linked (getNext g disk) isEoc l) (hd : ∀ c ∈ l, InData g c)
    (hcurr : l[q / g.secPerclst]? = some curr) (hq : q + 1 < (secs g l).length) :
    (q % g.secPerclst + 1 < g.secPerclst ∧ l[(q + 1) / g.secPerclst]? = some curr ∧
      (q + 1) % g.secPerclst = q % g.secPerclst + 1) ∨
    (¬q % g.secPerclst + 1 < g.secPerclst ∧ l[(q + 1) / g.secPerclst]? = some (getNext g disk curr) ∧
      (q + 1) % g.secPerclst = 0 ∧ ¬isEoc (getNext g disk curr)) := by
  have hk := Nat.mod_lt q g.perclstPos
  have hsplit := Nat.div_add_mod q g.secPerclst
  by_cases hin : q % g.secPerclst + 1 < g.secPerclst
  · obtain ⟨hdiv, hmod⟩ := div_mod_add q hin
    exact .inl ⟨hin, by rw [hdiv, hcurr], hmod⟩
  have hq' : q + 1 = g.secPerclst * (q / g.secPerclst + 1) := by rw [Nat.mul_succ]; omega
  have hdiv : (q + 1) / g.secPerclst = q / g.secPerclst + 1 := by rw [hq', Nat.mul_div_cancel_left _ g.perclstPos]
  have hlt : q / g.secPerclst + 1 < l.length := by
    rw [length_secs, hq'] at hq
    exact Nat.lt_of_mul_lt_mul_left hq
  rcases hl.follow hcurr with hnext | ⟨hend, -⟩
  · refine .inr ⟨hin, by rw [hdiv, hnext], by rw [hq', Nat.mul_mod_right], ?_⟩
    exact (lt_of_inData (hd _ (mem_of_getElem? hnext))).2
  · omega

theorem cpysiz_eq (skip rem : Nat) : cpysiz skip rem = min rem (512 - skip) := by
  rw [cpysiz]
  split <;> omega

theorem sector_end (h : rem - min rem (512 - off % 512) ≠ 0) :
    (off + min rem (512 - off % 512)) / 512 = off / 512 + 1 ∧ (off + min rem (512 - off % 512)) % 512 = 0 := by
  omega

/-! ## Reading -/

/-- The loop reads the bytes from `off` on, sector by sector. -/
theorem rdLoop_spec (hl : Linked (getNext g disk) isEoc l) (hd : ∀ c ∈ l, InData g c)
    (hs : Shows disk 512 (secs g l) t) (hcurr : l[off / 512 / g.secPerclst]? = some curr) (hlen : off + rem ≤ t.length)
    (hroom : t.length ≤ 512 * (secs g l).length) (hn : rem < n) :
    rdLoop g disk n curr (off / 512 % g.secPerclst) (off % 512) rem = (t.drop off).take rem := by
  induction n generalizing off rem curr with
  | zero => omega
  | succ n ih =>
    have hskip : off % 512 < 512 := Nat.mod_lt _ (by decide)
    have hsec : (secs g l)[off / 512]? = some (clSec g curr (off / 512 % g.secPerclst)) := by
      rw [getElem?_secs, hcurr, Option.map_some]
    rw [rdLoop, cpysiz_eq]
    rw [hs.read hsec (by omega) (by omega)]
    by_cases h0 : rem - min rem (512 - off % 512) = 0
    · rw [if_pos h0]
      congr 1
      omega
    obtain ⟨hdiv, hmod⟩ := sector_end h0
    have hrest : ∀ {curr' : Nat}, l[(off / 512 + 1) / g.secPerclst]? = some curr' →
        (t.drop off).take (min rem (512 - off % 512)) ++
          rdLoop g disk n curr' ((off / 512 + 1) % g.secPerclst) 0 (rem - min rem (512 - off % 512)) =
        (t.drop off).take rem := fun hc => by
      rw [← hdiv] at hc
      have hloop := ih hc (by omega : _ + (rem - min rem (512 - off % 512)) ≤ t.length) (by omega)
      rw [hdiv, hmod] at hloop
      rw [hloop, ← drop_drop, ← take_add]
      congr 1
      omega
    rw [if_neg h0]
    rcases next_sector hl hd hcurr (by omega) with ⟨hin, hc, hk⟩ | ⟨hout, hc, hk, heoc⟩
    · rw [if_pos hin, ← hk]
      exact hrest hc
    rw [if_neg hout, if_neg heoc]
    rw [hk] at hrest
    exact hrest hc

/-! ## Writing -/

/-- The sectors `disk'` are `disk` with the contents `t` of the chain `l`. -/
structure Writes (g : Geo) (disk disk' : Disk) (l : List Nat) (t : List UInt8) : Prop where
  table : ∀ c < g.clusters, getNext g disk' c = getNext g disk c
  shows : Shows disk' 512 (secs g l) t
  other : ∀ s ∉ secs g l, disk' s = disk s

theorem writes_sector {s : Nat} (hd : ∀ c ∈ l, InData g c) (hnd : l.Nodup)
    (hs : Shows disk 512 (secs g l) t) (hsec : (secs g l)[off / 512]? = some s) (hoff : off ≤ t.length)
    (hfit : off % 512 + src.length ≤ 512) :
    Writes g disk (update disk s (writeAt (disk s) (off % 512) src)) l (splice t off src) := by
  have hmem := mem_of_getElem? hsec
  obtain ⟨c, hc, k, hk, rfl⟩ := mem_secs.1 hmem
  exact ⟨fun c' hc' => getNext_update_data _ (dataSec_le_clSec (hd c hc) hk) hc',
    hs.write (nodup_secs hnd hd) hsec hoff hfit, fun s hs => update_of_ne (fun he => hs (by rwa [he])) _ _⟩

theorem Writes.trans {disk'' : Disk} {t' : List UInt8} (h : Writes g disk disk' l t) (h' : Writes g disk' disk'' l t') :
    Writes g disk disk'' l t' :=
  ⟨fun c hc => (h'.table c hc).trans (h.table c hc), h'.shows, fun s hs => (h'.other s hs).trans (h.other s hs)⟩

/-- The loops of `byte_wr` write the bytes, and nothing outside the file. -/
theorem wrLoop_spec (hl : Linked (getNext g disk) isEoc l) (hd : ∀ c ∈ l, InData g c) (hnd : l.Nodup)
    (hs : Shows disk 512 (secs g l) t) (hcurr : l[off / 512 / g.secPerclst]? = some curr) (hoff : off ≤ t.length)
    (hroom : off + src.length ≤ 512 * (secs g l).length) (hn : src.length < n) :
    Writes g disk (wrLoop g n disk curr (off / 512 % g.secPerclst) (off % 512) src) l (splice t off src) := by
  induction n generalizing disk t off src curr with
  | zero => omega
  | succ n ih =>
    have hskip : off % 512 < 512 := Nat.mod_lt _ (by decide)
    have hsec : (secs g l)[off / 512]? = some (clSec g curr (off / 512 % g.secPerclst)) := by
      rw [getElem?_secs, hcurr, Option.map_some]
    rw [wrLoop, cpysiz_eq]
    rw [length_drop]
    generalize hcpy : min src.length (512 - off % 512) = cpy
    have htake : (src.take cpy).length = cpy := length_take_of_le (by omega)
    have hone := writes_sector hd hnd hs hsec hoff (by omega : _ + (src.take cpy).length ≤ 512)
    generalize update disk _ (writeAt (disk (clSec g curr (off / 512 % g.secPerclst))) (off % 512)
      (src.take cpy)) = disk1 at hone ⊢
    by_cases h0 : src.length - cpy = 0
    · rw [if_pos h0]
      rwa [take_of_length_le (by omega)] at hone
    rw [← hcpy] at h0
    obtain ⟨hdiv, hmod⟩ := sector_end h0
    rw [hcpy] at h0 hdiv hmod
    have hl1 : Linked (getNext g disk1) isEoc l := hl.congr fun c hc => hone.table c (hd c hc).2
    have hdrop : (src.drop cpy).length = src.length - cpy := length_drop
    have hoff1 : off + cpy ≤ (splice t off (src.take cpy)).length := by
      rw [length_splice hoff, htake]
      omega
    have hsplice := splice_splice (src.take cpy) (src.drop cpy) hoff
    rw [htake, take_append_drop] at hsplice
    have hrest : ∀ {curr' : Nat}, l[(off / 512 + 1) / g.secPerclst]? = some curr' →
        Writes g disk (wrLoop g n disk1 curr' ((off / 512 + 1) % g.secPerclst) 0 (src.drop cpy)) l (splice t off src) :=
      fun hc => by
        rw [← hdiv] at hc
        have hloop := ih hl1 hone.shows hc hoff1 (by omega : _ + (src.drop cpy).length ≤ _) (by omega)
        rw [hdiv, hmod, hsplice] at hloop
        exact hone.trans hloop
    rw [if_neg h0]
    rcases next_sector hl1 hd hcurr (by omega) with ⟨hin, hc, hk⟩ | ⟨hout, hc, hk, heoc⟩
    · rw [if_pos hin, ← hk]
      exact hrest hc
    rw [if_neg hout, if_neg heoc]
    rw [hk] at hrest
    exact hrest hc

/-! ## Calls -/

theorem getElem?_clst (hlt : off < g.clstSiz * l.length) : ∃ curr, l[off / g.clstSiz]? = some curr ∧
    l[off / 512 / g.secPerclst]? = some curr := by
  obtain ⟨curr, hc⟩ : ∃ curr, l[off / g.clstSiz]? = some curr := ⟨_, getElem?_eq_getElem (Nat.div_lt_of_lt_mul hlt)⟩
  refine ⟨curr, hc, ?_⟩
  rw [Nat.div_div_eq_div_mul, Nat.mul_comm]
  exact hc

theorem clstSiz_mul (g : Geo) (l : List Nat) : 512 * (secs g l).length = g.clstSiz * l.length := by
  rw [length_secs, Geo.clstSiz, ← Nat.mul_assoc, Nat.mul_comm 512]

/-- **`byte_rd` reads the bytes of the file.** -/
theorem byteRd_spec {node : Node} {rdsiz : Nat} (hl : Linked (getNext g disk) isEoc l) (hd : ∀ c ∈ l, InData g c)
    (hs : Shows disk 512 (secs g l) t) (hsiz : node.siz = t.length) (hroom : t.length ≤ g.clstSiz * l.length)
    (hsmall : t.length < 2 ^ 32) (hcache : t.length ≠ 0 → CacheOk g node.cache l) (hrd : off + rdsiz < 2 ^ 64) :
    ∃ c', byteRd g disk node rdsiz off = (c', ⟨toInt ((t.drop off).take rdsiz).length, (t.drop off).take rdsiz⟩) ∧
      (t.length ≠ 0 → CacheOk g c' l) := by
  rw [byteRd, hsiz]
  by_cases h0 : rdsiz = 0 ∨ t.length ≤ off
  · refine ⟨node.cache, ?_, hcache⟩
    have hnil : (t.drop off).take rdsiz = [] := by
      rcases h0 with rfl | h0
      · exact take_zero
      · rw [drop_eq_nil_of_le h0, take_nil]
    rw [if_pos h0, hnil]
    rfl
  rw [not_or, not_le] at h0
  obtain ⟨curr, hc, hc'⟩ := getElem?_clst (h0.2.trans_le hroom)
  have hmod : off % 2 ^ 32 = off := Nat.mod_eq_of_lt (by omega)
  obtain ⟨c', hsearch, hok⟩ := cacheSearch_spec hl (hcache (by omega)) (by omega : off < 2 ^ 32) hc
  have hreal : (min t.length ((off + rdsiz) % 2 ^ 64) + 2 ^ 64 - off) % 2 ^ 32 = min rdsiz (t.length - off) := by omega
  have hlen : ((t.drop off).take rdsiz).length = min rdsiz (t.length - off) := by rw [length_take, length_drop]
  have hloop := rdLoop_spec hl hd hs hc' (by omega : off + min rdsiz (t.length - off) ≤ t.length)
    (by rw [clstSiz_mul]; exact hroom) (Nat.lt_succ_self _)
  refine ⟨c', ?_, fun _ => hok⟩
  rw [if_neg (by omega)]
  dsimp only
  rw [hmod, hsearch, hreal, hloop, hlen, ← length_drop, take_eq_take_min (i := rdsiz)]

/-- **`byte_wr` writes the bytes of the file.** -/
theorem byteWr_spec (hl : Linked (getNext g disk) isEoc l) (hd : ∀ c ∈ l, InData g c) (hnd : l.Nodup)
    (hs : Shows disk 512 (secs g l) t) (hcache : CacheOk g c l) (hoff : off ≤ t.length) (hpos : 0 < src.length)
    (hroom : off + src.length ≤ g.clstSiz * l.length) (hsmall : off + src.length < 2 ^ 32) :
    ∃ disk' c', byteWr g disk c src off = (disk', c') ∧ Writes g disk disk' l (splice t off src) ∧ CacheOk g c' l := by
  obtain ⟨curr, hc, hc'⟩ := getElem?_clst (by omega : off < g.clstSiz * l.length)
  obtain ⟨c', hsearch, hok⟩ := cacheSearch_spec hl hcache (by omega : off < 2 ^ 32) hc
  have hloop := wrLoop_spec hl hd hnd hs hc' hoff (by rw [clstSiz_mul]; exact hroom) (Nat.lt_succ_self _)
  refine ⟨_, c', ?_, hloop, hok⟩
  rw [byteWr, Nat.mod_eq_of_lt (by omega : off < 2 ^ 32), Nat.mod_eq_of_lt (by omega : src.length < 2 ^ 32), hsearch,
    take_length]

end TextOS.Fat
