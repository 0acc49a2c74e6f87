import TextOS.Fat.Data

/-!
# Runs of calls: `kernel/fs/phy/fat32.c`

- `Careful`: a call finds its file and the free clusters it needs, writes something, and does not give up clusters of a
  file that goes on; `Frugal`: a node that is removed has no clusters;
- **every run of careful calls keeps the chains apart** (`chains_kept`), and clusters are lost only where a node with
  clusters is removed (`removed_lost`: `data_relse` marks them as in use);
- **every run of careful reads and writes shows the bytes that were written last** (`bytes_kept`).
-/

namespace TextOS.Fat

open Lib List Function Option

variable {g : Geo} {disk disk' : Disk} {ch : Nat → List Nat} {text : Nat → List UInt8} {v : Vol} {f k : Nat} {n : Node}
  {l : List Nat} {t : List UInt8}

/-! ## Conditions -/

/-- There are free clusters for the `k` that are appended to a directory. -/
def GrowOk (g : Geo) : Disk → Nat → Nat → Prop
  | _, _, 0 => True
  | disk, clst, k + 1 => clst ≠ 0 ∧ Room g disk clst 1 true ∧ ∀ r ∈ expandTo g disk clst 1 true, GrowOk g r.1 r.2 k

instance decidableGrowOk : ∀ (k : Nat) (disk : Disk) (clst : Nat), Decidable (GrowOk g disk clst k)
  | 0, _, _ => .isTrue trivial
  | k + 1, disk, clst =>
    have : DecidablePred fun r : Disk × Nat => GrowOk g r.1 r.2 k := fun r => decidableGrowOk k r.1 r.2
    inferInstanceAs (Decidable (clst ≠ 0 ∧ Room g disk clst 1 true ∧ ∀ r ∈ expandTo g disk clst 1 true,
    GrowOk g r.1 r.2 k))

/-- The directory gets the clusters that it needs. -/
def UpdateOk (g : Geo) (v : Vol) (parent k : Nat) : Prop :=
  match v.node parent with
  | none => k = 0
  | some p => GrowOk g v.disk p.clst k

instance (v : Vol) (parent k : Nat) : Decidable (UpdateOk g v parent k) := by
  unfold UpdateOk
  split <;> infer_instance

/-- The file gets the clusters that it needs for `siz` bytes. -/
def ExpandOk (g : Geo) (disk : Disk) (n : Node) (siz : Nat) : Prop :=
  g.clstSiz * ((n.siz + g.clstSiz - 1) / g.clstSiz) < siz →
    Room g disk n.clst ((siz + g.clstSiz - 1) / g.clstSiz) false
deriving Decidable

/-- The new length of a file keeps its clusters. -/
def TruncOk (g : Geo) (disk : Disk) (n : Node) (len : Nat) : Prop :=
  len = n.siz ∨ (0 < n.siz ∧ n.siz < len ∧ len < 2 ^ 32 ∧ ExpandOk g disk n len) ∨
    (0 < len ∧ len < n.siz ∧ isEoc (getNext g disk n.clst))
deriving Decidable

/-- The volume with a node stored, before its directory entries are written. -/
def Vol.put (v : Vol) (disk : Disk) (f : Nat) (n : Node) (r : Reply) : Vol :=
  ⟨disk, update v.node f (some n), v.replies ++ [r]⟩

def Careful (g : Geo) (v : Vol) : Op → Prop
  | .create id parent dir junk k => v.node id = none ∧ id ≠ parent ∧ (dir = true → 0 < freeFrom g v.disk 2) ∧
    ∀ a ∈ createClst g v.disk dir, UpdateOk g (v.put a.2 id ⟨parent, 0, a.1, junk⟩ ⟨0, []⟩) parent k
  | .read f siz off => (∃ n, n ∈ v.node f) ∧ off + siz < 2 ^ 64
  | .write f src off k => ∃ n ∈ v.node f, (0 < src.length ∧ off + src.length < 2 ^ 32) ∧
    ExpandOk g v.disk n (off + src.length) ∧ ∀ r ∈ fat32Write g v.disk n src off,
      UpdateOk g (v.put r.1 f r.2.1 ⟨toInt src.length, []⟩) n.parent (if r.2.2 then k else 0)
  | .truncate f len k => ∃ n ∈ v.node f, TruncOk g v.disk n len ∧ ∀ r ∈ fat32Truncate g v.disk n len,
      UpdateOk g (v.put r.1 f r.2.1 ⟨0, []⟩) n.parent (if r.2.2 then k else 0)
  | .remove f => ∃ n, n ∈ v.node f

instance : ∀ (v : Vol) (o : Op), Decidable (Careful g v o)
  | _, .create .. => inferInstanceAs (Decidable (_ ∧ _ ∧ _ ∧ _))
  | v, .read f .. =>
    have : Decidable (∃ n, n ∈ v.node f) := decidable_of_iff _ isSome_iff_exists
    inferInstanceAs (Decidable (_ ∧ _))
  | v, .write f .. => inferInstanceAs (Decidable (∃ n ∈ v.node f, _ ∧ _ ∧ _))
  | v, .truncate f .. => inferInstanceAs (Decidable (∃ n ∈ v.node f, _ ∧ _))
  | v, .remove f => decidable_of_iff ((v.node f).isSome = true) isSome_iff_exists

/-- A node that is removed has no clusters. -/
def Frugal (v : Vol) : Op → Prop
  | .remove f => ∀ n ∈ v.node f, n.clst = 0
  | _ => True

instance : ∀ (v : Vol) (o : Op), Decidable (Frugal v o)
  | v, .remove f => inferInstanceAs (Decidable (∀ n ∈ v.node f, n.clst = 0))
  | _, .create .. | _, .read .. | _, .write .. | _, .truncate .. => .isTrue trivial

/-! ## The chains and the bytes -/

/-- The chains `ch` hold the bytes `text`. -/
structure Kept (g : Geo) (disk : Disk) (ch : Nat → List Nat) (text : Nat → List UInt8) : Prop where
  layout : Layout g disk ch
  shows : ∀ f, Shows disk 512 (secs g (ch f)) (text f)

theorem Kept.update_text (h : Kept g disk ch text) (ht : Shows disk 512 (secs g (ch f)) t) :
    Kept g disk ch (update text f t) := by
  refine ⟨h.layout, fun e => ?_⟩
  by_cases he : e = f
  · subst he
    rwa [update_self]
  · rw [update_of_ne he]
    exact h.shows e

theorem Kept.extends {new : List Nat} (h : Kept g disk ch text) (he : Extends g disk disk' (ch f) new) :
    Kept g disk' (update ch f (ch f ++ new)) text := by
  have hs : ∀ e, Shows disk' 512 (secs g (ch e)) (text e) := fun e =>
    Shows.of_sameData (h.shows e) (h.layout.data e) (fun _ hc => h.layout.owned.fresh he.free e hc) he.data
  refine ⟨h.layout.extends he, fun e => ?_⟩
  by_cases hef : e = f
  · subst hef
    rw [update_self, secs_append]
    exact (hs e).append _
  · rw [update_of_ne hef]
    exact hs e

theorem Kept.pad (h : Kept g disk ch text) {j : Nat} (hj : (text f).length + j ≤ g.clstSiz * (ch f).length) :
    ∃ gap : List UInt8, gap.length = j ∧ Kept g disk ch (update text f (text f ++ gap)) := by
  rw [← clstSiz_mul] at hj
  obtain ⟨gap, hlen, hgap⟩ := (h.shows f).pad hj
  exact ⟨gap, hlen, h.update_text hgap⟩

theorem Layout.congr (h : Layout g disk ch) (ht : ∀ c < g.clusters, getNext g disk' c = getNext g disk c) :
    Layout g disk' ch := by
  refine ⟨fun e => (h.linked e).congr fun c hc => ht c (h.data e c hc).2, h.data, h.owned.mono fun c hc => ?_, ?_⟩
  · exact ⟨hc.1, by rw [← ht c hc.1.2, hc.2]⟩
  · rw [ht 0 g.clustersPos]
    exact h.media

theorem Exact.congr (h : Exact g disk ch) (ht : ∀ c < g.clusters, getNext g disk' c = getNext g disk c) :
    Exact g disk' ch := fun c hc hne => h c hc (by rwa [← ht c hc.2])

/-- A write inside the chain changes this file's bytes and no other's. -/
theorem Kept.byteWr {c : Cache} {off : Nat} (src : List UInt8) (h : Kept g disk ch text) (hc : CacheOk g c (ch f))
    (hoff : off ≤ (text f).length) (hpos : 0 < src.length) (hroom : off + src.length ≤ g.clstSiz * (ch f).length)
    (hsmall : off + src.length < 2 ^ 32) :
    ∃ disk' c', Fat.byteWr g disk c src off = (disk', c') ∧ CacheOk g c' (ch f) ∧
      Kept g disk' ch (update text f (splice (text f) off src)) ∧ (Exact g disk ch → Exact g disk' ch) := by
  have hd := h.layout.data
  obtain ⟨disk', c', hwr, hw, hc'⟩ := byteWr_spec (h.layout.linked f) (hd f) (h.layout.owned.nodup f)
    (h.shows f) hc hoff hpos hroom hsmall
  refine ⟨disk', c', hwr, hc', ⟨h.layout.congr hw.table, fun e => ?_⟩, fun hex => hex.congr hw.table⟩
  by_cases he : e = f
  · subst he
    rw [update_self]
    exact hw.shows
  · rw [update_of_ne he]
    exact (h.shows e).congr fun s hs => hw.other s (disjoint_secs (h.layout.owned.apart e f he) (hd e) (hd f) hs)

/-! ## Nodes -/

/-- The node of a file with the chain `l` and the bytes `t`. -/
structure NodeOk (g : Geo) (n : Node) (l : List Nat) (t : List UInt8) : Prop where
  clst : n.clst = l.headD 0
  size : n.siz = t.length
  fits : t.length ≤ g.clstSiz * l.length
  small : t.length < 2 ^ 32
  cache : t.length ≠ 0 → CacheOk g n.cache l

/-- The volume has the files with the chains `ch` and the bytes `text`. -/
structure Holds (g : Geo) (v : Vol) (ch : Nat → List Nat) (text : Nat → List UInt8) : Prop where
  kept : Kept g v.disk ch text
  dead : ∀ f, v.node f = none → ch f = []
  node : ∀ f n, v.node f = some n → NodeOk g n (ch f) (text f)

/-- One file's chain, text and node are replaced. -/
theorem Holds.put (rs : List Reply) (h : Holds g v ch text)
    (hk : Kept g disk' (update ch f l) (update text f t)) (hn : NodeOk g n l t) :
    Holds g ⟨disk', update v.node f (some n), rs⟩ (update ch f l) (update text f t) := by
  refine ⟨hk, fun e he => ?_, fun e m he => ?_⟩
  · by_cases hef : e = f
    · subst hef
      simp at he
    · simp only [update_of_ne hef] at he ⊢
      exact h.dead e he
  by_cases hef : e = f
  · subst hef
    simp only [update_self, some.injEq] at he ⊢
    exact he ▸ hn
  · simp only [update_of_ne hef] at he ⊢
    exact h.node e m he

theorem headD_append (h : l ≠ []) (new : List Nat) : (l ++ new).headD 0 = l.headD 0 := by
  cases l with
  | nil => exact absurd rfl h
  | cons c l => rfl

theorem NodeOk.append (h : NodeOk g n l t) (hl : l ≠ []) (new : List Nat) : NodeOk g n (l ++ new) t := by
  refine ⟨by rw [headD_append hl, h.clst], h.size, h.fits.trans (Nat.mul_le_mul_left _ ?_), h.small,
    fun h0 => (h.cache h0).append new⟩
  rw [length_append]
  omega

/-- A directory's chain grows by `k` clusters. -/
theorem growDir_spec {clst : Nat} (h : Layout g disk ch) (hclst : clst = (ch f).headD 0) (hok : GrowOk g disk clst k) :
    ∃ disk' new, growDir g disk clst k = some (disk', clst) ∧ Extends g disk disk' (ch f) new ∧
    (ch f = [] → new = []) := by
  induction k generalizing disk ch with
  | zero => exact ⟨disk, [], rfl, Extends.refl (h.linked f), fun _ => rfl⟩
  | succ k ih =>
    obtain ⟨h0, hroom, hrest⟩ := hok
    have hne : ch f ≠ [] := fun hnil => h0 (by rw [hclst, hnil]; rfl)
    rw [hclst] at hroom
    obtain ⟨disk1, new, hexp, he, -⟩ := h.expand Nat.one_pos hroom
    rw [headD_append hne, ← hclst] at hexp
    have hupd : update ch f (ch f ++ new) f = ch f ++ new := update_self _ _ _
    obtain ⟨disk', new', hgrow, he', -⟩ := ih (h.extends he) (by rw [hupd, headD_append hne, hclst])
      (hrest _ hexp)
    rw [hupd] at he'
    refine ⟨disk', new ++ new', ?_, he.trans he' (h.data f), fun hnil => absurd hnil hne⟩
    rw [growDir, hexp]
    exact hgrow

/-- **Directory entries are written.** -/
theorem nodeUpdate_spec {parent : Nat} (h : Holds g v ch text) (hok : UpdateOk g v parent k) :
    ∃ v' ch', nodeUpdate g v parent k = some v' ∧ Holds g v' ch' text ∧ v'.replies = v.replies ∧
      (Exact g v.disk ch → Exact g v'.disk ch') := by
  rw [UpdateOk] at hok
  rw [nodeUpdate]
  cases hp : v.node parent with
  | none =>
    rw [hp] at hok
    exact ⟨v, ch, if_pos hok, h, rfl, id⟩
  | some p =>
    rw [hp] at hok
    have hn := h.node parent p hp
    obtain ⟨disk', new, hgrow, he, hnew⟩ := growDir_spec h.kept.layout hn.clst hok
    have hnode : NodeOk g p (ch parent ++ new) (text parent) := by
      by_cases hnil : ch parent = []
      · rwa [hnew hnil, append_nil]
      · exact hn.append hnil new
    have hput := h.put v.replies (t := text parent) (by
      rw [update_eq_self]
      exact h.kept.extends he) hnode
    rw [update_eq_self] at hput
    dsimp only
    rw [hgrow]
    exact ⟨_, _, rfl, hput, rfl, fun hex => hex.extends he⟩

/-- A file's chain grows until `siz` bytes have room. -/
theorem nodeExpand_spec {siz : Nat} (h : Layout g disk ch) (hn : NodeOk g n (ch f) (text f))
    (hok : ExpandOk g disk n siz) : ∃ disk' new, nodeExpand g disk n siz = some (disk', (ch f ++ new).headD 0) ∧
    Extends g disk disk' (ch f) new ∧
      siz ≤ g.clstSiz * (ch f ++ new).length := by
  have hpos : 0 < g.clstSiz := Nat.mul_pos g.perclstPos (by decide)
  have hceil : ∀ x, x ≤ g.clstSiz * ((x + g.clstSiz - 1) / g.clstSiz) := fun x => by
    have h1 := Nat.div_add_mod (x + g.clstSiz - 1) g.clstSiz
    have h2 := Nat.mod_lt (x + g.clstSiz - 1) hpos
    omega
  rw [nodeExpand]
  by_cases hle : siz ≤ g.clstSiz * ((n.siz + g.clstSiz - 1) / g.clstSiz)
  · refine ⟨disk, [], by rw [if_pos hle, append_nil, hn.clst], Extends.refl (h.linked f), hle.trans ?_⟩
    have hlt : (n.siz + g.clstSiz - 1) / g.clstSiz < (ch f).length + 1 := by
      rw [Nat.div_lt_iff_lt_mul hpos, Nat.add_mul, Nat.one_mul, hn.size, Nat.mul_comm]
      have := hn.fits
      omega
    rw [append_nil]
    exact Nat.mul_le_mul_left _ (Nat.le_of_lt_succ hlt)
  have hroom := hok (not_le.1 hle)
  rw [hn.clst] at hroom
  have hcnt : 0 < (siz + g.clstSiz - 1) / g.clstSiz := Nat.div_pos (by omega) hpos
  obtain ⟨disk', new, hexp, he, hlen⟩ := h.expand hcnt hroom
  refine ⟨disk', new, by rw [if_neg hle, hn.clst, hexp], he, (hceil siz).trans (Nat.mul_le_mul_left _ (hlen rfl))⟩

theorem ne_nil_of_fits {x : Nat} (hx : 0 < x) (h : x ≤ g.clstSiz * l.length) : l ≠ [] := by
  rintro rfl
  simp at h
  omega

theorem getElem?_zero_of_headD (h : l ≠ []) : l[0]? = some (l.headD 0) := by
  cases l with
  | nil => exact absurd rfl h
  | cons c l => rfl

/-- **`fat32_write`** writes the bytes; before them may be bytes that were never written. -/
theorem Holds.fat32Write {src : List UInt8} {off : Nat} (rs : List Reply) (h : Holds g v ch text)
    (hf : v.node f = some n) (hpos : 0 < src.length) (hsmall : off + src.length < 2 ^ 32)
    (hok : ExpandOk g v.disk n (off + src.length)) : ∃ r ch' gap, Fat.fat32Write g v.disk n src off = some r ∧
    gap.length = off - (text f).length ∧
      Holds g ⟨r.1, update v.node f (some r.2.1), rs⟩ ch'
        (update text f (splice (text f ++ gap) off src)) ∧ (Exact g v.disk ch → Exact g r.1 ch') := by
  have hn := h.node f n hf
  have hfin : (src.length + off) % 2 ^ 64 = off + src.length := by omega
  rw [Fat.fat32Write, hfin]
  by_cases hle : n.siz ≤ off + src.length
  · obtain ⟨disk1, new, hexp, he, hroom⟩ := nodeExpand_spec h.kept.layout hn hok
    have hupd : update ch f (ch f ++ new) f = ch f ++ new := update_self _ _ _
    have hk1 := h.kept.extends he
    have hne := ne_nil_of_fits (by omega) hroom
    have hcache : CacheOk g (if n.siz = 0 then cacheInit ((ch f ++ new).headD 0) else n.cache) (ch f ++ new) := by
      split
      next => exact cacheInit_ok (getElem?_zero_of_headD hne)
      next h0 => exact (hn.cache (by rwa [← hn.size])).append new
    obtain ⟨gap, hgap, hk2⟩ := hk1.pad (f := f) (j := off - (text f).length) (by
      have := hn.size
      rw [hupd]
      omega)
    have hlen : (text f ++ gap).length = max (text f).length off := by
      rw [length_append]
      omega
    obtain ⟨disk', c', hwr, hc', hk', hex'⟩ := hk2.byteWr (f := f) src (by rwa [hupd])
      (by rw [update_self]; omega : off ≤ _) hpos (by rwa [hupd]) hsmall
    rw [update_self, update_idem] at hk'
    rw [hupd] at hc'
    have hsp : (splice (text f ++ gap) off src).length = off + src.length := by
      have := hn.size
      rw [length_splice (by omega), hlen]
      omega
    rw [if_pos hle, hexp, map_some]
    rw [hwr]
    refine ⟨_, _, gap, rfl, hgap, h.put rs hk' ?_, fun hex => hex' (hex.extends he)⟩
    exact ⟨rfl, hsp.symm, by rwa [hsp], by rwa [hsp], fun _ => hc'⟩
  · have hsize := hn.size
    have hfits := hn.fits
    obtain ⟨disk', c', hwr, hc', hk', hex'⟩ := h.kept.byteWr (f := f) src
      (hn.cache (by omega)) (by omega : off ≤ _) hpos (by omega) hsmall
    have hsp : (splice (text f) off src).length = (text f).length := by
      rw [length_splice (by omega)]
      omega
    rw [if_neg hle]
    rw [hwr]
    refine ⟨_, ch, [], rfl, by rw [length_nil]; omega, ?_, hex'⟩
    have hput := h.put rs (l := ch f) (t := splice (text f) off src) (n := { n with cache := c' })
      (by rwa [update_eq_self]) ⟨hn.clst, hsize.trans hsp.symm, by rwa [hsp], by rw [hsp]; exact hn.small,
        fun _ => hc'⟩
    rwa [update_eq_self, ← append_nil (text f)] at hput

/-! ## Calls -/

/-- `fat32_truncate` keeps the volume and changes no other text. -/
theorem Holds.fat32Truncate {len : Nat} (rs : List Reply) (h : Holds g v ch text) (hf : v.node f = some n)
    (hok : TruncOk g v.disk n len) : ∃ r ch' t, Fat.fat32Truncate g v.disk n len = some r ∧
      Holds g ⟨r.1, update v.node f (some r.2.1), rs⟩ ch' (update text f t) ∧
      (Exact g v.disk ch → Exact g r.1 ch') := by
  have hn := h.node f n hf
  have hsize := hn.size
  rw [Fat.fat32Truncate]
  rcases hok with rfl | ⟨hpos, hlt, hsmall, hroom⟩ | ⟨hpos, hlt, heoc⟩
  · refine ⟨_, ch, text f, if_pos rfl, ?_, id⟩
    have hput := h.put rs (l := ch f) (t := text f)
      (by rw [update_eq_self, update_eq_self]; exact h.kept) hn
    rwa [update_eq_self] at hput
  · obtain ⟨disk1, new, hexp, he, hfits⟩ := nodeExpand_spec h.kept.layout hn hroom
    obtain ⟨gap, hgap, hk⟩ := (h.kept.extends he).pad (f := f) (j := len - (text f).length) (by
      rw [update_self]
      omega)
    have hlen : (text f ++ gap).length = len := by
      rw [length_append]
      omega
    rw [if_neg (by omega), if_pos hlt, hexp, map_some]
    refine ⟨_, _, _, rfl, h.put rs hk ?_, fun hex => hex.extends he⟩
    exact ⟨rfl, hlen.symm, by rwa [hlen], by rwa [hlen], fun _ => (hn.cache (by omega)).append new⟩
  · -- the chain has one cluster, which keeps its end mark
    have hfits := hn.fits
    have hne := ne_nil_of_fits (by omega) hfits
    obtain ⟨c, l, hl⟩ := exists_cons_of_ne_nil hne
    have hclst : n.clst = c := by rw [hn.clst, hl]; rfl
    have hch : ch f = [c] := by
      rcases (h.kept.layout.linked f).follow (i := 0) (c := c) (by rw [hl]; rfl) with hnext | ⟨hone, -⟩
      · rw [← hclst] at hnext
        exact absurd heoc (lt_of_inData (h.kept.layout.data f _ (mem_of_getElem? hnext))).2
      · rw [hl, length_cons] at hone
        rw [hl, eq_nil_of_length_eq_zero (by omega : l.length = 0)]
    have hdata := h.kept.layout.data f
    have hlink := h.kept.layout.linked f
    rw [hch] at hdata hlink
    have hskip : (len + g.clstSiz - 1) / g.clstSiz < rounds := by
      have hpos' : 512 ≤ g.clstSiz := Nat.le_mul_of_pos_left _ g.perclstPos
      have := hn.small
      rw [Nat.div_lt_iff_lt_mul (by omega), rounds]
      calc len + g.clstSiz - 1 < 2 ^ 32 + g.clstSiz := by omega
        _ ≤ 2 ^ 32 * g.clstSiz := by nlinarith
    obtain ⟨disk', hrel, hmark⟩ := dataRelse_marked hlink hdata (nodup_singleton c)
      (Nat.sub_pos_of_lt hskip)
    obtain ⟨hlay, hex⟩ := h.kept.layout.mark hch hmark
    have hsmall := hn.small
    have htake : ((text f).take len).length = len := length_take_of_le (by omega)
    have hk : Kept g disk' ch text := ⟨hlay, fun e =>
      Shows.of_sameData (h.kept.shows e) (h.kept.layout.data e) (fun _ _ => not_mem_nil) hmark.data⟩
    have hput := h.put rs (l := ch f) (t := (text f).take len) (n := { n with siz := len }) (by
      rw [update_eq_self]
      exact hk.update_text ((hk.shows f).take len)) ⟨hn.clst, htake.symm,
        by omega, by omega, fun _ => hn.cache (by omega)⟩
    rw [update_eq_self] at hput
    have hrel' : dataRelse g rounds v.disk n.clst ((len + g.clstSiz - 1) / g.clstSiz)
      (decide (len = 0)) = some disk' := by
      rw [decide_eq_false (by omega), hclst, ← hrel, ← dataRelse_skip _ _ _ ((len + g.clstSiz - 1) / g.clstSiz),
        Nat.sub_add_cancel hskip.le]
    rw [if_neg (by omega), if_neg (by omega), hrel', map_some]
    exact ⟨_, ch, _, rfl, hput, hex⟩

/-- A new node; a directory starts with a cluster. -/
theorem Holds.createClst {dir : Bool} {id : Nat} (parent : Nat) (junk : Cache) (rs : List Reply) (h : Holds g v ch text)
    (hid : v.node id = none) (hfree : dir = true → 0 < freeFrom g v.disk 2) :
    ∃ a ch', Fat.createClst g v.disk dir = some a ∧
      Holds g ⟨a.2, update v.node id (some ⟨parent, 0, a.1, junk⟩), rs⟩ ch' text ∧
      (Exact g v.disk ch → Exact g a.2 ch') := by
  have hnil := h.dead id hid
  have htext : text id = [] := by
    refine eq_nil_iff_forall_not_mem.2 fun x hx => ?_
    obtain ⟨i, hi⟩ := getElem?_of_mem hx
    obtain ⟨b, hb, -⟩ := h.kept.shows id i x hi
    rw [hnil] at hb
    cases hb
  obtain ⟨a, new, hcreate, he, hhead⟩ : ∃ a new, Fat.createClst g v.disk dir = some a ∧
      Extends g v.disk a.2 (ch id) new ∧ a.1 = (ch id ++ new).headD 0 := by
    cases dir with
    | false => exact ⟨_, [], rfl, Extends.refl (h.kept.layout.linked id), by rw [hnil]; rfl⟩
    | true =>
      obtain ⟨c, halloc, he, -⟩ := allocClst_spec (hfree rfl)
      rw [hnil]
      exact ⟨_, [c], halloc, he, rfl⟩
  have hput := h.put rs (l := ch id ++ new) (t := text id) (n := ⟨parent, 0, a.1, junk⟩) (by
    rw [update_eq_self]
    exact h.kept.extends he) (by
      rw [htext]
      exact ⟨hhead, rfl, Nat.zero_le _, Nat.two_pow_pos 32, fun h0 => absurd rfl h0⟩)
  rw [update_eq_self] at hput
  exact ⟨a, _, hcreate, hput, fun hex => hex.extends he⟩

/-- A removed file's chain is empty. -/
theorem Holds.remove {rs : List Reply} (h : Holds g v ch text) (hf : v.node f = some n) :
    ∃ disk', dataRelse g rounds v.disk n.clst 0 false = some disk' ∧
      Holds g ⟨disk', update v.node f none, rs⟩ (update ch f []) (update text f []) ∧
      (n.clst = 0 → Exact g v.disk ch → Exact g disk' (update ch f [])) := by
  have hn := h.node f n hf
  obtain ⟨disk', hrel, hlay, hsame, hex⟩ := h.kept.layout.release f
  rw [← hn.clst] at hrel
  refine ⟨disk', hrel, ⟨⟨hlay, fun e => ?_⟩, fun e he => ?_, fun e m he => ?_⟩, fun h0 => hex ?_⟩
  · by_cases hef : e = f
    · subst hef
      rw [update_self, update_self]
      exact nofun
    · rw [update_of_ne hef, update_of_ne hef]
      exact Shows.of_sameData (h.kept.shows e) (h.kept.layout.data e) (fun _ _ => not_mem_nil) hsame
  · by_cases hef : e = f
    · subst hef
      exact update_self _ _ _
    · simp only [update_of_ne hef] at he ⊢
      exact h.dead e he
  · by_cases hef : e = f
    · subst hef
      simp at he
    · simp only [update_of_ne hef] at he ⊢
      exact h.node e m he
  -- clusters of the volume are not zero
  by_contra hne
  obtain ⟨c, l, hl⟩ := exists_cons_of_ne_nil hne
  have hc := (h.kept.layout.data f c (by rw [hl]; exact mem_cons_self)).1
  rw [hn.clst, hl, headD_cons] at h0
  omega

/-! ## Runs -/

theorem Holds.write {src : List UInt8} {off : Nat} (h : Holds g v ch text) (hc : Careful g v (.write f src off k)) :
    ∃ v' ch' gap, step g v (.write f src off k) = some v' ∧ gap.length = off - (text f).length ∧
      Holds g v' ch' (update text f (splice (text f ++ gap) off src)) ∧
      v'.replies = v.replies ++ [⟨toInt src.length, []⟩] ∧ (Exact g v.disk ch → Exact g v'.disk ch') := by
  obtain ⟨n, hf, ⟨hpos, hsmall⟩, hroom, hupd⟩ := hc
  obtain ⟨r, ch1, gap, hwr, hgap, h1, hex1⟩ := h.fat32Write _ hf hpos hsmall hroom
  obtain ⟨v', ch', hnode, h', hrep, hex'⟩ := nodeUpdate_spec h1 (hupd r hwr)
  refine ⟨v', ch', gap, ?_, hgap, h', hrep, hex' ∘ hex1⟩
  rw [step, hf, bind_some, hwr, bind_some]
  exact hnode

theorem Holds.byteRd {siz off : Nat} (h : Holds g v ch text) (hf : v.node f = some n) (hlt : off + siz < 2 ^ 64) :
    ∃ c', Fat.byteRd g v.disk n siz off =
        (c', ⟨toInt (((text f).drop off).take siz).length, ((text f).drop off).take siz⟩) ∧
      NodeOk g { n with cache := c' } (ch f) (text f) := by
  have hn := h.node f n hf
  obtain ⟨c', hrd, hc'⟩ := byteRd_spec (h.kept.layout.linked f) (h.kept.layout.data f) (h.kept.shows f) hn.size hn.fits
    hn.small hn.cache hlt
  exact ⟨c', hrd, hn.clst, hn.size, hn.fits, hn.small, hc'⟩

theorem Holds.read {siz off : Nat} (h : Holds g v ch text) (hc : Careful g v (.read f siz off)) :
    ∃ v', step g v (.read f siz off) = some v' ∧ Holds g v' ch text ∧ v'.disk = v.disk ∧
      v'.replies = v.replies ++ [⟨toInt (((text f).drop off).take siz).length, ((text f).drop off).take siz⟩] := by
  obtain ⟨⟨n, hf⟩, hlt⟩ := hc
  obtain ⟨c', hrd, hn⟩ := h.byteRd hf hlt
  have hput := h.put (v.replies ++ [⟨toInt (((text f).drop off).take siz).length, ((text f).drop off).take siz⟩])
    (by rw [update_eq_self, update_eq_self]; exact h.kept) hn
  rw [update_eq_self, update_eq_self] at hput
  refine ⟨_, ?_, hput, rfl, rfl⟩
  rw [step, hf, map_some, hrd]

/-- One operation keeps the volume. -/
theorem Holds.step {o : Op} (h : Holds g v ch text) (hc : Careful g v o) :
    ∃ v' ch' text', step g v o = some v' ∧ Holds g v' ch' text' ∧
      (Frugal v o → Exact g v.disk ch → Exact g v'.disk ch') := by
  cases o with
  | create id parent dir junk k =>
    obtain ⟨hid, -, hfree, hupd⟩ := hc
    obtain ⟨a, ch1, hcr, h1, hex1⟩ := h.createClst parent junk _ hid hfree
    obtain ⟨v', ch', hnode, h', -, hex'⟩ := nodeUpdate_spec h1 (hupd a hcr)
    refine ⟨v', ch', text, ?_, h', fun _ => hex' ∘ hex1⟩
    rw [Fat.step, hcr]
    exact hnode
  | read f siz off =>
    obtain ⟨v', hs, h', hd, -⟩ := h.read hc
    exact ⟨v', ch, text, hs, h', fun _ => by rw [hd]; exact id⟩
  | write f src off k =>
    obtain ⟨v', ch', gap, hs, -, h', -, hex⟩ := h.write hc
    exact ⟨v', ch', _, hs, h', fun _ => hex⟩
  | truncate f len k =>
    obtain ⟨n, hf, hok, hupd⟩ := hc
    obtain ⟨r, ch1, t, htr, h1, hex1⟩ := h.fat32Truncate _ hf hok
    obtain ⟨v', ch', hnode, h', -, hex'⟩ := nodeUpdate_spec h1 (hupd r htr)
    refine ⟨v', ch', _, ?_, h', fun _ => hex' ∘ hex1⟩
    rw [Fat.step, hf, bind_some, htr, bind_some]
    exact hnode
  | remove f =>
    obtain ⟨n, hf⟩ := hc
    obtain ⟨disk', hrel, h', hex⟩ := h.remove hf
    refine ⟨_, _, _, ?_, h', fun hfr => hex (hfr n hf)⟩
    rw [Fat.step, hf, bind_some, hrel, map_some]

theorem Holds.run : ∀ {os : List Op} {v : Vol} {ch : Nat → List Nat} {text : Nat → List UInt8}, Holds g v ch text →
    Meets (Fat.step g) (Careful g) v os → ∃ v' ch' text', run (Fat.step g) v os = some v' ∧ Holds g v' ch' text' ∧
      (Meets (Fat.step g) Frugal v os → Exact g v.disk ch → Exact g v'.disk ch')
  | [], v, ch, text, h, _ => ⟨v, ch, text, rfl, h, fun _ => id⟩
  | o :: os, v, ch, text, h, hm => by
    obtain ⟨v1, ch1, text1, hs, h1, hex1⟩ := h.step hm.1
    obtain ⟨v', ch', text', hr, h', hex'⟩ := h1.run (hm.2 v1 hs)
    exact ⟨v', ch', text', run_cons.2 ⟨v1, hs, hr⟩, h', fun hfr => hex' (hfr.2 v1 hs) ∘ hex1 hfr.1⟩

/-- **Every run of careful calls returns and keeps the chains**: each one is linked and ends, no cluster is in it twice,
in two of them or free, and removed nodes have none. If no node with clusters is removed, then the entries in use remain
exactly those of the chains, and all other clusters are free. -/
theorem chains_kept (g : Geo) (v : Vol) (ch : Nat → List Nat) (text : Nat → List UInt8) (h : Holds g v ch text)
    (os : List Op) (hos : Meets (step g) (Careful g) v os) :
    ∃ v' ch', run (step g) v os = some v' ∧ Layout g v'.disk ch' ∧ (∀ f, v'.node f = none → ch' f = []) ∧
      (∀ f n, v'.node f = some n → n.clst = (ch' f).headD 0) ∧
      (Exact g v.disk ch → Meets (step g) Frugal v os →
        ∀ c, InData g c → (getNext g v'.disk c ≠ 0 ↔ ∃ f, c ∈ ch' f)) := by
  obtain ⟨v', ch', text', hr, h', hex⟩ := h.run hos
  refine ⟨v', ch', hr, h'.kept.layout, h'.dead, fun f n hf => (h'.node f n hf).clst, fun hx hfr c hc => ?_⟩
  constructor
  · exact hex hfr hx c hc
  · rintro ⟨f, hf⟩
    exact ne_zero_of_linked (h'.kept.layout.linked f) (h'.kept.layout.data f) hf

/-- A volume with an empty root directory in cluster 2. -/
def fresh : Vol :=
  ⟨setNext tiny (setNext tiny (fun _ _ => 0) 0 EOC) 2 EOC, fun f => if f = 0 then some ⟨0, 0, 2, cacheInit 2⟩
    else none, []⟩

/-- The chains of `fresh`. -/
def freshCh (f : Nat) : List Nat := if f = 0 then [2] else []

theorem mem_freshCh {c : Nat} : c ∈ freshCh f ↔ f = 0 ∧ c = 2 := by
  rw [freshCh]
  split
  next h => simp [h]
  next h => simp [h]

/-- The volume with nothing but its root directory. -/
theorem holds_fresh : Holds tiny fresh freshCh fun _ => [] := by
  have hroot : isEoc (getNext tiny fresh.disk 2) := by decide +kernel
  refine ⟨⟨⟨fun f => ?_, fun f c hc => ?_, ⟨fun f => ?_, fun f f' hne c hc hc' => ?_, fun f c hc hfree => ?_⟩, by
    decide +kernel⟩, fun _ => nofun⟩, fun f hf => ?_, fun f n hf => ?_⟩
  · rw [freshCh]
    split
    · exact linked_singleton hroot
    · exact linked_nil _ _
  · rw [(mem_freshCh.1 hc).2]
    exact ⟨le_rfl, by decide⟩
  · rw [freshCh]
    split
    · exact nodup_singleton 2
    · exact nodup_nil
  · exact hne ((mem_freshCh.1 hc).1.trans (mem_freshCh.1 hc').1.symm)
  · rw [(mem_freshCh.1 hc).2] at hfree
    rw [hfree.2] at hroot
    exact absurd hroot (by decide)
  · rw [freshCh, if_neg fun h0 => ?_]
    subst h0
    cases hf
  rw [fresh] at hf
  dsimp only at hf
  split at hf
  next h0 =>
    subst h0
    cases hf
    exact ⟨rfl, rfl, Nat.zero_le _, by decide, fun h => absurd rfl h⟩
  next => cases hf

theorem exact_fresh : Exact tiny fresh.disk freshCh := by
  have hused : ∀ c < 20, c < 2 ∨ getNext tiny fresh.disk c = 0 ∨ c = 2 := by decide +kernel
  intro c hc hne
  refine ⟨0, mem_freshCh.2 ⟨rfl, ?_⟩⟩
  rcases hused c hc.2 with h | h | h
  · have := hc.1
    omega
  · exact absurd h hne
  · exact h

/-- A directory and a file are created, the file is written, shortened and made longer, and an empty one is removed. -/
def work : List Op := [.create 1 0 true (cacheInit 0) 1, .create 2 1 false (cacheInit 0) 0, .write 2 [7, 8, 9] 1022 0,
  .truncate 2 2000 1, .create 3 0 false (cacheInit 0) 0, .remove 3, .create 3 0 false (cacheInit 0) 0,
  .write 3 [1, 2] 0 0, .truncate 3 1 0]

theorem chains_kept_work : ∃ v' ch', run (step tiny) fresh work = some v' ∧ Layout tiny v'.disk ch' ∧
    ∀ c, InData tiny c → (getNext tiny v'.disk c ≠ 0 ↔ ∃ f, c ∈ ch' f) := by
  obtain ⟨v', ch', hr, hl, -, -, hex⟩ := chains_kept tiny fresh freshCh (fun _ => []) holds_fresh work
    (by decide +kernel)
  exact ⟨v', ch', hr, hl, hex exact_fresh (by decide +kernel)⟩

/-- A file of one byte is created, written and removed: its cluster is marked as the end of a chain, and the next
cluster that is allocated is another one. -/
theorem removed_lost : (run (step tiny) fresh [.create 1 0 false (cacheInit 0) 0, .write 1 [7] 0 0, .remove 1]).map
    (fun v => ((v.node 1).isNone, getNext tiny v.disk 3, (allocClst tiny v.disk).map Prod.fst)) =
      some (true, EOC, some 4) := by
  decide +kernel

/-! ## Contents -/

/-- The bytes `t` are the ones that are known; `none` stands for a byte that was never written. -/
def Agrees (t : List UInt8) (known : List (Option UInt8)) : Prop := List.Forall₂ (fun b k => ∀ a ∈ k, a = b) t known

/-- What is known of the files and of the replies. -/
structure Texts where
  text : Nat → List (Option UInt8)
  replies : List (Int × List (Option UInt8))

/-- What a read returns. -/
def answer (t : List (Option UInt8)) (siz off : Nat) : Int × List (Option UInt8) :=
  (toInt ((t.drop off).take siz).length, (t.drop off).take siz)

/-- The bytes of a file after a write; behind the end is a gap. -/
def written (t : List (Option UInt8)) (src : List UInt8) (off : Nat) : List (Option UInt8) :=
  splice (t ++ List.replicate (off - t.length) none) off (src.map some)

def spec (a : Texts) : Op → Texts
  | .read f siz off => { a with replies := a.replies ++ [answer (a.text f) siz off] }
  | .write f src off _ =>
    ⟨update a.text f (written (a.text f) src off), a.replies ++ [(toInt src.length, [])]⟩
  | _ => a

/-- The call reads or writes. -/
def Op.transfers : Op → Bool
  | .read .. | .write .. => true
  | _ => false

/-- A reply agrees with what is known of it. -/
def Reply.Agrees (r : Reply) (k : Int × List (Option UInt8)) : Prop := r.ret = k.1 ∧ Fat.Agrees r.buf k.2

section Spec

variable {t data : List UInt8} {known known' : List (Option UInt8)} {off : Nat}

theorem Agrees.take_drop (h : Agrees t known) (siz off : Nat) :
    Agrees ((t.drop off).take siz) ((known.drop off).take siz) :=
  List.forall₂_take siz (List.forall₂_drop off h)

theorem agrees_map_some (t : List UInt8) : Agrees t (t.map some) := by
  induction t with
  | nil => exact .nil
  | cons b t ih => exact .cons (fun a ha => (some.inj ha).symm) ih

theorem agrees_replicate_none {gap : List UInt8} {j : Nat} (hj : gap.length = j) :
    Agrees gap (List.replicate j none) := by
  induction gap generalizing j with
  | nil =>
    subst hj
    exact .nil
  | cons b gap ih =>
    subst hj
    exact .cons nofun (ih rfl)

theorem Agrees.written {gap src : List UInt8} (h : Agrees t known) (hgap : gap.length = off - t.length) :
    Agrees (splice (t ++ gap) off src) (written known src off) := by
  have hlen : t.length = known.length := h.length_eq
  have hfront : Agrees (t ++ gap) (known ++ List.replicate (off - known.length) none) :=
    rel_append h (agrees_replicate_none (hgap.trans (by rw [hlen])))
  rw [Fat.written, splice, splice, length_map]
  exact rel_append (rel_append (List.forall₂_take off hfront) (agrees_map_some src))
    (List.forall₂_drop _ hfront)

theorem Agrees.answer (h : Agrees t known) (siz off : Nat) :
    Reply.Agrees ⟨toInt ((t.drop off).take siz).length, (t.drop off).take siz⟩ (answer known siz off) := by
  have hrd := h.take_drop siz off
  exact ⟨by rw [Fat.answer, hrd.length_eq], hrd⟩

end Spec

/-- The files of the volume have the bytes that are known. -/
def Follows (g : Geo) (v : Vol) (a : Texts) : Prop :=
  (∃ ch text, Holds g v ch text ∧ ∀ f, Agrees (text f) (a.text f)) ∧ List.Forall₂ Reply.Agrees v.replies a.replies

/-- One operation does to the texts what it says. -/
theorem Follows.step {a : Texts} {o : Op} (h : Follows g v a) (hc : Careful g v o ∧ o.transfers = true) :
    ∃ v', step g v o = some v' ∧ Follows g v' (spec a o) := by
  obtain ⟨⟨ch, text, hh, hag⟩, hrep⟩ := h
  obtain ⟨hc, ht⟩ := hc
  cases o with
  | read f siz off =>
    obtain ⟨v', hs, h', -, hr⟩ := hh.read hc
    refine ⟨v', hs, ⟨ch, text, h', hag⟩, ?_⟩
    rw [hr]
    exact rel_append hrep (.cons ((hag f).answer siz off) .nil)
  | write f src off k =>
    obtain ⟨v', ch', gap, hs, hgap, h', hr, -⟩ := hh.write hc
    refine ⟨v', hs, ⟨ch', _, h', fun e => ?_⟩, ?_⟩
    · by_cases he : e = f
      · subst he
        simp only [spec, update_self]
        exact (hag e).written hgap
      · simp only [spec, update_of_ne he]
        exact hag e
    · rw [hr]
      exact rel_append hrep (.cons ⟨rfl, .nil⟩ .nil)
  | create => cases ht
  | truncate => cases ht
  | remove => cases ht

/-- **Every run of careful reads and writes shows the bytes that were written last**: the replies, and every later read
of every file, agree with what is known of the bytes. -/
theorem bytes_kept (g : Geo) (v : Vol) (ch : Nat → List Nat) (text : Nat → List UInt8) (h : Holds g v ch text)
    (a : Texts) (ha : ∀ f, Agrees (text f) (a.text f)) (hr : List.Forall₂ Reply.Agrees v.replies a.replies)
    (os : List Op) (hos : Meets (step g) (fun v o => Careful g v o ∧ o.transfers = true) v os) :
    ∃ v', run (step g) v os = some v' ∧ List.Forall₂ Reply.Agrees v'.replies (os.foldl spec a).replies ∧
      ∀ f n siz off, v'.node f = some n → off + siz < 2 ^ 64 →
        Reply.Agrees (byteRd g v'.disk n siz off).2 (answer ((os.foldl spec a).text f) siz off) := by
  have hf : Follows g v a := ⟨⟨ch, text, h, ha⟩, hr⟩
  obtain ⟨v', hrun, ⟨ch', text', h', hag⟩, hrep⟩ := run_meets_sim (fun _ _ _ => Follows.step) hf hos
  refine ⟨v', hrun, hrep, fun f n siz off hf hlt => ?_⟩
  obtain ⟨c', hrd, -⟩ := h'.byteRd hf hlt
  rw [hrd]
  exact (hag f).answer siz off

/-- `fresh` with two empty files. -/
def files : Vol := ⟨fresh.disk, update (update fresh.node 1 (some ⟨0, 0, 0, cacheInit 0⟩)) 2
  (some ⟨0, 0, 0, cacheInit 0⟩), []⟩

theorem holds_files : Holds tiny files freshCh fun _ => [] := by
  have hempty : NodeOk tiny ⟨0, 0, 0, cacheInit 0⟩ [] [] := ⟨rfl, rfl, Nat.zero_le _, by decide, fun h => absurd rfl h⟩
  have hch : ∀ f ≠ 0, update freshCh f [] = freshCh := fun f hf => update_eq_self_iff.2 (if_neg hf).symm
  have htext : ∀ f : Nat, update (fun _ => ([] : List UInt8)) f [] = fun _ => [] := fun f => update_eq_self_iff.2 rfl
  have h1 := holds_fresh.put [] (f := 1) (l := []) (t := [])
    (by rw [hch 1 (by decide), htext]; exact holds_fresh.kept) hempty
  rw [hch 1 (by decide), htext] at h1
  have h2 := h1.put [] (f := 2) (l := []) (t := []) (by rw [hch 2 (by decide), htext]; exact h1.kept) hempty
  rwa [hch 2 (by decide), htext] at h2

/-- Two files are written in turn, over the end of a cluster and behind the end of the file. -/
def turns : List Op :=
  [.write 1 [1, 2, 3] 510 0, .write 2 [7] 0 0, .write 1 [4, 5] 512 0, .read 1 5 509, .read 2 9 0,
  .write 2 [8] 2 0, .read 2 9 0]

theorem bytes_kept_turns : ∃ v, run (step tiny) files turns = some v ∧ List.Forall₂ Reply.Agrees v.replies
    [(3, []), (1, []), (2, []), (5, [none, some 1, some 2, some 4, some 5]), (1, [some 7]), (1, []),
      (3, [some 7, none, some 8])] := by
  obtain ⟨v, hr, hrep, -⟩ := bytes_kept tiny files freshCh (fun _ => []) holds_files ⟨fun _ => [], []⟩
    (fun _ => .nil) .nil turns (by decide +kernel)
  refine ⟨v, hr, ?_⟩
  have hspec : (turns.foldl spec ⟨fun _ => [], []⟩).replies = [(3, []), (1, []), (2, []),
      (5, [none, some 1, some 2, some 4, some 5]), (1, [some 7]), (1, []), (3, [some 7, none, some 8])] := by
    decide +kernel
  rwa [hspec] at hrep

/-- A write of no bytes behind three full clusters: the end mark is remembered as the cluster at 1536, the next write
there goes to no cluster of the file, and a read from 1535 on does not return it. -/
theorem end_remembered : (run (step tiny) files [.write 1 (List.replicate 1536 1) 0 0, .write 1 [] 1536 0,
    .write 1 [7] 1536 0, .read 1 2 1535]).map Vol.replies = some [⟨1536, []⟩, ⟨0, []⟩, ⟨1, []⟩, ⟨2, [1, 0]⟩] := by
  decide +kernel

end TextOS.Fat
