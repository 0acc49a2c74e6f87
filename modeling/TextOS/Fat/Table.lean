import TextOS.Fat.Defs
import TextOS.Lib.Linked
import TextOS.Lib.Owned

/-!
# Cluster chains: `kernel/fs/phy/fat32.c`

`Layout g disk ch`: the table holds a chain `ch f` for each file `f`, no cluster is in two of them, and their entries
are in use.

- table entries and data sectors do not touch each other (`getNext_setNext`, `getNext_update_data`, `setNext_data`);
- **`alloc_clst` starts a chain** (`allocClst_spec`) and **`expand_to` makes one longer** (`Layout.expand`), if there
  are free clusters behind its end.
-/

namespace TextOS.Fat

open Lib List Function

variable {g : Geo} {disk disk' : Disk} {clst sec val : Nat}

/-! ## Entries and sectors -/

theorem Geo.clustersPos (g : Geo) : 0 < g.clusters := Nat.lt_of_lt_of_le Nat.two_pos g.clustersGe

theorem clst2fat_eq (h : clst < g.clusters) : clst2fat g clst = g.fatSec + clst / 128 := by
  have h1 := g.small
  have h2 := g.entries
  have h3 := g.apart
  have h4 := g.space
  rw [clst2fat]
  omega

theorem clst2fat_lt (h : clst < g.clusters) : clst2fat g clst < g.dataSec := by
  have h1 := g.entries
  have h2 := g.apart
  rw [clst2fat_eq h]
  omega

/-- The cluster is one of the volume. -/
def InData (g : Geo) (clst : Nat) : Prop := 2 ≤ clst ∧ clst < g.clusters

theorem clSec_eq {off : Nat} (h : InData g clst) (hoff : off < g.secPerclst) :
    clSec g clst off = g.dataSec + (clst - 2) * g.secPerclst + off := by
  obtain ⟨h2, hlt⟩ := h
  have h1 := g.small
  have h₂ := g.space
  have h3 : (clst - 2 + 1) * g.secPerclst ≤ (g.clusters - 2) * g.secPerclst := Nat.mul_le_mul_right _ (by omega)
  rw [Nat.add_mul, Nat.one_mul] at h3
  have h4 : (clst + 2 ^ 32 - 2) % 2 ^ 32 = clst - 2 := by omega
  rw [clSec, clst2sec, h4]
  omega

theorem dataSec_le_clSec {off : Nat} (h : InData g clst) (hoff : off < g.secPerclst) :
    g.dataSec ≤ clSec g clst off := by
  rw [clSec_eq h hoff]
  omega

theorem clSec_inj {c c' k k' : Nat} (hc : InData g c) (hc' : InData g c') (hk : k < g.secPerclst)
    (hk' : k' < g.secPerclst) (h : clSec g c k = clSec g c' k') : c = c' ∧ k = k' := by
  rw [clSec_eq hc hk, clSec_eq hc' hk', Nat.add_assoc, Nat.add_assoc] at h
  have hsum := Nat.add_left_cancel h
  have hdiv : c - 2 = c' - 2 := by
    have := congrArg (· / g.secPerclst) hsum
    simpa [Nat.mul_comm _ g.secPerclst, Nat.mul_add_div g.perclstPos, Nat.div_eq_of_lt hk,
      Nat.div_eq_of_lt hk'] using this
  have h2 := hc.1
  have h2' := hc'.1
  rw [hdiv] at hsum
  omega

/-- **Entries of the table.** -/
theorem getNext_setNext {c c' : Nat} (hc : c < g.clusters) (hc' : c' < g.clusters) (hv : val < 2 ^ 32) :
    getNext g (setNext g disk c val) c' = if c' = c then val else getNext g disk c' := by
  rw [getNext, setNext]
  by_cases hs : clst2fat g c' = clst2fat g c
  · rw [hs, update_self]
    rw [clst2fat_eq hc, clst2fat_eq hc'] at hs
    by_cases he : c' = c
    · rw [he, if_pos rfl, entry_putEntry (by omega)]
    · rw [if_neg he, entry_putEntry_of_ne (by omega), getNext, clst2fat_eq hc', clst2fat_eq hc, hs]
  · rw [update_of_ne hs, if_neg (fun he => hs (by rw [he])), getNext]

theorem getNext_setNext_self (hc : clst < g.clusters) (hv : val < 2 ^ 32) :
    getNext g (setNext g disk clst val) clst = val := by
  rw [getNext_setNext hc hc hv, if_pos rfl]

theorem getNext_setNext_of_ne {c c' : Nat} (hc : c < g.clusters) (hc' : c' < g.clusters) (hv : val < 2 ^ 32)
    (hne : c' ≠ c) : getNext g (setNext g disk c val) c' = getNext g disk c' := by
  rw [getNext_setNext hc hc' hv, if_neg hne]

theorem getNext_update_data (blk : Bytes) (hs : g.dataSec ≤ sec) (hc : clst < g.clusters) :
    getNext g (update disk sec blk) clst = getNext g disk clst := by
  have hlt := clst2fat_lt hc
  rw [getNext, update_of_ne (by omega), getNext]

theorem setNext_data (hc : clst < g.clusters) (hs : g.dataSec ≤ sec) : setNext g disk clst val sec = disk sec := by
  have hlt := clst2fat_lt hc
  exact update_of_ne (by omega) _ _

/-- Clearing a cluster's sectors changes no other sector and no table entry. -/
theorem clear_spec (h : InData g clst) : (∀ c < g.clusters, getNext g (clear g disk clst) c = getNext g disk c) ∧
    ∀ sec, (∀ off < g.secPerclst, sec ≠ clSec g clst off) → clear g disk clst sec = disk sec := by
  have hgen : ∀ offs : List Nat, (∀ off ∈ offs, off < g.secPerclst) → ∀ d : Disk,
      (∀ c < g.clusters, getNext g (offs.foldl (fun d soff => update d (clSec g clst soff) fun _ => 0) d) c =
        getNext g d c) ∧
      ∀ sec, (∀ off ∈ offs, sec ≠ clSec g clst off) →
        offs.foldl (fun d soff => update d (clSec g clst soff) fun _ => 0) d sec = d sec := by
    intro offs hoffs
    induction offs with
    | nil => exact fun d => ⟨fun _ _ => rfl, fun _ _ => rfl⟩
    | cons off offs ih =>
      intro d
      obtain ⟨hn, hd⟩ := ih (fun o ho => hoffs o (mem_cons_of_mem _ ho)) (update d (clSec g clst off) fun _ => 0)
      have hle := dataSec_le_clSec h (hoffs off mem_cons_self)
      refine ⟨fun c hc => (hn c hc).trans (getNext_update_data _ hle hc), fun sec hs => ?_⟩
      rw [foldl_cons, hd sec fun o ho => hs o (mem_cons_of_mem _ ho)]
      exact update_of_ne (hs off mem_cons_self) _ _
  obtain ⟨hn, hd⟩ := hgen (List.range g.secPerclst) (fun off ho => mem_range.1 ho) disk
  exact ⟨hn, fun sec hs => hd sec fun off ho => hs off (mem_range.1 ho)⟩

/-- The sectors of all clusters but `new` are the same. -/
def SameData (g : Geo) (disk disk' : Disk) (new : List Nat) : Prop :=
  ∀ c, InData g c → c ∉ new → ∀ off < g.secPerclst, disk' (clSec g c off) = disk (clSec g c off)

theorem SameData.trans {disk'' : Disk} {new new' : List Nat} (h : SameData g disk disk' new)
    (h' : SameData g disk' disk'' new') : SameData g disk disk'' (new ++ new') := by
  intro c hc hn off hoff
  rw [mem_append, not_or] at hn
  rw [h' c hc hn.2 off hoff, h c hc hn.1 off hoff]

theorem sameData_setNext (hc : clst < g.clusters) : SameData g disk (setNext g disk clst val) [] :=
  fun _ hd _ _ hoff => setNext_data hc (dataSec_le_clSec hd hoff)

theorem sameData_clear (h : InData g clst) : SameData g disk (clear g disk clst) [clst] := by
  intro c hc hn off hoff
  refine (clear_spec h).2 _ fun off' hoff' he => hn ?_
  rw [(clSec_inj hc h hoff hoff' he).1]
  exact mem_singleton_self clst

/-! ## Free clusters -/

def IsFree (g : Geo) (disk : Disk) (clst : Nat) : Prop := InData g clst ∧ getNext g disk clst = 0

/-- The number of free clusters from `a` on. -/
def freeFrom (g : Geo) (disk : Disk) (a : Nat) : Nat :=
  ((Finset.Ico a g.clusters).filter fun c => getNext g disk c = 0).card

theorem freeFrom_succ {a : Nat} (h : a < g.clusters) :
    freeFrom g disk a = (if getNext g disk a = 0 then 1 else 0) + freeFrom g disk (a + 1) := by
  rw [freeFrom, freeFrom, ← Finset.insert_Ico_add_one_left_eq_Ico h, Finset.filter_insert]
  split
  next => rw [Finset.card_insert_of_notMem (by simp), Nat.add_comm]
  next => rw [Nat.zero_add]

theorem lt_of_freeFrom {a : Nat} (h : 0 < freeFrom g disk a) : a < g.clusters := by
  obtain ⟨c, hc⟩ := Finset.card_pos.1 h
  have := Finset.mem_Ico.1 (Finset.mem_filter.1 hc).1
  omega

theorem freeFrom_congr {a : Nat} (h : ∀ c, a ≤ c → c < g.clusters → getNext g disk' c = getNext g disk c) :
    freeFrom g disk' a = freeFrom g disk a := by
  unfold freeFrom
  congr 1
  refine Finset.filter_congr fun c hc => ?_
  rw [h c (Finset.mem_Ico.1 hc).1 (Finset.mem_Ico.1 hc).2]

theorem succ_mod {c : Nat} (h : c < g.clusters) : (c + 1) % 2 ^ 32 = c + 1 := by
  have := g.small
  omega

theorem clusters_le_rounds (g : Geo) (c : Nat) : g.clusters - c ≤ rounds := by
  have := g.small
  rw [rounds]
  omega

theorem lt_of_inData (h : InData g clst) : clst < 2 ^ 32 ∧ ¬isEoc clst := by
  have := g.small
  have := h.2
  exact ⟨by omega, fun he => by have := he.1; omega⟩

/-- The first free cluster from `curr` on is marked as a chain's end. -/
theorem allocLoop_spec {n curr : Nat} (hn : g.clusters - curr ≤ n) (h2 : 2 ≤ curr) (hf : 0 < freeFrom g disk curr) :
    ∃ c, allocLoop g disk n curr = some (c, setNext g disk c EOC) ∧ IsFree g disk c ∧
      freeFrom g disk curr = 1 + freeFrom g disk (c + 1) := by
  have hlt := lt_of_freeFrom hf
  induction n generalizing curr with
  | zero => omega
  | succ n ih =>
    rw [allocLoop]
    by_cases h0 : getNext g disk curr = 0
    · refine ⟨curr, if_pos h0, ⟨⟨h2, hlt⟩, h0⟩, ?_⟩
      rw [freeFrom_succ hlt, if_pos h0]
    have hnext : freeFrom g disk curr = freeFrom g disk (curr + 1) := by rw [freeFrom_succ hlt, if_neg h0, Nat.zero_add]
    rw [hnext] at hf ⊢
    rw [if_neg h0, succ_mod hlt]
    exact ih (by omega) (by omega) hf (lt_of_freeFrom hf)

/-! ## Longer chains -/

/-- The free clusters `new` were put behind the chain `l`. -/
structure Extends (g : Geo) (disk disk' : Disk) (l new : List Nat) : Prop where
  nodup : new.Nodup
  free : ∀ c ∈ new, IsFree g disk c
  linked : Linked (getNext g disk') isEoc (l ++ new)
  table : ∀ c < g.clusters, c ∉ l → c ∉ new → getNext g disk' c = getNext g disk c
  data : SameData g disk disk' new

theorem isEoc_EOC : isEoc EOC := by decide

theorem EOC_lt : EOC < 2 ^ 32 := by decide

section Loop

variable {front new : List Nat} {n curr fin cnt : Nat}

/-- The end of a chain in the second loop of `expand_to`: its entry is not yet an end mark. -/
structure Open (g : Geo) (disk : Disk) (front : List Nat) (fin curr : Nat) : Prop where
  linked : Linked (getNext g (setNext g disk fin EOC)) isEoc (front ++ [fin])
  nodup : (front ++ [fin]).Nodup
  data : ∀ c ∈ front ++ [fin], InData g c
  used : ∀ c ∈ front ++ [fin], c < curr ∨ getNext g disk c ≠ 0
  le : fin ≤ curr

theorem Open.fin_data (h : Open g disk front fin curr) : InData g fin := h.data fin (by simp)

/-- What the loop does with a free cluster. -/
def linkFree (g : Geo) (disk : Disk) (fin curr : Nat) : Disk := setNext g (clear g disk curr) fin curr

theorem getNext_linkFree (hfin : InData g fin) (hcurr : InData g curr) {c : Nat} (hc : c < g.clusters) :
    getNext g (linkFree g disk fin curr) c = if c = fin then curr else getNext g disk c := by
  rw [linkFree, getNext_setNext hfin.2 hc (lt_of_inData hcurr).1, (clear_spec hcurr).1 c hc]

theorem sameData_linkFree (hfin : InData g fin) (hcurr : InData g curr) :
    SameData g disk (linkFree g disk fin curr) [curr] := by
  have h : SameData g disk (linkFree g disk fin curr) ([curr] ++ []) :=
    (sameData_clear hcurr).trans (sameData_setNext hfin.2)
  rwa [append_nil] at h

/-- A free cluster is linked behind the end. -/
theorem Open.link (h : Open g disk front fin curr) (hcurr : IsFree g disk curr) :
    Open g (linkFree g disk fin curr) (front ++ [fin]) curr (curr + 1) := by
  have hnot : ∀ c ∈ front ++ [fin], c ≠ curr := fun c hc he => by
    rcases h.used c hc with hu | hu
    · omega
    · exact hu (he ▸ hcurr.2)
  have hfin := h.fin_data
  have hlt := hcurr.1.2
  refine ⟨h.linked.concat (fun c hc => ?_) ?_ ?_, ?_, fun c hc => ?_, fun c hc => ?_, Nat.le_succ curr⟩
  · have hcf : c ≠ fin := fun he => (nodup_append.1 h.nodup).2.2 c hc fin (by simp) he
    have hcl := (h.data c (mem_append_left _ hc)).2
    rw [getNext_setNext_of_ne hlt hcl EOC_lt (hnot c (mem_append_left _ hc)), getNext_linkFree hfin hcurr.1 hcl,
      if_neg hcf, getNext_setNext_of_ne hfin.2 hcl EOC_lt hcf]
  · rw [getNext_setNext_of_ne hlt hfin.2 EOC_lt (hnot fin (by simp)), getNext_linkFree hfin hcurr.1 hfin.2, if_pos rfl]
  · rw [getNext_setNext_self hlt EOC_lt]
    exact isEoc_EOC
  · rw [nodup_append]
    exact ⟨h.nodup, nodup_singleton curr, fun c hc d hd => by rw [mem_singleton.1 hd]; exact hnot c hc⟩
  · rcases mem_append.1 hc with hc | hc
    · exact h.data c hc
    · rw [mem_singleton.1 hc]
      exact hcurr.1
  rcases mem_append.1 hc with hc | hc
  · rw [getNext_linkFree hfin hcurr.1 (h.data c hc).2]
    by_cases he : c = fin
    · rw [if_pos he]
      have := hcurr.1.1
      omega
    · rw [if_neg he]
      exact (h.used c hc).imp_left fun hu => by omega
  · rw [mem_singleton.1 hc]
    omega

theorem Open.close (h : Open g disk front fin curr) :
    Extends g disk (setNext g disk fin EOC) (front ++ [fin]) [] := by
  refine ⟨nodup_nil, nofun, by rw [append_nil]; exact h.linked, fun c hc hl _ => ?_,
    sameData_setNext h.fin_data.2⟩
  exact getNext_setNext_of_ne h.fin_data.2 hc EOC_lt fun he => hl (by simp [he])

/-- A chain that grew behind one more cluster. -/
theorem Open.cons (h : Open g disk front fin curr) (hcurr : IsFree g disk curr)
    (he : Extends g (linkFree g disk fin curr) disk' (front ++ [fin] ++ [curr]) new) (hnew : ∀ c ∈ new, curr < c) :
    Extends g disk disk' (front ++ [fin]) (curr :: new) := by
  have hfin := h.fin_data
  refine ⟨nodup_cons.2 ⟨fun hm => lt_irrefl _ (hnew curr hm), he.nodup⟩, fun c hc => ?_, ?_, fun c hc hl hn => ?_, ?_⟩
  · rcases mem_cons.1 hc with rfl | hc
    · exact hcurr
    obtain ⟨hd, h0⟩ := he.free c hc
    rw [getNext_linkFree hfin hcurr.1 hd.2] at h0
    split at h0
    next => have := hcurr.1.1; omega
    next => exact ⟨hd, h0⟩
  · have := he.linked
    rwa [append_assoc _ [curr], singleton_append] at this
  · rw [mem_cons, not_or] at hn
    rw [he.table c hc (fun hm => ?_) hn.2, getNext_linkFree hfin hcurr.1 hc, if_neg fun h => hl (by simp [h])]
    rcases mem_append.1 hm with hm | hm
    · exact hl hm
    · exact hn.1 (mem_singleton.1 hm)
  · exact (sameData_linkFree hfin hcurr.1).trans he.data

/-- The loop links `cnt` free clusters, in ascending order. -/
theorem expandLoop_spec (ho : Open g disk front fin curr) (h2 : 2 ≤ curr) (hn : g.clusters - curr ≤ n) (hcnt : 0 < cnt)
    (hfree : cnt ≤ freeFrom g disk curr) :
    ∃ disk' new, expandLoop g n disk curr fin cnt = some disk' ∧ Extends g disk disk' (front ++ [fin]) new ∧
      new.length = cnt ∧ ∀ c ∈ new, curr ≤ c := by
  induction n generalizing disk front fin curr cnt with
  | zero =>
    have := lt_of_freeFrom (hcnt.trans_le hfree)
    omega
  | succ n ih =>
    have hlt := lt_of_freeFrom (hcnt.trans_le hfree)
    rw [freeFrom_succ hlt] at hfree
    rw [expandLoop]
    by_cases h0 : getNext g disk curr = 0
    · have hcurr : IsFree g disk curr := ⟨⟨h2, hlt⟩, h0⟩
      have hlink := ho.link hcurr
      rw [if_pos h0] at hfree
      simp only [if_pos h0]
      by_cases h1 : cnt - 1 = 0
      · refine ⟨_, [curr], if_pos h1, ho.cons hcurr hlink.close nofun, by simp; omega, by simp⟩
      have hsame : freeFrom g (linkFree g disk fin curr) (curr + 1) = freeFrom g disk (curr + 1) := by
        refine freeFrom_congr fun c hc hlc => ?_
        have := ho.le
        rw [getNext_linkFree ho.fin_data hcurr.1 hlc, if_neg (by omega)]
      obtain ⟨disk', new, hloop, hext, hlen, hge⟩ := ih hlink (by omega) (by omega) (by omega : 0 < cnt - 1)
        (by rw [hsame]; omega)
      refine ⟨disk', curr :: new, ?_, ho.cons hcurr hext hge, by simp; omega, fun c hc => ?_⟩
      · rw [if_neg h1, succ_mod hlt]
        exact hloop
      rcases mem_cons.1 hc with rfl | hc
      · exact le_rfl
      · have := hge c hc
        omega
    · rw [if_neg h0, Nat.zero_add] at hfree
      simp only [if_neg h0]
      have hopen : Open g disk front fin (curr + 1) :=
        ⟨ho.linked, ho.nodup, ho.data, fun c hc => (ho.used c hc).imp_left fun hu => by omega, by have := ho.le; omega⟩
      obtain ⟨disk', new, hloop, hext, hlen, hge⟩ := ih hopen (by omega) (by omega) hcnt hfree
      refine ⟨disk', new, ?_, hext, hlen, fun c hc => by have := hge c hc; omega⟩
      rw [if_neg (by omega), succ_mod hlt]
      exact hloop

end Loop

section Chain

variable {l new new' : List Nat} {start cnt n : Nat} {append : Bool}

theorem ne_zero_of_linked (hl : Linked (getNext g disk) isEoc l) (hd : ∀ c ∈ l, InData g c) (hc : clst ∈ l) :
    getNext g disk clst ≠ 0 := by
  obtain ⟨i, hi⟩ := getElem?_of_mem hc
  rcases hl.follow hi with h | ⟨-, h⟩
  · have := (hd _ (mem_of_getElem? h)).1
    omega
  · have := h.1
    omega

theorem length_le_rounds (hd : ∀ c ∈ l, InData g c) (hnd : l.Nodup) : l.length ≤ rounds := by
  have hsub : l ⊆ List.range g.clusters := fun c hc => mem_range.2 (hd c hc).2
  have hlen := (hnd.subperm hsub).length_le
  rw [length_range] at hlen
  exact hlen.trans (clusters_le_rounds g 0)

theorem Extends.refl (hl : Linked (getNext g disk) isEoc l) : Extends g disk disk l [] :=
  ⟨nodup_nil, nofun, by rwa [append_nil], fun _ _ _ _ => rfl, fun _ _ _ _ _ => rfl⟩

theorem Extends.inData (h : Extends g disk disk' l new) (hd : ∀ c ∈ l, InData g c) : ∀ c ∈ l ++ new, InData g c :=
  fun c hc => (mem_append.1 hc).elim (hd c) fun hn => (h.free c hn).1

/-- Growing twice is growing. -/
theorem Extends.trans {disk'' : Disk} (h : Extends g disk disk' l new) (h' : Extends g disk' disk'' (l ++ new) new')
    (hd : ∀ c ∈ l, InData g c) : Extends g disk disk'' l (new ++ new') := by
  have hused : ∀ c ∈ new', c ∉ l ++ new := fun c hc hm => ne_zero_of_linked h.linked (h.inData hd) hm (h'.free c hc).2
  refine ⟨?_, fun c hc => ?_, ?_, fun c hc hl hn => ?_, h.data.trans h'.data⟩
  · rw [nodup_append]
    exact ⟨h.nodup, h'.nodup, fun c hc d hd he => hused d hd (mem_append_right _ (he ▸ hc))⟩
  · rcases mem_append.1 hc with hc | hc
    · exact h.free c hc
    have hnot := hused c hc
    rw [mem_append, not_or] at hnot
    obtain ⟨hdata, h0⟩ := h'.free c hc
    exact ⟨hdata, by rwa [h.table c hdata.2 hnot.1 hnot.2] at h0⟩
  · rw [← append_assoc]
    exact h'.linked
  · rw [mem_append, not_or] at hn
    rw [h'.table c hc (by simp [hl, hn.1]) hn.2, h.table c hc hl hn.1]

/-- The walk reaches the chain's end if clusters are still wanted. -/
theorem expandWalk_spec (append : Bool) {i : Nat} (hl : Linked (getNext g disk) isEoc l) (hd : ∀ c ∈ l, InData g c)
    (hi : l[i]? = some clst) (hn : l.length - i ≤ n) (hcnt : 0 < cnt) :
    ∃ r, expandWalk g disk append n clst cnt = some r ∧ (append = false → cnt < l.length - i + r.2) ∧
      (0 < r.2 → l.getLast? = some r.1) := by
  have hlt := (List.getElem?_eq_some_iff.1 hi).1
  induction n generalizing i clst cnt with
  | zero => omega
  | succ n ih =>
    rw [expandWalk]
    rcases hl.follow hi with hnext | ⟨hend, heoc⟩
    · have hlt' := (List.getElem?_eq_some_iff.1 hnext).1
      rw [if_neg (lt_of_inData (hd _ (mem_of_getElem? hnext))).2]
      by_cases ha : append = true
      · rw [if_pos ha]
        obtain ⟨r, hr, -, hlast⟩ := ih hnext (by omega) hcnt hlt'
        exact ⟨r, hr, fun hf => absurd (ha.symm.trans hf) (by decide), hlast⟩
      rw [if_neg ha]
      by_cases h1 : cnt - 1 = 0
      · rw [if_pos h1]
        exact ⟨_, rfl, fun _ => by dsimp only; omega, fun h => absurd h (lt_irrefl 0)⟩
      rw [if_neg h1]
      obtain ⟨r, hr, hle, hlast⟩ := ih hnext (by omega) (by omega : 0 < cnt - 1) hlt'
      exact ⟨r, hr, fun hf => by have := hle hf; omega, hlast⟩
    · rw [if_pos heoc]
      refine ⟨_, rfl, fun _ => by dsimp only; omega, fun _ => ?_⟩
      rw [getLast?_eq_getElem?, hend, Nat.add_sub_cancel, hi]

theorem dataSec_le_clst2sec (h : InData g clst) : g.dataSec ≤ clst2sec g clst := by
  have hle := dataSec_le_clSec h g.perclstPos
  rwa [clSec, Nat.add_zero, clst2sec, Nat.mod_mod, ← clst2sec] at hle

theorem open_of_linked {front : List Nat} {fin : Nat} (hl : Linked (getNext g disk) isEoc (front ++ [fin]))
    (hd : ∀ c ∈ front ++ [fin], InData g c) (hnd : (front ++ [fin]).Nodup) : Open g disk front fin fin := by
  have hfin := hd fin (by simp)
  refine ⟨hl.mark (fun c hc => ?_) ?_, hnd, hd, fun c hc => .inr (ne_zero_of_linked hl hd hc), le_rfl⟩
  · refine getNext_setNext_of_ne hfin.2 (hd c (mem_append_left _ hc)).2 EOC_lt fun he => ?_
    exact (nodup_append.1 hnd).2.2 c hc fin (by simp) he
  · rw [getNext_setNext_self hfin.2 EOC_lt]
    exact isEoc_EOC

/-- **`expand_to` behind the first cluster.** -/
theorem expandFrom_spec (hl : Linked (getNext g disk) isEoc l) (hd : ∀ c ∈ l, InData g c) (hnd : l.Nodup)
    (hstart : l[0]? = some start) (hcnt : 0 < cnt)
    (hroom : ∀ r ∈ expandWalk g disk append rounds start cnt, r.2 ≤ freeFrom g disk (r.1 + 1)) :
    ∃ disk' new, expandFrom g disk start cnt append = some disk' ∧ Extends g disk disk' l new ∧
      (append = false → cnt < (l ++ new).length) := by
  have hround := length_le_rounds hd hnd
  obtain ⟨r, hwalk, hle, hlast⟩ := expandWalk_spec append hl hd hstart (by omega : l.length - 0 ≤ rounds) hcnt
  have hsec := dataSec_le_clst2sec (hd start (mem_of_getElem? hstart))
  rw [expandFrom, if_neg (by omega), hwalk, Option.bind_some]
  by_cases h0 : r.2 = 0
  · refine ⟨disk, [], if_pos h0, .refl hl, fun hf => ?_⟩
    have := hle hf
    rw [append_nil]
    omega
  obtain ⟨front, rfl⟩ : ∃ front, l = front ++ [r.1] := getLast?_eq_some_iff.1 (hlast (by omega))
  have ho := open_of_linked hl hd hnd
  have hfin := ho.fin_data
  have hfree : freeFrom g disk r.1 = freeFrom g disk (r.1 + 1) := by
    rw [freeFrom_succ hfin.2, if_neg (ne_zero_of_linked hl hd (by simp)), Nat.zero_add]
  obtain ⟨disk', new, hloop, hext, hnew, -⟩ := expandLoop_spec ho hfin.1 (clusters_le_rounds g r.1)
    (Nat.pos_of_ne_zero h0) (hfree ▸ hroom r hwalk)
  refine ⟨disk', new, by rw [if_neg h0, hloop], hext, fun hf => ?_⟩
  have hsum : (front ++ [r.1] ++ new).length = (front ++ [r.1]).length + new.length := length_append
  have := hle hf
  omega

end Chain

/-! ## The chains of a volume -/

/-- The table holds the chains `ch`; the entry of cluster 0 is an end mark. -/
structure Layout (g : Geo) (disk : Disk) (ch : Nat → List Nat) : Prop where
  linked : ∀ f, Linked (getNext g disk) isEoc (ch f)
  data : ∀ f, ∀ c ∈ ch f, InData g c
  owned : Owned ch (IsFree g disk)
  media : isEoc (getNext g disk 0)

/-- The clusters in use are those of the chains. -/
def Exact (g : Geo) (disk : Disk) (ch : Nat → List Nat) : Prop :=
  ∀ c, InData g c → getNext g disk c ≠ 0 → ∃ f, c ∈ ch f

/-- There are free clusters where `expand_to` looks for them. -/
def Room (g : Geo) (disk : Disk) (clst cnt : Nat) (append : Bool) : Prop :=
  if clst = 0 then cnt ≤ freeFrom g disk 2
  else ∀ r ∈ expandWalk g disk append rounds clst cnt, r.2 ≤ freeFrom g disk (r.1 + 1)
deriving Decidable

variable {ch : Nat → List Nat} {f cnt : Nat} {new : List Nat} {append : Bool}

/-- One chain grows and the chains stay apart. -/
theorem Layout.extends (h : Layout g disk ch) (he : Extends g disk disk' (ch f) new) :
    Layout g disk' (update ch f (ch f ++ new)) := by
  have hdata := he.inData (h.data f)
  have hnot : ∀ e ≠ f, ∀ c ∈ ch e, c ∉ ch f ∧ c ∉ new := fun e hef c hc =>
    ⟨fun hf => h.owned.apart e f hef hc hf, h.owned.fresh he.free e hc⟩
  refine ⟨fun e => ?_, fun e => ?_, h.owned.grow he.nodup he.free (List.Perm.refl _) fun c hc => ?_, ?_⟩
  · by_cases hef : e = f
    · subst hef
      rw [update_self]
      exact he.linked
    · rw [update_of_ne hef]
      exact (h.linked e).congr fun c hc => he.table c (h.data e c hc).2 (hnot e hef c hc).1 (hnot e hef c hc).2
  · by_cases hef : e = f
    · subst hef
      rw [update_self]
      exact hdata
    · rw [update_of_ne hef]
      exact h.data e
  · have hout : c ∉ ch f ++ new := fun hm => ne_zero_of_linked he.linked hdata hm hc.2
    rw [mem_append, not_or] at hout
    exact ⟨⟨hc.1, by rw [← he.table c hc.1.2 hout.1 hout.2]; exact hc.2⟩, hout.2⟩
  have h0 : ∀ l : List Nat, (∀ c ∈ l, InData g c) → 0 ∉ l := fun l hl hm => absurd (hl 0 hm).1 (by decide)
  rw [he.table 0 g.clustersPos (h0 _ (h.data f)) (h0 _ fun c hc => (he.free c hc).1)]
  exact h.media

/-- A grown chain accounts for the clusters it took. -/
theorem Exact.extends (h : Exact g disk ch) (he : Extends g disk disk' (ch f) new) :
    Exact g disk' (update ch f (ch f ++ new)) := by
  intro c hc hne
  by_cases hm : c ∈ ch f ++ new
  · exact ⟨f, by rwa [update_self]⟩
  have hout := hm
  rw [mem_append, not_or] at hout
  rw [he.table c hc.2 hout.1 hout.2] at hne
  obtain ⟨e, hce⟩ := h c hc hne
  refine ⟨e, ?_⟩
  rw [update_of_ne]
  · exact hce
  · rintro rfl
    exact hout.1 hce

/-- **`alloc_clst` starts a chain.** -/
theorem allocClst_spec (hfree : 0 < freeFrom g disk 2) : ∃ c, allocClst g disk = some (c, setNext g disk c EOC) ∧
    Extends g disk (setNext g disk c EOC) [] [c] ∧ freeFrom g disk 2 = 1 +
    freeFrom g (setNext g disk c EOC) (c + 1) := by
  obtain ⟨c, hloop, hc, hcount⟩ := allocLoop_spec (clusters_le_rounds g 2) le_rfl hfree
  refine ⟨c, hloop, ⟨nodup_singleton c, fun d hd => ?_, linked_singleton ?_, fun d hd _ hne => ?_, ?_⟩, ?_⟩
  · rw [mem_singleton.1 hd]
    exact hc
  · rw [getNext_setNext_self hc.1.2 EOC_lt]
    exact isEoc_EOC
  · exact getNext_setNext_of_ne hc.1.2 hd EOC_lt (by simpa using hne)
  · exact fun d hd _ off hoff => sameData_setNext hc.1.2 d hd (by simp) off hoff
  rw [hcount]
  congr 1
  exact (freeFrom_congr fun d hd hlt => getNext_setNext_of_ne hc.1.2 hlt EOC_lt (by omega)).symm

/-- **`expand_to` makes a chain longer.** -/
theorem Layout.expand (h : Layout g disk ch) (hcnt : 0 < cnt) (hroom : Room g disk ((ch f).headD 0) cnt append) :
    ∃ disk' new, expandTo g disk ((ch f).headD 0) cnt append = some (disk', (ch f ++ new).headD 0) ∧
      Extends g disk disk' (ch f) new ∧ (append = false → cnt ≤ (ch f ++ new).length) := by
  rw [Room] at hroom
  rw [expandTo]
  cases hl : ch f with
  | nil =>
    rw [hl, headD_nil, if_pos rfl] at hroom
    rw [headD_nil, if_pos rfl]
    obtain ⟨c, halloc, hext, hcount⟩ := allocClst_spec (hcnt.trans_le hroom)
    rw [halloc, Option.bind_some]
    by_cases h1 : cnt - 1 = 0
    · exact ⟨_, [c], if_pos h1, hext, fun _ => by simp; omega⟩
    have hc := (hext.free c (by simp)).1
    have heoc : isEoc (getNext g (setNext g disk c EOC) c) := hext.linked.last c rfl
    have hwalk : ∀ r ∈ expandWalk g (setNext g disk c EOC) append rounds c (cnt - 1),
        r.2 ≤ freeFrom g (setNext g disk c EOC) (r.1 + 1) := by
      intro r hr
      obtain ⟨n, hn⟩ : ∃ n, rounds = n + 1 := ⟨2 ^ 32 - 1, rfl⟩
      rw [hn, expandWalk, if_pos heoc, Option.mem_some_iff] at hr
      rw [← hr]
      dsimp only
      omega
    obtain ⟨disk', new, hfrom, hext', hle⟩ := expandFrom_spec hext.linked (hext.inData nofun) (nodup_singleton c) rfl
      (by omega : 0 < cnt - 1) hwalk
    refine ⟨disk', c :: new, ?_, hext.trans hext' nofun, fun hf => ?_⟩
    · rw [if_neg h1, hfrom]
      rfl
    have := hle hf
    simp only [nil_append, length_append, length_cons, length_nil] at this ⊢
    omega
  | cons c l =>
    have hc0 : c ≠ 0 := by
      have := (h.data f c (by rw [hl]; exact mem_cons_self)).1
      omega
    rw [hl, headD_cons, if_neg hc0] at hroom
    rw [headD_cons, if_neg hc0]
    have hlink := h.linked f
    have hdata := h.data f
    have hnd := h.owned.nodup f
    rw [hl] at hlink hdata hnd
    obtain ⟨disk', new, hfrom, hext, hle⟩ := expandFrom_spec hlink hdata hnd rfl hcnt hroom
    exact ⟨disk', new, by rw [hfrom]; rfl, hext, fun hf => (hle hf).le⟩

/-! ## Releasing a chain -/

/-- The clusters `l` are marked as ends of a chain. -/
structure Marked (g : Geo) (disk disk' : Disk) (l : List Nat) : Prop where
  table : ∀ c < g.clusters, getNext g disk' c = if c ∈ l then EOC else getNext g disk c
  data : SameData g disk disk' []

theorem marked_setNext (hc : clst < g.clusters) : Marked g disk (setNext g disk clst EOC) [clst] :=
  ⟨fun c hlt => by simp only [getNext_setNext hc hlt EOC_lt, mem_singleton], sameData_setNext hc⟩

theorem dataRelse_skip (n : Nat) (disk : Disk) (curr skip : Nat) (cut : Bool) :
    dataRelse g (n + skip) disk curr skip cut = dataRelse g n disk curr 0 cut := by
  induction skip with
  | zero => rfl
  | succ skip ih => rw [← Nat.add_assoc, dataRelse, ih]

/-- `data_relse` with `cut = false` marks all clusters of the chain, and frees none. -/
theorem dataRelse_marked {l : List Nat} {n : Nat} (hl : Linked (getNext g disk) isEoc (clst :: l))
    (hd : ∀ c ∈ clst :: l, InData g c) (hnd : (clst :: l).Nodup) (hn : l.length < n) :
    ∃ disk', dataRelse g n disk clst 0 false = some disk' ∧ Marked g disk disk' (clst :: l) := by
  induction l generalizing disk clst n with
  | nil =>
    obtain ⟨n, rfl⟩ : ∃ n', n = n' + 1 := Nat.exists_eq_succ_of_ne_zero (by omega)
    exact ⟨_, if_pos (hl.last clst rfl), marked_setNext (hd clst (by simp)).2⟩
  | cons c l ih =>
    obtain ⟨n, rfl⟩ : ∃ n', n = n' + 1 := Nat.exists_eq_succ_of_ne_zero (by omega)
    obtain ⟨hnext, hrest⟩ := linked_cons_cons.1 hl
    obtain ⟨hnot, hnd'⟩ := nodup_cons.1 hnd
    have hclst := hd clst mem_cons_self
    have hdata : ∀ x ∈ c :: l, InData g x := fun x hx => hd x (mem_cons_of_mem _ hx)
    have hsame : ∀ x ∈ c :: l, getNext g (setNext g disk clst EOC) x = getNext g disk x := fun x hx =>
      getNext_setNext_of_ne hclst.2 (hdata x hx).2 EOC_lt fun he => hnot (he ▸ hx)
    obtain ⟨disk', hrel, hmark⟩ := ih (n := n) (hrest.congr hsame) hdata hnd' (by rw [length_cons] at hn; omega)
    refine ⟨disk', ?_, fun x hx => ?_, ?_⟩
    · rw [dataRelse]
      simp only [hnext, if_neg (lt_of_inData (hdata c mem_cons_self)).2]
      exact hrel
    · rw [hmark.table x hx, getNext_setNext hclst.2 hx EOC_lt]
      by_cases hm : x ∈ c :: l
      · rw [if_pos hm, if_pos (mem_cons_of_mem _ hm)]
      · rw [if_neg hm]
        exact if_congr (by rw [mem_cons (l := c :: l), or_iff_left hm]) rfl rfl
    · exact (sameData_setNext hclst.2).trans hmark.data

/-- **`fat32_remove` takes a chain away and leaves its clusters in use.** -/
theorem Layout.release (h : Layout g disk ch) (f : Nat) :
    ∃ disk', dataRelse g rounds disk ((ch f).headD 0) 0 false = some disk' ∧ Layout g disk' (update ch f []) ∧
      SameData g disk disk' [] ∧ (ch f = [] → Exact g disk ch → Exact g disk' (update ch f [])) := by
  obtain ⟨disk', l, hrel, hmark, hl⟩ : ∃ disk' l, dataRelse g rounds disk ((ch f).headD 0) 0 false = some disk' ∧
      Marked g disk disk' l ∧ (l = ch f ∨ (l = [0] ∧ ch f = [])) := by
    cases hc : ch f with
    | nil =>
      obtain ⟨n, hn⟩ : ∃ n, rounds = n + 1 := ⟨2 ^ 32 - 1, rfl⟩
      exact ⟨_, [0], by rw [hn]; exact if_pos h.media, marked_setNext g.clustersPos, .inr ⟨rfl, rfl⟩⟩
    | cons c l =>
      have hlink := h.linked f
      have hdata := h.data f
      have hnd := h.owned.nodup f
      rw [hc] at hlink hdata hnd
      obtain ⟨disk', hrel, hmark⟩ := dataRelse_marked hlink hdata hnd (length_le_rounds hdata hnd)
      exact ⟨disk', c :: l, hrel, hmark, .inl rfl⟩
  have hzero : ∀ c, getNext g disk' c = 0 → c < g.clusters → getNext g disk c = 0 := fun c h0 hlt => by
    rw [hmark.table c hlt] at h0
    split at h0
    next => cases h0
    next => exact h0
  have hsame : ∀ e ≠ f, ∀ c ∈ ch e, getNext g disk' c = getNext g disk c := fun e he c hc => by
    rw [hmark.table c (h.data e c hc).2, if_neg fun hm => ?_]
    rcases hl with rfl | ⟨rfl, -⟩
    · exact h.owned.apart e f he hc hm
    have := (h.data e c hc).1
    have := mem_singleton.1 hm
    omega
  refine ⟨disk', hrel, ⟨fun e => ?_, fun e => ?_, ?_, ?_⟩, hmark.data, fun hnil hex c hc hne => ?_⟩
  · by_cases he : e = f
    · subst he
      rw [update_self]
      exact linked_nil _ _
    · rw [update_of_ne he]
      exact (h.linked e).congr (hsame e he)
  · by_cases he : e = f
    · subst he
      rw [update_self]
      nofun
    · rw [update_of_ne he]
      exact h.data e
  · exact (h.owned.drop f).mono fun c hc => ⟨hc.1, hzero c hc.2 hc.1.2⟩
  · rw [hmark.table 0 g.clustersPos]
    split
    next => exact isEoc_EOC
    next => exact h.media
  have hnot : c ∉ l := fun hm => by
    rcases hl with rfl | ⟨rfl, -⟩
    · rw [hnil] at hm
      cases hm
    have := hc.1
    have := mem_singleton.1 hm
    omega
  rw [hmark.table c hc.2, if_neg hnot] at hne
  obtain ⟨e, he⟩ := hex c hc hne
  exact ⟨e, by rwa [← hnil, update_eq_self]⟩

/-- A chain of one cluster is ended. -/
theorem Layout.mark (h : Layout g disk ch) (hf : ch f = [clst]) (hm : Marked g disk disk' [clst]) :
    Layout g disk' ch ∧ (Exact g disk ch → Exact g disk' ch) := by
  have hc := h.data f clst (by simp [hf])
  have hsame : ∀ c < g.clusters, c ≠ clst → getNext g disk' c = getNext g disk c := fun c hlt hne => by
    rw [hm.table c hlt, if_neg (by simpa using hne)]
  refine ⟨⟨fun e => ?_, h.data, h.owned.mono fun c hc' => ?_, ?_⟩, fun hex c hc' hne => ?_⟩
  · by_cases he : e = f
    · subst he
      rw [hf]
      refine linked_singleton ?_
      rw [hm.table clst hc.2, if_pos (by simp)]
      exact isEoc_EOC
    · refine (h.linked e).congr fun c hce => hsame c (h.data e c hce).2 fun heq => ?_
      exact h.owned.apart e f he hce (by simp [hf, heq])
  · refine ⟨hc'.1, ?_⟩
    have h0 := hc'.2
    rw [hm.table c hc'.1.2] at h0
    split at h0
    next => cases h0
    next => exact h0
  · have := hc.1
    rw [hsame 0 g.clustersPos (by omega)]
    exact h.media
  by_cases heq : c = clst
  · exact ⟨f, by simp [hf, heq]⟩
  · rw [hsame c hc'.2 heq] at hne
    exact hex c hc' hne

end TextOS.Fat
