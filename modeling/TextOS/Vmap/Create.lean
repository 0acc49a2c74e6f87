import TextOS.Vmap.Walk

/-!
# Creating tables on the way

`Ready s cr3` says that the page table is good and that the frames `pmm_allocpages` will return are no tables of it.
-/

namespace TextOS.Vmap

open Lib List Option

variable {m m' : Mem} {cr3 vrt va lv f i j e v new F : Nat} {s s' : State}

structure Ready (s : State) (cr3 : Nat) : Prop where
  good : Good s.mem cr3
  fresh : ∀ g ∈ s.pool, Fresh child s.mem cr3 Below g
  range : ∀ g ∈ s.pool, 0 < g ∧ g < 2 ^ 40
  nodup : s.pool.Nodup

/-- The translations outside the recursive slot are the same. -/
def SameMap (cr3 : Nat) (m m' : Mem) : Prop := ∀ va, idx va 3 ≠ 511 → entryAt m' cr3 va = entryAt m cr3 va

theorem table_ne (hg : Good m cr3) {l l' f f' : Nat} (hvrt : idx vrt 3 ≠ 511) (hva : idx va 3 ≠ 511)
    (hf : tableAt m cr3 vrt l = some f) (hf' : tableAt m cr3 va l' = some f') (hl : l ≤ 3) (hl' : l' ≤ 3)
    (hne : l ≠ l') : f ≠ f' := by
  rintro rfl
  have hp := congrArg List.length (hg.sep _ _ f (below_path hvrt l) (below_path hva l') hf hf')
  rw [length_path vrt hl, length_path va hl'] at hp
  omega

/-- A write to an entry of a table on the way changes no last entry of a table that was there. -/
theorem entryAt_setAt (hg : Good m cr3) (hvrt : idx vrt 3 ≠ 511) (hva : idx va 3 ≠ 511) (hlv : lv < 3)
    (hF : tableAt m cr3 vrt (lv + 1) = some F) (hf : tableAt m cr3 va 0 = some f) :
    setAt m F i v f (idx va 0) = m f (idx va 0) := by
  apply setAt_of_ne
  rintro ⟨rfl, -⟩
  exact table_ne hg hvrt hva hF hf (by omega) (by omega) (by omega) rfl

/-- The entry 511 of the top table is not on the way to any address outside the recursive slot. -/
theorem self_ne (hg : Good m cr3) (hvrt : idx vrt 3 ≠ 511) (hlv : lv ≤ 3) (hF : tableAt m cr3 vrt lv = some F) :
    ¬ (cr3 = F ∧ 511 = idx vrt lv) := by
  rintro ⟨rfl, hi⟩
  have h3 : lv = 3 := by
    by_contra hne
    exact table_ne (l := 3) hg hvrt hvrt rfl hF le_rfl hlv (Ne.symm hne) rfl
  rw [h3] at hi
  exact hvrt hi.symm

/-! ## A new table -/

/-- The memory after a new table was linked. -/
def linked (m : Mem) (F i new : Nat) : Mem := setAt (fillAt m new 0) F i (addr (4096 * new) + 3)

theorem linked_entry (m : Mem) (F i new : Nat) : linked m F i new F i = addr (4096 * new) + 3 := setAt_self

theorem linked_new (h : new ≠ F) (j : Nat) : linked m F i new new j = 0 := by
  rw [linked, setAt_of_ne fun hx => h hx.1, fillAt_self]

theorem linked_of_ne (h : f ≠ new) (hx : ¬ (f = F ∧ j = i)) : linked m F i new f j = m f j := by
  rw [linked, setAt_of_ne hx, fillAt_of_ne h]

section NewTable

variable (hg : Good m cr3) (hvrt : idx vrt 3 ≠ 511) (hlv : lv < 3) (hF : tableAt m cr3 vrt (lv + 1) = some F)
  (hnone : child (m F (idx vrt (lv + 1))) = none) (hnew : Fresh child m cr3 Below new) (hrange : new < 2 ^ 40)
include hg hvrt hlv hF hnone hnew hrange

theorem follow_linked {q : List Nat} (hq : Below q) : follow child (linked m F (idx vrt (lv + 1)) new) cr3 q =
      if q = path vrt lv then some new else follow child m cr3 q := by
  rw [path_succ vrt hlv]
  exact follow_link below_of_prefix hg.sep (below_path hvrt _) hF hnone hnew rfl (link_entry hrange).1 hq

omit hg hlv hnone hrange in
theorem new_ne : new ≠ F := by
  rintro rfl
  exact hnew _ (below_path hvrt _) hF

/-- The tables stay good when a new one is linked. -/
theorem good_linked : Good (linked m F (idx vrt (lv + 1)) new) cr3 := by
  have hcr3 : cr3 ≠ new := fun h => hnew [] (by simp [Below]) (h ▸ rfl)
  have hFnew := new_ne hvrt hF hnew
  refine ⟨?_, ?_, ?_⟩
  · rw [linked_of_ne hcr3 (self_ne hg hvrt (by omega) hF)]
    exact hg.self
  · exact separate_link below_of_prefix hg.sep (below_path hvrt _) hF hnone hnew rfl (link_entry hrange).1
  intro p f j hp hlen hf hj hpres
  rw [follow_linked hg hvrt hlv hF hnone hnew hrange hp] at hf
  by_cases hx : f = F ∧ j = idx vrt (lv + 1)
  · rw [hx.1, hx.2, linked_entry]
    exact (link_entry hrange).2
  split at hf
  · obtain rfl := some.inj hf
    rw [linked_new hFnew] at hpres
    cases hpres
  have hne : f ≠ new := fun h => hnew p hp (h ▸ hf)
  rw [linked_of_ne hne hx] at hpres ⊢
  exact hg.small p f j hp hlen hf hj hpres

/-- An empty table that is linked translates nothing new. -/
theorem sameMap_linked : SameMap cr3 m (linked m F (idx vrt (lv + 1)) new) := by
  intro va hva
  have hFnew := new_ne hvrt hF hnew
  have hat : tableAt (linked m F (idx vrt (lv + 1)) new) cr3 va 0 =
      if path va 0 = path vrt lv then some new else tableAt m cr3 va 0 :=
    follow_linked hg hvrt hlv hF hnone hnew hrange (below_path hva 0)
  unfold entryAt
  rw [hat]
  by_cases hpath : path va 0 = path vrt lv
  · -- the new table is empty, and nothing was there before
    have hbefore : tableAt m cr3 va 0 = none := by
      have heq : tableAt m cr3 va 0 = tableAt m cr3 vrt lv := congrArg (follow child m cr3) hpath
      rw [heq, tableAt_succ _ _ _ hlv, hF, bind_some, hnone]
    rw [hbefore, if_pos hpath]
    exact linked_new hFnew _
  rw [if_neg hpath]
  cases hf : tableAt m cr3 va 0 with
  | none => rfl
  | some f =>
    have hne : f ≠ new := fun h => hnew _ (below_path hva 0) (h ▸ hf)
    have hne' : f ≠ F := fun h => table_ne hg hvrt hva hF hf (by omega) (by omega) (by omega) h.symm
    exact linked_of_ne hne fun h => hne' h.1

omit hnone in
/-- The stores of `newTable` go to the tables meant, also while the new table is not cleared yet. -/
theorem newTable_mem (pool : List Nat) (h0 : 0 < new) :
    newTable cr3 vrt lv ⟨m, new :: pool⟩ = some ⟨linked m F (idx vrt (lv + 1)) new, pool⟩ := by
  have hFnew := new_ne hvrt hF hnew
  have hup : ∀ l, lv < l → tableAt (setAt m F (idx vrt (lv + 1)) (addr (4096 * new) + 3)) cr3 vrt l =
      tableAt m cr3 vrt l := by
    intro l hl
    refine follow_setAt_of_not_prefix below_of_prefix hg.sep (below_path hvrt _) hF (below_path hvrt l) fun h => ?_
    have hlen := h.length_le
    rw [length_append, length_path vrt (by omega)] at hlen
    by_cases hl3 : l ≤ 3
    · rw [length_path vrt hl3, length_singleton] at hlen
      omega
    · obtain ⟨l, rfl⟩ : ∃ k, l = k + 4 := ⟨l - 4, by omega⟩
      simp [path] at hlen
  have hat : tableAt (setAt m F (idx vrt (lv + 1)) (addr (4096 * new) + 3)) cr3 vrt lv = some new := by
    rw [tableAt_succ _ _ _ hlv, hup _ (by omega), hF, bind_some, setAt_self, (link_entry hrange).1]
  have hclear := hg.clear hvrt lv
  have hself := self_ne hg hvrt (by omega) hF
  have hclear' : Clear (setAt m F (idx vrt (lv + 1)) (addr (4096 * new) + 3)) cr3 vrt lv := by
    refine ⟨by rw [setAt_of_ne hself]; exact hclear.self, by rw [setAt_of_ne hself]; exact hclear.selfSmall, ?_⟩
    intro l hl hl3 g hgt hc
    rw [hup l hl] at hgt
    by_cases hx : g = F ∧ idx vrt l = idx vrt (lv + 1)
    · rw [hx.1, hx.2, setAt_self]
      exact (link_entry hrange).2
    · rw [setAt_of_ne hx] at hc ⊢
      exact hclear.small l hl hl3 g hgt hc
  rw [newTable]
  dsimp only
  rw [if_neg (by omega), store_entry (hg.clear hvrt _) (by omega) hF, bind_some,
    clearPage_entryget hclear' (by omega) hat, map_some, fillAt_setAt hFnew.symm]
  rfl

end NewTable

/-- **A missing table is put in place**, and nothing else is seen to change. -/
theorem newTable_spec (hs : Ready s cr3) (hvrt : idx vrt 3 ≠ 511) (hlv : lv < 3)
    (hF : tableAt s.mem cr3 vrt (lv + 1) = some F) (hnone : child (s.mem F (idx vrt (lv + 1))) = none)
    (hpool : 0 < s.pool.length) :
    ∃ s' new, newTable cr3 vrt lv s = some s' ∧ Ready s' cr3 ∧ (∀ q, Below q → follow child s'.mem cr3 q =
      if q = path vrt lv then some new else follow child s.mem cr3 q) ∧ s.pool.length = s'.pool.length + 1 ∧
      SameMap cr3 s.mem s'.mem := by
  obtain ⟨m, pool⟩ := s
  cases pool with
  | nil => cases hpool
  | cons new pool =>
    obtain ⟨hg, hfresh, hrange, hnodup⟩ := hs
    obtain ⟨h0, h40⟩ := hrange new mem_cons_self
    have hnew := hfresh new mem_cons_self
    obtain ⟨hnotin, hnodup⟩ := nodup_cons.1 hnodup
    refine ⟨_, new, newTable_mem hg hvrt hlv hF hnew h40 pool h0, ⟨?_, ?_, ?_, hnodup⟩, ?_, rfl, ?_⟩
    · exact good_linked hg hvrt hlv hF hnone hnew h40
    · intro g hg'
      exact fresh_link below_of_prefix hg.sep (below_path hvrt _) hF hnone hnew rfl (link_entry h40).1
        (hfresh g (mem_cons_of_mem _ hg')) fun h => hnotin (h ▸ hg')
    · exact fun g hg' => hrange g (mem_cons_of_mem _ hg')
    · exact fun q hq => follow_linked hg hvrt hlv hF hnone hnew h40 hq
    · exact sameMap_linked hg hvrt hlv hF hnone hnew h40

/-! ## Opening an entry to user mode -/

/-- Changes that keep the tables' links keep the state ready. -/
theorem Ready.of_child (hs : Ready s cr3) (hc : ∀ f j, child (m f j) = child (s.mem f j))
    (hl : ∀ f j, large (m f j) = large (s.mem f j)) : Ready ⟨m, s.pool⟩ cr3 := by
  have hfollow : ∀ q, follow child m cr3 q = follow child s.mem cr3 q := follow_eq_of_child hc
  refine ⟨⟨?_, ?_, ?_⟩, ?_, hs.range, hs.nodup⟩
  · rw [hc]
    exact hs.good.self
  · intro p q f hp hq hfp hfq
    rw [hfollow] at hfp hfq
    exact hs.good.sep p q f hp hq hfp hfq
  · intro p f j hp hlen hf hj hpres
    rw [hfollow] at hf
    have hchild := hc f j
    rw [child, if_pos hpres] at hchild
    rw [hl]
    exact hs.good.small p f j hp hlen hf hj (child_eq_some.1 hchild.symm).1
  intro g hg p hp
  rw [hfollow]
  exact hs.fresh g hg p hp

/-- **Opening an entry to user mode** changes no table. -/
theorem markUser_spec (hs : Ready s cr3) (hvrt : idx vrt 3 ≠ 511) (hlv : lv < 3)
    (hF : tableAt s.mem cr3 vrt (lv + 1) = some F) : ∃ s', markUser cr3 vrt (lv + 1) s = some s' ∧ Ready s' cr3 ∧
      (∀ q, follow child s'.mem cr3 q = follow child s.mem cr3 q) ∧ s'.pool = s.pool ∧ SameMap cr3 s.mem s'.mem := by
  have hclear := hs.good.clear hvrt (lv + 1)
  have hmark : markUser cr3 vrt (lv + 1) s =
      some ⟨setAt s.mem F (idx vrt (lv + 1)) (orUs (s.mem F (idx vrt (lv + 1)))), s.pool⟩ := by
    rw [markUser, load_entry hclear (by omega) hF, bind_some, store_entry hclear (by omega) hF, map_some]
  have hentry : ∀ f j, child (setAt s.mem F (idx vrt (lv + 1)) (orUs (s.mem F (idx vrt (lv + 1)))) f j) =
      child (s.mem f j) ∧ large (setAt s.mem F (idx vrt (lv + 1)) (orUs (s.mem F (idx vrt (lv + 1)))) f j) =
      large (s.mem f j) := by
    intro f j
    by_cases hx : f = F ∧ j = idx vrt (lv + 1)
    · rw [hx.1, hx.2, setAt_self]
      exact ⟨(orUs_entry _).1, (orUs_entry _).2.2⟩
    · rw [setAt_of_ne hx]
      exact ⟨rfl, rfl⟩
  have hfollow : ∀ q, follow child (setAt s.mem F (idx vrt (lv + 1)) (orUs (s.mem F (idx vrt (lv + 1))))) cr3 q =
      follow child s.mem cr3 q := follow_eq_of_child fun f j => (hentry f j).1
  refine ⟨_, hmark, hs.of_child (fun f j => (hentry f j).1) fun f j => (hentry f j).2, hfollow, rfl, ?_⟩
  intro va hva
  have hat : tableAt (setAt s.mem F (idx vrt (lv + 1)) (orUs (s.mem F (idx vrt (lv + 1))))) cr3 va 0 =
      tableAt s.mem cr3 va 0 := hfollow _
  unfold entryAt
  rw [hat]
  cases hf : tableAt s.mem cr3 va 0 with
  | none => rfl
  | some f => exact entryAt_setAt hs.good hvrt hva hlv hF hf

/-! ## The walk -/

theorem SameMap.trans {m1 m2 m3 : Mem} (h : SameMap cr3 m1 m2) (h' : SameMap cr3 m2 m3) : SameMap cr3 m1 m3 :=
  fun va hva => (h' va hva).trans (h va hva)

/-- How many tables are missing on the way to `vrt` from level `lv` on. -/
def absent (m : Mem) (cr3 vrt lv : Nat) : Nat := ((Finset.range lv).filter fun l => tableAt m cr3 vrt l = none).card

theorem absent_succ (m : Mem) (cr3 vrt lv : Nat) :
    absent m cr3 vrt (lv + 1) = absent m cr3 vrt lv + if tableAt m cr3 vrt lv = none then 1 else 0 := by
  rw [absent, Finset.range_add_one, Finset.filter_insert]
  split
  · exact Finset.card_insert_of_notMem (by simp)
  · rfl

theorem path_inj {l l' : Nat} (hl : l ≤ 3) (hl' : l' ≤ 3) (h : path vrt l = path vrt l') : l = l' := by
  have hlen := congrArg List.length h
  rw [length_path vrt hl, length_path vrt hl'] at hlen
  omega

section Walk

variable (flgs : Nat) (hs : Ready s cr3) (hvrt : idx vrt 3 ≠ 511)
include hs hvrt

/-- **One level of the walk**: the table below is made if it is missing, and no other table appears. -/
theorem walk_step (hlv : lv < 3) (hF : tableAt s.mem cr3 vrt (lv + 1) = some F)
    (hpool : tableAt s.mem cr3 vrt lv = none → 0 < s.pool.length) :
    ∃ s₂ g, walk cr3 vrt flgs true (lv + 1) s = walk cr3 vrt flgs true lv s₂ ∧ Ready s₂ cr3 ∧
      tableAt s₂.mem cr3 vrt lv = some g ∧
      s.pool.length = s₂.pool.length + (if tableAt s.mem cr3 vrt lv = none then 1 else 0) ∧ SameMap cr3 s.mem s₂.mem ∧
      ∀ q, Below q → (follow child s₂.mem cr3 q = none ↔ follow child s.mem cr3 q = none ∧ q ≠ path vrt lv) := by
  have hnext := tableAt_succ s.mem cr3 vrt hlv
  rw [hF, bind_some] at hnext
  -- the table below, made if it is missing
  obtain ⟨s1, g, h1, hs1, hF1, hg, hp1, hm1, hq1⟩ : ∃ s1 g,
      (if present (s.mem F (idx vrt (lv + 1))) then some s else newTable cr3 vrt lv s) = some s1 ∧ Ready s1 cr3 ∧
      tableAt s1.mem cr3 vrt (lv + 1) = some F ∧ tableAt s1.mem cr3 vrt lv = some g ∧
      s.pool.length = s1.pool.length + (if tableAt s.mem cr3 vrt lv = none then 1 else 0) ∧ SameMap cr3 s.mem s1.mem ∧
      ∀ q, Below q → (follow child s1.mem cr3 q = none ↔ follow child s.mem cr3 q = none ∧ q ≠ path vrt lv) := by
    cases hc : child (s.mem F (idx vrt (lv + 1))) with
    | none =>
      rw [hc] at hnext
      rw [if_neg (by simp [child_eq_none.1 hc]), if_pos hnext]
      obtain ⟨s1, new, h1, hs1, hq1, hp1, hm1⟩ := newTable_spec hs hvrt hlv hF hc (hpool hnext)
      have hne : path vrt (lv + 1) ≠ path vrt lv := fun h => absurd (path_inj hlv (by omega) h) (by omega)
      refine ⟨s1, new, h1, hs1, ?_, ?_, hp1, hm1, fun q hq => ?_⟩
      · exact (hq1 _ (below_path hvrt _)).trans ((if_neg hne).trans hF)
      · exact (hq1 _ (below_path hvrt _)).trans (if_pos rfl)
      · rw [hq1 q hq]
        split
        next heq => exact iff_of_false nofun fun h => h.2 heq
        next hne => exact ⟨fun h => ⟨h, hne⟩, fun h => h.1⟩
    | some g =>
      rw [hc] at hnext
      refine ⟨s, g, if_pos (child_eq_some.1 hc).1, hs, hF, hnext,
        by rw [hnext, if_neg nofun, Nat.add_zero], fun _ _ => rfl, fun q _ => ⟨fun h => ⟨h, ?_⟩, fun h => h.1⟩⟩
      rintro rfl
      exact Option.some_ne_none g (hnext.symm.trans h)
  -- the entry, opened to user mode if asked for
  obtain ⟨s2, h2, hs2, hq2, hp2, hm2⟩ : ∃ s2,
      (if flgs / 4 % 2 == 1 then markUser cr3 vrt (lv + 1) s1 else some s1) = some s2 ∧ Ready s2 cr3 ∧
      (∀ q, follow child s2.mem cr3 q = follow child s1.mem cr3 q) ∧ s2.pool = s1.pool ∧ SameMap cr3 s1.mem s2.mem := by
    split
    · exact markUser_spec hs1 hvrt hlv hF1
    · exact ⟨s1, rfl, hs1, fun _ => rfl, rfl, fun _ _ => rfl⟩
  refine ⟨s2, g, ?_, hs2, (hq2 _).trans hg, by rw [hp2]; exact hp1, hm1.trans hm2, fun q hq => by rw [hq2, hq1 q hq]⟩
  rw [walk, load_entry (hs.good.clear hvrt _) hlv hF, bind_some, if_neg (by simp), h1, bind_some, Bool.true_and, h2,
    bind_some]

omit hs in
theorem absent_step {m m' : Mem} (hlv : lv < 3)
    (hq : ∀ q, Below q → (follow child m' cr3 q = none ↔ follow child m cr3 q = none ∧ q ≠ path vrt lv)) :
    absent m' cr3 vrt lv = absent m cr3 vrt lv := by
  refine congrArg Finset.card (Finset.filter_congr fun l hl => ?_)
  have hl := Finset.mem_range.1 hl
  refine (hq _ (below_path hvrt l)).trans ⟨fun h => h.1, fun h => ⟨h, fun heq => ?_⟩⟩
  exact absurd (path_inj (by omega) (by omega) heq) (by omega)

/-- **The walk** returns the last entry, with all tables in place and no translation changed. -/
theorem walk_spec (hlv : lv ≤ 3) (hF : tableAt s.mem cr3 vrt lv = some F)
    (hpool : absent s.mem cr3 vrt lv ≤ s.pool.length) :
    ∃ s' f, walk cr3 vrt flgs true lv s = some (some (entryOf vrt 0), s') ∧ Ready s' cr3 ∧
      tableAt s'.mem cr3 vrt 0 = some f ∧ s.pool.length = s'.pool.length + absent s.mem cr3 vrt lv ∧
      SameMap cr3 s.mem s'.mem ∧ ∀ q, Below q →
        (follow child s'.mem cr3 q = none ↔ follow child s.mem cr3 q = none ∧ ∀ l < lv, q ≠ path vrt l) := by
  induction lv generalizing s F with
  | zero =>
    exact ⟨s, F, rfl, hs, hF, rfl, fun _ _ => rfl, fun q _ => ⟨fun h => ⟨h, fun l hl => absurd hl (by omega)⟩,
      fun h => h.1⟩⟩
  | succ lv ih =>
    rw [absent_succ] at hpool ⊢
    obtain ⟨s2, g, h2, hs2, hg, hp2, hm2, hq2⟩ := walk_step flgs hs hvrt hlv hF fun h => by
      rw [if_pos h] at hpool
      omega
    have habs := absent_step hvrt hlv hq2
    obtain ⟨s', f, h', hs', hf, hp', hm', hq'⟩ := ih hs2 (by omega) hg (by omega)
    refine ⟨s', f, h2.trans h', hs', hf, by omega, hm2.trans hm', fun q hq => ?_⟩
    rw [hq' q hq, hq2 q hq, and_assoc]
    refine and_congr_right fun _ => ⟨fun ⟨hne, hl⟩ l hlt => ?_, fun h => ⟨h lv (by omega), fun l hl => h l (by omega)⟩⟩
    rcases Nat.lt_succ_iff_lt_or_eq.1 hlt with hlt | rfl
    · exact hl l hlt
    · exact hne

/-- Without frames for the tables that are missing, the walk does not return. -/
theorem walk_none (hlv : lv ≤ 3) (hF : tableAt s.mem cr3 vrt lv = some F)
    (hpool : s.pool.length < absent s.mem cr3 vrt lv) : walk cr3 vrt flgs true lv s = none := by
  induction lv generalizing s F with
  | zero => exact absurd hpool (Nat.not_lt_zero _)
  | succ lv ih =>
    rw [absent_succ] at hpool
    by_cases hnil : tableAt s.mem cr3 vrt lv = none ∧ s.pool = []
    · have hchild := tableAt_succ s.mem cr3 vrt hlv
      rw [hF, bind_some, hnil.1] at hchild
      rw [walk, load_entry (hs.good.clear hvrt _) hlv hF, bind_some, if_neg (by simp),
        if_neg (by simp [child_eq_none.1 hchild.symm]), newTable, hnil.2]
      rfl
    · obtain ⟨s2, g, h2, hs2, hg, hp2, -, hq2⟩ := walk_step flgs hs hvrt hlv hF fun h => by
        rw [List.length_pos_iff]
        exact fun h0 => hnil ⟨h, h0⟩
      have habs := absent_step hvrt hlv hq2
      rw [h2]
      exact ih hs2 (by omega) hg (by omega)

end Walk

end TextOS.Vmap
