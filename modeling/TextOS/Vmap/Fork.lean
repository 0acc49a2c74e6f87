import TextOS.Vmap.Copy
import TextOS.Vmap.Walk

/-!
# What a copied page table maps

`UserTable m pgt lv f`: the frame `f` is a table of level `lv` in the user half of the page table `pgt`. While the copy
goes on, the old tables stay what they are except for writable bits of last entries that are cleared (`Old`), and every
other frame that changes is a new page (`Grows`). A finished copy of a subtree is `CopyOf` it.
-/

namespace TextOS.Vmap

open Lib List Function Finset

/-! ## Tables of the user half -/

/-- The tables of the user half, with their levels. -/
inductive UserTable (m : Mem) (pgt : Nat) : Nat → Nat → Prop
  | top : UserTable m pgt 3 pgt
  | sub {lv f i : Nat} : UserTable m pgt (lv + 1) f → i < limit (lv + 1) → present (m f i) = true →
      UserTable m pgt lv (frame (m f i))

/-- Entries of the user half are zero or present and map no large pages, and no frame is a table of two levels. -/
structure UserOk (m : Mem) (pgt : Nat) : Prop where
  entry : ∀ lv f i, UserTable m pgt lv f → i < limit lv → m f i = 0 ∨ present (m f i) = true
  small : ∀ lv f i, UserTable m pgt (lv + 1) f → lv ≠ 2 → i < limit (lv + 1) → large (m f i) = false
  level : ∀ lv lv' f, UserTable m pgt lv f → UserTable m pgt lv' f → lv = lv'

/-- Pages that are different and no tables of the user half. -/
structure FreshPool (m : Mem) (pgt : Nat) (pool : List Nat) : Prop where
  nodup : pool.Nodup
  lt : ∀ n ∈ pool, n < 2 ^ 40
  new : ∀ n ∈ pool, ∀ lv, ¬ UserTable m pgt lv n

/-- The number of tables from the table `f` of level `lv` on. -/
def tables (m : Mem) : Nat → Nat → Nat
  | 0, _ => 1
  | lv + 1, f => 1 + ∑ i ∈ Finset.range (limit (lv + 1)), if m f i = 0 then 0 else tables m lv (frame (m f i))

/-- The table `n` and the tables below it are copies of the ones from `f` on, and pages of `used`. -/
def CopyOf (m₀ m : Mem) (used : List Nat) : Nat → Nat → Nat → Prop
  | 0, f, n => n ∈ used ∧ ∀ i < 512, m n i = clearRw (m₀ f i)
  | lv + 1, f, n => n ∈ used ∧ ∀ i < limit (lv + 1), (m₀ f i = 0 → m n i = 0) ∧
      (m₀ f i ≠ 0 → ∃ c, m n i = flag (m₀ f i) + 4096 * c ∧ CopyOf m₀ m used lv (frame (m₀ f i)) c)

/-- The last entries below the table `f` are not writable any more. -/
def Cleared (m₀ m : Mem) : Nat → Nat → Prop
  | 0, f => ∀ i < 512, m f i = clearRw (m₀ f i)
  | lv + 1, f => ∀ i < limit (lv + 1), m₀ f i ≠ 0 → Cleared m₀ m lv (frame (m₀ f i))

/-- The old tables are as they were, up to writable bits of last entries. -/
structure Old (m₀ : Mem) (pgt : Nat) (m : Mem) : Prop where
  upper : ∀ lv f, UserTable m₀ pgt (lv + 1) f → m f = m₀ f
  last : ∀ f, UserTable m₀ pgt 0 f → ∀ i, m f i = m₀ f i ∨ m f i = clearRw (m₀ f i)

/-- From `s` to `s'` the pages `used` were allocated, and nothing changed but they and last entries. -/
structure Grows (m₀ : Mem) (pgt : Nat) (s s' : Pv) (used : List Nat) : Prop where
  pool : s.pool = used ++ s'.pool
  frame : ∀ f, f ∉ used → ¬ UserTable m₀ pgt 0 f → s'.mem f = s.mem f
  last : ∀ f, UserTable m₀ pgt 0 f → ∀ i, s'.mem f i = s.mem f i ∨ s'.mem f i = clearRw (m₀ f i)

variable {m₀ m m' : Mem} {pgt lv f n i e : Nat} {s s' : Pv} {used used' pool : List Nat} {va : Nat}

/-! ## Entries -/

theorem frame_page (hn : n < 2 ^ 40) : frame (addr (4096 * n) + 3) = n := by
  unfold frame addr
  omega

theorem frame_addr (e : Nat) : frame (addr (addr e) + 3) = frame e := by
  unfold frame addr
  omega

theorem clearRw_zero : clearRw 0 = 0 := rfl

theorem clearRw_clearRw (e : Nat) : clearRw (clearRw e) = clearRw e := by
  unfold clearRw
  split
  · rw [if_neg (by omega)]
  · rfl

theorem present_clearRw (e : Nat) : present (clearRw e) = present e := by
  unfold clearRw
  split
  · simp only [present]
    congr 1
    omega
  · rfl

theorem frame_clearRw (e : Nat) : frame (clearRw e) = frame e := by
  unfold clearRw frame
  split <;> omega

theorem ne_zero_of_present (h : present e = true) : e ≠ 0 := by
  rintro rfl
  simp [present] at h

/-- An entry that keeps its flags and points to the page `c`. -/
theorem entry_page {c : Nat} (hc : c < 2 ^ 40) :
    frame (flag e + 4096 * c) = c ∧ present (flag e + 4096 * c) = present e ∧ flag (flag e + 4096 * c) = flag e ∧
      large (flag e + 4096 * c) = large e := by
  unfold frame present flag large
  refine ⟨by omega, ?_, by omega, ?_⟩
  · congr 1
    omega
  · congr 1
    omega

/-! ## What later steps leave alone -/

theorem CopyOf.mono (hsub : ∀ n ∈ used, n ∈ used') (hm : ∀ n ∈ used, ∀ i < 512, m' n i = m n i) :
    ∀ {lv f n : Nat}, CopyOf m₀ m used lv f n → CopyOf m₀ m' used' lv f n
  | 0, f, n, h => ⟨hsub n h.1, fun i hi => (hm n h.1 i hi).trans (h.2 i hi)⟩
  | lv + 1, f, n, h => by
    refine ⟨hsub n h.1, fun i hi => ?_⟩
    have hlt : i < 512 := by
      unfold limit at hi
      split at hi <;> omega
    rw [hm n h.1 i hlt]
    refine ⟨(h.2 i hi).1, fun h0 => ?_⟩
    obtain ⟨c, hc, hcopy⟩ := (h.2 i hi).2 h0
    exact ⟨c, hc, hcopy.mono hsub hm⟩

theorem Cleared.mono (hok : UserOk m₀ pgt)
    (hm : ∀ f, UserTable m₀ pgt 0 f → ∀ i, m' f i = m f i ∨ m' f i = clearRw (m₀ f i)) :
    ∀ {lv f : Nat}, UserTable m₀ pgt lv f → Cleared m₀ m lv f → Cleared m₀ m' lv f
  | 0, f, hf, h => fun i hi => by
    rcases hm f hf i with he | he
    · exact he.trans (h i hi)
    · exact he
  | lv + 1, f, hf, h => fun i hi h0 => (h i hi h0).mono hok hm (hf.sub hi ((hok.entry _ f i hf hi).resolve_left h0))

theorem Grows.trans {s1 s2 s3 : Pv} (h : Grows m₀ pgt s1 s2 used) (h' : Grows m₀ pgt s2 s3 used') :
    Grows m₀ pgt s1 s3 (used ++ used') := by
  refine ⟨by rw [h.pool, h'.pool, append_assoc], fun f hf hl => ?_, fun f hf i => ?_⟩
  · rw [mem_append, not_or] at hf
    rw [h'.frame f hf.2 hl, h.frame f hf.1 hl]
  rcases h'.last f hf i with he | he
  · rw [he]
    exact h.last f hf i
  · exact Or.inr he

theorem Grows.put (h : Grows m₀ pgt s s' used) (hn : n ∈ used) (hlast : ¬ UserTable m₀ pgt 0 n) {w : Nat}
    (hw : s'.win w = n) (i v : Nat) : Grows m₀ pgt s (s'.put w i v) used := by
  have hne : ∀ f, f ≠ n → (s'.put w i v).mem f = s'.mem f := fun f hf => by
    funext j
    show setAt s'.mem (s'.win w) i v f j = _
    rw [hw]
    exact setAt_of_ne fun hx => hf hx.1
  refine ⟨h.pool, fun f hf hl => ?_, fun f hf i => ?_⟩
  · rw [hne f (fun he => hf (he ▸ hn))]
    exact h.frame f hf hl
  · rw [hne f (fun he => hlast (he ▸ hf))]
    exact h.last f hf i

theorem Grows.congr {s'' : Pv} (h : Grows m₀ pgt s s' used) (hp : s''.pool = s'.pool) (hm : s''.mem = s'.mem) :
    Grows m₀ pgt s s'' used :=
  ⟨by rw [hp]; exact h.pool, by rw [hm]; exact h.frame, by rw [hm]; exact h.last⟩

theorem Old.grows (hok : UserOk m₀ pgt) (ho : Old m₀ pgt s.mem) (hg : Grows m₀ pgt s s' used)
    (hnew : ∀ n ∈ used, ∀ lv, ¬ UserTable m₀ pgt lv n) : Old m₀ pgt s'.mem := by
  refine ⟨fun lv f hf => ?_, fun f hf i => ?_⟩
  · rw [hg.frame f (fun hu => hnew f hu _ hf) fun hl => by cases hok.level _ _ f hf hl]
    exact ho.upper lv f hf
  rcases hg.last f hf i with he | he
  · rw [he]
    exact ho.last f hf i
  · exact Or.inr he

theorem FreshPool.drop (h : FreshPool m₀ pgt (used ++ pool)) : FreshPool m₀ pgt pool :=
  ⟨h.nodup.of_append_right, fun n hn => h.lt n (by simp [hn]), fun n hn => h.new n (by simp [hn])⟩

/-! ## One table -/

/-- What one call of `_copy_pgt` has done: the copy `n` of the table `f` of level `lv`. -/
structure Copied (m₀ : Mem) (pgt lv f : Nat) (s : Pv) (r : Nat × Pv) (n : Nat) (used : List Nat) : Prop where
  page : r.1 = 4096 * n
  grows : Grows m₀ pgt s r.2 used
  length : used.length = tables m₀ lv f
  copy : CopyOf m₀ r.2.mem used lv f n
  cleared : Cleared m₀ r.2.mem lv f
  kernel : lv = 3 → (∀ i, 256 ≤ i → i ≠ 511 → r.2.mem n i = m₀ f i) ∧ r.2.mem n 511 = addr (4096 * n) + 3

/-- The start of a call: the windows show the old table and the new page, which holds a copy. -/
theorem Opens.start {pg : Nat} {o : Opened} {rest : List Nat} (ho : Opens pg s o) (hpool : s.pool = n :: rest)
    (hn : n < 2 ^ 40) (hf : frame (addr pg + 3) = f) :
    o.npg = 4096 * n ∧ o.s.pool = rest ∧ o.s.win o.w = f ∧ o.s.win o.wn = n ∧ o.s.mem n = s.mem f ∧
      ∀ g, g ≠ n → o.s.mem g = s.mem g := by
  have hnpg : o.npg = 4096 * n := by rw [ho.npg, hpool, headD_cons]
  have hw : o.s.win o.w = f := by rw [ho.win, update_of_ne ho.ne, update_self, hf]
  have hwn : o.s.win o.wn = n := by rw [ho.win, update_self, hnpg, frame_page hn]
  have hmem := ho.mem
  rw [hw, hwn] at hmem
  refine ⟨hnpg, by rw [ho.pool, hpool, tail_cons], hw, hwn, ?_, fun g hg => ?_⟩
  · rw [hmem]
    simp
  · rw [hmem]
    simp [hg]

/-- The loop over a last table: entries are locked on both sides. -/
theorem last_loop (m₀ : Mem) {copy : Nat → Pv → Option (Nat × Pv)} {w wn : Nat} (hw : s.win w = f) (hwn : s.win wn = n)
    (hne : f ≠ n) (hcopy : s.mem n = s.mem f) (hold : ∀ i, s.mem f i = m₀ f i ∨ s.mem f i = clearRw (m₀ f i))
    (hentry : ∀ i < 512, m₀ f i = 0 ∨ present (m₀ f i) = true)
    (hr : run (copyEntry copy true w wn) s (List.range 512) = some s') :
    s'.pool = s.pool ∧ (∀ g, g ≠ f → g ≠ n → s'.mem g = s.mem g) ∧
      (∀ i < 512, s'.mem f i = clearRw (m₀ f i) ∧ s'.mem n i = clearRw (m₀ f i)) ∧ ∀ i ≥ 512,
      s'.mem f i = s.mem f i := by
  have hinv := run_range_inv (I := fun i t => t.win = s.win ∧ t.pool = s.pool ∧
    (∀ g, g ≠ f → g ≠ n → t.mem g = s.mem g) ∧ (∀ j < i, t.mem f j = clearRw (m₀ f j) ∧ t.mem n j = clearRw (m₀ f j)) ∧
    ∀ j ≥ i, t.mem f j = s.mem f j ∧ t.mem n j = s.mem f j) 512 ?_ ⟨rfl, rfl, fun _ _ _ => rfl,
    by simp, by simp [hcopy]⟩ hr
  · obtain ⟨-, hpool, hframe, hdone, htodo⟩ := hinv
    exact ⟨hpool, hframe, hdone, fun i hi => (htodo i hi).1⟩
  rintro i hi t t' ⟨hwin, hpool, hframe, hdone, htodo⟩ hstep
  have hget : t.get wn i = s.mem f i := by rw [Pv.get, hwin, hwn, (htodo i le_rfl).2]
  unfold copyEntry at hstep
  rw [hget] at hstep
  by_cases h0 : s.mem f i = 0
  · -- an entry that is zero was zero from the start
    rw [if_pos h0] at hstep
    obtain rfl := Option.some.inj hstep
    have hm0 : m₀ f i = 0 := by
      rcases hold i with he | he
      · exact he.symm.trans h0
      by_contra hm
      have hp := (hentry i hi).resolve_left hm
      rw [← present_clearRw] at hp
      exact ne_zero_of_present hp (he.symm.trans h0)
    refine ⟨hwin, hpool, hframe, fun j hj => ?_, fun j hj => htodo j (by omega)⟩
    rcases Nat.lt_succ_iff_lt_or_eq.1 hj with hj | rfl
    · exact hdone j hj
    · rw [(htodo j le_rfl).1, (htodo j le_rfl).2, h0, hm0, clearRw_zero]
      exact ⟨rfl, rfl⟩
  · rw [if_neg h0, if_pos rfl] at hstep
    obtain rfl := Option.some.inj hstep
    have hval : clearRw (t.get w i) = clearRw (m₀ f i) := by
      rw [Pv.get, hwin, hw, (htodo i le_rfl).1]
      rcases hold i with he | he
      · rw [he]
      · rw [he, clearRw_clearRw]
    have hmem : ((t.put w i (clearRw (t.get w i))).put wn i ((t.put w i (clearRw (t.get w i))).get w i)).mem =
        setAt (setAt t.mem f i (clearRw (m₀ f i))) n i (clearRw (m₀ f i)) := by
      rw [hval]
      show setAt (setAt t.mem (t.win w) i _) (t.win wn) i (setAt t.mem (t.win w) i _ (t.win w) i) = _
      rw [hwin, hw, hwn, setAt_self]
    refine ⟨hwin, hpool, fun g hgf hgn => ?_, fun j hj => ?_, fun j hj => ?_⟩
    · rw [hmem]
      funext j
      rw [setAt_of_ne (fun h => hgn h.1), setAt_of_ne (fun h => hgf h.1), hframe g hgf hgn]
    · rw [hmem, setAt_of_ne (fun h => hne h.1)]
      rcases Nat.lt_succ_iff_lt_or_eq.1 hj with hj | rfl
      · rw [setAt_of_ne (fun h => by omega), setAt_of_ne (fun h => by omega), setAt_of_ne (fun h => by omega)]
        exact hdone j hj
      · rw [setAt_self, setAt_self]
        exact ⟨rfl, rfl⟩
    rw [hmem, setAt_of_ne (fun h => hne h.1), setAt_of_ne (fun h => by omega), setAt_of_ne (fun h => by omega),
      setAt_of_ne (fun h => by omega)]
    exact htodo j (by omega)

/-- The copy of a last table. -/
theorem copyTable_last (hok : UserOk m₀ pgt) {pg : Nat} {r : Nat × Pv} (hf : frame (addr pg + 3) = f)
    (htab : UserTable m₀ pgt 0 f) (hold : Old m₀ pgt s.mem) (hfresh : FreshPool m₀ pgt s.pool)
    (hlen : 1 ≤ s.pool.length) (hr : copyTable 1 pg s = some r) : ∃ n used, Copied m₀ pgt 0 f s r n used := by
  obtain ⟨o, ho, hr⟩ := Option.bind_eq_some_iff.1 hr
  obtain ⟨s', hs', rfl⟩ := Option.map_eq_some_iff.1 hr
  obtain ⟨n, rest, hpool⟩ := exists_cons_of_length_pos hlen
  have hn : n ∈ s.pool := by simp [hpool]
  have hne : f ≠ n := fun h => hfresh.new n hn 0 (h ▸ htab)
  obtain ⟨hnpg, hrest, hw, hwn, hcopy, hframe⟩ := (openPages_spec ho).start hpool (hfresh.lt n hn) hf
  obtain ⟨hpool', hframe', hdone, htail⟩ := last_loop m₀ hw hwn hne (by rw [hcopy, hframe f hne])
    (fun i => by rw [hframe f hne]; exact hold.last f htab i) (fun i hi => hok.entry 0 f i htab hi) hs'
  refine ⟨n, [n], ⟨hnpg, ⟨?_, fun g hg hl => ?_, fun g hg i => ?_⟩, rfl, ⟨by simp, fun i hi => (hdone i hi).2⟩,
    fun i hi => (hdone i hi).1, nofun⟩⟩
  · show s.pool = [n] ++ s'.pool
    rw [hpool', hrest, hpool]
    rfl
  · have hgn : g ≠ n := by simpa using hg
    exact (hframe' g (fun h => hl (h ▸ htab)) hgn).trans (hframe g hgn)
  show s'.mem g i = _ ∨ s'.mem g i = _
  by_cases hgf : g = f
  · subst hgf
    by_cases hi : i < 512
    · exact Or.inr (hdone i hi).1
    · rw [htail i (by omega), hframe g hne]
      exact Or.inl rfl
  have hgn : g ≠ n := fun h => hfresh.new n hn 0 (h ▸ hg)
  rw [hframe' g hgf hgn, hframe g hgn]
  exact Or.inl rfl

/-- The pages for the tables behind the first `i` entries of `f`. -/
def pagesBefore (m₀ : Mem) (lv f i : Nat) : Nat :=
  ∑ j ∈ range i, if m₀ f j = 0 then 0 else tables m₀ lv (frame (m₀ f j))

theorem pagesBefore_succ (m₀ : Mem) (lv f i : Nat) : pagesBefore m₀ lv f (i + 1) =
    pagesBefore m₀ lv f i + if m₀ f i = 0 then 0 else tables m₀ lv (frame (m₀ f i)) := Finset.sum_range_succ ..

theorem pagesBefore_mono (m₀ : Mem) (lv f : Nat) {j k : Nat} (h : j ≤ k) :
    pagesBefore m₀ lv f j ≤ pagesBefore m₀ lv f k :=
  sum_le_sum_of_subset (range_mono h)

/-- The entry `j` of `n` is a copy of the one of `f`. -/
def EntryCopy (m₀ m : Mem) (used : List Nat) (lv f n j : Nat) : Prop := (m₀ f j = 0 → m n j = 0) ∧
  (m₀ f j ≠ 0 → ∃ c, m n j = flag (m₀ f j) + 4096 * c ∧ CopyOf m₀ m used lv (frame (m₀ f j)) c)

/-- After `i` rounds of the loop over the table `f` of level `lv + 1`. -/
structure Rounds (m₀ : Mem) (pgt lv f n : Nat) (s : Pv) (i : Nat) (t : Pv) (used : List Nat) : Prop where
  grows : Grows m₀ pgt s t (n :: used)
  length : used.length = pagesBefore m₀ lv f i
  done : ∀ j < i, EntryCopy m₀ t.mem used lv f n j
  cleared : ∀ j < i, m₀ f j ≠ 0 → Cleared m₀ t.mem lv (frame (m₀ f j))
  todo : ∀ j ≥ i, t.mem n j = m₀ f j

theorem EntryCopy.mono {j : Nat} (hsub : ∀ g ∈ used, g ∈ used') (hm : ∀ g ∈ used, ∀ i < 512, m' g i = m g i)
    (hn : m' n j = m n j) (h : EntryCopy m₀ m used lv f n j) : EntryCopy m₀ m' used' lv f n j := by
  unfold EntryCopy
  rw [hn]
  refine ⟨h.1, fun h0 => ?_⟩
  obtain ⟨c, hc, hcopy⟩ := h.2 h0
  exact ⟨c, hc, hcopy.mono hsub hm⟩

theorem Rounds.skip {t : Pv} (h : Rounds m₀ pgt lv f n s i t used) (h0 : m₀ f i = 0) :
    Rounds m₀ pgt lv f n s (i + 1) t used := by
  refine ⟨h.grows, by rw [pagesBefore_succ, if_pos h0, h.length, Nat.add_zero], fun j hj => ?_, fun j hj hj0 => ?_,
    fun j hj => h.todo j (by omega)⟩
  · rcases Nat.lt_succ_iff_lt_or_eq.1 hj with hj | rfl
    · exact h.done j hj
    · exact ⟨fun _ => (h.todo j le_rfl).trans h0, fun hne => absurd h0 hne⟩
  rcases Nat.lt_succ_iff_lt_or_eq.1 hj with hj | rfl
  · exact h.cleared j hj hj0
  · exact absurd h0 hj0

/-- One more entry of a table has been copied. -/
theorem Rounds.copied (hok : UserOk m₀ pgt) (hfresh : FreshPool m₀ pgt s.pool) (htab : UserTable m₀ pgt (lv + 1) f)
    {t : Pv} {r : Nat × Pv} {c wn : Nat} {usedc : List Nat} (h : Rounds m₀ pgt lv f n s i t used)
    (hi : i < limit (lv + 1)) (h0 : m₀ f i ≠ 0) (hc : Copied m₀ pgt lv (frame (m₀ f i)) t r c usedc)
    (hwn : r.2.win wn = n) : Rounds m₀ pgt lv f n s (i + 1) (r.2.put wn i (flag (r.2.get wn i) + addr r.1))
    (used ++ usedc) := by
  have hpool : s.pool = n :: (used ++ usedc) ++ r.2.pool := by
    rw [h.grows.pool, hc.grows.pool, cons_append, cons_append, append_assoc]
  have hnd : (n :: (used ++ usedc)).Nodup := (hpool ▸ hfresh.nodup).of_append_left
  obtain ⟨hnn, hnd'⟩ := nodup_cons.1 hnd
  rw [mem_append, not_or] at hnn
  have hdisj := disjoint_of_nodup_append hnd'
  have hnew : ∀ g ∈ n :: (used ++ usedc), ∀ lv, ¬ UserTable m₀ pgt lv g := fun g hg =>
    hfresh.new g (by rw [hpool]; exact mem_append_left _ hg)
  have hnl := hnew n mem_cons_self 0
  -- the call changes no page that was new before, and the write only the entry of `n`
  have hrn : r.2.mem n = t.mem n := hc.grows.frame n hnn.2 hnl
  have hmem : (r.2.put wn i (flag (r.2.get wn i) + addr r.1)).mem = setAt r.2.mem n i (flag (m₀ f i) + 4096 * c) := by
    show setAt r.2.mem (r.2.win wn) i (flag (r.2.mem (r.2.win wn) i) + addr r.1) = _
    rw [hwn, hrn, h.todo i le_rfl, hc.page]
    congr 2
    unfold addr
    omega
  have hput : ∀ g, g ≠ n → ∀ j, setAt r.2.mem n i (flag (m₀ f i) + 4096 * c) g j = r.2.mem g j := fun g hg j =>
    setAt_of_ne fun hx => hg hx.1
  have hgrows : Grows m₀ pgt s r.2 (n :: (used ++ usedc)) := h.grows.trans hc.grows
  refine ⟨hgrows.put mem_cons_self hnl hwn i _, ?_, fun j hj => ?_, fun j hj hj0 => ?_, fun j hj => ?_⟩
  · rw [length_append, h.length, hc.length, pagesBefore_succ, if_neg h0]
  · rw [hmem]
    rcases Nat.lt_succ_iff_lt_or_eq.1 hj with hj | rfl
    · refine (h.done j hj).mono (fun g hg => mem_append_left _ hg) (fun g hg k _ => ?_) ?_
      · rw [hput g (fun he => hnn.1 (he ▸ hg)), hc.grows.frame g (fun hx => hdisj hg hx)
          (hnew g (by simp [hg]) 0)]
      · rw [setAt_of_ne (fun hx => by omega), hrn]
    · refine ⟨fun hz => absurd hz h0, fun _ => ⟨c, setAt_self, ?_⟩⟩
      exact hc.copy.mono (fun g hg => mem_append_right _ hg) fun g hg k _ => hput g (fun he => hnn.2 (he ▸ hg)) k
  · rw [hmem]
    have hlast : ∀ g, UserTable m₀ pgt 0 g → ∀ k, setAt r.2.mem n i (flag (m₀ f i) + 4096 * c) g k = r.2.mem g k :=
      fun g hg => hput g fun he => hnl (he ▸ hg)
    have hjlim : j < limit (lv + 1) := by omega
    have hsub := htab.sub hjlim ((hok.entry _ f j htab hjlim).resolve_left hj0)
    rcases Nat.lt_succ_iff_lt_or_eq.1 hj with hj | rfl
    · exact (h.cleared j hj hj0).mono hok (fun g hg k => by rw [hlast g hg k]; exact hc.grows.last g hg k) hsub
    · exact hc.cleared.mono hok (fun g hg k => Or.inl (hlast g hg k)) hsub
  · rw [hmem, setAt_of_ne (fun hx => by omega), hrn]
    exact h.todo j (by omega)

theorem closePages_mem {o : Opened} (hwn : s.win o.wn = n) (hnpg : o.npg = 4096 * n) (lv : Nat) :
    (closePages lv o s).2.mem = if lv = 3 then setAt s.mem n 511 (addr (4096 * n) + 3) else s.mem := by
  show (if lv = 3 then s.put o.wn 511 (addr o.npg + 3) else s).mem = _
  split
  · rw [Pv.put, hwn, hnpg]
  · rfl

theorem closePages_pool (lv : Nat) (o : Opened) : (closePages lv o s).2.pool = s.pool := by
  show (if lv = 3 then s.put o.wn 511 (addr o.npg + 3) else s).pool = _
  split <;> rfl

/-- **One call of `_copy_pgt`.** -/
theorem copyTable_spec (hok : UserOk m₀ pgt) : ∀ {lv pg f : Nat} {s : Pv} {r : Nat × Pv}, frame (addr pg + 3) = f →
    UserTable m₀ pgt lv f → Old m₀ pgt s.mem → FreshPool m₀ pgt s.pool → tables m₀ lv f ≤ s.pool.length →
    copyTable (lv + 1) pg s = some r → ∃ n used, Copied m₀ pgt lv f s r n used
  | 0, pg, f, s, r, hf, htab, hold, hfresh, hlen, hr => copyTable_last hok hf htab hold hfresh hlen hr
  | lv + 1, pg, f, s, r, hf, htab, hold, hfresh, hlen, hr => by
    obtain ⟨o, ho, hr⟩ := Option.bind_eq_some_iff.1 hr
    obtain ⟨s', hs', rfl⟩ := Option.map_eq_some_iff.1 hr
    have hlen' : 1 + pagesBefore m₀ lv f (limit (lv + 1)) ≤ s.pool.length := hlen
    obtain ⟨n, rest, hpool⟩ := exists_cons_of_length_pos (show 0 < s.pool.length by omega)
    have hn : n ∈ s.pool := by simp [hpool]
    have hne : f ≠ n := fun h => hfresh.new n hn _ (h ▸ htab)
    have hopen := openPages_spec ho
    obtain ⟨hnpg, hrest, hw, hwn, hcopy, hframe⟩ := hopen.start hpool (hfresh.lt n hn) hf
    have hstart : Rounds m₀ pgt lv f n s 0 o.s [] := by
      refine ⟨⟨by rw [hpool, hrest]; rfl, fun g hg _ => hframe g (by simpa using hg), fun g hg i => ?_⟩, rfl, by simp,
        by simp, fun j _ => ?_⟩
      · rw [hframe g fun h => hfresh.new n hn 0 (h ▸ hg)]
        exact Or.inl rfl
      · rw [hcopy, hold.upper lv f htab]
    have hinv := run_range_inv (I := fun i t => SameWindows o.s t ∧ ∃ used, Rounds m₀ pgt lv f n s i t used)
      (limit (lv + 1)) ?_ ⟨SameWindows.refl _, [], hstart⟩ hs'
    · obtain ⟨hwins, used, hend⟩ := hinv
      have hwn' : s'.win o.wn = n := (hwins.win _ hopen.taken.2).trans hwn
      have hnl : ¬ UserTable m₀ pgt 0 n := hfresh.new n hn 0
      have hclose := closePages_mem hwn' hnpg (lv + 1)
      have hmem : ∀ g i, g ≠ n ∨ i < limit (lv + 1) → (closePages (lv + 1) o s').2.mem g i = s'.mem g i := by
        intro g i hgi
        rw [hclose]
        split
        · next h3 =>
          unfold limit at hgi
          rw [if_pos h3] at hgi
          exact setAt_of_ne (by omega)
        · rfl
      have hlast : ∀ g, UserTable m₀ pgt 0 g → ∀ i, (closePages (lv + 1) o s').2.mem g i = s'.mem g i :=
        fun g hg i => hmem g i (Or.inl fun he => hnl (he ▸ hg))
      have hnu : n ∉ used := by
        have hnd := (hend.grows.pool ▸ hfresh.nodup).of_append_left
        exact (nodup_cons.1 hnd).1
      refine ⟨n, n :: used, ⟨hnpg, ?_, ?_, ⟨mem_cons_self, fun i hi => ?_⟩, fun i hi h0 => ?_, fun h3 => ?_⟩⟩
      · by_cases h3 : lv + 1 = 3
        · refine (hend.grows.put mem_cons_self hnl hwn' 511 (addr (4096 * n) + 3)).congr (closePages_pool _ _) ?_
          rw [hclose, if_pos h3, Pv.put, hwn']
        · exact hend.grows.congr (closePages_pool _ _) (by rw [hclose, if_neg h3])
      · rw [length_cons, hend.length, Nat.add_comm]
        rfl
      · refine EntryCopy.mono (fun g hg => mem_cons_of_mem n hg) (fun g hg k _ => ?_) (hmem n i (Or.inr hi))
          (hend.done i hi)
        exact hmem g k (Or.inl fun he => hnu (he ▸ hg))
      · exact (hend.cleared i hi h0).mono hok (fun g hg k => Or.inl (hlast g hg k))
          (htab.sub hi ((hok.entry _ f i htab hi).resolve_left h0))
      rw [hclose, if_pos h3]
      refine ⟨fun i hi h511 => ?_, setAt_self⟩
      rw [setAt_of_ne (fun hx => h511 hx.2)]
      refine hend.todo i ?_
      unfold limit
      rw [if_pos h3]
      exact hi
    · rintro i hi t t' ⟨hwins, used, hrounds⟩ hstep
      have hwn' : t.win o.wn = n := (hwins.win _ hopen.taken.2).trans hwn
      have hget : t.get o.wn i = m₀ f i := by rw [Pv.get, hwn', hrounds.todo i le_rfl]
      unfold copyEntry at hstep
      rw [hget] at hstep
      by_cases h0 : m₀ f i = 0
      · rw [if_pos h0] at hstep
        obtain rfl := Option.some.inj hstep
        exact ⟨hwins, used, hrounds.skip h0⟩
      rw [if_neg h0, if_neg (by simp)] at hstep
      obtain ⟨r, hr, rfl⟩ := Option.map_eq_some_iff.1 hstep
      have hnew : ∀ g ∈ n :: used, ∀ lv, ¬ UserTable m₀ pgt lv g := fun g hg =>
        hfresh.new g (by rw [hrounds.grows.pool]; exact mem_append_left _ hg)
      have hfresh' : FreshPool m₀ pgt t.pool := (hrounds.grows.pool ▸ hfresh).drop
      have hroom : tables m₀ lv (frame (m₀ f i)) ≤ t.pool.length := by
        have hmono := pagesBefore_mono m₀ lv f (show i + 1 ≤ limit (lv + 1) by omega)
        have hp := congrArg List.length hrounds.grows.pool
        rw [pagesBefore_succ, if_neg h0, ← hrounds.length] at hmono
        simp only [length_append, length_cons] at hp
        omega
      have hsub := htab.sub hi ((hok.entry _ f i htab hi).resolve_left h0)
      obtain ⟨c, usedc, hc⟩ := copyTable_spec hok (frame_addr _) hsub (hold.grows hok hrounds.grows hnew)
        hfresh' hroom hr
      have hwr := copyTable_windows hr
      have hwn'' : r.2.win o.wn = n := (hwr.win _ (by rw [hwins.map]; exact hopen.taken.2)).trans hwn'
      exact ⟨(hwins.trans hwr).trans (sameWindows_put ..), used ++ usedc,
        hrounds.copied hok hfresh htab hi h0 hc hwn''⟩

/-! ## The page tables as the processor reads them -/

/-- The flags of the upper entries and the last entry for `va`, if all of them are present. -/
def pageEntry (m : Mem) : Nat → Nat → Nat → Option (List Nat × Nat)
  | 0, f, va => if present (m f (idx va 0)) then some ([], m f (idx va 0)) else none
  | lv + 1, f, va =>
    if present (m f (idx va (lv + 1))) then
      (pageEntry m lv (frame (m f (idx va (lv + 1)))) va).map fun r => (flag (m f (idx va (lv + 1))) :: r.1, r.2)
    else none

/-- The same entries with the last one not writable. -/
def readOnly (r : List Nat × Nat) : List Nat × Nat := (r.1, clearRw r.2)

theorem idx_lt_limit (hva : va < 2 ^ 47) (lv : Nat) : idx va lv < limit lv := by
  unfold limit
  split
  · next h =>
    subst h
    unfold idx
    omega
  · exact idx_lt va lv

/-- An entry of a copied table: both are zero, or both are present and the copy goes on behind them. -/
theorem CopyOf.entry (hok : UserOk m₀ pgt) (hlt : ∀ n ∈ used, n < 2 ^ 40) (htab : UserTable m₀ pgt (lv + 1) f)
    (hi : i < limit (lv + 1)) (h : CopyOf m₀ m used (lv + 1) f n) :
    (m₀ f i = 0 ∧ m n i = 0) ∨ (present (m₀ f i) = true ∧ UserTable m₀ pgt lv (frame (m₀ f i)) ∧
    present (m n i) = true ∧
      flag (m n i) = flag (m₀ f i) ∧ large (m n i) = large (m₀ f i) ∧
      CopyOf m₀ m used lv (frame (m₀ f i)) (frame (m n i))) := by
  by_cases h0 : m₀ f i = 0
  · exact Or.inl ⟨h0, (h.2 i hi).1 h0⟩
  obtain ⟨c, hc, hcopy⟩ := (h.2 i hi).2 h0
  have hp := (hok.entry _ f i htab hi).resolve_left h0
  have hcu : c ∈ used := by cases lv <;> exact hcopy.1
  obtain ⟨hframe, hpres, hflag, hlarge⟩ := entry_page (e := m₀ f i) (hlt c hcu)
  rw [hc, hframe, hpres, hflag, hlarge]
  exact Or.inr ⟨hp, htab.sub hi hp, hp, rfl, rfl, hcopy⟩

theorem present_zero : present 0 = false := rfl

theorem CopyOf.pageEntry (hok : UserOk m₀ pgt) (hlt : ∀ n ∈ used, n < 2 ^ 40) (hva : va < 2 ^ 47) :
    ∀ {lv f n : Nat}, UserTable m₀ pgt lv f → CopyOf m₀ m used lv f n →
      pageEntry m lv n va = (pageEntry m₀ lv f va).map readOnly
  | 0, f, n, _, h => by
    have he := h.2 (idx va 0) (idx_lt va 0)
    simp only [Vmap.pageEntry, he, present_clearRw]
    split <;> rfl
  | lv + 1, f, n, htab, h => by
    simp only [Vmap.pageEntry]
    rcases h.entry hok hlt htab (idx_lt_limit hva (lv + 1)) with ⟨h0, hn⟩ | ⟨hp, hsub, hpn, hflag, -, hcopy⟩
    · simp [h0, hn, present_zero]
    · rw [if_pos hp, if_pos hpn, hcopy.pageEntry hok hlt hva hsub, hflag, Option.map_map, Option.map_map]
      rfl

/-- The copy translates as the original did. -/
theorem CopyOf.mmuWalk (hok : UserOk m₀ pgt) (hlt : ∀ n ∈ used, n < 2 ^ 40) (hva : va < 2 ^ 47) :
    ∀ {lv f n : Nat}, UserTable m₀ pgt lv f → lv ≤ 3 → CopyOf m₀ m used lv f n →
      mmuWalk m lv n va = mmuWalk m₀ lv f va
  | 0, f, n, _, _, h => by simp only [Vmap.mmuWalk, h.2 (idx va 0) (idx_lt va 0), present_clearRw, frame_clearRw]
  | lv + 1, f, n, htab, hlv, h => by
    have hi := idx_lt_limit hva (lv + 1)
    simp only [Vmap.mmuWalk]
    rcases h.entry hok hlt htab hi with ⟨h0, hn⟩ | ⟨hp, hsub, hpn, -, hlarge, hcopy⟩
    · simp [h0, hn, present_zero]
    have hsmall : ¬ (lv + 1 ≠ 3 ∧ large (m₀ f (idx va (lv + 1))) = true) := by
      rintro ⟨h3, hl⟩
      rw [hok.small lv f _ htab (by omega) hi] at hl
      cases hl
    rw [if_pos hp, if_pos hpn, hlarge, if_neg hsmall, if_neg hsmall]
    exact hcopy.mmuWalk hok hlt hva hsub (by omega)

section Kept

variable (hold : Old m₀ pgt m)
include hold

theorem Old.pageEntry (hva : va < 2 ^ 47) : ∀ {lv f : Nat}, UserTable m₀ pgt lv f → Cleared m₀ m lv f →
    pageEntry m lv f va = (pageEntry m₀ lv f va).map readOnly
  | 0, f, _, h => by
    simp only [Vmap.pageEntry, h (idx va 0) (idx_lt va 0), present_clearRw]
    split <;> rfl
  | lv + 1, f, htab, h => by
    have hi := idx_lt_limit hva (lv + 1)
    simp only [Vmap.pageEntry, hold.upper lv f htab]
    split
    · next hp =>
      rw [Old.pageEntry hva (htab.sub hi hp) (h _ hi (ne_zero_of_present hp)), Option.map_map, Option.map_map]
      rfl
    · rfl

/-- The original translates as before. -/
theorem Old.mmuWalk (hva : va < 2 ^ 47) : ∀ {lv f : Nat}, UserTable m₀ pgt lv f →
    mmuWalk m lv f va = mmuWalk m₀ lv f va
  | 0, f, htab => by
    rcases hold.last f htab (idx va 0) with he | he
    · simp only [Vmap.mmuWalk, he]
    · simp only [Vmap.mmuWalk, he, present_clearRw, frame_clearRw]
  | lv + 1, f, htab => by
    simp only [Vmap.mmuWalk, hold.upper lv f htab]
    split
    · next hp =>
      split
      · rfl
      · exact Old.mmuWalk hva (htab.sub (idx_lt_limit hva _) hp)
    · rfl

theorem Old.userTable (h : UserTable m pgt lv f) : UserTable m₀ pgt lv f := by
  induction h with
  | top => exact .top
  | @sub lv f i _ hi hp ih =>
    rw [hold.upper lv f ih] at hp ⊢
    exact ih.sub hi hp

end Kept

theorem CopyOf.userTable (hok : UserOk m₀ pgt) (hlt : ∀ n ∈ used, n < 2 ^ 40) {top : Nat}
    (h : CopyOf m₀ m used 3 pgt top) {g : Nat} (hg : UserTable m top lv g) :
    ∃ f, UserTable m₀ pgt lv f ∧ CopyOf m₀ m used lv f g := by
  induction hg with
  | top => exact ⟨pgt, .top, h⟩
  | @sub lv g i _ hi hp ih =>
    obtain ⟨f, htab, hcopy⟩ := ih
    rcases hcopy.entry hok hlt htab hi with ⟨-, h0⟩ | ⟨-, hsub, -, -, -, hc⟩
    · exact absurd h0 (ne_zero_of_present hp)
    · exact ⟨_, hsub, hc⟩

/-- The page table `n` is a copy of `pgt` for another process, and both are protected against writes. -/
structure Forked (m m' : Mem) (pgt n : Nat) : Prop where
  copied : ∀ va < 2 ^ 47, pageEntry m' 3 n va = (pageEntry m 3 pgt va).map readOnly
  kept : ∀ va < 2 ^ 47, pageEntry m' 3 pgt va = (pageEntry m 3 pgt va).map readOnly
  frames : ∀ va < 2 ^ 47, mmu m' n va = mmu m pgt va ∧ mmu m' pgt va = mmu m pgt va
  locked : ∀ va < 2 ^ 47, ∀ r, r ∈ pageEntry m' 3 n va ∨ r ∈ pageEntry m' 3 pgt va → r.2 / 2 % 2 = 0
  apart : ∀ lv lv' f, UserTable m' n lv f → ¬ UserTable m' pgt lv' f
  kernel : ∀ i, 256 ≤ i → i < 511 → m' n i = m' pgt i
  self : present (m' n 511) = true ∧ frame (m' n 511) = n

theorem readOnly_locked {o : Option (List Nat × Nat)} {r : List Nat × Nat} (h : r ∈ o.map readOnly) :
    r.2 / 2 % 2 = 0 := by
  obtain ⟨r', -, rfl⟩ := Option.map_eq_some_iff.1 h
  show clearRw r'.2 / 2 % 2 = 0
  unfold clearRw
  split <;> omega

/-- **The page table after `copy_pgt`**; with eight free windows the call returns. -/
theorem copyPgt_spec (s : Pv) (pgt : Nat) (hpgt : pgt < 2 ^ 40) (hok : UserOk s.mem pgt)
    (hfresh : FreshPool s.mem pgt s.pool) (hlen : tables s.mem 3 pgt ≤ s.pool.length) :
    (8 ≤ (freeWindows s.map).card → ∃ r, copyPgt (4096 * pgt) s = some r) ∧
      ∀ ret s', copyPgt (4096 * pgt) s = some (ret, s') → ∃ n, ret = 4096 * n ∧ Forked s.mem s'.mem pgt n := by
  refine ⟨fun h8 => copyTable_total 4 _ s h8 (by omega), fun ret s' hr => ?_⟩
  have hold : Old s.mem pgt s.mem := ⟨fun _ _ _ => rfl, fun _ _ _ => Or.inl rfl⟩
  obtain ⟨n, used, hc⟩ := copyTable_spec hok (frame_page hpgt) .top hold hfresh hlen hr
  have hmem : ∀ g ∈ used, g ∈ s.pool := fun g hg => by
    rw [hc.grows.pool]
    exact mem_append_left _ hg
  have hlt : ∀ g ∈ used, g < 2 ^ 40 := fun g hg => hfresh.lt g (hmem g hg)
  have hold' : Old s.mem pgt s'.mem := hold.grows hok hc.grows fun g hg => hfresh.new g (hmem g hg)
  have hcopied : ∀ va < 2 ^ 47, pageEntry s'.mem 3 n va = (pageEntry s.mem 3 pgt va).map readOnly := fun va hva =>
    hc.copy.pageEntry hok hlt hva .top
  have hkept : ∀ va < 2 ^ 47, pageEntry s'.mem 3 pgt va = (pageEntry s.mem 3 pgt va).map readOnly := fun va hva =>
    hold'.pageEntry hva .top hc.cleared
  obtain ⟨hkernel, hself⟩ := hc.kernel rfl
  refine ⟨n, hc.page, hcopied, hkept, fun va hva => ⟨?_, ?_⟩, fun va hva r hr => ?_, fun lv lv' f hf hf' => ?_,
    fun i hi hi' => ?_, ?_⟩
  · exact hc.copy.mmuWalk hok hlt hva .top le_rfl
  · exact hold'.mmuWalk hva .top
  · rw [hcopied va hva, hkept va hva, or_self] at hr
    exact readOnly_locked hr
  · obtain ⟨g, -, hg⟩ := hc.copy.userTable hok hlt hf
    have hfu : f ∈ used := by cases lv <;> exact hg.1
    exact hfresh.new f (hmem f hfu) lv' (hold'.userTable hf')
  · rw [hold'.upper 2 pgt .top]
    exact hkernel i hi (by omega)
  have hlink := link_entry (hlt n hc.copy.1)
  rw [show s'.mem n 511 = _ from hself]
  exact child_eq_some.1 hlink.1

/-- A page table in frame 1 that maps the page at 0 to frame 9, writable, through the tables 2, 3 and 4. -/
def onePage : Pv where
  mem f i :=
    if i = 0 then if f = 4 then 9 * 4096 + 7 else if 1 ≤ f ∧ f ≤ 3 then (f + 1) * 4096 + 7 else 0
    else if f = 1 ∧ i = 511 then 4096 + 3
    else 0
  pool := [10, 11, 12, 13]
  map _ := false
  win _ := 0

theorem onePage_tables {lv f : Nat} (h : UserTable onePage.mem 1 lv f) : lv ≤ 3 ∧ f + lv = 4 := by
  induction h with
  | top => simp
  | @sub lv f i _ hi hp ih =>
    have hi0 : i = 0 := by
      by_contra hne
      have h511 : ¬ (f = 1 ∧ i = 511) := by
        rintro ⟨rfl, rfl⟩
        obtain rfl : lv = 2 := by omega
        simp [limit] at hi
      simp [onePage, hne, h511, present] at hp
    subst hi0
    have hf : f ≠ 4 ∧ 1 ≤ f ∧ f ≤ 3 := by omega
    simp only [onePage, if_true, if_neg hf.1, if_pos hf.2, frame]
    omega

theorem onePage_ok : UserOk onePage.mem 1 := by
  have hmem : ∀ f i, onePage.mem f i = 0 ∨ present (onePage.mem f i) = true ∧ large (onePage.mem f i) = false := by
    intro f i
    simp only [onePage]
    split
    · split
      · exact Or.inr (by decide)
      split
      · simp only [present, large, beq_iff_eq, beq_eq_false_iff_ne, ne_eq]
        omega
      · exact Or.inl rfl
    split
    · exact Or.inr (by decide)
    · exact Or.inl rfl
  refine ⟨fun lv f i _ _ => (hmem f i).imp_right And.left, fun lv f i _ _ _ => ?_, fun lv lv' f h h' => ?_⟩
  · rcases hmem f i with h0 | h
    · rw [h0]
      rfl
    · exact h.2
  have h1 := onePage_tables h
  have h2 := onePage_tables h'
  omega

theorem onePage_fresh : FreshPool onePage.mem 1 onePage.pool := by
  refine ⟨by decide, by decide, fun n hn lv h => ?_⟩
  have htab := onePage_tables h
  have hn10 : ∀ n ∈ onePage.pool, 10 ≤ n := by decide
  have := hn10 n hn
  omega

theorem onePage_enough : tables onePage.mem 3 1 ≤ onePage.pool.length := by
  have hsum : ∀ lv f, lv ≤ 2 → lv + f = 3 → tables onePage.mem (lv + 1) f = 1 + tables onePage.mem lv (f + 1) := by
    intro lv f hlv hf
    have hfirst : onePage.mem f 0 = (f + 1) * 4096 + 7 := by
      simp only [onePage, if_true, if_neg (show f ≠ 4 by omega), if_pos (show 1 ≤ f ∧ f ≤ 3 by omega)]
    rw [tables, sum_eq_single 0, if_neg (by omega), hfirst, show frame ((f + 1) * 4096 + 7) = f + 1 by
      unfold frame
      omega]
    · intro i hi hi0
      have hlim : lv = 2 → i < 256 := by
        rintro rfl
        simpa [limit] using hi
      refine if_pos ?_
      simp only [onePage, if_neg hi0]
      refine if_neg ?_
      omega
    intro h0
    refine absurd (Finset.mem_range.2 ?_) h0
    unfold limit
    split <;> omega
  rw [hsum 2 1, hsum 1 2, hsum 0 3] <;> decide

/-- The copy of a table with one writable page. -/
theorem copyPgt_spec_onePage : (∃ r, copyPgt (4096 * 1) onePage = some r) ∧ ∀ ret s', copyPgt (4096 * 1) onePage =
    some (ret, s') → ∃ n, ret = 4096 * n ∧ Forked onePage.mem s'.mem 1 n := by
  have h := copyPgt_spec onePage 1 (by decide) onePage_ok onePage_fresh onePage_enough
  exact ⟨h.1 (by simp [freeWindows, onePage]), h.2⟩

end TextOS.Vmap
