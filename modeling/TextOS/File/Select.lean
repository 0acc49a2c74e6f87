import Mathlib

/-!
# Waiting for descriptors: `kernel/file.c`

`select` turns its three sets of descriptors into an array for `poll64` and looks up the answers in it. The entry of
descriptor `i` is stored at index `i`, and `poll64` gets as many entries from the start of the array as there are
descriptors.

- `asked`: the entries of the descriptors that are in a set, without gaps; `reported`: what `poll64` answers for one of
  them;
- **if there are descriptors and they have no gaps, `select` counts the ready pairs and leaves exactly the descriptors
  in its sets that `poll64` reports, and for no other sets does it do so whatever is ready** (`select_poll`); with a gap
  it asks for something else (`select_gap`).

The memory of the arrays comes from `malloc`, which returns `NULL` only for 0 bytes.
-/

namespace TextOS.Select

open List Function

/-! ## The code -/

def EAGAIN : Int := 11
def EBADF : Int := 9
def EINVAL : Int := 22
def ETIME : Int := 62
def MAX_FILE : Int := 32
def FD_SETSIZE : Int := 1024

abbrev Events := BitVec 16

def POLLIN_SET : Events := 0x040 ||| 0x080 ||| 0x001 ||| 0x010 ||| 0x008
def POLLOUT_SET : Events := 0x200 ||| 0x100 ||| 0x004 ||| 0x008
def POLLEX_SET : Events := 0x002

/-- The fields of `struct pollfd` that the caller sets. -/
structure Pollfd where
  fd : Int
  events : Events

/-- `opened` is `fd_verify`, `setup` what `vfs_poll_setup` returns, `block` what `task_block` returns, and `revents`
what has been delivered to the poller of a descriptor in the end. -/
structure World where
  opened : Int → Bool
  opened_neg : ∀ fd < 0, opened fd = false
  setup : Int → Events → Int
  block : Bool → Nat → Int
  revents : Int → Events → Events

/-- The state of `poll64` behind its first loop; `built` entries have been looked at. -/
structure Built where
  ret : Int
  alreadyPrepared : Bool
  built : Nat
  failed : Bool

def buildLoop (W : World) : Built → List Pollfd → Built
  | b, [] => b
  | b, p :: fds =>
    if W.opened p.fd then
      let ret := W.setup p.fd p.events
      if ret < 0 then { b with ret := ret, failed := true }
      else buildLoop W { b with ret := ret, alreadyPrepared := b.alreadyPrepared || decide (ret ≠ 0),
                                built := b.built + 1 } fds
    else buildLoop W { b with built := b.built + 1 } fds

/-- The second loop: what is returned, and the `revents` that are stored. A descriptor that is not open ends it. -/
def collectLoop (W : World) (ret : Int) : Nat → List Pollfd → Int × List Events
  | polled, [] => (if ret < 0 then ret else polled, [])
  | polled, p :: fds =>
    if W.opened p.fd then
      if 0 ≤ ret then
        let revents := W.revents p.fd p.events
        let r := collectLoop W ret (if revents ≠ 0#16 then polled + 1 else polled) fds
        (r.1, revents :: r.2)
      else collectLoop W ret polled fds
    else (-EBADF, [])

/-- Without entries `calloc` returns `NULL`. -/
def poll64 (W : World) (fds : List Pollfd) (inf : Bool) (timeout : Nat) : Int × List Events :=
  if 0 < fds.length then
    let b := buildLoop W ⟨-EAGAIN, false, 0, false⟩ fds
    let ret :=
      if !b.failed && !b.alreadyPrepared && (inf || decide (0 < timeout)) then
        if W.block inf timeout = -ETIME then 0 else W.block inf timeout
      else b.ret
    collectLoop W ret 0 (fds.take b.built)
  else (-EAGAIN, [])

/-- The arguments of `select` that are sets. -/
inductive Kind
  | read
  | write
  | except
deriving DecidableEq

def kinds : List Kind := [.read, .write, .except]

abbrev FdSet := Nat → Bool

/-- The three sets; each may be null. -/
abbrev Sets := Kind → Option FdSet

def expect : Kind → Events
  | .read => POLLIN_SET
  | .write => POLLOUT_SET
  | .except => POLLEX_SET

/-- `fds && FD_ISSET(i, fds)`. -/
def isset (s : Sets) (k : Kind) (i : Nat) : Bool := (s k).any fun f => f i

def events (s : Sets) (i : Nat) : Events :=
  (if isset s .read i then POLLIN_SET else 0) ||| (if isset s .write i then POLLOUT_SET else 0) |||
    (if isset s .except i then POLLEX_SET else 0)

/-- The first loop: the array, of which the start is what `malloc` returns, and `pfds_nfds`. -/
def fill (s : Sets) (junk : Nat → Pollfd) : Nat → (Nat → Pollfd) × Nat
  | 0 => (junk, 0)
  | i + 1 =>
    let r := fill s junk i
    if events s i ≠ 0#16 then (update r.1 i ⟨i, events s i⟩, r.2 + 1) else r

/-- `COLLECT`. -/
def collectKind (fd : Nat) (revents : Events) (acc : Int × Sets) (k : Kind) : Int × Sets :=
  match acc.2 k with
  | none => acc
  | some f =>
    if f fd then
      if revents &&& expect k = 0#16 then (acc.1, update acc.2 k (some (update f fd false)))
      else (acc.1 + 1, acc.2)
    else acc

def collect (acc : Int × Sets) (x : Pollfd × Events) : Int × Sets := kinds.foldl (collectKind x.1.fd.toNat x.2) acc

/-- The time in milliseconds. -/
def millis : Option (Int × Int) → Nat
  | none => 0
  | some (sec, usec) => ((sec * 1000 + (usec + 500) / 1000) % 2 ^ 64).toNat

def select (W : World) (junk : Nat → Pollfd) (nfds : Int) (s : Sets) (timeout : Option (Int × Int)) : Int × Sets :=
  if nfds < 0 ∨ FD_SETSIZE < nfds ∨ MAX_FILE < nfds then (-EINVAL, s)
  else if (s .read).isNone ∧ (s .write).isNone ∧ (s .except).isNone then (0, s)
  else if timeout.any fun t => decide (t.1 < 0 ∨ t.2 < 0) then (-EINVAL, s)
  else if 0 < nfds then
    let pfds := fill s junk nfds.toNat
    let fds := (List.range pfds.2).map pfds.1
    let r := poll64 W fds timeout.isNone (millis timeout)
    if r.1 < 0 then (r.1, s) else (fds.zip r.2).foldl collect (0, s)
  else (-EAGAIN, s)

/-! ## What a poll reports -/

/-- The entries for the descriptors below `n` that are in a set. -/
def asked (s : Sets) (n : Nat) : List Pollfd :=
  ((List.range n).filter fun i => events s i ≠ 0#16).map fun i : Nat => ⟨i, events s i⟩

/-- The answer for a descriptor, of those for the entries. -/
def reported (fds : List Pollfd) (revents : List Events) (i : Nat) : Events :=
  (((fds.zip revents).find? fun x => x.1.fd = (i : Int)).map Prod.snd).getD 0

/-- The descriptors below `n` in a set for which one of its events is reported. -/
def readyPairs (s : Sets) (n : Nat) (report : Nat → Events) : List (Nat × Kind) :=
  (List.range n).flatMap fun i => (kinds.filter fun k => isset s k i && decide (report i &&& expect k ≠ 0#16)).map
  fun k => (i, k)

variable {W : World} {s : Sets} {n : Nat} {fds : List Pollfd} {junk : Nat → Pollfd}

/-- A poll that does not fail reports on every entry. -/
theorem collectLoop_nonneg {ret : Int} : ∀ {polled : Nat} {fds : List Pollfd}, 0 ≤ (collectLoop W ret polled fds).1 →
    (collectLoop W ret polled fds).2 = fds.map (fun p => W.revents p.fd p.events) ∧ 0 ≤ ret ∧ ∀ p ∈ fds,
    W.opened p.fd = true
  | polled, [], h => by
    rw [collectLoop] at h ⊢
    split at h
    · omega
    · exact ⟨rfl, by omega, nofun⟩
  | polled, p :: fds, h => by
    rw [collectLoop] at h ⊢
    split at h
    next hopen =>
      rw [if_pos hopen]
      split at h
      next hret =>
        rw [if_pos hret]
        obtain ⟨ih, -, hall⟩ := collectLoop_nonneg h
        exact ⟨by rw [map_cons, ← ih], hret, forall_mem_cons.2 ⟨hopen, hall⟩⟩
      next hret => exact absurd (collectLoop_nonneg h).2.1 hret
    next => exact absurd h (by decide)

/-- The first pass builds every entry or fails. -/
theorem buildLoop_spec : ∀ (b : Built) (fds : List Pollfd), b.failed = false →
    ((buildLoop W b fds).failed = true ∧ (buildLoop W b fds).ret < 0) ∨
    ((buildLoop W b fds).failed = false ∧ (buildLoop W b fds).built = b.built + fds.length)
  | b, [], h => .inr ⟨h, rfl⟩
  | b, p :: fds, h => by
    rw [buildLoop]
    split
    · dsimp only
      split
      next hneg => exact .inl ⟨rfl, hneg⟩
      next =>
        refine Or.imp_right (fun ⟨hf, hb⟩ => ⟨hf, hb.trans ?_⟩) (buildLoop_spec _ fds h)
        dsimp only
        rw [length_cons]
        omega
    refine Or.imp_right (fun ⟨hf, hb⟩ => ⟨hf, hb.trans ?_⟩) (buildLoop_spec _ fds h)
    dsimp only
    rw [length_cons]
    omega

/-- A poll that succeeds has entries, of which all are open, and an answer for each. -/
theorem poll64_nonneg {inf : Bool} {timeout : Nat} (h : 0 ≤ (poll64 W fds inf timeout).1) :
    (poll64 W fds inf timeout).2 = fds.map (fun p => W.revents p.fd p.events) ∧ ∀ p ∈ fds, W.opened p.fd = true := by
  unfold poll64 at h ⊢
  split at h
  next hroom =>
    rw [if_pos hroom]
    obtain ⟨hrev, hret, hall⟩ := collectLoop_nonneg h
    rcases buildLoop_spec (W := W) ⟨-EAGAIN, false, 0, false⟩ fds rfl with ⟨hf, hneg⟩ | ⟨-, hb⟩
    · rw [hf] at hret
      exact absurd hret (not_le.2 hneg)
    · dsimp only
      rw [hb, Nat.zero_add, take_length] at hrev hall ⊢
      exact ⟨hrev, hall⟩
  next => exact absurd h (by decide)

/-! ## The array -/

theorem events_eq_zero {i : Nat} : events s i = 0#16 ↔ ∀ k, isset s k i = false := by
  have hall : ∀ a b c : Bool, ((if a then POLLIN_SET else 0) ||| (if b then POLLOUT_SET else 0) |||
      (if c then POLLEX_SET else 0)) = 0#16 ↔ a = false ∧ b = false ∧ c = false := by decide
  rw [events, hall]
  constructor
  · rintro ⟨hr, hw, he⟩ (_ | _ | _)
    · exact hr
    · exact hw
    · exact he
  · exact fun h => ⟨h .read, h .write, h .except⟩

/-- The array after filling: an entry where something is asked, the old content elsewhere. -/
theorem fill_spec (s : Sets) (junk : Nat → Pollfd) (n : Nat) :
    (∀ i, (fill s junk n).1 i = if i < n ∧ events s i ≠ 0#16 then ⟨i, events s i⟩ else junk i) ∧
    (fill s junk n).2 = ((List.range n).filter fun i => events s i ≠ 0#16).length := by
  induction n with
  | zero => exact ⟨fun i => by simp [fill], rfl⟩
  | succ n ih =>
    rw [fill, range_succ, filter_append, length_append]
    by_cases hev : events s n ≠ 0#16
    · rw [if_pos hev]
      refine ⟨fun i => ?_, by simp [ih.2, hev]⟩
      dsimp only
      by_cases hi : i = n
      · subst hi
        simp [hev]
      · rw [update_of_ne hi, ih.1]
        exact if_congr (and_congr_left fun _ => by omega) rfl rfl
    rw [if_neg hev]
    refine ⟨fun i => ?_, by simp [ih.2, not_not.1 hev]⟩
    rw [ih.1]
    refine if_congr ⟨fun h => ⟨by omega, h.2⟩, fun h => ⟨?_, h.2⟩⟩ rfl rfl
    rcases Nat.lt_succ_iff_lt_or_eq.1 h.1 with hi | rfl
    · exact hi
    · exact absurd h.2 hev

/-- The descriptors below `n` that are in a set are the first ones. -/
def Dense (s : Sets) (n : Nat) : Prop := ∀ i < n, events s i = 0#16 → ∀ j < n, i ≤ j → events s j = 0#16

/-- Without a gap the asked descriptors are the first ones. -/
theorem Dense.filter_eq (h : Dense s n) : ∃ m ≤ n, ((List.range n).filter fun i => events s i ≠ 0#16) = List.range m ∧
    ∀ i < n, events s i ≠ 0#16 ↔ i < m := by
  induction n with
  | zero => exact ⟨0, le_rfl, rfl, nofun⟩
  | succ n ih =>
    obtain ⟨m, hm, heq, hiff⟩ := ih fun i hi h0 j hj => h i (by omega) h0 j (by omega)
    rw [range_succ, filter_append, heq]
    by_cases hev : events s n ≠ 0#16
    · have hmn : m = n := by
        by_contra hne
        have hm0 : events s m = 0#16 := not_not.1 fun h0 => absurd ((hiff m (by omega)).1 h0) (lt_irrefl m)
        exact hev (h m (by omega) hm0 n (by omega) (by omega))
      subst hmn
      refine ⟨m + 1, le_rfl, by simpa [range_succ] using hev, fun i hi => ⟨fun _ => hi, fun _ => ?_⟩⟩
      rcases Nat.lt_succ_iff_lt_or_eq.1 hi with hi | rfl
      · exact (hiff i hi).2 hi
      · exact hev
    · refine ⟨m, by omega, by simp [not_not.1 hev], fun i hi => ?_⟩
      rcases Nat.lt_succ_iff_lt_or_eq.1 hi with hi | rfl
      · exact hiff i hi
      · exact ⟨fun h0 => absurd h0 hev, fun h0 => absurd h0 (by omega)⟩

theorem Dense.fill_eq (h : Dense s n) (junk : Nat → Pollfd) :
    (List.range (fill s junk n).2).map (fill s junk n).1 = asked s n := by
  obtain ⟨m, hm, heq, hiff⟩ := h.filter_eq
  obtain ⟨hat, hlen⟩ := fill_spec s junk n
  rw [hlen, asked, heq, length_range]
  refine map_congr_left fun i hi => ?_
  have him := mem_range.1 hi
  rw [hat, if_pos ⟨by omega, (hiff i (by omega)).2 him⟩]

/-! ## The answers -/

/-- One kind of one descriptor: it is counted, or its bit is cleared. -/
theorem collectKind_spec (fd : Nat) (rev : Events) (acc : Int × Sets) (k : Kind) :
    (collectKind fd rev acc k).1 = acc.1 + (if isset acc.2 k fd && decide (rev &&& expect k ≠ 0#16) then 1 else 0) ∧
    ∀ k' i, isset (collectKind fd rev acc k).2 k' i =
      (isset acc.2 k' i && !(decide (k' = k) && decide (i = fd) && decide (rev &&& expect k' = 0#16))) := by
  unfold collectKind
  cases hk : acc.2 k with
  | none =>
    refine ⟨by simp [isset, hk], fun k' i => ?_⟩
    by_cases hkk : k' = k
    · subst hkk
      simp [isset, hk]
    · simp [hkk]
  | some f =>
    dsimp only
    have hset : ∀ i, isset acc.2 k i = f i := fun i => by rw [isset, hk, Option.any_some]
    by_cases hf : f fd = true
    · rw [if_pos hf]
      by_cases hrev : rev &&& expect k = 0#16
      · rw [if_pos hrev]
        refine ⟨by simp [hrev], fun k' i => ?_⟩
        dsimp only
        by_cases hkk : k' = k
        · subst hkk
          rw [hset, isset, update_self, Option.any_some]
          by_cases hi : i = fd
          · simp [hi, hrev]
          · simp [hi]
        · simp [hkk, isset]
      · rw [if_neg hrev]
        refine ⟨by simp [hset, hf, hrev], fun k' i => ?_⟩
        by_cases hkk : k' = k
        · subst hkk
          simp [hrev]
        · simp [hkk]
    · rw [if_neg hf]
      refine ⟨by simp [hset, hf], fun k' i => ?_⟩
      by_cases hkk : k' = k
      · subst hkk
        by_cases hi : i = fd
        · subst hi
          simp [hset, hf]
        · simp [hi]
      · simp [hkk]

/-- The kinds for which an answer counts. -/
def counted (s : Sets) (fd : Nat) (rev : Events) : List Kind → List Kind :=
  List.filter fun k => isset s k fd && decide (rev &&& expect k ≠ 0#16)

/-- The three kinds of one descriptor. -/
theorem foldl_collectKind (fd : Nat) (rev : Events) : ∀ (ks : List Kind), ks.Nodup → ∀ acc : Int × Sets,
    (ks.foldl (collectKind fd rev) acc).1 = acc.1 + (counted acc.2 fd rev ks).length ∧
    ∀ k i, isset (ks.foldl (collectKind fd rev) acc).2 k i =
      (isset acc.2 k i && !(decide (k ∈ ks) && decide (i = fd) && decide (rev &&& expect k = 0#16)))
  | [], _, acc => ⟨by simp [counted], fun k i => by simp⟩
  | k0 :: ks, hnd, acc => by
    obtain ⟨hk0, hnd⟩ := nodup_cons.1 hnd
    obtain ⟨hone, hset⟩ := collectKind_spec fd rev acc k0
    obtain ⟨hih, hihset⟩ := foldl_collectKind fd rev ks hnd (collectKind fd rev acc k0)
    rw [foldl_cons]
    refine ⟨?_, fun k i => ?_⟩
    · have hsame : counted (collectKind fd rev acc k0).2 fd rev ks = counted acc.2 fd rev ks := by
        refine filter_congr fun k hk => ?_
        have hne : k ≠ k0 := fun he => hk0 (he ▸ hk)
        rw [hset]
        simp [hne]
      rw [hih, hone, hsame, counted, filter_cons]
      split
      · rw [length_cons]
        push_cast
        ring
      · simp
    · rw [hihset, hset]
      by_cases hk : k = k0
      · subst hk
        simp [hk0]
      · simp [hk]

/-- All descriptors, each once. -/
theorem foldl_collect : ∀ (xs : List (Pollfd × Events)), (xs.map fun x => x.1.fd.toNat).Nodup → ∀ acc : Int × Sets,
    (xs.foldl collect acc).1 = acc.1 + (xs.map fun x => (counted acc.2 x.1.fd.toNat x.2 kinds).length).sum ∧
    ∀ k i, isset (xs.foldl collect acc).2 k i =
      (isset acc.2 k i && xs.all fun x => !(decide (i = x.1.fd.toNat) && decide (x.2 &&& expect k = 0#16)))
  | [], _, acc => ⟨by simp, fun k i => by simp⟩
  | x :: xs, hnd, acc => by
    rw [map_cons, nodup_cons] at hnd
    obtain ⟨hone, hset⟩ := foldl_collectKind x.1.fd.toNat x.2 kinds (by decide) acc
    have hmem : ∀ k, k ∈ kinds := by
      intro k
      cases k <;> simp [kinds]
    obtain ⟨hih, hihset⟩ := foldl_collect xs hnd.2 (collect acc x)
    rw [foldl_cons]
    refine ⟨?_, fun k i => ?_⟩
    · have hsame : ∀ y ∈ xs, counted (collect acc x).2 y.1.fd.toNat y.2 kinds = counted acc.2 y.1.fd.toNat
        y.2 kinds := by
        intro y hy
        refine filter_congr fun k _ => ?_
        have hne : y.1.fd.toNat ≠ x.1.fd.toNat := fun he => hnd.1 (he ▸ mem_map_of_mem hy)
        rw [collect, hset]
        simp [hne]
      rw [hih, collect, hone, ← collect, map_congr_left fun y hy => congrArg List.length (hsame y hy), map_cons,
        sum_cons]
      push_cast
      ring
    · rw [hihset, collect, hset, all_cons, Bool.and_assoc]
      simp [hmem]

theorem reported_asked (rev : Int → Events → Events) (i : Nat) :
    reported (asked s n) ((asked s n).map fun p => rev p.fd p.events) i =
      if i < n ∧ events s i ≠ 0#16 then rev i (events s i) else 0 := by
  rw [reported, ← map_prod_left_eq_zip, asked, map_map, find?_map]
  cases hf : ((List.range n).filter fun i => events s i ≠ 0#16).find? _ with
  | none =>
    rw [if_neg]
    · rfl
    rintro ⟨hi, hev⟩
    have := find?_eq_none.1 hf i (mem_filter.2 ⟨mem_range.2 hi, by simpa using hev⟩)
    simp at this
  | some j =>
    have hj : j = i := by simpa using find?_some hf
    have hmem := mem_filter.1 (mem_of_find?_eq_some hf)
    subst hj
    rw [if_pos ⟨mem_range.1 hmem.1, by simpa using hmem.2⟩]
    rfl

theorem length_readyPairs (s : Sets) (n : Nat) (report : Nat → Events) :
    (readyPairs s n report).length = ((List.range n).map fun i => (counted s i (report i) kinds).length).sum := by
  simp [readyPairs, counted, length_flatMap]

/-! ## The call -/

/-- `select` fails as the poll for its descriptors does; otherwise it returns the number of pairs of a descriptor and a
set for which an event is reported, and leaves in each set exactly those descriptors below `nfds`. Of no descriptors,
nothing is reported. -/
structure Agrees (W : World) (junk : Nat → Pollfd) (nfds : Int) (s : Sets) (timeout : Option (Int × Int)) : Prop where
  fails : asked s nfds.toNat ≠ [] → (poll64 W (asked s nfds.toNat) timeout.isNone (millis timeout)).1 < 0 →
    select W junk nfds s timeout = ((poll64 W (asked s nfds.toNat) timeout.isNone (millis timeout)).1, s)
  count : asked s nfds.toNat = [] ∨ 0 ≤ (poll64 W (asked s nfds.toNat) timeout.isNone (millis timeout)).1 →
    (select W junk nfds s timeout).1 = (readyPairs s nfds.toNat (reported (asked s nfds.toNat)
      (poll64 W (asked s nfds.toNat) timeout.isNone (millis timeout)).2)).length
  sets : asked s nfds.toNat = [] ∨ 0 ≤ (poll64 W (asked s nfds.toNat) timeout.isNone (millis timeout)).1 →
    ∀ k i, isset (select W junk nfds s timeout).2 k i = (isset s k i && (decide (nfds.toNat ≤ i) || decide (reported
      (asked s nfds.toNat) (poll64 W (asked s nfds.toNat) timeout.isNone (millis timeout)).2 i &&& expect k ≠ 0#16)))

variable {nfds : Int} {timeout : Option (Int × Int)}

theorem isNone_iff : ((s .read).isNone ∧ (s .write).isNone ∧ (s .except).isNone) ↔ ∀ k, s k = none := by
  simp only [Option.isNone_iff_eq_none]
  constructor
  · rintro ⟨hr, hw, he⟩ (_ | _ | _)
    · exact hr
    · exact hw
    · exact he
  · exact fun h => ⟨h .read, h .write, h .except⟩

theorem asked_eq_nil : asked s n = [] ↔ ∀ i < n, events s i = 0#16 := by
  simp [asked, filter_eq_nil_iff]

/-- No set is given. -/
theorem agrees_null (W : World) (junk : Nat → Pollfd) (hn : 0 ≤ nfds ∧ nfds ≤ MAX_FILE) (hnull : ∀ k, s k = none) :
    Agrees W junk nfds s timeout := by
  have hrange : ¬ (nfds < 0 ∨ FD_SETSIZE < nfds ∨ MAX_FILE < nfds) := by
    unfold FD_SETSIZE MAX_FILE at *
    omega
  have hc : select W junk nfds s timeout = (0, s) := by
    rw [select, if_neg hrange, if_pos (isNone_iff.2 hnull)]
  have hset : ∀ k i, isset s k i = false := fun k i => by rw [isset, hnull]; rfl
  have hnil : asked s nfds.toNat = [] := asked_eq_nil.2 fun i _ => events_eq_zero.2 fun k => hset k i
  refine ⟨fun h => absurd hnil h, fun _ => ?_, fun _ k i => ?_⟩
  · rw [hc, length_readyPairs]
    simp [counted, hset]
  · rw [hc, hset, Bool.false_and]

/-- What a call does whose arguments are in range. -/
theorem select_eq (W : World) (junk : Nat → Pollfd) (hn : 0 < nfds ∧ nfds ≤ MAX_FILE) (hnull : ¬ ∀ k, s k = none)
    (ht : ∀ t ∈ timeout, 0 ≤ t.1 ∧ 0 ≤ t.2) :
    select W junk nfds s timeout =
      let fds := (List.range (fill s junk nfds.toNat).2).map (fill s junk nfds.toNat).1
      let r := poll64 W fds timeout.isNone (millis timeout)
      if r.1 < 0 then (r.1, s) else (fds.zip r.2).foldl collect (0, s) := by
  have hrange : ¬ (nfds < 0 ∨ FD_SETSIZE < nfds ∨ MAX_FILE < nfds) := by
    unfold FD_SETSIZE MAX_FILE at *
    omega
  have htime : ¬ (timeout.any fun t => decide (t.1 < 0 ∨ t.2 < 0)) = true := by
    rw [Option.any_eq_true]
    rintro ⟨t, rfl, hneg⟩
    have := ht t rfl
    have := of_decide_eq_true hneg
    omega
  rw [select, if_neg hrange, if_neg (isNone_iff.not.2 hnull), if_neg htime, if_pos hn.1]

/-- A call that does not fail has its arguments in range. -/
theorem args_of_nonneg (h : 0 ≤ (select W junk nfds s timeout).1) : (0 ≤ nfds ∧ nfds ≤ MAX_FILE) ∧
    ((∀ k, s k = none) ∨ ((∀ t ∈ timeout, 0 ≤ t.1 ∧ 0 ≤ t.2) ∧ 0 < nfds)) := by
  unfold select at h
  split at h
  next => exact absurd h (show ¬ (0 : Int) ≤ -EINVAL by decide)
  next hrange =>
  refine ⟨by unfold FD_SETSIZE MAX_FILE at *; omega, ?_⟩
  split at h
  next hnull => exact .inl (isNone_iff.1 hnull)
  next =>
  split at h
  next => exact absurd h (show ¬ (0 : Int) ≤ -EINVAL by decide)
  next htime =>
  split at h
  next hpos =>
    refine .inr ⟨fun t ht => ?_, hpos⟩
    by_contra hneg
    exact htime ((Option.any_eq_true _ _).2 ⟨t, ht, decide_eq_true (by omega)⟩)
  next => exact absurd h (show ¬ (0 : Int) ≤ -EAGAIN by decide)

/-- **Without gaps** the entries that are polled are those of the descriptors. -/
theorem agrees_dense (W : World) (junk : Nat → Pollfd) (hn : nfds ≤ MAX_FILE) (ht : ∀ t ∈ timeout, 0 ≤ t.1 ∧ 0 ≤ t.2)
    (hne : asked s nfds.toNat ≠ []) (hdense : Dense s nfds.toNat) : Agrees W junk nfds s timeout := by
  have hpos : 0 < nfds := by
    by_contra hle
    exact hne (by rw [Int.toNat_of_nonpos (not_lt.1 hle)]; rfl)
  have hnull : ¬ ∀ k, s k = none := fun h =>
    hne (asked_eq_nil.2 fun i _ => events_eq_zero.2 fun k => by rw [isset, h]; rfl)
  have hc := select_eq W junk ⟨hpos, hn⟩ hnull ht
  rw [hdense.fill_eq] at hc
  dsimp only at hc
  generalize hn' : nfds.toNat = n at *
  obtain ⟨r, hr⟩ : ∃ r, poll64 W (asked s n) timeout.isNone (millis timeout) = r := ⟨_, rfl⟩
  suffices h : 0 ≤ r.1 → (select W junk nfds s timeout).1 = (readyPairs s n (reported (asked s n) r.2)).length ∧
      ∀ k i, isset (select W junk nfds s timeout).2 k i =
        (isset s k i && (decide (n ≤ i) || decide (reported (asked s n) r.2 i &&& expect k ≠ 0#16))) by
    constructor
    all_goals rw [hn', hr]
    · exact fun _ hneg => by rw [hc, hr, if_pos hneg]
    · exact fun hor => (h (hor.resolve_left hne)).1
    · exact fun hor => (h (hor.resolve_left hne)).2
  intro hpos
  have hrev : r.2 = (asked s n).map fun p => W.revents p.fd p.events := hr ▸ (poll64_nonneg (hr ▸ hpos)).1
  rw [hc, hr, if_neg (not_lt.2 hpos), hrev]
  have hrep := reported_asked (s := s) (n := n) W.revents
  obtain ⟨m, hm, hfilter, hiff⟩ := hdense.filter_eq
  have hzip : (asked s n).zip ((asked s n).map fun p => W.revents p.fd p.events) =
      (List.range m).map fun i : Nat => (⟨i, events s i⟩, W.revents i (events s i)) := by
    rw [← map_prod_left_eq_zip, asked, hfilter, map_map]
    rfl
  rw [hzip]
  obtain ⟨hcount, hset⟩ := foldl_collect ((List.range m).map fun i : Nat => (⟨i, events s i⟩, W.revents i (events s i)))
    (by simpa [Function.comp_def] using nodup_range) (0, s)
  -- a descriptor that is in a set is among the first `m`
  have hbelow : ∀ k i, i < n → isset s k i = true → i < m := by
    intro k i hi hk
    refine (hiff i hi).1 fun h0 => ?_
    rw [events_eq_zero.1 h0 k] at hk
    cases hk
  refine ⟨?_, fun k i => ?_⟩
  · obtain ⟨j, rfl⟩ := Nat.exists_eq_add_of_le hm
    generalize reported (asked s (m + j)) ((asked s (m + j)).map fun p => W.revents p.fd p.events) = report at hrep
    have hfirst : ((List.range m).map fun i => (counted s i (report i) kinds).length) =
        (List.range m).map fun i : Nat => (counted s i (W.revents i (events s i)) kinds).length := by
      refine map_congr_left fun i hi => ?_
      have him := mem_range.1 hi
      rw [hrep, if_pos ⟨by omega, (hiff i (by omega)).2 him⟩]
    have hlast : (((List.range j).map fun i => m + i).map fun i => (counted s i (report i) kinds).length).sum = 0 := by
      refine sum_eq_zero fun x hx => ?_
      rw [map_map] at hx
      obtain ⟨i, hi, rfl⟩ := mem_map.1 hx
      refine length_eq_zero_iff.2 (filter_eq_nil_iff.2 fun k _ hk => ?_)
      have hlt := hbelow k (m + i) (Nat.add_lt_add_left (mem_range.1 hi) m) (Bool.and_eq_true _ _ ▸ hk).1
      omega
    rw [hcount, length_readyPairs, range_add, map_append, sum_append, hlast, hfirst, map_map]
    simp [Function.comp_def]
  · rw [hset, hrep, all_map]
    cases hk : isset s k i with
    | false => rfl
    | true =>
      rw [Bool.true_and, Bool.true_and, Bool.eq_iff_iff, all_eq_true]
      by_cases hi : n ≤ i
      · refine ⟨fun _ => by simp [hi], fun _ j hj => ?_⟩
        have := mem_range.1 hj
        simp [show i ≠ j by omega]
      have him := hbelow k i (not_le.1 hi) hk
      rw [if_pos ⟨not_le.1 hi, (hiff i (not_le.1 hi)).2 him⟩, Bool.or_eq_true, decide_eq_true_eq, decide_eq_true_eq]
      refine ⟨fun h => .inr fun h0 => ?_, fun h j _ => ?_⟩
      · have := h i (mem_range.2 him)
        simp [h0] at this
      have hrev := h.resolve_left hi
      by_cases hij : i = j
      · subst hij
        simp [hrev]
      · simp [hij]

/-! ## A gap -/

/-- Every descriptor is open, and none is ready. -/
def calm : World where
  opened fd := decide (0 ≤ fd)
  opened_neg _ hfd := decide_eq_false (not_le.2 hfd)
  setup _ _ := 0
  block _ _ := 0
  revents _ _ := 0

theorem buildLoop_calm : ∀ (fds : List Pollfd) (k : Nat), (∀ p ∈ fds, 0 ≤ p.fd) →
    buildLoop calm ⟨0, false, k, false⟩ fds = ⟨0, false, k + fds.length, false⟩
  | [], _, _ => rfl
  | p :: fds, k, h => by
    obtain ⟨hp, h⟩ := forall_mem_cons.1 h
    have hopen : calm.opened p.fd = true := decide_eq_true hp
    rw [buildLoop, if_pos hopen, length_cons, Nat.add_comm fds.length, ← Nat.add_assoc]
    exact buildLoop_calm fds (k + 1) h

theorem collectLoop_calm : ∀ (fds : List Pollfd) (polled : Nat), (∀ p ∈ fds, 0 ≤ p.fd) →
    0 ≤ (collectLoop calm 0 polled fds).1
  | [], polled, _ => Int.natCast_nonneg polled
  | p :: fds, polled, h => by
    obtain ⟨hp, h⟩ := forall_mem_cons.1 h
    have hopen : calm.opened p.fd = true := decide_eq_true hp
    rw [collectLoop, if_pos hopen]
    exact collectLoop_calm fds _ h

theorem poll64_calm {inf : Bool} {timeout : Nat} (hne : fds ≠ []) (h : ∀ p ∈ fds, 0 ≤ p.fd) :
    0 ≤ (poll64 calm fds inf timeout).1 := by
  obtain ⟨p, fds, rfl⟩ := exists_cons_of_ne_nil hne
  have hopen : calm.opened p.fd = true := decide_eq_true (forall_mem_cons.1 h).1
  have hb : buildLoop calm ⟨-EAGAIN, false, 0, false⟩ (p :: fds) = ⟨0, false, 1 + fds.length, false⟩ := by
    rw [buildLoop, if_pos hopen]
    exact buildLoop_calm fds 1 (forall_mem_cons.1 h).2
  rw [poll64, if_pos (length_pos_iff.2 hne), hb]
  have hblock : (if calm.block inf timeout = -ETIME then 0 else calm.block inf timeout) = 0 := rfl
  dsimp only
  rw [hblock, ite_self]
  exact collectLoop_calm _ _ fun q hq => h q (mem_of_mem_take hq)

/-- A call that agrees does not fail there. -/
theorem Agrees.nonneg (h : Agrees calm junk nfds s timeout) : 0 ≤ (select calm junk nfds s timeout).1 := by
  have hpoll : asked s nfds.toNat = [] ∨ 0 ≤ (poll64 calm (asked s nfds.toNat) timeout.isNone (millis timeout)).1 := by
    by_cases hne : asked s nfds.toNat = []
    · exact .inl hne
    refine .inr (poll64_calm hne fun p hp => ?_)
    obtain ⟨i, -, rfl⟩ := mem_map.1 hp
    exact Int.natCast_nonneg i
  rw [h.count hpoll]
  exact Int.natCast_nonneg _

/-- With a gap, an entry that has not been written is among those that are polled. -/
theorem exists_junk (h : ¬ Dense s n) (junk : Nat → Pollfd) :
    ∃ i, junk i ∈ (List.range (fill s junk n).2).map (fill s junk n).1 := by
  obtain ⟨hat, hlen⟩ := fill_spec s junk n
  by_contra hno
  push Not at hno
  -- every entry that is polled is one of a descriptor, so there are no gaps
  have hall : ∀ i < (fill s junk n).2, i < n ∧ events s i ≠ 0#16 := by
    intro i hi
    by_contra hev
    refine hno i (mem_map.2 ⟨i, mem_range.2 hi, ?_⟩)
    rw [hat, if_neg hev]
  have hsub : List.range (fill s junk n).2 ⊆ (List.range n).filter fun i => events s i ≠ 0#16 := fun i hi => by
    have := hall i (mem_range.1 hi)
    exact mem_filter.2 ⟨mem_range.2 this.1, by simpa using this.2⟩
  have hperm := (subperm_of_subset nodup_range hsub).perm_of_length_le (by rw [length_range, hlen])
  refine h fun i hi h0 j hj hij => ?_
  by_contra hev
  have hjm := mem_range.1 (hperm.mem_iff.2 (mem_filter.2 ⟨mem_range.2 hj, by simpa using hev⟩))
  exact (hall i (by omega)).2 h0

/-- **`select` agrees with `poll64`**, whatever is open, ready or delivered and whatever the memory of the array holds,
if and only if the arguments are in range and no set is given, or the descriptors in the sets, of which there is one,
have no gaps. -/
theorem select_poll (nfds : Int) (s : Sets) (timeout : Option (Int × Int)) :
    (∀ W junk, Agrees W junk nfds s timeout) ↔ (0 ≤ nfds ∧ nfds ≤ MAX_FILE) ∧ ((∀ k, s k = none) ∨
      ((∀ t ∈ timeout, 0 ≤ t.1 ∧ 0 ≤ t.2) ∧ asked s nfds.toNat ≠ [] ∧ Dense s nfds.toNat)) := by
  constructor
  · intro h
    have hcalm : 0 ≤ (select calm (fun _ => ⟨-1, 0⟩) nfds s timeout).1 := (h calm _).nonneg
    obtain ⟨hn, hargs⟩ := args_of_nonneg hcalm
    refine ⟨hn, or_iff_not_imp_left.2 fun hnull => ?_⟩
    obtain ⟨ht, hpos⟩ := hargs.resolve_left hnull
    rw [select_eq calm _ ⟨hpos, hn.2⟩ hnull ht] at hcalm
    dsimp only at hcalm
    have hpoll : 0 ≤ (poll64 calm ((List.range (fill s (fun _ => ⟨-1, 0⟩) nfds.toNat).2).map
        (fill s (fun _ => ⟨-1, 0⟩) nfds.toNat).1) timeout.isNone (millis timeout)).1 := by
      by_contra hneg
      rw [if_pos (not_le.1 hneg)] at hcalm
      exact hneg hcalm
    refine ⟨ht, fun hnil => ?_, by_contra fun hgap => ?_⟩
    · rw [(fill_spec s _ _).2, show (List.range nfds.toNat).filter (fun i => events s i ≠ 0#16) = [] from
        map_eq_nil_iff.1 hnil] at hpoll
      exact absurd hpoll (show ¬ (0 : Int) ≤ -EAGAIN by decide)
    · obtain ⟨i, hi⟩ := exists_junk hgap fun _ => ⟨-1, 0⟩
      exact absurd ((poll64_nonneg hpoll).2 _ hi) (by decide)
  · rintro ⟨hn, hnull | ⟨ht, hne, hdense⟩⟩ W junk
    · exact agrees_null W junk hn hnull
    · exact agrees_dense W junk hn.2 ht hne hdense

/-- Descriptors 0, 1 and 2 are open, and some of them have something to read. -/
def world (ready : Int → Bool) : World where
  opened fd := decide (0 ≤ fd ∧ fd < 3)
  opened_neg _ hfd := decide_eq_false fun h => not_le.2 hfd h.1
  setup fd _ := if ready fd then 1 else 0
  block _ _ := -ETIME
  revents fd _ := if ready fd then 0x001 else 0

/-- Descriptors to read from and to write to. -/
def setsOf (r w : List Nat) : Sets
  | .read => some fun i => decide (i ∈ r)
  | .write => some fun i => decide (i ∈ w)
  | .except => none

/-- Descriptor 1 alone, where the memory of the array is 0: what can be read is not counted, and what cannot be read
stays in the set. An empty set without a time to wait is an error. -/
theorem select_gap : ((select (world (· == 1)) (fun _ => ⟨0, 0⟩) 2 (setsOf [1] []) (some (0, 0))).1 = 0 ∧
      (readyPairs (setsOf [1] []) 2 (reported (asked (setsOf [1] []) 2)
        (poll64 (world (· == 1)) (asked (setsOf [1] []) 2) false 0).2)).length = 1) ∧
    (isset (select (world fun _ => false) (fun _ => ⟨0, 0⟩) 2 (setsOf [1] []) (some (0, 0))).2 .read 1 = true ∧
      reported (asked (setsOf [1] []) 2) (poll64 (world fun _ => false) (asked (setsOf [1] []) 2) false 0).2 1 = 0) ∧
    (select (world (· == 1)) (fun _ => ⟨0, 0⟩) 2 (setsOf [] []) (some (0, 0))).1 = -EAGAIN := by
  decide

end TextOS.Select
