import TextOS.Heap.Search
import TextOS.Lib.Run

/-!
# Histories of the kernel heap

`Sys` adds to the heap the payloads that are live: returned by `malloc` or `calloc` for a request and not freed yet.
Clients also store bytes into live payloads. `Inv` says that the blocks tile the heap and that every live payload has
an allocated block of its own; it is kept by every operation that is `Valid` and `Sized` (`step_inv`).
-/

namespace TextOS.Heap

open Lib List Option

/-- The heap and the live payloads, each an address and the size requested. -/
structure Sys where
  heap : State
  live : List (Nat × Nat)

inductive Op
  | malloc (n req : Nat)
  | calloc (n req : Nat)
  | free (p : Nat)
  | store (p i : Nat) (v : UInt8)

/-- The result of an allocation: a pointer other than `NULL` is live. -/
def Sys.gain (s : Sys) (req : Nat) (r : Nat × State) : Sys :=
  ⟨r.2, if r.1 = 0 then s.live else (r.1, req) :: s.live⟩

/-- One call, given at most `n` rounds of the search, or one store of a client. -/
def step (s : Sys) : Op → Option Sys
  | .malloc n req => (malloc n s.heap req).map (s.gain req)
  | .calloc n req => (calloc n s.heap req).map (s.gain req)
  | .free p => (free s.heap p).map fun h => ⟨h, s.live.filter fun l => l.1 ≠ p⟩
  | .store p i v => some ⟨{ s.heap with mem := fun x => if x = p + i then v else s.heap.mem x }, s.live⟩

/-- The heap stays below 512 MiB, only live pointers are freed, and stores stay inside live payloads. -/
def Valid (s : Sys) : Op → Prop
  | .malloc n req | .calloc n req => ∀ k < n, RoundBelow (blockSiz req) (iterate (blockSiz req) k s.heap s.heap.root)
  | .free p => ∃ l ∈ s.live, l.1 = p
  | .store p i _ => ∃ l ∈ s.live, l.1 = p ∧ i < l.2

instance (s : Sys) : DecidablePred (Valid s) := fun o => by
  unfold Valid
  split <;> infer_instance

/-- The request is below 512 MiB like the heap, so that its block size does not wrap. -/
def Sized : Op → Prop
  | .malloc _ req | .calloc _ req => req < 2 ^ 29
  | _ => True

instance : DecidablePred Sized := fun o => by
  unfold Sized
  split <;> infer_instance

/-- The heap after `heap_init`, with nothing allocated. -/
def Sys.init (m : Bytes) : Sys := ⟨heapInit m, []⟩

/-- The live payload `l` is the payload of an allocated block. -/
def Owned (bs : List Blk) (l : Nat × Nat) : Prop :=
  ∃ a b, l.1 = a + 4 ∧ Has bs a b ∧ b.used = true ∧ l.2 + 8 ≤ b.size

/-- The bytes of the payload `l` are unchanged. -/
def Kept (h h' : State) (l : Nat × Nat) : Prop := ∀ y, l.1 ≤ y → y < l.1 + l.2 → h'.mem y = h.mem y

structure Inv (s : Sys) (bs : List Blk) : Prop where
  layout : Layout s.heap bs
  noAdj : NoAdj bs
  owned : ∀ l ∈ s.live, Owned bs l
  distinct : s.live.Pairwise fun l l' => l.1 ≠ l'.1

variable {s s' : Sys} {h h' : State} {bs bs' : List Blk} {l l' : Nat × Nat} {a c n req : Nat} {b : Blk}
  {f : Option Nat}

/-! ## The start -/

/-- The initial heap has no blocks between prologue and epilogue. -/
theorem init_layout (m : Bytes) : Layout (heapInit m) [] := by
  have hpro : BlkAt (heapInit m).mem (kernHeapBase + 4) ⟨8, true⟩ := by
    refine ⟨by norm_num, rfl, by norm_num, ?_, ?_⟩
    · refine ((get_put_of_apart _ _ (by omega)).trans (get_put_of_apart _ _ (by omega))).trans ?_
      exact get_put_set _ _ _ (by norm_num)
    · exact (get_put_of_apart _ _ (by dsimp only; omega)).trans (get_put_set _ _ _ (by norm_num))
  have hbase := base_mod
  have hbrk : (kernHeapBase + 12) % 8 = 4 := by omega
  have hmax : (kernHeapBase + 4096) % 4096 = 0 := (Nat.add_mod_right _ _).trans base_mod
  refine ⟨rfl, hpro, rfl, get_put_set _ _ _ (by norm_num), hbrk, ?_, hmax, ?_, ?_⟩
  · exact Nat.add_le_add_left (show 12 + 4 ≤ 4096 by norm_num) kernHeapBase
  · exact Nat.add_lt_add_left (show 4096 < 2 ^ 29 by norm_num) kernHeapBase
  intro w hw
  simp only [heapInit, State.put, mem_cons, not_mem_nil, or_false] at hw ⊢
  rcases hw with rfl | rfl | rfl | rfl <;> dsimp only <;> omega

theorem init_inv (m : Bytes) : Inv (Sys.init m) [] := ⟨init_layout m, .nil, by simp [Sys.init], by simp [Sys.init]⟩

/-! ## Live payloads -/

theorem Owned.keep (ho : Owned bs l) (hk : Keeps f h bs h' bs') (hf : f ≠ some (l.1 - 4)) :
    Owned bs' l ∧ Kept h h' l := by
  obtain ⟨a, b, hla, hb, hu, hsz⟩ := ho
  obtain ⟨hb', hm⟩ := hk a b hb hu (by rwa [hla, Nat.add_sub_cancel] at hf)
  exact ⟨⟨a, b, hla, hb', hu, hsz⟩, fun y hy hy' => hm y (by omega) (by omega)⟩

theorem Layout.payload (L : Layout h bs) (hb : Has bs a b) {m : Bytes}
    (hm : SameOutside h.mem m (a + 4) (a + b.size - 4)) : Layout { h with mem := m } bs := by
  have hblk := (L.at_has hb).1
  obtain ⟨pre, suf, rfl, ha⟩ := hb.split
  have hw : Writes h { h with mem := m } a (a + total Blk.size [b]) := by
    refine ⟨rfl, rfl, rfl, hm.mono (by omega) ?_, fun w hw => .inl hw⟩
    simp only [total_cons, total_nil]
    omega
  have ht : Tiled m a [b] (a + total Blk.size [b]) := by
    refine ⟨⟨hblk.pos, hblk.dvd, hblk.small, ?_, ?_⟩, rfl⟩
    · exact (hm.word (.inl (by omega))).trans hblk.hdr
    · exact (hm.word (.inr (by omega))).trans hblk.ftr
  exact L.replace [b] ha hw ht

theorem Layout.owned_apart (L : Layout h bs) (ho : Owned bs l) (ho' : Owned bs l') (hne : l.1 ≠ l'.1) :
    l.1 + l.2 ≤ l'.1 ∨ l'.1 + l'.2 ≤ l.1 := by
  obtain ⟨a, b, hla, hb, -, hsz⟩ := ho
  obtain ⟨a', b', hla', hb', -, hsz'⟩ := ho'
  have ht := L.tiled
  rw [L.root] at ht
  rcases ht.apart hb hb' with ⟨rfl, -⟩ | hx | hx <;> omega

/-! ## The operations -/

theorem malloc_eq_some {r : Nat × State} (h0 : req ≠ 0) :
    malloc n h req = some r ↔ iterate (blockSiz req) n h h.root = some (.ret r.1 r.2) := by
  rw [malloc, if_neg h0]
  split
  · next hi => simp [hi, Prod.ext_iff]
  · next hi => simpa using fun he => hi r.1 r.2 he

/-- **`malloc` ends with an allocated block.** -/
theorem Inv.malloc (I : Inv s bs) (h0 : req ≠ 0) (hreq : req < 2 ^ 29)
    (hbelow : StaysBelow (blockSiz req) s.heap s.heap.root) :
    ∃ n a h' bs', (∀ k, n ≤ k → malloc k s.heap req = some (a + 4, h')) ∧
      Allocated (blockSiz req) s.heap bs a h' bs' := by
  obtain ⟨hsz, hd, hlt⟩ := blockSiz_spec hreq
  obtain ⟨n, a, h', bs', hn, ha⟩ := I.layout.finds_root I.noAdj (by omega) hd hlt hbelow
  exact ⟨n, a, h', bs', fun k hk => (malloc_eq_some h0).2 (hn k hk), ha⟩

theorem Inv.malloc_some (I : Inv s bs) (h0 : req ≠ 0) (hreq : req < 2 ^ 29)
    (hv : Valid s (.malloc n req)) {r : Nat × State} (hr : Heap.malloc n s.heap req = some r) :
    ∃ a bs', r.1 = a + 4 ∧ Allocated (blockSiz req) s.heap bs a r.2 bs' := by
  have hret := (malloc_eq_some h0).1 hr
  obtain ⟨n', a, h', bs', hn', ha⟩ := I.malloc h0 hreq (staysBelow_of_ret hret hv)
  have heq := hn' (n + n') (by omega)
  rw [(malloc_eq_some h0).2 (iterate_ret hret (by omega))] at heq
  obtain rfl : r = (a + 4, h') := by simpa using heq
  exact ⟨a, bs', rfl, ha⟩

theorem Inv.fresh {size : Nat} (I : Inv s bs) (ha : Allocated size s.heap bs a h' bs') (hl : l ∈ s.live) :
    l.1 ≠ a + 4 := by
  obtain ⟨a', b, hla, hb, hu, -⟩ := I.owned l hl
  intro he
  obtain rfl : a' = a := by omega
  simp [ha.fresh b hb] at hu

theorem Inv.gain (I : Inv s bs) (hreq : req < 2 ^ 29) (ha : Allocated (blockSiz req) s.heap bs a h' bs') :
    Inv (s.gain req (a + 4, h')) bs' := by
  have hlive : (s.gain req (a + 4, h')).live = (a + 4, req) :: s.live := by simp [Sys.gain]
  refine ⟨ha.layout, ha.noAdj, ?_, ?_⟩
  · intro l hl
    rcases mem_cons.1 hl with rfl | hl
    · exact ⟨a, _, rfl, ha.has, rfl, (blockSiz_spec hreq).1⟩
    · exact ((I.owned l hl).keep ha.keeps nofun).1
  · exact pairwise_cons.2 ⟨fun l hl => (I.fresh ha hl).symm, I.distinct⟩

theorem Inv.payload (I : Inv s bs) (hl : l ∈ s.live) {m : Bytes} (hm : SameOutside s.heap.mem m l.1 (l.1 + l.2)) :
    Inv ⟨{ s.heap with mem := m }, s.live⟩ bs := by
  obtain ⟨a, b, hla, hb, -, hsz⟩ := I.owned l hl
  exact { I with layout := I.layout.payload hb (hm.mono (by omega) (by omega)) }

theorem Inv.free (I : Inv s bs) (hl : l ∈ s.live) :
    ∃ h' bs', free s.heap l.1 = some h' ∧ Layout h' bs' ∧ NoAdj bs' ∧ Keeps (some (l.1 - 4)) s.heap bs h' bs' := by
  obtain ⟨a, b, hla, hb, hu, -⟩ := I.owned l hl
  obtain ⟨h', bs', he, L', hn, hk⟩ := I.layout.free I.noAdj hb hu
  rw [hla, Nat.add_sub_cancel]
  exact ⟨h', bs', he, L', hn, hk⟩

/-- A payload other than the one at `p` is in another block. -/
theorem Inv.ne_hdr (I : Inv s bs) (hl : l ∈ s.live) (hl' : l' ∈ s.live) (hne : l'.1 ≠ l.1) :
    some (l.1 - 4) ≠ some (l'.1 - 4) := by
  obtain ⟨a, b, hla, -⟩ := I.owned l hl
  obtain ⟨a', b', hla', -⟩ := I.owned l' hl'
  intro he
  have := some.inj he
  omega

/-- **Every operation that is valid and sized keeps the invariant.** -/
theorem step_inv {o : Op} (I : ∃ bs, Inv s bs) (ho : Valid s o ∧ Sized o) (hs : step s o = some s') :
    ∃ bs', Inv s' bs' := by
  obtain ⟨bs, I⟩ := I
  cases o with
  | malloc n req =>
    obtain ⟨r, hr, rfl⟩ := map_eq_some_iff.1 hs
    by_cases h0 : req = 0
    · obtain rfl : r = (0, s.heap) := by simpa [Heap.malloc, h0, eq_comm] using hr
      exact ⟨bs, I⟩
    obtain ⟨a, bs', hp, ha⟩ := I.malloc_some h0 ho.2 ho.1 hr
    obtain ⟨p, h'⟩ := r
    obtain rfl : p = a + 4 := hp
    exact ⟨bs', I.gain ho.2 ha⟩
  | calloc n req =>
    obtain ⟨r', hr', rfl⟩ := map_eq_some_iff.1 hs
    obtain ⟨r, hr, rfl⟩ := map_eq_some_iff.1 hr'
    by_cases h0 : req = 0
    · obtain rfl : r = (0, s.heap) := by simpa [Heap.malloc, h0, eq_comm] using hr
      exact ⟨bs, I⟩
    obtain ⟨a, bs', hp, ha⟩ := I.malloc_some h0 ho.2 ho.1 hr
    obtain ⟨p, h'⟩ := r
    obtain rfl : p = a + 4 := hp
    -- the zeroed payload is live once it is returned
    have I' := I.gain ho.2 ha
    have hmem : (a + 4, req) ∈ (s.gain req (a + 4, h')).live := by simp [Sys.gain]
    refine ⟨bs', ?_⟩
    simpa [Sys.gain] using I'.payload hmem fun x hx => if_neg (by dsimp only at hx ⊢; omega)
  | free p =>
    obtain ⟨h', hf, rfl⟩ := map_eq_some_iff.1 hs
    obtain ⟨l, hl, rfl⟩ := ho.1
    obtain ⟨h'', bs', hf', L', hn, hk⟩ := I.free hl
    obtain rfl : h'' = h' := by simpa [hf] using hf'.symm
    refine ⟨bs', L', hn, fun l' hl' => ?_, I.distinct.filter _⟩
    simp only [mem_filter, decide_eq_true_eq] at hl'
    exact ((I.owned l' hl'.1).keep hk (I.ne_hdr hl hl'.1 hl'.2)).1
  | store p i v =>
    obtain ⟨l, hl, rfl, hi⟩ := ho.1
    obtain rfl := some.inj hs
    exact ⟨bs, I.payload hl fun x hx => if_neg (by omega)⟩

/-! ## The blocks tile the heap -/

/-- The blocks tile the heap up to the end mark, no two consecutive ones are free, and every word was written inside
the heap. -/
def BlocksTile (h : State) : Prop :=
  (∃ bs, Tiled h.mem h.root bs h.brk ∧ NoAdj bs) ∧ h.get h.brk = set 0 true ∧
    ∀ w ∈ h.log, kernHeapBase ≤ w.1 ∧ w.1 + 4 ≤ w.2 ∧ w.2 ≤ h.max

theorem run_inv_of_meets {m : Bytes} {os : List Op}
    (hm : Meets step (fun s o => Valid s o ∧ Sized o) (Sys.init m) os) (hr : run step (Sys.init m) os = some s) :
    ∃ bs, Inv s bs :=
  run_meets_inv (fun _ _ _ hi hc hs => step_inv hi hc hs) ⟨[], init_inv m⟩ hm hr

/-- **In every history of valid operations with sized requests the blocks tile the heap.** -/
theorem blocks_tile (m : Bytes) (os : List Op) (s : Sys)
    (hm : Meets step (fun s o => Valid s o ∧ Sized o) (Sys.init m) os) (hr : run step (Sys.init m) os = some s) :
    BlocksTile s.heap := by
  obtain ⟨bs, I⟩ := run_inv_of_meets hm hr
  exact ⟨⟨bs, I.layout.tiled, I.noAdj⟩, I.layout.epi, I.layout.log⟩

/-- A history with two extensions, a store and a free. -/
theorem blocks_tile_four : ∃ s, run step (Sys.init fun _ => 0) [.malloc 2 8, .calloc 3 100,
    .store (kernHeapBase + 32) 99 7, .free (kernHeapBase + 16)] = some s ∧ BlocksTile s.heap :=
  ⟨_, rfl, blocks_tile (fun _ => 0) [.malloc 2 8, .calloc 3 100, .store (kernHeapBase + 32) 99 7,
    .free (kernHeapBase + 16)] _ (by decide) rfl⟩

/-- The last request is one whose block size wraps to 0. -/
def wrapHistory : List Op := [.malloc 2 8, .free (kernHeapBase + 16), .malloc 1 (2 ^ 64 - 8)]

/-- A valid history after which the first block has size 0. -/
theorem blocks_broken : ∃ s, run step (Sys.init fun _ => 0) wrapHistory = some s ∧
    Meets step Valid (Sys.init fun _ => 0) wrapHistory ∧ ¬ BlocksTile s.heap := by
  obtain ⟨s, hs⟩ : ∃ s, run step (Sys.init fun _ => 0) wrapHistory = some s := isSome_iff_exists.1 (by decide)
  have hfirst : (run step (Sys.init fun _ => 0) wrapHistory).map
      (fun s => (s.heap.get s.heap.root, s.heap.root, s.heap.brk)) =
      some (set 0 true, kernHeapBase + 12, kernHeapBase + 28) := by
    decide
  rw [hs] at hfirst
  simp only [map_some, some.injEq, Prod.mk.injEq] at hfirst
  refine ⟨s, hs, by decide, ?_⟩
  rintro ⟨⟨bs, ht, -⟩, -⟩
  cases bs with
  | nil =>
    have hnil := tiles_nil.1 ht
    omega
  | cons b bs =>
    have hpos := ht.1.pos
    have hhdr := ht.1.hdr_get
    rw [hfirst.1] at hhdr
    have hsize := congrArg siz hhdr
    simp only [siz_set] at hsize
    omega

/-! ## What clients can rely on -/

/-- The payload `[p, p + req)` is aligned, lies inside the heap `h'` and apart from the live payloads and from every
header and footer, and no live payload was changed on the way from `h`. -/
structure Grants (live : List (Nat × Nat)) (h : State) (req p : Nat) (h' : State) : Prop where
  align : p % 8 = 0
  above : h'.root + 4 ≤ p
  below : p + req ≤ h'.brk ∧ h'.brk ≤ h'.max
  apart : ∀ l ∈ live, p + req ≤ l.1 ∨ l.1 + l.2 ≤ p
  tags : ∃ bs, Tiled h'.mem h'.root bs h'.brk ∧ ∀ a b, Sits Blk.size h'.root bs a b →
    (p + req ≤ a ∨ a + 4 ≤ p) ∧ (p + req ≤ a + b.size - 4 ∨ a + b.size ≤ p)
  kept : ∀ l ∈ live, Kept h h' l

theorem Layout.has_mod (L : Layout h bs) (hb : Has bs a b) : a % 8 = 4 := by
  obtain ⟨pre, suf, rfl, ha⟩ := hb.split
  have hdvd : 8 ∣ total Blk.size pre := (L.cut [b] rfl).1.dvd_total fun x t ht => Nat.dvd_of_mod_eq_zero ht.dvd
  have hbase := base_mod
  omega

/-- A found block is granted, apart from the live ones. -/
theorem Inv.grants (I : Inv s bs) (hreq : req < 2 ^ 29) (ha : Allocated (blockSiz req) s.heap bs a h' bs') :
    Grants s.live s.heap req (a + 4) h' := by
  obtain ⟨hblk, hlo, hhi⟩ := ha.layout.at_has ha.has
  have hsz := (blockSiz_spec hreq).1
  have hle := ha.layout.brk_le
  have hnew : Owned bs' (a + 4, req) := ⟨a, _, rfl, ha.has, rfl, hsz⟩
  have ht := ha.layout.tiled
  have hroot := ha.layout.root
  dsimp only at hhi
  refine ⟨?_, by omega, ⟨by omega, by omega⟩, fun l hl => ?_, ⟨bs', ht, fun x b hb => ?_⟩, fun l hl => ?_⟩
  · have := ha.layout.has_mod ha.has
    omega
  · have ho := ((I.owned l hl).keep ha.keeps nofun).1
    exact ha.layout.owned_apart hnew ho (I.fresh ha hl).symm
  · rw [ha.layout.root] at ht hb
    have h8 := (ht.at_sits hb).1.pos
    have hd := (ht.at_sits hb).1.dvd
    rcases ht.apart ha.has hb with ⟨rfl, rfl⟩ | hx | hx
    · exact ⟨by omega, by dsimp only; omega⟩
    · dsimp only at hx
      exact ⟨by omega, by omega⟩
    · exact ⟨by omega, by omega⟩
  · exact ((I.owned l hl).keep ha.keeps nofun).2

/-- **The guarantee for clients.** In every state reached by valid operations with sized requests: `malloc` ends, and
what it returns is the caller's alone; `free` of a live pointer ends; neither changes a byte of another payload. -/
theorem payloads_safe (m : Bytes) (os : List Op) (s : Sys)
    (hm : Meets step (fun s o => Valid s o ∧ Sized o) (Sys.init m) os) (hr : run step (Sys.init m) os = some s) :
    (∀ req, 0 < req → req < 2 ^ 29 → StaysBelow (blockSiz req) s.heap s.heap.root →
      ∃ n p h', (∀ k, n ≤ k → malloc k s.heap req = some (p, h')) ∧ Grants s.live s.heap req p h') ∧
    ∀ l ∈ s.live, ∃ h', free s.heap l.1 = some h' ∧ ∀ l' ∈ s.live, l'.1 ≠ l.1 → Kept s.heap h' l' := by
  obtain ⟨bs, I⟩ := run_inv_of_meets hm hr
  constructor
  · intro req h0 hreq hbelow
    obtain ⟨n, a, h', bs', hn, ha⟩ := I.malloc (by omega) hreq hbelow
    exact ⟨n, a + 4, h', hn, I.grants hreq ha⟩
  intro l hl
  obtain ⟨h', bs', hf, -, -, hk⟩ := I.free hl
  exact ⟨h', hf, fun l' hl' hne => ((I.owned l' hl').keep hk (I.ne_hdr hl hl' hne)).2⟩

/-- After two requests: a third one, and a free of either payload. -/
theorem payloads_safe_two : ∃ s, run step (Sys.init fun _ => 0) [.malloc 2 8, .malloc 3 100] = some s ∧
    (∃ n p h', (∀ k, n ≤ k → malloc k s.heap 24 = some (p, h')) ∧ Grants s.live s.heap 24 p h') ∧
    ∀ l ∈ s.live, ∃ h', free s.heap l.1 = some h' ∧ ∀ l' ∈ s.live, l'.1 ≠ l.1 → Kept s.heap h' l' := by
  refine ⟨_, rfl, ?_⟩
  have hsafe := payloads_safe (fun _ => 0) [.malloc 2 8, .malloc 3 100] _ (by decide) rfl
  refine ⟨hsafe.1 24 (by decide) (by decide) ?_, hsafe.2⟩
  exact staysBelow_of_ret (n := 4) rfl (by decide)

/-- A request of `2^64 - 1` bytes, on a heap of one page: the block returned has size 8. -/
theorem payload_outside : Valid (Sys.init fun _ => 0) (.malloc 2 (2 ^ 64 - 1)) ∧
    ∃ p h', malloc 2 (heapInit fun _ => 0) (2 ^ 64 - 1) = some (p, h') ∧
      ¬ Grants [] (heapInit fun _ => 0) (2 ^ 64 - 1) p h' := by
  obtain ⟨⟨p, h'⟩, hr⟩ : ∃ r, malloc 2 (heapInit fun _ => 0) (2 ^ 64 - 1) = some r := isSome_iff_exists.1 (by decide)
  have hmax : (malloc 2 (heapInit fun _ => 0) (2 ^ 64 - 1)).map (fun r => r.2.max) = some (kernHeapBase + 4096) := by
    decide
  rw [hr] at hmax
  refine ⟨by decide, p, h', hr, fun hg => ?_⟩
  have hend := hg.below.1.trans hg.below.2
  rw [show h'.max = kernHeapBase + 4096 from some.inj hmax] at hend
  have hbase : kernHeapBase + 4096 < 2 ^ 64 - 1 := by decide
  omega

end TextOS.Heap
