import TextOS.Lib.Keyed
import TextOS.Lib.Run
import TextOS.Minix.Map

/-!
# Inodes of a minix volume: `kernel/fs/minix/minix.c`

The inode bitmap marks the inodes in use. `minix_ialloc` returns `k + 1` for a clear bit `k`, so bit `n - 1` is the mark
of inode `n`; but `minix_ifree(n)` clears bit `n`, the mark of inode `n + 1`.

- `Inv`: no two files share an inode and every file is marked. It is kept if no file is unlinked while the next inode is
  in use, and **with creations only the bitmap marks exactly the inodes of the files** (`inodes_kept`).
-/

namespace TextOS.Minix

open Lib Klib List

/-- The sizes of a volume. Inode numbers have 16 bits in version 1 and 32 in version 3. -/
structure Geometry where
  inodes : Nat
  width : Nat
  xmapnrPerblk : Nat
  pos : 0 < xmapnrPerblk
  divides : xmapnrPerblk ∣ 2 ^ width
  fits : inodes < 2 ^ width

inductive Kind
  | reg
  | dir
  | dev
  | lnk
deriving DecidableEq

/-- The blocks of the inode bitmap, and the files with their inodes. -/
structure Vol where
  imap : Nat → Bytes
  files : List (Nat × Kind)

/-- The blocks that `minix_ialloc` looks at. -/
def Geometry.imapBlocks (g : Geometry) : Nat := (g.inodes + g.xmapnrPerblk - 1) / g.xmapnrPerblk

def minixIalloc (g : Geometry) (imap : Nat → Bytes) : Nat × (Nat → Bytes) :=
  match xmapFind g.xmapnrPerblk imap g.imapBlocks 0 with
  | some (k, imap') => ((k + 1) % 2 ^ g.width, imap')
  | none => (0, imap)

def minixIfree (g : Geometry) (imap : Nat → Bytes) (ino : Nat) : Nat → Bytes := xmapReset g.xmapnrPerblk imap ino

/-- A new file; `room` says that there is room for its directory entry and its zones. The second component says whether
the file was made. `minix_iget` has no inode beyond the last one, which is not checked. -/
def create (g : Geometry) (v : Vol) (kind : Kind) (room : Bool) : Option (Vol × Bool) :=
  let (ino, imap) := minixIalloc g v.imap
  if ino = 0 then some (v, false)
  else if !room then some ({ v with imap := minixIfree g imap ino }, false)
  else if g.inodes < ino then none
  else some (⟨imap, (ino, kind) :: v.files⟩, true)

/-- `minix_remove` of the file with inode `ino`, which is not a directory. -/
def unlink (g : Geometry) (v : Vol) (ino : Nat) : Option Vol :=
  match v.files.find? fun f => f.1 == ino with
  | some (_, .dir) | none => none
  | some _ => some ⟨minixIfree g v.imap ino, v.files.eraseP fun f => f.1 == ino⟩

inductive Op
  | create (kind : Kind) (room : Bool)
  | unlink (ino : Nat)

/-- Operations that succeed. -/
def step (g : Geometry) (v : Vol) : Op → Option Vol
  | .create kind room => (create g v kind room).bind fun r => if r.2 then some r.1 else none
  | .unlink ino => unlink g v ino

/-! ## Marks -/

variable {g : Geometry} {imap imap' : Nat → Bytes} {v v' : Vol} {ino n : Nat} {o : Op}

/-- The mark of inode `n`. -/
def marked (g : Geometry) (imap : Nat → Bytes) (n : Nat) : Bool := xmapBit g.xmapnrPerblk imap (n - 1)

/-- The inodes of the files. -/
def Vol.inos (v : Vol) : List Nat := v.files.map Prod.fst

theorem Geometry.imapBlocks_le (g : Geometry) : g.imapBlocks * g.xmapnrPerblk ≤ 2 ^ g.width := by
  obtain ⟨c, hc⟩ := g.divides
  have hlt : g.imapBlocks < c + 1 := by
    refine (Nat.div_lt_iff_lt_mul g.pos).2 ?_
    have := g.fits
    rw [Nat.add_mul, Nat.one_mul, Nat.mul_comm c, ← hc]
    omega
  calc g.imapBlocks * g.xmapnrPerblk ≤ c * g.xmapnrPerblk := Nat.mul_le_mul_right _ (by omega)
    _ = 2 ^ g.width := by rw [Nat.mul_comm, ← hc]

/-- The allocator marks one number that was not marked. -/
theorem minixIalloc_spec (h : minixIalloc g imap = (ino, imap')) (h0 : ino ≠ 0) :
    marked g imap ino = false ∧ ∀ n, 1 ≤ n → marked g imap' n = (decide (ino = n) || marked g imap n) := by
  rw [minixIalloc] at h
  match hf : xmapFind g.xmapnrPerblk imap g.imapBlocks 0 with
  | none =>
    simp only [hf, Prod.mk.injEq] at h
    exact absurd h.1.symm h0
  | some (k, m) =>
    simp only [hf, Prod.mk.injEq] at h
    obtain ⟨rfl, rfl⟩ := h
    obtain ⟨hk, hclear, hset⟩ := xmapFind_some g.pos hf
    rw [Nat.zero_add] at hk
    have hle := g.imapBlocks_le
    -- the last number does not wrap to another one: it would be 0
    have hino : (k + 1) % 2 ^ g.width = k + 1 := by
      by_cases hw : k + 1 = 2 ^ g.width
      · exact absurd (by rw [hw, Nat.mod_self]) h0
      · exact Nat.mod_eq_of_lt (by omega)
    rw [hino]
    refine ⟨hclear, fun n hn => ?_⟩
    rw [marked, hset, marked, decide_eq_decide.2 (by omega : k = n - 1 ↔ k + 1 = n)]

theorem marked_minixIfree (hn : 1 ≤ n) :
    marked g (minixIfree g imap ino) n = (!decide (ino + 1 = n) && marked g imap n) := by
  rw [marked, minixIfree, xmapBit_reset, marked, decide_eq_decide.2 (by omega : ino = n - 1 ↔ ino + 1 = n)]

/-! ## The invariant -/

/-- No two files share an inode, and the files are marked. -/
structure Inv (g : Geometry) (v : Vol) : Prop where
  nodup : v.inos.Nodup
  range : ∀ n ∈ v.inos, 1 ≤ n ∧ n ≤ g.inodes
  marks : ∀ n ∈ v.inos, marked g v.imap n = true

/-- The bitmap marks exactly the inodes of the files. -/
def Exact (g : Geometry) (v : Vol) : Prop := ∀ n, 1 ≤ n → n ≤ g.inodes → (marked g v.imap n = true ↔ n ∈ v.inos)

/-- A creation that succeeds marks a number in range. -/
theorem create_spec {kind : Kind} {room : Bool} (h : step g v (.create kind room) = some v') :
    ∃ ino imap, minixIalloc g v.imap = (ino, imap) ∧ ino ≠ 0 ∧ ino ≤ g.inodes ∧
      v' = ⟨imap, (ino, kind) :: v.files⟩ := by
  obtain ⟨⟨w, ok⟩, hc, hok⟩ := Option.bind_eq_some_iff.1 h
  match ha : minixIalloc g v.imap with
  | (ino, imap) =>
    simp only [create, ha] at hc
    split at hc
    · cases hc
      cases hok
    next h0 =>
    split at hc
    · cases hc
      cases hok
    split at hc
    · cases hc
    next hle =>
    cases hc
    cases hok
    exact ⟨ino, imap, rfl, h0, by omega, rfl⟩

theorem unlink_spec (h : unlink g v ino = some v') :
    ino ∈ v.inos ∧ v' = ⟨minixIfree g v.imap ino, v.files.eraseP fun f => f.1 == ino⟩ := by
  rw [unlink] at h
  cases hf : v.files.find? fun f => f.1 == ino with
  | none => simp [hf] at h
  | some f =>
    have hf1 : f.1 = ino := by simpa using find?_some hf
    have hmem : ino ∈ v.inos := mem_map.2 ⟨f, mem_of_find?_eq_some hf, hf1⟩
    split at h
    · cases h
    · cases h
    · cases h
      exact ⟨hmem, rfl⟩

/-- A creation keeps the invariant. -/
theorem Inv.create (hi : Inv g v) {kind : Kind} {room : Bool} (h : step g v (.create kind room) = some v') :
    Inv g v' ∧ (Exact g v → Exact g v') := by
  obtain ⟨ino, imap, ha, h0, hle, rfl⟩ := create_spec h
  obtain ⟨hclear, hset⟩ := minixIalloc_spec ha h0
  have hnew : ino ∉ v.inos := fun hmem => by
    have := hi.marks ino hmem
    rw [hclear] at this
    cases this
  refine ⟨⟨nodup_cons.2 ⟨hnew, hi.nodup⟩, ?_, ?_⟩, fun hex n hn hn' => ?_⟩
  · exact forall_mem_cons.2 ⟨⟨by omega, hle⟩, hi.range⟩
  · intro n hn
    rcases mem_cons.1 hn with rfl | hn
    · simp [hset n (by omega)]
    · simp [hset n (hi.range n hn).1, hi.marks n hn]
  · rw [hset n hn, Bool.or_eq_true, decide_eq_true_iff, hex n hn hn', eq_comm]
    exact mem_cons.symm

theorem Inv.unlink (hi : Inv g v) (hnext : ino + 1 ∉ v.inos) (h : unlink g v ino = some v') : Inv g v' := by
  obtain ⟨-, rfl⟩ := unlink_spec h
  have hsub : (v.files.eraseP fun f => f.1 == ino).map Prod.fst ⊆ v.inos := (eraseP_sublist.map Prod.fst).subset
  refine ⟨(eraseP_sublist.map Prod.fst).nodup hi.nodup, fun n hn => hi.range n (hsub hn), fun n hn => ?_⟩
  have hne : ino + 1 ≠ n := fun he => hnext (he ▸ hsub hn)
  rw [marked_minixIfree (hi.range n (hsub hn)).1, hi.marks n (hsub hn), decide_eq_false hne]
  rfl

/-- No file is unlinked while the next inode is in use. -/
def Spares (v : Vol) : Op → Prop
  | .create .. => True
  | .unlink ino => ino + 1 ∉ v.inos

instance (v : Vol) : ∀ o, Decidable (Spares v o)
  | .create .. => .isTrue trivial
  | .unlink ino => inferInstanceAs (Decidable (ino + 1 ∉ v.inos))

theorem step_inv (hi : Inv g v) (ho : Spares v o) (h : step g v o = some v') : Inv g v' := by
  cases o with
  | create kind room => exact (hi.create h).1
  | unlink ino => exact hi.unlink ho h

def Op.creates : Op → Bool
  | .create .. => true
  | .unlink _ => false

/-- **No two files share an inode, no allocation returns one of a file, and with creations only the bitmap marks exactly
the inodes of the files.** -/
theorem inodes_kept (g : Geometry) (v v' : Vol) (hi : Inv g v) (hex : Exact g v) (os : List Op)
    (hos : Meets (step g) Spares v os) (hr : run (step g) v os = some v') :
    v'.inos.Nodup ∧ (∀ n ∈ v'.inos, marked g v'.imap n = true) ∧ (minixIalloc g v'.imap).1 ∉ v'.inos ∧
      ((∀ o ∈ os, o.creates) → Exact g v') := by
  have hi' : Inv g v' := run_meets_inv (fun _ _ _ => step_inv) hi hos hr
  refine ⟨hi'.nodup, hi'.marks, fun hmem => ?_, fun hc => ?_⟩
  · have h0 : (minixIalloc g v'.imap).1 ≠ 0 := by
      have := (hi'.range _ hmem).1
      omega
    have hclear := (minixIalloc_spec (Prod.mk.eta : _ = minixIalloc g v'.imap).symm h0).1
    rw [hi'.marks _ hmem] at hclear
    cases hclear
  · refine (run_meets_inv (I := fun v => Inv g v ∧ Exact g v) (C := fun _ o => o.creates = true) ?_ ⟨hi, hex⟩
      (meets_of_forall_mem v hc) hr).2
    rintro v o v' ⟨hi, hex⟩ ho h
    cases o with
    | create kind room => exact ⟨(hi.create h).1, (hi.create h).2 hex⟩
    | unlink ino => cases ho

/-- A volume of version 1 with 20 inodes. -/
def small : Geometry := ⟨20, 16, 8192, by decide, ⟨8, rfl⟩, by decide⟩

/-- The root directory only, with `x` as the first byte of the bitmap. -/
def rootOnly (x : UInt8) : Vol := ⟨fun _ => Function.update (fun _ => 0) 0 x, [(1, .dir)]⟩

/-- A file is made, unlinked and made again; the second one is inode 3, as inode 2 stays marked. -/
theorem inodes_kept_again :
    (run (step small) (rootOnly 1) [.create .reg true, .unlink 2, .create .reg true]).map Vol.inos = some [3, 1] ∧
      ∀ v, run (step small) (rootOnly 1) [.create .reg true, .unlink 2, .create .reg true] = some v → v.inos.Nodup := by
  have hall : ∀ n < 21, 1 ≤ n → (marked small (rootOnly 1).imap n = true ↔ n ∈ (rootOnly 1).inos) := by decide
  refine ⟨by decide, fun v hv => (inodes_kept small (rootOnly 1) v ⟨by decide, by decide, by decide⟩ ?_ _ (by decide)
    hv).1⟩
  exact fun n hn hn' => hall n (Nat.lt_succ_of_le hn') hn

/-- Inode 2 is unlinked, and the next file gets inode 3, which is in use. If bit `n` were the mark of inode `n`, the
first file would already miss its mark. -/
theorem inode_shared :
    (run (step small) (rootOnly 1) [.create .reg true, .create .reg true, .unlink 2, .create .reg true]).map Vol.inos =
      some [3, 3, 1] ∧
    (run (step small) (rootOnly 3) [.create .reg true]).map (fun v => (v.inos, xmapBit 8192 v.imap 3)) =
      some ([3, 1], false) := by
  decide

end TextOS.Minix
