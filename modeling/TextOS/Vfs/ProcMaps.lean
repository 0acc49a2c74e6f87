import TextOS.Klib.Vsprintf
import TextOS.Lib.Run
import TextOS.Mman.Space

/-!
# Reading `/proc/<pid>/maps`: `kernel/fs/phy/procfs.c`

`pid_maps_read` prints one line for each area and clips every line with the same offset and size.

- **Every read returns the bytes of the text at its offset if and only if there is one area at most; with more areas the
  reads behind the text, of the whole text and inside a longest first line do** (`maps_read`). With two areas a read
  writes more than was asked for (`maps_overrun`).
-/

namespace TextOS.ProcMaps

open Lib List Mman Vsprintf

/-- `proc_submit_buf`: what is copied to `output`. -/
def procSubmitBuf (osz : Nat) (buf : List Char) (off : Nat) : List Char :=
  if buf.length ≤ off then []
  else
    let rem := buf.length - off
    (buf.drop off).take (if osz < rem then osz else rem)

def attr (a : Area) : List Char :=
  [if a.prot &&& 1 ≠ 0 then 'r' else '-', if a.prot &&& 2 ≠ 0 then 'w' else '-', if a.prot &&& 4 ≠ 0 then 'x' else '-',
    if a.flgs &&& 1 ≠ 0 then 's' else 'p']

/-- `label`; `path` are the results of `vfs_getpath`. -/
def labelOf (path : Option Nat → List Char) (a : Area) : List Char :=
  match a.label with
  | .file => path a.node
  | .stack => ['[', 's', 't', 'a', 'c', 'k', ']']
  | .heap => ['[', 'h', 'e', 'a', 'p', ']']
  | .bss => ['[', 'b', 's', 's', ']']
  | .user => []

/-- The text of `proc_printf` for an area; there is no result if it does not fit into 128 bytes. -/
def mapsLine (path : Option Nat → List Char) (a : Area) : Option (List Char) :=
  (vsprintf ['%', 'p', '-', '%', 'p', ' ', '%', 's', ' ', '%', 's', '\n']
    [.num a.s, .num a.t, .str (some (attr a)), .str (some (labelOf path a))]).filter fun line => line.length < 128

/-- The bytes written to `buf`. -/
def pidMapsRead (path : Option Nat → List Char) (siz offset : Nat) : List Area → Option (List Char)
  | [] => some []
  | a :: l =>
    (mapsLine path a).bind fun line => (pidMapsRead path siz offset l).map (procSubmitBuf siz line offset ++ ·)

/-- The text that lists all areas, line by line. -/
def mapsLines (path : Option Nat → List Char) (l : List Area) : Option (List (List Char)) := l.mapM (mapsLine path)

/-- There is one line at most, or nothing is asked for, or the read begins behind the text, or it is of the whole text,
or it stays inside the first line and begins behind the length of every other one. -/
def Whole (lines : List (List Char)) (siz off : Nat) : Prop :=
  lines.length ≤ 1 ∨ siz = 0 ∨ lines.flatten.length ≤ off ∨ (off = 0 ∧ lines.flatten.length ≤ siz) ∨
    (off + siz ≤ (lines.headD []).length ∧ ∀ line ∈ lines.tail, line.length ≤ off)

variable {path : Option Nat → List Char} {a : Area} {l : List Area} {line : List Char} {lines : List (List Char)}
  {siz off : Nat}

/-! ## One read -/

theorem procSubmitBuf_eq (osz : Nat) (buf : List Char) (off : Nat) :
    procSubmitBuf osz buf off = (buf.drop off).take osz := by
  rw [procSubmitBuf]
  split
  next h => rw [drop_of_length_le h, take_nil]
  next h =>
    dsimp only
    split
    next => rfl
    next hle =>
      rw [take_of_length_le (by rw [length_drop]), take_of_length_le (by rw [length_drop]; omega)]

theorem forall₂_mapsLines (h : mapsLines path l = some lines) :
    Forall₂ (fun a line => mapsLine path a = some line) l lines := by
  induction l generalizing lines with
  | nil =>
    cases h
    exact .nil
  | cons a l ih =>
    rw [mapsLines, mapM_cons] at h
    obtain ⟨line, ha, h⟩ := Option.bind_eq_some_iff.1 h
    obtain ⟨rest, hl, h⟩ := Option.bind_eq_some_iff.1 h
    cases h
    exact .cons ha (ih hl)

/-- A read clips every line on its own. -/
theorem pidMapsRead_eq (h : mapsLines path l = some lines) :
    pidMapsRead path siz off l = some (lines.flatMap fun line => (line.drop off).take siz) := by
  have hf := forall₂_mapsLines h
  clear h
  induction hf with
  | nil => rfl
  | cons ha _ ih =>
    rw [pidMapsRead, ha, Option.bind_some, ih, procSubmitBuf_eq]
    rfl

/-- A line has a hyphen between the ends of the area. -/
theorem mapsLine_ne_nil (h : mapsLine path a = some line) : line ≠ [] := by
  obtain ⟨x, y, hxy⟩ : ∃ x y, vsprintf ['%', 'p', '-', '%', 'p', ' ', '%', 's', ' ', '%', 's', '\n']
      [.num a.s, .num a.t, .str (some (attr a)), .str (some (labelOf path a))] = some (x ++ '-' :: y) := ⟨_, _, rfl⟩
  rw [mapsLine, hxy, Option.filter_eq_some_iff] at h
  rw [← Option.some.inj h.1]
  simp

theorem ne_nil_of_mapsLines (h : mapsLines path l = some lines) : ∀ line ∈ lines, line ≠ [] := by
  have hf := forall₂_mapsLines h
  clear h
  induction hf with
  | nil => simp
  | cons ha _ ih => exact forall_mem_cons.2 ⟨mapsLine_ne_nil ha, ih⟩

theorem clip_short (h : ∀ line ∈ lines, line.length ≤ off) :
    (lines.flatMap fun line => (line.drop off).take siz) = [] := by
  rw [flatMap_eq_nil_iff]
  intro line hline
  rw [drop_of_length_le (h line hline), take_nil]

theorem clip_whole (h : lines.flatten.length ≤ siz) :
    (lines.flatMap fun line => (line.drop 0).take siz) = lines.flatten := by
  rw [flatMap_def]
  congr 1
  refine (map_congr_left fun line hline => ?_).trans (map_id _)
  exact take_of_length_le ((sublist_flatten_of_mem hline).length_le.trans h)

/-- Where `Whole` holds, clipping each line is clipping the text. -/
theorem clip_eq (hw : Whole lines siz off) :
    (lines.flatMap fun line => (line.drop off).take siz) = (lines.flatten.drop off).take siz := by
  rcases hw with hl | rfl | hoff | ⟨rfl, hsiz⟩ | ⟨hin, hrest⟩
  · match lines, hl with
    | [], _ => simp
    | [line], _ => simp
  · simp
  · rw [clip_short fun line hline => (sublist_flatten_of_mem hline).length_le.trans hoff,
      drop_of_length_le hoff, take_nil]
  · rw [clip_whole hsiz, drop_zero, take_of_length_le hsiz]
  · cases lines with
    | nil => simp
    | cons line rest =>
      rw [headD_cons] at hin
      rw [tail_cons] at hrest
      rw [flatMap_cons, clip_short hrest, append_nil, flatten_cons]
      rw [drop_append_of_le_length (by omega), take_append_of_le_length (by rw [length_drop]; omega)]

/-- With two lines a read of one byte writes two, so that every read is right with one line at most only. -/
theorem clip_iff (h : ∀ line ∈ lines, line ≠ []) :
    (∀ siz off, (lines.flatMap fun line => (line.drop off).take siz) = (lines.flatten.drop off).take siz) ↔
      lines.length ≤ 1 := by
  refine ⟨fun hread => ?_, fun hl siz off => clip_eq (.inl hl)⟩
  match lines with
  | [] => simp
  | [line] => simp
  | [] :: _ | _ :: [] :: _ => simp at h
  | (c :: line) :: (c' :: line') :: rest =>
    have h1 := congrArg length (hread 1 0)
    simp at h1

/-! ## Reads one behind the other -/

/-- A file that is read from its beginning: the offset and what was read. -/
structure Reader where
  off : Nat
  got : List Char

def readStep (path : Option Nat → List Char) (l : List Area) (s : Reader) (siz : Nat) : Option Reader :=
  (pidMapsRead path siz s.off l).map fun bytes => ⟨s.off + bytes.length, s.got ++ bytes⟩

theorem readStep_take (h : mapsLines path l = some lines) (s : Reader) (n siz : Nat)
    (hs : s.off = (lines.flatten.take n).length ∧ s.got = lines.flatten.take n) (hw : Whole lines siz s.off) :
    ∃ s', readStep path l s siz = some s' ∧ s'.off = (lines.flatten.take (n + siz)).length ∧
      s'.got = lines.flatten.take (n + siz) := by
  have hdrop : lines.flatten.drop s.off = lines.flatten.drop n := by
    rw [hs.1, length_take]
    rcases le_total n lines.flatten.length with hn | hn
    · rw [Nat.min_eq_left hn]
    · rw [Nat.min_eq_right hn, drop_of_length_le le_rfl, drop_of_length_le hn]
  rw [readStep, pidMapsRead_eq h, clip_eq hw, hdrop]
  refine ⟨_, rfl, ?_, ?_⟩
  · rw [take_add, length_append, ← hs.1]
  · rw [take_add, ← hs.2]

/-- **Reading the areas**: every read returns the bytes of the text at its offset, as many as there are up to its size,
with one area at most and with no other number of them. With more areas a read that is `Whole` does, and reads of any
sizes one behind the other return the text up to the sum of the sizes. -/
theorem maps_read (path : Option Nat → List Char) (l : List Area) (lines : List (List Char))
    (h : mapsLines path l = some lines) :
    ((∀ siz off, pidMapsRead path siz off l = some ((lines.flatten.drop off).take siz)) ↔ l.length ≤ 1) ∧
    (∀ siz off, Whole lines siz off → pidMapsRead path siz off l = some ((lines.flatten.drop off).take siz)) ∧
    ∀ sizes, Meets (readStep path l) (fun s siz => Whole lines siz s.off) ⟨0, []⟩ sizes →
      ∃ s, run (readStep path l) ⟨0, []⟩ sizes = some s ∧ s.got = lines.flatten.take sizes.sum := by
  refine ⟨?_, fun siz off hw => by rw [pidMapsRead_eq h, clip_eq hw], fun sizes hm => ?_⟩
  · simp only [pidMapsRead_eq h, Option.some.injEq]
    rw [clip_iff (ne_nil_of_mapsLines h), (forall₂_mapsLines h).length_eq]
  · obtain ⟨s, hr, -, hgot⟩ := run_meets_sim (readStep_take h) ⟨rfl, rfl⟩ hm (t := 0)
    exact ⟨s, hr, by rw [hgot, sum_eq_foldl]⟩

/-- Code and heap. -/
def mapped : List Area := [⟨0x1000, 0x2000, 0, 5, .user, 0, none⟩, ⟨0x3000, 0x4000, 0, 3, .heap, 0, none⟩]

/-- One read takes both lines, and the next one finds the end. -/
theorem maps_read_heap : ∃ lines, mapsLines (fun _ => []) mapped = some lines ∧
    ∃ s, run (readStep (fun _ => []) mapped) ⟨0, []⟩ [100, 7] = some s ∧ s.got = lines.flatten.take 107 := by
  obtain ⟨lines, h⟩ : ∃ lines, mapsLines (fun _ => []) mapped = some lines := ⟨_, rfl⟩
  have hlen : lines.flatten.length = 46 := by
    cases h
    decide +kernel
  have hw : Whole lines 100 0 := .inr (.inr (.inr (.inl ⟨rfl, by omega⟩)))
  refine ⟨lines, h, (maps_read (fun _ => []) mapped lines h).2.2 [100, 7] ⟨hw, fun s hs => ⟨?_, fun _ _ => trivial⟩⟩⟩
  rw [readStep, pidMapsRead_eq h, clip_eq hw] at hs
  cases hs
  exact .inr (.inr (.inl (by simp [hlen])))

/-- A read of one byte writes two. -/
theorem maps_overrun : pidMapsRead (fun _ => []) 1 0 mapped = some ['0', '0'] := by decide +kernel

end TextOS.ProcMaps
