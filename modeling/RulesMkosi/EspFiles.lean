/-
  The EFI system partition of a release disk image
  (`mkosi/private/esp_files.py`).

  `copyRange` copies a range of a file block by block.  With `sparse` a block of
  zeros is skipped, which leaves the old bytes of the destination; its result is
  the copied range where the destination reads as zeros, and an exact copy
  without `sparse` (`copyRange_eq_ok`).
-/
import RulesMkosi.PartitionMetadata
import RulesMkosi.Lib.Sink
import RulesMkosi.Lib.Dict

namespace RulesMkosi.EspFiles

open PartitionMetadata (ImageMetadata)

/-- `gpt.ESP` -/
def espType : Str := "c12a7328-f81f-11d2-ba4b-00a0c93ec93b".toList

/-- `_CHUNK` -/
def chunk : ℕ := 2 ^ 20

/-- The byte offset and size of the only EFI system partition. -/
def espExtent (metadata : ImageMetadata) : Except Exn (ℕ × ℕ) :=
  match metadata.partitions.filter (·.typeGuid = espType) with
  | [esp] => .ok (esp.startBytes, esp.sizeBytes)
  | esps => .error (.valueError ("image must contain exactly one EFI system partition, found " ++
      toString esps.length))

section
variable (name : String) (source : Bytes) (offset size destinationOffset : ℕ) (sparse : Bool)

/-- At most `fuel` rounds of the loop of `copy_range`. -/
def copyLoop : ℕ → ℕ → Sink → Except Exn Sink
  | 0, _, writer => .ok writer
  | fuel + 1, copied, writer =>
    if copied < size then do
      let position := offset + copied
      let block := slice source position (position + min chunk (size - copied))
      raiseIf (block = [])
        (.valueError (name ++ " ends before byte " ++ toString (offset + size)))
      let writer :=
        if ¬ sparse ∨ block.count 0 ≠ block.length then
          (writer.seekTo (destinationOffset + copied)).write block
        else writer
      copyLoop fuel (copied + block.length) writer
    else .ok writer

/-- `copy_range` from the file `name` with the bytes `source` to another file, which has the bytes
    `destination` or does not exist.  Every round of the loop copies a byte. -/
def copyRange (destination : Option Bytes) : Except Exn Bytes := do
  let writer ← copyLoop name source offset size destinationOffset sparse size 0
    ⟨destination.getD [], 0⟩
  return (writer.truncateTo (max writer.content.length (destinationOffset + size))).content

end

/-- Copies the EFI system partition to a new file and returns its offset and its bytes. -/
def extractEsp (name : String) (image : Bytes) (metadata : ImageMetadata) :
    Except Exn (ℕ × Bytes) := do
  let (offset, size) ← espExtent metadata
  let esp ← copyRange name image offset size 0 true none
  return (offset, esp)

/-! ## Copying -/

theorem chunk_pos : 0 < chunk := by decide

/-- The file `data` after the first `copied` bytes of the range were copied over `old`: where the
    copy skips zeros, `old` reads as zeros too. -/
structure Copied (source : Bytes) (offset destinationOffset copied : ℕ) (old data : Bytes) : Prop where
  bytes : ∀ i, data.getD i 0 =
    if destinationOffset ≤ i ∧ i < destinationOffset + copied
      then source.getD (offset + (i - destinationOffset)) 0 else old.getD i 0
  le_length : old.length ≤ data.length
  length_le : data.length ≤ max old.length (destinationOffset + copied)

/-- The range that sparse copying needs to read as zeros. -/
def Clean (sparse : Bool) (old : Bytes) (a b : ℕ) : Prop :=
  sparse = true → ∀ i, a ≤ i → i < b → old.getD i 0 = 0

theorem getD_slice {data : Bytes} {a b i : ℕ} (h : i < (slice data a b).length) :
    (slice data a b).getD i 0 = data.getD (a + i) 0 := by
  have hle := length_slice_le data a b
  rw [List.getD_eq_getElem?_getD, List.getD_eq_getElem?_getD, getElem?_slice, if_pos (by omega)]

section
variable {name : String} {source : Bytes} {offset size destinationOffset : ℕ} {sparse : Bool}
  {old : Bytes}

/-- One block: written, or skipped where it and the destination are zeros. -/
theorem Copied.step {copied : ℕ} {writer : Sink} {block : Bytes} (hne : block ≠ [])
    (h : Copied source offset destinationOffset copied old writer.content)
    (hclean : Clean sparse old destinationOffset (destinationOffset + size))
    (hblock : ∀ i < block.length, block.getD i 0 = source.getD (offset + copied + i) 0)
    (hsize : copied + block.length ≤ size) :
    Copied source offset destinationOffset (copied + block.length) old
      (if ¬ sparse ∨ block.count 0 ≠ block.length then
        (writer.seekTo (destinationOffset + copied)).write block else writer).content := by
  have hlength := h.length_le
  have hle := h.le_length
  split_ifs with hwrite
  · have hwritten : (writer.seekTo (destinationOffset + copied)).content = writer.content := rfl
    have hpos : (writer.seekTo (destinationOffset + copied)).pos = destinationOffset + copied := rfl
    have hlen := Sink.length_write (f := writer.seekTo (destinationOffset + copied)) hne
    rw [hwritten, hpos] at hlen
    refine ⟨fun i => ?_, by omega, by omega⟩
    rw [Sink.getD_write, hpos, hwritten]
    by_cases hi : destinationOffset + copied ≤ i ∧ i < destinationOffset + copied + block.length
    · have hpos' : i - (destinationOffset + copied) < block.length := by omega
      rw [if_pos hi, if_pos (by omega), hblock _ hpos']
      congr 1
      omega
    · rw [if_neg hi, h.bytes i]
      by_cases hi' : destinationOffset ≤ i ∧ i < destinationOffset + copied
      · rw [if_pos hi', if_pos (by omega)]
      · rw [if_neg hi', if_neg (by omega)]
  · simp only [not_or, not_not] at hwrite
    obtain ⟨hsparse, hzero⟩ := hwrite
    have hzero : ∀ b ∈ block, 0 = b := List.count_eq_length.1 hzero
    refine ⟨fun i => ?_, hle, by omega⟩
    rw [h.bytes i]
    by_cases hi : destinationOffset ≤ i ∧ i < destinationOffset + copied
    · rw [if_pos hi, if_pos (by omega)]
    · rw [if_neg hi]
      by_cases hi' : destinationOffset ≤ i ∧ i < destinationOffset + (copied + block.length)
      · -- a byte of the skipped block
        have hpos : i - destinationOffset - copied < block.length := by omega
        have hsource : offset + copied + (i - destinationOffset - copied) =
            offset + (i - destinationOffset) := by omega
        rw [if_pos hi', hclean hsparse i hi'.1 (by omega), ← hsource, ← hblock _ hpos,
          List.getD_eq_getElem?_getD, List.getElem?_eq_getElem hpos]
        exact hzero _ (List.getElem_mem hpos)
      · rw [if_neg hi']

theorem copyLoop_copied (hclean : Clean sparse old destinationOffset (destinationOffset + size)) :
    ∀ {fuel copied : ℕ} {writer writer' : Sink}, size - copied ≤ fuel → copied ≤ size →
      Copied source offset destinationOffset copied old writer.content →
      copyLoop name source offset size destinationOffset sparse fuel copied writer = .ok writer' →
      Copied source offset destinationOffset size old writer'.content ∧
        (copied = size ∨ offset + size ≤ source.length)
  | 0, copied, writer, writer', hfuel, hle, h, hrun => by
    obtain rfl : copied = size := by omega
    cases hrun
    exact ⟨h, .inl rfl⟩
  | fuel + 1, copied, writer, writer', hfuel, hle, h, hrun => by
    unfold copyLoop at hrun
    split_ifs at hrun with hlt
    · simp only [bind_eq_ok, raiseIf_eq_ok, exists_unit] at hrun
      obtain ⟨hne, hrun⟩ := hrun
      have hpos : 0 < (slice source (offset + copied)
          (offset + copied + min chunk (size - copied))).length := List.length_pos_iff.2 hne
      have hlen := length_slice_le source (offset + copied)
        (offset + copied + min chunk (size - copied))
      have hsource : offset + copied + (slice source (offset + copied)
          (offset + copied + min chunk (size - copied))).length ≤ source.length := by
        have : (slice source (offset + copied)
            (offset + copied + min chunk (size - copied))).length ≤
              source.length - (offset + copied) := by
          simp only [slice, List.length_take, List.length_drop]
          omega
        omega
      obtain ⟨hcopied, hinside⟩ := copyLoop_copied hclean (by omega) (by omega)
        (h.step hne hclean (fun i hi => getD_slice hi) (by omega)) hrun
      refine ⟨hcopied, .inr ?_⟩
      rcases hinside with hend | hinside
      · omega
      · exact hinside
    · obtain rfl : copied = size := by omega
      cases hrun
      exact ⟨h, .inl rfl⟩

/-- The loop does not raise inside the source. -/
theorem copyLoop_ok (hinside : offset + size ≤ source.length) :
    ∀ (fuel copied : ℕ) (writer : Sink),
      ∃ writer', copyLoop name source offset size destinationOffset sparse fuel copied writer =
        .ok writer'
  | 0, _, writer => ⟨writer, rfl⟩
  | fuel + 1, copied, writer => by
    unfold copyLoop
    split_ifs with hlt
    · have hne : slice source (offset + copied) (offset + copied + min chunk (size - copied)) ≠ [] := by
        have hpos := chunk_pos
        rw [← List.length_pos_iff, length_slice (by omega)]
        omega
      dsimp only
      rw [raiseIf_of_not hne, ok_bind]
      exact copyLoop_ok hinside fuel _ _
    · exact ⟨writer, rfl⟩

/-- **What `copy_range` makes.**  It returns iff the source has the range; the destination then has
    the range and keeps its other bytes. -/
theorem copyRange_eq_ok {destination : Option Bytes} {data : Bytes}
    (hclean : Clean sparse (destination.getD []) destinationOffset (destinationOffset + size))
    (h : copyRange name source offset size destinationOffset sparse destination = .ok data) :
    (size = 0 ∨ offset + size ≤ source.length) ∧
      data.length = max (destination.getD []).length (destinationOffset + size) ∧
      ∀ i, data.getD i 0 = if destinationOffset ≤ i ∧ i < destinationOffset + size
        then source.getD (offset + (i - destinationOffset)) 0 else (destination.getD []).getD i 0 := by
  simp only [copyRange, bind_eq_ok, pure_eq_ok] at h
  obtain ⟨writer, hloop, rfl⟩ := h
  have hstart : Copied source offset destinationOffset 0 (destination.getD []) (destination.getD []) :=
    ⟨fun i => by rw [if_neg (by omega)], le_rfl, le_max_left _ _⟩
  obtain ⟨hcopied, hinside⟩ := copyLoop_copied hclean (by omega) (Nat.zero_le _) hstart hloop
  have hlength := hcopied.length_le
  have hle := hcopied.le_length
  refine ⟨hinside.imp Eq.symm id, ?_, fun i => ?_⟩
  · rw [Sink.length_truncateTo]
    omega
  · rw [Sink.getD_truncateTo (le_max_left _ _), hcopied.bytes]

theorem copyRange_ok {destination : Option Bytes} (hinside : offset + size ≤ source.length) :
    ∃ data, copyRange name source offset size destinationOffset sparse destination = .ok data := by
  obtain ⟨writer, hwriter⟩ := @copyLoop_ok name source offset size destinationOffset sparse hinside
    size 0 ⟨destination.getD [], 0⟩
  exact ⟨_, by rw [copyRange, hwriter, ok_bind]; rfl⟩

end

/-- Lists of equal length with the same bytes are equal. -/
theorem eq_of_getD {data data' : Bytes} (hlen : data.length = data'.length)
    (h : ∀ i < data.length, data.getD i 0 = data'.getD i 0) : data = data' := by
  refine List.ext_getElem hlen fun i hi hi' => ?_
  have := h i hi
  rwa [List.getD_eq_getElem?_getD, List.getD_eq_getElem?_getD, List.getElem?_eq_getElem hi,
    List.getElem?_eq_getElem hi'] at this

/-- **A sparse copy to a new file** is the range, whatever its blocks of zeros. -/
theorem copyRange_fresh {name : String} {source : Bytes} {offset size : ℕ} {sparse : Bool}
    {data : Bytes} (h : copyRange name source offset size 0 sparse none = .ok data) :
    data = slice source offset (offset + size) ∧ (size = 0 ∨ offset + size ≤ source.length) := by
  have hclean : Clean sparse (Option.getD none []) 0 (0 + size) := fun _ i _ _ => rfl
  obtain ⟨hinside, hlen, hbytes⟩ := copyRange_eq_ok hclean h
  have hlen' : (slice source offset (offset + size)).length = size := by
    rcases hinside with hzero | hinside
    · rw [hzero]
      simp [slice]
    · rw [length_slice hinside]
      omega
  have hsize : data.length = size := by simpa using hlen
  refine ⟨eq_of_getD (hsize.trans hlen'.symm) fun i hi => ?_, hinside⟩
  rw [hbytes, if_pos (by omega), getD_slice (by omega)]
  rfl

end RulesMkosi.EspFiles
