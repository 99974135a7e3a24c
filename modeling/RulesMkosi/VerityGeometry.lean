/-
  The geometry of the dm-verity levels (`mkosi/private/verity_metadata.py`).

  The hash block size that the superblock states is only bounded by the digest
  size, and the tree starts one hash block into the image.  `levelGeometry_iff` says
  for which superblocks the levels are where they should be: with hash blocks
  below 512 bytes the tree starts inside the superblock.
-/
import RulesMkosi.Lib.Extent
import RulesMkosi.Sha256
import RulesMkosi.VerityTree

namespace RulesMkosi.VerityMetadata

open Merkle Extent

/-! ## Block counts -/

/-- A tree over several digests ends with one block. -/
theorem counts_getLast_eq {perBlock n : ℕ} {counts : List ℕ} (h : Counts perBlock n counts)
    (hpos : 0 < perBlock) : 1 < n → counts.getLast? = some 1 := by
  induction h with
  | done few =>
    intro hn
    omega
  | @more n counts several above ih =>
    intro _
    have hblocks := blockCount_pos hpos (Nat.zero_lt_of_lt several)
    cases above with
    | done few =>
      have hone : blockCount perBlock n = 1 := by omega
      simp [hone]
    | more hmany _ =>
      rw [List.getLast?_cons_cons]
      exact ih hmany

/-- With two digests in a block the levels get smaller until one block is left. -/
theorem exists_counts {perBlock : ℕ} (htwo : 2 ≤ perBlock) (n : ℕ) :
    ∃ counts, Counts perBlock n counts := by
  induction n using Nat.strong_induction_on with
  | _ n ih =>
    by_cases hn : 1 < n
    · have hless : blockCount perBlock n < n := by
        unfold blockCount
        rw [Nat.div_lt_iff_lt_mul (by omega)]
        have hmul : n * 2 ≤ n * perBlock := Nat.mul_le_mul_left n htwo
        have hperBlock : perBlock * 2 ≤ perBlock * n := Nat.mul_le_mul_left perBlock hn
        rw [Nat.mul_comm perBlock n] at hperBlock
        omega
      obtain ⟨counts, hcounts⟩ := ih _ hless
      exact ⟨_, .more hn hcounts⟩
    · exact ⟨[], .done (by omega)⟩

/-- The only error is the one of the level limit. -/
theorem levelCountsLoop_eq_error {perBlock : ℕ} {e : Exn} : ∀ {rounds digests : ℕ} {counts : List ℕ},
    levelCountsLoop perBlock rounds counts digests = .error e →
      e = .valueError "dm-verity tree exceeds the level limit"
  | 0, _, _, h => (Except.error.inj h).symm
  | rounds + 1, digests, counts, h => by
    unfold levelCountsLoop at h
    split_ifs at h with hmore
    rcases bind_eq_error.1 h with h | ⟨-, -, h⟩
    · exact (raiseIf_eq_error.1 h).2.symm
    · exact levelCountsLoop_eq_error h

/-! ## Levels -/

section
variable (counts : List ℕ) (treeOffset blockSize : ℕ)

/-- The levels in the hash image, the lowest one first: their offsets and sizes. -/
def levelExtents : List Extent :=
  (counts.zip (levelOffsets counts treeOffset blockSize).1).map
    fun level => ⟨level.2, level.1 * blockSize⟩

theorem levelExtents_cons (count : ℕ) : levelExtents (count :: counts) treeOffset blockSize =
    ⟨treeOffset + counts.sum * blockSize, count * blockSize⟩ ::
      levelExtents counts treeOffset blockSize := by
  rw [levelExtents, levelOffsets_cons, List.zip_cons_cons, List.map_cons, levelExtents]

/-- From the top level down, the levels follow each other and fill the tree. -/
theorem levelExtents_tiles : Tiles treeOffset (levelExtents counts treeOffset blockSize).reverse
    (treeOffset + (levelOffsets counts treeOffset blockSize).2) := by
  rw [levelOffsets_size]
  induction counts with
  | nil =>
    rw [List.sum_nil, Nat.zero_mul, Nat.add_zero]
    exact .nil
  | cons count counts ih =>
    rw [levelExtents_cons, List.reverse_cons, List.sum_cons]
    refine ih.append ?_
    have hsum : treeOffset + (count + counts.sum) * blockSize =
        treeOffset + counts.sum * blockSize + count * blockSize := by
      rw [Nat.add_mul]
      omega
    rw [hsum]
    exact .cons .nil

theorem length_levelOffsets : (levelOffsets counts treeOffset blockSize).1.length = counts.length := by
  induction counts with
  | nil => rfl
  | cons count counts ih => rw [levelOffsets_cons, List.length_cons, List.length_cons, ih]

end

/-! ## Superblocks -/

/-- The extent of the superblock. -/
def superblockExtent : Extent := ⟨0, superblockSize⟩

/-- The levels of a tree that starts at `treeOffset` are where they should be. -/
structure LevelsPlaced (g : Geometry) (treeOffset : ℕ) (counts : List ℕ) : Prop where
  one_block : 1 < g.dataBlocks → counts.getLast? = some 1
  offsets : (levelOffsets counts treeOffset g.hashBlockSize).1.length = counts.length
  contiguous : Tiles treeOffset (levelExtents counts treeOffset g.hashBlockSize).reverse
    (treeOffset + (levelOffsets counts treeOffset g.hashBlockSize).2)
  disjoint : (levelExtents counts treeOffset g.hashBlockSize).Pairwise
    fun e f => Disjoint e.bytes f.bytes
  superblock : ∀ e ∈ levelExtents counts treeOffset g.hashBlockSize,
    Disjoint e.bytes superblockExtent.bytes

/-- The level geometry of a superblock, for the tree offset that `project` uses. -/
def LevelGeometry (g : Geometry) : Prop :=
  (2 ≤ g.perBlock → ∃ counts, levelCounts g.dataBlocks g.perBlock = .ok counts ∧
    LevelsPlaced g g.hashBlockSize counts) ∧
  (g.perBlock = 1 → 1 < g.dataBlocks → levelCounts g.dataBlocks g.perBlock =
    .error (.valueError "dm-verity tree exceeds the level limit"))

section
variable {g : Geometry}

/-- With one digest in a block the level limit stops the loop. -/
theorem levelCounts_one (hblocks : g.dataBlocks ≤ maxBlocks) (hmany : 1 < g.dataBlocks)
    (hone : g.perBlock = 1) : levelCounts g.dataBlocks g.perBlock =
      .error (.valueError "dm-verity tree exceeds the level limit") := by
  cases hcounts : levelCounts g.dataBlocks g.perBlock with
  | error e => rw [levelCountsLoop_eq_error hcounts]
  | ok counts =>
    rw [levelCounts_eq_ok (by omega) hblocks, hone] at hcounts
    exact absurd hcounts.le_one (by omega)

/-- The levels overlap the superblock if there are any and the tree starts inside it. -/
theorem levels_apart_iff {counts : List ℕ} (hblock : 0 < g.hashBlockSize)
    (hcounts : ∀ count ∈ counts, 0 < count) :
    (∀ e ∈ levelExtents counts g.hashBlockSize g.hashBlockSize,
      Disjoint e.bytes superblockExtent.bytes) ↔ counts = [] ∨ superblockSize ≤ g.hashBlockSize := by
  have htiles := levelExtents_tiles counts g.hashBlockSize g.hashBlockSize
  constructor
  · intro hapart
    by_contra hnot
    obtain ⟨hne, hlt⟩ := not_or.1 hnot
    have hsum : 0 < counts.sum := by
      obtain ⟨count, rest, rfl⟩ := List.exists_cons_of_ne_nil hne
      have := hcounts count (by simp)
      rw [List.sum_cons]
      omega
    have hsize : 0 < (levelOffsets counts g.hashBlockSize g.hashBlockSize).2 := by
      rw [levelOffsets_size]
      exact Nat.mul_pos hsum hblock
    -- the first byte of the tree belongs to a level
    obtain ⟨e, he, hmem⟩ := htiles.mem_iff.2 ⟨le_rfl, Nat.lt_add_of_pos_right hsize⟩
    refine Extent.not_disjoint hmem ?_ (hapart e (List.mem_reverse.1 he))
    exact ⟨Nat.zero_le _, by simp only [superblockExtent, Extent.stop]; omega⟩
  · rintro (rfl | hle) e he
    · simp [levelExtents] at he
    · refine (Extent.Before.disjoint ?_).symm
      have hstart := (htiles.inside e (List.mem_reverse.2 he)).1
      simp only [Extent.Before, superblockExtent, Extent.stop]
      omega

theorem counts_pos {perBlock n : ℕ} {counts : List ℕ} (h : Counts perBlock n counts)
    (hpos : 0 < perBlock) : ∀ count ∈ counts, 0 < count := by
  induction h with
  | done few => simp
  | more several _ ih =>
    intro count hcount
    rcases List.mem_cons.1 hcount with rfl | hcount
    · exact blockCount_pos hpos (Nat.zero_lt_of_lt several)
    · exact ih count hcount

theorem counts_eq_nil_iff {perBlock n : ℕ} {counts : List ℕ} (h : Counts perBlock n counts) :
    counts = [] ↔ n ≤ 1 := by
  cases h with
  | done few => exact ⟨fun _ => few, fun _ => rfl⟩
  | more several _ => exact ⟨fun hnil => absurd hnil (by simp), fun hfew => absurd several (by omega)⟩

theorem LevelsPlaced.of_counts {treeOffset : ℕ} {counts : List ℕ} (hpos : 0 < g.perBlock)
    (hcounts : Counts g.perBlock g.dataBlocks counts)
    (hapart : ∀ e ∈ levelExtents counts treeOffset g.hashBlockSize,
      Disjoint e.bytes superblockExtent.bytes) : LevelsPlaced g treeOffset counts where
  one_block := counts_getLast_eq hcounts hpos
  offsets := length_levelOffsets _ _ _
  contiguous := levelExtents_tiles _ _ _
  disjoint := by
    have hbefore := (levelExtents_tiles counts treeOffset g.hashBlockSize).before
    rw [List.pairwise_reverse] at hbefore
    exact hbefore.imp fun h => h.disjoint.symm
  superblock := hapart

end

/-- **Level geometry.**  For every superblock that is accepted, the levels are where they should be
    if and only if the tree starts behind the superblock, or has no level, or its blocks hold one
    digest (and the level limit rejects it). -/
theorem levelGeometry_iff (P : Platform) (hashImage : Bytes) (g : Geometry)
    (h : readSuperblock P hashImage = .ok g) :
    LevelGeometry g ↔ superblockSize ≤ g.hashBlockSize ∨ g.dataBlocks = 1 ∨ g.perBlock = 1 := by
  have hsuper := readSuperblock_eq_ok.1 h
  have hpos := hsuper.fits.pos
  have hblocks := hsuper.data_blocks_bounds
  have hslot : 0 < g.slotSize := hsuper.slot_size ▸ digestSlot_pos _
  have hblock : 0 < g.hashBlockSize := hslot.trans_le hsuper.slot_fits
  have hapart : ∀ counts, Counts g.perBlock g.dataBlocks counts →
      ((∀ e ∈ levelExtents counts g.hashBlockSize g.hashBlockSize,
        Disjoint e.bytes superblockExtent.bytes) ↔
        g.dataBlocks ≤ 1 ∨ superblockSize ≤ g.hashBlockSize) := fun counts hcounts => by
    rw [levels_apart_iff hblock (counts_pos hcounts hpos), counts_eq_nil_iff hcounts]
  constructor
  · rintro ⟨hseveral, -⟩
    by_cases htwo : 2 ≤ g.perBlock
    · obtain ⟨counts, hcounts, hplaced⟩ := hseveral htwo
      rw [levelCounts_eq_ok hpos hblocks.2] at hcounts
      rcases (hapart counts hcounts).1 hplaced.superblock with hfew | hlarge
      · exact .inr (.inl (by omega))
      · exact .inl hlarge
    · exact .inr (.inr (by omega))
  · intro hcondition
    constructor
    · intro htwo
      obtain ⟨counts, hcounts⟩ := exists_counts htwo g.dataBlocks
      refine ⟨counts, (levelCounts_eq_ok hpos hblocks.2).2 hcounts, .of_counts hpos hcounts ?_⟩
      refine (hapart counts hcounts).2 ?_
      rcases hcondition with hlarge | hone | hone
      · exact .inr hlarge
      · exact .inl hone.le
      · omega
    · exact fun hone hmany => levelCounts_one hblocks.2 hmany hone

theorem levelGeometry_iff_example : ∃ g,
    readSuperblock examplePlatform exampleHashImage = .ok g ∧ LevelGeometry g := by
  have hrun : (readSuperblock examplePlatform exampleHashImage).isOk = true := by decide +kernel
  cases hread : readSuperblock examplePlatform exampleHashImage with
  | error e => rw [hread] at hrun; cases hrun
  | ok g =>
    have hblock : g.hashBlockSize = 512 := by
      rw [(readSuperblock_eq_ok.1 hread).hash_block_size]
      decide
    exact ⟨g, rfl, (levelGeometry_iff examplePlatform exampleHashImage g hread).2
      (.inl (by rw [hblock, superblockSize]))⟩

/-! ## Hash blocks of 64 bytes -/

/-- `hashlib.sha256` -/
def sha256Digest : Digest where
  size := 32
  hash data := beBytes 32 (Fips180.bitsNat (Fips180.sha256 (Sha256.bytesBits data)))
  length_hash _ := length_beBytes _ _

def sha256Platform : Platform where
  algorithms name := if name = "sha256".toList then some sha256Digest else none
  readText file := some (file.map fun b => Char.ofNat b.toNat)
  lower := List.map Char.toLower
  sha256 _ := ""

/-- Two data blocks of 512 bytes, and hash blocks with room for two digests. -/
def smallSuperblock : Bytes :=
  superblockMagic ++ leBytes 4 1 ++ leBytes 4 1 ++ zeros 16 ++
    [0x73, 0x68, 0x61, 0x32, 0x35, 0x36] ++ zeros 26 ++ leBytes 4 512 ++ leBytes 4 64 ++ leBytes 8 2 ++
    leBytes 2 0 ++ zeros 430

/-- The only level of the tree starts at byte 64, inside the superblock. -/
theorem levelGeometry_overlap : ¬ ∀ (P : Platform) (hashImage : Bytes) (g : Geometry),
    readSuperblock P hashImage = .ok g → LevelGeometry g := by
  intro hall
  have hrun : (readSuperblock sha256Platform smallSuperblock).isOk = true := by decide +kernel
  cases hread : readSuperblock sha256Platform smallSuperblock with
  | error e => rw [hread] at hrun; cases hrun
  | ok g =>
    have hsuper := readSuperblock_eq_ok.1 hread
    have hblock : g.hashBlockSize = 64 := by
      rw [hsuper.hash_block_size]
      decide
    have hblocks : g.dataBlocks = 2 := by
      rw [hsuper.data_blocks]
      decide
    have halgorithm : g.algorithm = "sha256".toList := by
      rw [hsuper.algorithm]
      decide
    have hdigest : g.digest = sha256Digest := by
      have h := hsuper.digest
      rw [halgorithm] at h
      exact (Option.some.inj h).symm
    have hslot : g.slotSize = 32 := by
      rw [hsuper.slot_size, hdigest]
      decide
    have hperBlock : g.perBlock = 2 := by rw [Geometry.perBlock, hblock, hslot]
    obtain ⟨counts, hcounts, hplaced⟩ := (hall _ _ g hread).1 hperBlock.ge
    rw [hblocks, hperBlock] at hcounts
    obtain rfl : counts = [1] := by
      have hrun : levelCounts 2 2 = .ok [1] := by decide
      exact (Except.ok.inj (hrun.symm.trans hcounts)).symm
    have hlevel : levelExtents [1] 64 64 = [⟨64, 64⟩] := by decide
    have hdisjoint := hplaced.superblock
    rw [hblock, hlevel] at hdisjoint
    refine Extent.not_disjoint (i := 64) ?_ ?_ (hdisjoint _ (List.mem_singleton_self _))
    · exact ⟨le_rfl, by decide⟩
    · exact ⟨by decide, by decide⟩

end RulesMkosi.VerityMetadata
