/-
  dm-verity verification is exact.

  The reference is a hash image that holds a superblock, zeros, the hash tree of
  the root image's data blocks (`Merkle.Tree`, top level first) and zeros.
  `project` accepts an image iff it is the reference image (`project_exact`).
-/
import RulesMkosi.VerityMetadata

namespace RulesMkosi.VerityMetadata

open Merkle

/-! ## The reference -/

/-- A format 1 superblock and what it says. -/
structure IsSuperblock (P : Platform) (value : Bytes) (g : Geometry) : Prop where
  length : value.length = superblockSize
  magic : value.take 8 = superblockMagic
  version : field value 8 4 = 1
  hash_type : field value 12 4 = 1
  ascii : ∀ b ∈ (slice value 32 64).takeWhile (· ≠ 0), b.toNat < 0x80
  algorithm : g.algorithm = ((slice value 32 64).takeWhile (· ≠ 0)).map fun b => Char.ofNat b.toNat
  digest : P.algorithms g.algorithm = some g.digest
  data_block_size : g.dataBlockSize = field value 64 4
  data_block_bounds : 512 ≤ g.dataBlockSize ∧ g.dataBlockSize ≤ 1024 * 1024
  data_block_pow : g.dataBlockSize.isPowerOfTwo
  hash_block_size : g.hashBlockSize = field value 68 4
  hash_block_bounds : g.digest.size ≤ g.hashBlockSize ∧ g.hashBlockSize ≤ 1024 * 1024
  hash_block_pow : g.hashBlockSize.isPowerOfTwo
  slot_size : g.slotSize = digestSlot g.digest.size
  slot_fits : g.slotSize ≤ g.hashBlockSize
  data_blocks : g.dataBlocks = field value 72 8
  data_blocks_bounds : 0 < g.dataBlocks ∧ g.dataBlocks ≤ maxBlocks
  salt_bounds : field value 80 2 ≤ 256
  salt : g.salt = slice value 88 (88 + field value 80 2)
  superblock : g.superblock = value

section
variable (g : Geometry)

/-- A hash block: the digests in their slots, then zeros. -/
def packBlock (ds : List Bytes) : Bytes :=
  (ds.map fun d => d ++ zeros (g.slotSize - g.digest.size)).flatten ++
    zeros (g.hashBlockSize - ds.length * g.slotSize)

/-- The salted digests of the data blocks. -/
def leaves (rootImage : Bytes) : List Bytes :=
  (List.range g.dataBlocks).map fun i =>
    g.hashed (slice rootImage (i * g.dataBlockSize) (i * g.dataBlockSize + g.dataBlockSize))

end

/-- What an accepted set of artifacts is. -/
def IsVerity (P : Platform) (rootHashFile : Bytes) (partitions : List PartitionRecord)
    (rootImage hashImage : Bytes) : Prop :=
  ∃ (rootPartition hashPartition : PartitionRecord) (g : Geometry) (tree top : Bytes) (padding : ℕ)
    (text : Str),
    (ofType partitions rootX86_64 = [rootPartition] ∧
      ofType partitions rootX86_64Verity = [hashPartition] ∧
      ofType partitions rootX86_64VeritySig = []) ∧
    (rootImage.length = rootPartition.sizeBytes ∧ hashImage.length = hashPartition.sizeBytes) ∧
    IsSuperblock P (hashImage.take superblockSize) g ∧
    hashImage = hashImage.take superblockSize ++ zeros (g.hashBlockSize - superblockSize) ++ tree ++
      zeros padding ∧
    (g.dataBlocks * g.dataBlockSize ≤ rootImage.length ∧
      AllZero (rootImage.drop (g.dataBlocks * g.dataBlockSize))) ∧
    (0 < g.digest.size ∧ Tree g.perBlock (packBlock g) g.hashed (leaves g rootImage) tree top) ∧
    P.readText rootHashFile = some text ∧ P.lower (strip text) = hex top

/-- The resource limits that the code checks. -/
structure WithinLimits (P : Platform) (rootImage hashImage : Bytes) : Prop where
  root : rootImage.length ≤ maxArtifactBytes
  hash : hashImage.length ≤ maxArtifactBytes
  blocks : field hashImage 72 8 ≤ maxBlocks
  spools : ∀ g, readSuperblock P hashImage = .ok g →
    (g.dataBlocks + if 1 < g.dataBlocks then blockCount g.perBlock g.dataBlocks else 0) *
      g.digest.size ≤ maxSpoolBytes

/-! ## The superblock -/

theorem findDigest_eq_ok {P : Platform} {algorithm : Str} {digest : Digest} :
    findDigest P algorithm = .ok digest ↔ P.algorithms algorithm = some digest := by
  unfold findDigest
  cases P.algorithms algorithm <;> simp

theorem digestSlot_pos (digestSize : ℕ) : 0 < digestSlot digestSize := Nat.two_pow_pos _

/-- A slot has room for a digest. -/
theorem le_digestSlot (digestSize : ℕ) : digestSize ≤ digestSlot digestSize := by
  have := Nat.lt_size_self ((digestSize : ℤ) - 1).natAbs
  rw [digestSlot]
  omega

/-- The block sizes are powers of two and a hash block holds at least one slot; then slots divide
    the hash block, so the last check never fails on its own. -/
theorem computeSlotSize_eq_ok {dataBlockSize hashBlockSize digestSize slotSize : ℕ} :
    computeSlotSize dataBlockSize hashBlockSize digestSize = .ok slotSize ↔
      (512 ≤ dataBlockSize ∧ dataBlockSize ≤ 1024 * 1024) ∧ dataBlockSize.isPowerOfTwo ∧
      (digestSize ≤ hashBlockSize ∧ hashBlockSize ≤ 1024 * 1024) ∧ hashBlockSize.isPowerOfTwo ∧
      slotSize = digestSlot digestSize ∧ slotSize ≤ hashBlockSize := by
  simp only [computeSlotSize, bind_eq_ok, raiseIf_eq_ok, exists_unit, pure_eq_ok, not_or, not_lt,
    not_not, ne_eq]
  constructor
  · rintro ⟨⟨hlow, hhigh, hpow⟩, ⟨hdigest, hmax, hpow'⟩, ⟨hslot, -⟩, rfl⟩
    have hpos := digestSlot_pos digestSize
    exact ⟨⟨hlow, hhigh⟩, (Nat.and_sub_one_eq_zero_iff_isPowerOfTwo (by omega)).1 hpow,
      ⟨hdigest, hmax⟩, (Nat.and_sub_one_eq_zero_iff_isPowerOfTwo (by omega)).1 hpow', rfl, hslot⟩
  · rintro ⟨⟨hlow, hhigh⟩, hpow, ⟨hdigest, hmax⟩, hpow', rfl, hslot⟩
    have hpos := digestSlot_pos digestSize
    refine ⟨⟨hlow, hhigh, (Nat.and_sub_one_eq_zero_iff_isPowerOfTwo (by omega)).2 hpow⟩,
      ⟨hdigest, hmax, (Nat.and_sub_one_eq_zero_iff_isPowerOfTwo (by omega)).2 hpow'⟩,
      ⟨hslot, ?_⟩, rfl⟩
    obtain ⟨k, rfl⟩ := hpow'
    rw [← Nat.dvd_iff_mod_eq_zero]
    exact pow_dvd_pow 2 ((Nat.pow_le_pow_iff_right (by omega)).1 hslot)

theorem readSuperblock_eq_ok {P : Platform} {hashImage : Bytes} {g : Geometry} :
    readSuperblock P hashImage = .ok g ↔ IsSuperblock P (hashImage.take superblockSize) g := by
  unfold readSuperblock
  simp only [bind_eq_ok, raiseIf_eq_ok, exists_unit, pure_eq_ok, not_or, not_not, not_lt, ne_eq,
    unpackFrom_eq_ok, decodeAscii_eq_ok, findDigest_eq_ok]
  constructor
  · rintro ⟨⟨hlength, hmagic⟩, version, ⟨-, rfl⟩, hashType, ⟨-, rfl⟩, algorithm, ⟨hascii, rfl⟩,
      dataBlockSize, ⟨-, rfl⟩, hashBlockSize, ⟨-, rfl⟩, dataBlocks, ⟨-, rfl⟩, saltSize, ⟨-, rfl⟩,
      ⟨hversion, htype⟩, digest, hdigest, slotSize, hslot, hblocks, hsalt, rfl⟩
    obtain ⟨hdata, hdataPow, hhash, hhashPow, hslotSize, hslotFits⟩ :=
      computeSlotSize_eq_ok.1 hslot
    exact ⟨hlength, hmagic, hversion, htype, hascii, rfl, hdigest, rfl, hdata, hdataPow, rfl, hhash,
      hhashPow, hslotSize, hslotFits, rfl, ⟨Nat.pos_of_ne_zero hblocks.1, hblocks.2⟩, hsalt, rfl, rfl⟩
  · intro h
    have hfield : ∀ {offset n : ℕ}, offset + n ≤ 512 →
        offset + n ≤ (hashImage.take superblockSize).length := by
      intro offset n hle
      rw [h.length]
      exact hle
    refine ⟨⟨h.length, h.magic⟩, _, ⟨hfield (by omega), rfl⟩, _, ⟨hfield (by omega), rfl⟩, _,
      ⟨h.ascii, rfl⟩, _, ⟨hfield (by omega), rfl⟩, _, ⟨hfield (by omega), rfl⟩, _,
      ⟨hfield (by omega), rfl⟩, _, ⟨hfield (by omega), rfl⟩, ⟨h.version, h.hash_type⟩, g.digest,
      h.algorithm ▸ h.digest, g.slotSize, ?_, ?_, h.salt_bounds, ?_⟩
    · rw [computeSlotSize_eq_ok, ← h.data_block_size, ← h.hash_block_size]
      exact ⟨h.data_block_bounds, h.data_block_pow, h.hash_block_bounds, h.hash_block_pow,
        h.slot_size, h.slot_fits⟩
    · rw [← h.data_blocks]
      exact ⟨h.data_blocks_bounds.1.ne', h.data_blocks_bounds.2⟩
    · rw [← h.data_block_size, ← h.hash_block_size, ← h.data_blocks, ← h.algorithm, ← h.salt,
        ← h.superblock]

/-! ## Blocks of digests -/

section
variable {g : Geometry}

/-- The digests of a level all have the digest size. -/
def Digests (g : Geometry) (ds : List Bytes) : Prop := ∀ d ∈ ds, d.length = g.digest.size

/-- A digest fits its slot and the slots fill the hash block. -/
structure Fits (g : Geometry) : Prop where
  digest : g.digest.size ≤ g.slotSize
  slots : g.perBlock * g.slotSize = g.hashBlockSize
  pos : 0 < g.perBlock

theorem IsSuperblock.fits {P : Platform} {value : Bytes} (h : IsSuperblock P value g) : Fits g := by
  have hslot : g.slotSize ∣ g.hashBlockSize := by
    have hle := h.slot_fits
    obtain ⟨k, hk⟩ := h.hash_block_pow
    rw [hk, h.slot_size] at hle ⊢
    exact pow_dvd_pow 2 ((Nat.pow_le_pow_iff_right (by omega)).1 hle)
  have hpos : 0 < g.slotSize := h.slot_size ▸ digestSlot_pos _
  exact ⟨h.slot_size ▸ le_digestSlot _, Nat.div_mul_cancel hslot, Nat.div_pos h.slot_fits hpos⟩

theorem saltedDigest_eq_ok {data digest : Bytes} :
    g.saltedDigest data = .ok digest ↔ 0 < g.digest.size ∧ g.hashed data = digest := by
  simp only [Geometry.saltedDigest, bind_eq_ok, raiseIf_eq_ok, exists_unit, pure_eq_ok,
    Nat.pos_iff_ne_zero, ne_eq]

theorem Digests.take {ds : List Bytes} (h : Digests g ds) (n : ℕ) : Digests g (ds.take n) :=
  fun d hd => h d (List.mem_of_mem_take hd)

theorem Digests.drop {ds : List Bytes} (h : Digests g ds) (n : ℕ) : Digests g (ds.drop n) :=
  fun d hd => h d (List.mem_of_mem_drop hd)

theorem digests_hash (g : Geometry) (blocks : List Bytes) :
    Digests g (blocks.map g.hashed) := by
  intro d hd
  obtain ⟨block, -, rfl⟩ := List.mem_map.1 hd
  exact g.digest.length_hash _

theorem length_slots (hfits : Fits g) : ∀ {ds : List Bytes}, Digests g ds →
    ((ds.map fun d => d ++ zeros (g.slotSize - g.digest.size)).flatten).length =
      ds.length * g.slotSize
  | [], _ => by simp
  | d :: ds, h => by
    have hd := h d List.mem_cons_self
    have hrest := length_slots hfits fun e he => h e (List.mem_cons_of_mem _ he)
    have := hfits.digest
    rw [List.map_cons, List.flatten_cons, List.length_append, hrest, List.length_append, hd,
      length_zeros, List.length_cons, Nat.succ_mul]
    omega

theorem length_packBlock (hfits : Fits g) {ds : List Bytes} (h : Digests g ds)
    (hlen : ds.length ≤ g.perBlock) : (packBlock g ds).length = g.hashBlockSize := by
  have hle : ds.length * g.slotSize ≤ g.hashBlockSize := by
    rw [← hfits.slots]
    exact Nat.mul_le_mul_right _ hlen
  rw [packBlock, List.length_append, length_slots hfits h, length_zeros]
  omega

/-- Packing consumes the digests from the front of the spool. -/
theorem packDigests_flatten (rest : Bytes) : ∀ {ds : List Bytes}, Digests g ds →
    packDigests g ds.length (ds.flatten ++ rest) =
      .ok ((ds.map fun d => d ++ zeros (g.slotSize - g.digest.size)).flatten, rest)
  | [], _ => rfl
  | d :: ds, h => by
    have hd : d.length = g.digest.size := h d List.mem_cons_self
    have hspool : (d :: ds).flatten ++ rest = d ++ (ds.flatten ++ rest) := by simp
    have htake : (d ++ (ds.flatten ++ rest)).take g.digest.size = d := List.take_left' hd
    have hdrop : (d ++ (ds.flatten ++ rest)).drop g.digest.size = ds.flatten ++ rest :=
      List.drop_left' hd
    have ih := packDigests_flatten rest fun e he => h e (List.mem_cons_of_mem _ he)
    rw [List.length_cons, hspool]
    simp only [packDigests, htake, hdrop, ih, raiseIf, hd, ne_eq, not_true_eq_false, if_false,
      ok_bind]
    rfl

theorem expectedBlock_flatten (hfits : Fits g) {rest : Bytes} {ds : List Bytes}
    (h : Digests g ds) :
    expectedBlock g (ds.flatten ++ rest) ds.length = .ok (packBlock g ds, rest) := by
  simp only [expectedBlock, packDigests_flatten rest h, ok_bind, length_slots hfits h]
  rfl

/-! ## Levels -/

/-- `take (a + b)` of a text is a given text iff its two parts are. -/
theorem take_add_eq_append {a b : ℕ} {data x y : Bytes} (hx : x.length = a) :
    data.take (a + b) = x ++ y ↔ data.take a = x ∧ (data.drop a).take b = y := by
  constructor
  · intro h
    have htake := congrArg (List.take a) h
    have hdrop := congrArg (List.drop a) h
    rw [List.take_take, Nat.min_eq_left (Nat.le_add_right _ _), List.take_left' hx] at htake
    rw [List.drop_take, Nat.add_sub_cancel_left, List.drop_left' hx] at hdrop
    exact ⟨htake, hdrop⟩
  · rintro ⟨rfl, rfl⟩
    rw [List.take_add]

/-- **One level.**  The verifier accepts the emitted blocks iff they are the blocks over the digests
    of the level below, and spools their digests. -/
theorem verifyBlocks_eq_ok (hfits : Fits g) (hsize : 0 < g.digest.size)
    {level : ℕ} : ∀ {count index : ℕ} {ds : List Bytes}
    {emitted output : Bytes}, Digests g ds →
    (verifyBlocks g level count index ds.length ds.flatten emitted = .ok output ↔
      emitted.take (count * g.hashBlockSize) =
        (blocks g.perBlock (packBlock g) count ds).flatten ∧
      output = ((blocks g.perBlock (packBlock g) count ds).map g.hashed).flatten)
  | 0, index, ds, emitted, output, _ => by
    simp [verifyBlocks, blocks_zero, eq_comm]
  | count + 1, index, ds, emitted, output, h => by
    have hmin : min g.perBlock ds.length = (ds.take g.perBlock).length := List.length_take.symm
    have hspool : ds.flatten = (ds.take g.perBlock).flatten ++ (ds.drop g.perBlock).flatten := by
      rw [← List.flatten_append, List.take_append_drop]
    have hleft : ds.length - (ds.take g.perBlock).length = (ds.drop g.perBlock).length := by
      rw [List.length_take, List.length_drop]
      omega
    have hblock := length_packBlock hfits (h.take g.perBlock) (List.length_take_le _ _)
    have ih : ∀ output', verifyBlocks g level count (index + 1) (ds.drop g.perBlock).length
        (ds.drop g.perBlock).flatten (emitted.drop g.hashBlockSize) = .ok output' ↔ _ :=
      fun _ => verifyBlocks_eq_ok hfits hsize (h.drop g.perBlock)
    simp only [verifyBlocks, hmin, hspool, expectedBlock_flatten hfits (h.take g.perBlock), ok_bind,
      bind_eq_ok, raiseIf_eq_ok, exists_unit, pure_eq_ok, ne_eq, not_not, hleft, ih,
      saltedDigest_eq_ok, hsize, true_and, exists_eq_left']
    rw [blocks_succ, List.flatten_cons, List.map_cons, List.flatten_cons, Nat.succ_mul,
      Nat.add_comm (count * g.hashBlockSize), take_add_eq_append hblock]
    constructor
    · rintro ⟨hfirst, output', ⟨hrest, rfl⟩, rfl⟩
      exact ⟨⟨hfirst, hrest⟩, rfl⟩
    · rintro ⟨⟨hfirst, hrest⟩, rfl⟩
      exact ⟨hfirst, _, ⟨hrest, rfl⟩, rfl⟩

theorem levelCountsLoop_counts {perBlock : ℕ} : ∀ {rounds digests : ℕ} {counts result : List ℕ},
    levelCountsLoop perBlock rounds counts digests = .ok result →
      ∃ above, result = counts ++ above ∧ Counts perBlock digests above
  | 0, _, _, _, h => by cases h
  | rounds + 1, digests, counts, result, h => by
    unfold levelCountsLoop at h
    split_ifs at h with hmore
    · simp only [bind_eq_ok, raiseIf_eq_ok, exists_unit] at h
      obtain ⟨above, rfl, habove⟩ := levelCountsLoop_counts h.2
      exact ⟨blockCount perBlock digests :: above, by simp, .more hmore habove⟩
    · cases h
      exact ⟨[], by simp, .done (not_lt.1 hmore)⟩

/-- The level limit does not stop a tree that has no more levels than it. -/
theorem levelCountsLoop_eq_ok {perBlock digests : ℕ} {above : List ℕ}
    (h : Counts perBlock digests above) : ∀ {rounds : ℕ} {counts : List ℕ},
    counts.length + above.length ≤ maxLevels → above.length < rounds →
      levelCountsLoop perBlock rounds counts digests = .ok (counts ++ above) := by
  induction h with
  | done few =>
    intro rounds counts _ hrounds
    obtain ⟨rounds, rfl⟩ := Nat.exists_eq_succ_of_ne_zero (Nat.ne_of_gt hrounds)
    rw [levelCountsLoop, if_neg (not_lt.2 few), List.append_nil]
  | @more digests above several _ ih =>
    intro rounds counts hlevels hrounds
    obtain ⟨rounds, rfl⟩ := Nat.exists_eq_succ_of_ne_zero (Nat.ne_of_gt (Nat.zero_lt_of_lt hrounds))
    rw [List.length_cons] at hlevels hrounds
    have hlength : (counts ++ [blockCount perBlock digests]).length + above.length ≤ maxLevels := by
      rw [List.length_append, List.length_singleton]
      omega
    rw [levelCountsLoop, if_pos several]
    simp only [raiseIf]
    rw [if_neg (by omega), ok_bind, ih hlength (by omega)]
    simp

/-- **The block counts are those of the reference tree.**  With at most `2 ^ 32` digests the level
    limit is not reached. -/
theorem levelCounts_eq_ok {perBlock dataBlocks : ℕ} {counts : List ℕ} (hpos : 0 < perBlock)
    (hblocks : dataBlocks ≤ maxBlocks) :
    levelCounts dataBlocks perBlock = .ok counts ↔ Counts perBlock dataBlocks counts := by
  constructor
  · intro h
    obtain ⟨above, rfl, habove⟩ := levelCountsLoop_counts h
    exact habove
  · intro h
    have hlength : counts.length ≤ 32 := h.length_le hblocks hpos
    have hlevels : maxLevels = 64 := rfl
    exact levelCountsLoop_eq_ok h (by simp; omega) (by omega)

theorem foldl_addOffset_snd (treeOffset blockSize : ℕ) : ∀ (counts : List ℕ) (state : List ℕ × ℕ),
    (counts.foldl (addOffset treeOffset blockSize) state).2 = state.2 + counts.sum
  | [], state => rfl
  | count :: counts, state => by
    rw [List.foldl_cons, foldl_addOffset_snd _ _ counts, List.sum_cons]
    exact Nat.add_assoc _ _ _

theorem levelOffsets_size (counts : List ℕ) (treeOffset blockSize : ℕ) :
    (levelOffsets counts treeOffset blockSize).2 = counts.sum * blockSize := by
  simp only [levelOffsets, foldl_addOffset_snd, List.sum_reverse, Nat.zero_add]

/-- The lowest level follows the levels above it. -/
theorem levelOffsets_cons (count : ℕ) (counts : List ℕ) (treeOffset blockSize : ℕ) :
    (levelOffsets (count :: counts) treeOffset blockSize).1 =
      (treeOffset + counts.sum * blockSize) :: (levelOffsets counts treeOffset blockSize).1 := by
  have hsum := foldl_addOffset_snd treeOffset blockSize counts.reverse ([], 0)
  rw [List.sum_reverse, Nat.zero_add] at hsum
  simp only [levelOffsets, List.reverse_cons, List.foldl_append, List.foldl_cons, List.foldl_nil]
  generalize counts.reverse.foldl (addOffset treeOffset blockSize) ([], 0) = state at hsum ⊢
  simp [addOffset, hsum]

theorem length_blocks_flatten (hfits : Fits g) : ∀ {count : ℕ} {ds : List Bytes}, Digests g ds →
    (blocks g.perBlock (packBlock g) count ds).flatten.length = count * g.hashBlockSize
  | 0, _, _ => by simp [blocks_zero]
  | count + 1, ds, h => by
    rw [blocks_succ, List.flatten_cons, List.length_append,
      length_packBlock hfits (h.take _) (List.length_take_le _ _),
      length_blocks_flatten hfits (h.drop _), Nat.succ_mul, Nat.add_comm]

/-- The size of the tree is what the block counts say. -/
theorem length_tree (hfits : Fits g) {ds : List Bytes} {tree top : Bytes}
    (h : Tree g.perBlock (packBlock g) g.hashed ds tree top) :
    ∀ {counts : List ℕ}, Counts g.perBlock ds.length counts → Digests g ds →
      tree.length = counts.sum * g.hashBlockSize ∧ top.length = g.digest.size := by
  induction h with
  | top d =>
    intro counts hcounts hds
    cases hcounts with
    | done => exact ⟨by simp, hds d (List.mem_singleton_self _)⟩
    | more several _ => exact absurd several (by simp)
  | @level ds upper top several _ ih =>
    intro counts hcounts hds
    cases hcounts with
    | done few => omega
    | more _ above =>
      have hnext := ih (by rwa [List.length_map, length_levelBlocks]) (digests_hash g _)
      refine ⟨?_, hnext.2⟩
      rw [List.length_append, hnext.1, levelBlocks, length_blocks_flatten hfits hds, List.sum_cons,
        Nat.add_mul, Nat.add_comm]

variable {treeOffset : ℕ} {hashImage : Bytes}

/-- **All levels.**  The verifier accepts iff the bytes at the tree offset are the reference tree
    over the digests in the spool, and ends with its top digest. -/
theorem verifyLevels_eq_ok (hfits : Fits g) (hsize : 0 < g.digest.size) {n : ℕ} {counts : List ℕ}
    (hcounts : Counts g.perBlock n counts) : ∀ {level : ℕ} {ds : List Bytes} {spool : Bytes},
    ds.length = n → 0 < n → Digests g ds →
    (verifyLevels g hashImage level
        (counts.zip (levelOffsets counts treeOffset g.hashBlockSize).1) ds.flatten n = .ok spool ↔
      ∃ tree, Tree g.perBlock (packBlock g) g.hashed ds tree spool ∧
        slice hashImage treeOffset (treeOffset + counts.sum * g.hashBlockSize) = tree) := by
  induction hcounts with
  | @done n few =>
    intro level ds spool hlength hpos _
    obtain ⟨d, rfl⟩ := List.length_eq_one_iff.1 (show ds.length = 1 by omega)
    constructor
    · rintro ⟨⟩
      exact ⟨[], by simpa using Tree.top d, by simp [slice]⟩
    · rintro ⟨tree, htree, -⟩
      cases htree with
      | top => simp [verifyLevels]
      | level several _ => exact absurd several (by simp)
  | @more n counts several above ih =>
    intro level ds spool hlength hpos hds
    have hnext : ((levelBlocks g.perBlock (packBlock g) ds).map g.hashed).length =
        blockCount g.perBlock n := by
      rw [List.length_map, length_levelBlocks, hlength]
    have hlevel : levelBlocks g.perBlock (packBlock g) ds =
        blocks g.perBlock (packBlock g) (blockCount g.perBlock n) ds := by
      rw [levelBlocks, hlength]
    -- the level itself, then the levels above it
    have hverify : ∀ spool₁, verifyBlocks g level (blockCount g.perBlock n) 0 n ds.flatten
        (hashImage.drop (treeOffset + counts.sum * g.hashBlockSize)) = .ok spool₁ ↔
        slice hashImage (treeOffset + counts.sum * g.hashBlockSize)
            (treeOffset + (blockCount g.perBlock n :: counts).sum * g.hashBlockSize) =
          (levelBlocks g.perBlock (packBlock g) ds).flatten ∧
        spool₁ = ((levelBlocks g.perBlock (packBlock g) ds).map g.hashed).flatten := by
      intro spool₁
      have hlevelSize : treeOffset + (blockCount g.perBlock n :: counts).sum * g.hashBlockSize -
          (treeOffset + counts.sum * g.hashBlockSize) = blockCount g.perBlock n * g.hashBlockSize := by
        rw [List.sum_cons, Nat.add_mul]
        omega
      rw [slice, hlevelSize, hlevel, ← verifyBlocks_eq_ok hfits hsize hds, hlength]
    have hupper := @ih (level + 1) _ spool hnext (blockCount_pos hfits.pos hpos) (digests_hash g _)
    have hsplit : slice hashImage treeOffset
        (treeOffset + (blockCount g.perBlock n :: counts).sum * g.hashBlockSize) =
        slice hashImage treeOffset (treeOffset + counts.sum * g.hashBlockSize) ++
          slice hashImage (treeOffset + counts.sum * g.hashBlockSize)
            (treeOffset + (blockCount g.perBlock n :: counts).sum * g.hashBlockSize) := by
      rw [slice_append_slice _ (Nat.le_add_right _ _)]
      rw [List.sum_cons, Nat.add_mul]
      omega
    rw [levelOffsets_cons, List.zip_cons_cons]
    simp only [verifyLevels, bind_eq_ok, hverify]
    constructor
    · rintro ⟨spool₁, ⟨hblocks, rfl⟩, hrest⟩
      obtain ⟨upper, htree, hslice⟩ := hupper.1 hrest
      refine ⟨_, .level (hlength ▸ several) htree, ?_⟩
      rw [hsplit, hslice, hblocks]
    · rintro ⟨tree, htree, hslice⟩
      cases htree with
      | top d => exact absurd several (by simp [← hlength])
      | @level _ upper _ _ htree =>
        obtain ⟨hlength', -⟩ := length_tree hfits htree (hnext.symm ▸ above) (digests_hash g _)
        have hblocks : (levelBlocks g.perBlock (packBlock g) ds).flatten.length =
            blockCount g.perBlock n * g.hashBlockSize := by
          rw [hlevel, length_blocks_flatten hfits hds]
        rw [hsplit] at hslice
        -- the parts have the lengths of the tree's parts, so they are equal
        have htotal := congrArg List.length hslice
        have hfirst := length_slice_le hashImage treeOffset
          (treeOffset + counts.sum * g.hashBlockSize)
        have hsecond : (slice hashImage (treeOffset + counts.sum * g.hashBlockSize)
            (treeOffset + (blockCount g.perBlock n :: counts).sum * g.hashBlockSize)).length ≤
            blockCount g.perBlock n * g.hashBlockSize := by
          refine (length_slice_le _ _ _).trans ?_
          rw [List.sum_cons, Nat.add_mul]
          omega
        rw [List.length_append, List.length_append, hlength', hblocks] at htotal
        obtain ⟨hupperSlice, hblocksSlice⟩ := List.append_inj hslice (by omega)
        exact ⟨_, ⟨hblocksSlice, rfl⟩, hupper.2 ⟨upper, htree, hupperSlice⟩⟩

/-! ## Data blocks -/

/-- The digests of `n` data blocks from the front of a file. -/
theorem leafDigests_eq_ok (hsize : 0 < g.digest.size) : ∀ {n : ℕ} {source output : Bytes},
    leafDigests g n source = .ok output ↔
      (∀ i < n, (i + 1) * g.dataBlockSize ≤ source.length) ∧
        output = ((List.range n).map fun i => g.hashed
          (slice source (i * g.dataBlockSize) (i * g.dataBlockSize + g.dataBlockSize))).flatten
  | 0, source, output => by simp [leafDigests, eq_comm]
  | n + 1, source, output => by
    have hshift : ∀ i, slice source ((i + 1) * g.dataBlockSize)
        ((i + 1) * g.dataBlockSize + g.dataBlockSize) =
        slice (source.drop g.dataBlockSize) (i * g.dataBlockSize)
          (i * g.dataBlockSize + g.dataBlockSize) := by
      intro i
      simp only [slice, List.drop_drop, Nat.succ_mul, Nat.add_sub_cancel_left,
        Nat.add_comm g.dataBlockSize]
    have hfirst : slice source (0 * g.dataBlockSize) (0 * g.dataBlockSize + g.dataBlockSize) =
        source.take g.dataBlockSize := by
      simp [slice]
    simp only [leafDigests, bind_eq_ok, raiseIf_eq_ok, exists_unit, pure_eq_ok, ne_eq, not_not,
      leafDigests_eq_ok hsize (n := n), saltedDigest_eq_ok, hsize, true_and, exists_eq_left',
      List.range_succ_eq_map, List.map_cons, List.map_map,
      List.flatten_cons, hfirst, Function.comp_def, Nat.succ_eq_add_one, hshift, List.length_take,
      List.length_drop]
    constructor
    · rintro ⟨hblock, output', ⟨hrest, rfl⟩, rfl⟩
      refine ⟨fun i hi => ?_, rfl⟩
      cases i with
      | zero => rw [Nat.zero_add, Nat.one_mul]; omega
      | succ i =>
        have := hrest i (by omega)
        rw [Nat.succ_mul]
        omega
    · rintro ⟨hlength, rfl⟩
      have hzero := hlength 0 (Nat.succ_pos _)
      rw [Nat.zero_add, Nat.one_mul] at hzero
      refine ⟨by omega, _, ⟨fun i hi => ?_, rfl⟩, rfl⟩
      have := hlength (i + 1) (by omega)
      rw [Nat.succ_mul] at this
      omega

theorem digests_leaves (g : Geometry) (rootImage : Bytes) : Digests g (leaves g rootImage) := by
  intro d hd
  obtain ⟨i, -, rfl⟩ := List.mem_map.1 hd
  exact g.digest.length_hash _

theorem length_leaves (g : Geometry) (rootImage : Bytes) :
    (leaves g rootImage).length = g.dataBlocks := by
  simp [leaves]

theorem leafDigests_leaves {rootImage : Bytes} (hsize : 0 < g.digest.size)
    (h : g.dataBlocks * g.dataBlockSize ≤ rootImage.length) :
    leafDigests g g.dataBlocks rootImage = .ok (leaves g rootImage).flatten := by
  refine (leafDigests_eq_ok hsize).2 ⟨fun i hi => ?_, rfl⟩
  exact (Nat.mul_le_mul_right _ hi).trans h

theorem readRootDigest_eq_ok {spool top : Bytes} (h : spool.length = g.digest.size) :
    readRootDigest g spool = .ok top ↔ top = spool := by
  have htake : spool.take g.digest.size = spool := List.take_of_length_le h.le
  have hdrop : spool.drop g.digest.size = [] := List.drop_of_length_le h.le
  simp only [readRootDigest, htake, hdrop, bind_eq_ok, raiseIf_eq_ok, exists_unit, pure_eq_ok, h,
    ne_eq, not_true_eq_false, List.take_nil, or_self, not_false_eq_true, true_and]
  exact eq_comm

/-- The first data block already needs a digest with a size. -/
theorem size_pos_of_verifyTree {rootImage : Bytes} (hblocks : 0 < g.dataBlocks)
    {result : List ℕ × Bytes × ℕ} (h : verifyTree g rootImage hashImage treeOffset = .ok result) :
    0 < g.digest.size := by
  obtain ⟨blocks, hblocks⟩ := Nat.exists_eq_add_one_of_ne_zero hblocks.ne'
  simp only [verifyTree, bind_eq_ok, hblocks, leafDigests, saltedDigest_eq_ok] at h
  obtain ⟨-, -, -, -, -, ⟨-, -, -, ⟨hsize, -⟩, -⟩, -⟩ := h
  exact hsize

/-- **The tree check is exact.** -/
theorem verifyTree_eq_ok {P : Platform} {value rootImage : Bytes} (hsuper : IsSuperblock P value g)
    (hsize : 0 < g.digest.size)
    (hroot : g.dataBlocks * g.dataBlockSize ≤ rootImage.length)
    (hspools : (g.dataBlocks + if 1 < g.dataBlocks then blockCount g.perBlock g.dataBlocks else 0) *
      g.digest.size ≤ maxSpoolBytes) {counts : List ℕ} {top : Bytes} {treeSize : ℕ} :
    verifyTree g rootImage hashImage treeOffset = .ok (counts, top, treeSize) ↔
      Counts g.perBlock g.dataBlocks counts ∧ treeSize = counts.sum * g.hashBlockSize ∧
      Tree g.perBlock (packBlock g) g.hashed (leaves g rootImage)
        (slice hashImage treeOffset (treeOffset + treeSize)) top := by
  have hfits := hsuper.fits
  have hbudget : ∀ counts, Counts g.perBlock g.dataBlocks counts →
      checkSpoolBudget g counts = .ok () := by
    intro counts hcounts
    rw [checkSpoolBudget, raiseIf_eq_ok, not_lt, spoolBytes, ← Nat.add_mul]
    cases hcounts with
    | done few => rwa [if_neg (not_lt.2 few)] at hspools
    | more several _ => rwa [if_pos several] at hspools
  simp only [verifyTree, bind_eq_ok, exists_unit, pure_eq_ok, Prod.mk.injEq, levelOffsets_size,
    levelCounts_eq_ok hfits.pos hsuper.data_blocks_bounds.2, leafDigests_leaves hsize hroot,
    Except.ok.injEq, exists_eq_left']
  have hlevels : ∀ counts, Counts g.perBlock g.dataBlocks counts → ∀ spool,
      verifyLevels g hashImage 0 (counts.zip (levelOffsets counts treeOffset g.hashBlockSize).1)
        (leaves g rootImage).flatten g.dataBlocks = .ok spool ↔ _ := fun counts hcounts spool =>
    verifyLevels_eq_ok hfits hsize hcounts (length_leaves g rootImage) hsuper.data_blocks_bounds.1
      (digests_leaves g rootImage)
  have htop : ∀ {tree top : Bytes} {counts : List ℕ}, Counts g.perBlock g.dataBlocks counts →
      Tree g.perBlock (packBlock g) g.hashed (leaves g rootImage) tree top →
      top.length = g.digest.size := fun hcounts htree =>
    (length_tree hfits htree ((length_leaves g rootImage).symm ▸ hcounts)
      (digests_leaves g rootImage)).2
  constructor
  · rintro ⟨counts, hcounts, -, spool, hspool, top, hread, rfl, rfl, rfl⟩
    obtain ⟨tree, htree, rfl⟩ := (hlevels counts hcounts spool).1 hspool
    rw [readRootDigest_eq_ok (htop hcounts htree)] at hread
    exact ⟨hcounts, rfl, hread ▸ htree⟩
  · rintro ⟨hcounts, rfl, htree⟩
    refine ⟨counts, hcounts, hbudget counts hcounts, top, (hlevels counts hcounts top).2 ⟨_, htree, rfl⟩,
      top, ?_, rfl, rfl, rfl⟩
    rw [readRootDigest_eq_ok (htop hcounts htree)]

end

/-! ## The projection -/

section
variable {P : Platform} {rootHashFile : Bytes} {partitions : List PartitionRecord}
  {rootImage hashImage : Bytes}

theorem rootPartitions_eq_ok {rootPartition hashPartition : PartitionRecord} :
    rootPartitions partitions = .ok (rootPartition, hashPartition) ↔
      ofType partitions rootX86_64 = [rootPartition] ∧
      ofType partitions rootX86_64Verity = [hashPartition] ∧
      ofType partitions rootX86_64VeritySig = [] := by
  simp only [rootPartitions, bind_eq_ok, raiseIf_eq_ok, exists_unit, pure_eq_ok, ne_eq, not_not]
  unfold soleRoots
  split
  · next r h hroot hhash =>
    simp only [hroot, hhash, Except.ok.injEq, List.cons.injEq, and_true]
    constructor
    · rintro ⟨roots, rfl, hsig, hroots⟩
      cases hroots
      exact ⟨rfl, rfl, hsig⟩
    · rintro ⟨rfl, rfl, hsig⟩
      exact ⟨_, rfl, hsig, rfl⟩
  · next hnot =>
    constructor
    · rintro ⟨_, ⟨⟩, _⟩
    · rintro ⟨hroot, hhash, -⟩
      exact (hnot _ _ hroot hhash).elim

theorem readRootHash_eq_ok {rootHash : Str} :
    readRootHash P rootHashFile = .ok rootHash ↔
      ∃ text, P.readText rootHashFile = some text ∧ P.lower (strip text) = rootHash := by
  unfold readRootHash
  cases P.readText rootHashFile <;> simp

/-- The hash image around its tree: a superblock, zeros up to the tree, the tree and zeros. -/
theorem hashImage_eq_iff {treeOffset : ℕ} {tree : Bytes} (hoffset : superblockSize ≤ treeOffset)
    (hlength : (hashImage.take superblockSize).length = superblockSize) :
    (∃ padding, hashImage = hashImage.take superblockSize ++ zeros (treeOffset - superblockSize) ++
        tree ++ zeros padding) ↔
      ((hashImage.take treeOffset).length = treeOffset ∧
        AllZero ((hashImage.take treeOffset).drop superblockSize)) ∧
      slice hashImage treeOffset (treeOffset + tree.length) = tree ∧
      AllZero (hashImage.drop (treeOffset + tree.length)) := by
  constructor
  · rintro ⟨padding, h⟩
    generalize hashImage.take superblockSize = superblock at hlength h
    subst h
    have hbefore : (superblock ++ zeros (treeOffset - superblockSize)).length = treeOffset := by
      rw [List.length_append, hlength, length_zeros]
      omega
    have htake : (superblock ++ zeros (treeOffset - superblockSize) ++ tree ++ zeros padding).take
        treeOffset = superblock ++ zeros (treeOffset - superblockSize) := by
      rw [List.append_assoc _ tree, List.take_left' hbefore]
    have hdrop : (superblock ++ zeros (treeOffset - superblockSize) ++ tree ++ zeros padding).drop
        treeOffset = tree ++ zeros padding := by
      rw [List.append_assoc _ tree, List.drop_left' hbefore]
    refine ⟨⟨by rw [htake, hbefore], ?_⟩, ?_, ?_⟩
    · rw [htake, List.drop_left' hlength]
      exact allZero_zeros _
    · rw [slice, hdrop, Nat.add_sub_cancel_left, List.take_left]
    · rw [← List.drop_drop, hdrop, List.drop_left]
      exact allZero_zeros _
  · rintro ⟨⟨hbefore, hzero⟩, htree, htrailer⟩
    have hpadding := eq_zeros_of_allZero hzero
    rw [List.length_drop, hbefore] at hpadding
    have hsuperblock : hashImage.take superblockSize =
        (hashImage.take treeOffset).take superblockSize := by
      rw [List.take_take, Nat.min_eq_left hoffset]
    refine ⟨(hashImage.drop (treeOffset + tree.length)).length, ?_⟩
    calc hashImage
        = hashImage.take treeOffset ++ (slice hashImage treeOffset (treeOffset + tree.length) ++
            hashImage.drop (treeOffset + tree.length)) := by
          rw [slice, Nat.add_sub_cancel_left, ← List.drop_drop, List.take_append_drop,
            List.take_append_drop]
      _ = hashImage.take treeOffset ++
            (tree ++ zeros (hashImage.drop (treeOffset + tree.length)).length) := by
          rw [htree, ← eq_zeros_of_allZero htrailer]
      _ = (hashImage.take superblockSize ++ zeros (treeOffset - superblockSize)) ++
            (tree ++ zeros (hashImage.drop (treeOffset + tree.length)).length) := by
          rw [← hpadding, hsuperblock, List.take_append_drop]
      _ = _ := by simp only [List.append_assoc]

/-- The metadata of accepted artifacts. -/
def metadataOf (P : Platform) (rootHashFile rootImage hashImage : Bytes)
    (rootPartition hashPartition : PartitionRecord) (g : Geometry) (rootHash : Str)
    (counts : List ℕ) (treeSize : ℕ) : Metadata where
  root := artifact P rootImage
  rootHashFile := artifact P rootHashFile
  verity := artifact P hashImage
  dataBlockSize := g.dataBlockSize
  dataBlocks := g.dataBlocks
  dataPartition := rootPartition.number
  digestSize := g.digest.size
  digestSlotSize := g.slotSize
  formatVersion := "mkosi-verity-metadata-v2"
  hashAlgorithm := g.algorithm
  hashBlockSize := g.hashBlockSize
  hashLevels := counts.length
  hashPartition := hashPartition.number
  rootHash := rootHash
  salt := hex g.salt
  signaturePartition := none
  treeOffset := g.hashBlockSize
  treeSize := treeSize

/-- What `project` has checked when it returns. -/
theorem project_eq_ok {metadata : Metadata} :
    project P rootHashFile partitions rootImage hashImage = .ok metadata ↔
      ∃ rootPartition hashPartition g text counts top treeSize,
        (P.readText rootHashFile = some text ∧ P.lower (strip text) = hex top) ∧
        (ofType partitions rootX86_64 = [rootPartition] ∧
          ofType partitions rootX86_64Verity = [hashPartition] ∧
          ofType partitions rootX86_64VeritySig = []) ∧
        ((rootImage.length ≤ maxArtifactBytes ∧ hashImage.length ≤ maxArtifactBytes) ∧
          rootImage.length = rootPartition.sizeBytes ∧
          hashImage.length = hashPartition.sizeBytes) ∧
        IsSuperblock P (hashImage.take superblockSize) g ∧
        (g.dataBlocks * g.dataBlockSize ≤ rootImage.length ∧
          AllZero (rootImage.drop (g.dataBlocks * g.dataBlockSize))) ∧
        ((hashImage.take g.hashBlockSize).length = g.hashBlockSize ∧
          AllZero ((hashImage.take g.hashBlockSize).drop superblockSize)) ∧
        verifyTree g rootImage hashImage g.hashBlockSize = .ok (counts, top, treeSize) ∧
        AllZero (hashImage.drop (g.hashBlockSize + treeSize)) ∧
        metadata = metadataOf P rootHashFile rootImage hashImage rootPartition hashPartition g
          (hex top) counts treeSize := by
  unfold project checkArtifactSizes checkZeroTrailer checkSuperblockPadding
  simp only [bind_eq_ok, raiseIf_eq_ok, exists_unit, pure_eq_ok, ne_eq, not_not, not_or, not_lt,
    Prod.exists, rootPartitions_eq_ok, readRootHash_eq_ok, readSuperblock_eq_ok]
  constructor
  · rintro ⟨rootHash, ⟨text, htext, rfl⟩, rootPartition, hashPartition, hpartitions, hsizes, g,
      hsuper, hdata, hzero, hpadding, counts, top, treeSize, htree, htrailer, hhash, rfl⟩
    exact ⟨rootPartition, hashPartition, g, text, counts, top, treeSize, ⟨htext, hhash⟩, hpartitions,
      hsizes, hsuper, ⟨hdata, hzero⟩, hpadding, htree, htrailer, by rw [hhash]; rfl⟩
  · rintro ⟨rootPartition, hashPartition, g, text, counts, top, treeSize, ⟨htext, hhash⟩, hpartitions,
      hsizes, hsuper, ⟨hdata, hzero⟩, hpadding, htree, htrailer, rfl⟩
    exact ⟨hex top, ⟨text, htext, hhash⟩, rootPartition, hashPartition, hpartitions, hsizes, g,
      hsuper, hdata, hzero, hpadding, counts, top, treeSize, htree, htrailer, rfl, rfl⟩

/-- A field of the superblock is a field of the image. -/
theorem field_take_superblock (hashImage : Bytes) {offset n : ℕ}
    (hfield : offset + n ≤ superblockSize) :
    field (hashImage.take superblockSize) offset n = field hashImage offset n := by
  refine field_congr fun i _ hi => ?_
  rw [List.getElem?_take_of_lt (by omega)]

theorem project_accepts_iff (hlimits : WithinLimits P rootImage hashImage)
    (hblock : 512 ≤ field hashImage 68 4) :
    (∃ metadata, project P rootHashFile partitions rootImage hashImage = .ok metadata) ↔
      IsVerity P rootHashFile partitions rootImage hashImage := by
  have hoffset : ∀ {g}, IsSuperblock P (hashImage.take superblockSize) g →
      superblockSize ≤ g.hashBlockSize := by
    intro g hsuper
    rw [hsuper.hash_block_size, field_take_superblock _ (by decide)]
    exact hblock
  constructor
  · rintro ⟨metadata, h⟩
    obtain ⟨rootPartition, hashPartition, g, text, counts, top, treeSize, ⟨htext, hhash⟩, hpartitions,
      ⟨-, hsizes⟩, hsuper, hroot, hpadding, htree, htrailer, -⟩ := project_eq_ok.1 h
    have hspools := hlimits.spools g (readSuperblock_eq_ok.2 hsuper)
    have hsize := size_pos_of_verifyTree hsuper.data_blocks_bounds.1 htree
    obtain ⟨hcounts, rfl, htree⟩ := (verifyTree_eq_ok hsuper hsize hroot.1 hspools).1 htree
    -- the tree has the size that its block counts give
    have hlength := (length_tree hsuper.fits htree ((length_leaves g rootImage).symm ▸ hcounts)
      (digests_leaves g rootImage)).1
    obtain ⟨padding, himage⟩ := (hashImage_eq_iff (hoffset hsuper) hsuper.length).2
      ⟨hpadding, by rw [hlength], by rwa [hlength]⟩
    exact ⟨rootPartition, hashPartition, g, _, top, padding, text, hpartitions, hsizes, hsuper, himage,
      hroot, ⟨hsize, htree⟩, htext, hhash⟩
  · rintro ⟨rootPartition, hashPartition, g, tree, top, padding, text, hpartitions, hsizes, hsuper,
      himage, hroot, ⟨hsize, htree⟩, htext, hhash⟩
    obtain ⟨hpadding, hslice, htrailer⟩ :=
      (hashImage_eq_iff (hoffset hsuper) hsuper.length).1 ⟨padding, himage⟩
    obtain ⟨counts, hcounts⟩ := htree.counts
    have hlength := (length_tree hsuper.fits htree hcounts (digests_leaves g rootImage)).1
    rw [length_leaves] at hcounts
    rw [hlength] at hslice htrailer
    have hspools := hlimits.spools g (readSuperblock_eq_ok.2 hsuper)
    have hverify : verifyTree g rootImage hashImage g.hashBlockSize =
        .ok (counts, top, counts.sum * g.hashBlockSize) :=
      (verifyTree_eq_ok hsuper hsize hroot.1 hspools).2 ⟨hcounts, rfl, by rw [hslice]; exact htree⟩
    exact ⟨_, project_eq_ok.2 ⟨rootPartition, hashPartition, g, text, counts, top, _, ⟨htext, hhash⟩,
      hpartitions, ⟨⟨hlimits.root, hlimits.hash⟩, hsizes⟩, hsuper, hroot, hpadding, hverify, htrailer,
      rfl⟩⟩

/-- The superblock says the same in two images that share it. -/
theorem readSuperblock_congr {hashImage' : Bytes}
    (h : hashImage'.take superblockSize = hashImage.take superblockSize) :
    readSuperblock P hashImage' = readSuperblock P hashImage := by
  unfold readSuperblock
  rw [h]

theorem WithinLimits.congr {hashImage' : Bytes} (h : WithinLimits P rootImage hashImage)
    (hsuper : hashImage'.take superblockSize = hashImage.take superblockSize)
    (hlength : hashImage'.length = hashImage.length) : WithinLimits P rootImage hashImage' where
  root := h.root
  hash := hlength ▸ h.hash
  blocks := by
    rw [← field_take_superblock _ (by decide), hsuper, field_take_superblock _ (by decide)]
    exact h.blocks
  spools g hg := h.spools g (readSuperblock_congr hsuper ▸ hg)

/-- Superblock, root image and size determine an accepted hash image. -/
theorem IsVerity.unique {rootHashFile' : Bytes} {partitions' : List PartitionRecord}
    {hashImage' : Bytes} (h : IsVerity P rootHashFile partitions rootImage hashImage)
    (h' : IsVerity P rootHashFile' partitions' rootImage hashImage')
    (hsame : hashImage'.take superblockSize = hashImage.take superblockSize)
    (hlength : hashImage'.length = hashImage.length) : hashImage' = hashImage := by
  obtain ⟨-, -, g, tree, top, padding, -, -, -, hsuper, himage, -, ⟨-, htree⟩, -, -⟩ := h
  obtain ⟨-, -, g', tree', top', padding', -, -, -, hsuper', himage', -, ⟨-, htree'⟩, -, -⟩ := h'
  have hg : g' = g := by
    have hread := readSuperblock_eq_ok.2 hsuper
    rw [← readSuperblock_congr hsame, readSuperblock_eq_ok.2 hsuper'] at hread
    exact Except.ok.inj hread
  subst hg
  obtain ⟨rfl, -⟩ := htree.unique htree'
  rw [hsame] at himage'
  have hpadding : padding' = padding := by
    have hlen := congrArg List.length himage
    have hlen' := congrArg List.length himage'
    rw [List.length_append, length_zeros] at hlen hlen'
    omega
  rw [himage', hpadding, ← himage]

end

/-- **dm-verity verification is exact.**  Within the resource limits `project` accepts the reference
    images and no others, so at most one hash image is accepted for a superblock, a root image and
    a size. -/
theorem project_exact (P : Platform) (rootHashFile : Bytes) (partitions : List PartitionRecord)
    (rootImage hashImage : Bytes) (hlimits : WithinLimits P rootImage hashImage)
    (hblock : 512 ≤ field hashImage 68 4) :
    ((∃ metadata, project P rootHashFile partitions rootImage hashImage = .ok metadata) ↔
      IsVerity P rootHashFile partitions rootImage hashImage) ∧
    ∀ rootHashFile' partitions' hashImage',
      (∃ metadata, project P rootHashFile partitions rootImage hashImage = .ok metadata) →
      (∃ metadata, project P rootHashFile' partitions' rootImage hashImage' = .ok metadata) →
      hashImage'.take superblockSize = hashImage.take superblockSize →
      hashImage'.length = hashImage.length → hashImage' = hashImage := by
  refine ⟨project_accepts_iff hlimits hblock, fun rootHashFile' partitions' hashImage' h h' hsame
    hlength => ?_⟩
  have hblock' : 512 ≤ field hashImage' 68 4 := by
    rw [← field_take_superblock _ (by decide), hsame, field_take_superblock _ (by decide)]
    exact hblock
  exact ((project_accepts_iff hlimits hblock).1 h).unique
    ((project_accepts_iff (hlimits.congr hsame hlength) hblock').1 h') hsame hlength

/-! A root image of five blocks of one MiB, the first and the last of them zero, with two levels of
    hash blocks. -/

/-- The sum of the bytes, as a digest of 128 bytes. -/
def sumDigest : Digest where
  size := 128
  hash data := leBytes 128 ((data.map UInt8.toNat).sum)
  length_hash _ := length_leBytes _ _

def examplePlatform : Platform where
  algorithms name := if name = "sum".toList then some sumDigest else none
  readText file := some (file.map fun b => Char.ofNat b.toNat)
  lower := List.map Char.toLower
  sha256 _ := ""

def exampleGeometry : Geometry :=
  ⟨"sum".toList, sumDigest, 1024 * 1024, 5, 512, 128, [7], []⟩

def exampleRoot : Bytes :=
  zeros (1024 * 1024) ++ (List.replicate 3 (1 :: zeros (1024 * 1024 - 1))).flatten ++
    zeros (1024 * 1024) ++ zeros 512

def exampleSuperblock : Bytes :=
  superblockMagic ++ leBytes 4 1 ++ leBytes 4 1 ++ zeros 16 ++ [0x73, 0x75, 0x6D] ++ zeros 29 ++
    leBytes 4 (1024 * 1024) ++ leBytes 4 512 ++ leBytes 8 5 ++ leBytes 2 1 ++ zeros 6 ++ [7] ++ zeros 423

/-- The lowest level of the example's tree. -/
def exampleLevel : List Bytes :=
  levelBlocks 4 (packBlock exampleGeometry) (leaves exampleGeometry exampleRoot)

/-- The only block of the top level. -/
def exampleTop : Bytes := packBlock exampleGeometry (exampleLevel.map exampleGeometry.hashed)

def exampleHashImage : Bytes := exampleSuperblock ++ exampleTop ++ exampleLevel.flatten ++ zeros 512

def exampleRootHash : Bytes :=
  (hex (exampleGeometry.hashed exampleTop)).map (fun c => UInt8.ofNat c.toNat) ++ [0x0A]

def exampleVerityPartitions : List PartitionRecord :=
  [⟨some "root", rootX86_64, 2, 5243392⟩, ⟨some "_empty", rootX86_64, 4, 1048576⟩,
    ⟨none, rootX86_64Verity, 3, 2560⟩]

/-- The characters of a hex text are ASCII, lower-case and no white space. -/
theorem hexDigit_plain : ∀ n < 16, Char.ofNat (UInt8.ofNat (hexDigit n).toNat).toNat = hexDigit n ∧
    (hexDigit n).toLower = hexDigit n ∧ isSpace (hexDigit n) = false := by
  decide

theorem hex_plain {data : Bytes} : ∀ c ∈ hex data, Char.ofNat (UInt8.ofNat c.toNat).toNat = c ∧
    c.toLower = c ∧ isSpace c = false := by
  intro c hc
  obtain ⟨b, -, hc⟩ := List.mem_flatMap.1 hc
  have hb := b.toNat_lt
  rcases List.mem_pair.1 hc with rfl | rfl
  · exact hexDigit_plain _ (by omega)
  · exact hexDigit_plain _ (by omega)

/-- The geometry that the superblock of the example states. -/
def exampleStated : Geometry := { exampleGeometry with superblock := exampleSuperblock }

theorem isSuperblock_example : IsSuperblock examplePlatform exampleSuperblock exampleStated where
  length := by decide +kernel
  magic := by decide +kernel
  version := by decide +kernel
  hash_type := by decide +kernel
  ascii := by decide +kernel
  algorithm := by decide +kernel
  digest := by
    show (if "sum".toList = "sum".toList then some sumDigest else none) = _
    exact if_pos rfl
  data_block_size := by decide
  data_block_bounds := by decide
  data_block_pow := ⟨20, rfl⟩
  hash_block_size := by decide
  hash_block_bounds := by decide
  hash_block_pow := ⟨9, rfl⟩
  slot_size := by decide
  slot_fits := by decide
  data_blocks := by decide
  data_blocks_bounds := by decide
  salt_bounds := by decide
  salt := by decide
  superblock := rfl

theorem tree_example : Tree exampleStated.perBlock (packBlock exampleStated)
    exampleStated.hashed (leaves exampleStated exampleRoot)
    (exampleTop ++ exampleLevel.flatten) (exampleGeometry.hashed exampleTop) := by
  have hlevel : exampleLevel.length = 2 := by
    rw [exampleLevel, length_levelBlocks, length_leaves]
    rfl
  have htop : levelBlocks 4 (packBlock exampleGeometry)
      (exampleLevel.map exampleGeometry.hashed) = [exampleTop] := by
    have hlength : (exampleLevel.map exampleGeometry.hashed).length = 2 := by
      rw [List.length_map, hlevel]
    rw [levelBlocks, hlength, exampleTop]
    show blocks 4 _ 1 _ = _
    rw [blocks_succ, blocks_zero, List.take_of_length_le (by omega)]
  have habove : Tree 4 (packBlock exampleGeometry) exampleGeometry.hashed
      (exampleLevel.map exampleGeometry.hashed) exampleTop
      (exampleGeometry.hashed exampleTop) := by
    have hlevels := @Tree.level 4 (packBlock exampleGeometry) exampleGeometry.hashed
      (exampleLevel.map exampleGeometry.hashed) []
      (exampleGeometry.hashed exampleTop) (by rw [List.length_map, hlevel]; decide)
      (by rw [htop]; exact .top _)
    rwa [htop, List.flatten_singleton, List.nil_append] at hlevels
  exact .level (by rw [length_leaves]; decide) habove

theorem length_exampleBlocks : (zeros (1024 * 1024) ++
    (List.replicate 3 (1 :: zeros (1024 * 1024 - 1))).flatten ++ zeros (1024 * 1024)).length =
      5 * (1024 * 1024) := by
  rw [List.length_append, List.length_append, length_zeros, List.length_flatten, List.map_replicate,
    List.sum_replicate_nat, List.length_cons, length_zeros]

theorem length_exampleRoot : exampleRoot.length = 5243392 := by
  rw [exampleRoot, List.length_append, length_exampleBlocks, length_zeros]

theorem length_exampleHashImage : exampleHashImage.length = 2560 := by
  have hsuper := isSuperblock_example
  have hcounts : Counts exampleStated.perBlock (leaves exampleStated exampleRoot).length [2, 1] := by
    rw [length_leaves]
    exact .more (by decide) (.more (by decide) (.done (by decide)))
  have htree := (length_tree hsuper.fits tree_example hcounts (digests_leaves _ _)).1
  rw [exampleHashImage, List.append_assoc exampleSuperblock, List.length_append,
    List.length_append, hsuper.length, htree, length_zeros]
  rfl

/-- The text of the root hash is its hex digits and a line feed. -/
theorem lower_exampleRootHash :
    examplePlatform.lower (strip (exampleRootHash.map fun b => Char.ofNat b.toNat)) =
      hex (exampleGeometry.hashed exampleTop) := by
  have htext : (exampleRootHash.map fun b => Char.ofNat b.toNat) =
      hex (exampleGeometry.hashed exampleTop) ++ ['\n'] := by
    rw [exampleRootHash, List.map_append, List.map_map]
    refine congrArg (· ++ ['\n']) (List.map_congr_left (fun c hc => (hex_plain c hc).1) |>.trans ?_)
    exact List.map_id _
  have hstripped : Stripped (hex (exampleGeometry.hashed exampleTop)) :=
    ⟨fun c hc => (hex_plain c (List.mem_of_mem_head? hc)).2.2,
      fun c hc => (hex_plain c (List.mem_of_mem_getLast? hc)).2.2⟩
  rw [htext, strip_append_spaces (List.forall_mem_singleton.2 (by decide)), hstripped.strip_eq]
  exact (List.map_congr_left fun c hc => (hex_plain c hc).2.1).trans (List.map_id _)

theorem isVerity_example : IsVerity examplePlatform exampleRootHash exampleVerityPartitions
    exampleRoot exampleHashImage := by
  have hsuper := isSuperblock_example
  have htake : exampleHashImage.take superblockSize = exampleSuperblock := by
    rw [exampleHashImage, List.append_assoc, List.append_assoc, List.take_left' hsuper.length]
  have hpartitions :
      ofType exampleVerityPartitions rootX86_64 = [⟨some "root", rootX86_64, 2, 5243392⟩] ∧
      ofType exampleVerityPartitions rootX86_64Verity = [⟨none, rootX86_64Verity, 3, 2560⟩] ∧
      ofType exampleVerityPartitions rootX86_64VeritySig = [] := by
    decide
  have himage : exampleHashImage = exampleSuperblock ++ [] ++ (exampleTop ++ exampleLevel.flatten) ++
      zeros 512 := by
    rw [List.append_nil, exampleHashImage, List.append_assoc exampleSuperblock]
  have hinside : 5 * (1024 * 1024) ≤ exampleRoot.length := by
    rw [length_exampleRoot]
    omega
  have htrailer : AllZero (exampleRoot.drop (5 * (1024 * 1024))) := by
    rw [exampleRoot, List.drop_left' length_exampleBlocks]
    exact allZero_zeros _
  have hread : examplePlatform.readText exampleRootHash =
      some (exampleRootHash.map fun b => Char.ofNat b.toNat) := by
    simp only [examplePlatform]
  rw [← htake] at hsuper himage
  exact ⟨_, _, exampleStated, _, _, 512, _, hpartitions,
    ⟨length_exampleRoot, length_exampleHashImage⟩, hsuper, himage, ⟨hinside, htrailer⟩,
    ⟨by decide, tree_example⟩, hread, lower_exampleRootHash⟩

theorem withinLimits_example : WithinLimits examplePlatform exampleRoot exampleHashImage := by
  refine ⟨by rw [length_exampleRoot]; decide, by rw [length_exampleHashImage]; decide,
    by decide, fun g hg => ?_⟩
  have hsuper := readSuperblock_eq_ok.1 hg
  have halgorithm : g.algorithm = "sum".toList := by
    rw [hsuper.algorithm]
    decide
  have hdigest : g.digest = sumDigest := by
    have h := hsuper.digest
    rw [halgorithm] at h
    exact (Option.some.inj h).symm
  have hblocks : g.dataBlocks = 5 := by rw [hsuper.data_blocks]; decide
  have hslot : g.slotSize = 128 := by rw [hsuper.slot_size, hdigest]; decide
  have hhash : g.hashBlockSize = 512 := by rw [hsuper.hash_block_size]; decide
  rw [hblocks, hdigest, Geometry.perBlock, hhash, hslot]
  decide

theorem hashBlockSize_example : 512 ≤ field exampleHashImage 68 4 := by decide

theorem project_example : ∃ metadata, project examplePlatform exampleRootHash
    exampleVerityPartitions exampleRoot exampleHashImage = .ok metadata :=
  (project_accepts_iff withinLimits_example hashBlockSize_example).2 isVerity_example

theorem project_exact_example :
    (∃ metadata, project examplePlatform exampleRootHash exampleVerityPartitions exampleRoot
      exampleHashImage = .ok metadata) ∧
    IsVerity examplePlatform exampleRootHash exampleVerityPartitions exampleRoot exampleHashImage :=
  ⟨project_example, (project_exact examplePlatform exampleRootHash exampleVerityPartitions exampleRoot
    exampleHashImage withinLimits_example hashBlockSize_example).1.1 project_example⟩

end RulesMkosi.VerityMetadata
