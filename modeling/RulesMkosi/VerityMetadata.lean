/-
  Verification of dm-verity artifacts (`mkosi/private/verity_metadata.py`).

  `project` recomputes the hash tree of the root image level by level and
  compares it with the hash image.  A digest spool is the byte string that the
  code writes to a temporary file; an open file is the rest of its bytes.
-/
import RulesMkosi.Lib.Result
import RulesMkosi.Lib.Dict
import RulesMkosi.Lib.Text
import RulesMkosi.Lib.Merkle
import RulesMkosi.Lib.Codec
import Mathlib.Data.Nat.Size

namespace RulesMkosi.VerityMetadata

def maxArtifactBytes : ℕ := 16 * 1024 ^ 3

def maxBlocks : ℕ := 2 ^ 32

def maxLevels : ℕ := 64

def maxSpoolBytes : ℕ := 2 * 1024 ^ 3

def superblockSize : ℕ := 512

/-- `b"verity\0\0"` -/
def superblockMagic : Bytes := [0x76, 0x65, 0x72, 0x69, 0x74, 0x79, 0, 0]

/-- A hash function of `hashlib`; the functions with digests of any length have the size 0. -/
structure Digest where
  size : ℕ
  hash : Bytes → Bytes
  length_hash : ∀ data, (hash data).length = size

/-- The library functions that `project` calls. -/
structure Platform where
  /-- `hashlib.new` -/
  algorithms : Str → Option Digest
  /-- `Path.read_text`; `none` if the bytes are not valid text -/
  readText : Bytes → Option Str
  /-- `s.lower()` -/
  lower : Str → Str
  /-- the hex digest of `file_hashing.sha256_file` -/
  sha256 : Bytes → String

/-! ## The superblock -/

structure Geometry where
  algorithm : Str
  digest : Digest
  dataBlockSize : ℕ
  dataBlocks : ℕ
  hashBlockSize : ℕ
  slotSize : ℕ
  salt : Bytes
  superblock : Bytes

def findDigest (P : Platform) (algorithm : Str) : Except Exn Digest :=
  match P.algorithms algorithm with
  | some digest => .ok digest
  | none => .error (.valueError "unsupported dm-verity hash algorithm")

/-- `1 << (digest_size - 1).bit_length()`, which is 2 for the size 0 -/
def digestSlot (digestSize : ℕ) : ℕ := 2 ^ ((digestSize : ℤ) - 1).natAbs.size

def computeSlotSize (dataBlockSize hashBlockSize digestSize : ℕ) : Except Exn ℕ := do
  raiseIf (dataBlockSize < 512 ∨ 1024 * 1024 < dataBlockSize ∨
      dataBlockSize &&& (dataBlockSize - 1) ≠ 0)
    (.valueError "invalid dm-verity data block size")
  raiseIf (hashBlockSize < digestSize ∨ 1024 * 1024 < hashBlockSize ∨
      hashBlockSize &&& (hashBlockSize - 1) ≠ 0)
    (.valueError "invalid dm-verity hash block size")
  let slotSize := digestSlot digestSize
  raiseIf (hashBlockSize < slotSize ∨ hashBlockSize % slotSize ≠ 0)
    (.valueError "dm-verity digest slots do not divide the hash block")
  return slotSize

def readSuperblock (P : Platform) (hashImage : Bytes) : Except Exn Geometry := do
  let value := hashImage.take superblockSize
  raiseIf (value.length ≠ superblockSize ∨ value.take 8 ≠ superblockMagic)
    (.valueError "hash artifact has no complete dm-verity superblock")
  let version ← unpackFrom 4 value 8
  let hashType ← unpackFrom 4 value 12
  let algorithm ← decodeAscii ((slice value 32 64).takeWhile (· ≠ 0))
  let dataBlockSize ← unpackFrom 4 value 64
  let hashBlockSize ← unpackFrom 4 value 68
  let dataBlocks ← unpackFrom 8 value 72
  let saltSize ← unpackFrom 2 value 80
  raiseIf (version ≠ 1 ∨ hashType ≠ 1)
    (.valueError "only dm-verity format 1 with normal salt placement is supported")
  let digest ← findDigest P algorithm
  let slotSize ← computeSlotSize dataBlockSize hashBlockSize digest.size
  raiseIf (dataBlocks = 0 ∨ maxBlocks < dataBlocks)
    (.valueError "invalid dm-verity data block count")
  raiseIf (256 < saltSize) (.valueError "invalid dm-verity salt size")
  return ⟨algorithm, digest, dataBlockSize, dataBlocks, hashBlockSize, slotSize,
    slice value 88 (88 + saltSize), value⟩

/-! ## The hash tree -/

namespace Geometry

variable (g : Geometry)

/-- The digest of the salt and the data. -/
def hashed (data : Bytes) : Bytes := g.digest.hash (g.salt ++ data)

/-- `_salted_digest`; `digest()` has to be told the length where the hash function has none -/
def saltedDigest (data : Bytes) : Except Exn Bytes := do
  raiseIf (g.digest.size = 0) (.typeError "digest() missing required argument 'length' (pos 1)")
  return g.hashed data

def perBlock : ℕ := g.hashBlockSize / g.slotSize

end Geometry

section
variable (g : Geometry)

/-- `_leaf_digests`, for the blocks that are left. -/
def leafDigests : ℕ → Bytes → Except Exn Bytes
  | 0, _ => .ok []
  | blocks + 1, source => do
    let block := source.take g.dataBlockSize
    raiseIf (block.length ≠ g.dataBlockSize)
      (.valueError "root artifact is truncated within declared data blocks")
    let digest ← g.saltedDigest block
    let output ← leafDigests blocks (source.drop g.dataBlockSize)
    return digest ++ output

/-- The loop of `_level_counts`; the check of the level limit ends it before the rounds run out. -/
def levelCountsLoop (perBlock : ℕ) : ℕ → List ℕ → ℕ → Except Exn (List ℕ)
  | 0, _, _ => .error (.valueError "dm-verity tree exceeds the level limit")
  | rounds + 1, counts, digests =>
    if 1 < digests then do
      let blocks := Merkle.blockCount perBlock digests
      raiseIf (maxLevels < (counts ++ [blocks]).length)
        (.valueError "dm-verity tree exceeds the level limit")
      levelCountsLoop perBlock rounds (counts ++ [blocks]) blocks
    else .ok counts

def levelCounts (dataBlocks perBlock : ℕ) : Except Exn (List ℕ) :=
  levelCountsLoop perBlock (maxLevels + 1) [] dataBlocks

/-- The bytes of the leaf spool and of the first level's spool. -/
def spoolBytes (counts : List ℕ) : ℕ :=
  g.dataBlocks * g.digest.size + counts.headD 0 * g.digest.size

def checkSpoolBudget (counts : List ℕ) : Except Exn Unit :=
  raiseIf (maxSpoolBytes < spoolBytes g counts)
    (.valueError "dm-verity digest spools exceed the resource limit")

/-- One round of the loop of `_level_offsets`: the offsets so far and the blocks before the level. -/
def addOffset (treeOffset blockSize : ℕ) (state : List ℕ × ℕ) (count : ℕ) : List ℕ × ℕ :=
  (state.1 ++ [treeOffset + state.2 * blockSize], state.2 + count)

def levelOffsets (counts : List ℕ) (treeOffset blockSize : ℕ) : List ℕ × ℕ :=
  let state := counts.reverse.foldl (addOffset treeOffset blockSize) ([], 0)
  (state.1.reverse, state.2 * blockSize)

/-- The loop of `_expected_block`: the slots of the digests and the rest of the spool. -/
def packDigests : ℕ → Bytes → Except Exn (Bytes × Bytes)
  | 0, current => .ok ([], current)
  | digests + 1, current => do
    let digest := current.take g.digest.size
    raiseIf (digest.length ≠ g.digest.size) (.valueError "dm-verity digest spool is truncated")
    let (block, rest) ← packDigests digests (current.drop g.digest.size)
    return (digest ++ zeros (g.slotSize - g.digest.size) ++ block, rest)

def expectedBlock (current : Bytes) (digests : ℕ) : Except Exn (Bytes × Bytes) := do
  let (block, rest) ← packDigests g digests current
  return (block ++ zeros (g.hashBlockSize - block.length), rest)

/-- The loop of `_verify_level` for the blocks that are left; `digestCount` digests of the level
    below are not consumed yet. -/
def verifyBlocks (level : ℕ) : ℕ → ℕ → ℕ → Bytes → Bytes → Except Exn Bytes
  | 0, _, _, _, _ => .ok []
  | blocks + 1, blockIndex, digestCount, current, emitted => do
    let digests := min g.perBlock digestCount
    let (block, current) ← expectedBlock g current digests
    raiseIf (emitted.take g.hashBlockSize ≠ block)
      (.valueError ("dm-verity hash mismatch at level " ++ toString level ++ " block " ++
        toString blockIndex))
    let digest ← g.saltedDigest block
    let output ← verifyBlocks level blocks (blockIndex + 1) (digestCount - digests) current
      (emitted.drop g.hashBlockSize)
    return digest ++ output

/-- The loop of `_verify_tree` over the levels; `spool` holds the digests of the level below. -/
def verifyLevels (hashImage : Bytes) : ℕ → List (ℕ × ℕ) → Bytes → ℕ → Except Exn Bytes
  | _, [], spool, _ => .ok spool
  | level, (blockCount, emittedOffset) :: rest, spool, digestCount => do
    let spool ← verifyBlocks g level blockCount 0 digestCount spool (hashImage.drop emittedOffset)
    verifyLevels hashImage (level + 1) rest spool blockCount

def readRootDigest (spool : Bytes) : Except Exn Bytes := do
  let verifiedRoot := spool.take g.digest.size
  raiseIf (verifiedRoot.length ≠ g.digest.size ∨ (spool.drop g.digest.size).take 1 ≠ [])
    (.valueError "dm-verity root digest spool has invalid size")
  return verifiedRoot

def verifyTree (rootImage hashImage : Bytes) (treeOffset : ℕ) :
    Except Exn (List ℕ × Bytes × ℕ) := do
  let counts ← levelCounts g.dataBlocks g.perBlock
  checkSpoolBudget g counts
  let (offsets, treeSize) := levelOffsets counts treeOffset g.hashBlockSize
  let leaf ← leafDigests g g.dataBlocks rootImage
  let spool ← verifyLevels g hashImage 0 (counts.zip offsets) leaf g.dataBlocks
  let verifiedRoot ← readRootDigest g spool
  return (counts, verifiedRoot, treeSize)

end

/-! ## Partition metadata -/

def rootX86_64 : String := "4f68bce3-e8cd-4db1-96e7-fbcaf984b709"

def rootX86_64Verity : String := "2c7357ed-ebd2-46d9-aec1-23d437ec2bf5"

def rootX86_64VeritySig : String := "41092b05-9fc8-4523-994f-2def0408b176"

def emptySlotLabel : String := "_empty"

/-- The fields of a projected partition that `project` reads. -/
structure PartitionRecord where
  label : Option String
  typeGuid : String
  number : ℕ
  sizeBytes : ℕ
  deriving Repr, DecidableEq

/-- An inactive A/B slot. -/
def isEmptySlot (partition : PartitionRecord) : Bool :=
  partition.label = some emptySlotLabel ∧ partition.typeGuid ∈ [rootX86_64, rootX86_64Verity]

/-- `by_type.get(type_guid, [])` -/
def ofType (partitions : List PartitionRecord) (typeGuid : String) : List PartitionRecord :=
  (partitions.filter fun p => !isEmptySlot p).filter fun p => p.typeGuid = typeGuid

/-- The root and hash partitions, if there is one of each. -/
def soleRoots (partitions : List PartitionRecord) : Except Exn (PartitionRecord × PartitionRecord) :=
  match ofType partitions rootX86_64, ofType partitions rootX86_64Verity with
  | [rootPartition], [hashPartition] => .ok (rootPartition, hashPartition)
  | _, _ => .error
      (.valueError "exactly one x86-64 root data and verity hash partition is required")

def rootPartitions (partitions : List PartitionRecord) :
    Except Exn (PartitionRecord × PartitionRecord) := do
  let roots ← soleRoots partitions
  raiseIf (ofType partitions rootX86_64VeritySig ≠ [])
    (.valueError "verity signature partitions require signing support tracked by #23")
  return roots

/-! ## The projection -/

def checkArtifactSizes (rootImage hashImage : Bytes)
    (rootPartition hashPartition : PartitionRecord) : Except Exn Unit := do
  raiseIf (maxArtifactBytes < rootImage.length ∨ maxArtifactBytes < hashImage.length)
    (.valueError "dm-verity artifact exceeds validation resource limit")
  raiseIf (rootImage.length ≠ rootPartition.sizeBytes)
    (.valueError "root artifact size does not equal its GPT partition extent")
  raiseIf (hashImage.length ≠ hashPartition.sizeBytes)
    (.valueError "hash artifact size does not equal its GPT partition extent")

def checkSuperblockPadding (hashImage : Bytes) (treeOffset : ℕ) : Except Exn Unit :=
  raiseIf ((hashImage.take treeOffset).length ≠ treeOffset ∨
      ¬ AllZero ((hashImage.take treeOffset).drop superblockSize))
    (.valueError "dm-verity superblock padding is not canonical zero padding")

def checkZeroTrailer (image : Bytes) (offset : ℕ) (name : String) : Except Exn Unit :=
  raiseIf (¬ AllZero (image.drop offset))
    (.valueError (name ++ " artifact has nonzero ambiguous trailing bytes"))

structure Artifact where
  sha256 : String
  size : ℕ
  deriving Repr, DecidableEq

def artifact (P : Platform) (file : Bytes) : Artifact := ⟨P.sha256 file, file.length⟩

structure Metadata where
  root : Artifact
  rootHashFile : Artifact
  verity : Artifact
  dataBlockSize : ℕ
  dataBlocks : ℕ
  dataPartition : ℕ
  digestSize : ℕ
  digestSlotSize : ℕ
  formatVersion : String
  hashAlgorithm : Str
  hashBlockSize : ℕ
  hashLevels : ℕ
  hashPartition : ℕ
  rootHash : Str
  salt : Str
  signaturePartition : Option ℕ
  treeOffset : ℕ
  treeSize : ℕ

def readRootHash (P : Platform) (rootHashFile : Bytes) : Except Exn Str :=
  match P.readText rootHashFile with
  | some text => .ok (P.lower (strip text))
  | none => .error (.unicodeError "can't decode the root hash")

def project (P : Platform) (rootHashFile : Bytes) (partitions : List PartitionRecord)
    (rootImage hashImage : Bytes) : Except Exn Metadata := do
  let rootHash ← readRootHash P rootHashFile
  let (rootPartition, hashPartition) ← rootPartitions partitions
  checkArtifactSizes rootImage hashImage rootPartition hashPartition
  let g ← readSuperblock P hashImage
  raiseIf (rootImage.length < g.dataBlocks * g.dataBlockSize)
    (.valueError "dm-verity data geometry exceeds the root artifact")
  checkZeroTrailer rootImage (g.dataBlocks * g.dataBlockSize) "root"
  let treeOffset := g.hashBlockSize
  checkSuperblockPadding hashImage treeOffset
  let (levels, verifiedRoot, treeSize) ← verifyTree g rootImage hashImage treeOffset
  checkZeroTrailer hashImage (treeOffset + treeSize) "hash"
  raiseIf (rootHash ≠ hex verifiedRoot)
    (.valueError "supplied root hash does not equal the independently verified root")
  return {
    root := artifact P rootImage
    rootHashFile := artifact P rootHashFile
    verity := artifact P hashImage
    dataBlockSize := g.dataBlockSize
    dataBlocks := g.dataBlocks
    dataPartition := rootPartition.number
    digestSize := g.digest.size
    digestSlotSize := g.slotSize
    formatVersion := "mkosi-verity-metadata-v2"
    hashAlgorithm := g.algorithm
    hashBlockSize := g.hashBlockSize
    hashLevels := levels.length
    hashPartition := hashPartition.number
    rootHash := rootHash
    salt := hex g.salt
    signaturePartition := none
    treeOffset := treeOffset
    treeSize := treeSize }

end RulesMkosi.VerityMetadata
