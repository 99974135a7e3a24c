/-
  GPT validation and the canonical image digest
  (`mkosi/private/partition_metadata.py`).

  Both GPT copies are validated before the partitions are projected.
  `canonicalStream` is the byte stream that `canonical_image_sha256` hashes: the
  image with the identities and checksums of both copies normalized.
-/
import RulesMkosi.Lib.Result
import RulesMkosi.Lib.Bytes
import RulesMkosi.Lib.Codec
import RulesMkosi.Lib.Patch
import Mathlib.Data.List.Sort
import Mathlib.Data.List.Lex
import Mathlib.Data.String.Basic

namespace RulesMkosi.PartitionMetadata

def alignment : ℕ := 1024 * 1024

def headerMin : ℕ := 92

def maxArrayBytes : ℕ := 64 * 1024 * 1024

def maxEntries : ℕ := 1024 * 1024

/-- The library functions that the module calls. -/
structure Platform where
  /-- `repr` of a string -/
  repr : Str → String
  /-- the hex digest of `hashlib.sha256` -/
  sha256 : Bytes → String

def readExact (image : Bytes) (offset size : ℕ) (description : String) : Except Exn Bytes := do
  raiseIf (image.length < offset ∨ image.length - offset < size)
    (.valueError (description ++ " is outside the image"))
  return slice image offset (offset + size)

/-! ## Headers -/

/-- `b"EFI PART"` -/
def efiPart : Bytes := [0x45, 0x46, 0x49, 0x20, 0x50, 0x41, 0x52, 0x54]

def checkHeaderBytes (raw : Bytes) (sectorSize : ℕ) (description : String) : Except Exn ℕ := do
  let revision ← unpackFrom 4 raw 8
  let headerSize ← unpackFrom 4 raw 12
  let headerCrc ← unpackFrom 4 raw 16
  let checked := splice (raw.take headerSize) 16 20 (zeros 4)
  raiseIf (raw.take 8 ≠ efiPart) (.valueError (description ++ " has an invalid signature"))
  raiseIf (revision ≠ 0x00010000) (.valueError (description ++ " has unsupported revision"))
  raiseIf (¬ (headerMin ≤ headerSize ∧ headerSize ≤ sectorSize))
    (.valueError (description ++ " has invalid header size"))
  raiseIf (crc32 checked ≠ headerCrc) (.valueError (description ++ " header CRC mismatch"))
  raiseIf (slice raw 20 24 ≠ zeros 4)
    (.valueError (description ++ " has nonzero reserved header bytes"))
  return headerSize

structure HeaderFields where
  arrayCrc : ℕ
  backup : ℕ
  count : ℕ
  current : ℕ
  entriesLba : ℕ
  entrySize : ℕ
  firstUsable : ℕ
  lastUsable : ℕ
  deriving Repr, DecidableEq

def headerFields (raw : Bytes) : Except Exn HeaderFields := do
  let current ← unpackFrom 8 raw 24
  let backup ← unpackFrom 8 raw 32
  let firstUsable ← unpackFrom 8 raw 40
  let lastUsable ← unpackFrom 8 raw 48
  let entriesLba ← unpackFrom 8 raw 72
  let count ← unpackFrom 4 raw 80
  let entrySize ← unpackFrom 4 raw 84
  let arrayCrc ← unpackFrom 4 raw 88
  return ⟨arrayCrc, backup, count, current, entriesLba, entrySize, firstUsable, lastUsable⟩

def checkHeaderGeometry (fields : HeaderFields) (lba expectedBackup lastLba : ℕ)
    (description : String) : Except Exn Unit := do
  raiseIf (¬ (fields.current = lba ∧ fields.backup = expectedBackup))
    (.valueError (description ++ " has invalid reciprocal header LBAs"))
  raiseIf (¬ (lba = 1 ∨ lba = lastLba))
    (.valueError (description ++ " is not at an expected disk location"))
  raiseIf (¬ (fields.firstUsable ≤ fields.lastUsable ∧ fields.lastUsable < lastLba))
    (.valueError (description ++ " has invalid usable range"))
  raiseIf (¬ (0 < fields.count ∧ fields.count ≤ maxEntries))
    (.valueError (description ++ " has hostile partition count"))
  raiseIf (¬ ((128 ≤ fields.entrySize ∧ fields.entrySize ≤ 4096) ∧ fields.entrySize % 8 = 0))
    (.valueError (description ++ " has hostile partition entry size"))
  raiseIf (¬ fields.count * fields.entrySize ≤ maxArrayBytes)
    (.valueError (description ++ " partition array is oversized"))

def checkArrayLocation (fields : HeaderFields) (lba lastLba arrayLastLba : ℕ)
    (description : String) : Except Exn Unit := do
  raiseIf (¬ (2 ≤ fields.entriesLba ∧ arrayLastLba < lastLba))
    (.valueError (description ++ " has invalid partition-array location"))
  raiseIf (¬ (lba ≠ 1 ∨ arrayLastLba < fields.firstUsable))
    (.valueError "primary GPT partition array is not before the usable range")
  raiseIf (¬ (lba ≠ lastLba ∨ fields.lastUsable < fields.entriesLba))
    (.valueError "backup GPT partition array is not after the usable range")

structure Header where
  array : Bytes
  arrayOffset : ℕ
  count : ℕ
  diskGuid : Bytes
  entrySize : ℕ
  entriesLba : ℕ
  firstUsable : ℕ
  headerOffset : ℕ
  headerSize : ℕ
  lastUsable : ℕ
  rawHeader : Bytes
  deriving Repr, DecidableEq

def header (image : Bytes) (sectorSize lba expectedBackup : ℕ) (description : String) :
    Except Exn Header := do
  let raw ← readExact image (lba * sectorSize) sectorSize description
  let headerSize ← checkHeaderBytes raw sectorSize description
  let fields ← headerFields raw
  let lastLba := image.length / sectorSize - 1
  checkHeaderGeometry fields lba expectedBackup lastLba description
  let arraySize := fields.count * fields.entrySize
  let arrayOffset := fields.entriesLba * sectorSize
  let array ← readExact image arrayOffset arraySize (description ++ " partition array")
  let arrayLastLba := fields.entriesLba + (arraySize + sectorSize - 1) / sectorSize - 1
  checkArrayLocation fields lba lastLba arrayLastLba description
  raiseIf (crc32 array ≠ fields.arrayCrc)
    (.valueError (description ++ " partition-array CRC mismatch"))
  return {
    array := array
    arrayOffset := arrayOffset
    count := fields.count
    diskGuid := slice raw 56 72
    entrySize := fields.entrySize
    entriesLba := fields.entriesLba
    firstUsable := fields.firstUsable
    headerOffset := lba * sectorSize
    headerSize := headerSize
    lastUsable := fields.lastUsable
    rawHeader := raw }

/-- The sector sizes with a GPT signature in the second sector. -/
def sectorSizes (image : Bytes) : List ℕ :=
  [512, 4096].filter fun size =>
    image.length % size = 0 ∧ size * 3 ≤ image.length ∧ slice image size (size + 8) = efiPart

def sectorSize (image : Bytes) : Except Exn ℕ :=
  match sectorSizes image with
  | [size] => .ok size
  | _ => .error (.valueError "image must contain one unambiguous 512- or 4096-byte GPT")

structure ValidatedGpt where
  sectorSize : ℕ
  primary : Header
  backup : Header
  deriving Repr, DecidableEq

def validatedGpt (image : Bytes) : Except Exn ValidatedGpt := do
  let size ← sectorSize image
  let lastLba := image.length / size - 1
  let primary ← header image size 1 lastLba "primary GPT"
  let backup ← header image size lastLba 1 "backup GPT"
  raiseIf (primary.diskGuid ≠ backup.diskGuid) (.valueError "GPT copies disagree on disk_guid")
  raiseIf (primary.firstUsable ≠ backup.firstUsable)
    (.valueError "GPT copies disagree on first_usable")
  raiseIf (primary.lastUsable ≠ backup.lastUsable)
    (.valueError "GPT copies disagree on last_usable")
  raiseIf (primary.count ≠ backup.count) (.valueError "GPT copies disagree on count")
  raiseIf (primary.entrySize ≠ backup.entrySize)
    (.valueError "GPT copies disagree on entry_size")
  raiseIf (primary.array ≠ backup.array) (.valueError "GPT partition arrays disagree")
  return ⟨size, primary, backup⟩

/-! ## Partitions -/

def rootX86_64 : Str := "4f68bce3-e8cd-4db1-96e7-fbcaf984b709".toList

def rootX86_64Verity : Str := "2c7357ed-ebd2-46d9-aec1-23d437ec2bf5".toList

def biosBoot : Str := "21686148-6449-6e6f-744e-656564454649".toList

def emptySlotLabel : Str := "_empty".toList

/-- What the checks read of a projected partition. -/
structure PartitionEntry where
  label : Str
  number : ℕ
  sizeBytes : ℕ
  startBytes : ℕ
  typeGuid : Str
  deriving Repr, DecidableEq

/-- A projected partition; A/B images have the unique GUID too. -/
structure Partition extends PartitionEntry where
  uuid : Option Str
  deriving Repr, DecidableEq

/-- `str(uuid.UUID(bytes_le=data))` -/
def uuidString (data : Bytes) : Except Exn Str := do
  raiseIf (data.length ≠ 16) (.valueError "bytes_le is not a 16-char string")
  return hex (slice data 0 4).reverse ++ ['-'] ++ hex (slice data 4 6).reverse ++ ['-'] ++
    hex (slice data 6 8).reverse ++ ['-'] ++ hex (slice data 8 10) ++ ['-'] ++ hex (slice data 10 16)

def checkEntryRange (number first last : ℕ) (primary : Header) (previous : Option (ℕ × ℕ × ℕ)) :
    Except Exn Unit := do
  raiseIf (last < first)
    (.valueError ("partition " ++ toString number ++ " has an invalid range"))
  raiseIf (first < primary.firstUsable ∨ primary.lastUsable < last)
    (.valueError ("partition " ++ toString number ++ " is outside the usable range"))
  match previous with
  | none => return ()
  | some (previousFirst, previousLast, previousNumber) => do
    raiseIf (first < previousFirst)
      (.valueError ("partition " ++ toString number ++ " is out of order"))
    raiseIf (first ≤ previousLast)
      (.valueError ("partition " ++ toString number ++ " overlaps partition " ++
        toString previousNumber))

/-- The label of an entry. -/
def entryLabel (entry : Bytes) (number : ℕ) : Except Exn Str :=
  match decodeUtf16 (slice entry 56 128) with
  | some text => .ok (text.takeWhile (· ≠ Char.ofNat 0))
  | none => .error (.valueError ("partition " ++ toString number ++ " has an invalid label"))

def projectEntry (entry : Bytes) (number first last sectorSize : ℕ) : Except Exn PartitionEntry := do
  let startBytes := first * sectorSize
  raiseIf (startBytes % alignment ≠ 0)
    (.valueError ("partition " ++ toString number ++ " is not 1 MiB aligned"))
  let label ← entryLabel entry number
  let typeGuid ← uuidString (slice entry 0 16)
  return ⟨label, number, (last - first + 1) * sectorSize, startBytes, typeGuid⟩

/-- The unique GUID, which is only projected for A/B images. -/
def entryUuid (slotLabel : Option Str) (entry : Bytes) : Except Exn (Option Str) :=
  match slotLabel with
  | none => .ok none
  | some _ => do
    let uuid ← uuidString (slice entry 16 32)
    return some uuid

/-- The state of the loop over the entries. -/
structure Scan where
  partitions : List Partition
  previous : Option (ℕ × ℕ × ℕ)
  deriving Repr, DecidableEq

/-- The loop body for the entry `slot`. -/
def scanEntry (slotLabel : Option Str) (size : ℕ) (primary : Header) (scan : Scan) (slot : ℕ) :
    Except Exn Scan :=
  let entry := slice primary.array (slot * primary.entrySize) ((slot + 1) * primary.entrySize)
  if entry.take 16 = zeros 16 then .ok scan
  else do
    let number := slot + 1
    let first ← unpackFrom 8 entry 32
    let last ← unpackFrom 8 entry 40
    checkEntryRange number first last primary scan.previous
    let projected ← projectEntry entry number first last size
    let uuid ← entryUuid slotLabel entry
    return ⟨scan.partitions ++ [⟨projected, uuid⟩], some (first, last, number)⟩

section
variable (P : Platform)

/-- `repr` of a list of strings -/
def reprLabels (labels : List Str) : String := "[" ++ ", ".intercalate (labels.map P.repr) ++ "]"

/-- One round of the loop of `_validate_ab_slots`. -/
def validateSlots (partitions : List PartitionEntry) (typeGuid label : Str) (name : String) :
    Except Exn Unit := do
  let candidates := partitions.filter fun entry => entry.typeGuid = typeGuid
  let populated := candidates.filter fun entry => entry.label ≠ emptySlotLabel
  let inactive := candidates.filter fun entry => entry.label = emptySlotLabel
  raiseIf (populated.map PartitionEntry.label ≠ [label])
    (.valueError ("A/B image requires exactly one populated " ++ name ++ " partition labelled " ++
      P.repr label ++ "; found " ++
      reprLabels P ((candidates.map PartitionEntry.label).insertionSort (· ≤ ·))))
  raiseIf (∃ entry ∈ inactive, ∃ slot ∈ populated.head?, entry.sizeBytes < slot.sizeBytes)
    (.valueError ("inactive " ++ name ++ " slots must be at least as large as the populated slot"))

def validateAbSlots (partitions : List PartitionEntry) (slotLabel : Str) : Except Exn Unit := do
  validateSlots P partitions rootX86_64 slotLabel "root"
  validateSlots P partitions rootX86_64Verity (slotLabel ++ "_verity".toList) "verity"

def validateRoots (partitions : List PartitionEntry) (slotLabel : Option Str) : Except Exn Unit :=
  match slotLabel with
  | some slotLabel => validateAbSlots P partitions slotLabel
  | none =>
    match partitions.filter fun entry => entry.typeGuid = rootX86_64 with
    | [root] => raiseIf (root.label ≠ "root-x86-64".toList)
        (.valueError "Linux x86-64 root partition label must be root-x86-64")
    | _ => .error (.valueError "exactly one Linux x86-64 root partition is required")

def validateBiosBoot (partitions : List PartitionEntry) : Except Exn Unit :=
  match partitions.filter fun entry => entry.typeGuid = biosBoot with
  | [boot] => raiseIf (boot.sizeBytes < alignment)
      (.valueError "GPT BIOS boot partition must be at least 1 MiB")
  | _ => .error (.valueError "BIOS firmware requires exactly one GPT BIOS boot partition")

def validateFirmware (partitions : List PartitionEntry) (firmware : String) : Except Exn Unit :=
  if firmware = "uefi" then .ok ()
  else if firmware ≠ "bios" then .error (.valueError "firmware must be either uefi or bios")
  else validateBiosBoot partitions

structure ImageMetadata where
  firmware : String
  formatVersion : String
  partitions : List Partition
  sectorSize : ℕ
  deriving Repr, DecidableEq

def projectImage (image : Bytes) (firmware : String) (slotLabel : Option Str) :
    Except Exn ImageMetadata := do
  let gpt ← validatedGpt image
  let scan ← (List.range gpt.primary.count).foldlM (scanEntry slotLabel gpt.sectorSize gpt.primary)
    ⟨[], none⟩
  let entries := scan.partitions.map Partition.toPartitionEntry
  validateRoots P entries slotLabel
  validateFirmware entries firmware
  return ⟨firmware, "mkosi-partition-metadata-v1", scan.partitions, gpt.sectorSize⟩

end

/-! ## The canonical image -/

/-- `struct.pack_into("<I", data, offset, value)` -/
def packInto (data : Bytes) (offset value : ℕ) : Bytes :=
  splice data offset (offset + 4) (leBytes 4 value)

def canonicalHeader (raw : Bytes) (headerSize arrayCrc : ℕ) : Bytes :=
  let cleared := splice (splice raw 16 20 (zeros 4)) 56 72 (zeros 16)
  let result := packInto cleared 88 arrayCrc
  packInto result 16 (crc32 (result.take headerSize))

/-- The array with the unique GUIDs of its first `count` entries cleared. -/
def canonicalArray (array : Bytes) (entrySize : ℕ) : ℕ → Bytes
  | 0 => array
  | slot + 1 => splice (canonicalArray array entrySize slot) (slot * entrySize + 16)
      (slot * entrySize + 32) (zeros 16)

/-- The next `size` bytes of a file at `position`. -/
def hashBytes (image : Bytes) (position size : ℕ) : Except Exn Bytes := do
  let chunk := slice image position (position + size)
  raiseIf (chunk.length ≠ size) (.valueError "raw image is truncated while hashing")
  return chunk

/-- The loop of `_hash_with_patches`; `cursor` is also the position in the file. -/
def hashPatches (image : Bytes) : ℕ → List (ℕ × Bytes) → Except Exn Bytes
  | cursor, [] => hashBytes image cursor (image.length - cursor)
  | cursor, (offset, replacement) :: rest => do
    raiseIf (offset < cursor) (.valueError "canonical GPT patches overlap")
    let before ← hashBytes image cursor (offset - cursor)
    let after ← hashPatches image (offset + replacement.length) rest
    return before ++ replacement ++ after

/-- The order of the pairs `(offset, replacement)`. -/
def patchLe (a b : ℕ × Bytes) : Prop := a.1 < b.1 ∨ a.1 = b.1 ∧ a.2 ≤ b.2

instance : DecidableRel patchLe := fun _ _ => inferInstanceAs (Decidable (_ ∨ _ ∧ _))

/-- The patches that normalize the two GPT copies. -/
def canonicalPatches (gpt : ValidatedGpt) : List (ℕ × Bytes) :=
  let array := canonicalArray gpt.primary.array gpt.primary.entrySize gpt.primary.count
  let arrayCrc := crc32 array
  [(gpt.primary.headerOffset,
      canonicalHeader gpt.primary.rawHeader gpt.primary.headerSize arrayCrc),
    (gpt.primary.arrayOffset, array), (gpt.backup.arrayOffset, array),
    (gpt.backup.headerOffset,
      canonicalHeader gpt.backup.rawHeader gpt.backup.headerSize arrayCrc)]

section
variable (P : Platform)

/-- The bytes that `canonical_image_sha256` hashes. -/
def canonicalStream (image : Bytes) (slotLabel : Option Str) : Except Exn Bytes := do
  let _ ← projectImage P image "uefi" slotLabel
  let gpt ← validatedGpt image
  hashPatches image 0 ((canonicalPatches gpt).insertionSort patchLe)

def canonicalImageSha256 (image : Bytes) (slotLabel : Option Str) : Except Exn String := do
  let stream ← canonicalStream P image slotLabel
  return P.sha256 stream

end

end RulesMkosi.PartitionMetadata
