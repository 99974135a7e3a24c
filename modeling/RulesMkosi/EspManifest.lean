/-
  Reading the EFI system partition of a raw disk image
  (`mkosi/private/esp_manifest/rules_mkosi_esp_manifest.py`).

  `findEsp` reads the primary GPT; a `FatVolume` reads the FAT12, FAT16 or
  FAT32 file system of the partition.  The image is untrusted: `struct` and
  index errors are outcomes of the model, and so is a loop that does not end
  within its number of rounds (`unfinished`).
-/
import RulesMkosi.Lib.ReadProgram
import RulesMkosi.Lib.Codec
import RulesMkosi.Lib.PosixPath
import Mathlib.Data.List.Sort
import Mathlib.Data.List.Lex

namespace RulesMkosi.EspManifest

inductive Failure where
  | invalidImage (message : String)
  | espFileNotFound (message : String)
  | exn (e : Exn)
  | unfinished
  deriving Repr, DecidableEq

abbrev Program := ReadProgram Failure

open ReadProgram (raise failIf ofExcept)

/-- The Unicode case mappings of `str`. -/
structure CaseMapping where
  lower : Str → Str
  upper : Str → Str

/-- `data[index]` -/
def byteAt (data : Bytes) (index : ℕ) : Except Failure ℕ :=
  match data[index]? with
  | some byte => .ok byte.toNat
  | none => .error (.exn (.indexError "index out of range"))

/-- `struct.unpack_from` of one little-endian field -/
def unpack (size : ℕ) (data : Bytes) (offset : ℕ) : Except Failure ℕ :=
  match unpackFrom size data offset with
  | .ok value => .ok value
  | .error e => .error (.exn e)

/-- `_Image.read` -/
def read (offset size : ℕ) (what : String) : Program Bytes := do
  let total ← ReadProgram.size
  failIf (total < offset + size)
    (.invalidImage (what ++ " at byte " ++ toString offset ++ " lies beyond the end of the image"))
  let data ← ReadProgram.readAt offset size
  failIf (data.length ≠ size)
    (.invalidImage (what ++ " at byte " ++ toString offset ++ " is truncated"))
  return data

/-- A read returns the whole range, or fails because the image ends before it. -/
theorem read_run {data : Bytes} {offset size : ℕ} {what : String} :
    read offset size what data = if offset + size ≤ data.length
      then (.ok (slice data offset (offset + size)), [(offset, size)])
      else (.error (.invalidImage (what ++ " at byte " ++ toString offset ++
        " lies beyond the end of the image")), []) := by
  split_ifs with h
  · have hlen : ¬ (slice data offset (offset + size)).length ≠ size := by
      rw [length_slice h]
      omega
    rw [read, ReadProgram.log_bind (a := data.length) rfl, failIf, if_neg (not_lt.2 h),
      ReadProgram.log_bind (a := ()) rfl,
      ReadProgram.log_bind (a := slice data offset (offset + size)) rfl, failIf, if_neg hlen]
    rfl
  · rw [read, ReadProgram.log_bind (a := data.length) rfl, failIf, if_pos (not_le.1 h)]
    rfl

/-! ## The GPT -/

structure Partition where
  offset : ℕ
  size : ℤ
  sectorSize : ℕ
  deriving Repr, DecidableEq

def gptSectorSizes : List ℕ := [512, 4096]

def maxGptArrayBytes : ℕ := 4 * 2 ^ 20

/-- `b"EFI PART"` -/
def efiPart : Bytes := [0x45, 0x46, 0x49, 0x20, 0x50, 0x41, 0x52, 0x54]

/-- `ESP_TYPE_GUID.bytes_le` -/
def espTypeGuid : Bytes :=
  [0x28, 0x73, 0x2A, 0xC1, 0x1F, 0xF8, 0xD2, 0x11, 0xBA, 0x4B, 0x00, 0xA0, 0xC9, 0x3E, 0xC9, 0x3B]

/-- The loop of `_gpt_sector_size`. -/
def findSectorSize : List ℕ → Program ℕ
  | [] => raise (.invalidImage "the image has no GPT header at byte 512 or 4096")
  | sectorSize :: rest => do
    let total ← ReadProgram.size
    if 2 * sectorSize ≤ total then do
      let signature ← read sectorSize 8 "the GPT header"
      if signature = efiPart then return sectorSize else findSectorSize rest
    else findSectorSize rest

def gptSectorSize : Program ℕ := do
  let mbr ← read 0 512 "the protective MBR"
  let types ← ofExcept ([0, 1, 2, 3].mapM fun index => byteAt mbr (446 + 16 * index + 4))
  failIf (slice mbr 510 512 ≠ [0x55, 0xAA] ∨ 0xEE ∉ types)
    (.invalidImage "the image has no protective MBR, so it is not a GPT disk image")
  findSectorSize gptSectorSizes

/-- `[data[start : start + size] for start in range(0, len(data), size)]` -/
def chunks (size : ℕ) (data : Bytes) : List Bytes :=
  (List.range ((data.length + size - 1) / size)).map fun i => slice data (i * size) (i * size + size)

def gptEntries (sectorSize : ℕ) : Program (List Bytes) := do
  let header ← read sectorSize sectorSize "the GPT header"
  let headerSize ← ofExcept (unpack 4 header 12)
  let headerCrc ← ofExcept (unpack 4 header 16)
  failIf (¬ (92 ≤ headerSize ∧ headerSize ≤ sectorSize))
    (.invalidImage ("the GPT header has an invalid size of " ++ toString headerSize ++ " bytes"))
  failIf (crc32 (slice header 0 16 ++ zeros 4 ++ slice header 20 headerSize) ≠ headerCrc)
    (.invalidImage "the GPT header's CRC does not match")
  let arrayLba ← ofExcept (unpack 8 header 72)
  let count ← ofExcept (unpack 4 header 80)
  let entrySize ← ofExcept (unpack 4 header 84)
  let arrayCrc ← ofExcept (unpack 4 header 88)
  failIf (entrySize < 128 ∨ entrySize % 8 ≠ 0 ∨ maxGptArrayBytes < count * entrySize)
    (.invalidImage ("the GPT has an invalid partition array of " ++ toString count ++ " " ++
      toString entrySize ++ "-byte entries"))
  let arrayOffset := arrayLba * sectorSize
  let total ← ReadProgram.size
  failIf (arrayLba < 2 ∨ total < arrayOffset + count * entrySize)
    (.invalidImage ("the GPT partition array at LBA " ++ toString arrayLba ++
      " does not lie within the image"))
  let array ← read arrayOffset (count * entrySize) "the GPT partition array"
  failIf (crc32 array ≠ arrayCrc)
    (.invalidImage "the GPT partition array's CRC does not match")
  return chunks entrySize array

/-- `uuid.UUID(bytes_le=data)`, as its bytes -/
def uuidLe (data : Bytes) : Except Failure Bytes :=
  if data.length = 16 then .ok data
  else .error (.exn (.valueError "bytes_le is not a 16-char string"))

/-- The body of the loop over the partition entries. -/
def addEsp (sectorSize : ℕ) (esps : List Partition) (entry : Bytes) :
    Except Failure (List Partition) := do
  let type ← uuidLe (slice entry 0 16)
  if type = espTypeGuid then do
    let first ← unpack 8 entry 32
    let last ← unpack 8 entry 40
    return esps ++ [⟨first * sectorSize, ((last : ℤ) - first + 1) * sectorSize, sectorSize⟩]
  else return esps

/-- The partition, if it is the only one. -/
def onlyEsp (esps : List Partition) : Except Failure Partition :=
  match esps with
  | [esp] => .ok esp
  | _ => .error (.invalidImage ("the GPT must hold exactly one EFI system partition, found " ++
      toString esps.length))

def findEsp : Program Partition := do
  let sectorSize ← gptSectorSize
  let entries ← gptEntries sectorSize
  let esps ← ofExcept (entries.foldlM (addEsp sectorSize) [])
  let esp ← ofExcept (onlyEsp esps)
  let total ← ReadProgram.size
  failIf (esp.offset < 2 * sectorSize ∨ esp.size ≤ 0 ∨ (total : ℤ) < esp.offset + esp.size)
    (.invalidImage "the EFI system partition does not lie within the image")
  return esp

/-! ## The FAT file system -/

structure Geometry where
  fat32 : Bool
  fatOffset : ℕ
  fatSize : ℕ
  rootOffset : ℕ
  rootSize : ℕ
  rootCluster : ℕ
  dataOffset : ℕ
  clusterSize : ℕ
  clusters : ℕ
  deriving Repr, DecidableEq

def directoryEntry : ℕ := 32

/-- `-(-a // b)` -/
def ceilDiv (a b : ℕ) : ℕ := (a + b - 1) / b

/-- The fields of the boot sector that `_geometry` uses. -/
structure BootSector where
  sector : ℕ
  perCluster : ℕ
  reserved : ℕ
  fats : ℕ
  rootEntries : ℕ
  total16 : ℕ
  fatSize16 : ℕ
  total32 : ℕ
  fatSize32 : ℕ
  rootCluster : ℕ
  signature : Bytes

def unpackBoot (boot : Bytes) : Except Failure BootSector := do
  let sector ← unpack 2 boot 11
  let perCluster ← unpack 1 boot 13
  let reserved ← unpack 2 boot 14
  let fats ← unpack 1 boot 16
  let rootEntries ← unpack 2 boot 17
  let total16 ← unpack 2 boot 19
  let fatSize16 ← unpack 2 boot 22
  let total32 ← unpack 4 boot 32
  let fatSize32 ← unpack 4 boot 36
  let rootCluster ← unpack 4 boot 44
  return ⟨sector, perCluster, reserved, fats, rootEntries, total16, fatSize16, total32, fatSize32,
    rootCluster, slice boot 510 512⟩

namespace BootSector

variable (b : BootSector)

def fat32 : Bool := b.fatSize16 = 0

def fatSize : ℕ := (if b.fat32 then b.fatSize32 else b.fatSize16) * b.sector

/-- `(total16 or total32) * sector` -/
def total : ℕ := (if b.total16 ≠ 0 then b.total16 else b.total32) * b.sector

def valid : Prop :=
  b.signature = [0x55, 0xAA] ∧ b.sector ∈ [512, 1024, 2048, 4096] ∧
    b.perCluster ∈ [1, 2, 4, 8, 16, 32, 64, 128] ∧ 0 < b.reserved ∧ 0 < b.fats ∧ 0 < b.fatSize ∧
    (decide (b.rootEntries = 0) = b.fat32)

instance : Decidable b.valid := inferInstanceAs (Decidable (_ ∧ _))

def rootOffset : ℕ := b.reserved * b.sector + b.fats * b.fatSize

def rootSize : ℕ := b.rootEntries * directoryEntry

def dataOffset : ℕ := b.rootOffset + ceilDiv b.rootSize b.sector * b.sector

def clusterSize : ℕ := b.perCluster * b.sector

/-- `max(total - data_offset, 0) // cluster_size` -/
def clusters : ℕ := (b.total - b.dataOffset) / b.clusterSize

end BootSector

def geometry (boot : Bytes) (partition : Partition) : Except Failure Geometry := do
  let b ← unpackBoot boot
  raiseIf (¬ b.valid)
    (.invalidImage "the ESP holds no FAT file system: its boot sector is invalid")
  raiseIf (partition.size < b.total)
    (.invalidImage "the ESP's FAT file system is larger than the partition")
  raiseIf (b.clusters = 0)
    (.invalidImage "the ESP's FAT file system has no data clusters")
  return {
    fat32 := b.fat32
    fatOffset := partition.offset + b.reserved * b.sector
    fatSize := b.fatSize
    rootOffset := partition.offset + b.rootOffset
    rootSize := b.rootSize
    rootCluster := if b.fat32 then b.rootCluster else 0
    dataOffset := partition.offset + b.dataOffset
    clusterSize := b.clusterSize
    clusters := b.clusters }

inductive FatType where
  | fat12
  | fat16
  | fat32
  deriving Repr, DecidableEq

namespace FatType

def bits : FatType → ℕ
  | fat12 => 12
  | fat16 => 16
  | fat32 => 32

/-- `_END_OF_CHAIN` -/
def endOfChain : FatType → ℕ
  | fat12 => 0xFF8
  | fat16 => 0xFFF8
  | fat32 => 0x0FFFFFF8

/-- The offset in the FAT and the size of the field that holds the entry of a cluster. -/
def entryField (type : FatType) (cluster : ℕ) : ℕ × ℕ :=
  match type with
  | fat12 => (cluster * 3 / 2, 2)
  | fat16 => (cluster * 2, 2)
  | fat32 => (cluster * 4, 4)

/-- The entry in the value of its field. -/
def entryValue (type : FatType) (cluster value : ℕ) : ℕ :=
  match type with
  | fat12 => if cluster % 2 = 1 then value / 2 ^ 4 else value % 2 ^ 12
  | fat16 => value
  | fat32 => value % 2 ^ 28

end FatType

def fat12ClusterLimit : ℕ := 4085

def Geometry.fatType (g : Geometry) : FatType :=
  if g.fat32 then .fat32 else if g.clusters < fat12ClusterLimit then .fat12 else .fat16

structure FatVolume where
  partition : Partition
  geometry : Geometry
  fat : Bytes

namespace FatVolume

def lastCluster (volume : FatVolume) : ℕ := volume.geometry.clusters + 1

def fatType (volume : FatVolume) : FatType := volume.geometry.fatType

/-- `_FatVolume(image, partition)` -/
def init (partition : Partition) : Program FatVolume := do
  let boot ← read partition.offset 512 "the ESP's boot sector"
  let g ← ofExcept (EspManifest.geometry boot partition)
  failIf (g.fatSize * 8 < (g.clusters + 1 + 1) * g.fatType.bits)
    (.invalidImage ("the ESP's FAT is too small for its " ++ toString g.clusters ++ " clusters"))
  let fat ← read g.fatOffset g.fatSize "the ESP's FAT"
  return ⟨partition, g, fat⟩

variable (volume : FatVolume)

def nextCluster (cluster : ℕ) : Except Failure ℕ := do
  let value ← unpack (volume.fatType.entryField cluster).2 volume.fat
    (volume.fatType.entryField cluster).1
  return volume.fatType.entryValue cluster value

/-- At most `fuel` rounds of the loop of `_chain`. -/
def chainLoop (what : String) : ℕ → List ℕ → ℕ → Except Failure (List ℕ)
  | 0, _, _ => .error .unfinished
  | fuel + 1, chain, cluster => do
    raiseIf (¬ (2 ≤ cluster ∧ cluster ≤ volume.lastCluster))
      (.invalidImage ("the cluster chain of " ++ what ++ " reaches invalid cluster " ++
        toString cluster))
    raiseIf (cluster ∈ chain)
      (.invalidImage ("the cluster chain of " ++ what ++ " loops at cluster " ++ toString cluster))
    let next ← volume.nextCluster cluster
    if volume.fatType.endOfChain ≤ next then return chain ++ [cluster]
    else chainLoop what fuel (chain ++ [cluster]) next

/-- A chain has at most as many clusters as the volume; one more round finds the loop. -/
def chain (first : ℕ) (what : String) : Except Failure (List ℕ) :=
  volume.chainLoop what (volume.geometry.clusters + 1) [] first

/-- `_read_chain` -/
def readChain (what : String) : List ℕ → Program Bytes
  | [] => return []
  | cluster :: rest => do
    let size := volume.geometry.clusterSize
    let data ← read (volume.geometry.dataOffset + (cluster - 2) * size) size what
    let more ← readChain what rest
    return data ++ more

end FatVolume

/-! ## Directories -/

structure Entry where
  name : Str
  shortName : Str
  attributes : ℕ
  cluster : ℕ
  size : ℕ
  deriving Repr, DecidableEq

def attributeVolumeLabel : ℕ := 0x08

def attributeDirectory : ℕ := 0x10

def attributeLongName : ℕ := 0x0F

def lastLongNameSlot : ℕ := 0x40

def maxLongNameSlots : ℕ := 20

def deletedMark : ℕ := 0xE5

def maxDirectoryBytes : ℕ := 65536 * directoryEntry

def Entry.isDirectory (entry : Entry) : Bool := entry.attributes.land attributeDirectory ≠ 0

def shortNameChecksum (rawName : Bytes) : ℕ :=
  rawName.foldl (fun checksum byte => (checksum % 2 * 2 ^ 7 + checksum / 2 + byte.toNat) % 2 ^ 8) 0

/-- `text.rstrip(b" ")` -/
def rstripSpace (text : Bytes) : Bytes := (text.reverse.dropWhile (· = 0x20)).reverse

section
variable (C : CaseMapping)

def shortName (raw : Bytes) : Except Failure Str := do
  let first ← byteAt raw 0
  let flags ← byteAt raw 12
  let base := decodeCp437
    (rstripSpace (if first = 0x05 then [0xE5] ++ slice raw 1 8 else slice raw 0 8))
  let extension := decodeCp437 (rstripSpace (slice raw 8 11))
  let base := if flags.land 0x08 ≠ 0 then C.lower base else base
  let extension := if flags.land 0x10 ≠ 0 then C.lower extension else extension
  return if extension ≠ [] then base ++ ['.'] ++ extension else base

/-- `[count | _LAST_LONG_NAME_SLOT, *range(count - 1, 0, -1)]` -/
def expectedSlots (count : ℕ) : List ℕ :=
  count.lor lastLongNameSlot :: ((List.range (count - 1)).map (· + 1)).reverse

/-- The UTF-16 units of a slot. -/
def slotUnits (slot : Bytes) : Bytes := slice slot 1 11 ++ slice slot 14 26 ++ slice slot 28 32

/-- `text.split("\0", 1)[0] or None` -/
def untilNul (text : Str) : Option Str :=
  let name := text.takeWhile (· ≠ Char.ofNat 0)
  if name = [] then none else some name

def longName (slots : List Bytes) (raw : Bytes) : Except Failure (Option Str) :=
  match slots with
  | [] => .ok none
  | slot :: _ => do
    let first ← byteAt slot 0
    let count := first - first.land lastLongNameSlot
    if ¬ (1 ≤ count ∧ count ≤ maxLongNameSlots) then return none
    else do
      let checksum := shortNameChecksum (slice raw 0 11)
      let numbers ← slots.mapM (byteAt · 0)
      let checksums ← slots.mapM (byteAt · 13)
      if numbers ≠ expectedSlots count ∨ ∃ c ∈ checksums, c ≠ checksum then return none
      else return untilNul (decodeUtf16Replace (slots.reverse.map slotUnits).flatten)

/-- `_add_slot` -/
def addSlot (slots : List Bytes) (raw : Bytes) : Except Failure (List Bytes) := do
  let first ← byteAt raw 0
  if first.land lastLongNameSlot ≠ 0 then return [raw]
  else if maxLongNameSlots ≤ slots.length then return []
  else return slots ++ [raw]

/-- The upper half of a record's cluster number, which only FAT32 has. -/
def highCluster (fat32 : Bool) (raw : Bytes) : Except Failure ℕ :=
  if fat32 then unpack 2 raw 20 else .ok 0

/-- The entry of a short record; `none` for a volume label, `.` and `..`. -/
def shortEntry (fat32 : Bool) (slots : List Bytes) (raw : Bytes) :
    Except Failure (Option Entry) := do
  let long ← longName slots raw
  let short ← shortName C raw
  let attributes ← byteAt raw 11
  if attributes.land attributeVolumeLabel ≠ 0 ∨ short = ['.'] ∨ short = ['.', '.'] then return none
  else do
    let high ← highCluster fat32 raw
    let low ← unpack 2 raw 26
    let size ← unpack 4 raw 28
    return some ⟨long.getD short, short, attributes, high * 2 ^ 16 + low, size⟩

/-- The loop of `_entries` over the records of a directory. -/
def entriesLoop (fat32 : Bool) : List Bytes → List Bytes → List Entry → Except Failure (List Entry)
  | [], _, entries => .ok entries
  | raw :: rest, slots, entries => do
    let first ← byteAt raw 0
    if first = 0 then return entries
    else if first = deletedMark then entriesLoop fat32 rest [] entries
    else do
      let attributes ← byteAt raw 11
      if attributes.land 0x3F = attributeLongName then do
        let slots ← addSlot slots raw
        entriesLoop fat32 rest slots entries
      else do
        let entry ← shortEntry C fat32 slots raw
        entriesLoop fat32 rest [] (entries ++ entry.toList)

/-- `[data[start : start + 32] for start in range(0, len(data) - 31, 32)]` -/
def records (data : Bytes) : List Bytes :=
  (List.range (data.length / directoryEntry)).map fun i =>
    slice data (i * directoryEntry) (i * directoryEntry + directoryEntry)

def entries (fat32 : Bool) (data : Bytes) : Except Failure (List Entry) :=
  entriesLoop C fat32 (records data) [] []

/-- `_WalkLimits` -/
structure WalkLimits where
  claimed : List ℕ
  remaining : ℤ

def WalkLimits.claim (limits : WalkLimits) (chain : List ℕ) (size : ℕ) (what : String) :
    Except Failure WalkLimits := do
  let shared := chain.filter (· ∈ limits.claimed)
  raiseIf (shared ≠ [])
    (.invalidImage (what ++ " shares cluster " ++ toString (shared.min?.getD 0) ++
      " with another directory, so the ESP is cross-linked"))
  raiseIf (limits.remaining - size < 0)
    (.invalidImage "the ESP's directories are larger than the ESP")
  return ⟨limits.claimed ++ chain, limits.remaining - size⟩

/-- `if limits: limits.claim(chain, size, what)` -/
def claimIf (limits : Option WalkLimits) (chain : List ℕ) (size : ℕ) (what : String) :
    Except Failure (Option WalkLimits) :=
  match limits with
  | none => .ok none
  | some limits => do
    let limits ← limits.claim chain size what
    return some limits

namespace FatVolume

variable (volume : FatVolume)

/-- The fixed root directory of FAT12 and FAT16. -/
def fixedRoot (what : String) (limits : Option WalkLimits) :
    Program (List Entry × Option WalkLimits) := do
  let limits ← ofExcept (claimIf limits [] volume.geometry.rootSize what)
  let data ← read volume.geometry.rootOffset volume.geometry.rootSize what
  let found ← ofExcept (entries C volume.geometry.fat32 data)
  return (found, limits)

/-- A directory in a cluster chain. -/
def chainedDirectory (cluster : ℕ) (what : String) (limits : Option WalkLimits) :
    Program (List Entry × Option WalkLimits) := do
  let chain ← ofExcept (volume.chain cluster what)
  let size := chain.length * volume.geometry.clusterSize
  failIf (maxDirectoryBytes < size) (.invalidImage (what ++ " has more than 65536 entries"))
  let limits ← ofExcept (claimIf limits chain size what)
  let data ← volume.readChain what chain
  let found ← ofExcept (entries C volume.geometry.fat32 data)
  return (found, limits)

def directory (cluster : Option ℕ) (what : String) (limits : Option WalkLimits) :
    Program (List Entry × Option WalkLimits) :=
  match cluster with
  | none =>
    if volume.geometry.fat32 then volume.chainedDirectory C volume.geometry.rootCluster what limits
    else volume.fixedRoot C what limits
  | some cluster => volume.chainedDirectory C cluster what limits

def readFile (entry : Entry) (what : String) : Program Bytes :=
  if entry.size = 0 then return []
  else do
    let chain ← ofExcept (volume.chain entry.cluster what)
    failIf (chain.length ≠ ceilDiv entry.size volume.geometry.clusterSize)
      (.invalidImage (what ++ " has " ++ toString entry.size ++ " bytes but a chain of " ++
        toString chain.length ++ " " ++ toString volume.geometry.clusterSize ++ "-byte clusters"))
    let data ← volume.readChain what chain
    return data.take entry.size

/-! ## Looking up and listing files -/

/-- `"/".join(components) or "the root directory"` -/
def parentName (components : List Str) : String :=
  if components = [] then "the root directory"
  else joinSlash (components.map String.ofList)

/-- One round of the loop of `lookup`. -/
def lookupStep (espPath : Str) (done : List Str) (entry : Option Entry) (component : Str) :
    Program Entry := do
  failIf (∃ e ∈ entry, ¬ e.isDirectory)
    (.espFileNotFound ("the ESP has no file " ++ String.ofList espPath ++ ": " ++
      String.ofList ((entry.map Entry.name).getD []) ++ " is a file"))
  let (found, _) ← volume.directory C (entry.map Entry.cluster) (parentName done) none
  match found.filter fun e => C.upper component ∈ [C.upper e.name, C.upper e.shortName] with
  | [] => raise (.espFileNotFound ("the ESP has no file " ++ String.ofList espPath))
  | first :: _ => return first

/-- The loop of `lookup` after its first round. -/
def lookupLoop (espPath : Str) : List Str → Entry → List Str → Program Entry
  | _, entry, [] => return entry
  | done, entry, component :: rest => do
    let entry ← volume.lookupStep C espPath done (some entry) component
    lookupLoop espPath (done ++ [component]) entry rest

def lookup (espPath : Str) : Program Entry :=
  match (espPath.splitOn '/').filter (· ≠ []) with
  | [] => raise (.espFileNotFound ("the ESP path '" ++ String.ofList espPath ++ "' names no file"))
  | component :: rest => do
    let entry ← volume.lookupStep C espPath [] none component
    volume.lookupLoop C espPath [component] entry rest

end FatVolume

/-- `EspFile` -/
structure EspFile where
  path : Str
  size : ℕ
  deriving Repr, DecidableEq

/-- The order of the tuples. -/
def EspFile.le (a b : EspFile) : Prop := a.path < b.path ∨ a.path = b.path ∧ a.size ≤ b.size

instance : DecidableRel EspFile.le := fun _ _ => inferInstanceAs (Decidable (_ ∨ _ ∧ _))

/-- The directories of a listing that are pushed onto `pending`, the last one on top. -/
def subdirectories (path : Str) (found : List Entry) : List (Str × Option ℕ) :=
  ((found.filter Entry.isDirectory).map fun e => (path ++ e.name ++ ['/'], some e.cluster)).reverse

/-- The regular files of a listing. -/
def regularFiles (path : Str) (found : List Entry) : List EspFile :=
  (found.filter fun e => !e.isDirectory).map fun e => ⟨path ++ e.name, e.size⟩

/-- `prefix.rstrip("/") or "the root directory"` -/
def directoryName (path : Str) : String :=
  let stripped := (path.reverse.dropWhile (· = '/')).reverse
  if stripped = [] then "the root directory" else String.ofList stripped

namespace FatVolume

variable (volume : FatVolume)

/-- At most `fuel` rounds of the loop of `walk`. -/
def walkLoop : ℕ → Option WalkLimits → List (Str × Option ℕ) → List EspFile →
    Program (List EspFile)
  | _, _, [], files => return files.insertionSort EspFile.le
  | 0, _, _ :: _, _ => raise .unfinished
  | fuel + 1, limits, (path, cluster) :: pending, files => do
    let (found, limits) ← volume.directory C cluster (directoryName path) limits
    walkLoop fuel limits (subdirectories path found ++ pending) (files ++ regularFiles path found)

/-- Every directory but the fixed root claims a cluster; one more round finds a shared one. -/
def walk : Program (List EspFile) :=
  volume.walkLoop C (volume.geometry.clusters + 2) (some ⟨[], volume.partition.size⟩)
    [([], none)] []

end FatVolume

/-! ## The entry points -/

/-- What `list_esp_files` does after it has found the partition. -/
def listFiles (esp : Partition) : Program (List EspFile) := do
  let volume ← FatVolume.init esp
  volume.walk C

def listEspFiles : Program (List EspFile) := do
  let esp ← findEsp
  listFiles C esp

/-- What `read_esp_file` does after it has found the partition. -/
def readPath (espPath : Str) (esp : Partition) : Program Bytes := do
  let volume ← FatVolume.init esp
  let entry ← volume.lookup C espPath
  failIf (entry.isDirectory = true)
    (.espFileNotFound ("the ESP path " ++ String.ofList espPath ++ " is a directory"))
  volume.readFile entry (String.ofList espPath)

def readEspFile (espPath : Str) : Program Bytes := do
  let esp ← findEsp
  readPath C espPath esp

end

end RulesMkosi.EspManifest
