/-
  Update payloads (`mkosi/private/sysupdate.py`, `image_version.py`).

  `payload` copies the covered parts of the root and verity images and the UKI
  into an output directory and lists their digests.  The directory is a
  dictionary from paths below it to file contents; JSON inputs are given as the
  values that they decode to.
-/
import RulesMkosi.Lib.Sink
import RulesMkosi.PartitionMetadata
import RulesMkosi.VerityMetadata

namespace RulesMkosi.Sysupdate

open PartitionMetadata (Partition rootX86_64 rootX86_64Verity)

/-- The library functions and the operating system under the module. -/
structure Platform where
  /-- `repr` of a string -/
  repr : Str → Str
  /-- `data.decode("utf-8")`; `none` where it raises -/
  decodeUtf8 : Bytes → Option Str
  /-- `hashlib.sha256` -/
  sha256 : Bytes → Bytes
  /-- `lzma.LZMACompressor` with the module's settings -/
  xz : Compressor
  /-- whether the operating system creates a file of this path in the output directory -/
  creatable : Str → Bool

inductive Compression where
  | none
  | xz
  deriving Repr, DecidableEq

/-- `COMPRESSION_SUFFIXES` -/
def Compression.suffix : Compression → Str
  | .none => []
  | .xz => ".xz".toList

structure File where
  path : Str
  content : Bytes

/-- `--image-version` or `--image-version-file` -/
inductive VersionArgument where
  | version (value : Str)
  | file (source : File)

/-- The arguments of the command. -/
structure Args where
  imageId : Str
  imageVersion : VersionArgument
  rootHash : File
  /-- the partitions of the partition metadata -/
  partitions : List Partition
  rootImage : File
  verityImage : File
  verityMetadata : VerityMetadata.Metadata
  uki : File
  signedUki : Option File
  /-- the `unsigned_sha256` of the signing request, if the request has one -/
  signingRequest : Option (Option Str)
  compression : Compression

/-! ## File names -/

def rootName (imageId version uuid : Str) : Str :=
  imageId ++ "_".toList ++ version ++ ".root.".toList ++ uuid ++ ".raw".toList

def verityName (imageId version uuid : Str) : Str :=
  imageId ++ "_".toList ++ version ++ ".root-verity.".toList ++ uuid ++ ".raw".toList

def ukiName (imageId version : Str) : Str := imageId ++ "_".toList ++ version ++ ".efi".toList

def sumsName : Str := "SHA256SUMS".toList

/-! ## The image version -/

/-- `VERSION_CHARACTERS` -/
def isVersionCharacter (c : Char) : Bool :=
  ('a' ≤ c ∧ c ≤ 'z') ∨ ('A' ≤ c ∧ c ≤ 'Z') ∨ ('0' ≤ c ∧ c ≤ '9') ∨ c = '.'

def gptPartitionNameMax : ℕ := 36

/-- `len(text.encode("utf-16-le")) // 2` -/
def utf16Length (text : Str) : ℕ := (text.map fun c => if c.toNat < 0x10000 then 1 else 2).sum

/-- `content.removesuffix("\n")` -/
def removeNewline (content : Str) : Str :=
  if content.getLast? = some '\n' then content.dropLast else content

section
variable (P : Platform)

def invalidVersion (path : Str) (error : Str) : Exn :=
  .valueError (String.ofList ("invalid image_version_file ".toList ++ path ++ ": ".toList ++ error))

def readImageVersion (source : File) (imageId : Str) : Except Exn Str :=
  match P.decodeUtf8 source.content with
  | none => .error (invalidVersion source.path "'utf-8' codec can't decode".toList)
  | some content => do
    let version := removeNewline content
    raiseIf (version = [] ∨ ¬ version.all isVersionCharacter)
      (invalidVersion source.path
        ("image_version must be non-empty and use only letters, digits and '.': ".toList ++
          P.repr version))
    let label := imageId ++ "_".toList ++ version ++ "_verity".toList
    raiseIf (gptPartitionNameMax < utf16Length label)
      (invalidVersion source.path
        ("A/B verity partition label ".toList ++ P.repr label ++ " is ".toList ++
          (toString (utf16Length label)).toList ++
          (" characters, but GPT partition names are limited to 36; shorten image_id or " ++
            "image_version so that image_id + '_' + image_version + '_verity' fits").toList))
    return version

def imageVersion (args : Args) : Except Exn Str :=
  match args.imageVersion with
  | .version value => .ok value
  | .file source => readImageVersion P source args.imageId

/-! ## Checks -/

/-- The UKI to ship, signed on request of the image's own UKI. -/
def releaseUki (args : Args) : Except Exn File :=
  match args.signedUki, args.signingRequest with
  | none, none => .ok args.uki
  | some signed, some (some requested) => do
    let actual := hex (P.sha256 args.uki.content)
    raiseIf (requested ≠ actual)
      (.valueError (String.ofList ("signed UKI was requested for unsigned UKI ".toList ++ requested ++
        " but the image's UKI is ".toList ++ actual)))
    return signed
  | some _, some none => .error (.keyError "unsigned_sha256")
  | _, _ => .error (.valueError "--signed-uki and --signing-request must be given together")

/-- `Path.read_text` with `encoding="ascii"`; line ends become `"\n"`. -/
def universalNewlines : Str → Str
  | '\r' :: '\n' :: rest => '\n' :: universalNewlines rest
  | '\r' :: rest => '\n' :: universalNewlines rest
  | c :: rest => c :: universalNewlines rest
  | [] => []

def readRootHash (file : File) : Except Exn Str := do
  let text ← decodeAscii file.content
  return (strip (universalNewlines text)).map Char.toLower

/-- The value of a hex digit. -/
def hexValue (c : Char) : Option ℕ :=
  if '0' ≤ c ∧ c ≤ '9' then some (c.toNat - '0'.toNat)
  else if 'a' ≤ c ∧ c ≤ 'f' then some (c.toNat - 'a'.toNat + 10)
  else if 'A' ≤ c ∧ c ≤ 'F' then some (c.toNat - 'A'.toNat + 10)
  else none

/-- `c` is ASCII white space, which `bytes.fromhex` skips between bytes. -/
def isAsciiSpace (c : Char) : Bool := (0x09 ≤ c.toNat ∧ c.toNat ≤ 0x0D) ∨ c = ' '

def nonHex : Exn := .valueError "non-hexadecimal number found in fromhex() arg"

/-- `bytes.fromhex(text)` -/
def fromHex : Str → Except Exn Bytes
  | [] => .ok []
  | [c] => if isAsciiSpace c then .ok [] else .error nonHex
  | c :: d :: rest =>
    if isAsciiSpace c then fromHex (d :: rest)
    else
      match hexValue c, hexValue d with
      | some high, some low => do
        let data ← fromHex rest
        return UInt8.ofNat (16 * high + low) :: data
      | _, _ => .error nonHex

/-- `str(uuid.UUID(bytes=data))` -/
def uuidText (data : Bytes) : Str :=
  hex (slice data 0 4) ++ ['-'] ++ hex (slice data 4 6) ++ ['-'] ++ hex (slice data 6 8) ++ ['-'] ++
    hex (slice data 8 10) ++ ['-'] ++ hex (slice data 10 16)

def verityPartitionUuids (rootHash : Str) : Except Exn (Str × Str) := do
  let digest ← fromHex rootHash
  raiseIf (digest.length ≠ 32) (.valueError "root hash must be a SHA-256 digest")
  return (uuidText (digest.take 16), uuidText (digest.drop 16))

def populated (partitions : List Partition) (typeGuid label : Str) : Except Exn Partition :=
  match partitions.filter fun p => p.typeGuid = typeGuid ∧ p.label = label with
  | [partition] => .ok partition
  | _ => .error (.valueError (String.ofList ("expected one partition labelled ".toList ++ P.repr label)))

/-- One round of the loop of `_check_slot_uuids`. -/
def checkSlotUuid (partitions : List Partition) (typeGuid label expected : Str) :
    Except Exn Unit := do
  let partition ← populated P partitions typeGuid label
  raiseIf (partition.uuid ≠ some expected)
    (.valueError (String.ofList ("partition ".toList ++ P.repr label ++ " UUID ".toList ++
      partition.uuid.getD "None".toList ++ " does not match root-hash-derived UUID ".toList ++
      expected)))

def checkSlotUuids (partitions : List Partition) (slot rootUuid verityUuid : Str) :
    Except Exn Unit := do
  checkSlotUuid P partitions rootX86_64 slot rootUuid
  checkSlotUuid P partitions rootX86_64Verity (slot ++ "_verity".toList) verityUuid

/-! ## Copies -/

def chunkBytes : ℕ := 1024 * 1024

/-- The loop of `_chunks`: the chunks and the bytes that are missing at the end.  Each round
    reads at least one byte, so `remaining` rounds are enough. -/
def chunksLoop : ℕ → Bytes → ℕ → List Bytes × ℕ
  | 0, _, remaining => ([], remaining)
  | rounds + 1, source, remaining =>
    let chunk := source.take (min chunkBytes remaining)
    if remaining = 0 ∨ chunk = [] then ([], remaining)
    else
      let (rest, missing) := chunksLoop rounds (source.drop chunk.length) (remaining - chunk.length)
      (chunk :: rest, missing)

def chunks (source : File) (size : Option ℕ) : List Bytes × ℕ :=
  let remaining := size.getD source.content.length
  chunksLoop remaining source.content remaining

/-- The loop body of `_write_sparse`. -/
def writeChunk (destination : Sink) (chunk : Bytes) : Sink :=
  if chunk = (zeros chunkBytes).take chunk.length then destination.seek chunk.length
  else destination.write chunk

/-- The file that a writer leaves and what it yields. -/
def writeSparse (chunks : List Bytes) (destination : Sink) : Sink × List Bytes :=
  ((chunks.foldl writeChunk destination).truncate, chunks)

def writeXz (chunks : List Bytes) (destination : Sink) : Sink × List Bytes :=
  let compressed := P.xz.outputs P.xz.new chunks
  (compressed.foldl Sink.write destination, compressed)

/-- `_WRITERS` -/
def write : Compression → List Bytes → Sink → Sink × List Bytes
  | .none => writeSparse
  | .xz => writeXz P

/-- A file of the payload: its name, source, size and compression. -/
structure Item where
  name : Str
  source : File
  size : Option ℕ
  compression : Compression

/-- `open(path, "xb")` -/
def checkNew (files : Dict Str Bytes) (name : Str) : Except Exn Unit := do
  raiseIf ((files.get name).isSome = true)
    (.osError (String.ofList ("File exists: ".toList ++ name)))
  raiseIf (P.creatable name = false)
    (.osError (String.ofList ("cannot create ".toList ++ name)))

/-- `_copy`: the directory after it and the digest. -/
def copy (files : Dict Str Bytes) (item : Item) : Except Exn (Dict Str Bytes × Str) := do
  checkNew P files item.name
  let (parts, missing) := chunks item.source item.size
  raiseIf (missing ≠ 0)
    (.valueError (String.ofList (item.source.path ++ " is shorter than its dm-verity geometry".toList)))
  let (file, written) := write P item.compression parts Sink.new
  return (files.set item.name file.content, hex (P.sha256 written.flatten))

/-! ## The payload -/

def verityExtents (metadata : VerityMetadata.Metadata) : ℕ × ℕ :=
  (metadata.dataBlocks * metadata.dataBlockSize, metadata.treeOffset + metadata.treeSize)

/-- What `payload` is about to copy. -/
def payloadItems (args : Args) : Except Exn (List Item) := do
  let version ← imageVersion P args
  let uki ← releaseUki P args
  let rootHash ← readRootHash args.rootHash
  let (rootUuid, verityUuid) ← verityPartitionUuids rootHash
  checkSlotUuids P args.partitions (args.imageId ++ "_".toList ++ version) rootUuid verityUuid
  let (rootSize, veritySize) := verityExtents args.verityMetadata
  let suffix := args.compression.suffix
  return [
    ⟨rootName args.imageId version rootUuid ++ suffix, args.rootImage, some rootSize,
      args.compression⟩,
    ⟨verityName args.imageId version verityUuid ++ suffix, args.verityImage, some veritySize,
      args.compression⟩,
    ⟨ukiName args.imageId version, uki, none, .none⟩]

/-- One item of the dictionary comprehension: the directory and the digests so far. -/
def copyItem (state : Dict Str Bytes × Dict Str Str) (item : Item) :
    Except Exn (Dict Str Bytes × Dict Str Str) := do
  let (files, digest) ← copy P state.1 item
  return (files, state.2.set item.name digest)

/-- `text.encode("ascii")` -/
def encodeAscii (text : Str) : Except Exn Bytes := do
  raiseIf (text.any (0x80 ≤ ·.toNat)) (.unicodeError "'ascii' codec can't encode character")
  return text.map fun c => UInt8.ofNat c.toNat

def sumsLine (digest name : Str) : Str := digest ++ "  ".toList ++ name ++ "\n".toList

def lookupLine (digests : Dict Str Str) (name : Str) : Except Exn Str :=
  match digests.get name with
  | some digest => .ok (sumsLine digest name)
  | none => .error (.keyError (String.ofList name))

/-- The text of `SHA256SUMS`. -/
def sums (digests : Dict Str Str) : Except Exn Bytes := do
  let lines ← (digests.keys.insertionSort (· ≤ ·)).mapM (lookupLine digests)
  encodeAscii lines.flatten

/-- The output directory after the run, from its files before. -/
def payload (args : Args) (files : Dict Str Bytes) : Except Exn (Dict Str Bytes) := do
  let items ← payloadItems P args
  let (files, digests) ← items.foldlM (copyItem P) (files, [])
  let text ← sums digests
  raiseIf (P.creatable sumsName = false) (.osError "cannot write SHA256SUMS")
  return files.set sumsName text

end

end RulesMkosi.Sysupdate
