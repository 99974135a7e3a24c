/-
  PE/COFF images and their Authenticode signatures
  (`mkosi/private/secure_boot.py`).

  `parsePe` reads the headers of an image, `proveEquivalence` compares a signed
  image with the unsigned one that was requested, and `authenticodeStream` is
  the byte stream that `authenticode_hash` feeds to SHA-256.
-/
import RulesMkosi.Lib.Bytes
import Mathlib.Data.List.Sort

namespace RulesMkosi.SecureBoot

/-! ## PE headers -/

/-- `b"MZ"` -/
def mz : Bytes := [0x4D, 0x5A]

/-- `b"PE\0\0"` -/
def peSignature : Bytes := [0x50, 0x45, 0, 0]

/-- The values of `_pe_optional_header`. -/
structure OptionalHeader where
  optional : ℕ
  optionalSize : ℕ
  /-- the size of the fields before the data directories -/
  fixedSize : ℕ
  sectionCount : ℕ
  deriving Repr, DecidableEq

/-- The size of the fixed fields for an optional header magic. -/
def fixedSizeOf (magic : ℕ) : Option ℕ :=
  if magic = 0x20B then some 112 else if magic = 0x10B then some 96 else none

def peOptionalHeader (data : Bytes) : Except Exn OptionalHeader := do
  raiseIf (data.length < 64 ∨ data.take 2 ≠ mz) (.valueError "UKI is not a PE/COFF image")
  let pe ← unpackFrom 4 data 0x3C
  raiseIf (data.length < pe + 24 ∨ slice data pe (pe + 4) ≠ peSignature)
    (.valueError "invalid PE header bounds")
  let optional := pe + 24
  let sectionCount ← unpackFrom 2 data (pe + 6)
  let optionalSize ← unpackFrom 2 data (pe + 20)
  raiseIf (sectionCount = 0 ∨ 96 < sectionCount) (.valueError "invalid PE section count")
  raiseIf (data.length < optional + optionalSize)
    (.valueError "PE optional header is out of bounds")
  let magic ← unpackFrom 2 data optional
  match fixedSizeOf magic with
  | none => .error (.valueError "invalid PE optional header magic or size")
  | some fixedSize =>
    raiseIf (optionalSize < fixedSize) (.valueError "invalid PE optional header magic or size")
    return ⟨optional, optionalSize, fixedSize, sectionCount⟩

/-- The offset of the security (certificate table) data directory entry. -/
def securityDirectory (data : Bytes) (h : OptionalHeader) : Except Exn ℕ := do
  let directory := h.optional + h.fixedSize
  let directoryCount ← unpackFrom 4 data (h.optional + h.fixedSize - 4)
  raiseIf (directoryCount < 5) (.valueError "PE has fewer than five data directories")
  raiseIf (h.optional + h.optionalSize < directory + directoryCount * 8)
    (.valueError "PE security directory is unavailable")
  return directory + 32

/-- The section table offset, SizeOfHeaders and FileAlignment after validating them. -/
def headerLayout (data : Bytes) (h : OptionalHeader) : Except Exn (ℕ × ℕ × ℕ) := do
  let fileAlignment ← unpackFrom 4 data (h.optional + 36)
  let sizeHeaders ← unpackFrom 4 data (h.optional + 60)
  raiseIf (fileAlignment < 0x200 ∨ fileAlignment &&& (fileAlignment - 1) ≠ 0)
    (.valueError "invalid PE FileAlignment")
  let sectionTable := h.optional + h.optionalSize
  let sectionTableEnd := sectionTable + h.sectionCount * 40
  raiseIf (data.length < sectionTableEnd ∨ sizeHeaders < sectionTableEnd ∨
      data.length < sizeHeaders)
    (.valueError "invalid PE section table or SizeOfHeaders")
  raiseIf (sizeHeaders % fileAlignment ≠ 0) (.valueError "PE SizeOfHeaders is not file aligned")
  return (sectionTable, sizeHeaders, fileAlignment)

/-- The raw data range of the section at `index`, if it has raw data. -/
def sectionRange (data : Bytes) (sectionTable sizeHeaders fileAlignment index : ℕ) :
    Except Exn (Option (ℕ × ℕ)) := do
  let entry := sectionTable + index * 40
  let rawSize ← unpackFrom 4 data (entry + 16)
  let rawOffset ← unpackFrom 4 data (entry + 20)
  raiseIf (rawSize ≠ 0 ∧ (rawOffset < sizeHeaders ∨ rawOffset % fileAlignment ≠ 0 ∨
      data.length < rawOffset + rawSize))
    (.valueError "PE section raw data is out of bounds")
  return if rawSize = 0 then none else some (rawOffset, rawSize)

/-- Tuples compare lexicographically. -/
def rangeLe (a b : ℕ × ℕ) : Prop := a.1 < b.1 ∨ a.1 = b.1 ∧ a.2 ≤ b.2

instance : DecidableRel rangeLe := fun _ _ => inferInstanceAs (Decidable (_ ∨ _))

/-- No range starts before the end of its predecessor. -/
def Disjoint : List (ℕ × ℕ) → Prop
  | previous :: current :: rest =>
    previous.1 + previous.2 ≤ current.1 ∧ Disjoint (current :: rest)
  | _ => True

def decideDisjoint : ∀ l, Decidable (Disjoint l)
  | [] | [_] => isTrue trivial
  | _ :: b :: rest =>
    have := decideDisjoint (b :: rest)
    inferInstanceAs (Decidable (_ ∧ _))

instance : DecidablePred Disjoint := decideDisjoint

/-- The sorted, non-overlapping `(offset, size)` raw data ranges of all sections. -/
def sectionRanges (data : Bytes) (sectionTable sectionCount sizeHeaders fileAlignment : ℕ) :
    Except Exn (List (ℕ × ℕ)) := do
  let ranges ← (List.range sectionCount).mapM
    (sectionRange data sectionTable sizeHeaders fileAlignment)
  let sections := (ranges.filterMap id).insertionSort rangeLe
  raiseIf (¬ Disjoint sections) (.valueError "PE section raw data overlaps")
  return sections

def certificateTable (data : Bytes) (securityDirectory : ℕ) (signed : Bool) :
    Except Exn (ℕ × ℕ) := do
  let certificateOffset ← unpackFrom 4 data securityDirectory
  let certificateSize ← unpackFrom 4 data (securityDirectory + 4)
  raiseIf (signed ∧ (certificateOffset = 0 ∨ certificateOffset % 8 ≠ 0 ∨ certificateSize < 8))
    (.valueError "missing or unaligned Authenticode certificate table")
  raiseIf (signed ∧ certificateOffset + certificateSize ≠ data.length)
    (.valueError "certificate table bounds or trailing data are invalid")
  raiseIf (¬ signed ∧ (certificateOffset ≠ 0 ∨ certificateSize ≠ 0))
    (.valueError "requested UKI is already signed")
  return (certificateOffset, certificateSize)

/-- The dictionary that `parse_pe` returns. -/
structure Layout where
  certificateOffset : ℕ
  certificateSize : ℕ
  checksum : ℕ
  securityDirectory : ℕ
  sections : List (ℕ × ℕ)
  sizeHeaders : ℕ
  deriving Repr, DecidableEq

def parsePe (data : Bytes) (signed : Bool) : Except Exn Layout := do
  let h ← peOptionalHeader data
  let security ← securityDirectory data h
  let (sectionTable, sizeHeaders, fileAlignment) ← headerLayout data h
  let sections ← sectionRanges data sectionTable h.sectionCount sizeHeaders fileAlignment
  let (certificateOffset, certificateSize) ← certificateTable data security signed
  return ⟨certificateOffset, certificateSize, h.optional + 64, security, sections, sizeHeaders⟩

/-- Whether data has PE/COFF headers, signed or not. -/
def isPe (data : Bytes) : Bool :=
  match peOptionalHeader data with
  | .ok _ => true
  | .error _ => false

/-! ## DER -/

def maxDerBytes : ℕ := 16 * 1024 * 1024

def maxDerDepth : ℕ := 32

structure Der where
  tag : UInt8
  value : Bytes
  depth : ℕ
  deriving Repr, DecidableEq

/-- `n.bit_length()` -/
def bitLength (n : ℕ) : ℕ := if n = 0 then 0 else n.log2 + 1

/-- The length that starts at `offset + 1`, and the offset after it. -/
def derLength (data : Bytes) (offset : ℕ) : Except Exn (ℕ × ℕ) := do
  let length := (data.getD (offset + 1) 0).toNat
  let cursor := offset + 2
  if length &&& 0x80 = 0 then
    return (length, cursor)
  else
    let count := length &&& 0x7F
    raiseIf (count = 0) (.valueError "indefinite DER length is forbidden")
    raiseIf (4 < count ∨ data.length < cursor + count) (.valueError "invalid DER length")
    raiseIf (data.getD cursor 0 = 0) (.valueError "nonminimal DER length")
    let length := beNat (slice data cursor (cursor + count))
    raiseIf (length < 128 ∨ count ≠ (bitLength length + 7) / 8)
      (.valueError "nonminimal DER long-form length")
    return (length, cursor + count)

def derRead (data : Bytes) (offset depth : ℕ) : Except Exn (Der × ℕ) := do
  raiseIf (maxDerBytes < data.length ∨ maxDerDepth < depth)
    (.valueError "DER resource limit exceeded")
  raiseIf (data.length < offset + 2) (.valueError "truncated DER object")
  let (length, cursor) ← derLength data offset
  raiseIf (data.length < cursor + length) (.valueError "DER object is out of bounds")
  return (⟨data.getD offset 0, slice data cursor (cursor + length), depth⟩, cursor + length)

/-! ## Authenticode -/

def derObject (payload : Bytes) : Except Exn Bytes := do
  let (item, last) ← derRead payload 0 0
  raiseIf (item.tag ≠ 0x30) (.valueError "Authenticode payload is not DER SignedData")
  raiseIf (¬ AllZero (payload.drop last))
    (.valueError "invalid Authenticode DER bounds or padding")
  return payload.take last

/-- `(length + 7) & ~7` -/
def align8 (length : ℕ) : ℕ := (length + 7) / 8 * 8

/-- The certificate at `cursor`, and the offset after its padding. -/
def winCertificate (signedData : Bytes) (cursor last : ℕ) : Except Exn (Bytes × ℕ) := do
  raiseIf (last < cursor + 8) (.valueError "truncated WIN_CERTIFICATE header")
  let length ← unpackFrom 4 signedData cursor
  let revision ← unpackFrom 2 signedData (cursor + 4)
  let certificateType ← unpackFrom 2 signedData (cursor + 6)
  raiseIf (length < 8 ∨ last < cursor + length) (.valueError "WIN_CERTIFICATE is out of bounds")
  raiseIf (revision ≠ 0x200 ∨ certificateType ≠ 2)
    (.valueError "unsupported WIN_CERTIFICATE structure")
  let certificate ← derObject (slice signedData (cursor + 8) (cursor + length))
  raiseIf (last < cursor + align8 length ∨
      ¬ AllZero (slice signedData (cursor + length) (cursor + align8 length)))
    (.valueError "invalid WIN_CERTIFICATE padding")
  return (certificate, cursor + align8 length)

/-- The loop of `authenticode_payload`: the certificates and the cursor after them.  Every
    certificate takes at least eight bytes, so `fuel` bytes last for at most `fuel` iterations. -/
def certificates (signedData : Bytes) (last : ℕ) : (fuel cursor : ℕ) → Except Exn (List Bytes × ℕ)
  | 0, cursor => .ok ([], cursor)
  | fuel + 1, cursor =>
    if cursor < last then do
      let (certificate, next) ← winCertificate signedData cursor last
      let (rest, cursor) ← certificates signedData last fuel next
      return (certificate :: rest, cursor)
    else .ok ([], cursor)

def authenticodePayload (signedData : Bytes) (certificateOffset certificateSize : ℕ) :
    Except Exn Bytes := do
  let last := certificateOffset + certificateSize
  let (found, cursor) ← certificates signedData last certificateSize certificateOffset
  raiseIf (cursor ≠ last ∨ found.length ≠ 1)
    (.valueError "ambiguous or duplicate Authenticode certificate table")
  return found.headD []

def proveEquivalence (unsignedData signedData : Bytes) : Except Exn Bytes := do
  let unsigned ← parsePe unsignedData false
  let signed ← parsePe signedData true
  raiseIf ((unsigned.checksum, unsigned.securityDirectory) ≠
      (signed.checksum, signed.securityDirectory))
    (.valueError "PE layouts differ")
  raiseIf (signed.certificateOffset < unsignedData.length)
    (.valueError "Authenticode table overlaps requested UKI")
  let restore (signedPrefix : Bytes) (offset size : ℕ) :=
    splice signedPrefix offset (offset + size) (slice unsignedData offset (offset + size))
  let signedPrefix := restore (restore (signedData.take unsignedData.length) unsigned.checksum 4)
    unsigned.securityDirectory 8
  raiseIf (signedPrefix ≠ unsignedData)
    (.valueError "signed UKI differs from requested unsigned UKI")
  raiseIf (¬ AllZero (slice signedData unsignedData.length signed.certificateOffset))
    (.valueError "nonzero data inserted before Authenticode table")
  authenticodePayload signedData signed.certificateOffset signed.certificateSize

/-- The section loop of `authenticode_hash`: the hashed bytes and the end of the last section. -/
def sectionStream (data : Bytes) : List (ℕ × ℕ) → ℕ → Except Exn (Bytes × ℕ)
  | [], last => .ok ([], last)
  | (offset, size) :: sections, last => do
    raiseIf (offset < last) (.valueError "PE section order overlaps hashed content")
    let (stream, last) ← sectionStream data sections (offset + size)
    return (slice data offset (offset + size) ++ stream, last)

/-- The bytes that `authenticode_hash` feeds to SHA-256, in order. -/
def authenticodeStream (data : Bytes) (pe : Layout) : Except Exn Bytes := do
  let (sections, last) ← sectionStream data pe.sections pe.sizeHeaders
  let certificateOffset := if pe.certificateOffset = 0 then data.length else pe.certificateOffset
  raiseIf (certificateOffset < last) (.valueError "certificate table overlaps PE content")
  return data.take pe.checksum ++ slice data (pe.checksum + 4) pe.securityDirectory ++
    slice data (pe.securityDirectory + 8) pe.sizeHeaders ++ sections ++
    slice data last certificateOffset

/-! ## The selection of a signed binary -/

/-- The functions under `verify_embedded_digest` that read no PE headers. -/
structure Digests where
  sha256 : Bytes → Bytes
  /-- `authenticode_facts`: the image digest in a payload -/
  authenticodeFacts : Bytes → Except Exn Bytes

section Selection
variable (D : Digests)

def verifyEmbeddedDigest (unsignedData signedData : Bytes) : Except Exn Bytes := do
  let payload ← proveEquivalence unsignedData signedData
  let embeddedDigest ← D.authenticodeFacts payload
  let pe ← parsePe signedData true
  let stream ← authenticodeStream signedData pe
  raiseIf (embeddedDigest ≠ D.sha256 stream)
    (.valueError "embedded Authenticode digest does not match imported PE")
  return payload

def noneSelected : List String → Exn
  | [message] => .valueError message
  | errors => .valueError ("none of the " ++ toString errors.length ++
      " signed binaries is the requested binary: [" ++
      ", ".intercalate (errors.map fun message => "'" ++ message ++ "'") ++ "]")

/-- The loop of `_select_signed` over the candidates and their data; `errors` are the messages
    of the candidates before. -/
def selectLoop (unsignedData : Bytes) : List (String × Bytes) → List String →
    Except Exn (String × Bytes)
  | [], errors => .error (noneSelected errors)
  | (candidate, signedData) :: rest, errors =>
    match verifyEmbeddedDigest D unsignedData signedData with
    | .ok payload => .ok (candidate, payload)
    | .error (.valueError message) | .error (.unicodeError message) =>
      selectLoop unsignedData rest (errors ++ [message])
    | .error e => .error e

def selectSigned (unsignedData : Bytes) (candidates : List (String × Bytes)) :
    Except Exn (String × Bytes) :=
  selectLoop D unsignedData candidates []

end Selection

/-- How `report_errors` ends. -/
inductive Report where
  | returned
  | exit (message : String)
  /-- an exception that is not caught -/
  | raised (e : Exn)
  deriving Repr, DecidableEq

def reportErrors : Except Exn Unit → Report
  | .ok () => .returned
  | .error (.valueError message) | .error (.unicodeError message) | .error (.osError message) =>
    .exit ("SECURE_BOOT_INVALID: " ++ message)
  | .error (.keyError key) => .exit ("SECURE_BOOT_INVALID: '" ++ key ++ "'")
  | .error e => .raised e

end RulesMkosi.SecureBoot
