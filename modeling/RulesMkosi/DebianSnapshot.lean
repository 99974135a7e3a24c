/-
  The staging action of a Debian snapshot (`mkosi/private/debian_snapshot.py`).

  The action reads the package records of the repository rule, reads the Packages
  indexes again, and checks that the indexes list every locked package as the lock
  does.
-/
import RulesMkosi.DebianIndex
import RulesMkosi.Lib.PosixPath
import Mathlib.Data.Finset.Dedup

namespace RulesMkosi.DebianSnapshot

open DebianControl
open Debian (getField)

/-- `_safe_package_path`, as a text -/
def safePackagePath (filename : String) : Except Exn String := do
  let relative := PosixPath.parse filename
  raiseIf (relative.isAbsolute = true ∨ ".." ∈ relative.parts ∨ relative.str ≠ filename ∨
      startsWith relative.str "pool/" = false)
    (.valueError ("unsafe package path: " ++ filename))
  return relative.str

/-- Name, version and architecture. -/
abbrev PackageKey := String × String × String

/-- What the lock says of a package. -/
structure LockedFile where
  filename : String
  size : ℕ
  digest : String
  localName : String
  deriving Repr, DecidableEq

/-- `"|".split` -/
def splitBar (record : String) : List String := (record.toList.splitOn '|').map String.ofList

/-- `int(size)` -/
def parseSize (size : Str) : Except Exn ℕ :=
  match toInt size with
  | some n => .ok n
  | none => .error (.valueError ("invalid literal for int() with base 10: " ++ String.ofList size))

/-- The loop body of `_locked_packages`; the table holds the file names and local names so far. -/
def addLocked (expected : Dict PackageKey LockedFile) (record : String) :
    Except Exn (Dict PackageKey LockedFile) :=
  match splitBar record with
  | [name, version, architecture, filename, size, digest, localName] => do
    raiseIf (isDigit size.toList = false) (.valueError "locked package size is invalid")
    let filename ← safePackagePath filename
    raiseIf ((expected.get (name, version, architecture)).isSome = true)
      (.valueError ("duplicate locked package: " ++ name ++ "|" ++ version ++ "|" ++ architecture))
    raiseIf (filename ∈ expected.map fun item => item.2.filename)
      (.valueError ("package path collision: " ++ filename))
    raiseIf (localName ∈ expected.map fun item => item.2.localName)
      (.valueError ("duplicate local package name: " ++ localName))
    let size ← parseSize size.toList
    return expected.set (name, version, architecture) ⟨filename, size, digest, localName⟩
  | _ => .error (.valueError "locked package record must have seven fields")

def lockedPackages (packageRecords : List String) : Except Exn (Dict PackageKey LockedFile) :=
  packageRecords.foldlM addLocked []

/-! ## The indexes -/

/-- File name, size and digest of a package in the indexes. -/
abbrev IndexRecord := String × ℕ × String

def paragraphKey (paragraph : Paragraph) : Option PackageKey :=
  match getField paragraph "Package", getField paragraph "Version",
    getField paragraph "Architecture" with
  | some name, some version, some architecture =>
    some (String.ofList name, String.ofList version, String.ofList architecture)
  | _, _, _ => none

/-- The file name, size and digest of a paragraph; all three are there and the size is a number. -/
def paragraphRecord (paragraph : Paragraph) : Except Exn IndexRecord :=
  match getField paragraph "Filename", getField paragraph "Size", getField paragraph "SHA256" with
  | some filename, some size, some digest => do
    raiseIf (filename = [] ∨ digest = [] ∨ isDigit size = false)
      (.valueError "incomplete package metadata")
    let size ← parseSize size
    return (String.ofList filename, size, String.ofList digest)
  | _, _, _ => .error (.valueError "incomplete package metadata")

section
variable (expected : Dict PackageKey LockedFile)

/-- The loop body of `_read_package_metadata`.  A key with a field that is absent is in no table. -/
def addParagraph (indexArchitecture : String) (actual : Dict PackageKey IndexRecord)
    (paragraph : Paragraph) : Except Exn (Dict PackageKey IndexRecord) := do
  let architecture := getField paragraph "Architecture"
  raiseIf (architecture ≠ some "amd64".toList ∧ architecture ≠ some "all".toList)
    (.valueError "unsupported package architecture")
  raiseIf (indexArchitecture = "all" ∧ architecture ≠ some "all".toList)
    (.valueError "binary-all index contains non-all package")
  let record ← paragraphRecord paragraph
  match paragraphKey paragraph with
  | some key => do
    raiseIf ((actual.get key).any (· ≠ record) = true)
      (.valueError ("conflicting duplicate package metadata: " ++ key.1))
    return if (expected.get key).isSome then actual.set key record else actual
  | none => return actual

/-- The paragraphs of a staged index, which are read one file after the other. -/
def addIndex (decodeUtf8 : Bytes → Option Str) (actual : Dict PackageKey IndexRecord)
    (stagedIndex : Bytes × String) : Except Exn (Dict PackageKey IndexRecord) :=
  match decodeUtf8 stagedIndex.1 with
  | some text => do
    let records ← paragraphs text
    records.foldlM (addParagraph expected stagedIndex.2) actual
  | none => .error (.unicodeError "'utf-8' codec can't decode")

def readPackageMetadata (decodeUtf8 : Bytes → Option Str) (indexes : List (Bytes × String)) :
    Except Exn (Dict PackageKey IndexRecord) :=
  indexes.foldlM (addIndex expected decodeUtf8) []

/-- The order of tuples. -/
def keyBefore (a b : PackageKey) : Prop :=
  a.1 < b.1 ∨ a.1 = b.1 ∧ (a.2.1 < b.2.1 ∨ a.2.1 = b.2.1 ∧ a.2.2 ≤ b.2.2)

instance : DecidableRel keyBefore := fun _ _ => inferInstanceAs (Decidable (_ ∨ _ ∧ (_ ∨ _ ∧ _)))

def checkPackage (actual : Dict PackageKey IndexRecord) (key : PackageKey) : Except Exn Unit :=
  raiseIf (actual.get key ≠ (expected.get key).map fun file => (file.filename, file.size, file.digest))
    (.valueError ("package metadata disagrees with lock: " ++ key.1))

def verifyPackageMetadata (decodeUtf8 : Bytes → Option Str) (indexes : List (Bytes × String)) :
    Except Exn Unit := do
  let actual ← readPackageMetadata expected decodeUtf8 indexes
  raiseIf (actual.keys.toFinset ≠ expected.keys.toFinset)
    (.valueError "locked packages do not match Packages metadata")
  (expected.keys.insertionSort keyBefore).forM (checkPackage expected actual)

end

end RulesMkosi.DebianSnapshot
