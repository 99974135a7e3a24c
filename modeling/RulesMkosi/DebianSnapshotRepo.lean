/-
  The repository rule of a Debian snapshot (`mkosi/private/debian_snapshot_repo.bzl`).

  The rule decodes a lock and validates it with checks of its own before it downloads
  anything.  It then writes every locked package as a record of seven fields for the
  staging action.
-/
import RulesMkosi.Lib.Json
import RulesMkosi.Lib.PosixPath
import RulesMkosi.Lib.Result
import RulesMkosi.Lib.Text
import Mathlib.Data.List.Sort
import Mathlib.Data.Finset.Card

namespace RulesMkosi.DebianSnapshotRepo

/-- How the evaluation of the rule ends early. -/
inductive RuleError where
  | fail (message : String)
  | evalError (message : String)
  deriving Repr, DecidableEq

abbrev Fields := Dict String Json

/-! ## Values -/

/-- `value.get(key, default)` of a text.  A value of another type fails here; the rule fails where it
    uses the value. -/
def getText (fields : Fields) (key default : String) : Except RuleError String :=
  match Dict.get fields key with
  | none => .ok default
  | some (.string value) => .ok value
  | some _ => .error (.evalError (key ++ " is not a string"))

def asObject : Json → Except RuleError Fields
  | .object fields => .ok fields
  | _ => .error (.evalError "the value has no field or method 'get'")

/-- `value.strip(characters)` -/
def stripChars (characters : String) (value : Str) : Str :=
  ((value.dropWhile (· ∈ characters.toList)).reverse.dropWhile (· ∈ characters.toList)).reverse

/-- `value.isdigit()`: the digits of Starlark are those of ASCII. -/
def isStarlarkDigit (value : String) : Bool :=
  value.toList ≠ [] ∧ value.toList.all fun c => '0' ≤ c ∧ c ≤ '9'

def isSha256 (value : String) : Bool :=
  value.length = 64 ∧ stripChars "0123456789abcdef" value.toList = []

def isIdentifier (value : String) : Bool :=
  value ≠ "" ∧ value.toList.head? ≠ some '-' ∧
    stripChars "abcdefghijklmnopqrstuvwxyz0123456789-" value.toList = []

/-! ## The repository -/

def indexArchitectures : List String := ["amd64", "all"]

def indexName (component architecture : String) : String :=
  (if component = "main" then "" else component ++ "_") ++
    if architecture = "amd64" then "packages_xz" else "packages_all_xz"

def validateSnapshot (repository : Fields) : Except RuleError (String × String) := do
  let snapshotUrl ← getText repository "snapshot_url" ""
  let snapshot ← getText repository "snapshot" ""
  raiseIf (snapshot = "" ∨ snapshot.length ≠ 16 ∨ snapshot.toList.getLast? ≠ some 'Z' ∨
      'T' ∉ snapshot.toList)
    (.fail "Debian snapshot must be an immutable UTC timestamp")
  raiseIf (startsWith snapshotUrl "https://" = false ∨ endsWith snapshotUrl ("/" ++ snapshot) = false)
    (.fail "Debian snapshot URL must end with its immutable snapshot identifier")
  return (snapshot, snapshotUrl)

def validateRelease (repository : Fields) : Except RuleError (String × String) := do
  let distribution ← getText repository "distribution" "debian"
  raiseIf (distribution ≠ "debian") (.fail "Debian lock distribution must be debian")
  let architecture ← getText repository "architecture" "amd64"
  raiseIf (architecture ≠ "amd64") (.fail "Debian lock architecture must be amd64")
  let codename ← getText repository "codename" "trixie"
  raiseIf (isIdentifier codename = false) (.fail ("Debian lock codename is invalid: " ++ codename))
  let release ← getText repository "release" "13"
  raiseIf (isStarlarkDigit release = false) (.fail "Debian lock release must be numeric")
  return (codename, release)

section
-- `str(value)` of a value that is neither a text nor an integer
variable (str : Json → String)

/-- `"%s" % value` -/
def formatValue : Json → String
  | .string value => value
  | .int value => toString value
  | value => str value

def checkComponent (component : Json) : Except RuleError Unit :=
  raiseIf (component.text?.any isIdentifier = false)
    (.fail ("Debian lock component is invalid: " ++ formatValue str component))

/-- The locked components, starting with `main`. -/
def validateComponents (repository : Fields) : Except RuleError (List String) :=
  match (Dict.get repository "components").getD (.list [.string "main"]) with
  | .list items => do
    let components := items.filterMap Json.text?
    raiseIf ("main" ∉ components) (.fail "Debian lock components must include main")
    items.forM (checkComponent str)
    raiseIf (components.toFinset.card ≠ components.length)
      (.fail "Debian lock components must be unique")
    return "main" :: components.filter (· ≠ "main")
  | _ => .error (.fail "Debian lock components must include main")

end

/-! ## Repository metadata -/

/-- The path, component and architecture of a metadata entry. -/
structure Expected where
  path : String
  component : Option String
  architecture : Option String
  deriving Repr, DecidableEq

def expectedIndex (codename : String) (expected : Dict String Expected)
    (index : String × String) : Dict String Expected :=
  expected.set (indexName index.1 index.2)
    ⟨"dists/" ++ codename ++ "/" ++ index.1 ++ "/binary-" ++ index.2 ++ "/Packages.xz",
      some index.1, some index.2⟩

def indexesOf (components : List String) : List (String × String) :=
  components.flatMap fun component =>
    indexArchitectures.map fun architecture => (component, architecture)

def expectedMetadata (codename : String) (components : List String) : Dict String Expected :=
  (indexesOf components).foldl (expectedIndex codename)
    [("inrelease", ⟨"dists/" ++ codename ++ "/InRelease", none, none⟩),
      ("release", ⟨"dists/" ++ codename ++ "/Release", none, none⟩),
      ("release_gpg", ⟨"dists/" ++ codename ++ "/Release.gpg", none, none⟩)]

/-- `fields.get(key, value) == value`, for a text or `None` -/
def agrees (fields : Fields) (key : String) (value : Option String) : Bool :=
  match Dict.get fields key, value with
  | none, _ => true
  | some (.string text), some value => text = value
  | some .null, none => true
  | some _, _ => false

def validateMetadataEntry (entry : Fields) (expected : Dict String Expected)
    (snapshotUrl : String) : Except RuleError Unit := do
  let name ← getText entry "name" ""
  let path ← getText entry "path" ""
  match expected.get name with
  | none => .error (.fail ("unexpected Debian repository metadata: " ++ name))
  | some required => do
    raiseIf (path = "" ∨ startsWith path "/" = true ∨ ".." ∈ splitSlash path)
      (.fail ("unsafe Debian repository metadata path: " ++ path))
    raiseIf (path ≠ required.path)
      (.fail ("Debian repository metadata " ++ name ++ " must use path " ++ required.path))
    raiseIf (agrees entry "component" required.component = false ∨
        agrees entry "architecture" required.architecture = false)
      (.fail ("Debian repository metadata " ++ name ++
        " has an inconsistent component or architecture"))
    let url ← getText entry "url" ""
    raiseIf (url ≠ snapshotUrl ++ "/" ++ path)
      (.fail ("Debian repository metadata URL is outside the pinned snapshot: " ++ url))
    let sha256 ← getText entry "sha256" ""
    raiseIf (isSha256 sha256 = false)
      (.fail ("Debian repository metadata digest is not SHA-256: " ++ path))

/-- One round of the loop over the entries; the state holds the names so far. -/
def validateEntry (expected : Dict String Expected) (snapshotUrl : String) (names : List String)
    (entry : Json) : Except RuleError (List String) := do
  let entry ← asObject entry
  let name ← getText entry "name" ""
  raiseIf (name = "" ∨ name ∈ names) (.fail "Debian repository metadata names must be unique")
  validateMetadataEntry entry expected snapshotUrl
  return names ++ [name]

/-- `fields.get(key, [])` -/
def getList (fields : Fields) (key : String) : Except RuleError (List Json) :=
  match Dict.get fields key with
  | none => .ok []
  | some (.list items) => .ok items
  | some _ => .error (.evalError (key ++ " is not a list"))

def validateMetadata (repository : Fields) (expected : Dict String Expected)
    (snapshotUrl : String) : Except RuleError (List Json) := do
  let metadata ← getList repository "metadata"
  raiseIf (metadata.isEmpty = true) (.fail "Debian lock has no repository metadata")
  let names ← metadata.foldlM (validateEntry expected snapshotUrl) []
  raiseIf (names.toFinset ≠ expected.keys.toFinset)
    (.fail "Debian repository metadata must pin all required indexes and signatures")
  return metadata

/-! ## Packages -/

/-- `type(size) == type(0) and size >= 0` -/
def isSize : Option Json → Bool
  | some (.int size) => 0 ≤ size
  | _ => false

def validatePackageFile (package : Fields) (snapshotUrl : String) : Except RuleError Unit := do
  let filename ← getText package "filename" ""
  let parts := splitSlash filename
  raiseIf (startsWith filename "pool/" = false ∨ ".." ∈ parts ∨ "." ∈ parts ∨ "" ∈ parts)
    (.fail ("unsafe Debian package filename: " ++ filename))
  raiseIf (endsWith filename ".deb" = false)
    (.fail ("Debian package filename is not a .deb: " ++ filename))
  raiseIf (((Dict.get package "urls").getD (.list [])).texts? ≠ some [snapshotUrl ++ "/" ++ filename])
    (.fail ("Debian package URL does not match filename: " ++ filename))
  let sha256 ← getText package "sha256" ""
  raiseIf (isSize (Dict.get package "size") = false ∨ isSha256 sha256 = false)
    (.fail ("Debian package lock has invalid size or digest: " ++ filename))

/-- The identities and the lock keys of the packages so far. -/
structure Seen where
  packageKeys : List (String × String × String)
  lockKeys : List String

def validatePackage (snapshotUrl : String) (components : List String) (seen : Seen)
    (package : Json) : Except RuleError Seen := do
  let package ← asObject package
  let name ← getText package "name" ""
  let architecture ← getText package "arch" ""
  let version ← getText package "version" ""
  raiseIf (name = "" ∨ version = "" ∨ architecture ∉ indexArchitectures)
    (.fail "Debian package lock has incomplete identity")
  validatePackageFile package snapshotUrl
  let lockKey ← getText package "key" ""
  let filename ← getText package "filename" ""
  raiseIf (lockKey = "" ∨ lockKey ∈ seen.lockKeys)
    (.fail ("Debian package lock keys must be unique: " ++ filename))
  let component ← getText package "component" "main"
  raiseIf (component ∉ components)
    (.fail ("Debian package " ++ name ++ " is not in a locked component"))
  raiseIf ((name, version, architecture) ∈ seen.packageKeys)
    (.fail ("duplicate Debian package lock identity: " ++ name))
  return ⟨seen.packageKeys ++ [(name, version, architecture)], seen.lockKeys ++ [lockKey]⟩

def validatePackages (lock : Fields) (snapshotUrl : String) (components : List String) :
    Except RuleError Seen := do
  let packages ← getList lock "packages"
  packages.foldlM (validatePackage snapshotUrl components) ⟨[], []⟩

/-- The normalized identity of a lock. -/
structure Identity where
  codename : String
  components : List String
  distribution : String
  architecture : String
  metadata : List Json
  release : String
  snapshot : String
  snapshotUrl : String

/-- `lock.get("repository")`, if it is not empty -/
def getRepository (lock : Fields) : Except RuleError Fields :=
  match Dict.get lock "repository" with
  | some (.object (field :: fields)) => .ok (field :: fields)
  | none | some .null | some (.object []) | some (.list []) | some (.string "")
  | some (.bool false) | some (.int 0) =>
    .error (.fail "Debian lock is missing repository metadata")
  | some _ => .error (.evalError "the value has no field or method 'get'")

def validateLock (str : Json → String) (lock : Json) : Except RuleError Identity := do
  let lock ← asObject lock
  let repository ← getRepository lock
  let (snapshot, snapshotUrl) ← validateSnapshot repository
  let (codename, release) ← validateRelease repository
  let components ← validateComponents str repository
  let metadata ← validateMetadata repository (expectedMetadata codename components) snapshotUrl
  let _ ← validatePackages lock snapshotUrl components
  return ⟨codename, components, "debian", "amd64", metadata, release, snapshot, snapshotUrl⟩

/-! ## Package records -/

/-- `fields[key]` -/
def index (fields : Fields) (key : String) : Except RuleError Json :=
  match Dict.get fields key with
  | some value => .ok value
  | none => .error (.evalError ("key \"" ++ key ++ "\" not found in dictionary"))

/-- A package with its key; keys that are not texts are not compared. -/
def withKey (package : Json) : Except RuleError (String × Fields) := do
  let package ← asObject package
  match ← index package "key" with
  | .string key => return (key, package)
  | _ => .error (.evalError "unsupported comparison")

/-- The packages in the order of their local file names. -/
def lockedPackages (lock : Fields) : Except RuleError (List Fields) := do
  match ← index lock "packages" with
  | .list packages => do
    let keyed ← packages.mapM withKey
    return (keyed.insertionSort fun a b => a.1 ≤ b.1).map Prod.snd
  | _ => .error (.evalError "packages is not iterable")

def localPackageName (index : ℕ) : String :=
  "pkg_" ++ (if index < 10 then "00" ++ toString index
    else if index < 100 then "0" ++ toString index else toString index) ++ ".deb"

section
variable (str : Json → String)

def formatField (package : Fields) (key : String) : Except RuleError String := do
  let value ← index package key
  return formatValue str value

def packageRecord (item : Fields × ℕ) : Except RuleError (String × String) := do
  let localName := localPackageName item.2
  let fields ← ["name", "version", "arch", "filename", "size", "sha256"].mapM
    (formatField str item.1)
  return (localName, "|".intercalate (fields ++ [localName]))

/-- The local file names and the records of the locked packages. -/
def packageRecords (lock : Json) : Except RuleError (List String × List String) := do
  let lock ← asObject lock
  let packages ← lockedPackages lock
  let records ← packages.zipIdx.mapM (packageRecord str)
  return (records.map Prod.fst, records.map Prod.snd)

end

end RulesMkosi.DebianSnapshotRepo
