/-
  The lock of a specification (`generate` of `mkosi/debian/generate_lock.py`).

  The generator downloads the release files and the indexes of every component, checks
  the indexes against the Release file, resolves the requested packages and records
  what it has selected.  The fetcher maps a URL to its bytes; the hash, the
  decompressor and the UTF-8 codec are parameters.
-/
import RulesMkosi.DebianSpecification
import RulesMkosi.DebianResolve

namespace RulesMkosi.Debian

open DebianControl DebianRelease

/-- The library functions under the generator and the staging action. -/
structure Library extends DebianRelease.Platform where
  encodeUtf8 : Str → Bytes
  /-- `hashlib.sha256(data).hexdigest()` -/
  sha256 : Bytes → String
  sha256_digest : ∀ data, isDigest isLowerHexDigit (sha256 data).toList = true
  /-- `lzma.decompress(data)`, or what it reports -/
  decompress : Bytes → Except String Bytes
  alphabet : Alphabet

/-! ## The release files -/

/-- `lines.index(line, start)` -/
def indexFrom (lines : List Str) (line : Str) (start : ℕ) : Except Failure ℕ :=
  match (lines.drop start).findIdx? (· = line) with
  | some offset => .ok (start + offset)
  | none => .error (.lockError "InRelease is not a clear-signed message")

/-- `line[2:] if line.startswith("- ") else line` -/
def unescapeDash : Str → Str
  | '-' :: ' ' :: line => line
  | line => line

def payloadText (text : Str) : Except Failure Str := do
  let lines := text.splitOn '\n'
  let start ← indexFrom lines "-----BEGIN PGP SIGNED MESSAGE-----".toList 0
  let blank ← indexFrom lines [] start
  let body := blank + 1
  let stop ← indexFrom lines "-----BEGIN PGP SIGNATURE-----".toList body
  let payload := ((lines.take stop).drop body).map unescapeDash
  return ['\n'].intercalate payload ++ ['\n']

section
variable (L : Library)

def cleartextPayload (inrelease : Bytes) : Except Failure Bytes :=
  match L.decodeUtf8 inrelease with
  | some text => do
    let payload ← payloadText text
    return L.encodeUtf8 payload
  | none => .error (.valueError "'utf-8' codec can't decode")

abbrev Fetcher := String → Except Failure Bytes

def fetchRelease (url base : String) (fetcher : Fetcher) : Except Failure (Bytes × Bytes × Bytes) := do
  let inrelease ← fetcher (url ++ "/" ++ base ++ "/InRelease")
  let release ← fetcher (url ++ "/" ++ base ++ "/Release")
  let releaseGpg ← fetcher (url ++ "/" ++ base ++ "/Release.gpg")
  let payload ← cleartextPayload L inrelease
  raiseIf (payload ≠ release ∧ payload ≠ release ++ [0x0A])
    (.lockError "InRelease payload does not match Release")
  return (inrelease, release, releaseGpg)

end

/-- `release or fields.get("Version", "").split(".", 1)[0]` -/
def numberText (fields : Paragraph) (release : Option String) : Str :=
  match truthy release with
  | some release => release.toList
  | none => ((getField fields "Version").getD []).takeWhile (· ≠ '.')

/-- `_release_number` -/
def releaseNumber (fields : Paragraph) (specification : Specification) (release : Option String) :
    Except Failure String := do
  raiseIf (getField fields "Codename" ≠ some specification.suite.toList)
    (.lockError ("source suite " ++ specification.suite ++ " must be the Release codename " ++
      showField (getField fields "Codename")))
  let available := (splitWords ((getField fields "Components").getD [])).map String.ofList
  let missing := (specification.components.filter (· ∉ available)).dedup
  raiseIf (missing ≠ []) (.lockError ("Release does not provide components: " ++
    ", ".intercalate (missing.insertionSort (· ≤ ·))))
  raiseIf (architecture.toList ∉ splitWords ((getField fields "Architectures").getD []))
    (.lockError ("Release does not provide architecture " ++ architecture))
  let number := numberText fields release
  raiseIf (isDigit number = false) (.lockError "Release has no numeric Version; pass --release")
  return String.ofList number

/-! ## The indexes -/

/-- An entry of the lock's repository metadata. -/
structure MetadataEntry where
  name : String
  path : String
  sha256 : String
  url : String
  architecture : Option String
  component : Option String
  deriving Repr, DecidableEq

/-- `_index_name` -/
def indexName (component indexArchitecture : String) : String :=
  (if component = "main" then "" else component ++ "_") ++
    if indexArchitecture = architecture then "packages_xz" else "packages_all_xz"

def packagesPath (component indexArchitecture : String) : String :=
  component ++ "/binary-" ++ indexArchitecture ++ "/Packages.xz"

section
variable (L : Library)

def metadataEntry (name path : String) (data : Bytes) (snapshotUrl : String)
    (indexArchitecture component : Option String) : MetadataEntry :=
  ⟨name, path, L.sha256 data, snapshotUrl ++ "/" ++ path, indexArchitecture, component⟩

def fetchIndex (url base relative : String) (checksums : Dict Str (Str × ℕ)) (fetcher : Fetcher) :
    Except Failure Bytes :=
  match checksums.get relative.toList with
  | none => .error (.lockError ("Release does not list " ++ relative))
  | some (digest, size) => do
    let data ← fetcher (url ++ "/" ++ base ++ "/" ++ relative)
    raiseIf (data.length ≠ size ∨ (L.sha256 data).toList ≠ digest)
      (.lockError (relative ++ " does not match the Release checksum"))
    return data

def decodeIndex (relative : String) (data : Bytes) : Except Failure Str :=
  match L.decompress data with
  | .error message => .error (.lockError (relative ++ " cannot be decoded: " ++ message))
  | .ok text =>
    match L.decodeUtf8 text with
    | some text => .ok text
    | none => .error (.lockError (relative ++ " cannot be decoded: 'utf-8' codec can't decode"))

/-- One round of the loops over the components and the architectures. -/
def fetchPackages (url base : String) (checksums : Dict Str (Str × ℕ)) (fetcher : Fetcher)
    (index : String × String) : Except Failure (MetadataEntry × List Package) := do
  let relative := packagesPath index.1 index.2
  let data ← fetchIndex L url base relative checksums fetcher
  let text ← decodeIndex L relative data
  let packages ← parsePackages text index.1 index.2
  return (metadataEntry L (indexName index.1 index.2) (base ++ "/" ++ relative) data url
    (some index.2) (some index.1), packages)

def Specification.indexes (specification : Specification) : List (String × String) :=
  specification.components.flatMap fun component =>
    indexArchitectures.map fun indexArchitecture => (component, indexArchitecture)

def fetchIndexes (specification : Specification) (base : String)
    (checksums : Dict Str (Str × ℕ)) (fetcher : Fetcher) :
    Except Failure (List MetadataEntry × List Package) := do
  let fetched ← specification.indexes.mapM
    (fetchPackages L specification.snapshotUrl base checksums fetcher)
  return (fetched.map Prod.fst, fetched.flatMap Prod.snd)

end

/-! ## The lock -/

structure Repository where
  architecture : String
  codename : String
  components : List String
  distribution : String
  metadata : List MetadataEntry
  release : String
  snapshot : String
  snapshotUrl : String
  deriving Repr, DecidableEq

/-- The lock, without the digest of its specification. -/
structure Lock where
  packages : List LockedPackage
  repository : Repository
  deriving Repr, DecidableEq

def generate (L : Library) (specification : Specification) (fetcher : Fetcher)
    (release : Option String) : Except Failure Lock := do
  let base := "dists/" ++ specification.suite
  let url := specification.snapshotUrl
  let (inrelease, releaseData, releaseGpg) ← fetchRelease L url base fetcher
  let (fields, checksums) ← releaseChecksums L.toPlatform releaseData
  let number ← releaseNumber fields specification release
  let metadata := [
    metadataEntry L "inrelease" (base ++ "/InRelease") inrelease url none none,
    metadataEntry L "release" (base ++ "/Release") releaseData url none none,
    metadataEntry L "release_gpg" (base ++ "/Release.gpg") releaseGpg url none none]
  let (indexMetadata, packages) ← fetchIndexes L specification base checksums fetcher
  let packageUniverse ← Universe.init L.alphabet packages
  let (selected, edges) ← resolve packageUniverse specification.packages
  let locked ← lockedPackages selected edges url
  return {
    packages := locked
    repository := {
      architecture := architecture
      codename := specification.suite
      components := specification.components
      distribution := "debian"
      metadata := metadata ++ indexMetadata
      release := number
      snapshot := specification.snapshot
      snapshotUrl := url } }

theorem releaseNumber_eq_ok {fields : Paragraph} {specification : Specification}
    {release : Option String} {number : String}
    (h : releaseNumber fields specification release = .ok number) :
    number = String.ofList (numberText fields release) ∧
      isDigit (numberText fields release) = true := by
  simp only [releaseNumber, bind_eq_ok, raiseIf_eq_ok, exists_unit, pure_eq_ok,
    Bool.not_eq_false] at h
  obtain ⟨-, -, -, hdigit, rfl⟩ := h
  exact ⟨rfl, hdigit⟩

/-- What a run that writes a lock has fetched, parsed and resolved. -/
theorem generate_eq_ok {L : Library} {specification : Specification} {fetcher : Fetcher}
    {release : Option String} {lock : Lock} (h : generate L specification fetcher release = .ok lock) :
    ∃ inrelease releaseData releaseGpg fields checksums number fetched,
      ∃ (packageUniverse : Universe L.alphabet) (selected : Dict String Package) (edges : _)
        (locked : List LockedPackage),
      fetcher (specification.snapshotUrl ++ "/" ++ ("dists/" ++ specification.suite) ++ "/Release") =
        .ok releaseData ∧
      releaseChecksums L.toPlatform releaseData = .ok (fields, checksums) ∧
      releaseNumber fields specification release = .ok number ∧
      specification.indexes.mapM (fetchPackages L specification.snapshotUrl
        ("dists/" ++ specification.suite) checksums fetcher) = .ok fetched ∧
      Universe.init L.alphabet (fetched.flatMap Prod.snd) = .ok packageUniverse ∧
      resolve packageUniverse specification.packages = .ok (selected, edges) ∧
      lockedPackages selected edges specification.snapshotUrl = .ok locked ∧
      lock = ⟨locked, {
        architecture := architecture
        codename := specification.suite
        components := specification.components
        distribution := "debian"
        metadata := [
          metadataEntry L "inrelease" ("dists/" ++ specification.suite ++ "/InRelease") inrelease
            specification.snapshotUrl none none,
          metadataEntry L "release" ("dists/" ++ specification.suite ++ "/Release") releaseData
            specification.snapshotUrl none none,
          metadataEntry L "release_gpg" ("dists/" ++ specification.suite ++ "/Release.gpg") releaseGpg
            specification.snapshotUrl none none] ++ fetched.map Prod.fst
        release := number
        snapshot := specification.snapshot
        snapshotUrl := specification.snapshotUrl }⟩ := by
  simp only [generate, fetchRelease, fetchIndexes, bind_eq_ok, pure_eq_ok, Prod.exists, Prod.mk.injEq,
    raiseIf_eq_ok, exists_unit] at h
  obtain ⟨_, _, _, ⟨inrelease, -, releaseData, hrelease, releaseGpg, -, _, -, -, rfl, rfl, rfl⟩,
    fields, checksums, hchecksums, number, hnumber, _, _, ⟨fetched, hfetched, rfl, rfl⟩,
    packageUniverse, huniverse, selected, edges, hresolve, locked, hlocked, rfl⟩ := h
  exact ⟨inrelease, releaseData, releaseGpg, fields, checksums, number, fetched, packageUniverse,
    selected, edges, locked, hrelease, hchecksums, hnumber, hfetched, huniverse, hresolve, hlocked, rfl⟩

theorem fetchPackages_eq_ok {L : Library} {url base : String} {checksums : Dict Str (Str × ℕ)}
    {fetcher : Fetcher} {index : String × String} {entry : MetadataEntry} {packages : List Package}
    (h : fetchPackages L url base checksums fetcher index = .ok (entry, packages)) :
    ∃ data decompressed text,
      fetcher (url ++ "/" ++ base ++ "/" ++ packagesPath index.1 index.2) = .ok data ∧
      L.decompress data = .ok decompressed ∧ L.decodeUtf8 decompressed = some text ∧
      parsePackages text index.1 index.2 = .ok packages ∧
      entry = metadataEntry L (indexName index.1 index.2)
        (base ++ "/" ++ packagesPath index.1 index.2) data url (some index.2) (some index.1) := by
  simp only [fetchPackages, bind_eq_ok, pure_eq_ok, Prod.mk.injEq] at h
  obtain ⟨data, hdata, text, htext, packages, hpackages, rfl, rfl⟩ := h
  have hfetch : fetcher (url ++ "/" ++ base ++ "/" ++ packagesPath index.1 index.2) = .ok data := by
    unfold fetchIndex at hdata
    split at hdata
    · cases hdata
    · simp only [bind_eq_ok, pure_eq_ok, raiseIf_eq_ok, exists_unit] at hdata
      obtain ⟨_, hfetch, -, rfl⟩ := hdata
      exact hfetch
  unfold decodeIndex at htext
  split at htext
  · cases htext
  · next decompressed hdecompress =>
    split at htext
    · next text' hdecode =>
      cases htext
      exact ⟨data, decompressed, text, hfetch, hdecompress, hdecode, hpackages, rfl⟩
    · cases htext

/-! ## The decoded lock -/

/-- A field that may be absent. -/
def optionalField (key : String) (value : Option String) : List (String × Json) :=
  match value with
  | some value => [(key, .string value)]
  | none => []

def MetadataEntry.toJson (entry : MetadataEntry) : Json :=
  .object ([("name", .string entry.name), ("path", .string entry.path),
    ("sha256", .string entry.sha256), ("url", .string entry.url)] ++
    optionalField "architecture" entry.architecture ++ optionalField "component" entry.component)

def LockedDependency.toJson (dependency : LockedDependency) : Json :=
  .object [("key", .string dependency.key), ("name", .string dependency.name),
    ("version", .string dependency.version)]

def LockedPackage.toFields (package : LockedPackage) : Dict String Json :=
  [("arch", .string package.arch), ("component", .string package.component),
    ("dependencies", .list (package.dependencies.map LockedDependency.toJson)),
    ("filename", .string package.filename), ("key", .string package.key),
    ("name", .string package.name), ("sha256", .string package.sha256), ("size", .int package.size),
    ("urls", .list (package.urls.map Json.string)), ("version", .string package.version)]

def Repository.toFields (repository : Repository) : Dict String Json :=
  [("architecture", .string repository.architecture), ("codename", .string repository.codename),
    ("components", .list (repository.components.map Json.string)),
    ("distribution", .string repository.distribution),
    ("metadata", .list (repository.metadata.map MetadataEntry.toJson)),
    ("release", .string repository.release), ("snapshot", .string repository.snapshot),
    ("snapshot_url", .string repository.snapshotUrl)]

/-- What `json.decode(render(lock))` returns. -/
def Lock.toJson (lock : Lock) : Json :=
  .object [("packages", .list (lock.packages.map fun package => .object package.toFields)),
    ("repository", .object lock.repository.toFields)]

end RulesMkosi.Debian
