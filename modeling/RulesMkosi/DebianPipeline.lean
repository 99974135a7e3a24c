/-
  The lock from the generator to the staging action.

  Three programs check a lock: the generator that writes it, the repository rule that
  decodes it, and the staging action that reads the rule's package records and the
  indexes again.  Their checks are written separately.  They agree on every lock that
  the generator writes, except for one: the generator takes every Unicode digit for a
  release number and the rule only those of ASCII (`generate_accepted_iff`).
-/
import RulesMkosi.DebianChecks

namespace RulesMkosi.DebianPipeline

open Debian (Specification Lock LockedPackage MetadataEntry Repository Library Package)
open DebianSnapshotRepo (RuleError)
open DebianSnapshot (LockedFile PackageKey)

/-! ## From the generator to the staging action -/

section
variable (L : Library) (specification : Specification) (fetcher : Debian.Fetcher)

/-- The URL of a file of the suite. -/
def suiteUrl (path : String) : String :=
  specification.snapshotUrl ++ "/" ++ ("dists/" ++ specification.suite) ++ path

/-- An index that the rule downloads and the staging action decompresses. -/
def stagedIndex (index : String × String) : Except Debian.Failure (Bytes × String) := do
  let data ← fetcher (suiteUrl specification ("/" ++ Debian.packagesPath index.1 index.2))
  match L.decompress data with
  | .ok text => return (text, index.2)
  | .error message => .error (.valueError message)

/-- The indexes of every component, as the generator and the staging action read them. -/
def stagedIndexes : Except Debian.Failure (List (Bytes × String)) :=
  specification.indexes.mapM (stagedIndex L specification fetcher)

/-- The rule and the staging action take the lock as it is. -/
structure Accepted (str : Json → String) (lock : Lock) : Prop where
  validated : ∃ identity, DebianSnapshotRepo.validateLock str lock.toJson = .ok identity
  /-- the records are the packages of the lock, under different local names -/
  records : ∃ names records, DebianSnapshotRepo.packageRecords str lock.toJson = .ok (names, records) ∧
    names.Nodup ∧
    DebianSnapshot.lockedPackages records = .ok (lock.packages.zipIdx.map fun item =>
      ((item.1.name, item.1.version, item.1.arch), ⟨item.1.filename, item.1.size, item.1.sha256,
        DebianSnapshotRepo.localPackageName item.2⟩))
  local_names : Function.Injective DebianSnapshotRepo.localPackageName
  verified : ∃ names records expected indexes,
    DebianSnapshotRepo.packageRecords str lock.toJson = .ok (names, records) ∧
    DebianSnapshot.lockedPackages records = .ok expected ∧
    stagedIndexes L specification fetcher = .ok indexes ∧
    DebianSnapshot.verifyPackageMetadata expected L.decodeUtf8 indexes = .ok ()

/-- The release number, as it is given or as the Release file states it, has only the digits of
    ASCII. -/
def AsciiRelease (release : Option String) : Prop :=
  ∀ data fields checksums, fetcher (suiteUrl specification "/Release") = .ok data →
    DebianRelease.releaseChecksums L.toPlatform data = .ok (fields, checksums) →
    ∀ c ∈ Debian.numberText fields release, Debian.isAsciiDigit c = true

end

section
variable {L : Library} {specification : Specification} {fetcher : Debian.Fetcher}

theorem stagedIndex_of_fetched {checksums : Dict Str (Str × ℕ)} {index : String × String}
    {fetched : MetadataEntry × List Package}
    (h : Debian.fetchPackages L specification.snapshotUrl ("dists/" ++ specification.suite) checksums
      fetcher index = .ok fetched) :
    ∃ staged, stagedIndex L specification fetcher index = .ok staged ∧
      SameIndex L index staged fetched.2 := by
  obtain ⟨data, decompressed, text, hdata, hdecompress, hdecode, hparse, -⟩ :=
    Debian.fetchPackages_eq_ok h
  refine ⟨(decompressed, index.2), ?_, rfl, text, hdecode, hparse⟩
  have hurl : suiteUrl specification ("/" ++ Debian.packagesPath index.1 index.2) =
      specification.snapshotUrl ++ "/" ++ ("dists/" ++ specification.suite) ++ "/" ++
        Debian.packagesPath index.1 index.2 := by
    simp only [suiteUrl, String.append_assoc]
  rw [stagedIndex, hurl, hdata, ok_bind, hdecompress]
  rfl

theorem stagedIndexes_of_fetched {checksums : Dict Str (Str × ℕ)} : ∀ {indexes : List (String × String)}
    {fetched : List (MetadataEntry × List Package)},
    List.Forall₂ (fun index item => Debian.fetchPackages L specification.snapshotUrl
      ("dists/" ++ specification.suite) checksums fetcher index = .ok item) indexes fetched →
    ∃ staged, indexes.mapM (stagedIndex L specification fetcher) = .ok staged ∧
      staged.length = (fetched.map Prod.snd).length ∧
      List.Forall₂ (fun index item => SameIndex L index item.1 item.2) indexes
        (staged.zip (fetched.map Prod.snd))
  | _, _, .nil => ⟨[], rfl, rfl, .nil⟩
  | _, _, .cons hfetch hrest => by
    obtain ⟨file, hfile, hsame⟩ := stagedIndex_of_fetched hfetch
    obtain ⟨staged, hstaged, hlength, hall⟩ := stagedIndexes_of_fetched hrest
    refine ⟨file :: staged, ?_, by simp [hlength], ?_⟩
    · simp [List.mapM_cons, hfile, hstaged, pure, Except.pure]
    · rw [List.map_cons, List.zip_cons_cons]
      exact .cons hsame hall

/-- A package of the indexes is stated by a record of an index. -/
theorem states_of_mem {checksums : Dict Str (Str × ℕ)}
    {fetched : List (MetadataEntry × List Package)}
    (h : specification.indexes.mapM (Debian.fetchPackages L specification.snapshotUrl
      ("dists/" ++ specification.suite) checksums fetcher) = .ok fetched) {package : Package}
    (hmem : package ∈ fetched.flatMap Prod.snd) :
    ∃ paragraph, ∃ index ∈ specification.indexes,
      Debian.States paragraph index.1 index.2 package := by
  obtain ⟨item, hitem, hpackage⟩ := List.mem_flatMap.1 hmem
  obtain ⟨index, hindex, hfetch⟩ := forall₂_mem_right (mapM_eq_ok.1 h) hitem
  obtain ⟨-, -, text, -, -, -, hparse, -⟩ := Debian.fetchPackages_eq_ok hfetch
  simp only [Debian.parsePackages, bind_eq_ok] at hparse
  obtain ⟨records, -, hrecords⟩ := hparse
  obtain ⟨paragraph, -, hrecord⟩ := forall₂_mem_right (mapM_eq_ok.1 hrecords) hpackage
  exact ⟨paragraph, index, hindex, Debian.packageRecord_states hrecord⟩

theorem consistent_of_init {A : Debian.Alphabet} {packages : List Package} {u : Debian.Universe A}
    (h : Debian.Universe.init A packages = .ok u) : Consistent packages := by
  intro p hp q hq hidentity
  obtain ⟨hname, hversion, harch⟩ : p.name = q.name ∧ p.version = q.version ∧
      p.architecture = q.architecture := by
    simpa [packageIdentity] using hidentity
  have hsame := Debian.init_consistent h hp hq hname hversion harch
  have hfile : indexRecord p = indexRecord { q with component := p.component } :=
    congrArg indexRecord hsame
  exact hfile

theorem indexes_eq : specification.indexes = DebianSnapshotRepo.indexesOf specification.components :=
  rfl

/-- A path of the suite stays below it. -/
theorem suitePath_safe (h : specification.Valid) {parts : List String}
    (hparts : ∀ part ∈ parts, '/' ∉ part.toList ∧ part ≠ "..") :
    startsWith (joinSlash ("dists" :: specification.suite :: parts)) "dists/" = true ∧
      ".." ∉ splitSlash (joinSlash ("dists" :: specification.suite :: parts)) := by
  have hslash := notMem_of_isIdentifier h.suite (c := '/') (by decide)
  have hdot := notMem_of_isIdentifier h.suite (c := '.') (by decide)
  constructor
  · refine startsWith_iff.2 ⟨joinSlash (specification.suite :: parts), ?_⟩
    rw [joinSlash_cons]
    rfl
  · rw [splitSlash_joinSlash (List.cons_ne_nil _ _)]
    · intro hmem
      rcases List.mem_cons.1 hmem with hmem | hmem
      · exact absurd hmem (by decide)
      rcases List.mem_cons.1 hmem with hmem | hmem
      · rw [← hmem] at hdot
        exact hdot (by decide)
      · exact (hparts _ hmem).2 rfl
    · refine List.forall_mem_cons.2 ⟨by decide, List.forall_mem_cons.2 ⟨hslash, ?_⟩⟩
      exact fun part hpart => (hparts part hpart).1

theorem releaseEntry_accepted (h : specification.Valid) {name path : String} {data : Bytes}
    (file : String) (hname : name ≠ "") (hfile : '/' ∉ file.toList ∧ file ≠ "..")
    (hpath : path = joinSlash ["dists", specification.suite, file])
    (hget : (DebianSnapshotRepo.expectedMetadata specification.suite specification.components).get name =
      some ⟨path, none, none⟩) :
    EntryAccepted (DebianSnapshotRepo.expectedMetadata specification.suite specification.components)
      specification.snapshotUrl
      (Debian.metadataEntry L name path data specification.snapshotUrl none none) := by
  have hsafe := @suitePath_safe _ h [file] (by simpa using hfile)
  refine ⟨hname, hget, ?_, ?_, rfl, isSha256_of_isDigest (L.sha256_digest data)⟩
  · simpa only [Debian.metadataEntry, hpath] using hsafe.1
  · simpa only [Debian.metadataEntry, hpath] using hsafe.2

theorem indexEntry_accepted (h : specification.Valid) {index : String × String}
    (hindex : index ∈ specification.indexes) {data : Bytes} :
    EntryAccepted (DebianSnapshotRepo.expectedMetadata specification.suite specification.components)
      specification.snapshotUrl (Debian.metadataEntry L (Debian.indexName index.1 index.2)
        ("dists/" ++ specification.suite ++ "/" ++ Debian.packagesPath index.1 index.2) data
        specification.snapshotUrl (some index.2) (some index.1)) := by
  rw [indexes_eq] at hindex
  obtain ⟨hcomponent, harch⟩ := isIndex_of_mem h.components hindex
  have hget := @get_expectedMetadata_index specification.suite _ h.nodup h.components _ hindex
  have hexpected : indexPath specification.suite index =
      "dists/" ++ specification.suite ++ "/" ++ Debian.packagesPath index.1 index.2 := by
    simp only [indexPath, Debian.packagesPath, String.append_assoc]
  have hpath : "dists/" ++ specification.suite ++ "/" ++ Debian.packagesPath index.1 index.2 =
      joinSlash ("dists" :: specification.suite :: [index.1, "binary-" ++ index.2, "Packages.xz"]) := by
    rw [← String.toList_inj]
    simp [joinSlash, Debian.packagesPath]
  have hslash := notMem_of_isIdentifier hcomponent (c := '/') (by decide)
  have hdot := notMem_of_isIdentifier hcomponent (c := '.') (by decide)
  have hsafe := @suitePath_safe _ h [index.1, "binary-" ++ index.2, "Packages.xz"] (by
    refine List.forall_mem_cons.2 ⟨⟨hslash, ?_⟩, List.forall_mem_cons.2 ⟨?_, ?_⟩⟩
    · intro hparent
      rw [hparent] at hdot
      exact hdot (by decide)
    · simp only [DebianSnapshotRepo.indexArchitectures, List.mem_cons, List.not_mem_nil,
        or_false] at harch
      rcases harch with harch | harch
      · rw [harch]; decide
      · rw [harch]; decide
    · simp)
  have hname : Debian.indexName index.1 index.2 ≠ "" := by
    unfold Debian.indexName
    rw [← String.toList_inj.ne]
    split_ifs <;> simp
  rw [hexpected] at hget
  refine ⟨hname, hget, ?_, ?_, rfl, isSha256_of_isDigest (L.sha256_digest data)⟩
  · simpa only [Debian.metadataEntry, hpath] using hsafe.1
  · simpa only [Debian.metadataEntry, hpath] using hsafe.2

/-- A locked package of the indexes passes every check but those the lock may fail. -/
theorem packageAccepted_of_states {paragraph : DebianControl.Paragraph} {index : String × String}
    {package : Package} (hindex : index ∈ specification.indexes)
    (hstates : Debian.States paragraph index.1 index.2 package) {dependencies : List Package}
    {record : LockedPackage}
    (hrecord : record = Debian.lockedPackage package dependencies specification.snapshotUrl)
    (hfile : IsPoolFile record.filename) (hbars : '|' ∉ record.name.toList ∧
      '|' ∉ record.version.toList ∧ '|' ∉ record.filename.toList) :
    PackageAccepted specification.snapshotUrl specification.components record := by
  subst hrecord
  obtain ⟨text, -, -, hsize⟩ := hstates.size
  have hcomponent : index.1 ∈ specification.components := by
    simp only [Specification.indexes, List.mem_flatMap, List.mem_map] at hindex
    obtain ⟨component, hmem, _, -, rfl⟩ := hindex
    exact hmem
  refine ⟨hstates.named, hstates.versioned, hstates.known, hfile, rfl, hstates.digest, toInt_lt hsize,
    ?_, ?_, hbars⟩
  · intro hempty
    have := congrArg String.toList hempty
    simp [Debian.lockedPackage, Package.key, Debian.lockKey] at this
  · rw [← hstates.component] at hcomponent
    exact hcomponent

end

/-! ## The checks on a generated lock -/

section
variable {locked : List LockedPackage}

/-- The staging action's table of a list of packages. -/
theorem lockedPackages_records {url : String} {components : List String}
    (haccepted : ∀ package ∈ locked, PackageAccepted url components package)
    (hidentities : (locked.map identity).Nodup)
    (hfilenames : (locked.map LockedPackage.filename).Nodup) :
    DebianSnapshot.lockedPackages (locked.zipIdx.map recordOf) =
      .ok (locked.zipIdx.map lockedFile) := by
  have hfst : ∀ {α : Type} (f : LockedPackage → α), (locked.zipIdx.map fun item => f item.1) =
      locked.map f := by
    intro α f
    have hpackages := congrArg (List.map f) (List.zipIdx_map_fst 0 locked)
    rwa [List.map_map] at hpackages
  refine @foldlM_addLocked url components locked.zipIdx [] (fun item hitem => ?_) ?_ ?_ ?_
  · exact haccepted _ (List.fst_mem_of_mem_zipIdx hitem)
  · rw [List.nil_append, hfst identity]
    exact hidentities
  · rw [List.nil_append, hfst LockedPackage.filename]
    exact hfilenames
  · rw [List.nil_append, List.zipIdx_map_snd]
    exact List.nodup_range'

theorem localNames_nodup :
    (locked.zipIdx.map fun item => DebianSnapshotRepo.localPackageName item.2).Nodup := by
  have hindexes : (locked.zipIdx.map Prod.snd).Nodup := by
    rw [List.zipIdx_map_snd]
    exact List.nodup_range'
  have := hindexes.map localPackageName_injective
  rwa [List.map_map] at this

theorem mem_of_get_lockedFile {key : PackageKey} {file : LockedFile}
    (h : Dict.get (locked.zipIdx.map lockedFile) key = some file) :
    ∃ package ∈ locked, identity package = key ∧
      (package.filename, package.size, package.sha256) = (file.filename, file.size, file.digest) := by
  obtain ⟨item, hitem, heq⟩ := List.mem_map.1 (Dict.mem_of_get h)
  cases heq
  exact ⟨item.1, List.fst_mem_of_mem_zipIdx hitem, rfl, rfl⟩

end

/-- The rule's test of the release number. -/
theorem isStarlarkDigit_iff {number : Str} (h : isDigit number = true) :
    DebianSnapshotRepo.isStarlarkDigit (String.ofList number) = true ↔
      ∀ c ∈ number, Debian.isAsciiDigit c = true := by
  have hne : number ≠ [] := by
    rintro rfl
    cases h
  simp [DebianSnapshotRepo.isStarlarkDigit, Debian.isAsciiDigit, hne]

/-- The metadata of a generated lock. -/
theorem generatedMetadata_accepts {L : Library} {specification : Specification}
    {fetcher : Debian.Fetcher} (h : specification.Valid) {checksums : Dict Str (Str × ℕ)}
    {fetched : List (MetadataEntry × List Package)}
    (hfetched : specification.indexes.mapM (Debian.fetchPackages L specification.snapshotUrl
      ("dists/" ++ specification.suite) checksums fetcher) = .ok fetched)
    {inrelease releaseData releaseGpg : Bytes} {repository : Repository}
    (hmetadata : repository.metadata = [
      Debian.metadataEntry L "inrelease" ("dists/" ++ specification.suite ++ "/InRelease") inrelease
        specification.snapshotUrl none none,
      Debian.metadataEntry L "release" ("dists/" ++ specification.suite ++ "/Release") releaseData
        specification.snapshotUrl none none,
      Debian.metadataEntry L "release_gpg" ("dists/" ++ specification.suite ++ "/Release.gpg") releaseGpg
        specification.snapshotUrl none none] ++ fetched.map Prod.fst) :
    DebianSnapshotRepo.validateMetadata repository.toFields
      (DebianSnapshotRepo.expectedMetadata specification.suite specification.components)
      specification.snapshotUrl = .ok (repository.metadata.map MetadataEntry.toJson) := by
  have hentry := mapM_eq_ok.1 hfetched
  have hkeys := @keys_expectedMetadata specification.suite _ h.nodup h.components
  have hpath : ∀ file {path : String}, path.toList = '/' :: file.toList →
      "dists/" ++ specification.suite ++ path = joinSlash ["dists", specification.suite, file] := by
    intro file path hlist
    rw [← String.toList_inj]
    simp [joinSlash, hlist]
  have hbase := fun name hname => @get_expectedMetadata_base specification.suite _ h.components name hname
  refine validateMetadata_accepts (fun entry hmem => ?_) ?_ ?_ ?_
  · rw [hmetadata] at hmem
    rcases List.mem_append.1 hmem with hmem | hmem
    · simp only [List.mem_cons, List.not_mem_nil, or_false] at hmem
      rcases hmem with rfl | rfl | rfl
      · exact releaseEntry_accepted h "InRelease" (by decide) (by decide) (hpath _ rfl)
          (hbase "inrelease" (by decide))
      · exact releaseEntry_accepted h "Release" (by decide) (by decide) (hpath _ rfl)
          (hbase "release" (by decide))
      · exact releaseEntry_accepted h "Release.gpg" (by decide) (by decide) (hpath _ rfl)
          (hbase "release_gpg" (by decide))
    · obtain ⟨item, hitem, rfl⟩ := List.mem_map.1 hmem
      obtain ⟨index, hindex, hfetch⟩ := forall₂_mem_right hentry hitem
      obtain ⟨data, _, _, -, -, -, -, heq⟩ := Debian.fetchPackages_eq_ok hfetch
      rw [heq]
      exact indexEntry_accepted h hindex
  · have hnames : (specification.indexes.map fun index => Debian.indexName index.1 index.2) =
        fetched.map fun item => item.1.name := by
      refine forall₂_map_eq (fun index item hfetch => ?_) hentry
      obtain ⟨data, _, _, -, -, -, -, heq⟩ := Debian.fetchPackages_eq_ok hfetch
      rw [heq]
      rfl
    rw [hmetadata, hkeys, metadataNames, List.map_append, List.map_map]
    exact congrArg _ hnames.symm
  · rw [hkeys]
    exact nodup_metadataNames h.nodup h.components
  · rw [hmetadata]
    exact List.cons_ne_nil _ _

theorem validateLock_eq_ok {str : Json → String} {lock : Lock} :
    (∃ identity, DebianSnapshotRepo.validateLock str lock.toJson = .ok identity) ↔
      ∃ snapshot codename components metadata seen,
        DebianSnapshotRepo.validateSnapshot lock.repository.toFields = .ok snapshot ∧
        DebianSnapshotRepo.validateRelease lock.repository.toFields = .ok codename ∧
        DebianSnapshotRepo.validateComponents str lock.repository.toFields = .ok components ∧
        DebianSnapshotRepo.validateMetadata lock.repository.toFields
          (DebianSnapshotRepo.expectedMetadata codename.1 components) snapshot.2 = .ok metadata ∧
        (lock.packages.map fun package => Json.object package.toFields).foldlM
          (DebianSnapshotRepo.validatePackage snapshot.2 components) ⟨[], []⟩ = .ok seen := by
  have hobject : DebianSnapshotRepo.asObject lock.toJson =
      .ok [("packages", .list (lock.packages.map fun package => .object package.toFields)),
        ("repository", .object lock.repository.toFields)] := rfl
  have hrepository : DebianSnapshotRepo.getRepository
      [("packages", .list (lock.packages.map fun package => .object package.toFields)),
        ("repository", .object lock.repository.toFields)] = .ok lock.repository.toFields := rfl
  have hpackages : ∀ url components, DebianSnapshotRepo.validatePackages
      [("packages", .list (lock.packages.map fun package => .object package.toFields)),
        ("repository", .object lock.repository.toFields)] url components =
      (lock.packages.map fun package => Json.object package.toFields).foldlM
        (DebianSnapshotRepo.validatePackage url components) ⟨[], []⟩ := fun _ _ => rfl
  rw [DebianSnapshotRepo.validateLock, hobject, ok_bind, hrepository, ok_bind]
  simp only [bind_eq_ok, pure_eq_ok, hpackages]
  constructor
  · rintro ⟨_, snapshot, hsnapshot, codename, hcodename, components, hcomponents, metadata, hmetadata,
      seen, hseen, -⟩
    exact ⟨snapshot, codename, components, metadata, seen, hsnapshot, hcodename, hcomponents,
      hmetadata, hseen⟩
  · rintro ⟨snapshot, codename, components, metadata, seen, hsnapshot, hcodename, hcomponents,
      hmetadata, hseen⟩
    exact ⟨_, snapshot, hsnapshot, codename, hcodename, components, hcomponents, metadata, hmetadata,
      seen, hseen, rfl⟩

/-- **From the generator to the staging action.**  The rule and the staging action accept every lock
    that the generator writes for packages with distinct normalized file names and without `|`, if and
    only if its release number has only digits of ASCII. -/
theorem generate_accepted_iff (L : Library) (repr str : Json → String) (data : Json)
    (specification : Specification) (fetcher : Debian.Fetcher) (release : Option String) (lock : Lock)
    (hspecification : Debian.loadSpecification repr data = .ok specification)
    (h : Debian.generate L specification fetcher release = .ok lock)
    (hfiles : (lock.packages.map LockedPackage.filename).Nodup ∧
      ∀ package ∈ lock.packages, IsPoolFile package.filename)
    (hbars : ∀ package ∈ lock.packages, '|' ∉ package.name.toList ∧ '|' ∉ package.version.toList ∧
      '|' ∉ package.filename.toList) :
    Accepted L specification fetcher str lock ↔ AsciiRelease L specification fetcher release := by
  have hvalid := Debian.loadSpecification_valid hspecification
  obtain ⟨inrelease, releaseData, releaseGpg, fields, checksums, number, fetched, packageUniverse,
    selected, edges, locked, hrelease, hchecksums, hnumber, hfetched, huniverse, hresolve, hlocked,
    rfl⟩ := Debian.generate_eq_ok h
  obtain ⟨rfl, hdigit⟩ := Debian.releaseNumber_eq_ok hnumber
  -- the condition is about the one Release file
  have hascii : AsciiRelease L specification fetcher release ↔
      DebianSnapshotRepo.isStarlarkDigit (String.ofList (Debian.numberText fields release)) = true := by
    rw [isStarlarkDigit_iff hdigit]
    constructor
    · exact fun hall => hall releaseData fields checksums hrelease hchecksums
    · intro hall data' fields' checksums' hdata' hchecksums'
      cases hrelease.symm.trans hdata'
      cases hchecksums.symm.trans hchecksums'
      exact hall
  -- every locked package is a record of an index
  obtain ⟨hnodup, hnamed⟩ := Debian.resolve_selected hresolve
  obtain ⟨hrecords, hnames, hkeys, hsorted⟩ :=
    Debian.lockedPackages_spec hnodup (fun name package hget => (hnamed name package hget).1) hlocked
  have hstated : ∀ record ∈ locked, ∃ package ∈ fetched.flatMap Prod.snd, ∃ dependencies,
      record = Debian.lockedPackage package dependencies specification.snapshotUrl := by
    intro record hrecord
    obtain ⟨package, dependencies, hget, rfl⟩ := hrecords record hrecord
    exact ⟨package, Debian.Universe.mem_of_mem_all huniverse (hnamed _ _ hget).2, dependencies, rfl⟩
  have haccepted : ∀ record ∈ locked,
      PackageAccepted specification.snapshotUrl specification.components record := by
    intro record hrecord
    obtain ⟨package, hpackage, dependencies, heq⟩ := hstated record hrecord
    obtain ⟨paragraph, index, hindex, hstates⟩ := states_of_mem hfetched hpackage
    exact packageAccepted_of_states hindex hstates heq (hfiles.2 record hrecord) (hbars record hrecord)
  have hidentities : (locked.map identity).Nodup := by
    refine List.Nodup.of_map Prod.fst ?_
    rw [List.map_map]
    exact hnames
  rw [hascii]
  constructor
  · rintro ⟨hvalidated, -, -, -⟩
    obtain ⟨snapshot, codename, -, -, -, -, hcodename, -⟩ := validateLock_eq_ok.1 hvalidated
    exact ((validateRelease_eq_ok rfl rfl hvalid.suite).1 hcodename).1
  · intro hnumeric
    have hexpected := lockedPackages_records haccepted hidentities hfiles.1
    refine ⟨validateLock_eq_ok.2 ?_, ⟨_, _, packageRecords_eq str hsorted, localNames_nodup, hexpected⟩,
      localPackageName_injective, ?_⟩
    · obtain ⟨seen, hseen⟩ := @foldlM_validatePackage specification.snapshotUrl
        specification.components locked ⟨[], []⟩ haccepted hidentities hkeys
      exact ⟨_, _, _, _, seen, validateSnapshot_accepts hvalid rfl rfl,
        (validateRelease_eq_ok rfl rfl hvalid.suite).2 ⟨hnumeric, rfl⟩,
        validateComponents_accepts hvalid str rfl,
        generatedMetadata_accepts hvalid hfetched rfl, hseen⟩
    · obtain ⟨staged, hstaged, hlength, hsame⟩ := stagedIndexes_of_fetched (mapM_eq_ok.1 hfetched)
      have hconsistent := consistent_of_init huniverse
      have hflatten : (fetched.map Prod.snd).flatten = fetched.flatMap Prod.snd :=
        List.flatMap_def.symm
      obtain ⟨actual, hactual, hreads⟩ := @Reads.addIndexes (locked.zipIdx.map lockedFile) L _
        hconsistent _ _ _ [] [] hsame hlength (by rw [hflatten]; exact fun p hp => hp) Reads.nil
      rw [hflatten, List.nil_append] at hreads
      refine ⟨_, _, _, staged, packageRecords_eq str hsorted, hexpected, hstaged,
        verifyPackageMetadata_accepts hactual hreads hconsistent fun key file hget => ?_⟩
      obtain ⟨record, hrecord, rfl, hfile⟩ := mem_of_get_lockedFile hget
      obtain ⟨package, hpackage, dependencies, rfl⟩ := hstated record hrecord
      exact ⟨package, hpackage, rfl, hfile⟩

/-! ## Examples -/

/-- UTF-8, for characters of one or three bytes. -/
def decodeUtf8 : Bytes → Option Str
  | [] => some []
  | a :: rest =>
    if a < 0x80 then (decodeUtf8 rest).map (Char.ofNat a.toNat :: ·)
    else
      match rest with
      | b :: c :: rest => (decodeUtf8 rest).map
          (Char.ofNat ((a.toNat % 16) * 4096 + (b.toNat % 64) * 64 + c.toNat % 64) :: ·)
      | _ => none

def encodeUtf8 (text : Str) : Bytes := text.flatMap String.utf8EncodeChar

def exampleBase : String :=
  "Package: base\nVersion: 1.0-1\nArchitecture: amd64\nEssential: yes\nDepends: lib1 (>= 2)\n" ++
  "Filename: pool/base.deb\nSize: 12\n" ++
  "SHA256: abababababababababababababababababababababababababababababababab\n"

def exampleLib : String :=
  "Package: lib1\nVersion: 2.1+b1\nArchitecture: all\nFilename: pool/l/lib1.deb\nSize: 345\n" ++
  "SHA256: cdcdcdcdcdcdcdcdcdcdcdcdcdcdcdcdcdcdcdcdcdcdcdcdcdcdcdcdcdcdcdcd\n"

/-- `Packages.xz` of `binary-amd64`; it lists the package of `binary-all`, too. -/
def exampleIndex : Bytes :=
  [0xFD, 0x37, 0x7A, 0x58, 0x5A, 0x00, 0x00, 0x00, 0xFF, 0x12, 0xD9, 0x41, 0x02, 0x00, 0x21,
    0x01, 0x16, 0x00, 0x00, 0x00, 0x74, 0x2F, 0xE5, 0xA3, 0xE0, 0x01, 0x5C, 0x00, 0x9E, 0x5D,
    0x00, 0x28, 0x18, 0x48, 0x66, 0xDB, 0xDA, 0x30, 0x85, 0xFE, 0x16, 0xDF, 0xCA, 0x66, 0x0B,
    0x7C, 0x63, 0x40, 0x68, 0xAD, 0xE3, 0x06, 0xC9, 0x4E, 0x88, 0x9B, 0xBD, 0x63, 0x57, 0x08,
    0x9E, 0xF8, 0x86, 0xD6, 0x31, 0xEB, 0x64, 0x1A, 0xCF, 0xF0, 0x4A, 0xDF, 0x34, 0xEF, 0x58,
    0x75, 0x46, 0x2B, 0xBD, 0xBA, 0xDA, 0x5A, 0x2C, 0x5A, 0xB4, 0xF3, 0x2F, 0x89, 0xBD, 0xE0,
    0xB0, 0xB3, 0xB3, 0x3D, 0xB6, 0x76, 0xE2, 0x37, 0xBD, 0xFC, 0xBC, 0x03, 0x5E, 0x9B, 0xAF,
    0x49, 0xBA, 0x51, 0xF3, 0x65, 0xDE, 0xDF, 0xAB, 0x08, 0xE7, 0x02, 0x54, 0xE3, 0x4A, 0x9E,
    0xC9, 0x5A, 0x58, 0x13, 0x94, 0x1B, 0xEB, 0xBD, 0xB1, 0x63, 0x55, 0xB8, 0x19, 0x12, 0xBC,
    0xF1, 0x11, 0xE3, 0x20, 0x28, 0x8E, 0xCD, 0x3E, 0xFC, 0xD8, 0x87, 0x80, 0x1F, 0x52, 0xE7,
    0xCD, 0x8A, 0x51, 0x21, 0x40, 0x49, 0x7B, 0x21, 0x7E, 0xC3, 0x48, 0xBB, 0x68, 0x02, 0x3B,
    0xA0, 0x0A, 0xF9, 0x5C, 0xE1, 0xF6, 0xB5, 0xDD, 0xC1, 0xB6, 0xB5, 0xAD, 0x0C, 0x6B, 0x8B,
    0xDA, 0x42, 0x6E, 0x39, 0x52, 0x5F, 0xF3, 0x1C, 0x2A, 0x00, 0x00, 0x00, 0x00, 0x01, 0xB2,
    0x01, 0xDD, 0x02, 0x00, 0x00, 0x39, 0xFA, 0x8D, 0x7E, 0xA8, 0x00, 0x0A, 0xFC, 0x02, 0x00,
    0x00, 0x00, 0x00, 0x00, 0x59, 0x5A]

def exampleAllIndex : Bytes :=
  [0xFD, 0x37, 0x7A, 0x58, 0x5A, 0x00, 0x00, 0x00, 0xFF, 0x12, 0xD9, 0x41, 0x02, 0x00, 0x21,
    0x01, 0x16, 0x00, 0x00, 0x00, 0x74, 0x2F, 0xE5, 0xA3, 0xE0, 0x00, 0x9C, 0x00, 0x5D, 0x5D,
    0x00, 0x28, 0x18, 0x48, 0x66, 0xDB, 0xDA, 0x30, 0x85, 0xFE, 0x16, 0xE9, 0x14, 0x89, 0x1E,
    0x4D, 0xB6, 0xB7, 0x49, 0x9C, 0x0D, 0x2B, 0x0A, 0x20, 0x2B, 0xEB, 0xE9, 0xE8, 0xCA, 0xC9,
    0xA6, 0xDF, 0xC0, 0x2E, 0xCF, 0x0A, 0x66, 0xE8, 0xBE, 0x4D, 0xB8, 0x06, 0x50, 0x96, 0x77,
    0x5D, 0xE6, 0x3A, 0xB7, 0xBD, 0x13, 0xDA, 0xA9, 0x36, 0x23, 0x76, 0x7C, 0xE1, 0x68, 0x7E,
    0x25, 0xD5, 0x50, 0x53, 0x6E, 0xBA, 0x4C, 0x66, 0x97, 0x7F, 0xB0, 0x99, 0x06, 0x15, 0x43,
    0x5F, 0x3E, 0x2A, 0x6C, 0xCE, 0x24, 0xDA, 0x40, 0x35, 0x5C, 0x2A, 0x6A, 0xEA, 0x6D, 0x9F,
    0x2F, 0xDA, 0x62, 0xDB, 0x00, 0x00, 0x00, 0x00, 0x00, 0x01, 0x71, 0x9D, 0x01, 0x00, 0x00,
    0x00, 0x7D, 0x8E, 0x01, 0x92, 0xA8, 0x00, 0x0A, 0xFC, 0x02, 0x00, 0x00, 0x00, 0x00, 0x00,
    0x59, 0x5A]

def exampleRelease (version : String) : Bytes := encodeUtf8 (
  "Origin: Debian\nVersion: " ++ version ++ "\nCodename: trixie\nArchitectures: all amd64\n" ++
  "Components: main\nSHA256:\n" ++
  " afc8c2188e894701f3c0b82af928687d5dd15db6ee5684a75f57dc50d637424a 152 main/binary-all/Packages.xz\n" ++
  " 7c50d0773dd568295f48617a3a40a293c385349f058d8f16138a84a2bccdba5e 216 main/binary-amd64/Packages.xz\n").toList

def exampleInRelease (version : String) : Bytes :=
  encodeUtf8 "-----BEGIN PGP SIGNED MESSAGE-----\nHash: SHA256\n\n".toList ++
    exampleRelease version ++
    encodeUtf8 "-----BEGIN PGP SIGNATURE-----\n\n-----END PGP SIGNATURE-----\n".toList

def exampleDigests : Dict Bytes String :=
  [(exampleIndex, "7c50d0773dd568295f48617a3a40a293c385349f058d8f16138a84a2bccdba5e"),
    (exampleAllIndex, "afc8c2188e894701f3c0b82af928687d5dd15db6ee5684a75f57dc50d637424a"),
    (exampleInRelease "13.1", "3b0eea29cc415a98bd2dc5caf93b17b88b54c5cf2ff6d32337a3296b62263aea"),
    (exampleRelease "13.1", "c81d1ae229406220dd7889fed26ac28030406d90aeff377379bb4a28a0ee662d"),
    (exampleInRelease "１３.1",
      "fcfd9d0e1b778f5f517107273894a62c3efc61db1724a048eddc340f61226d54"),
    (exampleRelease "１３.1", "e334c138826fb1472c86c32e345ef4a555537bf994210d2444940a803b686586"),
    (encodeUtf8 "gpg\n".toList, "82c6bce203d68a5e86487c04e94e85c9b2a54169d7b9f7d154fcb75b2b49e2a1")]

theorem isDigest_of_exampleDigests : ∀ item ∈ exampleDigests,
    DebianRelease.isDigest DebianRelease.isLowerHexDigit item.2.toList = true := by
  unfold exampleDigests
  simp only [List.forall_mem_cons]
  repeat rw [String.toList_ofList]
  refine ⟨?_, ?_, ?_, ?_, ?_, ?_, ?_, List.forall_mem_nil _⟩ <;> decide

/-- The hash and the decompressor on the files of the examples. -/
def exampleLibrary : Library where
  decodeUtf8 := decodeUtf8
  lower := List.map Char.toLower
  encodeUtf8 := encodeUtf8
  sha256 data := (exampleDigests.get data).getD (String.ofList (List.replicate 64 '0'))
  sha256_digest data := by
    cases hget : exampleDigests.get data with
    | none => decide
    | some digest => exact isDigest_of_exampleDigests (data, digest) (Dict.mem_of_get hget)
  decompress data :=
    match Dict.get [(exampleIndex, encodeUtf8 (exampleBase ++ "\n" ++ exampleLib).toList),
      (exampleAllIndex, encodeUtf8 exampleLib.toList)] data with
    | some text => .ok text
    | none => .error "Input format not supported by decoder"
  alphabet := Debian.asciiAlphabet

/-- The snapshot whose Release file has the given version. -/
def exampleFetcher (version : String) : Debian.Fetcher := fun url =>
  let base := "https://snapshot.debian.org/archive/debian/20250814T000000Z/dists/trixie"
  match Dict.get [(base ++ "/InRelease", exampleInRelease version),
    (base ++ "/Release", exampleRelease version), (base ++ "/Release.gpg", encodeUtf8 "gpg\n".toList),
    (base ++ "/main/binary-amd64/Packages.xz", exampleIndex),
    (base ++ "/main/binary-all/Packages.xz", exampleAllIndex)] url with
  | some data => .ok data
  | none => .error (.lockError ("cannot download " ++ url))

def exampleData : Json :=
  .object [("version", .int 1), ("archs", .list [.string "amd64"]),
    ("packages", .list [.string "lib1"]),
    ("sources", .list [.object [("channel", .string "trixie main"),
      ("url", .string "https://snapshot.debian.org/archive/debian/20250814T000000Z/")]])]

def exampleSpecification : Specification where
  snapshotUrl := "https://snapshot.debian.org/archive/debian/20250814T000000Z"
  snapshot := "20250814T000000Z"
  suite := "trixie"
  components := ["main"]
  packages := ["lib1"]

/-- The release number and the packages of a lock. -/
def summary (lock : Lock) : String × List (String × String × String) :=
  (lock.repository.release, lock.packages.map fun package =>
    (package.name, package.version, package.filename))

/-! The texts of the example are taken apart before a run on them is evaluated: the kernel is slow on
    the characters of a long string. -/

/-- The packages of the example have distinct normalized file names and no `|`. -/
theorem exampleLock {version number : String}
    (h : (Debian.generate exampleLibrary exampleSpecification (exampleFetcher version) none).toOption.map
      summary = some (number, [("base", "1.0-1", "pool/base.deb"), ("lib1", "2.1+b1", "pool/l/lib1.deb")])) :
    ∃ lock, Debian.generate exampleLibrary exampleSpecification (exampleFetcher version) none = .ok lock ∧
      lock.repository.release = number ∧
      ((lock.packages.map LockedPackage.filename).Nodup ∧
        ∀ package ∈ lock.packages, IsPoolFile package.filename) ∧
      ∀ package ∈ lock.packages, '|' ∉ package.name.toList ∧ '|' ∉ package.version.toList ∧
        '|' ∉ package.filename.toList := by
  obtain ⟨lock, hrun, hsummary⟩ := toOption_map_eq_some.1 h
  rw [summary, Prod.mk.injEq] at hsummary
  obtain ⟨hnumber, hpackages⟩ := hsummary
  have hmem : ∀ package ∈ lock.packages, (package.name, package.version, package.filename) ∈
      [("base", "1.0-1", "pool/base.deb"), ("lib1", "2.1+b1", "pool/l/lib1.deb")] := by
    intro package hpackage
    rw [← hpackages]
    exact List.mem_map.2 ⟨package, hpackage, rfl⟩
  have hfilenames : lock.packages.map LockedPackage.filename = ["pool/base.deb", "pool/l/lib1.deb"] := by
    have := congrArg (List.map fun item : String × String × String => item.2.2) hpackages
    simpa [List.map_map, Function.comp_def] using this
  refine ⟨lock, hrun, hnumber, ⟨by rw [hfilenames]; decide, fun package hpackage => ?_⟩,
    fun package hpackage => ?_⟩
  · have hfile := List.mem_map_of_mem (f := LockedPackage.filename) hpackage
    rw [hfilenames] at hfile
    simp only [List.mem_cons, List.not_mem_nil, or_false] at hfile
    unfold IsPoolFile
    rcases hfile with hfile | hfile
    · rw [hfile]; decide
    · rw [hfile]; decide
  · have hpackage := hmem package hpackage
    simp only [List.mem_cons, List.not_mem_nil, or_false, Prod.mk.injEq] at hpackage
    rcases hpackage with ⟨hname, hversion, hfile⟩ | ⟨hname, hversion, hfile⟩
    · rw [hname, hversion, hfile]; decide
    · rw [hname, hversion, hfile]; decide

theorem summary_example :
    (Debian.generate exampleLibrary exampleSpecification (exampleFetcher "13.1") none).toOption.map
      summary = some ("13", [("base", "1.0-1", "pool/base.deb"), ("lib1", "2.1+b1", "pool/l/lib1.deb")]) := by
  unfold exampleFetcher exampleLibrary exampleInRelease exampleRelease exampleBase exampleLib
  simp only [String.toList_append, -String.reduceToList]
  repeat rw [String.toList_ofList]
  decide +kernel

theorem loadSpecification_example :
    Debian.loadSpecification (fun _ => "") exampleData = .ok exampleSpecification := by
  decide +kernel

theorem generate_accepted_example : ∃ lock,
    Debian.generate exampleLibrary exampleSpecification (exampleFetcher "13.1") none = .ok lock ∧
      lock.repository.release = "13" ∧
      Accepted exampleLibrary exampleSpecification (exampleFetcher "13.1") (fun _ => "") lock := by
  have hnumbers : ((exampleFetcher "13.1" (suiteUrl exampleSpecification "/Release")).toOption.bind
      fun data => (DebianRelease.releaseChecksums exampleLibrary.toPlatform data).toOption.map
        fun release => Debian.numberText release.1 none) = some ['1', '3'] := by
    unfold exampleFetcher exampleInRelease exampleRelease
    simp only [String.toList_append, -String.reduceToList]
    repeat rw [String.toList_ofList]
    decide +kernel
  obtain ⟨lock, hrun, hnumber, hfiles, hbars⟩ := @exampleLock "13.1" "13" summary_example
  refine ⟨lock, hrun, hnumber, (generate_accepted_iff exampleLibrary (fun _ => "") (fun _ => "")
    exampleData exampleSpecification (exampleFetcher "13.1") none lock loadSpecification_example hrun
    hfiles hbars).2 ?_⟩
  intro data fields checksums hdata hchecksums
  simp only [hdata, hchecksums, Except.toOption, Option.bind_some, Option.map_some,
    Option.some.injEq] at hnumbers
  rw [hnumbers]
  intro c hc
  simp only [List.mem_cons, List.not_mem_nil, or_false] at hc
  rcases hc with rfl | rfl
  · decide
  · decide

/-- A Release file with the digits of another script has a lock that the rule rejects. -/
theorem generate_not_accepted : ¬ ∀ (L : Library) (repr str : Json → String) (data : Json)
    (specification : Specification) (fetcher : Debian.Fetcher) (release : Option String) (lock : Lock),
    Debian.loadSpecification repr data = .ok specification →
    Debian.generate L specification fetcher release = .ok lock →
    ((lock.packages.map LockedPackage.filename).Nodup ∧
      ∀ package ∈ lock.packages, IsPoolFile package.filename) →
    (∀ package ∈ lock.packages, '|' ∉ package.name.toList ∧ '|' ∉ package.version.toList ∧
      '|' ∉ package.filename.toList) →
    Accepted L specification fetcher str lock := by
  intro h
  obtain ⟨lock, hrun, hnumber, hfiles, hbars⟩ := @exampleLock "１３.1" "１３" (by
    unfold exampleFetcher exampleLibrary exampleInRelease exampleRelease exampleBase exampleLib
    simp only [String.toList_append, -String.reduceToList]
    repeat rw [String.toList_ofList]
    decide +kernel)
  have haccepted := h exampleLibrary (fun _ => "") (fun _ => "") exampleData exampleSpecification
    (exampleFetcher "１３.1") none lock loadSpecification_example hrun hfiles hbars
  obtain ⟨snapshot, codename, -, -, -, -, hcodename, -⟩ := validateLock_eq_ok.1 haccepted.validated
  have hrelease : DebianSnapshotRepo.getText lock.repository.toFields "release" "13" =
      .ok lock.repository.release := rfl
  simp only [DebianSnapshotRepo.validateRelease, bind_eq_ok, raiseIf_eq_ok, exists_unit, hrelease,
    hnumber, Except.ok.injEq, exists_eq_left', Bool.not_eq_false] at hcodename
  obtain ⟨-, -, -, -, -, -, -, -, -, hdigits, -⟩ := hcodename
  exact absurd hdigits (by decide)

end RulesMkosi.DebianPipeline
