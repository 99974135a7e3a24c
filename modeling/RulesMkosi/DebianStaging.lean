/-
  What a staged Debian snapshot contains (`mkosi/private/debian_snapshot.py`).

  `stage` checks the input files against the lock, lets `sqv` verify the release, checks the
  Packages indexes against the release and the packages against the indexes, and copies all of
  them to the output.  `stage_authentic`: every file of a staged snapshot is authenticated by the
  signature, over the release, the index and the package; `stage_reproducible`: the lock
  determines the files that are staged.
-/
import RulesMkosi.DebianChecks
import RulesMkosi.Lib.TreeCopies

namespace RulesMkosi.DebianSnapshot

open DebianControl FileTree

/-- What the action uses: the hash, the decompressor, and the verifier in its sandbox, which has the
    keyring of the archive; its errors are the text that it writes. -/
structure Tools extends DebianRelease.Platform where
  sha256 : Bytes → String
  decompress : Bytes → Except Exn Bytes
  /-- `sqv --output --cleartext`, with the payload that it writes -/
  verifyCleartext : Bytes → Except String Bytes
  /-- `sqv --signature-file`, with a signature and what it signs -/
  verifyDetached : Bytes → Bytes → Except String Unit

/-- The arguments, without those of the sandbox; input files are paths. -/
structure Args where
  inrelease : String
  release : String
  releaseGpg : String
  packagesXz : String
  packagesAllXz : String
  inreleaseSha256 : String
  releaseSha256 : String
  releaseGpgSha256 : String
  packagesXzSha256 : String
  packagesAllXzSha256 : String
  packagesPath : String
  packagesAllPath : String
  codename : String
  componentIndexes : List String
  componentIndexFiles : List String
  packageRecords : List String
  packages : List String
  packageNames : List String

structure Index where
  component : String
  architecture : String
  relative : String
  digest : String
  path : String
  deriving Repr, DecidableEq

/-- `[a-z0-9][a-z0-9-]*` -/
def isIdentifier (text : String) : Bool := Debian.isIdentifier text.toList

/-- The place of a path in the output. -/
def pathOf (text : String) : Path := (PosixPath.parse text).parts.map String.toList

def readFile (tree : Tree) (path : Path) : Except Exn Bytes :=
  match tree.stat path with
  | some (.file content) => .ok content
  | _ => .error (.osError "No such file or directory")

section
variable (T : Tools) (files : String → Except Exn Bytes) (args : Args)

/-! ## Inputs -/

def verifyDigest (path expected description : String) : Except Exn Unit := do
  let content ← files path
  raiseIf (T.sha256 content ≠ expected) (.valueError (description ++ " digest mismatch: expected=" ++
    expected ++ " actual=" ++ T.sha256 content))

def verifyPackage (path expectedDigest : String) (expectedSize : ℕ) (description : String) :
    Except Exn Unit := do
  verifyDigest T files path expectedDigest description
  let content ← files path
  raiseIf (content.length ≠ expectedSize) (.valueError (description ++ " size mismatch: expected=" ++
    toString expectedSize ++ " actual=" ++ toString content.length))

def parseIndex (item : String × String) : Except Exn Index :=
  match splitBar item.1 with
  | [component, architecture, relative, digest] => .ok ⟨component, architecture, relative, digest, item.2⟩
  | _ => .error (.valueError "component index record must have four fields")

def indexArchitectures : List String := ["amd64", "all"]

/-- Where the index of a component and an architecture is. -/
def indexRelative (codename component architecture : String) : String :=
  "dists/" ++ codename ++ "/" ++ component ++ "/binary-" ++ architecture ++ "/Packages.xz"

/-- The loop body of `_component_indexes`. -/
def checkIndex (seen : List (String × String)) (index : Index) : Except Exn (List (String × String)) := do
  raiseIf (isIdentifier index.component = false)
    (.valueError ("invalid Debian component: " ++ index.component))
  raiseIf (index.architecture ∉ indexArchitectures)
    (.valueError ("unsupported index architecture: " ++ index.architecture))
  let expected := indexRelative args.codename index.component index.architecture
  raiseIf (index.relative ≠ expected)
    (.valueError ("Packages index " ++ index.relative ++ " must be staged at " ++ expected))
  raiseIf ((index.component, index.architecture) ∈ seen)
    (.valueError ("duplicate Packages index: " ++ index.component ++ " " ++ index.architecture))
  return seen ++ [(index.component, index.architecture)]

def componentIndexes : Except Exn (List Index) := do
  raiseIf (args.componentIndexes.length ≠ args.componentIndexFiles.length)
    (.valueError "--component-index and --component-index-file counts differ")
  let more ← (args.componentIndexes.zip args.componentIndexFiles).mapM parseIndex
  let indexes :=
    [⟨"main", "amd64", args.packagesPath, args.packagesXzSha256, args.packagesXz⟩,
      ⟨"main", "all", args.packagesAllPath, args.packagesAllXzSha256, args.packagesAllXz⟩] ++ more
  let seen ← indexes.foldlM (checkIndex args) []
  raiseIf (seen.toFinset ≠ (indexes.flatMap fun index =>
      indexArchitectures.map fun architecture => (index.component, architecture)).toFinset)
    (.valueError "every Debian component needs binary-amd64 and binary-all indexes")
  return indexes

def verifyInputDigests (indexes : List Index) : Except Exn Unit := do
  verifyDigest T files args.inrelease args.inreleaseSha256 "InRelease"
  verifyDigest T files args.release args.releaseSha256 "Release"
  verifyDigest T files args.releaseGpg args.releaseGpgSha256 "Release.gpg"
  indexes.forM fun index =>
    verifyDigest T files index.path index.digest ("Packages " ++ index.component ++ "/" ++ index.architecture)

/-! ## The release -/

/-- The error of `_run_sqv` -/
def sqvFailure (description stderr : String) : Exn :=
  .valueError ("Debian " ++ description ++ " signature verification failed: " ++ stderr)

def verifiedRelease : Path := ["verified-release".toList]

/-- `_verify_signature`; the payload is written to the output. -/
def verifySignature (tree : Tree) : Except Exn Tree := do
  let inrelease ← files args.inrelease
  let payload ← (T.verifyCleartext inrelease).mapError (sqvFailure "InRelease")
  let tree ← tree.writeFile verifiedRelease payload
  let release ← files args.release
  let releaseGpg ← files args.releaseGpg
  (T.verifyDetached releaseGpg release).mapError (sqvFailure "Release")
  return tree

def authenticatedReleaseMatches (payload release : Bytes) : Bool :=
  payload = release ∨ payload ++ [10] = release

def verifyAuthenticatedRelease (tree : Tree) (indexes : List Index) : Except Exn Unit := do
  let authenticatedRelease ← readFile tree verifiedRelease
  let release ← files args.release
  raiseIf (authenticatedReleaseMatches authenticatedRelease release = false)
    (.valueError "authenticated InRelease does not match locked Release")
  indexes.forM fun index => do
    let content ← files index.path
    DebianRelease.releaseHash T.toPlatform authenticatedRelease index.relative.toList content.length
      index.digest.toList

/-! ## The output -/

/-- `_copy`, of a file of the input -/
def copy (tree : Tree) (source : String) (destination : Path) : Except Exn Tree := do
  let content ← files source
  tree.put destination (.file content)

/-- Where the files of a release are. -/
def releasePath (codename name : String) : Path := ["dists".toList, codename.toList, name.toList]

def stagedPath (index : Index) : Path :=
  pathOf (String.ofList (index.relative.toList.dropLast.dropLast.dropLast))

/-- `_decompress`, of an index -/
def stageIndex (tree : Tree) (index : Index) : Except Exn Tree := do
  let compressed ← files index.path
  let content ← T.decompress compressed
  tree.put (stagedPath index) (.file content)

def stageReleaseFiles (tree : Tree) (indexes : List Index) : Except Exn Tree := do
  let tree ← copy files tree args.inrelease (releasePath args.codename "InRelease")
  let tree ← copy files tree args.release (releasePath args.codename "Release")
  let tree ← copy files tree args.releaseGpg (releasePath args.codename "Release.gpg")
  indexes.foldlM (stageIndex T files) tree

/-- `_verify_package_metadata`, with the indexes read from the output -/
def verifyStagedMetadata (tree : Tree) (indexes : List Index) (expected : Dict PackageKey LockedFile) :
    Except Exn Unit := do
  let stagedIndexes ← indexes.mapM fun index => do
    let content ← readFile tree (stagedPath index)
    return (content, index.architecture)
  verifyPackageMetadata expected T.decodeUtf8 stagedIndexes

/-- The locked file of a local name; the last one if there were several. -/
def recordByName (expected : Dict PackageKey LockedFile) (localName : String) : Option LockedFile :=
  (expected.reverse.find? fun item => item.2.localName = localName).map Prod.snd

def stagePackage (expected : Dict PackageKey LockedFile) (tree : Tree) (item : String × String) :
    Except Exn Tree :=
  match recordByName expected item.2 with
  | some file => do
    verifyPackage T files item.1 file.digest file.size ("package " ++ item.2)
    let relative ← safePackagePath file.filename
    copy files tree item.1 (pathOf relative)
  | none => .error (.keyError item.2)

def stagePackages (tree : Tree) (expected : Dict PackageKey LockedFile) : Except Exn Tree := do
  raiseIf ((expected.map fun item => item.2.localName).toFinset ≠ args.packageNames.toFinset)
    (.valueError "package inputs do not match lock package names")
  let tree ← (args.packages.zip args.packageNames).foldlM (stagePackage T files expected) tree
  raiseIf (args.packages.length ≠ args.packageNames.length)
    (.valueError "zip() arguments have different lengths")
  return tree

/-- The action, into an empty output. -/
def stage : Except Exn Tree := do
  raiseIf (isIdentifier args.codename = false) (.valueError ("invalid Debian codename: " ++ args.codename))
  let indexes ← componentIndexes args
  verifyInputDigests T files args indexes
  let tree ← verifySignature T files args []
  verifyAuthenticatedRelease T files args tree indexes
  let tree ← stageReleaseFiles T files args tree indexes
  let expected ← lockedPackages args.packageRecords
  verifyStagedMetadata T tree indexes expected
  let tree ← stagePackages T files args tree expected
  tree.unlink verifiedRelease

end

/-! ## Paths -/

theorem isName_iff {part : String} : IsName part.toList ↔
    part ≠ "" ∧ part ≠ "." ∧ part ≠ ".." ∧ '/' ∉ part.toList := by
  have heq : ∀ text : String, part.toList = text.toList ↔ part = text := fun text => String.toList_inj
  constructor
  · rintro ⟨hnil, hdot, hdots, hslash⟩
    exact ⟨fun h => hnil ((heq "").2 h), fun h => hdot ((heq ".").2 h), fun h => hdots ((heq "..").2 h),
      hslash⟩
  · rintro ⟨hnil, hdot, hdots, hslash⟩
    exact ⟨fun h => hnil ((heq "").1 h), fun h => hdot ((heq ".").1 h), fun h => hdots ((heq "..").1 h),
      hslash⟩

/-- The place of a path that is joined from names. -/
theorem pathOf_joinSlash {parts : List String} (hne : parts ≠ [])
    (h : ∀ part ∈ parts, IsName part.toList) : pathOf (joinSlash parts) = parts.map String.toList := by
  have hsplit : splitSlash (joinSlash parts) = parts := splitSlash_joinSlash hne fun part hpart =>
    (h part hpart).no_slash
  have htail : (PosixPath.parse (joinSlash parts)).tail = parts := by
    unfold PosixPath.parse
    dsimp only
    rw [hsplit]
    refine List.filter_eq_self.2 fun part hpart => ?_
    obtain ⟨hnil, hdot, -, -⟩ := isName_iff.1 (h part hpart)
    simp [hnil, hdot]
  have hroot : (PosixPath.parse (joinSlash parts)).root = "" := by
    obtain ⟨part, rest, rfl⟩ := List.exists_cons_of_ne_nil hne
    obtain ⟨c, chars, hchars⟩ := List.exists_cons_of_ne_nil (h part List.mem_cons_self).not_nil
    have hc : c ≠ '/' := by
      rintro rfl
      exact (h part List.mem_cons_self).no_slash (by rw [hchars]; exact List.mem_cons_self)
    have htext : ∃ more, (joinSlash (part :: rest)).toList = c :: more := by
      cases rest with
      | nil => exact ⟨chars, hchars⟩
      | cons next rest =>
        rw [joinSlash_cons, String.toList_append, String.toList_append, hchars]
        exact ⟨_, rfl⟩
    obtain ⟨more, hmore⟩ := htext
    unfold PosixPath.parse
    dsimp only
    rw [hmore]
    unfold PosixPath.rootOf
    split
    · next heq => exact absurd (List.cons.inj heq).1 hc
    · next heq => exact absurd (List.cons.inj heq).1 hc
    · next heq => exact absurd (List.cons.inj heq).1 hc
    · rfl
  rw [pathOf, PosixPath.parts, if_pos hroot, htail]

theorem isName_of_isIdentifier {text : String} (h : isIdentifier text = true) : IsName text.toList := by
  have hchar : ∀ c, Debian.isIdentifierChar c = false → c ∉ text.toList := fun c =>
    DebianPipeline.notMem_of_isIdentifier h
  refine ⟨(DebianPipeline.isIdentifier_chars h).1, fun hdot => ?_, fun hdots => ?_, hchar '/' (by decide)⟩
  · exact hchar '.' (by decide) (hdot ▸ by decide)
  · exact hchar '.' (by decide) (hdots ▸ by decide)

/-- An index that was accepted. -/
structure Index.Accepted (codename : String) (index : Index) : Prop where
  component : isIdentifier index.component = true
  architecture : index.architecture ∈ indexArchitectures
  relative : index.relative = indexRelative codename index.component index.architecture

/-- The components of the path of a staged index. -/
def indexParts (codename component architecture : String) : List String :=
  ["dists", codename, component, "binary-" ++ architecture, "Packages"]

def indexPath (codename component architecture : String) : Path :=
  (indexParts codename component architecture).map String.toList

variable {T : Tools} {files : String → Except Exn Bytes} {args : Args}

theorem names_indexParts {codename component architecture : String} (hcodename : isIdentifier codename = true)
    (hcomponent : isIdentifier component = true) (harchitecture : architecture ∈ indexArchitectures) :
    ∀ part ∈ indexParts codename component architecture, IsName part.toList := by
  have hbinary : IsName ("binary-" ++ architecture).toList := by
    simp only [indexArchitectures, List.mem_cons, List.not_mem_nil, or_false] at harchitecture
    rcases harchitecture with rfl | rfl
    · exact isName_iff.2 (by decide)
    · exact isName_iff.2 (by decide)
  simp only [indexParts, List.forall_mem_cons]
  exact ⟨isName_iff.2 (by decide), isName_of_isIdentifier hcodename,
    isName_of_isIdentifier hcomponent, hbinary,
    isName_iff.2 (by decide), List.forall_mem_nil _⟩

theorem stagedPath_eq {index : Index} (hcodename : isIdentifier args.codename = true)
    (h : index.Accepted args.codename) :
    stagedPath index = indexPath args.codename index.component index.architecture := by
  have hrelative : index.relative.toList =
      (joinSlash (indexParts args.codename index.component index.architecture)).toList ++ ['.'] ++ ['x'] ++
        ['z'] := by
    rw [h.relative, indexRelative, joinSlash_toList]
    simp [indexParts, List.intercalate]
  rw [stagedPath, hrelative, List.dropLast_concat, List.dropLast_concat, List.dropLast_concat,
    String.ofList_toList, pathOf_joinSlash (by simp [indexParts])
    (names_indexParts hcodename h.component h.architecture), indexPath]

/-- A path of a package is below `pool`. -/
theorem pathOf_safePackagePath {filename relative : String} (h : safePackagePath filename = .ok relative) :
    relative = filename ∧ Names (pathOf relative) ∧ (pathOf relative).head? = some "pool".toList ∧
      relative = joinSlash ((pathOf relative).map String.ofList) := by
  rw [safePackagePath, bind_eq_ok] at h
  obtain ⟨_, hsafe, h⟩ := h
  rw [raiseIf_eq_ok, not_or, not_or, not_or, not_not, Bool.not_eq_false] at hsafe
  obtain ⟨habsolute, hparent, hstr, hpool⟩ := hsafe
  cases h
  rw [hstr] at hpool ⊢
  have hroot : (PosixPath.parse filename).root = "" := by
    simpa [PosixPath.isAbsolute] using habsolute
  have hparts : (PosixPath.parse filename).parts = (PosixPath.parse filename).tail := if_pos hroot
  have htail : ∀ part ∈ (PosixPath.parse filename).tail, IsName part.toList := by
    intro part hpart
    obtain ⟨hmem, hkept⟩ := List.mem_filter.1 hpart
    obtain ⟨piece, hpiece, rfl⟩ := List.mem_map.1 hmem
    rw [decide_eq_true_eq] at hkept
    refine isName_iff.2 ⟨hkept.1, hkept.2, ?_, ?_⟩
    · intro hdots
      exact hparent (hparts ▸ hdots ▸ hpart)
    · rw [String.toList_ofList]
      exact fun hslash => (mem_of_mem_splitOn hpiece '/' hslash).2 rfl
  have hjoin : filename = joinSlash (PosixPath.parse filename).tail := by
    have hnot : ¬ ((PosixPath.parse filename).root = "" ∧ (PosixPath.parse filename).tail = []) := by
      rintro ⟨-, hnil⟩
      rw [PosixPath.str, if_pos ⟨hroot, hnil⟩] at hstr
      rw [← hstr] at hpool
      exact absurd hpool (by decide)
    rw [PosixPath.str, if_neg hnot, hroot, String.empty_append] at hstr
    exact hstr.symm
  refine ⟨rfl, ?_, ?_, ?_⟩
  · rw [pathOf, hparts]
    intro c hc
    obtain ⟨part, hpart, rfl⟩ := List.mem_map.1 hc
    exact htail part hpart
  · obtain ⟨rest, hrest⟩ := startsWith_iff.1 hpool
    have hsplit : splitSlash filename = "pool" :: splitSlash rest := by
      rw [hrest, splitSlash, String.toList_append, show "pool/".toList = "pool".toList ++ ['/'] from rfl,
        List.append_assoc, List.singleton_append, List.splitOn_append_cons_self_of_not_mem (by decide),
        List.map_cons, String.ofList_toList, splitSlash]
    have htail' : (PosixPath.parse filename).tail = "pool" :: (PosixPath.parse rest).tail := by
      show (splitSlash filename).filter _ = _
      rw [hsplit, List.filter_cons_of_pos (by decide)]
      rfl
    rw [pathOf, hparts, htail', List.map_cons, List.head?_cons]
  · have hid : String.ofList ∘ String.toList = id := funext fun text => String.ofList_toList
    rw [pathOf, hparts, List.map_map, hid, List.map_id]
    exact hjoin

/-! ## Steps -/

theorem mapError_eq_ok {ε ε' α : Type} {x : Except ε α} {f : ε → ε'} {a : α} :
    x.mapError f = .ok a ↔ x = .ok a := by
  cases x with
  | error e => simp [Except.mapError]
  | ok a => simp [Except.mapError]

theorem verifyDigest_eq_ok {path expected description : String} :
    verifyDigest T files path expected description = .ok () ↔
      ∃ content, files path = .ok content ∧ T.sha256 content = expected := by
  simp only [verifyDigest, bind_eq_ok, raiseIf_eq_ok, ne_eq, not_not]

theorem verifyPackage_eq_ok {path digest description : String} {size : ℕ} :
    verifyPackage T files path digest size description = .ok () ↔
      ∃ content, files path = .ok content ∧ T.sha256 content = digest ∧ content.length = size := by
  simp only [verifyPackage, bind_eq_ok, exists_unit, verifyDigest_eq_ok, raiseIf_eq_ok, ne_eq, not_not]
  constructor
  · rintro ⟨⟨content, hfile, hdigest⟩, content', hfile', hsize⟩
    cases hfile.symm.trans hfile'
    exact ⟨content, hfile, hdigest, hsize⟩
  · rintro ⟨content, hfile, hdigest, hsize⟩
    exact ⟨⟨content, hfile, hdigest⟩, content, hfile, hsize⟩

theorem checkIndex_eq_ok {seen seen' : List (String × String)} {index : Index}
    (h : checkIndex args seen index = .ok seen') : index.Accepted args.codename ∧
      (index.component, index.architecture) ∉ seen ∧
      seen' = seen ++ [(index.component, index.architecture)] := by
  simp only [checkIndex, bind_eq_ok, exists_unit, raiseIf_eq_ok, ne_eq, not_not, Bool.not_eq_false,
    pure_eq_ok] at h
  obtain ⟨hcomponent, harchitecture, hrelative, hnew, hseen⟩ := h
  exact ⟨⟨hcomponent, harchitecture, hrelative⟩, hnew, hseen.symm⟩

/-- What an index is for. -/
def Index.kind (index : Index) : String × String := (index.component, index.architecture)

theorem nodup_map_concat {α β : Type} {f : α → β} {l : List α} {a : α} (h : (l.map f).Nodup)
    (ha : f a ∉ l.map f) : ((l ++ [a]).map f).Nodup := by
  rw [List.map_append, List.map_singleton, List.nodup_append]
  refine ⟨h, List.nodup_singleton _, fun b hb b' hb' => ?_⟩
  rw [List.mem_singleton.1 hb']
  rintro rfl
  exact ha hb

theorem componentIndexes_accepted {indexes : List Index} (h : componentIndexes args = .ok indexes) :
    (∀ index ∈ indexes, index.Accepted args.codename) ∧ (indexes.map Index.kind).Nodup := by
  simp only [componentIndexes, bind_eq_ok, exists_unit, pure_eq_ok] at h
  obtain ⟨-, more, -, seen, hseen, -, rfl⟩ := h
  have hinv := foldlM_inv (fun done seen => (∀ index ∈ done, index.Accepted args.codename) ∧
    (done.map Index.kind).Nodup ∧ seen = done.map Index.kind) ?_ (by simp) hseen
  · exact ⟨hinv.1, hinv.2.1⟩
  · rintro done _ index seen' ⟨hdone, hnodup, rfl⟩ hstep
    obtain ⟨haccepted, hnew, rfl⟩ := checkIndex_eq_ok hstep
    exact ⟨List.forall_mem_append.2 ⟨hdone, by simpa using haccepted⟩, nodup_map_concat hnodup hnew,
      by rw [List.map_append, List.map_singleton, Index.kind]⟩

theorem copy_eq_ok {tree tree' : Tree} {source : String} {destination : Path} (hplain : tree.Plain)
    (hnames : Names destination) (hne : destination ≠ [])
    (h : copy files tree source destination = .ok tree') :
    ∃ content, files source = .ok content ∧ tree.Wrote [(destination, content)] tree' := by
  rw [copy, bind_eq_ok] at h
  obtain ⟨content, hfile, h⟩ := h
  exact ⟨content, hfile, hplain.put_file hnames hne h⟩

theorem names_releasePath {name : String} (hcodename : isIdentifier args.codename = true)
    (hname : IsName name.toList) : Names (releasePath args.codename name) := by
  simp only [Names, releasePath, List.forall_mem_cons]
  exact ⟨isName_iff.2 (by decide), isName_of_isIdentifier hcodename, hname, List.forall_mem_nil _⟩

/-- What is staged for an index. -/
def IsStagedIndex (T : Tools) (files : String → Except Exn Bytes) (index : Index)
    (write : Path × Bytes) : Prop :=
  ∃ compressed content, files index.path = .ok compressed ∧ T.decompress compressed = .ok content ∧
    write = (stagedPath index, content)

theorem stageReleaseFiles_eq_ok {tree tree' : Tree} {indexes : List Index} (hplain : tree.Plain)
    (hcodename : isIdentifier args.codename = true)
    (hindexes : ∀ index ∈ indexes, index.Accepted args.codename)
    (h : stageReleaseFiles T files args tree indexes = .ok tree') :
    ∃ inrelease release releaseGpg writes, files args.inrelease = .ok inrelease ∧
      files args.release = .ok release ∧ files args.releaseGpg = .ok releaseGpg ∧
      List.Forall₂ (IsStagedIndex T files) indexes writes ∧
      tree.Wrote ([(releasePath args.codename "InRelease", inrelease),
        (releasePath args.codename "Release", release),
        (releasePath args.codename "Release.gpg", releaseGpg)] ++ writes) tree' := by
  simp only [stageReleaseFiles, bind_eq_ok] at h
  obtain ⟨tree₁, h₁, tree₂, h₂, tree₃, h₃, h⟩ := h
  obtain ⟨inrelease, hinrelease, hwrote₁⟩ :=
    copy_eq_ok hplain (names_releasePath hcodename (isName_iff.2 (by decide))) (List.cons_ne_nil _ _) h₁
  obtain ⟨release, hrelease, hwrote₂⟩ :=
    copy_eq_ok hwrote₁.plain (names_releasePath hcodename (isName_iff.2 (by decide)))
      (List.cons_ne_nil _ _) h₂
  obtain ⟨releaseGpg, hreleaseGpg, hwrote₃⟩ :=
    copy_eq_ok hwrote₂.plain (names_releasePath hcodename (isName_iff.2 (by decide)))
      (List.cons_ne_nil _ _) h₃
  have hstep : ∀ index ∈ indexes, ∀ tree tree' : Tree, tree.Plain →
    stageIndex T files tree index = .ok tree' →
      ∃ write, IsStagedIndex T files index write ∧ tree.Wrote [write] tree' := by
    intro index hindex tree tree' hplain h
    simp only [stageIndex, bind_eq_ok] at h
    obtain ⟨compressed, hfile, content, hdecompress, h⟩ := h
    have haccepted := hindexes index hindex
    have hpath := stagedPath_eq hcodename haccepted
    refine ⟨_, ⟨compressed, content, hfile, hdecompress, rfl⟩, hplain.put_file ?_ ?_ h⟩
    · rw [hpath]
      intro c hc
      obtain ⟨part, hpart, rfl⟩ := List.mem_map.1 hc
      exact names_indexParts hcodename haccepted.component haccepted.architecture part hpart
    · rw [hpath]
      exact List.cons_ne_nil _ _
  obtain ⟨writes, hwrites, hwrote⟩ := Tree.wrote_foldlM hstep hwrote₃.plain h
  exact ⟨inrelease, release, releaseGpg, writes, hinrelease, hrelease, hreleaseGpg, hwrites,
    ((hwrote₁.append hwrote₂).append hwrote₃).append hwrote⟩

/-! ## The lock -/

/-- The table of the locked packages. -/
structure Locked (expected : Dict PackageKey LockedFile) : Prop where
  keys : expected.keys.Nodup
  filenames : (expected.map fun item => item.2.filename).Nodup
  localNames : (expected.map fun item => item.2.localName).Nodup
  filename : ∀ item ∈ expected, safePackagePath item.2.filename = .ok item.2.filename

theorem lockedPackages_locked {records : List String} {expected : Dict PackageKey LockedFile}
    (h : lockedPackages records = .ok expected) : Locked expected := by
  refine foldlM_inv (fun _ expected => Locked expected) ?_
    ⟨by simp [Dict.keys], by simp, by simp, fun _ h => by cases h⟩ h
  intro _ expected record expected' hlocked hstep
  unfold addLocked at hstep
  split at hstep
  · next name version architecture filename size digest localName _ =>
    simp only [bind_eq_ok, exists_unit, raiseIf_eq_ok, pure_eq_ok] at hstep
    obtain ⟨-, relative, hpath, hkey, hfilename, hlocal, number, -, rfl⟩ := hstep
    have hnew : (name, version, architecture) ∉ expected.keys := fun hmem => hkey (Dict.get_isSome.2 hmem)
    obtain ⟨rfl, -⟩ := pathOf_safePackagePath hpath
    rw [Dict.set_of_notMem hnew]
    exact ⟨nodup_map_concat hlocked.keys hnew, nodup_map_concat hlocked.filenames hfilename,
      nodup_map_concat hlocked.localNames hlocal,
      List.forall_mem_append.2 ⟨hlocked.filename, by simpa using hpath⟩⟩
  · cases hstep

/-- The record of a package in the paragraphs of an index. -/
def Listed (T : Tools) (index : Bytes) (key : PackageKey) (record : IndexRecord) : Prop :=
  ∃ text records paragraph, T.decodeUtf8 index = some text ∧ paragraphs text = .ok records ∧
    paragraph ∈ records ∧ paragraphKey paragraph = some key ∧ paragraphRecord paragraph = .ok record

/-- All that was read is listed by an index. -/
def AllListed (T : Tools) (indexes : List (Bytes × String)) (actual : Dict PackageKey IndexRecord) : Prop :=
  ∀ key record, actual.get key = some record → ∃ index ∈ indexes, Listed T index.1 key record

theorem AllListed.addIndex {expected : Dict PackageKey LockedFile} {done : List (Bytes × String)}
    {actual actual' : Dict PackageKey IndexRecord} {index : Bytes × String} (h : AllListed T done actual)
    (hstep : addIndex expected T.decodeUtf8 actual index = .ok actual') :
    AllListed T (done ++ [index]) actual' := by
  unfold DebianSnapshot.addIndex at hstep
  split at hstep
  · next text htext =>
    rw [bind_eq_ok] at hstep
    obtain ⟨records, hrecords, hstep⟩ := hstep
    have hdone : AllListed T (done ++ [index]) actual := by
      intro key record hget
      obtain ⟨index', hmem, hlisted⟩ := h key record hget
      exact ⟨index', List.mem_append_left _ hmem, hlisted⟩
    refine foldlM_mem_inv (AllListed T (done ++ [index])) ?_ hdone hstep
    intro actual₁ paragraph actual₂ hparagraph hactual hadd key record hget
    simp only [addParagraph, bind_eq_ok, exists_unit] at hadd
    obtain ⟨-, -, record', hrecord, hadd⟩ := hadd
    split at hadd
    · next key' hkey =>
      simp only [bind_eq_ok, exists_unit, pure_eq_ok] at hadd
      obtain ⟨-, rfl⟩ := hadd
      split_ifs at hget
      · rw [Dict.get_set] at hget
        split_ifs at hget with heq
        · cases hget
          exact ⟨index, by simp, text, records, paragraph, htext, hrecords, hparagraph, heq ▸ hkey, hrecord⟩
        · exact hactual key record hget
      · exact hactual key record hget
    · rw [pure_eq_ok] at hadd
      exact hactual key record (hadd ▸ hget)
  · cases hstep

theorem readPackageMetadata_listed {expected : Dict PackageKey LockedFile} {indexes : List (Bytes × String)}
    {actual : Dict PackageKey IndexRecord}
    (h : readPackageMetadata expected T.decodeUtf8 indexes = .ok actual) :
    AllListed T indexes actual :=
  foldlM_inv (AllListed T) (fun _ _ _ _ hdone hstep => hdone.addIndex hstep) (fun _ _ h => by cases h) h

/-- What the indexes say of a locked package. -/
theorem verifyPackageMetadata_listed {expected : Dict PackageKey LockedFile} {indexes : List (Bytes × String)}
    (h : verifyPackageMetadata expected T.decodeUtf8 indexes = .ok ()) {key : PackageKey} {file : LockedFile}
    (hget : expected.get key = some file) :
    ∃ index ∈ indexes, Listed T index.1 key (file.filename, file.size, file.digest) := by
  simp only [verifyPackageMetadata, bind_eq_ok, exists_unit] at h
  obtain ⟨actual, hread, -, h⟩ := h
  have hmem : key ∈ expected.keys.insertionSort keyBefore :=
    (List.mem_insertionSort keyBefore).2 (Dict.mem_keys_of_get hget)
  have hcheck := forM_eq_ok.1 h key hmem
  rw [checkPackage, raiseIf_eq_ok, ne_eq, not_not, hget] at hcheck
  exact readPackageMetadata_listed hread key _ hcheck

/-! ## Packages -/

theorem recordByName_mem {expected : Dict PackageKey LockedFile} {localName : String} {file : LockedFile}
    (h : recordByName expected localName = some file) :
    ∃ key, (key, file) ∈ expected ∧ file.localName = localName := by
  obtain ⟨⟨key, file'⟩, hfind, rfl⟩ := Option.map_eq_some_iff.1 h
  exact ⟨key, List.mem_reverse.1 (List.mem_of_find?_eq_some hfind), by simpa using List.find?_some hfind⟩

/-- What is staged for a package. -/
def IsStagedPackage (T : Tools) (files : String → Except Exn Bytes) (expected : Dict PackageKey LockedFile)
    (item : String × String) (write : Path × Bytes) : Prop :=
  ∃ key file content, (key, file) ∈ expected ∧ file.localName = item.2 ∧ files item.1 = .ok content ∧
    T.sha256 content = file.digest ∧ content.length = file.size ∧ write = (pathOf file.filename, content)

theorem stagePackages_eq_ok {tree tree' : Tree} {expected : Dict PackageKey LockedFile}
    (hplain : tree.Plain) (h : stagePackages T files args tree expected = .ok tree') :
    ∃ writes, (∀ item ∈ expected, item.2.localName ∈ args.packageNames) ∧
      args.packages.length = args.packageNames.length ∧
      List.Forall₂ (IsStagedPackage T files expected) (args.packages.zip args.packageNames) writes ∧
      tree.Wrote writes tree' := by
  simp only [stagePackages, bind_eq_ok, exists_unit, raiseIf_eq_ok, ne_eq, not_not, pure_eq_ok] at h
  obtain ⟨hnames, tree₁, h, hlength, rfl⟩ := h
  have hstep : ∀ item ∈ args.packages.zip args.packageNames, ∀ tree tree' : Tree, tree.Plain →
      stagePackage T files expected tree item = .ok tree' →
      ∃ write, IsStagedPackage T files expected item write ∧ tree.Wrote [write] tree' := by
    intro item _ tree tree' hplain h
    unfold stagePackage at h
    split at h
    · next file hrecord =>
      obtain ⟨key, hmem, hlocal⟩ := recordByName_mem hrecord
      simp only [bind_eq_ok, exists_unit, verifyPackage_eq_ok] at h
      obtain ⟨⟨content, hfile, hdigest, hsize⟩, relative, hpath, h⟩ := h
      obtain ⟨rfl, hpathNames, hpool, -⟩ := pathOf_safePackagePath hpath
      obtain ⟨content', hfile', hwrote⟩ := copy_eq_ok hplain hpathNames
        (fun hnil => by rw [hnil] at hpool; cases hpool) h
      cases hfile.symm.trans hfile'
      exact ⟨_, ⟨key, file, content, hmem, hlocal, hfile, hdigest, hsize, rfl⟩, hwrote⟩
    · cases h
  obtain ⟨writes, hwrites, hwrote⟩ := Tree.wrote_foldlM hstep hplain h
  refine ⟨writes, fun item hitem => ?_, hlength, hwrites, hwrote⟩
  rw [← List.mem_toFinset, ← hnames, List.mem_toFinset]
  exact List.mem_map.2 ⟨item, hitem, rfl⟩

/-! ## The whole action -/

/-- A run of the action: its inputs, what it has checked, and what it has written. -/
structure Staged (T : Tools) (files : String → Except Exn Bytes) (args : Args) (tree : Tree)
    (indexes : List Index) (expected : Dict PackageKey LockedFile)
    (inrelease payload release releaseGpg : Bytes)
    (indexWrites packageWrites : List (Path × Bytes)) : Prop where
  codename : isIdentifier args.codename = true
  indexes_eq : componentIndexes args = .ok indexes
  expected_eq : lockedPackages args.packageRecords = .ok expected
  inrelease_eq : files args.inrelease = .ok inrelease
  release_eq : files args.release = .ok release
  releaseGpg_eq : files args.releaseGpg = .ok releaseGpg
  inrelease_digest : T.sha256 inrelease = args.inreleaseSha256
  release_digest : T.sha256 release = args.releaseSha256
  releaseGpg_digest : T.sha256 releaseGpg = args.releaseGpgSha256
  index_digest : ∀ index ∈ indexes, ∃ content, files index.path = .ok content ∧
    T.sha256 content = index.digest
  cleartext : T.verifyCleartext inrelease = .ok payload
  detached : T.verifyDetached releaseGpg release = .ok ()
  matches_ : authenticatedReleaseMatches payload release = true
  listed : ∀ index ∈ indexes, ∃ content, files index.path = .ok content ∧
    DebianRelease.releaseHash T.toPlatform payload index.relative.toList content.length
      index.digest.toList = .ok ()
  index_writes : List.Forall₂ (IsStagedIndex T files) indexes indexWrites
  metadata : ∀ key file, expected.get key = some file → ∃ write ∈ indexWrites,
    Listed T write.2 key (file.filename, file.size, file.digest)
  package_names : ∀ item ∈ expected, item.2.localName ∈ args.packageNames
  package_count : args.packages.length = args.packageNames.length
  package_writes : List.Forall₂ (IsStagedPackage T files expected) (args.packages.zip args.packageNames)
    packageWrites
  file : ∀ p content, tree.node p = some (.file content) → (p, content) ∈
    [(releasePath args.codename "InRelease", inrelease), (releasePath args.codename "Release", release),
      (releasePath args.codename "Release.gpg", releaseGpg)] ++ indexWrites ++ packageWrites
  written : ∀ p ∈ ([(releasePath args.codename "InRelease", inrelease),
    (releasePath args.codename "Release", release), (releasePath args.codename "Release.gpg", releaseGpg)] ++
      indexWrites ++ packageWrites).map Prod.fst, ∃ content, tree.node p = some (.file content)

theorem verifySignature_eq_ok {tree : Tree} (h : verifySignature T files args [] = .ok tree) :
    ∃ inrelease payload release releaseGpg, files args.inrelease = .ok inrelease ∧
      T.verifyCleartext inrelease = .ok payload ∧ files args.release = .ok release ∧
      files args.releaseGpg = .ok releaseGpg ∧ T.verifyDetached releaseGpg release = .ok () ∧
      Tree.Wrote [] [(verifiedRelease, payload)] tree := by
  simp only [verifySignature, bind_eq_ok, exists_unit, pure_eq_ok, mapError_eq_ok] at h
  obtain ⟨inrelease, hinrelease, payload, hcleartext, tree', hwrite, release, hrelease,
    releaseGpg, hreleaseGpg,
    hdetached, rfl⟩ := h
  have hnames : Names verifiedRelease := by
    simp only [Names, verifiedRelease, List.forall_mem_cons]
    exact ⟨isName_iff.2 (by decide), List.forall_mem_nil _⟩
  exact ⟨inrelease, payload, release, releaseGpg, hinrelease, hcleartext, hrelease, hreleaseGpg, hdetached,
    Tree.plain_nil.put_file hnames (List.cons_ne_nil _ _) hwrite⟩

theorem readFile_eq_ok {tree : Tree} {path : Path} {content : Bytes} (hplain : tree.Plain)
    (hnames : Names path)
    (h : readFile tree path = .ok content) : tree.node path = some (.file content) := by
  unfold readFile at h
  split at h
  · next content' hstat =>
    cases h
    exact hplain.node_of_stat hnames hstat
  · cases h

theorem verifyAuthenticatedRelease_eq_ok {tree : Tree} {indexes : List Index} {payload : Bytes}
    (hwrote : Tree.Wrote [] [(verifiedRelease, payload)] tree)
    (h : verifyAuthenticatedRelease T files args tree indexes = .ok ()) :
    (∃ release, files args.release = .ok release ∧ authenticatedReleaseMatches payload release = true) ∧
      ∀ index ∈ indexes, ∃ content, files index.path = .ok content ∧
        DebianRelease.releaseHash T.toPlatform payload index.relative.toList content.length
          index.digest.toList = .ok () := by
  simp only [verifyAuthenticatedRelease, bind_eq_ok, exists_unit, raiseIf_eq_ok, Bool.not_eq_false] at h
  obtain ⟨payload', hread, release, hrelease, hmatches, hlisted⟩ := h
  have hnames : Names verifiedRelease := by
    simp only [Names, verifiedRelease, List.forall_mem_cons]
    exact ⟨isName_iff.2 (by decide), List.forall_mem_nil _⟩
  have hmem := hwrote.mem (readFile_eq_ok hwrote.plain hnames hread)
  obtain ⟨-, rfl⟩ := Prod.mk.inj (List.mem_singleton.1 hmem)
  refine ⟨⟨release, hrelease, hmatches⟩, fun index hindex => ?_⟩
  exact bind_eq_ok.1 (forM_eq_ok.1 hlisted index hindex)

theorem verifyStagedMetadata_eq_ok {tree : Tree} {indexes : List Index}
    {expected : Dict PackageKey LockedFile}
    (h : verifyStagedMetadata T tree indexes expected = .ok ()) {key : PackageKey} {file : LockedFile}
    (hget : expected.get key = some file) :
    ∃ index ∈ indexes, ∃ content, readFile tree (stagedPath index) = .ok content ∧
      Listed T content key (file.filename, file.size, file.digest) := by
  rw [verifyStagedMetadata, bind_eq_ok] at h
  obtain ⟨stagedIndexes, hread, h⟩ := h
  obtain ⟨staged, hstaged, hlisted⟩ := verifyPackageMetadata_listed h hget
  obtain ⟨index, hindex, hcontent⟩ := forall₂_mem_right (mapM_eq_ok.1 hread) hstaged
  rw [bind_eq_ok] at hcontent
  obtain ⟨content, hcontent, heq⟩ := hcontent
  cases heq
  exact ⟨index, hindex, content, hcontent, hlisted⟩

/-- Paths that are written are not the one of the payload. -/
theorem ne_verifiedRelease {p : Path} {first : String} (h : p.head? = some first.toList)
    (hne : first ≠ "verified-release") : p ≠ verifiedRelease := by
  rintro rfl
  rw [verifiedRelease, List.head?_cons] at h
  exact hne (String.toList_inj.1 (Option.some.inj h)).symm

theorem verifyInputDigests_eq_ok {indexes : List Index}
    (h : verifyInputDigests T files args indexes = .ok ()) :
    (∃ content, files args.inrelease = .ok content ∧ T.sha256 content = args.inreleaseSha256) ∧
      (∃ content, files args.release = .ok content ∧ T.sha256 content = args.releaseSha256) ∧
      (∃ content, files args.releaseGpg = .ok content ∧ T.sha256 content = args.releaseGpgSha256) ∧
      ∀ index ∈ indexes, ∃ content, files index.path = .ok content ∧ T.sha256 content = index.digest := by
  simp only [verifyInputDigests, bind_eq_ok, exists_unit, verifyDigest_eq_ok] at h
  obtain ⟨hinrelease, hrelease, hreleaseGpg, hindexes⟩ := h
  exact ⟨hinrelease, hrelease, hreleaseGpg, fun index hindex =>
    verifyDigest_eq_ok.1 (forM_eq_ok.1 hindexes index hindex)⟩

/-- The paths of what is staged for indexes and packages. -/
theorem indexWrites_path {indexes : List Index} {writes : List (Path × Bytes)}
    (hcodename : isIdentifier args.codename = true)
    (hindexes : ∀ index ∈ indexes, index.Accepted args.codename)
    (h : List.Forall₂ (IsStagedIndex T files) indexes writes) {write : Path × Bytes}
    (hwrite : write ∈ writes) :
    ∃ index ∈ indexes, ∃ compressed, files index.path = .ok compressed ∧
      T.decompress compressed = .ok write.2 ∧
      write.1 = indexPath args.codename index.component index.architecture := by
  obtain ⟨index, hindex, compressed, content, hfile, hdecompress, rfl⟩ := forall₂_mem_right h hwrite
  have hpath := stagedPath_eq hcodename (hindexes index hindex)
  dsimp only
  exact ⟨index, hindex, compressed, hfile, hdecompress, hpath⟩

theorem packageWrites_path {expected : Dict PackageKey LockedFile} {items : List (String × String)}
    {writes : List (Path × Bytes)} (hlocked : Locked expected)
    (h : List.Forall₂ (IsStagedPackage T files expected) items writes) {write : Path × Bytes}
    (hwrite : write ∈ writes) :
    ∃ key file, (key, file) ∈ expected ∧ T.sha256 write.2 = file.digest ∧ write.2.length = file.size ∧
      write.1 = pathOf file.filename ∧ write.1.head? = some "pool".toList := by
  obtain ⟨item, -, key, file, content, hmem, -, -, hdigest, hsize, rfl⟩ := forall₂_mem_right h hwrite
  exact ⟨key, file, hmem, hdigest, hsize, rfl, (pathOf_safePackagePath (hlocked.filename _ hmem)).2.2.1⟩

/-- What a run that returns has done. -/
theorem stage_eq_ok {tree : Tree} (h : stage T files args = .ok tree) :
    ∃ indexes expected inrelease payload release releaseGpg indexWrites packageWrites,
      Staged T files args tree indexes expected inrelease payload release releaseGpg indexWrites
        packageWrites := by
  simp only [stage, bind_eq_ok, exists_unit, raiseIf_eq_ok, Bool.not_eq_false] at h
  obtain ⟨hcodename, indexes, hindexes, hdigests, tree₁, hsignature, hrelease, tree₂, hstage,
    expected, hexpected,
    hmetadata, tree₃, hpackages, hunlink⟩ := h
  obtain ⟨inrelease, payload, release, releaseGpg, hinrelease, hcleartext, hreleaseFile,
    hreleaseGpg, hdetached,
    hwrote₁⟩ := verifySignature_eq_ok hsignature
  obtain ⟨⟨release', hrelease', hmatches⟩, hlisted⟩ := verifyAuthenticatedRelease_eq_ok hwrote₁ hrelease
  cases hreleaseFile.symm.trans hrelease'
  obtain ⟨inrelease', release', releaseGpg', indexWrites, hinrelease', hrelease', hreleaseGpg',
      hindexWrites, hwrote₂⟩ :=
    stageReleaseFiles_eq_ok hwrote₁.plain hcodename (componentIndexes_accepted hindexes).1 hstage
  cases hinrelease.symm.trans hinrelease'
  cases hreleaseFile.symm.trans hrelease'
  cases hreleaseGpg.symm.trans hreleaseGpg'
  obtain ⟨packageWrites, hnames, hcount, hpackageWrites, hwrote₃⟩ :=
    stagePackages_eq_ok hwrote₂.plain hpackages
  obtain ⟨⟨_, hfile₁, hdigest₁⟩, ⟨_, hfile₂, hdigest₂⟩, ⟨_, hfile₃, hdigest₃⟩, hdigests⟩ :=
    verifyInputDigests_eq_ok hdigests
  cases hinrelease.symm.trans hfile₁
  cases hreleaseFile.symm.trans hfile₂
  cases hreleaseGpg.symm.trans hfile₃
  have haccepted := (componentIndexes_accepted hindexes).1
  have hlocked := lockedPackages_locked hexpected
  have hheads : ∀ write ∈ [(releasePath args.codename "InRelease", inrelease),
      (releasePath args.codename "Release", release),
      (releasePath args.codename "Release.gpg", releaseGpg)] ++
        indexWrites ++ packageWrites, write.1 ≠ verifiedRelease := by
    refine List.forall_mem_append.2 ⟨List.forall_mem_append.2
      ⟨?_, fun write hwrite => ?_⟩, fun write hwrite => ?_⟩
    · simp only [List.forall_mem_cons]
      refine ⟨?_, ?_, ?_, List.forall_mem_nil _⟩
      all_goals exact ne_verifiedRelease rfl (by decide)
    · obtain ⟨index, -, -, -, -, hpath⟩ := indexWrites_path hcodename haccepted hindexWrites hwrite
      rw [hpath]
      exact ne_verifiedRelease rfl (by decide)
    · obtain ⟨_, _, _, _, _, _, hhead⟩ := packageWrites_path hlocked hpackageWrites hwrite
      exact ne_verifiedRelease hhead (by decide)
  have hwrote := (hwrote₁.append hwrote₂).append hwrote₃
  have hentry : Tree.entry tree₃ verifiedRelease = some verifiedRelease :=
    Tree.entry_of_allDirs (by simp [Names]) Tree.allDirs_nil
  have htree : ∀ p, tree.node p = if verifiedRelease = p then none else tree₃.node p := by
    unfold Tree.unlink at hunlink
    rw [hentry] at hunlink
    dsimp only at hunlink
    split at hunlink
    · cases hunlink
    · cases hunlink
    · cases hunlink
      exact Tree.node_erase (List.cons_ne_nil _ _)
  refine ⟨indexes, expected, inrelease, payload, release, releaseGpg, indexWrites, packageWrites,
    hcodename, hindexes,
    hexpected, hinrelease, hreleaseFile, hreleaseGpg, hdigest₁, hdigest₂, hdigest₃, hdigests,
    hcleartext, hdetached,
    hmatches, hlisted, hindexWrites, fun key file hget => ?_, hnames, hcount, hpackageWrites,
    fun p content hnode => ?_, fun p hp => ?_⟩
  · obtain ⟨index, hindex, content, hread, hlist⟩ := verifyStagedMetadata_eq_ok hmetadata hget
    have hpath := stagedPath_eq hcodename (haccepted index hindex)
    have hnames : Names (stagedPath index) := by
      rw [hpath]
      exact List.forall_mem_map.2 (names_indexParts hcodename (haccepted index hindex).component
        (haccepted index hindex).architecture)
    have hmem := (hwrote₁.append hwrote₂).mem (readFile_eq_ok hwrote₂.plain hnames hread)
    rw [hpath] at hmem
    rcases List.mem_append.1 hmem with hmem | hmem
    · exact absurd (Prod.mk.inj (List.mem_singleton.1 hmem)).1 (ne_verifiedRelease rfl (by decide))
    · rcases List.mem_append.1 hmem with hmem | hmem
      · simp [indexPath, indexParts, releasePath] at hmem
      · exact ⟨_, hmem, hlist⟩
  · rw [htree] at hnode
    split_ifs at hnode with hne
    rcases List.mem_append.1 (hwrote.mem hnode) with hmem | hmem
    · rcases List.mem_append.1 hmem with hmem | hmem
      · exact absurd (Prod.mk.inj (List.mem_singleton.1 hmem)).1.symm hne
      · exact List.mem_append_left _ hmem
    · exact List.mem_append_right _ hmem
  · obtain ⟨write, hwrite, rfl⟩ := List.mem_map.1 hp
    obtain ⟨content, hnode⟩ := hwrote.written write.1 (List.mem_map.2 ⟨write, by
      rw [List.append_assoc] at hwrite ⊢
      exact List.mem_append_right _ (by simpa using hwrite), rfl⟩)
    exact ⟨content, by rw [htree, if_neg (hheads write hwrite).symm, hnode]⟩

/-! ## Authenticity -/

section
variable (T : Tools) (codename : String) (inrelease payload : Bytes)

/-- The release lists the compressed index, once, with its size and its digest. -/
def AuthenticIndex (component architecture : String) (content : Bytes) : Prop :=
  ∃ compressed entries entry, T.decompress compressed = .ok content ∧
    DebianRelease.sha256Entries T.toPlatform payload = .ok entries ∧
    (entries.filter fun e => e.path =
      (component ++ "/binary-" ++ architecture ++ "/Packages.xz").toList) = [entry] ∧
    entry.size = compressed.length ∧ T.lower entry.digest = T.lower (T.sha256 compressed).toList

/-- Files that the signature of the release authenticates, with their places. -/
inductive Authentic : Path → Bytes → Prop
  | inrelease : Authentic (releasePath codename "InRelease") inrelease
  | release {content : Bytes} (h : authenticatedReleaseMatches payload content = true) :
    Authentic (releasePath codename "Release") content
  | releaseGpg {release content : Bytes} (h : authenticatedReleaseMatches payload release = true)
    (hdetached : T.verifyDetached content release = .ok ()) :
    Authentic (releasePath codename "Release.gpg") content
  | index {component architecture : String} {content : Bytes}
    (h : AuthenticIndex T payload component architecture content) :
    Authentic (indexPath codename component architecture) content
  /-- An authentic index lists the package, with its place, its size and its digest. -/
  | package {component architecture filename : String} {index content : Bytes} {key : PackageKey}
    (hindex : AuthenticIndex T payload component architecture index)
    (hlisted : Listed T index key (filename, content.length, T.sha256 content)) :
    Authentic (pathOf filename) content

end

theorem Staged.authenticIndex {tree : Tree} {indexes : List Index} {expected : Dict PackageKey LockedFile}
    {inrelease payload release releaseGpg : Bytes} {indexWrites packageWrites : List (Path × Bytes)}
    (h : Staged T files args tree indexes expected inrelease payload release releaseGpg indexWrites
      packageWrites)
    {write : Path × Bytes} (hwrite : write ∈ indexWrites) :
    ∃ component architecture, write.1 = indexPath args.codename component architecture ∧
      AuthenticIndex T payload component architecture write.2 := by
  have haccepted := (componentIndexes_accepted h.indexes_eq).1
  obtain ⟨index, hindex, compressed, hfile, hdecompress, hpath⟩ :=
    indexWrites_path h.codename haccepted h.index_writes hwrite
  obtain ⟨content, hfile', hdigest⟩ := h.index_digest index hindex
  obtain ⟨content', hfile'', hlisted⟩ := h.listed index hindex
  cases hfile.symm.trans hfile'
  cases hfile.symm.trans hfile''
  have hslash : '/' ∉ args.codename.toList := (isName_of_isIdentifier h.codename).no_slash
  have hrelative : index.relative.toList = "dists/".toList ++ args.codename.toList ++
      '/' :: (index.component ++ "/binary-" ++ index.architecture ++ "/Packages.xz").toList := by
    rw [(haccepted index hindex).relative, indexRelative]
    simp
  rw [hrelative, DebianRelease.releaseHash_eq_ok hslash] at hlisted
  obtain ⟨entries, entry, hentries, hfilter, hsize, hentry⟩ := hlisted
  exact ⟨index.component, index.architecture, hpath, compressed, entries, entry, hdecompress,
    hentries, hfilter, hsize,
    by rw [hentry, hdigest]⟩

/-- **The chain of trust.**  Every file of a staged snapshot is authenticated by the signature of the
    InRelease file: release files by the signed payload, indexes by the release, packages by an index. -/
theorem stage_authentic (T : Tools) (files : String → Except Exn Bytes) (args : Args) (tree : Tree)
    (h : stage T files args = .ok tree) :
    ∃ inrelease payload, T.verifyCleartext inrelease = .ok payload ∧
      ∀ path content, tree.node path = some (.file content) →
        Authentic T args.codename inrelease payload path content := by
  obtain ⟨indexes, expected, inrelease, payload, release, releaseGpg, indexWrites, packageWrites, hstaged⟩ :=
    stage_eq_ok h
  have hlocked := lockedPackages_locked hstaged.expected_eq
  refine ⟨inrelease, payload, hstaged.cleartext, fun path content hnode => ?_⟩
  rcases List.mem_append.1 (hstaged.file path content hnode) with hmem | hmem
  · rcases List.mem_append.1 hmem with hmem | hmem
    · simp only [List.mem_cons, List.not_mem_nil, or_false, Prod.mk.injEq] at hmem
      rcases hmem with ⟨rfl, rfl⟩ | ⟨rfl, rfl⟩ | ⟨rfl, rfl⟩
      · exact .inrelease
      · exact .release hstaged.matches_
      · exact .releaseGpg hstaged.matches_ hstaged.detached
    · obtain ⟨component, architecture, hpath, hindex⟩ := hstaged.authenticIndex hmem
      dsimp only at hpath
      exact hpath ▸ .index hindex
  · obtain ⟨key, file, hfile, hdigest, hsize, hpath, -⟩ :=
      packageWrites_path hlocked hstaged.package_writes hmem
    obtain ⟨write, hwrite, hlisted⟩ := hstaged.metadata key file (Dict.get_of_mem hlocked.keys hfile)
    obtain ⟨component, architecture, -, hindex⟩ := hstaged.authenticIndex hwrite
    dsimp only at hpath hdigest hsize
    rw [← hdigest, ← hsize] at hlisted
    exact hpath ▸ .package hindex hlisted

/-! ## Reproducibility -/

/-- What the lock says of a file of the output: the digest of its source, which may be compressed. -/
structure Pin where
  path : Path
  digest : String
  compressed : Bool

def pins (args : Args) (indexes : List Index) (expected : Dict PackageKey LockedFile) : List Pin :=
  [⟨releasePath args.codename "InRelease", args.inreleaseSha256, false⟩,
    ⟨releasePath args.codename "Release", args.releaseSha256, false⟩,
    ⟨releasePath args.codename "Release.gpg", args.releaseGpgSha256, false⟩] ++
  indexes.map (fun index =>
    ⟨indexPath args.codename index.component index.architecture, index.digest, true⟩) ++
  expected.map fun item => ⟨pathOf item.2.filename, item.2.digest, false⟩

/-- The content comes from an input file with the digest. -/
def Pin.Holds (T : Tools) (files : String → Except Exn Bytes) (pin : Pin) (content : Bytes) : Prop :=
  ∃ source input, files source = .ok input ∧ T.sha256 input = pin.digest ∧
    if pin.compressed then T.decompress input = .ok content else input = content

theorem indexPath_inj {codename component architecture component' architecture' : String}
    (h : indexPath codename component architecture = indexPath codename component' architecture') :
    component = component' ∧ architecture = architecture' := by
  simpa [indexPath, indexParts, String.toList_inj] using h

theorem pathOf_inj {filename filename' : String} (h : safePackagePath filename = .ok filename)
    (h' : safePackagePath filename' = .ok filename') (heq : pathOf filename = pathOf filename') :
    filename = filename' := by
  rw [(pathOf_safePackagePath h).2.2.2, (pathOf_safePackagePath h').2.2.2, heq]

/-- The lock says one thing of a path. -/
theorem nodup_pins {indexes : List Index} {expected : Dict PackageKey LockedFile}
    (hindexes : (indexes.map Index.kind).Nodup) (hlocked : Locked expected) :
    ((pins args indexes expected).map Pin.path).Nodup := by
  have hindexPaths : (indexes.map fun index =>
      indexPath args.codename index.component index.architecture).Nodup := by
    refine (List.nodup_map_iff_inj_on hindexes.of_map).2 fun index hindex index' hindex' heq => ?_
    obtain ⟨hcomponent, harchitecture⟩ := indexPath_inj heq
    exact List.inj_on_of_nodup_map hindexes hindex hindex' (Prod.ext hcomponent harchitecture)
  have hpackagePaths : (expected.map fun item => pathOf item.2.filename).Nodup := by
    refine (List.nodup_map_iff_inj_on hlocked.filenames.of_map).2 fun item hitem item' hitem' heq => ?_
    exact List.inj_on_of_nodup_map hlocked.filenames hitem hitem'
      (pathOf_inj (hlocked.filename item hitem) (hlocked.filename item' hitem') heq)
  rw [pins, List.map_append, List.map_append, List.map_map, List.map_map, List.nodup_append,
    List.nodup_append]
  refine ⟨⟨?_, hindexPaths, ?_⟩, hpackagePaths, ?_⟩
  · simp [releasePath]
  · intro path hpath path' hpath' heq
    obtain ⟨index, -, rfl⟩ := List.mem_map.1 hpath'
    have hlength := congrArg List.length heq
    rw [Function.comp_apply] at hlength
    simp only [List.map_cons, List.map_nil, List.mem_cons, List.not_mem_nil, or_false] at hpath
    rcases hpath with rfl | rfl | rfl
    all_goals simp [releasePath, indexPath, indexParts] at hlength
  · intro path hpath path' hpath' heq
    obtain ⟨item, hitem, rfl⟩ := List.mem_map.1 hpath'
    have hpool := (pathOf_safePackagePath (hlocked.filename item hitem)).2.2.1
    have hdists : path.head? = some "dists".toList := by
      rcases List.mem_append.1 hpath with hpath | hpath
      · simp only [List.map_cons, List.map_nil, List.mem_cons, List.not_mem_nil, or_false] at hpath
        rcases hpath with rfl | rfl | rfl
        all_goals rfl
      · obtain ⟨index, -, rfl⟩ := List.mem_map.1 hpath
        rfl
    rw [heq, Function.comp_apply, hpool] at hdists
    exact absurd hdists (by decide)

section
variable {tree : Tree} {indexes : List Index} {expected : Dict PackageKey LockedFile}
  {inrelease payload release releaseGpg : Bytes} {indexWrites packageWrites : List (Path × Bytes)}

/-- Every file is as the lock says. -/
theorem Staged.pinned (h : Staged T files args tree indexes expected inrelease payload release releaseGpg
    indexWrites packageWrites) {path : Path} {content : Bytes}
    (hnode : tree.node path = some (.file content)) :
    ∃ pin ∈ pins args indexes expected, pin.path = path ∧ pin.Holds T files content := by
  rcases List.mem_append.1 (h.file path content hnode) with hmem | hmem
  · rcases List.mem_append.1 hmem with hmem | hmem
    · simp only [List.mem_cons, List.not_mem_nil, or_false, Prod.mk.injEq] at hmem
      rcases hmem with ⟨rfl, rfl⟩ | ⟨rfl, rfl⟩ | ⟨rfl, rfl⟩
      · exact ⟨_, List.mem_cons_self, rfl, _, _, h.inrelease_eq, h.inrelease_digest, rfl⟩
      · exact ⟨_, List.mem_cons_of_mem _ List.mem_cons_self, rfl, _, _, h.release_eq, h.release_digest, rfl⟩
      · exact ⟨_, List.mem_cons_of_mem _ (List.mem_cons_of_mem _ List.mem_cons_self), rfl, _, _,
          h.releaseGpg_eq,
          h.releaseGpg_digest, rfl⟩
    · obtain ⟨index, hindex, compressed, hfile, hdecompress, hpath⟩ :=
        indexWrites_path h.codename (componentIndexes_accepted h.indexes_eq).1 h.index_writes hmem
      obtain ⟨compressed', hfile', hdigest⟩ := h.index_digest index hindex
      cases hfile.symm.trans hfile'
      exact ⟨_, List.mem_append_left _ (List.mem_append_right _
        (List.mem_map.2 ⟨index, hindex, rfl⟩)), hpath.symm,
        _, _, hfile, hdigest, hdecompress⟩
  · obtain ⟨item, -, key, file, input, hfile, -, hinput, hdigest, -, heq⟩ :=
      forall₂_mem_right h.package_writes hmem
    cases heq
    exact ⟨_, List.mem_append_right _ (List.mem_map.2 ⟨_, hfile, rfl⟩), rfl, _, _, hinput, hdigest, rfl⟩

/-- All that the lock names is there. -/
theorem Staged.complete (h : Staged T files args tree indexes expected inrelease payload release releaseGpg
    indexWrites packageWrites) {pin : Pin} (hpin : pin ∈ pins args indexes expected) :
    ∃ content, tree.node pin.path = some (.file content) := by
  refine h.written pin.path ?_
  rw [List.map_append, List.map_append, List.mem_append, List.mem_append]
  rcases List.mem_append.1 hpin with hpin | hpin
  · rcases List.mem_append.1 hpin with hpin | hpin
    · refine Or.inl (Or.inl ?_)
      simp only [List.mem_cons, List.not_mem_nil, or_false] at hpin
      rcases hpin with rfl | rfl | rfl
      all_goals simp
    · obtain ⟨index, hindex, rfl⟩ := List.mem_map.1 hpin
      obtain ⟨write, hwrite, _, _, -, -, rfl⟩ := forall₂_mem_right h.index_writes.flip hindex
      have hpath := stagedPath_eq h.codename ((componentIndexes_accepted h.indexes_eq).1 index hindex)
      refine Or.inl (Or.inr (List.mem_map.2 ⟨_, hwrite, ?_⟩))
      dsimp only
      exact hpath
  · obtain ⟨item, hitem, rfl⟩ := List.mem_map.1 hpin
    have hlocked := lockedPackages_locked h.expected_eq
    have hname : item.2.localName ∈ (args.packages.zip args.packageNames).map Prod.snd := by
      rw [List.map_snd_zip h.package_count.ge]
      exact h.package_names item hitem
    obtain ⟨pair, hpair, hlocal⟩ := List.mem_map.1 hname
    obtain ⟨write, hwrite, key, file, _, hfile, hlocal', -, -, -, rfl⟩ :=
      forall₂_mem_right h.package_writes.flip hpair
    have hsame : (key, file) = item := List.inj_on_of_nodup_map hlocked.localNames hfile hitem
      (hlocal'.trans hlocal)
    exact Or.inr (List.mem_map.2 ⟨_, hwrite, by rw [← hsame]⟩)

/-- A file of one run is in another run with the lock. -/
theorem Staged.file_of_file {files' : String → Except Exn Bytes} {tree' : Tree}
    {inrelease' payload' release' releaseGpg' : Bytes} {indexWrites' packageWrites' : List (Path × Bytes)}
    (h : Staged T files args tree indexes expected inrelease payload release releaseGpg indexWrites
      packageWrites)
    (h' : Staged T files' args tree' indexes expected inrelease' payload' release' releaseGpg' indexWrites'
      packageWrites')
    (hcollision : ∀ source source' input input', files source = .ok input → files' source' = .ok input' →
      T.sha256 input = T.sha256 input' → input = input')
    {path : Path} {content : Bytes} (hnode : tree.node path = some (.file content)) :
    tree'.node path = some (.file content) := by
  obtain ⟨pin, hpin, rfl, source, input, hsource, hdigest, hcontent⟩ := h.pinned hnode
  obtain ⟨content', hnode'⟩ := h'.complete hpin
  obtain ⟨pin', hpin', hpath, source', input', hsource', hdigest', hcontent'⟩ := h'.pinned hnode'
  have hsame : pin' = pin := List.inj_on_of_nodup_map (nodup_pins (componentIndexes_accepted h.indexes_eq).2
    (lockedPackages_locked h.expected_eq)) hpin' hpin hpath
  rw [hsame] at hdigest' hcontent'
  rw [← hcollision source source' input input' hsource hsource' (hdigest.trans hdigest'.symm)] at hcontent'
  have heq : content' = content := by
    split_ifs at hcontent hcontent' with hcompressed
    · exact Except.ok.inj (hcontent'.symm.trans hcontent)
    · exact hcontent'.symm.trans hcontent
  rw [hnode', heq]

end

/-- **The lock determines the snapshot.**  Two runs with one lock stage the same files, whatever their input
    files are, unless two of these collide under the hash. -/
theorem stage_reproducible (T : Tools) (files files' : String → Except Exn Bytes) (args : Args)
    (tree tree' : Tree) (h : stage T files args = .ok tree) (h' : stage T files' args = .ok tree')
    (hcollision : ∀ source source' input input', files source = .ok input → files' source' = .ok input' →
      T.sha256 input = T.sha256 input' → input = input') :
    ∀ path content, tree.node path = some (.file content) ↔ tree'.node path = some (.file content) := by
  obtain ⟨indexes, expected, _, _, _, _, _, _, hstaged⟩ := stage_eq_ok h
  obtain ⟨indexes', expected', _, _, _, _, _, _, hstaged'⟩ := stage_eq_ok h'
  cases hstaged.indexes_eq.symm.trans hstaged'.indexes_eq
  cases hstaged.expected_eq.symm.trans hstaged'.expected_eq
  intro path content
  refine ⟨hstaged.file_of_file hstaged' hcollision, hstaged'.file_of_file hstaged ?_⟩
  intro source source' input input' hinput hinput' hdigest
  exact (hcollision source' source input' input hinput' hinput hdigest.symm).symm

end RulesMkosi.DebianSnapshot
