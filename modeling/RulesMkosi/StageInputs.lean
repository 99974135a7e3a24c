/-
  Staging of declared sources (`mkosi/private/stage_inputs.py`).

  Mappings `source -> destination` are expanded into a table of staged entries,
  the table is checked as a whole (`checkLayout`), and only then written
  (`copyManifest`).  The file system the sources live in is a `Host`; the
  content of a directory is a `Node`.
-/
import RulesMkosi.Lib.Result
import RulesMkosi.Lib.Dict
import RulesMkosi.Lib.PosixPath
import Mathlib.Data.List.Dedup
import Mathlib.Data.List.DropRight
import Mathlib.Data.List.Sort

namespace RulesMkosi.StageInputs

/-! ## The host file system -/

/-- What `os.scandir` finds, without following symlinks. -/
inductive Node where
  | file
  | directory (children : List (String × Node))
  | symlink (target : String)
  /-- a socket, a device or a pipe -/
  | special
  deriving Repr

/-- The file system that holds the declared sources. -/
structure Host where
  /-- what a path refers to after following symlinks; `none` if nothing -/
  node : String → Option Node
  /-- `Path.resolve()` -/
  resolve : String → String

namespace Host

def exists_ (host : Host) (path : String) : Bool := (host.node path).isSome

def isDir (host : Host) (path : String) : Bool :=
  match host.node path with
  | some (.directory _) => true
  | _ => false

def isFile (host : Host) (path : String) : Bool :=
  match host.node path with
  | some .file => true
  | _ => false

end Host

/-! ## Entries -/

inductive Kind where
  | file
  | directory
  | symlink
  deriving Repr, DecidableEq

/-- The tuple `(owner, kind, source, link_target)` of a staged path. -/
structure Entry where
  owner : String
  kind : Kind
  source : String
  linkTarget : Option String
  deriving Repr, DecidableEq

/-- The role of a mapping. -/
inductive Role where
  | tree
  | generatedTree
  | file
  | sourceFile
  | other (name : String)
  deriving Repr, DecidableEq

structure Mapping where
  source : String
  destination : String
  role : Role
  deriving Repr, DecidableEq

/-- `"/".join(part for part in parts if part)` -/
def joinNonempty (parts : List String) : String := joinSlash (parts.filter (· ≠ ""))

def normaliseRelative (path : String) : Except Exn String := do
  let p := PosixPath.parse path
  raiseIf (p.parts = [] ∨ p.isAbsolute ∨ ∃ part ∈ p.parts, part ∈ ["", ".", ".."])
    (.valueError ("invalid staged path: " ++ path))
  return joinSlash p.parts

/-- `os.path.join(directory, name)` for a name without slashes. -/
def itemPath (directory name : String) : String :=
  if endsWith directory "/" then directory ++ name else directory ++ "/" ++ name

def checkLink (host : Host) (sourcePath linkTarget root : String) : Except Exn String := do
  raiseIf (linkTarget = "" ∨ '\\' ∈ linkTarget.toList ∨ startsWith linkTarget "/" ∨
      endsWith linkTarget "/" ∨ normpath linkTarget ≠ linkTarget)
    (.valueError ("symlink target is not canonical POSIX relative syntax: " ++ sourcePath))
  let resolved := host.resolve (((PosixPath.parse sourcePath).parent.join linkTarget).str)
  raiseIf (¬ (PosixPath.parse resolved).isRelativeTo (PosixPath.parse root) ∨
      ¬ host.exists_ resolved)
    (.valueError ("symlink escapes or is dangling in declared tree: " ++ sourcePath))
  return linkTarget

def treeItemEntry (host : Host) (sourcePath : String) (node : Node) (source owner : String)
    (generated : Bool) : Except Exn Entry :=
  match node with
  | .symlink target =>
    if generated ∧ startsWith target "/" then do
      -- Bazel materialises a generated tree as absolute links to its files
      raiseIf (¬ host.isFile (host.resolve sourcePath))
        (.valueError ("generated tree transport link is not a file: " ++ sourcePath))
      return ⟨owner, .file, host.resolve sourcePath, none⟩
    else do
      let linkTarget ← checkLink host sourcePath target source
      return ⟨owner, .symlink, sourcePath, some linkTarget⟩
  | .directory _ => .ok ⟨owner, .directory, sourcePath, none⟩
  | .file => .ok ⟨owner, .file, sourcePath, none⟩
  | .special => .error (.valueError ("unsupported entry in declared tree: " ++ sourcePath))

mutual
/-- `sorted(os.scandir(directory), key=lambda entry: entry.name)`, at every level. -/
def sortItems : List (String × Node) → List (String × Node)
  | [] => []
  | (name, node) :: items =>
    (sortItems items).orderedInsert (fun a b => a.1 ≤ b.1) (name, sortNode node)
termination_by structural items => items

def sortNode : Node → Node
  | .directory children => .directory (sortItems children)
  | node => node
termination_by structural node => node
end

section
variable (host : Host) (source destination owner : String) (generated : Bool)

mutual
/-- `visit` of `_tree_entries` over the sorted items of the directory `dir`. -/
def visit : List (String × Node) → (dir relative : String) → Dict String Entry →
    Except Exn (Dict String Entry)
  | [], _, _, entries => .ok entries
  | (name, node) :: items, dir, relative, entries => do
    let entry ← treeItemEntry host (itemPath dir name) node source owner generated
    let child := joinNonempty [destination, relative, name]
    let entries ← visitBelow node entry.source (joinNonempty [relative, name])
      (entries.set child entry)
    visit items dir relative entries
termination_by structural items => items

/-- The recursive call of `visit`, made for directories only. -/
def visitBelow : Node → (dir relative : String) → Dict String Entry →
    Except Exn (Dict String Entry)
  | .directory children, dir, relative, entries => visit children dir relative entries
  | _, _, _, entries => .ok entries
termination_by structural node => node
end

end

/-- `destination.rstrip("/")` -/
def rstripSlash (s : String) : String := String.ofList (s.toList.rdropWhile (· = '/'))

def treeEntries (host : Host) (source destination owner : String) (generated : Bool) :
    Except Exn (Dict String Entry) :=
  let source := host.resolve source
  match host.node source with
  | some (.directory children) =>
    let destination := rstripSlash destination
    let entries : Dict String Entry :=
      if destination = "" then [] else Dict.set [] destination ⟨owner, .directory, source, none⟩
    visit host source destination owner generated (sortItems children) source "" entries
  | _ => .error (.valueError (source ++ " is not a directory"))

/-! ## Mappings -/

def wrapHint : String :=
  "map it through trees with mkosi_config_tree(src = ...), which keeps relative links and rejects absolute ones"

/-- The staged entries of one mapping. -/
def mappingEntries (host : Host) (source destination owner : String) (role : Role) :
    Except Exn (Dict String Entry) := do
  raiseIf ((role = .tree ∨ role = .generatedTree) ∧ ¬ host.isDir source)
    (.valueError ("source-tree mapping must be a directory: " ++ source))
  raiseIf (role = .sourceFile ∧ host.isDir source)
    (.valueError ("source file mapping " ++ source ++ " is a directory; " ++ wrapHint))
  raiseIf ((role = .file ∨ role = .sourceFile) ∧ ¬ host.isFile source)
    (.valueError ("file mapping must be a regular file: " ++ source))
  match role with
  | .tree => treeEntries host source destination owner false
  | .generatedTree => treeEntries host source destination owner true
  | .other name => .error (.valueError ("unknown mapping role: " ++ name))
  | .file | .sourceFile =>
    raiseIf (destination = "") (.valueError "a file mapping requires a destination")
    return [(destination, ⟨owner, .file, source, none⟩)]

/-- Rejects a source that aliases, contains, or is contained in an earlier mapping source. -/
def checkSourceOverlap (host : Host) (canonicalSources : Dict String String) (source : String) :
    Except Exn (Dict String String) := do
  let canonical := host.resolve source
  let path := PosixPath.parse canonical
  canonicalSources.forM fun (priorCanonical, priorSource) =>
    raiseIf (canonical = priorCanonical ∨ path.isRelativeTo (PosixPath.parse priorCanonical) ∨
        (PosixPath.parse priorCanonical).isRelativeTo path)
      (.valueError ("source alias '" ++ priorSource ++ "' and '" ++ source ++ "' overlap at '" ++
        canonical ++ "'"))
  return canonicalSources.set canonical source

/-- Merged configuration trees may share sources. -/
def overlapSources (host : Host) (merge : Bool) (canonicalSources : Dict String String)
    (source : String) : Except Exn (Dict String String) :=
  if merge then .ok canonicalSources else checkSourceOverlap host canonicalSources source

/-- Rejects a mapping nested under, or containing, another mapping, even when one side is empty. -/
def checkPrefixCollisions (entries : Dict String Entry) (destination owner : String) :
    Except Exn Unit :=
  entries.forM fun (priorPath, prior) =>
    if prior.owner = owner ∨ destination = "" ∨ priorPath = "" then .ok ()
    else if isBelow destination priorPath ∧ prior.kind = .directory ∧ endsWith prior.owner " -> ."
    then .ok ()
    else raiseIf (destination = priorPath ∨ isBelow destination priorPath ∨
        isBelow priorPath destination)
      (.valueError ("prefix staged collision between '" ++ destination ++ "' and '" ++ priorPath ++
        "'"))

/-- The tables that `_manifest` fills. -/
structure Staging where
  entries : Dict String Entry
  canonicalSources : Dict String String
  sharedOwners : Dict String (List String)
  deriving Repr, DecidableEq

/-- `shared_owners.setdefault(path, {first}).add(owner)` -/
def addSharedOwner (sharedOwners : Dict String (List String)) (path first owner : String) :
    Dict String (List String) :=
  sharedOwners.set path (((sharedOwners.get path).getD [first]).insert owner)

/-- One entry of the mapping `owner`: the body of the loop of `_add_mapping`. -/
def addEntry (merge : Bool) (owner : String) (st : Staging) (item : String × Entry) :
    Except Exn Staging := do
  let (path, entry) := item
  match st.entries.get path with
  | none => return { st with entries := st.entries.set path entry }
  | some prior =>
    if merge ∧ prior.kind = .directory ∧ entry.kind = .directory then
      return { st with sharedOwners := addSharedOwner st.sharedOwners path prior.owner owner }
    else
      raiseIf (prior.owner ≠ owner) (.valueError ("exact staged collision at '" ++ path ++ "'"))
      return { st with entries := st.entries.set path entry }

/-- The destination `.` is the root of the staged tree. -/
def stagedDestination (destination : String) : Except Exn String :=
  if destination = "." then .ok "" else normaliseRelative destination

/-- The destination and the owner of a mapping. -/
def destinationOf (m : Mapping) : Except Exn (String × String) := do
  let source := (PosixPath.parse m.source).str
  let destination ← stagedDestination m.destination
  return (destination, source ++ " -> " ++ (if destination = "" then "." else destination))

def addMapping (host : Host) (merge : Bool) (st : Staging) (m : Mapping) : Except Exn Staging := do
  let source := (PosixPath.parse m.source).str
  raiseIf (¬ host.exists_ source) (.valueError ("declared source does not exist: " ++ source))
  let canonicalSources ← overlapSources host merge st.canonicalSources source
  let (destination, owner) ← destinationOf m
  let items ← mappingEntries host source destination owner m.role
  let st ← items.foldlM (addEntry merge owner) { st with canonicalSources }
  checkIf (¬ merge) (checkPrefixCollisions st.entries destination owner)
  return st

/-! ## The layout -/

def checkStagedSymlink (entries : Dict String Entry) (sharedOwners : Dict String (List String))
    (path : String) (entry : Entry) : Except Exn Unit := do
  let target := (PosixPath.parse path).parent.join (entry.linkTarget.getD "")
  let normalised := PosixPath.parse (normpath target.str)
  raiseIf (normalised.isAbsolute ∨ ".." ∈ normalised.parts)
    (.valueError ("staged symlink escapes output root: " ++ path))
  let targetPath := joinSlash normalised.parts
  match entries.get targetPath with
  | none => .error (.valueError ("staged symlink is dangling at '" ++ path ++ "'"))
  | some targetEntry =>
    raiseIf (targetEntry.owner ≠ entry.owner ∧
        entry.owner ∉ (sharedOwners.get targetPath).getD [])
      (.valueError ("staged symlink aliases another mapping at '" ++ path ++ "'"))

/-- The inner loop of `_check_layout`: it stops at the first path that is not below `path`. -/
def checkBelow (path : String) (kind : Kind) : List String → Except Exn Unit
  | [] => .ok ()
  | otherPath :: rest =>
    if ¬ isBelow otherPath path then .ok ()
    else do
      raiseIf (kind ≠ .directory) (.valueError ("file/dir staged collision at '" ++ path ++ "'"))
      checkBelow path kind rest

/-- The outer loop of `_check_layout` over the paths that are left. -/
def checkPaths (entries : Dict String Entry) (sharedOwners : Dict String (List String)) :
    List String → Except Exn Unit
  | [] => .ok ()
  | path :: rest =>
    match entries.get path with
    | none => .error (.keyError path)
    | some entry => do
      checkBelow path entry.kind rest
      checkIf (entry.kind = .symlink) (checkStagedSymlink entries sharedOwners path entry)
      checkPaths entries sharedOwners rest

/-- Rejects non-directories with staged children and symlinks that leave their own mapping. -/
def checkLayout (entries : Dict String Entry) (sharedOwners : Dict String (List String)) :
    Except Exn Unit :=
  checkPaths entries sharedOwners (entries.keys.insertionSort (· ≤ ·))

/-- Build and validate the complete staged manifest without writing. -/
def manifest (host : Host) (mappings : List Mapping) (merge : Bool) :
    Except Exn (Dict String Entry) := do
  let st ← mappings.foldlM (addMapping host merge) ⟨[], [], []⟩
  checkLayout st.entries st.sharedOwners
  return st.entries

/-! ## Writing the tree -/

/-- A file system call of `_copy_manifest`, with a path below the output. -/
inductive Op where
  /-- `mkdir(parents=True, exist_ok=True)` -/
  | mkdir (path : String)
  | symlinkTo (path linkTarget : String)
  | copyfile (path source : String) (mode : ℕ)
  /-- `chmod` and `utime` of a directory -/
  | seal (path : String)
  deriving Repr, DecidableEq

def Op.path : Op → String
  | .mkdir p | .symlinkTo p _ | .copyfile p _ _ | .seal p => p

/-- The proper ancestors of a staged path. -/
def ancestors (path : String) : List String :=
  let parts := splitSlash path
  (List.range parts.length).map fun n => joinSlash (parts.take n)

/-- The staged items in the order of their paths. -/
def sortedItems (entries : Dict String Entry) : List (String × Entry) :=
  entries.insertionSort fun a b => a.1 ≤ b.1

/-- The calls for one file or symlink. -/
def writeEntry (executablePaths : List String) (item : String × Entry) : List Op :=
  let path := item.1
  let parent := joinSlash (splitSlash path).dropLast
  match item.2.kind with
  | .symlink => [.mkdir parent, .symlinkTo path (item.2.linkTarget.getD "")]
  | .file => [.mkdir parent,
      .copyfile path item.2.source (if path ∈ executablePaths then 0o755 else 0o644)]
  | .directory => []

/-- The calls of `_copy_manifest` in order; the path `""` is the output itself. -/
def copyManifest (entries : Dict String Entry) (executablePaths : List String) : List Op :=
  let directories := "" :: entries.flatMap fun (path, entry) =>
    ancestors path ++ if entry.kind = .directory then [path] else []
  ((sortedItems entries).filter (·.2.kind = .directory)).map (fun item => .mkdir item.1) ++
    (sortedItems entries).flatMap (writeEntry executablePaths) ++
    (directories.dedup.insertionSort fun a b => splitSlash b ≤ splitSlash a).map .seal

end RulesMkosi.StageInputs
