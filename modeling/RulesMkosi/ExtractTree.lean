/-
  Extraction of the Debian tools archive: `extract_tree._extract_members`.

  The archive is the list of its members.  Directories and files are created first,
  then hard links, then symbolic links; a symbolic link is resolved over the table of
  members before any is created.  A path below the output root is the list of its
  components.  Permission bits and times are left out; `frames` bounds the nesting of
  recursive calls, as the interpreter's recursion limit does.
-/
import RulesMkosi.Lib.LinkResolution
import Mathlib.Data.List.Sort
import Mathlib.Data.Char
import Mathlib.Data.List.Lex

namespace RulesMkosi.ExtractTree

open FileTree

inductive Kind where
  | directory
  | file
  | symlink
  | hardlink
  | other
  deriving Repr, DecidableEq

/-- A `TarInfo` with the data of a regular file. -/
structure Member where
  name : Str
  kind : Kind
  linkname : Str := []
  data : Bytes := []
  deriving Repr, DecidableEq

def text (p : Path) : String := String.ofList (pathText p)

def path (s : String) : Path := components s.toList

/-- `table[relative]` -/
def lookup {ν : Type} (table : Dict Path ν) (relative : Path) : Except Exn ν :=
  match table.get relative with
  | some value => .ok value
  | none => .error (.keyError (text relative))

/-- `sorted(items, key=lambda item: (rank(item), path(item)))` -/
def sortBy {α : Type} (rank : α → ℕ) (path : α → Path) (items : List α) : List α :=
  items.insertionSort fun a b =>
    rank a < rank b ∨ rank a = rank b ∧ pathText (path a) ≤ pathText (path b)

/-- `sorted(paths)` -/
def sortPaths (paths : List Path) : List Path := sortBy (fun _ => 0) id paths

def recursionError : Exn := .runtimeError "maximum recursion depth exceeded"

def collision (relative : Path) : Exn := .valueError ("archive path collision: " ++ text relative)

/-! ## The index of the members -/

section Index

/-- `while name.startswith("./"): name = name[2:]` -/
def stripDots : Str → Str
  | '.' :: '/' :: rest => stripDots rest
  | name => name

/-- `parts = name.split("/")`, without the empty part after a last slash -/
def memberParts (name : Str) : List Str :=
  let parts := components name
  if parts.getLast? = some [] then parts.dropLast else parts

def isUnsafePart (part : Str) : Bool := part = [] ∨ part = dot ∨ part = dotDot

/-- `member_path`; the root is the empty path -/
def memberPath (name : Str) (kind : String := "archive") : Except Exn Path :=
  if isAbsolute name then
    .error (.valueError ("absolute " ++ kind ++ " member: " ++ String.ofList name))
  else
    let name := stripDots name
    if name = [] ∨ name = dot then .ok []
    else if memberParts name = [] ∨ (memberParts name).any isUnsafePart then
      .error (.valueError ("unsafe " ++ kind ++ " member: " ++ String.ofList name))
    else .ok (memberParts name)

/-- The loop body of `_index_members`. -/
def indexMember (index : Dict Path Member) (member : Member) : Except Exn (Dict Path Member) := do
  let relative ← memberPath member.name
  if relative = [] then return index
  raiseIf ((index.get relative).isSome = true) (.valueError "duplicate archive member")
  return index.set relative member

/-- `_index_members`: the items of `members_by_path` are those of `members`. -/
def indexMembers (source : List Member) : Except Exn (Dict Path Member) :=
  source.foldlM indexMember []

def ofKind (kind : Kind) (index : Dict Path Member) : Dict Path Member :=
  index.filter fun item => item.2.kind = kind

end Index

/-! ## Directories and files -/

section Regular

def parentLoop (relative : Path) : Tree → Path → List Str → Except Exn Tree
  | t, _, [] => .ok t
  | t, parent, part :: parts =>
    match t.lstat (parent ++ [part]) with
    | some .dir => parentLoop relative t (parent ++ [part]) parts
    | some _ =>
      .error (.valueError ("archive member parent is not a directory: " ++ text relative))
    | none => do
      let t ← t.mkdir (parent ++ [part])
      parentLoop relative t (parent ++ [part]) parts

/-- `_parent`: the directories above a path are made. -/
def parent (t : Tree) (relative : Path) : Except Exn Tree :=
  parentLoop relative t [] relative.dropLast

def materializeDirectory (t : Tree) (relative : Path) : Except Exn Tree := do
  let t ← parent t relative
  raiseIf (t.lstat relative ≠ none ∧ t.lstat relative ≠ some .dir) (collision relative)
  if t.stat relative = none then t.mkdir relative else return t

def materializeFile (t : Tree) (relative : Path) (member : Member) : Except Exn Tree := do
  let t ← parent t relative
  raiseIf (t.lstat relative ≠ none) (collision relative)
  t.writeFile relative member.data

def materializeMember (t : Tree) (item : Path × Member) : Except Exn Tree :=
  match item.2.kind with
  | .directory => materializeDirectory t item.1
  | .file => materializeFile t item.1 item.2
  | .symlink | .hardlink => .ok t
  | .other => .error (.valueError ("unsupported archive member: " ++ text item.1))

def materializeRegularMembers (t : Tree) (index : Dict Path Member) : Except Exn Tree :=
  (sortBy (fun item => (pathText item.1).count '/') Prod.fst index).foldlM materializeMember t

end Regular

/-! ## Generated files -/

section Generated

def certificateRoot : Path := path "usr/share/ca-certificates"

def bundle : Path := path "etc/ssl/certs/ca-certificates.crt"

def crtSuffix : Str := ".crt".toList

def sortNames (names : List Str) : List Str := names.insertionSort (· ≤ ·)

def isDir (t : Tree) (p : Path) : Bool := t.stat p = some .dir

def isLink (t : Tree) (p : Path) : Bool :=
  match t.lstat p with
  | some (.link _) => true
  | _ => false

/-- The certificates that `os.walk` meets below a directory, which has at most `depth`
    levels of directories. -/
def certificatesBelow (t : Tree) : ℕ → Path → List Path
  | 0, _ => []
  | depth + 1, directory =>
    let names := sortNames (t.listdir directory)
    let files := names.filter fun name => !isDir t (directory ++ [name])
    let dirnames := names.filter fun name => isDir t (directory ++ [name])
    let certificates := files.filter fun name => crtSuffix.isSuffixOf name
    certificates.map (directory ++ [·]) ++
      (dirnames.filter fun name => !isLink t (directory ++ [name])).flatMap
        fun name => certificatesBelow t depth (directory ++ [name])

/-- `source.read()` of a regular file -/
def readFile (t : Tree) (p : Path) : Option Bytes :=
  match t.stat p with
  | some (.file content) => some content
  | _ => none

/-- The contents of the certificates that are regular files. -/
def certificates (t : Tree) : List Bytes :=
  if isDir t certificateRoot then
    (certificatesBelow t (t.length + 1) certificateRoot).filterMap (readFile t)
  else []

def writeCaBundle (t : Tree) : Except Exn Tree :=
  let contents := certificates t
  if contents = [] then .ok t
  else do
    let t ← parent t bundle
    t.writeFile bundle (contents.flatMap (· ++ [10]))

def runtimeLinkTargets : List Path :=
  ["etc/environment", "etc/localtime", "dev/null", "etc/modules", "usr/sbin/rmt"].map path

def materializeRuntimeLinkTarget (t : Tree) (relative : Path) : Except Exn Tree :=
  if t.stat relative = none then do
    let t ← parent t relative
    t.writeFile relative []
  else .ok t

def materializeRuntimeLinkTargets (t : Tree) : Except Exn Tree :=
  runtimeLinkTargets.foldlM materializeRuntimeLinkTarget t

/-- `_EMPTY_DIRECTORY_SYMLINK_TARGETS`: the link, its directory and its link name -/
def emptyDirectorySymlinkTargets : List (Path × Path × Str) :=
  [(path "etc/xdg/systemd/user", path "etc/systemd/user", "../../systemd/user".toList),
    (path "usr/lib/ssl/private", path "etc/ssl/private", "/etc/ssl/private".toList)]

def markerName : Str := ".rules_mkosi_empty_directory".toList

def materializeMarker (t : Tree) (directory : Path) : Except Exn Tree :=
  if isDir t directory = false ∨ isLink t directory then .ok t
  else if t.stat (directory ++ [markerName]) = none then
    t.writeFile (directory ++ [markerName]) []
  else .ok t

def materializeEmptyDirectorySymlinkTargets (t : Tree) (symlinks : Dict Path Member) :
    Except Exn Tree :=
  emptyDirectorySymlinkTargets.foldlM (fun t entry =>
    if (symlinks.get entry.1).map Member.linkname = some entry.2.2 then
      materializeMarker t entry.2.1
    else .ok t) t

end Generated

/-- The mark of a depth-first search. -/
inductive Mark where
  | visiting
  | done
  deriving Repr, DecidableEq

/-! ## Hard links -/

section Hardlinks
variable (hardlinks index : Dict Path Member)

def hardlinkTarget (linkname : Str) : Except Exn Path := do
  raiseIf (isAbsolute linkname = true)
    (.valueError ("absolute hardlink target: " ++ String.ofList linkname))
  memberPath linkname

structure HardlinkGraph where
  state : Dict Path Mark
  targets : Dict Path Path

/-- The end of the chain whose next member is `target`. -/
def hardlinkEnd (visit : HardlinkGraph → Path → Except Exn (HardlinkGraph × Path))
    (relative : Path) (graph : HardlinkGraph) (target : Path) :
    Except Exn (HardlinkGraph × Path) :=
  match index.get target with
  | none =>
    .error (.valueError ("dangling hardlink: " ++ text relative ++ " -> " ++ text target))
  | some member =>
    match member.kind with
    | .hardlink => visit graph target
    | .file => .ok (graph, target)
    | _ => .error (.valueError ("hardlink target is not a regular file: " ++ text relative))

/-- `visit` of `_resolve_hardlink_graph` -/
def visitHardlink : ℕ → HardlinkGraph → Path → Except Exn (HardlinkGraph × Path)
  | 0, _, _ => .error recursionError
  | frames + 1, graph, relative =>
    match graph.state.get relative with
    | some .visiting => .error (.valueError ("hardlink cycle involving: " ++ text relative))
    | some .done => do
      let target ← lookup graph.targets relative
      return (graph, target)
    | none => do
      let graph := { graph with state := graph.state.set relative .visiting }
      let member ← lookup hardlinks relative
      let target ← hardlinkTarget member.linkname
      let (graph, target) ← hardlinkEnd index (visitHardlink frames) relative graph target
      return (⟨graph.state.set relative .done, graph.targets.set relative target⟩, target)

/-- The loop body of `_resolve_hardlink_graph`. -/
def createHardlink (frames : ℕ) (s : HardlinkGraph × Tree) (relative : Path) :
    Except Exn (HardlinkGraph × Tree) := do
  let (graph, target) ← visitHardlink hardlinks index frames s.1 relative
  let t ← parent s.2 relative
  raiseIf (t.lstat relative ≠ none) (collision relative)
  let t ← t.hardlink target relative
  return (graph, t)

def resolveHardlinkGraph (frames : ℕ) (t : Tree) : Except Exn Tree := do
  let s ← (sortPaths hardlinks.keys).foldlM (createHardlink hardlinks index frames) (⟨[], []⟩, t)
  return s.2

end Hardlinks

/-! ## Symbolic links -/

section Symlinks

def rawLinkComponents (relative : Path) (linkname : Str) : List Str :=
  if isAbsolute linkname then components linkname
  else relative.dropLast ++ components linkname

/-- `members_by_path.get(current)`, if it is a symbolic link -/
def linknameAt (index : Dict Path Member) (current : Path) : Option Str :=
  (index.get current).bind fun member =>
    if member.kind = .symlink then some member.linkname else none

/-- The state of `_resolve_link_path`; `seen` has the elements of `dependencies`. -/
structure Expansion where
  components : List Str
  resolved : Path
  dependencies : List Path
  resolutions : ℕ

variable (symlinks index : Dict Path Member)

/-- The loop body at a component that is a symbolic link. -/
def expandLink (relative : Path) (s : Expansion) (current : Path) (linkname : Str)
    (rest : List Str) : Except Exn Expansion := do
  raiseIf (current ∈ s.dependencies) (.valueError ("symlink cycle involving: " ++ text current))
  let components := rawLinkComponents current linkname ++ rest
  let resolutions := s.resolutions + 1
  raiseIf (symlinks.length + components.length + 1 < resolutions)
    (.valueError ("symlink graph resolution exceeded its bound: " ++ text relative))
  return ⟨components, [], s.dependencies ++ [current], resolutions⟩

/-- The loop body of `_resolve_link_path`. -/
def expandComponent (relative : Path) (s : Expansion) (component : Str) (rest : List Str) :
    Except Exn Expansion :=
  if component = [] ∨ component = dot then .ok { s with components := rest }
  else if component = dotDot then
    if s.resolved = [] then
      .error (.valueError ("symlink escapes output root: " ++ text relative))
    else .ok { s with components := rest, resolved := s.resolved.dropLast }
  else
    match linknameAt index (s.resolved ++ [component]) with
    | none => .ok { s with components := rest, resolved := s.resolved ++ [component] }
    | some linkname => expandLink symlinks relative s (s.resolved ++ [component]) linkname rest

/-- At most `rounds` rounds of the loop. -/
def resolveLoop (relative : Path) : ℕ → Expansion → Except Exn (Path × List Path)
  | rounds, s =>
    match s.components, rounds with
    | [], _ => .ok (s.resolved, s.dependencies)
    | _ :: _, 0 => .error (.runtimeError "out of rounds")
    | component :: rest, rounds + 1 => do
      let s ← expandComponent symlinks index relative s component rest
      resolveLoop relative rounds s

/-- The components of the links that are not followed yet. -/
def pendingComponents (followed : List Path) : ℕ :=
  ((index.filter fun item => item.2.kind = .symlink ∧ item.1 ∉ followed).map
    fun item => (rawLinkComponents item.1 item.2.linkname).length).sum

def resolveLinkPath (relative : Path) : Except Exn (Path × List Path) := do
  let member ← lookup symlinks relative
  let components := rawLinkComponents relative member.linkname
  -- every link is followed at most once
  let rounds := components.length + pendingComponents index []
  resolveLoop symlinks index relative rounds ⟨components, [], [], 0⟩

def allowedDanglingSymlinks : List Path :=
  ["etc/modules-load.d/modules.conf", "etc/rmt", "usr/lib/environment.d/99-environment.conf",
    "usr/lib/systemd/system/cryptdisks-early.service",
    "usr/lib/systemd/system/cryptdisks.service", "usr/lib/systemd/system/hwclock.service",
    "usr/lib/systemd/system/x11-common.service", "usr/share/zoneinfo/localtime"].map path

structure SymlinkGraph where
  state : Dict Path Mark
  resolved : Dict Path Path
  dependencies : Dict Path (List Path)

def danglingError (relative : Path) : Exn :=
  let linkname := ((symlinks.get relative).map Member.linkname).getD []
  .valueError ("dangling symlink: " ++ text relative ++ " -> " ++ String.ofList linkname)

/-- `visit` of `_validate_symlink_graph` -/
def visitSymlink (t : Tree) : ℕ → SymlinkGraph → Path → Except Exn SymlinkGraph
  | 0, _, _ => .error recursionError
  | frames + 1, graph, relative =>
    match graph.state.get relative with
    | some .visiting => .error (.valueError ("symlink cycle involving: " ++ text relative))
    | some .done => .ok graph
    | none => do
      let graph := { graph with state := graph.state.set relative .visiting }
      let (target, direct) ← resolveLinkPath symlinks index relative
      let graph ← (direct.filter (· ≠ relative)).foldlM (visitSymlink t frames) graph
      raiseIf (t.stat target = none ∧ relative ∉ allowedDanglingSymlinks)
        (danglingError symlinks relative)
      return ⟨graph.state.set relative .done, graph.resolved.set relative target,
        graph.dependencies.set relative direct⟩

/-- The resolved targets and the dependencies of the links. -/
def validateSymlinkGraph (frames : ℕ) (t : Tree) :
    Except Exn (Dict Path Path × Dict Path (List Path)) := do
  let graph ← (sortPaths symlinks.keys).foldlM (visitSymlink symlinks index t frames) ⟨[], [], []⟩
  return (graph.resolved, graph.dependencies)

/-- `depth` of `_resolve_symlink_graph` -/
def depth (dependencies : Dict Path (List Path)) : ℕ → Path → Except Exn ℕ
  | 0, _ => .error recursionError
  | frames + 1, relative => do
    let direct ← lookup dependencies relative
    let depths ← direct.mapM (depth dependencies frames)
    return depths.foldl max 0 + 1

/-- The text of a link: an absolute one is kept inside the extracted tree. -/
def linkText (relative : Path) (linkname : Str) (target : Path) : Str :=
  if isAbsolute linkname then relpath target relative.dropLast else linkname

/-- The loop body of `_resolve_symlink_graph`. -/
def createSymlink (resolved : Dict Path Path) (t : Tree) (relative : Path) : Except Exn Tree := do
  let member ← lookup symlinks relative
  let t ← parent t relative
  raiseIf (t.lstat relative ≠ none) (collision relative)
  let target ← lookup resolved relative
  t.symlink (linkText relative member.linkname target) relative

def depthKey (dependencies : Dict Path (List Path)) (frames : ℕ) (relative : Path) :
    Except Exn (ℕ × Path) := do
  let d ← depth dependencies frames relative
  return (d, relative)

def resolveSymlinkGraph (frames : ℕ) (t : Tree) : Except Exn Tree := do
  let (resolved, dependencies) ← validateSymlinkGraph symlinks index frames t
  let keyed ← symlinks.keys.mapM (depthKey dependencies frames)
  ((sortBy Prod.fst Prod.snd keyed).map Prod.snd).foldlM (createSymlink symlinks resolved) t

end Symlinks

def extractMembers (frames : ℕ) (source : List Member) (t : Tree) : Except Exn Tree := do
  let index ← indexMembers source
  let symlinks := ofKind .symlink index
  let hardlinks := ofKind .hardlink index
  let t ← materializeRegularMembers t index
  let t ← writeCaBundle t
  let t ← materializeRuntimeLinkTargets t
  let t ← materializeEmptyDirectorySymlinkTargets t symlinks
  let t ← resolveHardlinkGraph hardlinks index frames t
  resolveSymlinkGraph symlinks index frames t

/-! ## The merged `/usr` -/

def legacyMergedUsrLinks : Dict Str Str :=
  [("bin".toList, "usr/bin".toList), ("sbin".toList, "usr/sbin".toList),
    ("lib".toList, "usr/lib".toList), ("lib64".toList, "usr/lib/x86_64-linux-gnu".toList)]

/-- An old link or empty directory is removed. -/
def removeLegacy (t : Tree) (legacy : Path) : Except Exn Tree :=
  if isLink t legacy then t.unlink legacy
  else if isDir t legacy then t.rmdir legacy
  else if t.stat legacy ≠ none then
    .error (.valueError ("legacy merged-usr path collision: " ++ text legacy))
  else .ok t

/-- The loop body of `_link_legacy_merged_usr`. -/
def linkLegacy (t : Tree) (entry : Str × Str) : Except Exn Tree := do
  let t ← removeLegacy t [entry.1]
  t.symlink entry.2 [entry.1]

def linkLegacyMergedUsr (t : Tree) : Except Exn Tree := legacyMergedUsrLinks.foldlM linkLegacy t

end RulesMkosi.ExtractTree
