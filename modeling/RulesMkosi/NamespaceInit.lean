/-
  The init process of the namespace runner (`mkosi/debian/namespace_runner.c`).

  `run_namespace_init` builds the root of the tool call by call and then executes the tool.
  Paths may name other objects at every call, so that someone else may swap them at any time,
  and every call into the kernel may fail; `setenv` is none, and is taken to succeed.  Still
  the first four mounts are the root and the directories of the layout, and every other one
  attaches nothing but the object that the launcher has validated, read-only from the start
  where it is to be (`attached_validated`); and the tool is executed only in the finished
  sandbox: read-only root, host root gone, the validated mounts and no others, fixed
  environment (`tool_confined`).
-/
import Mathlib.Data.List.DropRight
import RulesMkosi.Lib.Effects
import RulesMkosi.NamespaceRunner

namespace RulesMkosi.NamespaceRunner

open DebianLauncher Prog

/-! ## The kernel -/

/-- What `fstat` identifies. -/
structure Object where
  device : ℕ
  inode : ℕ
  directory : Bool
  deriving Repr, DecidableEq

/-- A mount that is not attached yet, with the path that it was opened from. -/
structure Tree where
  path : String
  object : Object
  readonly : Bool
  deriving Repr, DecidableEq

/-- `MS_NOSUID`, `MS_NODEV` and `MS_NOEXEC` -/
structure MountFlags where
  nosuid : Bool
  nodev : Bool
  noexec : Bool
  deriving Repr, DecidableEq

/-- The world that the calls find, by their number: whether a call succeeds and the text of its error,
    what a path names, what a name in a directory names, and the flags of the mount that a path is on. -/
structure Kernel where
  succeeds : ℕ → Bool
  strerror : ℕ → String
  stat : ℕ → String → Object
  openTree : ℕ → String → String → Object
  statvfs : ℕ → String → MountFlags
  /-- `sysconf(_SC_OPEN_MAX)` -/
  openMax : ℤ

/-- What the calls do. -/
inductive Action where
  | setHostname (name : String)
  | setDomainname (name : String)
  /-- `mount(NULL, "/", NULL, MS_REC | MS_PRIVATE, NULL)` -/
  | makePrivate
  /-- `move_mount` -/
  | attach (destination : String) (tree : Tree)
  /-- makes the directory, or finds it -/
  | mkdir (path : String)
  /-- `mount` with `MS_BIND | MS_REMOUNT` -/
  | remount (target : String) (flags : MountFlags) (readonly : Bool)
  | mount (source target type : String) (flags : MountFlags) (data : Option String)
  /-- `open` with `O_CREAT`, and `close` -/
  | create (path : String)
  /-- `mount` with `MS_BIND` -/
  | bindDevice (source target : String)
  | chdir (path : String)
  | pivotRoot (newRoot putOld : String)
  /-- `umount2` with `MNT_DETACH` -/
  | detach (target : String)
  | rmdir (path : String)
  /-- closes the descriptor, or finds it closed -/
  | closeFile (file : ℕ)
  | setenv (name value : String)
  | exec (path : String) (arguments : List String)
  deriving Repr, DecidableEq

abbrev Runner (α : Type) := Prog String Action α

section
variable (kernel : Kernel)

/-- `fail_errno` -/
def failErrno (message : String) (call : ℕ) : String := message ++ ": " ++ kernel.strerror call

/-- A call that does something. -/
def call (message : String) (action : Action) : Runner Unit :=
  act fun n => if kernel.succeeds n then .ok action else .error (failErrno kernel message n)

/-- A call that finds something out. -/
def ask {α : Type} (message : String) (answer : ℕ → α) : Runner α :=
  query fun n => if kernel.succeeds n then .ok (answer n) else .error (failErrno kernel message n)

def formatOrFail (tooLong text : String) : Runner String :=
  lift (if text.utf8ByteSize < pathBufferSize then .ok text else .error tooLong)

/-! ## Binds -/

/-- `struct mount_identity`; `none` for `unknown_identity` -/
abbrev MountIdentity := Option (ℕ × ℕ)

def hasIdentity (object : Object) (expected : ℕ × ℕ) : Prop :=
  object.device = expected.1 ∧ object.inode = expected.2

instance (object : Object) (expected : ℕ × ℕ) : Decidable (hasIdentity object expected) :=
  inferInstanceAs (Decidable (_ ∧ _))

/-- `split_parent_path`, with the text of its error -/
def splitParentPath (path : String) : Except String (String × String) :=
  let parent := path.toList.rdropWhile (· ≠ '/')
  let name := path.toList.rtakeWhile (· ≠ '/')
  if parent = [] then .error "Invalid argument"
  else if parent ≠ ['/'] ∧ pathBufferSize ≤ (String.ofList parent.dropLast).utf8ByteSize then
    .error "File name too long"
  else .ok (if parent = ['/'] then "/" else String.ofList parent.dropLast,
    if name = [] then "." else String.ofList name)

/-- `open_tree_path`: the parent directory is opened, then the tree in it -/
def openTreePath (message path : String) : Runner Object := do
  let (parent, name) ← lift ((splitParentPath path).mapError (message ++ ": " ++ ·))
  ask kernel message fun _ => ()
  ask kernel message fun n => kernel.openTree n parent name

/-- The identity that the path has now (`inspect_identity`), unless there is one that was validated. -/
def expectedIdentity (message path : String) : MountIdentity → Runner (ℕ × ℕ)
  | some identity => pure identity
  | none => ask kernel message fun n => ((kernel.stat n path).device, (kernel.stat n path).inode)

/-- `verify_pinned_tree`; the text is that of `EAGAIN` -/
def verifyPinnedTree (message : String) (object : Object) (directory : Bool) (expected : ℕ × ℕ) :
    Runner Unit := do
  ask kernel message fun _ => ()
  lift (raiseIf (¬ hasIdentity object expected ∨ object.directory ≠ directory)
    (message ++ ": Resource temporarily unavailable"))

/-- `pin_mount_path`, with the message of its caller -/
def pinMountPath (message path : String) (directory : Bool) (expected : MountIdentity) :
    Runner Tree := do
  let identity ← expectedIdentity kernel message path expected
  let object ← openTreePath kernel message path
  verifyPinnedTree kernel message object directory identity
  return ⟨path, object, false⟩

/-- `verify_pinned_source` -/
def verifyPinnedSource (tree : Tree) (expected : MountIdentity) (directory : Bool) : Runner Unit := do
  ask kernel "cannot inspect pinned bind source" fun _ => ()
  lift (raiseIf ((∃ identity ∈ expected, ¬ hasIdentity tree.object identity) ∨
    tree.object.directory ≠ directory) "pinned bind source changed after validation")

/-- `set_detached_mount_readonly` where it is asked for -/
def setReadonly (message : String) (readonly : Bool) (tree : Tree) : Runner Tree :=
  if readonly then ask kernel message fun _ => { tree with readonly := true } else pure tree

def bindMountFd (tree : Tree) (destination : String) (readonly : Bool) (expected : MountIdentity)
    (directory : Bool) : Runner Unit := do
  verifyPinnedSource kernel tree expected directory
  let tree ← setReadonly kernel
    ("recursive read-only detached mount_setattr is required before attaching " ++ destination)
    readonly tree
  call kernel ("descriptor-only bind move_mount failed at " ++ destination) (.attach destination tree)

def pinAndBindPath (source destination : String) (readonly : Bool) (expected : MountIdentity)
    (directory : Bool) : Runner Unit := do
  let tree ← pinMountPath kernel ("cannot pin bind source " ++ source ++
    " with open_tree(parent_fd, name, OPEN_TREE_CLONE)") source directory expected
  bindMountFd kernel tree destination readonly expected directory

def bindMountPath (source destination : String) (readonly : Bool) : Runner Unit := do
  let object ← ask kernel ("cannot inspect bind source " ++ source) fun n => kernel.stat n source
  pinAndBindPath kernel source destination readonly none object.directory

/-- The loop of `bind_typed_mounts`: reads one mount after the other and makes it; the index of the
    separator. -/
def makeMountsFrom (argv : List String) (root : String) (index : ℕ) : Runner ℕ :=
  if index < argv.length then
    if argument argv index = "--" then pure index
    else do
      let mount ← lift (bindTypedMount argv index root)
      pinAndBindPath kernel mount.source mount.destination mount.readonly
        (some (mount.device, mount.inode)) mount.directory
      makeMountsFrom argv root (index + typedMountArguments)
  else lift (.error "namespace runner command separator is missing")
termination_by argv.length - index
decreasing_by
  rw [typedMountArguments]
  omega

/-! ## The root -/

def remountBind (target : String) (readonly : Bool) (failure : String) : Runner Unit := do
  let flags ← ask kernel failure fun n => kernel.statvfs n target
  call kernel failure (.remount target flags readonly)

def oldRootName : String := ".namespace-oldroot"

def mountExtractedRoot (root : String) : Runner Unit := do
  let tree ← pinMountPath kernel "cannot clone extracted root mount" root true none
  call kernel "cannot mount extracted root" (.attach root tree)

def makeRootDirectory (root name failure : String) : Runner Unit := do
  let path ← formatOrFail "extracted root path is too long" (root ++ "/" ++ name)
  call kernel failure (.mkdir path)

def prepareExtractedRoot (root : String) : Runner Unit := do
  call kernel "cannot make mount propagation private" .makePrivate
  mountExtractedRoot kernel root
  makeRootDirectory kernel root oldRootName "cannot prepare old root"
  remountBind kernel root true "cannot make extracted root read-only"

def enterRoot (root : String) : Runner Unit := do
  call kernel "cannot enter extracted root" (.chdir root)
  call kernel "cannot pivot into extracted root" (.pivotRoot "." oldRootName)
  call kernel "cannot enter private root" (.chdir "/")
  call kernel "cannot detach host root" (.detach ("/" ++ oldRootName))
  remountBind kernel "/" false "cannot temporarily update private root"
  call kernel "cannot remove old root marker" (.rmdir ("/" ++ oldRootName))
  remountBind kernel "/" true "cannot make private root read-only"

/-- `struct runtime_filesystem` -/
structure RuntimeFilesystem where
  source : String
  directory : String
  type : String
  flags : MountFlags
  data : Option String
  failure : String

/-- `runtime_filesystems` -/
def runtimeFilesystems : List RuntimeFilesystem :=
  [⟨"proc", "proc", "proc", ⟨true, true, true⟩, none, "cannot mount namespace /proc"⟩,
    ⟨"tmpfs", "tmp", "tmpfs", ⟨true, true, true⟩, some "mode=1777", "cannot mount namespace /tmp"⟩,
    ⟨"tmpfs", "dev", "tmpfs", ⟨true, false, false⟩, some "mode=755", "cannot mount namespace /dev"⟩]

/-- `runtime_devices` -/
def runtimeDevices : List String := ["null", "zero", "full", "random", "urandom", "tty"]

/-- `runtime_environment` -/
def runtimeEnvironment : List (String × String) :=
  [("PATH", "/usr/bin:/usr/sbin:/bin:/sbin"), ("HOME", "/root"), ("TMPDIR", "/tmp"),
    ("SSL_CERT_FILE", "/etc/ssl/certs/ca-certificates.crt"), ("PWD", "/workspace")]

def mountRuntimeFilesystem (root : String) (fs : RuntimeFilesystem) : Runner Unit := do
  let path ← formatOrFail "extracted root path is too long" (root ++ "/" ++ fs.directory)
  call kernel fs.failure (.mount fs.source path fs.type fs.flags fs.data)

def bindRuntimeDevice (root device : String) : Runner Unit := do
  let path ← formatOrFail "extracted root path is too long" (root ++ "/dev/" ++ device)
  call kernel ("cannot prepare namespace device " ++ path) (.create path)
  call kernel ("cannot bind namespace device " ++ "/dev/" ++ device) (.bindDevice ("/dev/" ++ device) path)

def mountRuntimeFilesystems (root : String) : Runner Unit := do
  runtimeFilesystems.forM (mountRuntimeFilesystem kernel root)
  runtimeDevices.forM (bindRuntimeDevice kernel root)

def bindRuntimeDirectory (root source directory tooLong : String) : Runner Unit := do
  let destination ← formatOrFail tooLong (root ++ "/" ++ directory)
  bindMountPath kernel source destination false

def bindRuntimeDirectories (layout : Layout) : Runner Unit := do
  bindRuntimeDirectory kernel layout.root layout.workspace "workspace" "workspace path is too long"
  bindRuntimeDirectory kernel layout.root layout.outputs "outputs" "outputs path is too long"
  bindRuntimeDirectory kernel layout.root layout.home "root" "home path is too long"

/-- The limit of `close_non_stdio_fds`. -/
def Kernel.fileLimit : ℕ := if 0 < kernel.openMax then kernel.openMax.toNat else 1048576

def closeNonStdioFds : Runner Unit :=
  (List.range' 3 (kernel.fileLimit - 3)).forM fun file => act fun n =>
    if kernel.succeeds n then .ok (.closeFile file)
    else .error ("cannot mark inherited descriptor close-on-exec: " ++ toString file)

/-- `set_runtime_environment`, which ignores the error of `setenv`: there is none but that of an
    allocation, and allocations are taken to succeed. -/
def setRuntimeEnvironment : Runner Unit :=
  runtimeEnvironment.forM fun entry => act fun _ => .ok (.setenv entry.1 entry.2)

/-- The library path of `exec_packaged_tool`. -/
def libraryPath : String :=
  "/usr/lib/x86_64-linux-gnu:/lib/x86_64-linux-gnu:" ++
    "/usr/lib/x86_64-linux-gnu/systemd:/usr/lib/systemd:/usr/lib64"

/-- The command of the packaged loader. -/
def packagedCommand (layout : Layout) (tools : List String) : List String :=
  [layout.loader, "--library-path", libraryPath, layout.tool] ++ tools

def execPackagedTool (layout : Layout) (tools : List String) : Runner Unit :=
  call kernel ("cannot execute packaged loader " ++ layout.loader)
    (.exec layout.loader (packagedCommand layout tools))

def runNamespaceInit (argv : List String) (layout : Layout) : Runner Unit := do
  call kernel "cannot set deterministic UTS identity" (.setHostname "mkosi-debian-tools")
  call kernel "cannot set deterministic UTS identity" (.setDomainname "localdomain")
  prepareExtractedRoot kernel layout.root
  remountBind kernel layout.root false "cannot prepare extracted root for typed mounts"
  bindRuntimeDirectories kernel layout
  mountRuntimeFilesystems kernel layout.root
  let separator ← makeMountsFrom kernel argv layout.root firstMountArgument
  remountBind kernel layout.root true "cannot make extracted root read-only after typed mounts"
  enterRoot kernel layout.root
  closeNonStdioFds kernel
  call kernel "cannot set namespace working directory" (.chdir "/workspace")
  setRuntimeEnvironment
  execPackagedTool kernel layout (argv.drop (separator + 1))

end

/-! ## The sandbox -/

/-- What is mounted at a path. -/
inductive Content where
  | tree (tree : Tree)
  | filesystem (type : String) (flags : MountFlags) (data : Option String)
  | device (source : String)
  deriving Repr, DecidableEq

/-- What the process sees of its surroundings: the names are `none` where they are those of the host,
    `host` is the path of the root of the host, `mounts` are the mounts that the process has made. -/
structure World where
  hostname : Option String
  domainname : Option String
  /-- mounts reach the namespace that they were copied from -/
  propagates : Bool
  host : Option String
  directory : String
  mounts : List (String × Content)
  files : List ℕ
  environment : String → Option String

/-- The process has namespaces of its own, and nothing was done in them. -/
def World.start (directory : String) (files : List ℕ) (environment : String → Option String) : World where
  hostname := none
  domainname := none
  propagates := true
  host := some "/"
  directory := directory
  mounts := []
  files := files
  environment := environment

def Content.remount (readonly : Bool) : Content → Content
  | .tree t => .tree { t with readonly := readonly }
  | content => content

/-- The path in the root that the process changes to. -/
def inside (root path : String) : String :=
  if path = root then "/" else String.ofList (path.toList.drop root.toList.length)

def World.mounted (world : World) (entries : List (String × Content)) : World :=
  { world with mounts := world.mounts ++ entries }

def World.remounted (world : World) (target : String) (readonly : Bool) : World :=
  { world with
    mounts := world.mounts.map fun entry =>
      if entry.1 = target then (entry.1, entry.2.remount readonly) else entry }

def World.after (world : World) : Action → World
  | .setHostname name => { world with hostname := some name }
  | .setDomainname name => { world with domainname := some name }
  | .makePrivate => { world with propagates := false }
  | .attach destination tree => world.mounted [(destination, .tree tree)]
  | .mkdir _ | .create _ | .rmdir _ | .exec _ _ => world
  | .remount target _ readonly => world.remounted target readonly
  | .mount _ target type flags data => world.mounted [(target, .filesystem type flags data)]
  | .bindDevice source target => world.mounted [(target, .device source)]
  | .chdir path => { world with directory := path }
  | .pivotRoot newRoot putOld =>
    let root := if newRoot = "." then world.directory else newRoot
    { world with
      host := some ("/" ++ putOld)
      mounts := world.mounts.map fun entry => (inside root entry.1, entry.2) }
  | .detach target => if world.host = some target then { world with host := none } else world
  | .closeFile file => { world with files := world.files.filter (· ≠ file) }
  | .setenv name value => { world with environment := Function.update world.environment name (some value) }

/-- The tree was opened from the source of the mount, is the object that was validated for it, and is
    read-only if the mount is. -/
structure Mount.Carries (mount : Mount) (tree : Tree) : Prop where
  path : tree.path = mount.source
  device : tree.object.device = mount.device
  inode : tree.object.inode = mount.inode
  directory : tree.object.directory = mount.directory
  readonly : tree.readonly = mount.readonly

/-- The typed mounts that are read before the separator or the first error. -/
def readMountsFrom (argv : List String) (root : String) (index : ℕ) : List Mount :=
  if index < argv.length ∧ argument argv index ≠ "--" then
    match bindTypedMount argv index root with
    | .ok mount => mount :: readMountsFrom argv root (index + typedMountArguments)
    | .error _ => []
  else []
termination_by argv.length - index
decreasing_by
  rw [typedMountArguments]
  omega

def RuntimeFilesystem.entry (root : String) (fs : RuntimeFilesystem) : String × Content :=
  (root ++ "/" ++ fs.directory, .filesystem fs.type fs.flags fs.data)

def deviceEntry (root device : String) : String × Content :=
  (root ++ "/dev/" ++ device, .device ("/dev/" ++ device))

/-- The filesystems and devices that every sandbox has, below its root. -/
def runtimeMounts (root : String) : List (String × Content) :=
  runtimeFilesystems.map (RuntimeFilesystem.entry root) ++ runtimeDevices.map (deviceEntry root)

/-- The mounts of the finished sandbox. -/
def sandboxMounts (root workspace outputs home : Tree) (typed : List (String × Content)) :
    List (String × Content) :=
  [("/", .tree root), ("/workspace", .tree workspace), ("/outputs", .tree outputs), ("/root", .tree home)] ++
    runtimeMounts "" ++ typed

/-- **The finished sandbox.**  The root is read-only and the host is gone; the directories of the layout
    and the typed mounts are there in their order and nothing else is mounted; no descriptors are open
    but the standard ones. -/
structure Confined (limit : ℕ) (layout : Layout) (start : World) (mounts : List (String × Mount))
    (world : World) : Prop where
  hostname : world.hostname = some "mkosi-debian-tools"
  domainname : world.domainname = some "localdomain"
  propagates : world.propagates = false
  host : world.host = none
  directory : world.directory = "/workspace"
  mounts : ∃ root workspace outputs home typed,
    world.mounts = sandboxMounts root workspace outputs home typed ∧
      root.path = layout.root ∧ root.readonly = true ∧ root.object.directory = true ∧
      workspace.path = layout.workspace ∧ outputs.path = layout.outputs ∧ home.path = layout.home ∧
      List.Forall₂ (fun item entry => ∃ tree, entry = (item.1, .tree tree) ∧ item.2.Carries tree)
        mounts typed
  files : world.files = start.files.filter fun file => file < 3 ∨ limit ≤ file
  environment : ∀ entry ∈ runtimeEnvironment, world.environment entry.1 = some entry.2
  inherited : ∀ name, name ∉ runtimeEnvironment.map Prod.fst → world.environment name = start.environment name

/-- Where the root and the directories of the layout are attached, and from which paths, in the order of
    the calls. -/
def ownTrees (layout : Layout) : List (String × String) :=
  [(layout.root, layout.root), (layout.root ++ "/" ++ "workspace", layout.workspace),
    (layout.root ++ "/" ++ "outputs", layout.outputs), (layout.root ++ "/" ++ "root", layout.home)]

section
variable (kernel : Kernel) (argv : List String) (layout : Layout) (start : World)

/-- What the process may attach in a world: next of its own trees, and behind them the typed mounts. -/
def Attachable (world : World) (destination : String) (tree : Tree) : Prop :=
  (ownTrees layout)[world.mounts.length]? = some (destination, tree.path) ∨
    (ownTrees layout).length ≤ world.mounts.length ∧
      ∃ mount ∈ readMountsFrom argv layout.root firstMountArgument,
        mount.destination = destination ∧ mount.Carries tree

/-- What the process may do in a world. -/
def Permitted (world : World) : Action → Prop
  | .attach destination tree => world.propagates = false ∧ Attachable argv layout world destination tree
  | .remount .. | .mount .. | .bindDevice .. | .pivotRoot .. | .detach .. => world.propagates = false
  | .exec path arguments => path = layout.loader ∧
    ((∀ mount ∈ readMountsFrom argv layout.root firstMountArgument,
        inside layout.root mount.destination ≠ "/") →
      ∃ mounts separator, bindTypedMounts argv layout.root = .ok (mounts, separator) ∧
        arguments = packagedCommand layout (argv.drop (separator + 1)) ∧
        Confined kernel.fileLimit layout start
          (mounts.map fun mount => (inside layout.root mount.destination, mount)) world)
  | _ => True

def policy : Policy World Action := ⟨World.after, Permitted kernel argv layout start⟩

end

/-! ## Calls -/

section
variable {kernel : Kernel} {argv : List String} {layout : Layout} {start : World} {world : World}

theorem call_safe {message : String} {action : Action} {post : Unit → World → Prop}
    (h : Permitted kernel argv layout start world action) (hpost : post () (world.after action)) :
    Safe (policy kernel argv layout start) world (call kernel message action) post := by
  refine safe_act fun n effect heffect => ?_
  split at heffect
  · cases heffect
    exact ⟨h, hpost⟩
  · cases heffect

theorem ask_safe {α : Type} {message : String} {answer : ℕ → α} {post : α → World → Prop}
    (h : ∀ n, post (answer n) world) :
    Safe (policy kernel argv layout start) world (ask kernel message answer) post := by
  refine safe_query fun n a ha => ?_
  split at ha
  · cases ha
    exact h n
  · cases ha

theorem formatOrFail_safe {tooLong text : String} {post : String → World → Prop} (h : post text world) :
    Safe (policy kernel argv layout start) world (formatOrFail tooLong text) post := by
  refine safe_lift fun path hpath => ?_
  split at hpath
  · cases hpath
    exact h
  · cases hpath

/-! ## Binds -/

theorem openTreePath_safe {message path : String} {post : Object → World → Prop}
    (h : ∀ object, post object world) :
    Safe (policy kernel argv layout start) world (openTreePath kernel message path) post := by
  refine Safe.bind (safe_lift fun parts _ => ?_)
  exact Safe.bind (ask_safe fun _ => ask_safe fun _ => h _)

theorem verifyPinnedTree_safe {message : String} {object : Object} {directory : Bool} {expected : ℕ × ℕ}
    {post : Unit → World → Prop}
    (h : hasIdentity object expected → object.directory = directory → post () world) :
    Safe (policy kernel argv layout start) world
      (verifyPinnedTree kernel message object directory expected) post := by
  refine Safe.bind (ask_safe fun _ => safe_lift fun u hu => ?_)
  have hok := raiseIf_eq_ok.1 hu
  rw [not_or, not_not, not_not] at hok
  exact h hok.1 hok.2

theorem pinMountPath_safe {message path : String} {directory : Bool} {expected : MountIdentity}
    {post : Tree → World → Prop}
    (h : ∀ object : Object, (∀ identity ∈ expected, hasIdentity object identity) →
      object.directory = directory → post ⟨path, object, false⟩ world) :
    Safe (policy kernel argv layout start) world (pinMountPath kernel message path directory expected)
      post := by
  have hpin : ∀ identity : ℕ × ℕ, (∀ identity' ∈ expected, identity' = identity) →
      Safe (policy kernel argv layout start) world
        (openTreePath kernel message path >>= fun object =>
          verifyPinnedTree kernel message object directory identity >>= fun _ =>
            pure ⟨path, object, false⟩) post := by
    intro identity hidentity
    refine Safe.bind (openTreePath_safe fun object =>
      Safe.bind (verifyPinnedTree_safe fun hhas hdirectory => ?_))
    exact safe_pure (h object (fun identity' hidentity' => hidentity identity' hidentity' ▸ hhas) hdirectory)
  cases expected with
  | some identity =>
    exact Safe.bind (safe_pure (hpin identity fun identity' h' => (Option.mem_some.1 h').symm))
  | none => exact Safe.bind (ask_safe fun _ => hpin _ fun identity' h' => by cases h')

/-- What is attached is the object that was expected, and read-only where it is to be. -/
theorem bindMountFd_safe {tree : Tree} {destination : String} {readonly : Bool} {expected : MountIdentity}
    {directory : Bool} {post : Unit → World → Prop} (htree : tree.readonly = false)
    (h : (∀ identity ∈ expected, hasIdentity tree.object identity) → tree.object.directory = directory →
      Permitted kernel argv layout start world (.attach destination { tree with readonly := readonly }) ∧
        post () (world.mounted [(destination, .tree { tree with readonly := readonly })])) :
    Safe (policy kernel argv layout start) world
      (bindMountFd kernel tree destination readonly expected directory) post := by
  refine Safe.bind (Safe.bind (ask_safe fun _ => safe_lift fun u hu => ?_))
  have hok := raiseIf_eq_ok.1 hu
  simp only [not_or, not_exists, not_and, not_not] at hok
  obtain ⟨hpermitted, hpost⟩ := h hok.1 hok.2
  have hattach : Safe (policy kernel argv layout start) world
      (call kernel ("descriptor-only bind move_mount failed at " ++ destination)
        (.attach destination { tree with readonly := readonly })) post := call_safe hpermitted hpost
  refine Safe.bind ?_
  unfold setReadonly
  cases readonly with
  | true => exact ask_safe fun _ => hattach
  | false =>
    refine safe_pure ?_
    rwa [show tree = { tree with readonly := false } from htree ▸ rfl]

theorem pinAndBindPath_safe {source destination : String} {readonly : Bool} {expected : MountIdentity}
    {directory : Bool} {post : Unit → World → Prop}
    (h : ∀ object : Object, (∀ identity ∈ expected, hasIdentity object identity) →
      object.directory = directory →
      Permitted kernel argv layout start world (.attach destination ⟨source, object, readonly⟩) ∧
        post () (world.mounted [(destination, .tree ⟨source, object, readonly⟩)])) :
    Safe (policy kernel argv layout start) world
      (pinAndBindPath kernel source destination readonly expected directory) post :=
  Safe.bind (pinMountPath_safe fun object hidentity hdirectory =>
    bindMountFd_safe rfl fun _ _ => h object hidentity hdirectory)

theorem bindRuntimeDirectory_safe {source directory tooLong : String} {post : Unit → World → Prop}
    (hpropagates : world.propagates = false)
    (hown : (ownTrees layout)[world.mounts.length]? = some (layout.root ++ "/" ++ directory, source))
    (h : ∀ tree : Tree, tree.path = source →
      post () (world.mounted [(layout.root ++ "/" ++ directory, .tree tree)])) :
    Safe (policy kernel argv layout start) world
      (bindRuntimeDirectory kernel layout.root source directory tooLong) post := by
  refine Safe.bind (formatOrFail_safe (Safe.bind (ask_safe fun _ => pinAndBindPath_safe ?_)))
  exact fun object _ _ => ⟨⟨hpropagates, Or.inl hown⟩, h _ rfl⟩

/-- The loop over the typed mounts: the mounts that are read are made, in their order. -/
theorem makeMountsFrom_safe {index : ℕ} {world : World} (hpropagates : world.propagates = false)
    (hown : (ownTrees layout).length ≤ world.mounts.length)
    (hread : ∀ mount ∈ readMountsFrom argv layout.root index,
      mount ∈ readMountsFrom argv layout.root firstMountArgument) :
    Safe (policy kernel argv layout start) world (makeMountsFrom kernel argv layout.root index)
      fun separator world' => ∃ mounts typed,
        bindMountsFrom argv layout.root index = .ok (mounts, separator) ∧
        List.Forall₂ (fun mount entry => ∃ tree, entry = (mount.destination, Content.tree tree) ∧
          mount.Carries tree) mounts typed ∧ world' = world.mounted typed := by
  induction index using makeMountsFrom.induct argv generalizing world with
  | case1 index hindex hseparator =>
    rw [makeMountsFrom, if_pos hindex, if_pos hseparator, bindMountsFrom, if_pos hindex, if_pos hseparator]
    refine safe_pure ⟨[], [], rfl, .nil, ?_⟩
    simp [World.mounted]
  | case2 index hindex hseparator ih =>
    rw [makeMountsFrom, if_pos hindex, if_neg hseparator, bindMountsFrom, if_pos hindex, if_neg hseparator]
    rw [readMountsFrom, if_pos ⟨hindex, hseparator⟩] at hread
    refine Safe.bind (safe_lift fun mount hmount => ?_)
    rw [hmount] at hread ⊢
    dsimp only at hread
    obtain ⟨hmem, hrest⟩ := List.forall_mem_cons.1 hread
    refine Safe.bind (pinAndBindPath_safe fun object hidentity hdirectory => ?_)
    have hcarries : mount.Carries ⟨mount.source, object, mount.readonly⟩ := by
      obtain ⟨hdevice, hinode⟩ := hidentity (mount.device, mount.inode) rfl
      exact ⟨rfl, hdevice, hinode, hdirectory, rfl⟩
    have hpropagates' : (world.mounted [(mount.destination,
        .tree ⟨mount.source, object, mount.readonly⟩)]).propagates = false := hpropagates
    have hown' : (ownTrees layout).length ≤ (world.mounted [(mount.destination,
        .tree ⟨mount.source, object, mount.readonly⟩)]).mounts.length := by
      rw [World.mounted, List.length_append]
      exact Nat.le_add_right_of_le hown
    refine ⟨⟨hpropagates, Or.inr ⟨hown, mount, hmem, rfl, hcarries⟩⟩, ?_⟩
    refine (ih hpropagates' hown' hrest).weaken ?_
    rintro separator world' ⟨mounts, typed, hmounts, htyped, rfl⟩
    refine ⟨mount :: mounts, (mount.destination, .tree ⟨mount.source, object, mount.readonly⟩) :: typed,
      ?_, .cons ⟨_, rfl, hcarries⟩ htyped, ?_⟩
    · rw [ok_bind, hmounts]
      rfl
    · simp [World.mounted]
  | case3 index hindex =>
    rw [makeMountsFrom, if_neg hindex]
    exact safe_lift fun separator h => by cases h

/-! ## The root -/

theorem remountBind_safe {target failure : String} {readonly : Bool} {post : Unit → World → Prop}
    (hpropagates : world.propagates = false) (h : post () (world.remounted target readonly)) :
    Safe (policy kernel argv layout start) world (remountBind kernel target readonly failure) post :=
  Safe.bind (ask_safe fun _ => call_safe hpropagates h)

/-- The last remount counts. -/
theorem World.remounted_remounted (world : World) (target : String) (readonly readonly' : Bool) :
    (world.remounted target readonly).remounted target readonly' = world.remounted target readonly' := by
  have hcontent : ∀ content : Content,
      (content.remount readonly).remount readonly' = content.remount readonly' := by
    intro content
    cases content with
    | tree t => rfl
    | filesystem type flags data => rfl
    | device source => rfl
  simp only [World.remounted, List.map_map, World.mk.injEq, true_and, and_true]
  refine List.map_congr_left fun entry _ => ?_
  rw [Function.comp_apply]
  by_cases hentry : entry.1 = target
  · rw [if_pos hentry, if_pos hentry, if_pos hentry, hcontent]
  · rw [if_neg hentry, if_neg hentry]

theorem World.remounted_mounted {world : World} (h : world.mounts = []) (target : String) (tree : Tree)
    (readonly : Bool) : (world.mounted [(target, .tree tree)]).remounted target readonly =
      world.mounted [(target, .tree { tree with readonly := readonly })] := by
  simp only [World.mounted, World.remounted, h, List.nil_append, List.map_cons, List.map_nil, if_true,
    Content.remount]

theorem prepareExtractedRoot_safe {post : Unit → World → Prop} (hmounts : world.mounts = [])
    (h : ∀ tree : Tree, tree.path = layout.root → tree.object.directory = true →
      post () ((({ world with propagates := false }).mounted [(layout.root, .tree tree)]).remounted
        layout.root true)) :
    Safe (policy kernel argv layout start) world (prepareExtractedRoot kernel layout.root) post := by
  refine Safe.bind (call_safe trivial (Safe.bind (Safe.bind (pinMountPath_safe ?_))))
  intro object _ hdirectory
  have hown : (ownTrees layout)[world.mounts.length]? = some (layout.root, layout.root) := by
    rw [hmounts]
    rfl
  refine call_safe ⟨rfl, Or.inl hown⟩ ?_
  refine Safe.bind (Safe.bind (formatOrFail_safe (call_safe trivial ?_)))
  exact remountBind_safe rfl (h ⟨layout.root, object, false⟩ rfl hdirectory)

theorem World.after_detach {world : World} {target : String} (h : world.host = some target) :
    world.after (.detach target) = { world with host := none } := if_pos h

theorem enterRoot_safe {post : Unit → World → Prop} (hpropagates : world.propagates = false)
    (h : post () { world with
      host := none
      directory := "/"
      mounts := ((world.mounts.map fun entry => (inside layout.root entry.1, entry.2)).map fun entry =>
        if entry.1 = "/" then (entry.1, entry.2.remount true) else entry) }) :
    Safe (policy kernel argv layout start) world (enterRoot kernel layout.root) post := by
  let entered : World := { world with
    host := none
    directory := "/"
    mounts := world.mounts.map fun entry => (inside layout.root entry.1, entry.2) }
  refine Safe.bind (call_safe trivial (Safe.bind (call_safe hpropagates (Safe.bind (call_safe trivial ?_)))))
  refine Safe.bind (call_safe hpropagates ?_)
  rw [World.after_detach rfl]
  refine Safe.bind (remountBind_safe hpropagates (Safe.bind (call_safe trivial ?_)))
  refine remountBind_safe hpropagates ?_
  show post () ((entered.remounted "/" false).remounted "/" true)
  rw [World.remounted_remounted]
  exact h

theorem World.mounted_mounted (world : World) (entries entries' : List (String × Content)) :
    (world.mounted entries).mounted entries' = world.mounted (entries ++ entries') := by
  simp only [World.mounted, List.append_assoc]

/-- A loop that mounts one thing after the other. -/
theorem mounts_safe {γ : Type} {p : γ → Runner Unit} (entry : γ → String × Content)
    (h : ∀ c (world : World) (post : Unit → World → Prop), world.propagates = false →
      post () (world.mounted [entry c]) → Safe (policy kernel argv layout start) world (p c) post)
    {l : List γ} (hpropagates : world.propagates = false) :
    Safe (policy kernel argv layout start) world (l.forM p) fun _ world' =>
      world' = world.mounted (l.map entry) := by
  have hloop : Safe (policy kernel argv layout start) world (l.forM p) fun _ world' =>
      world'.mounted [] = world.mounted (l.map entry) := by
    refine safe_forM (fun left (world' : World) =>
      world'.mounted (left.map entry) = world.mounted (l.map entry))
      ?_ rfl
    intro c left world' hinv
    have hpropagates' : world'.propagates = false := by
      have := congrArg World.propagates hinv
      exact this.trans hpropagates
    refine h c world' _ hpropagates' ?_
    rwa [World.mounted_mounted]
  refine hloop.weaken fun _ world' hworld => ?_
  rw [← hworld, World.mounted, List.append_nil]

theorem mountRuntimeFilesystem_safe {fs : RuntimeFilesystem} {post : Unit → World → Prop}
    (hpropagates : world.propagates = false)
    (h : post () (world.mounted [fs.entry layout.root])) :
    Safe (policy kernel argv layout start) world (mountRuntimeFilesystem kernel layout.root fs) post :=
  Safe.bind (formatOrFail_safe (call_safe hpropagates h))

theorem bindRuntimeDevice_safe {device : String} {post : Unit → World → Prop}
    (hpropagates : world.propagates = false)
    (h : post () (world.mounted [deviceEntry layout.root device])) :
    Safe (policy kernel argv layout start) world (bindRuntimeDevice kernel layout.root device) post :=
  Safe.bind (formatOrFail_safe (Safe.bind (call_safe trivial (call_safe hpropagates h))))

theorem mountRuntimeFilesystems_safe {post : Unit → World → Prop} (hpropagates : world.propagates = false)
    (h : post () (world.mounted (runtimeMounts layout.root))) :
    Safe (policy kernel argv layout start) world (mountRuntimeFilesystems kernel layout.root) post := by
  have hfilesystems : Safe (policy kernel argv layout start) world
      (runtimeFilesystems.forM (mountRuntimeFilesystem kernel layout.root)) _ :=
    mounts_safe (RuntimeFilesystem.entry layout.root)
      (fun fs _ _ hpropagates' hpost => mountRuntimeFilesystem_safe hpropagates' hpost) hpropagates
  refine Safe.bind (hfilesystems.weaken ?_)
  rintro _ world' rfl
  have hdevices : Safe (policy kernel argv layout start)
      (world.mounted (runtimeFilesystems.map (RuntimeFilesystem.entry layout.root)))
      (runtimeDevices.forM (bindRuntimeDevice kernel layout.root)) _ :=
    mounts_safe (deviceEntry layout.root)
      (fun device _ _ hpropagates' hpost => bindRuntimeDevice_safe hpropagates' hpost) hpropagates
  refine hdevices.weaken ?_
  rintro _ world'' rfl
  rwa [World.mounted_mounted]

theorem closeNonStdioFds_safe {post : Unit → World → Prop}
    (h : post () { world with
      files := world.files.filter fun file => file < 3 ∨ kernel.fileLimit ≤ file }) :
    Safe (policy kernel argv layout start) world (closeNonStdioFds kernel) post := by
  let inv (left : List ℕ) (world' : World) : Prop :=
    { world' with files := world'.files.filter fun file => file ∉ left } = { world with
      files := world.files.filter fun file => file ∉ List.range' 3 (kernel.fileLimit - 3) }
  refine (safe_forM inv (fun file left world' hinv => ?_) rfl).weaken ?_
  · refine safe_act fun n effect heffect => ?_
    split at heffect
    · cases heffect
      refine ⟨trivial, Eq.trans ?_ hinv⟩
      simp [policy, World.after, List.filter_filter, Bool.and_comm]
    · cases heffect
  · intro u world' hworld
    have hnil : { world' with files := world'.files.filter fun file => file ∉ [] } = world' := by simp
    have hworld' : world' = { world with
        files := world.files.filter fun file => file ∉ List.range' 3 (kernel.fileLimit - 3) } :=
      hnil.symm.trans hworld
    have hfiles : (fun file => decide (file ∉ List.range' 3 (kernel.fileLimit - 3))) = fun file =>
        decide (file < 3 ∨ kernel.fileLimit ≤ file) := by
      funext file
      rw [decide_eq_decide, List.mem_range'_1]
      omega
    rw [hworld', hfiles]
    exact h

/-- The environment with the variables of the runtime set, one after the other. -/
def runtimeUpdate : List (String × String) → (String → Option String) → String → Option String :=
  fun entries environment => entries.foldl
    (fun environment entry => Function.update environment entry.1 (some entry.2)) environment

theorem setRuntimeEnvironment_safe {post : Unit → World → Prop}
    (h : post () { world with environment := runtimeUpdate runtimeEnvironment world.environment }) :
    Safe (policy kernel argv layout start) world setRuntimeEnvironment post := by
  let inv (left : List (String × String)) (world' : World) : Prop :=
    { world' with environment := runtimeUpdate left world'.environment } =
      { world with environment := runtimeUpdate runtimeEnvironment world.environment }
  refine (safe_forM inv (fun entry left world' hinv => ?_) rfl).weaken ?_
  · refine safe_act fun n effect heffect => ?_
    cases heffect
    exact ⟨trivial, hinv⟩
  · intro u world' hworld
    exact (show world' = _ from hworld) ▸ h

/-! ## The whole run -/

theorem inside_append {root path : String} (h : path ≠ "") : inside root (root ++ path) = path := by
  have hne : root ++ path ≠ root := by
    intro heq
    have hlength := congrArg String.length heq
    rw [String.length_append] at hlength
    exact h (String.length_eq_zero_iff.1 (by omega))
  rw [inside, if_neg hne, String.toList_append, List.drop_left, String.ofList_toList]

theorem readMountsFrom_of_bindMountsFrom {root : String} {index separator : ℕ} {mounts : List Mount}
    (h : bindMountsFrom argv root index = .ok (mounts, separator)) :
    readMountsFrom argv root index = mounts := by
  induction index using makeMountsFrom.induct argv generalizing mounts with
  | case1 index hindex hseparator =>
    rw [bindMountsFrom, if_pos hindex, if_pos hseparator] at h
    cases h
    rw [readMountsFrom, if_neg fun hboth => hboth.2 hseparator]
  | case2 index hindex hseparator ih =>
    rw [bindMountsFrom, if_pos hindex, if_neg hseparator, bind_eq_ok] at h
    obtain ⟨mount, hmount, h⟩ := h
    rw [bind_eq_ok] at h
    obtain ⟨⟨rest, separator'⟩, hrest, h⟩ := h
    cases h
    rw [readMountsFrom, if_pos ⟨hindex, hseparator⟩, hmount]
    exact congrArg _ (ih hrest)
  | case3 index hindex =>
    rw [bindMountsFrom, if_neg hindex] at h
    cases h

/-- The remounts of the root leave what is below it alone. -/
theorem remounts_below {root : String} {entries : List (String × Content)}
    (h : ∀ entry ∈ entries, inside root entry.1 ≠ "/") :
    ((entries.map fun entry => if entry.1 = root then (entry.1, entry.2.remount true) else entry).map
      fun entry => (inside root entry.1, entry.2)).map
        (fun entry => if entry.1 = "/" then (entry.1, entry.2.remount true) else entry) =
      entries.map fun entry => (inside root entry.1, entry.2) := by
  rw [List.map_map, List.map_map]
  refine List.map_congr_left fun entry hentry => ?_
  have hroot : entry.1 ≠ root := fun heq => h entry hentry (if_pos heq)
  rw [Function.comp_apply, Function.comp_apply, if_neg hroot, if_neg (h entry hentry)]

theorem inside_slash_append (root path : String) : inside root (root ++ "/" ++ path) = "/" ++ path := by
  rw [String.append_assoc, inside_append]
  simp

theorem inside_runtimeMounts (root : String) :
    (runtimeMounts root).map (fun entry => (inside root entry.1, entry.2)) = runtimeMounts "" := by
  have hdevice : ∀ device : String, inside root (root ++ "/dev/" ++ device) = "/dev/" ++ device := by
    intro device
    rw [String.append_assoc, inside_append]
    simp
  rw [runtimeMounts, List.map_append, List.map_map, List.map_map, runtimeMounts]
  congr 1
  · refine List.map_congr_left fun fs _ => ?_
    rw [Function.comp_apply, RuntimeFilesystem.entry, inside_slash_append, RuntimeFilesystem.entry,
      String.empty_append]
  · refine List.map_congr_left fun device _ => ?_
    rw [Function.comp_apply, deviceEntry, hdevice, deviceEntry, String.empty_append]

theorem runtimeMounts_ne_root : ∀ entry ∈ runtimeMounts "", entry.1 ≠ "/" := by decide

/-- The mounts that were made before the root is entered become those of the sandbox. -/
theorem entered_mounts {root : String} {tree workspace outputs home : Tree} {typed : List (String × Content)}
    (htyped : ∀ entry ∈ typed, inside root entry.1 ≠ "/") :
    (((((root, Content.tree tree) :: (root ++ "/" ++ "workspace", .tree workspace) ::
      (root ++ "/" ++ "outputs", .tree outputs) :: (root ++ "/" ++ "root", .tree home) ::
        (runtimeMounts root ++ typed)).map fun entry =>
          if entry.1 = root then (entry.1, entry.2.remount true) else entry).map
        fun entry => (inside root entry.1, entry.2)).map
        fun entry => if entry.1 = "/" then (entry.1, entry.2.remount true) else entry) =
      sandboxMounts { tree with readonly := true } workspace outputs home
        (typed.map fun entry => (inside root entry.1, entry.2)) := by
  have hbelow : ∀ entry ∈ (root ++ "/" ++ "workspace", Content.tree workspace) ::
      (root ++ "/" ++ "outputs", .tree outputs) :: (root ++ "/" ++ "root", .tree home) ::
        (runtimeMounts root ++ typed), inside root entry.1 ≠ "/" := by
    have hruntime : ∀ entry ∈ runtimeMounts root, inside root entry.1 ≠ "/" := by
      intro entry hentry
      refine runtimeMounts_ne_root (inside root entry.1, entry.2) ?_
      rw [← inside_runtimeMounts root]
      exact List.mem_map_of_mem hentry
    refine List.forall_mem_cons.2 ⟨?_, List.forall_mem_cons.2 ⟨?_, List.forall_mem_cons.2 ⟨?_,
      List.forall_mem_append.2 ⟨hruntime, htyped⟩⟩⟩⟩
    · rw [inside_slash_append]
      decide
    · rw [inside_slash_append]
      decide
    · rw [inside_slash_append]
      decide
  have hroot : inside root root = "/" := if_pos rfl
  rw [List.map_cons, List.map_cons, List.map_cons, remounts_below hbelow, if_pos rfl, hroot, if_pos rfl]
  simp only [List.map_cons, List.map_append, inside_slash_append, inside_runtimeMounts]
  rfl

theorem runtimeUpdate_mem (environment : String → Option String) :
    ∀ entry ∈ runtimeEnvironment, runtimeUpdate runtimeEnvironment environment entry.1 = some entry.2 := by
  simp [runtimeEnvironment, runtimeUpdate, Function.update]

theorem runtimeUpdate_not_mem {environment : String → Option String} {name : String} :
    ∀ {entries : List (String × String)} (_ : name ∉ entries.map Prod.fst),
      runtimeUpdate entries environment name = environment name := by
  intro entries
  induction entries generalizing environment with
  | nil => exact fun _ => rfl
  | cons entry entries ih =>
    intro hname
    rw [List.map_cons, List.mem_cons, not_or] at hname
    exact (ih hname.2).trans (Function.update_of_ne hname.1 ..)

theorem runNamespaceInit_safe (directory : String) (files : List ℕ) (environment : String → Option String) :
    Safe (policy kernel argv layout (.start directory files environment))
      (.start directory files environment) (runNamespaceInit kernel argv layout) fun _ _ => True := by
  refine Safe.bind (call_safe trivial (Safe.bind (call_safe trivial ?_)))
  refine Safe.bind (prepareExtractedRoot_safe ?_ ?_)
  · rfl
  intro root hpath hroot
  refine Safe.bind (remountBind_safe rfl ?_)
  rw [World.remounted_remounted, World.remounted_mounted rfl]
  refine Safe.bind (Safe.bind (bindRuntimeDirectory_safe rfl rfl fun workspace hworkspace => ?_))
  refine Safe.bind (bindRuntimeDirectory_safe rfl rfl fun outputs houtputs => ?_)
  refine bindRuntimeDirectory_safe rfl rfl fun home hhome => ?_
  refine Safe.bind (mountRuntimeFilesystems_safe rfl ?_)
  refine Safe.bind ((makeMountsFrom_safe rfl ?_ fun _ h => h).weaken ?_)
  · exact Nat.le_add_right 4 9
  rintro separator _ ⟨mounts, typed, hmounts, htyped, rfl⟩
  refine Safe.bind (remountBind_safe rfl (Safe.bind (enterRoot_safe rfl ?_)))
  refine Safe.bind (closeNonStdioFds_safe (Safe.bind (call_safe trivial ?_)))
  refine Safe.bind (setRuntimeEnvironment_safe (call_safe ⟨rfl, fun hbelow => ?_⟩ trivial))
  refine ⟨mounts, separator, hmounts, rfl, ?_⟩
  rw [readMountsFrom_of_bindMountsFrom hmounts] at hbelow
  have hinside : ∀ entry ∈ typed, inside layout.root entry.1 ≠ "/" := by
    intro entry hentry
    obtain ⟨mount, hmount, tree, rfl, -⟩ := forall₂_mem_right htyped hentry
    exact hbelow mount hmount
  have hsandbox := @entered_mounts layout.root { root with readonly := false } workspace outputs home typed
    hinside
  refine ⟨rfl, rfl, rfl, rfl, rfl, ?_, rfl, runtimeUpdate_mem environment, fun _ => runtimeUpdate_not_mem⟩
  refine ⟨{ root with readonly := true }, workspace, outputs, home, _, hsandbox, hpath, rfl, hroot,
    hworkspace, houtputs, hhome, ?_⟩
  rw [List.forall₂_map_left_iff, List.forall₂_map_right_iff]
  refine htyped.imp ?_
  rintro mount _ ⟨tree, rfl, hcarries⟩
  exact ⟨tree, rfl, hcarries⟩

end

/-- **Nothing else is attached.**  Whatever the paths name at every call and wherever the run ends: a tree
    is attached only after the mounts were made private; the first four come from the paths of the layout,
    the root, the workspace, the outputs and the home, in this order; every other one, wherever it goes,
    is a typed mount that was read, opened from its source and the object with the device, the inode and
    the type of the mount, and already read-only if the mount is. -/
theorem attached_validated (kernel : Kernel) (argv : List String) (layout : Layout)
    (before after : List Action) (destination : String) (tree : Tree)
    (h : (runNamespaceInit kernel argv layout 0).effects = before ++ .attach destination tree :: after) :
    let world := before.foldl World.after (.start "/" [] fun _ => none)
    world.propagates = false ∧
      ((ownTrees layout)[world.mounts.length]? = some (destination, tree.path) ∨
        (ownTrees layout).length ≤ world.mounts.length ∧
          ∃ mount ∈ readMountsFrom argv layout.root firstMountArgument,
            mount.destination = destination ∧ mount.Carries tree) := by
  have hallows := (@runNamespaceInit_safe kernel argv layout "/" [] (fun _ => none) 0).1
  rw [h] at hallows
  exact hallows.allowed

/-- A kernel that lets every call succeed. -/
def exampleKernel : Kernel where
  succeeds _ := true
  strerror _ := "Operation not permitted"
  stat _ _ := ⟨2049, 2, true⟩
  openTree _ _ name :=
    if name = "src" then ⟨2049, 131074, true⟩
    else if name = "out" then ⟨2049, 131075, false⟩ else ⟨2049, 2, true⟩
  statvfs _ _ := ⟨true, true, false⟩
  openMax := 5

/-- The run of the tool with the binds of the example. -/
def exampleRun : List Action :=
  (runNamespaceInit exampleKernel (command exampleLayout exampleBinds.roBinds exampleBinds.rwBinds ["-l"])
    exampleLayout 0).effects

/-- The read-only input. -/
theorem attached_validated_input :
    ∃ mount ∈ readMountsFrom (command exampleLayout exampleBinds.roBinds exampleBinds.rwBinds ["-l"])
        "/r/root" firstMountArgument,
      mount.destination = "/r/root/inputs/src" ∧ mount.Carries ⟨"/src", ⟨2049, 131074, true⟩, true⟩ := by
  have h := (attached_validated exampleKernel
    (command exampleLayout exampleBinds.roBinds exampleBinds.rwBinds ["-l"]) exampleLayout
    (exampleRun.take 25) (exampleRun.drop 26) "/r/root/inputs/src" ⟨"/src", ⟨2049, 131074, true⟩, true⟩
    (by decide +kernel)).2
  exact (h.resolve_left (by decide +kernel)).2

/-- The binds of the launcher, with the paths that the tool sees. -/
def typedMounts (layout : Layout) (binds : Binds) : List (String × Mount) :=
  binds.roBinds.map (fun bind => (bind.destination, mountOf layout.root .readOnly bind)) ++
    binds.rwBinds.map fun bind => (bind.destination, mountOf layout.root .readWrite bind)

theorem destination_ne {host : Host} {kind : BindKind} {bind : Bind} (h : Parsed host kind bind) :
    bind.destination ≠ "" ∧ bind.destination ≠ "/" := by
  have hbelow : ∃ root, StrictlyBelow bind.destination root := by
    cases kind with
    | readOnly => exact ⟨_, h.allowed⟩
    | readWrite => exact h.allowed.elim (fun h => ⟨_, h⟩) fun h => ⟨_, h⟩
  obtain ⟨root, -, hparts⟩ := hbelow
  constructor
  · intro hempty
    have habsolute := h.destination
    rw [hempty] at habsolute
    exact absurd habsolute (by decide)
  · intro hslash
    rw [hslash] at hparts
    exact hparts "" (by decide) (by decide)

theorem fits_of_parsed {host : Host} {kind : BindKind} {bind : Bind} {root : String}
    (h : Parsed host kind bind)
    (hidentity : 1 ≤ bind.device ∧ bind.device ≤ 2 ^ 64 - 1 ∧ 1 ≤ bind.inode ∧ bind.inode ≤ 2 ^ 64 - 1)
    (hpath : (root ++ bind.destination).utf8ByteSize < pathBufferSize) : Fits root bind := by
  obtain ⟨hdevice, hdevice', hinode, hinode'⟩ := hidentity
  exact ⟨h.absolute, h.destination, hdevice, by omega, hinode, by omega, hpath⟩

theorem inside_mountOf {layout : Layout} {kind : BindKind} {bind : Bind} (h : bind.destination ≠ "") :
    inside layout.root (mountOf layout.root kind bind).destination = bind.destination := inside_append h

/-- The mounts that the runner reads, with their paths in the sandbox. -/
theorem map_mountOf {layout : Layout} {kind : BindKind} {binds : List Bind}
    (h : ∀ bind ∈ binds, bind.destination ≠ "") :
    (binds.map (mountOf layout.root kind)).map
        (fun mount => (inside layout.root mount.destination, mount)) =
      binds.map fun bind => (bind.destination, mountOf layout.root kind bind) := by
  rw [List.map_map]
  refine List.map_congr_left fun bind hbind => ?_
  rw [Function.comp_apply, inside_mountOf (h bind hbind)]

/-- **The tool runs in the sandbox only.**  Whatever the paths name at every call: where the tool is
    executed, it is the tool of the layout with the arguments that the launcher was given, in the finished
    sandbox with exactly the binds that the launcher has validated. -/
theorem tool_confined (kernel : Kernel) (host : Host) (layout : Layout) (arguments rest tools : List String)
    (binds : Binds) (directory : String) (files : List ℕ) (environment : String → Option String)
    (before after : List Action) (path : String) (command' : List String)
    (h : validateBinds host arguments = .ok (binds, rest))
    (hidentity : ∀ bind ∈ binds.roBinds ++ binds.rwBinds, 1 ≤ bind.device ∧ bind.device ≤ 2 ^ 64 - 1 ∧
      1 ≤ bind.inode ∧ bind.inode ≤ 2 ^ 64 - 1)
    (hpath : ∀ bind ∈ binds.roBinds ++ binds.rwBinds,
      (layout.root ++ bind.destination).utf8ByteSize < pathBufferSize)
    (hexec : (runNamespaceInit kernel (command layout binds.roBinds binds.rwBinds tools) layout 0).effects =
      before ++ .exec path command' :: after) :
    path = layout.loader ∧ command' = packagedCommand layout tools ∧
      Confined kernel.fileLimit layout (.start directory files environment) (typedMounts layout binds)
        (before.foldl World.after (.start directory files environment)) := by
  obtain ⟨options, -, hvalid⟩ := validateBinds_valid h
  obtain ⟨hro, hrw⟩ := hvalid.parsed
  obtain ⟨separator, hmounts, htools⟩ := @bindTypedMounts_mounts layout binds.roBinds binds.rwBinds tools
    (fun bind hbind => fits_of_parsed (hro bind hbind) (hidentity bind (List.mem_append_left _ hbind))
      (hpath bind (List.mem_append_left _ hbind)))
    (fun bind hbind => fits_of_parsed (hrw bind hbind) (hidentity bind (List.mem_append_right _ hbind))
      (hpath bind (List.mem_append_right _ hbind)))
  have hallows := (@runNamespaceInit_safe kernel (command layout binds.roBinds binds.rwBinds tools) layout
    directory files environment 0).1
  rw [hexec] at hallows
  obtain ⟨hloader, hconfined⟩ := hallows.allowed
  have hbelow : ∀ mount ∈ readMountsFrom (command layout binds.roBinds binds.rwBinds tools) layout.root
      firstMountArgument, inside layout.root mount.destination ≠ "/" := by
    rw [readMountsFrom_of_bindMountsFrom hmounts]
    refine List.forall_mem_append.2 ⟨fun mount hmount => ?_, fun mount hmount => ?_⟩
    · obtain ⟨bind, hbind, rfl⟩ := List.mem_map.1 hmount
      rw [inside_mountOf (destination_ne (hro bind hbind)).1]
      exact (destination_ne (hro bind hbind)).2
    · obtain ⟨bind, hbind, rfl⟩ := List.mem_map.1 hmount
      rw [inside_mountOf (destination_ne (hrw bind hbind)).1]
      exact (destination_ne (hrw bind hbind)).2
  obtain ⟨mounts, separator', hmounts', hcommand, hsandbox⟩ := hconfined hbelow
  obtain ⟨rfl, rfl⟩ := Prod.mk.inj (Except.ok.inj (hmounts.symm.trans hmounts'))
  rw [htools] at hcommand
  rw [List.map_append, map_mountOf fun bind hbind => (destination_ne (hro bind hbind)).1,
    map_mountOf fun bind hbind => (destination_ne (hrw bind hbind)).1] at hsandbox
  exact ⟨hloader, hcommand, hsandbox⟩

/-- The tool of the example. -/
theorem tool_confined_example :
    Confined 5 exampleLayout (.start "/home" [0, 1, 2, 7] fun _ => none)
      [("/inputs/src", ⟨true, "/src", "/r/root/inputs/src", 2049, 131074, true⟩),
        ("/outputs/image", ⟨false, "/out", "/r/root/outputs/image", 2049, 131075, false⟩)]
      (exampleRun.dropLast.foldl World.after (.start "/home" [0, 1, 2, 7] fun _ => none)) := by
  have hvalid : validateBinds exampleHost
      ["--rw-bind", "/out:/outputs/image", "--ro-bind", "/src:/inputs/src"] = .ok (exampleBinds, []) := by
    decide +kernel
  exact (tool_confined exampleKernel exampleHost exampleLayout _ [] ["-l"] exampleBinds "/home" [0, 1, 2, 7]
    (fun _ => none) exampleRun.dropLast [] "/lib64/ld-linux-x86-64.so.2"
    (packagedCommand exampleLayout ["-l"])
    hvalid (by decide) (by decide) (by decide +kernel)).2.2

end RulesMkosi.NamespaceRunner
