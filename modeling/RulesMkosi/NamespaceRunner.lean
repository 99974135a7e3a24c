/-
  The typed mounts of the namespace runner (`mkosi/debian/namespace_runner.c`).

  The runner reads the command line that the launcher builds: six arguments for each
  mount from a fixed index on, up to the first `--` in the place of an option.  It makes
  the mounts as it reads them; here they are collected.  `bindTypedMounts_command`: what
  it reads are the binds that the launcher has validated.
-/
import RulesMkosi.DebianLauncher
import RulesMkosi.Lib.Text

namespace RulesMkosi.NamespaceRunner

open DebianLauncher

/-- `PATH_BUFFER_SIZE` -/
def pathBufferSize : ℕ := 4096

/-- `FIRST_MOUNT_ARGUMENT` -/
def firstMountArgument : ℕ := 7

/-- `TYPED_MOUNT_ARGUMENTS` -/
def typedMountArguments : ℕ := 6

/-- The arguments of `pin_and_bind_path`. -/
structure Mount where
  readonly : Bool
  source : String
  destination : String
  device : ℕ
  inode : ℕ
  directory : Bool
  deriving Repr, DecidableEq

/-! The runner ends with a message where it fails. -/

def parseMountMode (option : String) : Except String Bool :=
  if option = "--ro-bind" then .ok true
  else if option = "--rw-bind" then .ok false
  else .error ("unknown namespace mount option: " ++ option)

def isMountType (type : String) : Bool := type = "dir" ∨ type = "file"

/-- `strtoull(text, &end, 10)` of a text that starts with a digit: the value, the text from `end`
    on, and whether `errno` is set -/
def strtoull (text : Str) : ℕ × Str × Bool :=
  let value := Nat.ofDigitChars 10 (text.takeWhile Char.isDigit) 0
  if value < 2 ^ 64 then (value, text.dropWhile Char.isDigit, false)
  else (2 ^ 64 - 1, text.dropWhile Char.isDigit, true)

/-- The value of a positive decimal number; `none` for any other text. -/
def parseIdentityNumber (text : Str) : Option ℕ :=
  if text.head?.any Char.isDigit then
    match strtoull text with
    | (value, [], false) => if value ≠ 0 then some value else none
    | _ => none
  else none

def parseMountIdentity (device inode : String) : Except String (ℕ × ℕ) :=
  match parseIdentityNumber device.toList, parseIdentityNumber inode.toList with
  | some deviceNumber, some inodeNumber => .ok (deviceNumber, inodeNumber)
  | _, _ => .error ("namespace mount identity is invalid: device \"" ++ device ++ "\" and inode \"" ++
      inode ++ "\" must be positive decimal integers")

section
variable (argv : List String)

/-- `argv[index]` for an index below `argc` -/
def argument (index : ℕ) : String := argv.getD index ""

def bindTypedMount (index : ℕ) (root : String) : Except String Mount := do
  let readonly ← parseMountMode (argument argv index)
  raiseIf (argv.length ≤ index + 5 ∨ startsWith (argument argv (index + 1)) "/" = false ∨
      startsWith (argument argv (index + 2)) "/" = false ∨
      isMountType (argument argv (index + 5)) = false)
    "namespace mount options require fd, destination, identity, and type"
  let destination := root ++ argument argv (index + 2)
  raiseIf (pathBufferSize ≤ destination.utf8ByteSize) "namespace mount destination is too long"
  let (device, inode) ← parseMountIdentity (argument argv (index + 3)) (argument argv (index + 4))
  return ⟨readonly, argument argv (index + 1), destination, device, inode,
    argument argv (index + 5) = "dir"⟩

/-- The loop of `bind_typed_mounts`: the mounts that are made, and the index of the separator. -/
def bindMountsFrom (root : String) (index : ℕ) : Except String (List Mount × ℕ) :=
  if index < argv.length then
    if argument argv index = "--" then .ok ([], index)
    else do
      let mount ← bindTypedMount argv index root
      let (mounts, separator) ← bindMountsFrom root (index + typedMountArguments)
      return (mount :: mounts, separator)
  else .error "namespace runner command separator is missing"
termination_by argv.length - index
decreasing_by
  rw [typedMountArguments]
  omega

def bindTypedMounts (root : String) : Except String (List Mount × ℕ) :=
  bindMountsFrom argv root firstMountArgument

end

/-! ## Numbers -/

theorem parseIdentityNumber_repr {n : ℕ} (hpos : 0 < n) (hlt : n < 2 ^ 64) :
    parseIdentityNumber (toString n).toList = some n := by
  have htext : (toString n).toList = Nat.toDigits 10 n := Nat.toList_repr
  have hdigits : ∀ c ∈ (toString n).toList, c.isDigit = true := by
    intro c hc
    rw [htext] at hc
    exact Nat.isDigit_of_mem_toDigits (by decide) (by decide) hc
  have hne : (toString n).toList ≠ [] := by
    rw [htext]
    exact Nat.toDigits_ne_nil
  have hvalue : Nat.ofDigitChars 10 (toString n).toList 0 = n := by
    rw [htext, Nat.ofDigitChars_ten_toDigits]
  have hscan : strtoull (toString n).toList = (n, [], false) := by
    rw [strtoull, List.takeWhile_eq_self_iff.2 hdigits, List.dropWhile_eq_nil_iff.2 hdigits, hvalue,
      if_pos hlt]
  obtain ⟨c, rest, hcons⟩ := List.exists_cons_of_ne_nil hne
  have hhead : (toString n).toList.head?.any Char.isDigit = true := by
    rw [hcons]
    exact hdigits c (by rw [hcons]; exact List.mem_cons_self)
  rw [parseIdentityNumber, if_pos hhead, hscan]
  exact if_pos (Nat.pos_iff_ne_zero.1 hpos)

/-! ## Reading the command -/

/-- The mount of a bind. -/
def mountOf (root : String) (kind : BindKind) (bind : Bind) : Mount :=
  ⟨kind = .readOnly, bind.source, root ++ bind.destination, bind.device, bind.inode, bind.directory⟩

/-- The runner can carry out the bind. -/
structure Fits (root : String) (bind : Bind) : Prop where
  source : startsWith bind.source "/" = true
  destination : startsWith bind.destination "/" = true
  device_pos : 0 < bind.device
  device_lt : bind.device < 2 ^ 64
  inode_pos : 0 < bind.inode
  inode_lt : bind.inode < 2 ^ 64
  path : (root ++ bind.destination).utf8ByteSize < pathBufferSize

theorem argument_append (before rest : List String) (n : ℕ) :
    argument (before ++ rest) (before.length + n) = argument rest n := by
  rw [argument, argument, List.getD_eq_getElem?_getD, List.getD_eq_getElem?_getD,
    List.getElem?_append_right (Nat.le_add_right _ _), Nat.add_sub_cancel_left]

theorem bindTypedMount_arguments {root : String} {kind : BindKind} {bind : Bind} (h : Fits root bind)
    (before rest : List String) :
    bindTypedMount (before ++ (bindArguments kind bind ++ rest)) before.length root =
      .ok (mountOf root kind bind) := by
  have hargument : ∀ n, argument (before ++ (bindArguments kind bind ++ rest)) (before.length + n) =
      argument (bindArguments kind bind ++ rest) n := argument_append before _
  have hoption : argument (before ++ (bindArguments kind bind ++ rest)) before.length = kind.option :=
    hargument 0
  have hsource : argument (before ++ (bindArguments kind bind ++ rest)) (before.length + 1) = bind.source :=
    hargument 1
  have hdestination : argument (before ++ (bindArguments kind bind ++ rest)) (before.length + 2) =
      bind.destination := hargument 2
  have hdevice : argument (before ++ (bindArguments kind bind ++ rest)) (before.length + 3) =
      toString bind.device := hargument 3
  have hinode : argument (before ++ (bindArguments kind bind ++ rest)) (before.length + 4) =
      toString bind.inode := hargument 4
  have htype : argument (before ++ (bindArguments kind bind ++ rest)) (before.length + 5) =
      if bind.directory then "dir" else "file" := hargument 5
  have hmode : parseMountMode kind.option = .ok (decide (kind = .readOnly)) := by
    cases kind with
    | readOnly => rfl
    | readWrite => rfl
  have hlength : ¬ (before ++ (bindArguments kind bind ++ rest)).length ≤ before.length + 5 := by
    simp [bindArguments]
  have htypes : isMountType (if bind.directory then "dir" else "file") = true ∧
      decide ((if bind.directory then "dir" else "file") = "dir") = bind.directory := by
    cases bind.directory with
    | false => decide
    | true => decide
  have hidentity : parseMountIdentity (toString bind.device) (toString bind.inode) =
      .ok (bind.device, bind.inode) := by
    rw [parseMountIdentity, parseIdentityNumber_repr h.device_pos h.device_lt,
      parseIdentityNumber_repr h.inode_pos h.inode_lt]
  unfold bindTypedMount
  rw [hoption, hsource, hdestination, hdevice, hinode, htype, hmode, ok_bind, raiseIf_of_not, ok_bind]
  · dsimp only
    rw [raiseIf_of_not (Nat.not_le.2 h.path), ok_bind, hidentity, ok_bind]
    simp only [htypes.2]
    rfl
  · simp only [h.source, h.destination, htypes.1, hlength, Bool.true_eq_false, or_self, not_false_eq_true]

theorem option_ne_separator (kind : BindKind) : kind.option ≠ "--" := by
  cases kind with
  | readOnly => decide
  | readWrite => decide

/-- The loop over the mounts: `before` are the arguments that were read. -/
theorem bindMountsFrom_arguments {root : String} {tools : List String} :
    ∀ {binds : List (BindKind × Bind)} {before : List String}, (∀ item ∈ binds, Fits root item.2) →
      bindMountsFrom (before ++ (binds.flatMap (fun item => bindArguments item.1 item.2) ++ "--" :: tools))
        root before.length =
        .ok (binds.map fun item => mountOf root item.1 item.2, before.length + 6 * binds.length)
  | [], before, _ => by
    have hseparator : argument (before ++ "--" :: tools) before.length = "--" :=
      argument_append before ("--" :: tools) 0
    rw [List.flatMap_nil, List.nil_append, bindMountsFrom, if_pos (by simp), if_pos hseparator]
    rfl
  | (kind, bind) :: binds, before, h => by
    obtain ⟨hbind, hbinds⟩ := List.forall_mem_cons.1 h
    have hlength : (before ++ bindArguments kind bind).length = before.length + typedMountArguments := by
      simp [bindArguments, typedMountArguments]
    have ih := @bindMountsFrom_arguments root tools binds (before ++ bindArguments kind bind) hbinds
    rw [List.append_assoc, hlength] at ih
    have hoption : argument (before ++ (bindArguments kind bind ++
        (binds.flatMap (fun item => bindArguments item.1 item.2) ++ "--" :: tools))) before.length =
        kind.option := argument_append before _ 0
    rw [List.flatMap_cons, List.append_assoc, bindMountsFrom, if_pos (by simp [bindArguments]), hoption,
      if_neg (option_ne_separator kind), bindTypedMount_arguments hbind, ok_bind, ih, ok_bind]
    simp only [List.map_cons, List.length_cons, typedMountArguments]
    rw [show before.length + 6 + 6 * binds.length = before.length + 6 * (binds.length + 1) by omega]
    rfl

theorem bindTypedMounts_mounts {layout : Layout} {roBinds rwBinds : List Bind} {tools : List String}
    (hro : ∀ bind ∈ roBinds, Fits layout.root bind) (hrw : ∀ bind ∈ rwBinds, Fits layout.root bind) :
    ∃ separator, bindTypedMounts (command layout roBinds rwBinds tools) layout.root =
        .ok (roBinds.map (mountOf layout.root .readOnly) ++ rwBinds.map (mountOf layout.root .readWrite),
          separator) ∧
      (command layout roBinds rwBinds tools).drop (separator + 1) = tools := by
  let before : List String := [layout.namespaceRunner, layout.root, layout.workspace, layout.outputs,
    layout.home, layout.loader, layout.tool]
  let binds : List (BindKind × Bind) :=
    roBinds.map (fun bind => (.readOnly, bind)) ++ rwBinds.map fun bind => (.readWrite, bind)
  have hcommand : command layout roBinds rwBinds tools =
      before ++ (binds.flatMap (fun item => bindArguments item.1 item.2) ++ "--" :: tools) := by
    simp [command, mountArguments, before, binds, List.flatMap_append, List.flatMap_map]
  have hfits : ∀ item ∈ binds, Fits layout.root item.2 := by
    intro item hitem
    rcases List.mem_append.1 hitem with hitem | hitem
    · obtain ⟨bind, hbind, rfl⟩ := List.mem_map.1 hitem
      exact hro bind hbind
    · obtain ⟨bind, hbind, rfl⟩ := List.mem_map.1 hitem
      exact hrw bind hbind
  have hlength : (binds.flatMap fun item => bindArguments item.1 item.2).length = 6 * binds.length := by
    rw [List.length_flatMap]
    simp [bindArguments, Nat.mul_comm]
  refine ⟨before.length + 6 * binds.length, ?_, ?_⟩
  · have hrun := @bindMountsFrom_arguments layout.root tools binds before hfits
    rw [bindTypedMounts, hcommand]
    refine hrun.trans ?_
    simp [binds, Function.comp_def]
  · rw [hcommand, ← List.append_assoc, List.drop_append, ← hlength]
    simp

/-- **Launcher and runner agree.**  The runner reads the binds that the launcher has validated, the
    read-only ones first, and leaves the tool's arguments.  No two destinations are equal or nested,
    and each is strictly below the root that its kind allows. -/
theorem bindTypedMounts_command (host : Host) (layout : Layout) (arguments rest tools : List String)
    (binds : Binds) (h : validateBinds host arguments = .ok (binds, rest))
    (hidentity : ∀ bind ∈ binds.roBinds ++ binds.rwBinds, 1 ≤ bind.device ∧ bind.device ≤ 2 ^ 64 - 1 ∧
      1 ≤ bind.inode ∧ bind.inode ≤ 2 ^ 64 - 1)
    (hpath : ∀ bind ∈ binds.roBinds ++ binds.rwBinds,
      (layout.root ++ bind.destination).utf8ByteSize < pathBufferSize) :
    (∃ options : List (BindKind × String),
      arguments = options.flatMap (fun option => [option.1.option, option.2]) ++ rest ∧
      List.Forall₂ (fun option bind => parseBind host .readOnly option.2 = .ok bind)
        (options.filter (·.1 = .readOnly)) binds.roBinds ∧
      List.Forall₂ (fun option bind => parseBind host .readWrite option.2 = .ok bind)
        (options.filter (·.1 = .readWrite)) binds.rwBinds) ∧
    (∃ separator, bindTypedMounts (command layout binds.roBinds binds.rwBinds tools) layout.root =
        .ok (binds.roBinds.map (mountOf layout.root .readOnly) ++
          binds.rwBinds.map (mountOf layout.root .readWrite), separator) ∧
      (command layout binds.roBinds binds.rwBinds tools).drop (separator + 1) = tools) ∧
    ((binds.roBinds ++ binds.rwBinds).map Bind.destination).Pairwise DebianLauncher.Apart ∧
    (∀ bind ∈ binds.roBinds, StrictlyBelow bind.destination "/inputs") ∧
    ∀ bind ∈ binds.rwBinds, StrictlyBelow bind.destination "/workspace" ∨
      StrictlyBelow bind.destination "/outputs" := by
  obtain ⟨options, harguments, hvalid⟩ := validateBinds_valid h
  obtain ⟨hro, hrw⟩ := hvalid.parsed
  have hfits : ∀ {kind : BindKind} {bind : Bind}, Parsed host kind bind →
      bind ∈ binds.roBinds ++ binds.rwBinds → Fits layout.root bind := by
    intro kind bind hparsed hmem
    obtain ⟨hdevice, hdevice', hinode, hinode'⟩ := hidentity bind hmem
    exact ⟨hparsed.absolute, hparsed.destination, hdevice, by omega, hinode, by omega, hpath bind hmem⟩
  refine ⟨⟨options, harguments, hvalid.ro, hvalid.rw⟩, bindTypedMounts_mounts
    (fun bind hbind => hfits (hro bind hbind) (List.mem_append_left _ hbind))
    (fun bind hbind => hfits (hrw bind hbind) (List.mem_append_right _ hbind)), ?_,
    fun bind hbind => (hro bind hbind).allowed, fun bind hbind => (hrw bind hbind).allowed⟩
  refine hvalid.destinations.pairwise hvalid.apart fun {a b} hapart => ?_
  exact ⟨hapart.1.symm, hapart.2.2, hapart.2.1⟩

/-- A host without links, with the directory `/src` and the file `/out`. -/
def exampleHost : Host where
  realpath path := path
  stat
    | "/src" => some ⟨2049, 131074, true⟩
    | "/out" => some ⟨2049, 131075, false⟩
    | _ => none
  realpath_absolute _ h := h

def exampleLayout : Layout :=
  ⟨"/r/runner", "/r/root", "/r/workspace", "/r/outputs", "/r/home", "/lib64/ld-linux-x86-64.so.2",
    "/bin/sh"⟩

def exampleBinds : Binds :=
  ⟨[⟨"/src", "/inputs/src", 2049, 131074, true⟩], [⟨"/out", "/outputs/image", 2049, 131075, false⟩],
    ["/outputs/image", "/inputs/src"]⟩

/-- The read-only bind comes first, and the tool's own `--` is left alone. -/
theorem bindTypedMounts_command_example :
    ∃ separator, bindTypedMounts (command exampleLayout exampleBinds.roBinds exampleBinds.rwBinds
        ["--", "--ro-bind"]) "/r/root" =
        .ok ([⟨true, "/src", "/r/root/inputs/src", 2049, 131074, true⟩,
          ⟨false, "/out", "/r/root/outputs/image", 2049, 131075, false⟩], separator) ∧
      (command exampleLayout exampleBinds.roBinds exampleBinds.rwBinds ["--", "--ro-bind"]).drop
        (separator + 1) = ["--", "--ro-bind"] := by
  have hvalid : validateBinds exampleHost
      ["--rw-bind", "/out:/outputs/image", "--ro-bind", "/src:/inputs/src"] = .ok (exampleBinds, []) := by
    decide +kernel
  exact (bindTypedMounts_command exampleHost exampleLayout _ [] ["--", "--ro-bind"] exampleBinds hvalid
    (by decide) (by decide)).2.1

end RulesMkosi.NamespaceRunner
