/-
  The binds of the Debian launcher (`mkosi/debian/debian_launcher.py`).

  `_validate_binds` reads the `--ro-bind` and `--rw-bind` options in front of an
  argument list and checks every destination against those before it.  `_run` writes
  the binds into the command line of the namespace runner, six arguments for each
  bind, and puts the tool's arguments behind a `--`.
-/
import RulesMkosi.Lib.Result
import RulesMkosi.Lib.PosixPath

namespace RulesMkosi.DebianLauncher

/-- What `os.stat` reports. -/
structure FileStat where
  device : ℕ
  inode : ℕ
  /-- `stat.S_ISDIR(st_mode)` -/
  directory : Bool
  deriving Repr, DecidableEq

/-- The file system that the sources are in. -/
structure Host where
  /-- `os.path.realpath(path)` -/
  realpath : String → String
  /-- `os.stat(path)`; `none` where it raises -/
  stat : String → Option FileStat
  realpath_absolute : ∀ path, startsWith path "/" = true → startsWith (realpath path) "/" = true

/-- A bind `(source, destination, device, inode, source is directory)`. -/
structure Bind where
  source : String
  destination : String
  device : ℕ
  inode : ℕ
  directory : Bool
  deriving Repr, DecidableEq

inductive BindKind where
  | readOnly
  | readWrite
  deriving Repr, DecidableEq

/-- The option of a kind. -/
def BindKind.option : BindKind → String
  | .readOnly => "--ro-bind"
  | .readWrite => "--rw-bind"

/-- The kind of an argument that is an option. -/
def bindKind? (argument : String) : Option BindKind :=
  if argument = "--ro-bind" then some .readOnly
  else if argument = "--rw-bind" then some .readWrite
  else none

def mountRoots : List String :=
  ["/root", "/tmp", "/proc", "/dev", "/workspace", "/inputs", "/outputs"]

def canonicalDestination (destination : String) : Except Exn String := do
  raiseIf (startsWith destination "/" = false ∨ '\x00' ∈ destination.toList)
    (.runtimeError ("namespace destination must be absolute: " ++ destination))
  raiseIf (normpath destination ≠ destination)
    (.runtimeError ("namespace destination is not canonical: " ++ destination))
  raiseIf (∃ part ∈ (splitSlash destination).tail, part ∈ ["", ".", ".."])
    (.runtimeError ("namespace destination contains unsafe path components: " ++ destination))
  return destination

/-- `_under` -/
def under (destination parent : String) : Bool := destination = parent ∨ isBelow destination parent

/-- `specification.split(":", 1)` of a text with a colon -/
def splitColon (specification : String) : String × String :=
  (String.ofList (specification.toList.takeWhile (· ≠ ':')),
    String.ofList (specification.toList.dropWhile (· ≠ ':')).tail)

def parseBind (host : Host) (kind : BindKind) (specification : String) : Except Exn Bind := do
  let (source, destination) := splitColon specification
  raiseIf (startsWith source "/" = false ∨ '\x00' ∈ source.toList)
    (.runtimeError ("namespace bind source must be absolute: " ++ source))
  let source := host.realpath source
  match host.stat source with
  | none => .error (.osError ("namespace bind source is missing: " ++ source))
  | some sourceStat => do
    let destination ← canonicalDestination destination
    raiseIf (destination ∈ "/" :: mountRoots)
      (.runtimeError ("namespace bind destination is a reserved mount root: " ++ destination))
    match kind with
    | .readOnly =>
      raiseIf (under destination "/inputs" = false)
        (.runtimeError ("read-only namespace binds must be under /inputs: " ++ destination))
    | .readWrite =>
      raiseIf (under destination "/workspace" = false ∧ under destination "/outputs" = false)
        (.runtimeError ("read-write namespace binds must be under /workspace or /outputs: " ++
          destination))
    return ⟨source, destination, sourceStat.device, sourceStat.inode, sourceStat.directory⟩

/-- The lists that `_validate_binds` fills. -/
structure Binds where
  roBinds : List Bind
  rwBinds : List Bind
  destinations : List String
  deriving Repr, DecidableEq

def overlap (destination prior : String) : Bool :=
  destination = prior ∨ under destination prior ∨ under prior destination

def addBind (binds : Binds) (kind : BindKind) (bind : Bind) : Except Exn Binds := do
  binds.destinations.forM fun prior =>
    raiseIf (overlap bind.destination prior = true)
      (.runtimeError ("namespace bind destinations overlap: " ++ prior ++ " and " ++ bind.destination))
  match kind with
  | .readOnly =>
    return ⟨binds.roBinds ++ [bind], binds.rwBinds, binds.destinations ++ [bind.destination]⟩
  | .readWrite =>
    return ⟨binds.roBinds, binds.rwBinds ++ [bind], binds.destinations ++ [bind.destination]⟩

/-- The loop of `_validate_binds`, which takes the arguments that it reads from the list. -/
def validateFrom (host : Host) : List String → Binds → Except Exn (Binds × List String)
  | [], binds => .ok (binds, [])
  | [argument], binds =>
    match bindKind? argument with
    | none => .ok (binds, [argument])
    | some _ => .error (.runtimeError (argument ++ " requires SRC:DEST"))
  | argument :: specification :: rest, binds =>
    match bindKind? argument with
    | none => .ok (binds, argument :: specification :: rest)
    | some kind => do
      raiseIf (':' ∉ specification.toList) (.runtimeError (argument ++ " requires SRC:DEST"))
      let bind ← parseBind host kind specification
      let binds ← addBind binds kind bind
      validateFrom host rest binds

/-- `_validate_binds`: the binds, and the arguments that are left -/
def validateBinds (host : Host) (arguments : List String) : Except Exn (Binds × List String) :=
  validateFrom host arguments ⟨[], [], []⟩

/-! ## The command of the namespace runner -/

/-- `OPTION SOURCE DESTINATION DEVICE INODE dir|file` -/
def bindArguments (kind : BindKind) (bind : Bind) : List String :=
  [kind.option, bind.source, bind.destination, toString bind.device, toString bind.inode,
    if bind.directory then "dir" else "file"]

def mountArguments (roBinds rwBinds : List Bind) : List String :=
  roBinds.flatMap (bindArguments .readOnly) ++ rwBinds.flatMap (bindArguments .readWrite)

/-- The first arguments of the command. -/
structure Layout where
  namespaceRunner : String
  root : String
  workspace : String
  outputs : String
  home : String
  loader : String
  tool : String

/-- The command of `_run`. -/
def command (layout : Layout) (roBinds rwBinds : List Bind) (arguments : List String) : List String :=
  [layout.namespaceRunner, layout.root, layout.workspace, layout.outputs, layout.home, layout.loader,
    layout.tool] ++ mountArguments roBinds rwBinds ++ "--" :: arguments

/-! ## Accepted binds -/

/-- The path is strictly below the root, by a path that stays there. -/
def StrictlyBelow (destination root : String) : Prop :=
  isBelow destination root = true ∧ ∀ part ∈ (splitSlash destination).tail, part ∉ ["", ".", ".."]

/-- Neither path is the other one or below it. -/
def Apart (destination destination' : String) : Prop :=
  destination ≠ destination' ∧ isBelow destination destination' = false ∧
    isBelow destination' destination = false

/-- Where the destinations of a kind are. -/
def BindKind.Allows : BindKind → String → Prop
  | .readOnly, destination => StrictlyBelow destination "/inputs"
  | .readWrite, destination =>
    StrictlyBelow destination "/workspace" ∨ StrictlyBelow destination "/outputs"

theorem bindKind?_eq_some {argument : String} {kind : BindKind} :
    bindKind? argument = some kind ↔ argument = kind.option := by
  unfold bindKind?
  cases kind with
  | readOnly =>
    split_ifs with h₁ h₂
    · simp [h₁, BindKind.option]
    · simp [h₁, BindKind.option]
    · simp [h₁, BindKind.option]
  | readWrite =>
    split_ifs with h₁ h₂
    · simp [h₁, BindKind.option]
    · simp [h₂, BindKind.option]
    · simp [h₂, BindKind.option]

theorem canonicalDestination_eq_ok {destination result : String} :
    canonicalDestination destination = .ok result ↔ result = destination ∧
      startsWith destination "/" = true ∧ '\x00' ∉ destination.toList ∧
      normpath destination = destination ∧
      ∀ part ∈ (splitSlash destination).tail, part ∉ ["", ".", ".."] := by
  simp only [canonicalDestination, bind_eq_ok, raiseIf_eq_ok, exists_unit, pure_eq_ok, not_or, not_not,
    not_exists, not_and, Bool.not_eq_false, ne_eq]
  constructor
  · rintro ⟨⟨habsolute, hnul⟩, hnorm, hparts, rfl⟩
    exact ⟨rfl, habsolute, hnul, hnorm, hparts⟩
  · rintro ⟨rfl, habsolute, hnul, hnorm, hparts⟩
    exact ⟨⟨habsolute, hnul⟩, hnorm, hparts, rfl⟩

theorem under_ne {destination parent : String} (h : under destination parent = true)
    (hne : destination ≠ parent) : isBelow destination parent = true := by
  simp only [under, decide_eq_true_eq] at h
  exact h.resolve_left hne

/-- What is known of a bind that was parsed. -/
structure Parsed (host : Host) (kind : BindKind) (bind : Bind) : Prop where
  absolute : startsWith bind.source "/" = true
  stat : host.stat bind.source = some ⟨bind.device, bind.inode, bind.directory⟩
  destination : startsWith bind.destination "/" = true
  allowed : kind.Allows bind.destination

theorem parseBind_parsed {host : Host} {kind : BindKind} {specification : String} {bind : Bind}
    (h : parseBind host kind specification = .ok bind) : Parsed host kind bind := by
  unfold parseBind at h
  dsimp only at h
  rw [bind_eq_ok] at h
  obtain ⟨u, habsolute, h⟩ := h
  simp only [raiseIf_eq_ok, not_or, Bool.not_eq_false] at habsolute
  split at h
  · cases h
  · next sourceStat hstat =>
    simp only [bind_eq_ok, raiseIf_eq_ok, exists_unit] at h
    obtain ⟨destination, hcanonical, hreserved, h⟩ := h
    obtain ⟨rfl, hstarts, -, -, hparts⟩ := canonicalDestination_eq_ok.1 hcanonical
    have hroot : ∀ {root : String}, root ∈ mountRoots →
        (splitColon specification).2 ≠ root := by
      rintro root hmem rfl
      exact hreserved (List.mem_cons_of_mem _ hmem)
    cases kind with
    | readOnly =>
      simp only [bind_eq_ok, raiseIf_eq_ok, exists_unit, pure_eq_ok, Bool.not_eq_false] at h
      obtain ⟨hunder, rfl⟩ := h
      exact ⟨host.realpath_absolute _ habsolute.1, hstat, hstarts,
        under_ne hunder (hroot (by decide)), hparts⟩
    | readWrite =>
      simp only [bind_eq_ok, raiseIf_eq_ok, exists_unit, pure_eq_ok, not_and_or,
        Bool.not_eq_false] at h
      obtain ⟨hunder, rfl⟩ := h
      refine ⟨host.realpath_absolute _ habsolute.1, hstat, hstarts, ?_⟩
      rcases hunder with hunder | hunder
      · exact .inl ⟨under_ne hunder (hroot (by decide)), hparts⟩
      · exact .inr ⟨under_ne hunder (hroot (by decide)), hparts⟩

/-- Each list holds the binds of its kind, in the order of the options; no two destinations
    overlap. -/
structure Valid (host : Host) (options : List (BindKind × String)) (binds : Binds) : Prop where
  ro : List.Forall₂ (fun option bind => parseBind host .readOnly option.2 = .ok bind)
    (options.filter (·.1 = .readOnly)) binds.roBinds
  rw : List.Forall₂ (fun option bind => parseBind host .readWrite option.2 = .ok bind)
    (options.filter (·.1 = .readWrite)) binds.rwBinds
  destinations : binds.destinations.Perm ((binds.roBinds ++ binds.rwBinds).map Bind.destination)
  apart : binds.destinations.Pairwise Apart

theorem Valid.nil (host : Host) : Valid host [] ⟨[], [], []⟩ := ⟨.nil, .nil, .refl _, .nil⟩

theorem apart_of_not_overlap {destination prior : String} (h : overlap destination prior = false) :
    Apart prior destination := by
  simp only [overlap, under, decide_eq_false_iff_not, decide_eq_true_eq, not_or,
    Bool.not_eq_true] at h
  obtain ⟨hne, ⟨-, hbelow⟩, -, habove⟩ := h
  exact ⟨fun heq => hne heq.symm, habove, hbelow⟩

/-- One option more. -/
theorem Valid.addBind {host : Host} {options : List (BindKind × String)} {binds binds' : Binds}
    {kind : BindKind} {specification : String} {bind : Bind} (h : Valid host options binds)
    (hparse : parseBind host kind specification = .ok bind)
    (hadd : addBind binds kind bind = .ok binds') :
    Valid host (options ++ [(kind, specification)]) binds' := by
  unfold DebianLauncher.addBind at hadd
  simp only [bind_eq_ok, exists_unit, forM_eq_ok, raiseIf_eq_ok, Bool.not_eq_true] at hadd
  obtain ⟨hoverlap, hadd⟩ := hadd
  have hapart : (binds.destinations ++ [bind.destination]).Pairwise Apart := by
    refine List.pairwise_append.2 ⟨h.apart, List.pairwise_singleton _ _, fun prior hprior d hd => ?_⟩
    rw [List.mem_singleton.1 hd]
    exact apart_of_not_overlap (hoverlap prior hprior)
  cases kind with
  | readOnly =>
    rw [pure_eq_ok] at hadd
    subst hadd
    refine ⟨?_, ?_, ?_, hapart⟩
    · rw [List.filter_append]
      exact List.rel_append h.ro (.cons hparse .nil)
    · simpa using h.rw
    · have hperm := h.destinations.append_right [bind.destination]
      refine hperm.trans ?_
      simp only [List.map_append, List.map_cons, List.map_nil, List.append_assoc]
      exact List.Perm.append_left _ List.perm_append_comm
  | readWrite =>
    rw [pure_eq_ok] at hadd
    subst hadd
    refine ⟨?_, ?_, ?_, hapart⟩
    · simpa using h.ro
    · rw [List.filter_append]
      exact List.rel_append h.rw (.cons hparse .nil)
    · have hperm := h.destinations.append_right [bind.destination]
      simpa using hperm

/-- The loop over the options: `done` are those that were read. -/
theorem validateFrom_valid {host : Host} : ∀ {arguments : List String} {done : List (BindKind × String)}
    {binds binds' : Binds} {rest : List String}, Valid host done binds →
      validateFrom host arguments binds = .ok (binds', rest) →
      ∃ options, arguments = options.flatMap (fun option => [option.1.option, option.2]) ++ rest ∧
        Valid host (done ++ options) binds'
  | [], done, binds, binds', rest, hvalid, h => by
    rw [validateFrom, Except.ok.injEq, Prod.mk.injEq] at h
    obtain ⟨rfl, rfl⟩ := h
    exact ⟨[], rfl, by rwa [List.append_nil]⟩
  | [argument], done, binds, binds', rest, hvalid, h => by
    rw [validateFrom] at h
    split at h
    · cases h
      exact ⟨[], rfl, by rwa [List.append_nil]⟩
    · cases h
  | argument :: specification :: arguments, done, binds, binds', rest, hvalid, h => by
    rw [validateFrom] at h
    split at h
    · cases h
      exact ⟨[], rfl, by rwa [List.append_nil]⟩
    · next kind hkind =>
      simp only [bind_eq_ok, exists_unit] at h
      obtain ⟨-, bind, hbind, mid, hmid, h⟩ := h
      obtain ⟨options, rfl, hoptions⟩ := validateFrom_valid (hvalid.addBind hbind hmid) h
      refine ⟨(kind, specification) :: options, ?_, ?_⟩
      · rw [bindKind?_eq_some.1 hkind]
        rfl
      · rwa [List.append_assoc] at hoptions

theorem validateBinds_valid {host : Host} {arguments rest : List String} {binds : Binds}
    (h : validateBinds host arguments = .ok (binds, rest)) :
    ∃ options, arguments = options.flatMap (fun option => [option.1.option, option.2]) ++ rest ∧
      Valid host options binds := by
  obtain ⟨options, harguments, hvalid⟩ := validateFrom_valid (Valid.nil host) h
  exact ⟨options, harguments, hvalid⟩

theorem Valid.parsed {host : Host} {options : List (BindKind × String)} {binds : Binds}
    (h : Valid host options binds) :
    (∀ bind ∈ binds.roBinds, Parsed host .readOnly bind) ∧
      ∀ bind ∈ binds.rwBinds, Parsed host .readWrite bind := by
  constructor
  · intro bind hbind
    obtain ⟨option, -, hparse⟩ := forall₂_mem_right h.ro hbind
    exact parseBind_parsed hparse
  · intro bind hbind
    obtain ⟨option, -, hparse⟩ := forall₂_mem_right h.rw hbind
    exact parseBind_parsed hparse

end RulesMkosi.DebianLauncher
