/-
  Packages indexes (`parse_packages` of `mkosi/debian/generate_lock.py`).

  A record of an index is a deb822 paragraph; its dependency fields are lists of
  alternatives.  The characters that a part of the pattern `_RELATION` may take never
  start the next part, so the pattern is matched part by part, without backtracking:
  only the operators are tried in turn.
-/
import RulesMkosi.DebianRelease
import RulesMkosi.DebianUniverse

namespace RulesMkosi.Debian

open DebianControl DebianRelease

/-! ## Relations -/

/-- `[a-z0-9]` -/
def isLowerAlnum (c : Char) : Bool := ('a' ≤ c ∧ c ≤ 'z') ∨ ('0' ≤ c ∧ c ≤ '9')

/-- `[a-z0-9+.-]` -/
def isNameChar (c : Char) : Bool := isLowerAlnum c ∨ c = '+' ∨ c = '.' ∨ c = '-'

/-- `[a-z0-9-]` -/
def isIdentifierChar (c : Char) : Bool := isLowerAlnum c ∨ c = '-'

/-- `[^\s)]` -/
def isVersionChar (c : Char) : Bool := ¬ isSpace c ∧ c ≠ ')'

/-- `(?P<name>[a-z0-9][a-z0-9+.-]+)` and the text after it -/
def scanName : Str → Option (Str × Str)
  | [] => none
  | c :: rest =>
    if isLowerAlnum c = true ∧ rest.takeWhile isNameChar ≠ [] then
      some (c :: rest.takeWhile isNameChar, rest.dropWhile isNameChar)
    else none

/-- `(?::(?P<arch>[a-z0-9-]+))?` -/
def scanArch : Str → Option Str × Str
  | ':' :: rest =>
    if rest.takeWhile isIdentifierChar ≠ [] then
      (some (rest.takeWhile isIdentifierChar), rest.dropWhile isIdentifierChar)
    else (none, ':' :: rest)
  | text => (none, text)

/-- `\s*(?P<version>[^\s)]+)\s*\)` -/
def scanVersion (text : Str) : Option (Str × Str) :=
  let version := (lstrip text).takeWhile isVersionChar
  match version, lstrip ((lstrip text).dropWhile isVersionChar) with
  | _ :: _, ')' :: rest => some (version, rest)
  | _, _ => none

/-- `<<|<=|=|>=|>>|<|>` -/
def operators : List String := ["<<", "<=", "=", ">=", ">>", "<", ">"]

/-- The version and the rest after an operator that the text starts with. -/
def scanOperator (text : Str) (operator : String) : Option (String × Str × Str) :=
  if operator.toList.isPrefixOf text then
    (scanVersion (text.drop operator.toList.length)).map fun (version, rest) =>
      (operator, version, rest)
  else none

/-- `(?:\(\s*(?P<op>...)\s*(?P<version>...)\s*\))?` -/
def scanConstraint (text : Str) : Option (String × Str) × Str :=
  match text with
  | '(' :: rest =>
    match operators.findSome? (scanOperator (lstrip rest)) with
    | some (operator, version, rest) => (some (operator, version), rest)
    | none => (none, text)
  | _ => (none, text)

/-- `(?:\[[^\]]*\])?` -/
def skipArchitectures (text : Str) : Str :=
  match text with
  | '[' :: rest =>
    match rest.dropWhile (· ≠ ']') with
    | _ :: rest => rest
    | [] => text
  | _ => text

/-- `(?:<[^>]*>\s*)*`, of at most `fuel` rounds -/
def skipProfiles : ℕ → Str → Str
  | 0, text => text
  | fuel + 1, text =>
    match text with
    | '<' :: rest =>
      match rest.dropWhile (· ≠ '>') with
      | _ :: rest => skipProfiles fuel (lstrip rest)
      | [] => text
    | _ => text

/-- `_RELATION.fullmatch(text)` -/
def matchRelation (text : Str) : Option Relation :=
  match scanName text with
  | none => none
  | some (name, rest) =>
    let (arch, rest) := scanArch rest
    let (constraint, rest) := scanConstraint (lstrip rest)
    let rest := lstrip (skipArchitectures (lstrip rest))
    if skipProfiles rest.length rest = [] then
      some ⟨String.ofList name, arch.map String.ofList, constraint.map Prod.fst,
        constraint.map fun c => String.ofList c.2⟩
    else none

def parseAlternative (alternative : Str) : Except Failure Relation :=
  match matchRelation (strip alternative) with
  | some relation => .ok relation
  | none =>
    .error (.lockError ("malformed Debian relation: " ++ String.ofList (strip alternative)))

/-- `(value or "").replace("\n", " ").split(",")`, without the groups that are blank -/
def relationGroups (value : Option Str) : List Str :=
  (((value.getD []).map fun c => if c = '\n' then ' ' else c).splitOn ',').filter
    fun group => strip group ≠ []

def parseRelations (value : Option Str) : Except Failure (List (List Relation)) :=
  (relationGroups value).mapM fun group => (group.splitOn '|').mapM parseAlternative

def parseProvided (group : List Relation) : Except Failure (String × Option String) :=
  match group with
  | [relation] => do
    raiseIf (relation.operator ≠ none ∧ relation.operator ≠ some "=")
      (.lockError ("Provides may only use exact versions: " ++ relation.str))
    return (relation.name, relation.version)
  | _ => .error (.lockError "Provides cannot contain alternatives")

def parseProvides (value : Option Str) : Except Failure (List (String × Option String)) := do
  let groups ← parseRelations value
  groups.mapM parseProvided

example : parseRelations (some "libc6:any (>= 2.36~), a1 | b2 [amd64] <!nocheck>".toList) =
    .ok [[⟨"libc6", some "any", some ">=", some "2.36~"⟩],
      [⟨"a1", none, none, none⟩, ⟨"b2", none, none, none⟩]] := by decide +kernel

/-! ## Records -/

/-- `paragraph.get(field)` -/
def getField (paragraph : Paragraph) (field : String) : Option Str :=
  Dict.get paragraph field.toList

/-- `"%s" % text`, for a text that may be absent -/
def showField (value : Option Str) : String :=
  match value with
  | some text => String.ofList text
  | none => "None"

/-- The fields that a record must have. -/
def isComplete (paragraph : Paragraph) : Bool :=
  (getField paragraph "Package").getD [] ≠ [] ∧ (getField paragraph "Version").getD [] ≠ [] ∧
    isDigit ((getField paragraph "Size").getD []) ∧
    isDigest isLowerHexDigit ((getField paragraph "SHA256").getD []) ∧
    "pool/".toList.isPrefixOf ((getField paragraph "Filename").getD [])

def textOf (paragraph : Paragraph) (field default : String) : String :=
  String.ofList ((getField paragraph field).getD default.toList)

def packageRecord (paragraph : Paragraph) (component indexArchitecture : String) :
    Except Failure Package := do
  let architecture := getField paragraph "Architecture"
  raiseIf (architecture ∉ indexArchitectures.map fun name => some name.toList)
    (.lockError ("unsupported package architecture: " ++ showField architecture))
  raiseIf (indexArchitecture = "all" ∧ architecture ≠ some "all".toList)
    (.lockError "binary-all index contains non-all package")
  raiseIf (isComplete paragraph = false)
    (.lockError ("incomplete package metadata: " ++ showField (getField paragraph "Package")))
  let size ← parseSize ((getField paragraph "Size").getD [])
  let preDepends ← parseRelations (getField paragraph "Pre-Depends")
  let depends ← parseRelations (getField paragraph "Depends")
  let provides ← parseProvides (getField paragraph "Provides")
  return {
    name := textOf paragraph "Package" ""
    version := textOf paragraph "Version" ""
    architecture := textOf paragraph "Architecture" ""
    component := component
    filename := textOf paragraph "Filename" ""
    size := size
    sha256 := textOf paragraph "SHA256" ""
    multiArch := textOf paragraph "Multi-Arch" "no"
    essential := getField paragraph "Essential" = some "yes".toList
    priority := textOf paragraph "Priority" "optional"
    preDepends := preDepends
    depends := depends
    provides := provides }

def parsePackages (text : Str) (component indexArchitecture : String) :
    Except Failure (List Package) := do
  let paragraphs ← lockParagraphs text
  paragraphs.mapM fun paragraph => packageRecord paragraph component indexArchitecture

/-- What a record of an index states. -/
structure States (paragraph : Paragraph) (component indexArchitecture : String)
    (package : Package) : Prop where
  name : getField paragraph "Package" = some package.name.toList
  version : getField paragraph "Version" = some package.version.toList
  architecture : getField paragraph "Architecture" = some package.architecture.toList
  known : package.architecture ∈ indexArchitectures
  all : indexArchitecture = "all" → package.architecture = "all"
  component : package.component = component
  filename : getField paragraph "Filename" = some package.filename.toList
  below : "pool/".toList.isPrefixOf package.filename.toList = true
  size : ∃ text, getField paragraph "Size" = some text ∧ isDigit text = true ∧
    toInt text = some package.size
  sha256 : getField paragraph "SHA256" = some package.sha256.toList
  digest : isDigest isLowerHexDigit package.sha256.toList = true
  named : package.name ≠ ""
  versioned : package.version ≠ ""

theorem textOf_of_get {paragraph : Paragraph} {field default : String} {text : Str}
    (h : getField paragraph field = some text) :
    getField paragraph field = some (textOf paragraph field default).toList := by
  rw [textOf, h, Option.getD_some, String.toList_ofList]

theorem getField_of_getD_ne {paragraph : Paragraph} {field : String}
    (h : (getField paragraph field).getD [] ≠ []) :
    getField paragraph field = some ((getField paragraph field).getD []) := by
  cases hget : getField paragraph field with
  | none => rw [hget] at h; exact absurd rfl h
  | some text => rfl

theorem parseSize_eq_ok {text : Str} {n : ℕ} : parseSize text = .ok n ↔ toInt text = some n := by
  unfold parseSize
  cases toInt text <;> simp

theorem packageRecord_states {paragraph : Paragraph} {component indexArchitecture : String}
    {package : Package} (h : packageRecord paragraph component indexArchitecture = .ok package) :
    States paragraph component indexArchitecture package := by
  simp only [packageRecord, bind_eq_ok, raiseIf_eq_ok, exists_unit, pure_eq_ok,
    Bool.not_eq_false, not_not, not_and, parseSize_eq_ok] at h
  obtain ⟨harch, hall, hcomplete, size, hsize, preDepends, -, depends, -, provides, -, rfl⟩ := h
  simp only [isComplete, decide_eq_true_eq] at hcomplete
  obtain ⟨hname, hversion, hdigit, hdigest, hfilename⟩ := hcomplete
  have hsizeNe : (getField paragraph "Size").getD [] ≠ [] := by
    intro hnil
    rw [hnil] at hdigit
    cases hdigit
  have hdigestNe : (getField paragraph "SHA256").getD [] ≠ [] := by
    intro hnil
    rw [hnil] at hdigest
    cases hdigest
  have hfilenameNe : (getField paragraph "Filename").getD [] ≠ [] := by
    intro hnil
    rw [hnil] at hfilename
    cases hfilename
  obtain ⟨arch, harchMem, harchGet⟩ := List.mem_map.1 harch
  have harchText : textOf paragraph "Architecture" "" = arch := by
    rw [textOf, ← harchGet, Option.getD_some, String.ofList_toList]
  refine {
    name := textOf_of_get (getField_of_getD_ne hname)
    version := textOf_of_get (getField_of_getD_ne hversion)
    architecture := textOf_of_get harchGet.symm
    known := by simpa only [harchText] using harchMem
    all := ?_
    component := rfl
    filename := textOf_of_get (getField_of_getD_ne hfilenameNe)
    below := by simpa only [textOf, String.toList_ofList, String.toList_empty] using hfilename
    size := ⟨_, getField_of_getD_ne hsizeNe, hdigit, hsize⟩
    sha256 := textOf_of_get (getField_of_getD_ne hdigestNe)
    digest := by simpa only [textOf, String.toList_ofList, String.toList_empty] using hdigest
    named := ?_
    versioned := ?_ }
  · intro hindex
    have := hall hindex
    rw [← harchGet, Option.some.injEq, String.toList_inj] at this
    rw [harchText, this]
  · intro hempty
    rw [textOf] at hempty
    exact hname (String.ofList_eq_empty_iff.1 hempty)
  · intro hempty
    rw [textOf] at hempty
    exact hversion (String.ofList_eq_empty_iff.1 hempty)

end RulesMkosi.Debian
