/-
  Package specifications (`load_specification` of `mkosi/debian/generate_lock.py`).

  A specification names one snapshot, a suite with its components, and the requested
  packages.  What `load_specification` accepts is `Valid`.
-/
import RulesMkosi.DebianIndex
import RulesMkosi.Lib.Json
import RulesMkosi.Lib.PosixPath
import Mathlib.Data.List.Dedup

namespace RulesMkosi.Debian

/-- Validated generator input. -/
structure Specification where
  snapshotUrl : String
  snapshot : String
  suite : String
  components : List String
  packages : List String
  deriving Repr, DecidableEq

/-- `[0-9]` -/
def isAsciiDigit (c : Char) : Bool := '0' ≤ c ∧ c ≤ '9'

/-- `_SNAPSHOT.fullmatch`: `[0-9]{8}T[0-9]{6}Z` -/
def isSnapshot (text : Str) : Bool :=
  text.length = 16 ∧ (text.take 8).all isAsciiDigit ∧ text[8]? = some 'T' ∧
    ((text.drop 9).take 6).all isAsciiDigit ∧ text[15]? = some 'Z'

/-- `_IDENTIFIER.fullmatch`: `[a-z0-9][a-z0-9-]*` -/
def isIdentifier : Str → Bool
  | [] => false
  | c :: rest => isLowerAlnum c ∧ rest.all isIdentifierChar

/-- `_PACKAGE_NAME.fullmatch`: `[a-z0-9][a-z0-9+.-]+` -/
def isPackageName : Str → Bool
  | [] => false
  | c :: rest => isLowerAlnum c ∧ rest ≠ [] ∧ rest.all isNameChar

/-- `url.rstrip("/")` -/
def rstripSlash (url : Str) : Str := (url.reverse.dropWhile (· = '/')).reverse

/-- `url.rsplit("/", 1)[-1]` -/
def lastSegment (url : Str) : Str := (url.reverse.takeWhile (· ≠ '/')).reverse

/-- The only declared source. -/
def onlySource (data : Dict String Json) : Except Failure (Dict String Json) :=
  match data.get "sources" with
  | some (.list [.object source]) => .ok source
  | _ => .error (.lockError "specification must declare exactly one snapshot source")

/-- `_snapshot_source`: the source, its normalized URL, and the snapshot timestamp -/
def snapshotSource (data : Dict String Json) :
    Except Failure (Dict String Json × String × String) := do
  let source ← onlySource data
  let url := ((source.get "url").bind Json.text?).getD ""
  raiseIf (startsWith url "https://" = false) (.lockError "snapshot source url must use https")
  let url := rstripSlash url.toList
  let snapshot := lastSegment url
  raiseIf (isSnapshot snapshot = false)
    (.lockError "snapshot source url must end with an immutable UTC timestamp")
  return (source, String.ofList url, String.ofList snapshot)

def checkIdentifier (name : Str) : Except Failure Unit :=
  raiseIf (isIdentifier name = false)
    (.lockError ("invalid suite or component name: " ++ String.ofList name))

/-- `_channel`: the suite and the components of a source -/
def channel (source : Dict String Json) : Except Failure (String × List String) :=
  match splitWords (((source.get "channel").bind Json.text?).getD "").toList with
  | suite :: component :: others => do
    let components := component :: others
    (suite :: components).forM checkIdentifier
    raiseIf (¬ components.Nodup) (.lockError "source channel repeats a component")
    raiseIf ("main".toList ∉ components)
      (.lockError "source channel must include the main component")
    return (String.ofList suite, components.map String.ofList)
  | _ => .error (.lockError "source channel must name a suite and at least one component")

section
-- `repr(value)`
variable (repr : Json → String)

def requestedName (package : Json) : Except Failure String :=
  match package with
  | .string name => do
    raiseIf (isPackageName name.toList = false)
      (.lockError ("invalid package name: " ++ repr package))
    return name
  | _ => .error (.lockError ("invalid package name: " ++ repr package))

/-- `_requested_packages`, each name once -/
def requestedPackages (data : Dict String Json) : Except Failure (List String) :=
  match data.get "packages" with
  | some (.list (package :: packages)) => do
    let names ← (package :: packages).mapM (requestedName repr)
    return Dict.keys (names.foldl (fun d name => d.set name ()) [])
  | _ => .error (.lockError "specification must request at least one package")

def knownFields : List String := ["version", "sources", "archs", "packages"]

/-- `value == 1` -/
def isOne : Option Json → Bool
  | some (.int value) => value = 1
  | some (.float value) => value = 1
  | some (.bool value) => value
  | _ => false

/-- `sorted(set(components) - {"main"})` -/
def otherComponents (components : List String) : List String :=
  ((components.filter (· ≠ "main")).dedup).insertionSort (· ≤ ·)

def loadSpecification (data : Json) : Except Failure Specification :=
  match data with
  | .object fields => do
    let data : Dict String Json := fields
    let unknown := ((Dict.keys data).filter (· ∉ knownFields)).dedup
    raiseIf (unknown ≠ []) (.lockError ("unknown specification fields: " ++
      ", ".intercalate (unknown.insertionSort (· ≤ ·))))
    raiseIf (isOne (Dict.get data "version") = false) (.lockError "specification version must be 1")
    let (source, url, snapshot) ← snapshotSource data
    let (suite, components) ← channel source
    raiseIf ((Dict.get data "archs").bind Json.texts? ≠ some [architecture])
      (.lockError "archs must be ['amd64']; arch: all is included implicitly")
    let packages ← requestedPackages repr data
    return ⟨url, snapshot, suite, "main" :: otherComponents components, packages⟩
  | _ => .error (.lockError "specification must be a JSON object")

end

/-! ## What is accepted -/

/-- The checks that a loaded specification has passed. -/
structure Specification.Valid (specification : Specification) : Prop where
  https : startsWith specification.snapshotUrl "https://" = true
  pinned : endsWith specification.snapshotUrl ("/" ++ specification.snapshot) = true
  snapshot : isSnapshot specification.snapshot.toList = true
  suite : isIdentifier specification.suite.toList = true
  main : specification.components.head? = some "main"
  nodup : specification.components.Nodup
  components : ∀ component ∈ specification.components, isIdentifier component.toList = true

theorem rstripSlash_append (url : Str) : ∃ slashes, url = rstripSlash url ++ slashes ∧
    ∀ c ∈ slashes, c = '/' := by
  refine ⟨(url.reverse.takeWhile (· = '/')).reverse, ?_, fun c hc => ?_⟩
  · rw [rstripSlash, ← List.reverse_append, List.takeWhile_append_dropWhile, List.reverse_reverse]
  · simpa using List.mem_takeWhile_imp (List.mem_reverse.1 hc)

theorem lastSegment_append (url : Str) : ∃ front, url = front ++ lastSegment url ∧
    (front = [] ∨ ∃ before, front = before ++ ['/']) := by
  refine ⟨(url.reverse.dropWhile (· ≠ '/')).reverse, ?_, ?_⟩
  · rw [lastSegment, ← List.reverse_append, List.takeWhile_append_dropWhile, List.reverse_reverse]
  · cases hrest : url.reverse.dropWhile (· ≠ '/') with
    | nil => exact .inl rfl
    | cons c rest =>
      right
      have hhead := List.head?_dropWhile_not (· ≠ '/') url.reverse
      rw [hrest] at hhead
      have hc : c = '/' := by simpa using hhead
      exact ⟨rest.reverse, by rw [List.reverse_cons, hc]⟩

/-- Only the slashes at the end are removed, and the timestamp has none. -/
theorem snapshotUrl_pinned {url : Str} (hhttps : "https://".toList <+: url)
    (hsnapshot : isSnapshot (lastSegment (rstripSlash url)) = true) :
    "https://".toList <+: rstripSlash url ∧
      '/' :: lastSegment (rstripSlash url) <:+ rstripSlash url := by
  simp only [isSnapshot, decide_eq_true_eq] at hsnapshot
  obtain ⟨slashes, hurl, hslashes⟩ := rstripSlash_append url
  obtain ⟨front, hfront, hcases⟩ := lastSegment_append (rstripSlash url)
  have hlength : 16 ≤ (rstripSlash url).length := by
    rw [hfront, List.length_append, hsnapshot.1]
    omega
  have hstarts : "https://".toList <+: rstripSlash url := by
    refine List.prefix_of_prefix_length_le hhttps ⟨slashes, hurl.symm⟩ ?_
    exact Nat.le_trans (by decide) hlength
  refine ⟨hstarts, ?_⟩
  rcases hcases with rfl | ⟨before, rfl⟩
  · -- without a slash the timestamp would start with `https://`
    obtain ⟨rest, hrest⟩ := hstarts
    rw [List.nil_append] at hfront
    rw [← hfront, ← hrest] at hsnapshot
    simp at hsnapshot
    obtain ⟨-, hdigits, -⟩ := hsnapshot
    exact absurd hdigits (by decide)
  · refine ⟨before, ?_⟩
    rw [← List.singleton_append, ← List.append_assoc]
    exact hfront.symm

theorem otherComponents_spec {components : List String} :
    (otherComponents components).Nodup ∧
      ∀ component ∈ otherComponents components, component ≠ "main" ∧ component ∈ components := by
  unfold otherComponents
  refine ⟨(List.perm_insertionSort _ _).nodup_iff.2 (List.nodup_dedup _), fun component h => ?_⟩
  rw [List.mem_insertionSort, List.mem_dedup, List.mem_filter] at h
  exact ⟨by simpa using h.2, h.1⟩

theorem snapshotSource_spec {data source : Dict String Json} {url snapshot : String}
    (h : snapshotSource data = .ok (source, url, snapshot)) :
    startsWith url "https://" = true ∧ endsWith url ("/" ++ snapshot) = true ∧
      isSnapshot snapshot.toList = true := by
  simp only [snapshotSource, bind_eq_ok, raiseIf_eq_ok, exists_unit, pure_eq_ok, Bool.not_eq_false,
    Prod.mk.injEq] at h
  obtain ⟨source, -, hhttps, hsnapshot, -, rfl, rfl⟩ := h
  obtain ⟨hstarts, hends⟩ := snapshotUrl_pinned (List.isPrefixOf_iff_prefix.1 hhttps) hsnapshot
  refine ⟨?_, ?_, by rwa [String.toList_ofList]⟩
  · simpa [startsWith, List.isPrefixOf_iff_prefix] using hstarts
  · simpa [endsWith, List.isSuffixOf_iff_suffix] using hends

theorem channel_spec {source : Dict String Json} {suite : String} {components : List String}
    (h : channel source = .ok (suite, components)) :
    isIdentifier suite.toList = true ∧
      ∀ component ∈ components, isIdentifier component.toList = true := by
  unfold channel at h
  split at h
  · simp only [bind_eq_ok, raiseIf_eq_ok, exists_unit, pure_eq_ok, Prod.mk.injEq, forM_eq_ok,
      checkIdentifier, Bool.not_eq_false, List.forall_mem_cons] at h
    obtain ⟨⟨hsuite, hfirst, hothers⟩, -, -, rfl, rfl⟩ := h
    refine ⟨by rwa [String.toList_ofList], fun component hcomponent => ?_⟩
    obtain ⟨name, hname, rfl⟩ := List.mem_map.1 hcomponent
    rw [String.toList_ofList]
    rcases List.mem_cons.1 hname with rfl | hname
    · exact hfirst
    · exact hothers name hname
  · cases h

/-- A loaded specification is valid. -/
theorem loadSpecification_valid {repr : Json → String} {data : Json} {specification : Specification}
    (h : loadSpecification repr data = .ok specification) : specification.Valid := by
  unfold loadSpecification at h
  split at h
  · simp only [bind_eq_ok, raiseIf_eq_ok, exists_unit, pure_eq_ok, Prod.exists] at h
    obtain ⟨-, -, source, url, snapshot, hsource, suite, components, hchannel, -, packages, -, rfl⟩ := h
    obtain ⟨hhttps, hpinned, hsnapshot⟩ := snapshotSource_spec hsource
    obtain ⟨hsuite, hcomponents⟩ := channel_spec hchannel
    have hothers := @otherComponents_spec components
    refine ⟨hhttps, hpinned, hsnapshot, hsuite, rfl, ?_, ?_⟩
    · exact List.nodup_cons.2 ⟨fun hmain => (hothers.2 _ hmain).1 rfl, hothers.1⟩
    · refine List.forall_mem_cons.2 ⟨by decide, fun component hcomponent => ?_⟩
      exact hcomponents component (hothers.2 component hcomponent).2
  · cases h

end RulesMkosi.Debian
