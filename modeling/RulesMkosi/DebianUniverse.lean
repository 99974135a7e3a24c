/-
  The packages of a snapshot (`Universe` of `mkosi/debian/generate_lock.py`).

  A universe holds the packages of every name, newest first, and the packages
  that provide a name, in apt's order of preference.  `candidates` lists the
  packages that satisfy a relation.
-/
import RulesMkosi.DebianVersion
import Mathlib.Data.List.Sort
import Mathlib.Data.String.Basic

namespace RulesMkosi.Debian

def architecture : String := "amd64"

def indexArchitectures : List String := [architecture, "all"]

def priorityRanks : Dict String ℕ :=
  [("required", 0), ("important", 1), ("standard", 2), ("optional", 3), ("extra", 4)]

/-- `_PRIORITY_RANK.get(priority, len(_PRIORITY_RANK))` -/
def priorityRank (priority : String) : ℕ := (priorityRanks.get priority).getD priorityRanks.length

/-! ## Relations and packages -/

/-- One alternative of a dependency field. -/
structure Relation where
  name : String
  arch : Option String
  operator : Option String
  version : Option String
  deriving Repr, DecidableEq

/-- `text` if the field is set, and not empty -/
def truthy : Option String → Option String
  | some "" => none
  | field => field

def Relation.str (relation : Relation) : String :=
  relation.name ++ (match truthy relation.arch with | some arch => ":" ++ arch | none => "") ++
    match truthy relation.operator with
    | some operator => " (" ++ operator ++ " " ++ relation.version.getD "None" ++ ")"
    | none => ""

structure Package where
  name : String
  version : String
  architecture : String
  component : String
  filename : String
  size : ℕ
  sha256 : String
  multiArch : String
  essential : Bool
  priority : String
  preDepends : List (List Relation)
  depends : List (List Relation)
  provides : List (String × Option String)
  deriving Repr, DecidableEq

/-- `text.replace(old, new)` for a single character -/
def replaceChar (old : Char) (new : String) (text : String) : String :=
  String.ofList (text.toList.flatMap fun c => if c = old then new.toList else [c])

def lockKey (name version architecture : String) : String :=
  replaceChar '+' "-p-" name ++ "_" ++
    replaceChar '~' "-t-" (replaceChar '+' "-p-" (replaceChar ':' "-" version)) ++ "_" ++
    architecture

def Package.key (package : Package) : String :=
  lockKey package.name package.version package.architecture

/-! ## The tables of a universe -/

/-- The packages of each name, keyed by version and architecture. -/
abbrev ByName := Dict String (Dict (String × String) Package)

def addPackage (byName : ByName) (package : Package) : Except Failure ByName :=
  let identity := (package.version, package.architecture)
  let known := (byName.get package.name).getD []
  match known.get identity with
  | none => .ok (byName.set package.name (known.set identity package))
  | some previous => do
    raiseIf (previous ≠ { package with component := previous.component })
      (.lockError ("conflicting duplicate package metadata: " ++ package.name))
    return byName

section
variable (A : Alphabet)

/-- A package with its parsed version. -/
def withVersion (package : Package) : Except Failure (SplitVersion × Package) := do
  let version ← splitVersion package.version
  return (version, package)

/-- `sorted(candidates, key=newest_first)`.  The versions are read when they are compared, in order;
    a single package is not compared. -/
def newestFirst (candidates : List Package) : Except Failure (List Package) :=
  if candidates.length < 2 then .ok candidates
  else do
    let versions ← candidates.mapM withVersion
    return (versions.insertionSort fun p q => compareSplit A q.1 p.1 ≤ 0).map Prod.snd

/-- The packages of one name, sorted. -/
def orderName (item : String × Dict (String × String) Package) :
    Except Failure (String × List Package) := do
  let ordered ← newestFirst A (item.2.map Prod.snd)
  return (item.1, ordered)

end

abbrev Providers := Dict String (List (Package × Option String))

/-- The entries that the packages add to `_providers`. -/
def provided (packages : List Package) : List (String × (Package × Option String)) :=
  packages.flatMap fun package => package.provides.map fun p => (p.1, (package, p.2))

def addProvider (providers : Providers) (entry : String × (Package × Option String)) : Providers :=
  providers.set entry.1 ((providers.get entry.1).getD [] ++ [entry.2])

/-- The order of the providers of a name. -/
def preferred (a b : Package × Option String) : Prop :=
  priorityRank a.1.priority < priorityRank b.1.priority ∨
    priorityRank a.1.priority = priorityRank b.1.priority ∧ a.1.name ≤ b.1.name

instance : DecidableRel preferred := fun _ _ => inferInstanceAs (Decidable (_ ∨ _ ∧ _))

def sortProviders (packages : List Package) : Providers :=
  ((provided packages).foldl addProvider []).map fun item => (item.1, item.2.insertionSort preferred)

section
variable (A : Alphabet)

/-- `package` is at least as new as `other`. -/
def NotOlder (package other : Package) : Prop :=
  ∃ difference ≤ 0, compareVersions A other.version package.version = .ok difference

/-- The tables `_packages` and `_providers`. -/
structure Universe where
  packages : Dict String (List Package)
  providers : Providers
  nodup : packages.keys.Nodup
  nonempty : ∀ item ∈ packages, item.2 ≠ []
  named : ∀ item ∈ packages, ∀ package ∈ item.2, package.name = item.1
  newest_first : ∀ item ∈ packages, item.2.Pairwise (NotOlder A)
  provides : ∀ item ∈ providers, ∀ entry ∈ item.2,
    (item.1, entry.2) ∈ entry.1.provides ∧ ∃ known ∈ packages, entry.1 ∈ known.2

/-! ## Building the tables -/

variable {A}

/-- What the loop over the packages keeps: every key has packages, all of its name. -/
structure WellKeyed (byName : ByName) : Prop where
  nodup : byName.keys.Nodup
  nonempty : ∀ item ∈ byName, item.2 ≠ []
  named : ∀ item ∈ byName, ∀ known ∈ item.2, known.2.name = item.1

theorem WellKeyed.nil : WellKeyed [] :=
  ⟨List.nodup_nil, fun _ h => absurd h List.not_mem_nil, fun _ h => absurd h List.not_mem_nil⟩

theorem WellKeyed.add {byName byName' : ByName} {package : Package} (h : WellKeyed byName)
    (hadd : addPackage byName package = .ok byName') : WellKeyed byName' := by
  unfold addPackage at hadd
  dsimp only at hadd
  split at hadd
  · cases hadd
    refine ⟨Dict.nodup_keys_set h.nodup, fun item hitem => ?_, fun item hitem known hknown => ?_⟩
    · rcases Dict.mem_set hitem with rfl | hold
      · exact Dict.set_ne_nil
      · exact h.nonempty item hold
    · rcases Dict.mem_set hitem with rfl | hold
      · rcases Dict.mem_set hknown with rfl | hknown
        · rfl
        · cases hget : Dict.get byName package.name with
          | none => rw [hget] at hknown; exact absurd hknown List.not_mem_nil
          | some ps =>
            rw [hget] at hknown
            exact h.named _ (Dict.mem_of_get hget) known hknown
      · exact h.named item hold known hknown
  · simp only [bind_eq_ok, raiseIf_eq_ok, exists_unit, pure_eq_ok] at hadd
    exact hadd.2 ▸ h

/-- Sorting keeps the packages and puts every package before the older ones. -/
theorem newestFirst_spec {candidates ordered : List Package}
    (h : newestFirst A candidates = .ok ordered) :
    ordered.Perm candidates ∧ ordered.Pairwise (NotOlder A) := by
  unfold newestFirst at h
  split_ifs at h with hlen
  · cases h
    refine ⟨.refl _, ?_⟩
    match candidates, hlen with
    | [], _ => exact .nil
    | [p], _ => exact List.pairwise_singleton _ p
  · simp only [bind_eq_ok, pure_eq_ok] at h
    obtain ⟨versions, hversions, rfl⟩ := h
    have hmap : versions.map Prod.snd = candidates ∧
        ∀ v ∈ versions, splitVersion v.2.version = .ok v.1 := by
      have hall := mapM_eq_ok.1 hversions
      clear hversions hlen
      induction hall with
      | nil => simp
      | cons hpv _ ih =>
        simp only [withVersion, bind_eq_ok, pure_eq_ok] at hpv
        obtain ⟨version, hv, rfl⟩ := hpv
        refine ⟨by rw [List.map_cons, ih.1], fun v hmem => ?_⟩
        rcases List.mem_cons.1 hmem with rfl | hmem
        · exact hv
        · exact ih.2 v hmem
    refine ⟨?_, List.pairwise_map.2 ?_⟩
    · rw [← hmap.1]
      exact (List.perm_insertionSort _ _).map _
    · have htotal : Std.Total fun p q : SplitVersion × Package => compareSplit A q.1 p.1 ≤ 0 :=
        ⟨fun p q => by simp only [compareSplit_nonpos]; exact le_total _ _⟩
      have htrans : IsTrans _ fun p q : SplitVersion × Package => compareSplit A q.1 p.1 ≤ 0 :=
        ⟨fun p q r => by simp only [compareSplit_nonpos]; exact fun h h' => h'.trans h⟩
      refine (List.pairwise_insertionSort _ versions).imp_of_mem fun {p q} hp hq hle => ?_
      rw [List.mem_insertionSort] at hp hq
      refine ⟨_, hle, ?_⟩
      simp only [compareVersions, hmap.2 p hp, hmap.2 q hq, ok_bind]
      rfl

/-- The entries of `_providers` before and after sorting. -/
def Lists (packages : List Package) (providers : Providers) : Prop :=
  ∀ item ∈ providers, ∀ entry ∈ item.2, (item.1, entry) ∈ provided packages

theorem foldl_addProvider {packages : List Package} : ∀ {entries : List _} {providers : Providers},
    (∀ entry ∈ entries, entry ∈ provided packages) → Lists packages providers →
      Lists packages (entries.foldl addProvider providers)
  | [], _, _, h => h
  | entry :: entries, providers, hsub, h => by
    rw [List.foldl_cons]
    refine foldl_addProvider (fun e he => hsub e (List.mem_cons_of_mem _ he)) ?_
    intro item hitem e he
    rcases Dict.mem_set hitem with rfl | hold
    · rcases List.mem_append.1 he with he | he
      · cases hget : Dict.get providers entry.1 with
        | none => rw [hget] at he; exact absurd he List.not_mem_nil
        | some es => rw [hget] at he; exact h _ (Dict.mem_of_get hget) e he
      · rw [List.mem_singleton.1 he]
        exact hsub entry List.mem_cons_self
    · exact h item hold e he

theorem sortProviders_lists (packages : List Package) : Lists packages (sortProviders packages) := by
  intro item hitem entry hentry
  obtain ⟨source, hsource, rfl⟩ := List.mem_map.1 hitem
  rw [List.mem_insertionSort] at hentry
  exact foldl_addProvider (fun _ h => h) (fun _ h => absurd h List.not_mem_nil) _ hsource _ hentry

/-- The packages of every name, sorted. -/
def orderedPackages (A : Alphabet) (packages : List Package) :
    Except Failure (Dict String (List Package)) := do
  let byName ← packages.foldlM addPackage []
  byName.mapM (orderName A)

/-- Each name of the result has the packages of that name in the loop's table. -/
theorem orderedPackages_spec {packages : List Package} {table : Dict String (List Package)}
    (h : orderedPackages A packages = .ok table) : table.keys.Nodup ∧
      ∀ item ∈ table, item.2 ≠ [] ∧ (∀ package ∈ item.2, package.name = item.1) ∧
        item.2.Pairwise (NotOlder A) := by
  simp only [orderedPackages, bind_eq_ok] at h
  obtain ⟨byName, hfold, hmap⟩ := h
  have hkeyed : WellKeyed byName :=
    foldlM_inv (fun _ => WellKeyed) (fun _ _ _ _ hb hstep => hb.add hstep) WellKeyed.nil hfold
  have hforall := mapM_eq_ok.1 hmap
  refine ⟨?_, fun item hitem => ?_⟩
  · have hkeys : byName.keys = table.keys := by
      clear hmap hfold hkeyed
      induction hforall with
      | nil => rfl
      | cons horder _ ih =>
        simp only [orderName, bind_eq_ok, pure_eq_ok] at horder
        obtain ⟨ordered, -, rfl⟩ := horder
        exact congrArg _ ih
    exact hkeys ▸ hkeyed.nodup
  · obtain ⟨source, hsource, horder⟩ := forall₂_mem_right hforall hitem
    simp only [orderName, bind_eq_ok, pure_eq_ok] at horder
    obtain ⟨ordered, hordered, rfl⟩ := horder
    obtain ⟨hperm, hpair⟩ := newestFirst_spec hordered
    refine ⟨fun hnil => ?_, fun package hpackage => ?_, hpair⟩
    · have hnil : ordered = [] := hnil
      have : source.2.map Prod.snd = [] := (hnil ▸ hperm).nil_eq.symm
      exact hkeyed.nonempty source hsource (List.map_eq_nil_iff.1 this)
    · obtain ⟨known, hknown, rfl⟩ := List.mem_map.1 (hperm.mem_iff.1 hpackage)
      exact hkeyed.named source hsource known hknown

theorem mem_provided {packages : List Package} {name : String} {entry : Package × Option String} :
    (name, entry) ∈ provided packages ↔ entry.1 ∈ packages ∧ (name, entry.2) ∈ entry.1.provides := by
  unfold provided
  simp only [List.mem_flatMap, List.mem_map, Prod.mk.injEq]
  constructor
  · rintro ⟨package, hpackage, p, hp, rfl, rfl⟩
    exact ⟨hpackage, hp⟩
  · rintro ⟨hmem, hp⟩
    exact ⟨entry.1, hmem, (name, entry.2), hp, rfl, rfl⟩

variable (A)

/-- `Universe(packages)` -/
def Universe.init (packages : List Package) : Except Failure (Universe A) :=
  match h : orderedPackages A packages with
  | .error e => .error e
  | .ok table => .ok
    { packages := table
      providers := sortProviders (table.flatMap Prod.snd)
      nodup := (orderedPackages_spec h).1
      nonempty := fun item hitem => ((orderedPackages_spec h).2 item hitem).1
      named := fun item hitem => ((orderedPackages_spec h).2 item hitem).2.1
      newest_first := fun item hitem => ((orderedPackages_spec h).2 item hitem).2.2
      provides := fun item hitem entry hentry => by
        obtain ⟨hmem, hprovides⟩ := mem_provided.1 (sortProviders_lists _ item hitem entry hentry)
        exact ⟨hprovides, List.mem_flatMap.1 hmem⟩ }

end

/-! ## Queries -/

namespace Universe

variable {A : Alphabet}

/-- `universe.packages()` -/
def all (universe_ : Universe A) : List Package := universe_.packages.flatMap Prod.snd

def newest (universe_ : Universe A) (name : String) : Option Package :=
  ((universe_.packages.get name).getD []).head?

end Universe

/-- `_architecture_matches` -/
def architectureMatches (package : Package) (qualifier : Option String) : Bool :=
  if qualifier = none ∨ qualifier ∈ [some "any", some "native", some architecture] then
    package.architecture ∈ indexArchitectures
  else package.multiArch = "foreign"

/-- `version_satisfies(version, operator, relation.version)` -/
def satisfiesRelation (A : Alphabet) (version operator : String) (relation : Relation) :
    Except Failure Bool :=
  match relation.version with
  | some required => versionSatisfies A version operator required
  | none => do
    let _ ← splitVersion version
    .error (.typeError "argument of type 'NoneType' is not iterable")

/-- `not relation.operator or version_satisfies(version, ...)`, with no version satisfying nothing -/
def versionAccepted (A : Alphabet) (version : Option String) (relation : Relation) :
    Except Failure Bool :=
  match truthy relation.operator, version with
  | none, _ => .ok true
  | some _, none => .ok false
  | some operator, some version => satisfiesRelation A version operator relation

/-- The loop body for the packages of the relation's name. -/
def addReal (A : Alphabet) (relation : Relation) (result : List Package) (package : Package) :
    Except Failure (List Package) :=
  if architectureMatches package relation.arch then do
    let accepted ← versionAccepted A (some package.version) relation
    return if accepted then result ++ [package] else result
  else .ok result

/-- The loop body for the providers of the relation's name. -/
def addVirtual (A : Alphabet) (relation : Relation) (result : List Package)
    (entry : Package × Option String) : Except Failure (List Package) :=
  if ¬ architectureMatches entry.1 relation.arch ∨ entry.1 ∈ result then .ok result
  else do
    let accepted ← versionAccepted A entry.2 relation
    return if accepted then result ++ [entry.1] else result

namespace Universe

variable {A : Alphabet} (universe_ : Universe A)

def candidates (relation : Relation) : Except Failure (List Package) := do
  let real ← ((universe_.packages.get relation.name).getD []).foldlM (addReal A relation) []
  ((universe_.providers.get relation.name).getD []).foldlM (addVirtual A relation) real

variable {universe_}

theorem mem_all {package : Package} :
    package ∈ universe_.all ↔ ∃ item ∈ universe_.packages, package ∈ item.2 := List.mem_flatMap

theorem get_name {package : Package} (h : package ∈ universe_.all) :
    ∃ ps, universe_.packages.get package.name = some ps ∧ package ∈ ps := by
  obtain ⟨item, hitem, hmem⟩ := mem_all.1 h
  refine ⟨item.2, ?_, hmem⟩
  rw [universe_.named item hitem package hmem]
  exact Dict.get_of_mem universe_.nodup hitem

/-- The first package of a name is the newest one. -/
theorem newest_spec {package : Package} (h : package ∈ universe_.all) :
    ∃ newest, universe_.newest package.name = some newest ∧ newest ∈ universe_.all ∧
      newest.name = package.name ∧
      ∀ other ∈ universe_.all, other.name = package.name → other = newest ∨ NotOlder A newest other := by
  obtain ⟨ps, hget, hmem⟩ := get_name h
  have hitem := Dict.mem_of_get hget
  cases ps with
  | nil => exact absurd hmem List.not_mem_nil
  | cons newest older =>
    refine ⟨newest, by simp [Universe.newest, hget], mem_all.2 ⟨_, hitem, List.mem_cons_self⟩,
      universe_.named _ hitem _ List.mem_cons_self, fun other hother hname => ?_⟩
    obtain ⟨qs, hget', hmem'⟩ := get_name hother
    rw [hname, hget] at hget'
    cases hget'
    rcases List.mem_cons.1 hmem' with h | h
    · exact .inl h
    · exact .inr (List.rel_of_pairwise_cons (universe_.newest_first _ hitem) h)

/-- A candidate is a package of the universe that has the relation's name or provides it. -/
def Answers (universe_ : Universe A) (name : String) (package : Package) : Prop :=
  package ∈ universe_.all ∧ (package.name = name ∨ ∃ version, (name, version) ∈ package.provides)

theorem addReal_answers {relation : Relation} {result result' : List Package} {package : Package}
    (hresult : ∀ c ∈ result, universe_.Answers relation.name c)
    (hpackage : universe_.Answers relation.name package)
    (h : addReal A relation result package = .ok result') :
    ∀ c ∈ result', universe_.Answers relation.name c := by
  unfold addReal at h
  split_ifs at h with harch
  · simp only [bind_eq_ok, pure_eq_ok] at h
    obtain ⟨accepted, -, rfl⟩ := h
    intro c hc
    cases accepted with
    | false => exact hresult c hc
    | true =>
      rcases List.mem_append.1 hc with hc | hc
      · exact hresult c hc
      · rw [List.mem_singleton.1 hc]; exact hpackage
  · cases h; exact hresult

theorem addVirtual_answers {relation : Relation} {result result' : List Package}
    {entry : Package × Option String} (hresult : ∀ c ∈ result, universe_.Answers relation.name c)
    (hentry : universe_.Answers relation.name entry.1)
    (h : addVirtual A relation result entry = .ok result') :
    ∀ c ∈ result', universe_.Answers relation.name c := by
  unfold addVirtual at h
  split_ifs at h with harch
  · cases h; exact hresult
  · simp only [bind_eq_ok, pure_eq_ok] at h
    obtain ⟨accepted, -, rfl⟩ := h
    intro c hc
    cases accepted with
    | false => exact hresult c hc
    | true =>
      rcases List.mem_append.1 hc with hc | hc
      · exact hresult c hc
      · rw [List.mem_singleton.1 hc]; exact hentry

theorem candidates_answers {relation : Relation} {cs : List Package}
    (h : universe_.candidates relation = .ok cs) : ∀ c ∈ cs, universe_.Answers relation.name c := by
  simp only [candidates, bind_eq_ok] at h
  obtain ⟨real, hreal, hvirtual⟩ := h
  have hreal' : ∀ c ∈ real, universe_.Answers relation.name c := by
    refine foldlM_mem_inv (fun result => ∀ c ∈ result, universe_.Answers relation.name c)
      (fun result package result' hpackage hresult hstep => addReal_answers hresult ?_ hstep)
      (fun c hc => absurd hc List.not_mem_nil) hreal
    cases hget : universe_.packages.get relation.name with
    | none => rw [hget] at hpackage; exact absurd hpackage List.not_mem_nil
    | some ps =>
      rw [hget] at hpackage
      have hitem := Dict.mem_of_get hget
      exact ⟨mem_all.2 ⟨_, hitem, hpackage⟩, .inl (universe_.named _ hitem _ hpackage)⟩
  refine foldlM_mem_inv (fun result => ∀ c ∈ result, universe_.Answers relation.name c)
    (fun result entry result' hentry hresult hstep => addVirtual_answers hresult ?_ hstep)
    hreal' hvirtual
  cases hget : universe_.providers.get relation.name with
  | none => rw [hget] at hentry; exact absurd hentry List.not_mem_nil
  | some entries =>
    rw [hget] at hentry
    obtain ⟨hprovides, hknown⟩ := universe_.provides _ (Dict.mem_of_get hget) _ hentry
    exact ⟨mem_all.2 hknown, .inr ⟨_, hprovides⟩⟩

end Universe

/-! ## The records of a name -/

/-- `addPackage`, seen from the packages of one name. -/
def addRecord (known : Dict (String × String) Package) (package : Package) :
    Dict (String × String) Package :=
  match known.get (package.version, package.architecture) with
  | none => known.set (package.version, package.architecture) package
  | some _ => known

/-- The packages of a name, each version and architecture once. -/
def records (packages : List Package) (name : String) : Dict (String × String) Package :=
  (packages.filter (·.name = name)).foldl addRecord []

theorem addPackage_get {byName byName' : ByName} {package : Package}
    (h : addPackage byName package = .ok byName') (name : String) :
    (byName'.get name).getD [] = if package.name = name
      then addRecord ((byName.get name).getD []) package else (byName.get name).getD [] := by
  unfold addPackage at h
  dsimp only at h
  by_cases hname : package.name = name
  · subst hname
    rw [if_pos rfl, addRecord]
    split at h
    · cases h
      simp
    · simp only [bind_eq_ok, raiseIf_eq_ok, exists_unit, pure_eq_ok] at h
      rw [← h.2]
  · rw [if_neg hname]
    split at h
    · cases h
      rw [Dict.get_set_ne _ _ hname]
    · simp only [bind_eq_ok, raiseIf_eq_ok, exists_unit, pure_eq_ok] at h
      rw [h.2]

theorem foldlM_addPackage_get (name : String) : ∀ {packages : List Package} {byName byName' : ByName},
    packages.foldlM addPackage byName = .ok byName' → (byName'.get name).getD [] =
      (packages.filter (·.name = name)).foldl addRecord ((byName.get name).getD [])
  | [], byName, byName', h => by
    rw [List.foldlM_nil, pure_eq_ok] at h
    rw [h]; rfl
  | package :: packages, byName, byName', h => by
    rw [List.foldlM_cons, bind_eq_ok] at h
    obtain ⟨next, hadd, hrest⟩ := h
    rw [foldlM_addPackage_get name hrest, addPackage_get hadd]
    by_cases hname : package.name = name
    · rw [if_pos hname, List.filter_cons_of_pos (by simpa using hname), List.foldl_cons]
    · rw [if_neg hname, List.filter_cons_of_neg (by simpa using hname)]

theorem mapM_orderName_get (name : String) {byName : ByName} {table : Dict String (List Package)}
    (h : List.Forall₂ (fun item ordered => orderName A item = .ok ordered) byName table) :
    newestFirst A (((byName.get name).getD []).map Prod.snd) = .ok ((table.get name).getD []) := by
  induction h with
  | nil => rfl
  | @cons item ordered byName table horder hrest ih =>
    simp only [orderName, bind_eq_ok, pure_eq_ok] at horder
    obtain ⟨ordered, hordered, rfl⟩ := horder
    by_cases hname : item.1 = name
    · simpa [Dict.get, hname] using hordered
    · simpa [Dict.get, hname] using ih

theorem init_ordered {packages : List Package} {universe_ : Universe A}
    (h : Universe.init A packages = .ok universe_) :
    orderedPackages A packages = .ok universe_.packages := by
  unfold Universe.init at h
  split at h
  · cases h
  · rename_i table htable
    cases h
    exact htable

/-- **The table of a universe.**  Each name has its records, newest first. -/
theorem init_packages {packages : List Package} {universe_ : Universe A}
    (h : Universe.init A packages = .ok universe_) (name : String) :
    newestFirst A ((records packages name).map Prod.snd) =
      .ok ((universe_.packages.get name).getD []) := by
  have htable := init_ordered h
  simp only [orderedPackages, bind_eq_ok] at htable
  obtain ⟨byName, hfold, hmap⟩ := htable
  have hrecords : (byName.get name).getD [] = records packages name :=
    foldlM_addPackage_get name hfold
  rw [← hrecords]
  exact mapM_orderName_get name (mapM_eq_ok.1 hmap)

/-- What is recorded of the packages seen so far: each under its version and architecture. -/
structure Records (packages : List Package) (known : Dict (String × String) Package) : Prop where
  nodup : known.keys.Nodup
  mem : ∀ item ∈ known, item.2 ∈ packages ∧ item.1 = (item.2.version, item.2.architecture)
  covers : ∀ package ∈ packages, (package.version, package.architecture) ∈ known.keys

theorem Records.add {packages : List Package} {known : Dict (String × String) Package}
    (h : Records packages known) (package : Package) :
    Records (packages ++ [package]) (addRecord known package) := by
  unfold addRecord
  split
  · refine ⟨Dict.nodup_keys_set h.nodup, fun item hitem => ?_, fun p hp => ?_⟩
    · rcases Dict.mem_set hitem with rfl | hold
      · exact ⟨by simp, rfl⟩
      · exact ⟨List.mem_append_left _ (h.mem item hold).1, (h.mem item hold).2⟩
    · rcases List.mem_append.1 hp with hp | hp
      · exact Dict.mem_keys_set.2 (.inr (h.covers p hp))
      · rw [List.mem_singleton.1 hp]
        exact Dict.mem_keys_set.2 (.inl rfl)
  · rename_i previous hprevious
    refine ⟨h.nodup, fun item hitem => ?_, fun p hp => ?_⟩
    · exact ⟨List.mem_append_left _ (h.mem item hitem).1, (h.mem item hitem).2⟩
    · rcases List.mem_append.1 hp with hp | hp
      · exact h.covers p hp
      · rw [List.mem_singleton.1 hp]
        exact Dict.mem_keys_of_get hprevious

theorem foldl_addRecord : ∀ {packages seen : List Package} {known : Dict (String × String) Package},
    Records seen known → Records (seen ++ packages) (packages.foldl addRecord known)
  | [], seen, known, h => by simpa using h
  | package :: packages, seen, known, h => by
    have := @foldl_addRecord packages _ _ (h.add package)
    simpa using this

theorem records_spec (packages : List Package) (name : String) :
    Records (packages.filter (·.name = name)) (records packages name) :=
  @foldl_addRecord _ [] _ ⟨List.nodup_nil, fun _ h => absurd h List.not_mem_nil,
    fun _ h => absurd h List.not_mem_nil⟩

/-- The packages of a universe are those it is made of. -/
theorem Universe.mem_of_mem_all {packages : List Package} {universe_ : Universe A}
    (h : Universe.init A packages = .ok universe_) {package : Package}
    (hmem : package ∈ universe_.all) : package ∈ packages := by
  obtain ⟨ordered, hget, hordered⟩ := Universe.get_name hmem
  have hsorted := init_packages h package.name
  rw [hget, Option.getD_some] at hsorted
  obtain ⟨item, hitem, rfl⟩ := List.mem_map.1 ((newestFirst_spec hsorted).1.mem_iff.1 hordered)
  exact List.mem_of_mem_filter ((records_spec packages _).mem item hitem).1

/-- The recorded package of a record is the same but for its component. -/
def Recorded (byName : ByName) (package : Package) : Prop :=
  ∃ known previous, byName.get package.name = some known ∧
    known.get (package.version, package.architecture) = some previous ∧
    previous = { package with component := previous.component }

theorem Recorded.add {byName byName' : ByName} {package record : Package}
    (h : Recorded byName record) (hadd : addPackage byName package = .ok byName') :
    Recorded byName' record := by
  obtain ⟨known, previous, hknown, hprevious, heq⟩ := h
  unfold addPackage at hadd
  dsimp only at hadd
  split at hadd
  · next hnew =>
    cases hadd
    by_cases hname : package.name = record.name
    · rw [hname, hknown, Option.getD_some] at hnew ⊢
      refine ⟨_, previous, Dict.get_set_self _ _ _, ?_, heq⟩
      rw [Dict.get_set_ne _ _ (by rintro hsame; rw [hsame, hprevious] at hnew; cases hnew), hprevious]
    · exact ⟨known, previous, by rw [Dict.get_set_ne _ _ hname, hknown], hprevious, heq⟩
  · simp only [bind_eq_ok, raiseIf_eq_ok, exists_unit, pure_eq_ok] at hadd
    exact hadd.2 ▸ ⟨known, previous, hknown, hprevious, heq⟩

theorem Recorded.of_add {byName byName' : ByName} {package : Package}
    (hadd : addPackage byName package = .ok byName') : Recorded byName' package := by
  unfold addPackage at hadd
  dsimp only at hadd
  split at hadd
  · cases hadd
    exact ⟨_, package, Dict.get_set_self _ _ _, Dict.get_set_self _ _ _, rfl⟩
  · next previous hprevious =>
    simp only [bind_eq_ok, raiseIf_eq_ok, exists_unit, pure_eq_ok, ne_eq, not_not] at hadd
    obtain ⟨heq, rfl⟩ := hadd
    cases hget : Dict.get byName package.name with
    | none => rw [hget] at hprevious; cases hprevious
    | some known =>
      rw [hget, Option.getD_some] at hprevious
      exact ⟨known, previous, hget, hprevious, heq⟩

/-- Records of one name, version and architecture are the same but for their component. -/
theorem init_consistent {packages : List Package} {universe_ : Universe A}
    (h : Universe.init A packages = .ok universe_) {p q : Package} (hp : p ∈ packages)
    (hq : q ∈ packages) (hname : p.name = q.name) (hversion : p.version = q.version)
    (harch : p.architecture = q.architecture) : p = { q with component := p.component } := by
  have htable := init_ordered h
  simp only [orderedPackages, bind_eq_ok] at htable
  obtain ⟨byName, hfold, -⟩ := htable
  have hall : ∀ record ∈ packages, Recorded byName record := by
    refine foldlM_inv (fun done byName => ∀ record ∈ done, Recorded byName record)
      (fun done byName package byName' hdone hadd record hrecord => ?_)
      (fun record hrecord => absurd hrecord List.not_mem_nil) hfold
    rcases List.mem_append.1 hrecord with hrecord | hrecord
    · exact (hdone record hrecord).add hadd
    · rw [List.mem_singleton.1 hrecord]
      exact Recorded.of_add hadd
  obtain ⟨known, previous, hknown, hprevious, hpEq⟩ := hall p hp
  obtain ⟨known', previous', hknown', hprevious', hqEq⟩ := hall q hq
  rw [hname, hknown'] at hknown
  cases hknown
  rw [hversion, harch, hprevious'] at hprevious
  cases hprevious
  have hsame := hpEq.symm.trans hqEq
  simp only [Package.mk.injEq] at hsame
  cases p
  cases q
  simp only [Package.mk.injEq, true_and] at hsame ⊢
  exact hsame

end RulesMkosi.Debian
