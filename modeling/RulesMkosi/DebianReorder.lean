/-
  Resolution and the order of the package indexes
  (`mkosi/debian/generate_lock.py`).

  The tables of a universe are insertion-ordered dictionaries of stably sorted
  lists.  If the records of a name have different versions, each of these lists
  is determined by the set of records (`init_perm`), and resolution reads
  nothing else of the tables (`resolve_congr`).
-/
import RulesMkosi.Lib.StableSort
import RulesMkosi.DebianPolicy

namespace RulesMkosi.Debian

/-! ## Providers -/

/-- What the providers of a name are sorted by. -/
def providerKey (entry : Package × Option String) : ℕ ×ₗ String :=
  toLex (priorityRank entry.1.priority, entry.1.name)

theorem preferred_iff (a b : Package × Option String) :
    preferred a b ↔ providerKey a ≤ providerKey b := by
  unfold preferred providerKey
  rw [Prod.Lex.toLex_le_toLex]

/-- The packages that provide a name, with the version that they provide. -/
def providersOf (packages : List Package) (name : String) : List (Package × Option String) :=
  ((provided packages).filter (·.1 = name)).map Prod.snd

theorem providersOf_cons (package : Package) (packages : List Package) (name : String) :
    providersOf (package :: packages) name =
      providersOf [package] name ++ providersOf packages name := by
  simp [providersOf, provided]

theorem get_foldl_addProvider (name : String) : ∀ (entries : List _) (providers : Providers),
    ((entries.foldl addProvider providers).get name).getD [] =
      (providers.get name).getD [] ++ (entries.filter (·.1 = name)).map Prod.snd
  | [], providers => by simp
  | entry :: entries, providers => by
    rw [List.foldl_cons, get_foldl_addProvider name entries, addProvider, Dict.get_set]
    by_cases hname : entry.1 = name
    · simp [hname]
    · simp [hname]

theorem get_sortProviders (packages : List Package) (name : String) :
    ((sortProviders packages).get name).getD [] =
      (providersOf packages name).insertionSort preferred := by
  have hfold := get_foldl_addProvider name (provided packages) []
  rw [sortProviders, Dict.get_map fun entries => List.insertionSort preferred entries]
  cases hget : ((provided packages).foldl addProvider []).get name with
  | none =>
    rw [hget] at hfold
    have hnil : providersOf packages name = [] := by simpa [providersOf] using hfold.symm
    rw [hnil]
    rfl
  | some entries =>
    rw [hget] at hfold
    have hentries : entries = providersOf packages name := by simpa [providersOf] using hfold
    rw [hentries]
    rfl

/-- The entries of a key come from the packages of its name. -/
theorem filter_providersOf (name : String) (k : ℕ ×ₗ String) : ∀ packages : List Package,
    (providersOf packages name).filter (fun entry => decide (providerKey entry = k)) =
      (providersOf (packages.filter (·.name = (ofLex k).2)) name).filter
        (fun entry => decide (providerKey entry = k))
  | [] => rfl
  | package :: packages => by
    have ih := filter_providersOf name k packages
    rw [providersOf_cons, List.filter_append, ih]
    by_cases hname : package.name = (ofLex k).2
    · rw [List.filter_cons_of_pos (by simpa using hname), providersOf_cons package (packages.filter _),
        List.filter_append]
    · rw [List.filter_cons_of_neg (by simpa using hname)]
      have hnil : (providersOf [package] name).filter
          (fun entry => decide (providerKey entry = k)) = [] := by
        refine List.filter_eq_nil_iff.2 fun entry hentry hkey => hname ?_
        have hpackage : entry.1 = package := by
          simp only [providersOf, provided, List.mem_map, List.mem_filter, List.mem_flatMap] at hentry
          obtain ⟨e, ⟨⟨p, hp, q, -, rfl⟩, -⟩, rfl⟩ := hentry
          exact List.mem_singleton.1 hp
        rw [decide_eq_true_eq] at hkey
        rw [← hpackage, ← hkey]
        rfl
      rw [hnil, List.nil_append]

/-- The providers of a name depend only on the packages of each name. -/
theorem sortProviders_congr {packages packages' : List Package}
    (h : ∀ name, packages.filter (·.name = name) = packages'.filter (·.name = name)) (name : String) :
    ((sortProviders packages).get name).getD [] = ((sortProviders packages').get name).getD [] := by
  rw [get_sortProviders, get_sortProviders]
  refine insertionSort_congr preferred_iff fun k => ?_
  rw [filter_providersOf, filter_providersOf name k packages', h]

/-! ## Records -/

section
variable (A : Alphabet)

/-- Records of one name are identical if their versions are, or compare equal. -/
def Distinct (packages : List Package) : Prop :=
  ∀ p ∈ packages, ∀ q ∈ packages, p.name = q.name →
    p.version = q.version ∨ compareVersions A p.version q.version = .ok 0 → p = q

variable {A}

theorem Distinct.perm {packages packages' : List Package} (h : Distinct A packages)
    (hperm : packages.Perm packages') : Distinct A packages' :=
  fun p hp q hq => h p (hperm.mem_iff.2 hp) q (hperm.mem_iff.2 hq)

theorem Records.nodup_values {packages : List Package} {known : Dict (String × String) Package}
    (h : Records packages known) : (known.map Prod.snd).Nodup := by
  have hkeys : known.keys = (known.map Prod.snd).map fun p => (p.version, p.architecture) := by
    rw [List.map_map]
    exact List.map_congr_left fun item hitem => (h.mem item hitem).2
  have hnodup := h.nodup
  rw [hkeys] at hnodup
  exact hnodup.of_map

theorem Distinct.mem_records {packages : List Package} (h : Distinct A packages) {name : String}
    {package : Package} : package ∈ (records packages name).map Prod.snd ↔
      package ∈ packages ∧ package.name = name := by
  have hspec := records_spec packages name
  constructor
  · intro hmem
    obtain ⟨item, hitem, rfl⟩ := List.mem_map.1 hmem
    simpa using (hspec.mem item hitem).1
  · rintro ⟨hmem, hname⟩
    have hfilter : package ∈ packages.filter (·.name = name) := by simp [hmem, hname]
    obtain ⟨item, hitem, hkey⟩ := List.mem_map.1 (hspec.covers package hfilter)
    obtain ⟨hitem', hkey'⟩ := hspec.mem item hitem
    have hversion : item.2.version = package.version :=
      congrArg Prod.fst (hkey'.symm.trans hkey)
    have hrecord : item.2 ∈ packages ∧ item.2.name = name := by simpa using hitem'
    have heq := h item.2 hrecord.1 package hmem (hrecord.2.trans hname.symm) (.inl hversion)
    exact heq ▸ List.mem_map_of_mem hitem

theorem Distinct.records_perm {packages packages' : List Package} (h : Distinct A packages)
    (hperm : packages.Perm packages') (name : String) :
    ((records packages name).map Prod.snd).Perm ((records packages' name).map Prod.snd) := by
  rw [List.perm_ext_iff_of_nodup (records_spec packages name).nodup_values
    (records_spec packages' name).nodup_values]
  intro package
  rw [h.mem_records, (h.perm hperm).mem_records, hperm.mem_iff]

/-- The version of a package that has been read. -/
def versionOf (package : Package) : SplitVersion :=
  match splitVersion package.version with
  | .ok version => version
  | .error _ => ⟨0, [], []⟩

theorem mapM_withVersion {candidates : List Package}
    (h : ∀ p ∈ candidates, ∃ version, splitVersion p.version = .ok version) :
    candidates.mapM withVersion = .ok (candidates.map fun p => (versionOf p, p)) := by
  refine mapM_eq_map fun p hp => ?_
  obtain ⟨version, hversion⟩ := h p hp
  simp only [withVersion, versionOf, hversion]
  rfl

theorem read_of_mapM {candidates : List Package} {versions : List (SplitVersion × Package)}
    (h : candidates.mapM withVersion = .ok versions) :
    ∀ p ∈ candidates, ∃ version, splitVersion p.version = .ok version := by
  intro p hp
  obtain ⟨v, -, hv⟩ := forall₂_mem_right (mapM_eq_ok.1 h).flip hp
  simp only [withVersion, bind_eq_ok] at hv
  obtain ⟨version, hversion, -⟩ := hv
  exact ⟨version, hversion⟩

/-- Sorting the records of a name does not depend on their order. -/
theorem newestFirst_perm {candidates candidates' ordered : List Package}
    (hdistinct : ∀ p ∈ candidates, ∀ q ∈ candidates,
      compareVersions A p.version q.version = .ok 0 → p = q)
    (hperm : candidates.Perm candidates') (h : newestFirst A candidates = .ok ordered) :
    newestFirst A candidates' = .ok ordered := by
  unfold newestFirst at h ⊢
  rw [← hperm.length_eq]
  split_ifs at h ⊢ with hlen
  · cases h
    match candidates, hlen with
    | [], _ => rw [hperm.nil_eq]
    | [p], _ => rw [List.singleton_perm.1 hperm]
  · simp only [bind_eq_ok, pure_eq_ok] at h
    obtain ⟨versions, hversions, rfl⟩ := h
    have hread := read_of_mapM hversions
    have hread' : ∀ p ∈ candidates', ∃ version, splitVersion p.version = .ok version :=
      fun p hp => hread p (hperm.mem_iff.2 hp)
    rw [mapM_withVersion hread] at hversions
    cases hversions
    rw [mapM_withVersion hread', ok_bind, pure_eq_ok]
    have htotal : Std.Total fun p q : SplitVersion × Package => compareSplit A q.1 p.1 ≤ 0 :=
      ⟨fun p q => by simp only [compareSplit_nonpos]; exact le_total _ _⟩
    have htrans : IsTrans _ fun p q : SplitVersion × Package => compareSplit A q.1 p.1 ≤ 0 :=
      ⟨fun p q r => by simp only [compareSplit_nonpos]; exact fun h h' => h'.trans h⟩
    refine congrArg (List.map Prod.snd) (insertionSort_perm (hperm.map _) ?_).symm
    intro a ha b hb hab hba
    obtain ⟨p, hp, rfl⟩ := List.mem_map.1 ha
    obtain ⟨q, hq, rfl⟩ := List.mem_map.1 hb
    -- neither version is older, so they compare equal
    have hle := compareSplit_nonpos.1 hab
    have hge := compareSplit_nonpos.1 hba
    have hzero : compareSplit A (versionOf p) (versionOf q) = 0 :=
      compareSplit_eq_zero.2 (le_antisymm hge hle)
    obtain ⟨v, hv⟩ := hread p hp
    obtain ⟨w, hw⟩ := hread q hq
    rw [hdistinct p hp q hq ?_]
    simp only [versionOf, hv, hw] at hzero
    rw [compareVersions, hv, ok_bind, hw, ok_bind, hzero]
    rfl

/-! ## Universes -/

theorem records_concat (packages : List Package) (package : Package) (name : String) :
    records (packages ++ [package]) name = if package.name = name
      then addRecord (records packages name) package else records packages name := by
  unfold records
  rw [List.filter_append, List.foldl_append]
  by_cases hname : package.name = name
  · simp [hname]
  · simp [hname]

/-- Identical records never conflict. -/
theorem Distinct.addPackage_ok {packages done : List Package} {package : Package} {byName : ByName}
    (h : Distinct A packages) (hdone : ∀ p ∈ done, p ∈ packages) (hp : package ∈ packages)
    (hby : ∀ name, (byName.get name).getD [] = records done name) :
    ∃ byName', addPackage byName package = .ok byName' := by
  unfold addPackage
  dsimp only
  rw [hby]
  split
  · exact ⟨_, rfl⟩
  · rename_i previous hprevious
    obtain ⟨hmem, hkey⟩ := (records_spec done package.name).mem _ (Dict.mem_of_get hprevious)
    simp only [Prod.mk.injEq] at hkey
    have hprev : previous ∈ done ∧ previous.name = package.name := by simpa using hmem
    have heq : previous = package :=
      h previous (hdone _ hprev.1) package hp hprev.2 (.inl hkey.1.symm)
    refine ⟨byName, ?_⟩
    rw [raiseIf_of_not (by rw [heq]; exact fun hne => hne rfl), ok_bind]
    rfl

theorem Distinct.foldlM_ok {packages : List Package} (h : Distinct A packages) :
    ∀ {rest done : List Package} {byName : ByName}, (∀ p ∈ done, p ∈ packages) →
      (∀ p ∈ rest, p ∈ packages) → (∀ name, (byName.get name).getD [] = records done name) →
      ∃ byName', rest.foldlM addPackage byName = .ok byName'
  | [], _, byName, _, _, _ => ⟨byName, rfl⟩
  | package :: rest, done, byName, hdone, hrest, hby => by
    obtain ⟨hp, hrest⟩ := List.forall_mem_cons.1 hrest
    obtain ⟨next, hnext⟩ := h.addPackage_ok hdone hp hby
    have hdone' : ∀ p ∈ done ++ [package], p ∈ packages := by
      intro p hmem
      rcases List.mem_append.1 hmem with hmem | hmem
      · exact hdone p hmem
      · exact List.mem_singleton.1 hmem ▸ hp
    have hby' : ∀ name, (next.get name).getD [] = records (done ++ [package]) name := by
      intro name
      rw [addPackage_get hnext, records_concat, hby]
    obtain ⟨byName', hbyName'⟩ := h.foldlM_ok hdone' hrest hby'
    exact ⟨byName', by rw [List.foldlM_cons, hnext, ok_bind, hbyName']⟩

theorem init_of_ordered {packages : List Package} {table : Dict String (List Package)}
    (h : orderedPackages A packages = .ok table) :
    ∃ universe_, Universe.init A packages = .ok universe_ := by
  unfold Universe.init
  split
  · rename_i e he
    cases h.symm.trans he
  · exact ⟨_, rfl⟩

/-- A universe of distinct records exists iff the versions of each name can be sorted. -/
theorem Distinct.init_ok {packages : List Package} (h : Distinct A packages)
    (hsort : ∀ name, ∃ ordered, newestFirst A ((records packages name).map Prod.snd) = .ok ordered) :
    ∃ universe_, Universe.init A packages = .ok universe_ := by
  obtain ⟨byName, hfold⟩ := @Distinct.foldlM_ok A packages h packages [] []
    (fun p hp => absurd hp List.not_mem_nil) (fun p hp => hp) fun _ => rfl
  have hkeyed : WellKeyed byName :=
    foldlM_inv (fun _ => WellKeyed) (fun _ _ _ _ hb hstep => hb.add hstep) WellKeyed.nil hfold
  have hmap : ∀ item ∈ byName, ∃ ordered, orderName A item = .ok ordered := by
    intro item hitem
    obtain ⟨ordered, hordered⟩ := hsort item.1
    have hget := foldlM_addPackage_get item.1 hfold
    rw [Dict.get_of_mem hkeyed.nodup hitem] at hget
    have hrecords : item.2 = records packages item.1 := hget
    exact ⟨(item.1, ordered), by rw [orderName, hrecords, hordered]; rfl⟩
  obtain ⟨table, htable⟩ := exists_mapM_ok hmap
  have hordered : orderedPackages A packages = .ok table := by
    rw [orderedPackages, hfold, ok_bind, htable]
  exact init_of_ordered hordered

/-- What resolution reads of the tables of a universe. -/
structure SameTables (u u' : Universe A) : Prop where
  packages : ∀ name, (u.packages.get name).getD [] = (u'.packages.get name).getD []
  providers : ∀ name, (u.providers.get name).getD [] = (u'.providers.get name).getD []

theorem init_providers {packages : List Package} {universe_ : Universe A}
    (h : Universe.init A packages = .ok universe_) : universe_.providers = sortProviders universe_.all := by
  unfold Universe.init at h
  split at h
  · cases h
  · cases h
    rfl

theorem filter_all (universe_ : Universe A) (name : String) :
    universe_.all.filter (·.name = name) = (universe_.packages.get name).getD [] := by
  have hfilter : ∀ table : Dict String (List Package), table.keys.Nodup →
      (∀ item ∈ table, ∀ package ∈ item.2, package.name = item.1) →
      (table.flatMap Prod.snd).filter (·.name = name) = (table.get name).getD [] := by
    intro table
    induction table with
    | nil => intro _ _; rfl
    | cons item table ih =>
      intro hnodup hnamed
      obtain ⟨hitem, hrest⟩ := List.forall_mem_cons.1 hnamed
      obtain ⟨hnew, hnodup⟩ := List.nodup_cons.1 hnodup
      have ih := ih hnodup hrest
      rw [List.flatMap_cons, List.filter_append, ih]
      by_cases hname : item.1 = name
      · have hall : item.2.filter (·.name = name) = item.2 :=
          List.filter_eq_self.2 fun p hp => by simpa using (hitem p hp).trans hname
        have hnone : Dict.get table name = none := by
          cases hget : Dict.get table name with
          | none => rfl
          | some ps => exact absurd (hname ▸ Dict.mem_keys_of_get hget) hnew
        simp [Dict.get, hname, hall, hnone]
      · have hnil : item.2.filter (·.name = name) = [] := by
          refine List.filter_eq_nil_iff.2 fun p hp hn => hname ?_
          exact (hitem p hp).symm.trans (by simpa using hn)
        simp [Dict.get, hname, hnil]
  exact hfilter universe_.packages universe_.nodup universe_.named

/-- **Indexes in another order** make the same tables. -/
theorem init_perm {packages packages' : List Package} {u : Universe A}
    (h : Distinct A packages) (hperm : packages.Perm packages')
    (hinit : Universe.init A packages = .ok u) :
    ∃ u', Universe.init A packages' = .ok u' ∧ SameTables u u' := by
  have hsame : ∀ name, newestFirst A ((records packages' name).map Prod.snd) =
      .ok ((u.packages.get name).getD []) := by
    intro name
    refine newestFirst_perm (fun p hp q hq hzero => ?_) (h.records_perm hperm name)
      (init_packages hinit name)
    rw [h.mem_records] at hp hq
    exact h p hp.1 q hq.1 (hp.2.trans hq.2.symm) (.inr hzero)
  obtain ⟨u', hinit'⟩ := (h.perm hperm).init_ok fun name => ⟨_, hsame name⟩
  have hpackages : ∀ name, (u.packages.get name).getD [] = (u'.packages.get name).getD [] :=
    fun name => Except.ok.inj ((hsame name).symm.trans (init_packages hinit' name))
  refine ⟨u', hinit', hpackages, fun name => ?_⟩
  rw [init_providers hinit, init_providers hinit']
  refine sortProviders_congr (fun name => ?_) name
  rw [filter_all, filter_all, hpackages]

/-! ## Resolution -/

theorem SameTables.mem_all {u u' : Universe A} (h : SameTables u u') {package : Package} :
    package ∈ u.all ↔ package ∈ u'.all := by
  have hmem : ∀ v : Universe A, package ∈ v.all ↔
      package ∈ (v.packages.get package.name).getD [] := by
    intro v
    rw [← filter_all]
    simp
  rw [hmem, hmem, h.packages]

/-- A name has an entry iff it has packages. -/
theorem mem_keys_iff {u : Universe A} {name : String} :
    name ∈ u.packages.keys ↔ (u.packages.get name).getD [] ≠ [] := by
  constructor
  · intro hname
    obtain ⟨ps, hps⟩ := Dict.exists_get_of_mem_keys hname
    rw [hps]
    exact u.nonempty _ (Dict.mem_of_get hps)
  · intro hne
    cases hget : u.packages.get name with
    | none => rw [hget] at hne; exact absurd rfl hne
    | some ps => exact Dict.mem_keys_of_get hget

theorem SameTables.length_eq {u u' : Universe A} (h : SameTables u u') :
    u.packages.length = u'.packages.length := by
  have hperm : u.packages.keys.Perm u'.packages.keys := by
    rw [List.perm_ext_iff_of_nodup u.nodup u'.nodup]
    intro name
    rw [mem_keys_iff, mem_keys_iff, h.packages]
  simpa [Dict.keys] using hperm.length_eq

theorem SameTables.newest {u u' : Universe A} (h : SameTables u u') (name : String) :
    u.newest name = u'.newest name := by
  rw [Universe.newest, Universe.newest, h.packages]

theorem SameTables.candidates {u u' : Universe A} (h : SameTables u u') (relation : Relation) :
    u.candidates relation = u'.candidates relation := by
  rw [Universe.candidates, Universe.candidates, h.packages, h.providers]

theorem SameTables.bootstrapNames {u u' : Universe A} (h : SameTables u u') :
    bootstrapNames u = bootstrapNames u' := by
  unfold Debian.bootstrapNames
  refine insertionSort_perm ?_ fun a _ b _ => le_antisymm
  rw [List.perm_ext_iff_of_nodup (List.nodup_dedup _) (List.nodup_dedup _)]
  intro name
  simp only [List.mem_dedup, List.mem_map, List.mem_filter, h.mem_all]

theorem SameTables.firstCandidate {u u' : Universe A} (h : SameTables u u') (accept : Package → Bool) :
    ∀ group, firstCandidate u accept group = firstCandidate u' accept group
  | [] => rfl
  | relation :: group => by
    unfold Debian.firstCandidate
    rw [h.candidates, h.firstCandidate accept group]

theorem SameTables.resolveGroup {u u' : Universe A} (h : SameTables u u') :
    Debian.resolveGroup u = Debian.resolveGroup u' := by
  funext package closure group
  unfold Debian.resolveGroup satisfyingCandidate
  simp only [h.firstCandidate]

theorem SameTables.drain {u u' : Universe A} (h : SameTables u u') :
    ∀ fuel closure, drain u fuel closure = drain u' fuel closure
  | 0, _ => rfl
  | fuel + 1, closure => by
    unfold Debian.drain
    rw [h.resolveGroup]
    split
    · rfl
    · refine congrArg _ (funext fun closure => ?_)
      exact h.drain fuel closure

/-- Resolution reads nothing else of a universe. -/
theorem resolve_congr {u u' : Universe A} (h : SameTables u u') (requested : List String) :
    resolve u requested = resolve u' requested := by
  have hname : selectName u = selectName u' := by
    funext state name
    unfold selectName
    rw [h.candidates]
  have hnewest : selectNewest u = selectNewest u' := by
    funext closure name
    unfold selectNewest
    rw [h.newest]
  unfold resolve selectBootstrap selectRequested
  rw [h.bootstrapNames, hnewest, hname, h.length_eq]
  simp only [h.drain]

end

/-! ## Errors -/

def IsLockError (e : Failure) : Prop := ∃ message, e = .lockError message

/-- `int` converts the epoch, if it is made of digits. -/
def Convertible (version : String) : Prop :=
  ∀ text ∈ epochText version.toList, isDigit text = true → (toInt text).isSome = true

/-- A relation with an operator has a version. -/
def Relation.Readable (relation : Relation) : Prop :=
  ∀ operator ∈ truthy relation.operator,
    ∃ version, relation.version = some version ∧ Convertible version

structure Package.Readable (package : Package) : Prop where
  version : Convertible package.version
  provides : ∀ entry ∈ package.provides, ∀ version ∈ entry.2, Convertible version
  groups : ∀ group ∈ package.groups, ∀ relation ∈ group, relation.Readable

theorem splitVersion_yields {version : String} (h : Convertible version) :
    Yields IsLockError (splitVersion version) fun _ => True := by
  have hepoch : Yields IsLockError (splitEpoch version.toList) fun _ => True := by
    unfold splitEpoch
    split_ifs with hcolon
    · refine yields_bind (yields_raiseIf fun _ => ⟨_, rfl⟩) fun _ hdigit => ?_
      have hsome := h _ (if_pos hcolon) (not_not.1 hdigit)
      obtain ⟨n, hn⟩ := Option.isSome_iff_exists.1 hsome
      simp only [parseEpoch, hn]
      trivial
    · trivial
  exact yields_bind hepoch fun _ _ => trivial

section
variable {A : Alphabet}

theorem versionSatisfies_yields {version operator required : String} (hv : Convertible version)
    (hr : Convertible required) :
    Yields IsLockError (versionSatisfies A version operator required) fun _ => True := by
  have hcompare : Yields IsLockError (compareVersions A version required) fun _ => True :=
    yields_bind (splitVersion_yields hv) fun _ _ =>
      yields_bind (splitVersion_yields hr) fun _ _ => trivial
  refine yields_bind hcompare fun result _ => ?_
  split
  · trivial
  · exact ⟨_, rfl⟩

theorem versionAccepted_yields {version : Option String} {relation : Relation}
    (hv : ∀ v ∈ version, Convertible v) (hr : relation.Readable) :
    Yields IsLockError (versionAccepted A version relation) fun _ => True := by
  unfold versionAccepted
  split
  · trivial
  · trivial
  · rename_i operator version htruthy
    obtain ⟨required, hrequired, hconv⟩ := hr operator htruthy
    simp only [satisfiesRelation, hrequired]
    exact versionSatisfies_yields (hv version rfl) hconv

variable {universe_ : Universe A}

theorem candidates_yields (hu : ∀ p ∈ universe_.all, p.Readable) {relation : Relation}
    (hr : relation.Readable) :
    Yields IsLockError (universe_.candidates relation) fun cs => ∀ c ∈ cs, c ∈ universe_.all := by
  have hyields : Yields IsLockError (universe_.candidates relation) fun _ => True := by
    refine yields_bind (yields_foldlM (P := fun _ => True) ?_ trivial) fun real _ =>
      yields_foldlM ?_ trivial
    · intro result package hpackage _
      have hmem : package ∈ universe_.all := by
        rw [← filter_all] at hpackage
        exact List.mem_of_mem_filter hpackage
      unfold addReal
      split_ifs with harch
      · refine yields_bind (versionAccepted_yields ?_ hr) fun _ _ => trivial
        rintro _ ⟨⟩
        exact (hu package hmem).version
      · trivial
    · intro result entry hentry _
      have hprovides : (relation.name, entry.2) ∈ entry.1.provides ∧ entry.1 ∈ universe_.all := by
        cases hget : universe_.providers.get relation.name with
        | none => rw [hget] at hentry; exact absurd hentry List.not_mem_nil
        | some entries =>
          rw [hget] at hentry
          obtain ⟨hmem, hknown⟩ := universe_.provides _ (Dict.mem_of_get hget) _ hentry
          exact ⟨hmem, Universe.mem_all.2 hknown⟩
      unfold addVirtual
      split_ifs with harch
      · trivial
      · refine yields_bind (versionAccepted_yields ?_ hr) fun _ _ => trivial
        intro v hv
        exact (hu _ hprovides.2).provides _ hprovides.1 v hv
  refine yields_mono (yields_eq hyields) fun cs hcs c hc => ?_
  exact (Universe.candidates_answers hcs.1 c hc).1

/-- Packages whose dependencies are pending are packages of the universe with a set of edges. -/
def Pending (universe_ : Universe A) (c : Closure) : Prop :=
  ∀ p ∈ c.queue, p ∈ universe_.all ∧ p.name ∈ c.edges.keys

theorem select_yields {c : Closure} {package : Package} {reason : String}
    (hc : Pending universe_ c) (hp : package ∈ universe_.all) :
    Yields IsLockError (c.select package reason) fun c' =>
      Pending universe_ c' ∧ ∀ name ∈ c.edges.keys, name ∈ c'.edges.keys := by
  unfold Closure.select
  split
  · exact yields_bind (yields_raiseIf fun _ => ⟨_, rfl⟩) fun _ _ => ⟨hc, fun _ h => h⟩
  · have hkeys : ∀ name ∈ c.edges.keys, name ∈ (c.add package).edges.keys :=
      fun name h => Dict.mem_keys_set.2 (.inr h)
    refine ⟨fun p hmem => ?_, hkeys⟩
    rcases List.mem_append.1 hmem with hmem | hmem
    · exact ⟨(hc p hmem).1, hkeys _ (hc p hmem).2⟩
    · rw [List.mem_singleton.1 hmem]
      exact ⟨hp, Dict.mem_keys_set.2 (.inl rfl)⟩

theorem firstCandidate_yields (hu : ∀ p ∈ universe_.all, p.Readable) {accept : Package → Bool} :
    ∀ {group : List Relation}, (∀ relation ∈ group, relation.Readable) →
      Yields IsLockError (firstCandidate universe_ accept group)
        fun found => ∀ c ∈ found, c ∈ universe_.all
  | [], _ => by
    intro c hc
    cases hc
  | relation :: group, h => by
    obtain ⟨hr, hgroup⟩ := List.forall_mem_cons.1 h
    unfold firstCandidate
    refine yields_bind (candidates_yields hu hr) fun cs hcs => ?_
    split
    · rename_i candidate hfind
      rintro c ⟨⟩
      exact hcs _ (List.mem_of_find?_eq_some hfind)
    · exact firstCandidate_yields hu hgroup

theorem resolveGroup_yields (hu : ∀ p ∈ universe_.all, p.Readable) {package : Package}
    {c : Closure} {group : List Relation} (hgroup : ∀ relation ∈ group, relation.Readable)
    (hc : Pending universe_ c ∧ package.name ∈ c.edges.keys) :
    Yields IsLockError (resolveGroup universe_ package c group) fun c' =>
      Pending universe_ c' ∧ package.name ∈ c'.edges.keys := by
  have hsatisfying : Yields IsLockError (satisfyingCandidate universe_ c.selected group)
      fun found => ∀ c ∈ found, c ∈ universe_.all := by
    refine yields_bind (firstCandidate_yields hu hgroup) fun found hfound => ?_
    split
    · exact hfound
    · exact firstCandidate_yields hu hgroup
  refine yields_bind hsatisfying fun found hfound => ?_
  split
  · exact ⟨_, rfl⟩
  · rename_i satisfied
    refine yields_bind (select_yields hc.1 (hfound satisfied rfl)) fun c' hc' => ?_
    have hname := hc'.2 _ hc.2
    split_ifs with hne
    · obtain ⟨targets, htargets⟩ := Dict.exists_get_of_mem_keys hname
      simp only [Closure.link, htargets]
      refine ⟨fun p hp => ⟨(hc'.1 p hp).1, ?_⟩, Dict.mem_keys_set.2 (.inr hname)⟩
      exact Dict.mem_keys_set.2 (.inr (hc'.1 p hp).2)
    · exact ⟨hc'.1, hname⟩

theorem drain_yields (hu : ∀ p ∈ universe_.all, p.Readable) : ∀ {fuel : ℕ} {c : Closure},
    Pending universe_ c → Yields IsLockError (drain universe_ fuel c) fun _ => True
  | 0, _, _ => trivial
  | fuel + 1, c, hc => by
    unfold drain
    split
    · trivial
    · rename_i package queue hqueue
      obtain ⟨hmem, hname⟩ := hc package (hqueue ▸ List.mem_cons_self)
      have hpending : Pending universe_ { c with queue := queue } :=
        fun p hp => hc p (hqueue ▸ List.mem_cons_of_mem _ hp)
      refine yields_bind (yields_foldlM (P := fun c => Pending universe_ c ∧
        package.name ∈ c.edges.keys) ?_ ⟨hpending, hname⟩) fun c' hc' => drain_yields hu hc'.1
      intro c group hgroup hc
      exact resolveGroup_yields hu ((hu package hmem).groups group hgroup) hc

theorem selectBootstrap_yields :
    Yields IsLockError (selectBootstrap universe_ Closure.empty) (Pending universe_) := by
  refine yields_foldlM ?_ fun p hp => absurd hp List.not_mem_nil
  intro c name hname hc
  obtain ⟨package, hmem, -, hpackage⟩ := mem_bootstrapNames.1 hname
  obtain ⟨newest, hnewest, hall, -, -⟩ := Universe.newest_spec hmem
  unfold selectNewest
  rw [← hpackage, hnewest]
  exact yields_mono (select_yields hc hall) fun _ h => h.1

theorem selectRequested_yields (hu : ∀ p ∈ universe_.all, p.Readable) {requested : List String}
    {c : Closure} (hc : Pending universe_ c) :
    Yields IsLockError (selectRequested universe_ requested c) (Pending universe_) := by
  refine yields_bind
    (yields_foldlM (P := fun state : Closure × List String => Pending universe_ state.1) ?_ hc) ?_
  · intro state name _ hstate
    have hany : (anyVersion name).Readable := by
      rintro operator ⟨⟩
    unfold selectName
    refine yields_bind (candidates_yields hu hany) fun cs hcs => ?_
    split
    · rename_i real rest hreal
      have hmem := hcs real (List.mem_of_mem_filter (hreal ▸ List.mem_cons_self))
      exact yields_bind (select_yields hstate hmem) fun _ h => h.1
    · rename_i provider _
      exact yields_bind (select_yields hstate (hcs provider List.mem_cons_self)) fun _ h => h.1
    · exact hstate
    · exact ⟨_, rfl⟩
  · intro state hstate
    exact yields_bind (yields_raiseIf fun _ => ⟨_, rfl⟩) fun _ _ => hstate

theorem resolve_yields (hu : ∀ p ∈ universe_.all, p.Readable) (requested : List String) :
    Yields IsLockError (resolve universe_ requested) fun _ => True := by
  refine yields_bind selectBootstrap_yields fun c hc => ?_
  refine yields_bind (selectRequested_yields hu hc) fun c hc => ?_
  exact yields_bind (drain_yields hu hc) fun _ _ => trivial

theorem init_yields {packages : List Package} (h : ∀ p ∈ packages, Convertible p.version) :
    Yields IsLockError (Universe.init A packages) fun u => ∀ p ∈ u.all, p ∈ packages := by
  have hordered : Yields IsLockError (orderedPackages A packages) fun _ => True := by
    have hfold : Yields IsLockError (packages.foldlM addPackage []) fun _ => True := by
      refine yields_foldlM (fun byName package _ _ => ?_) trivial
      unfold addPackage
      dsimp only
      split
      · trivial
      · exact yields_bind (yields_raiseIf fun _ => ⟨_, rfl⟩) fun _ _ => trivial
    refine yields_bind (yields_eq hfold) fun byName hbyName => ?_
    have hkeyed : WellKeyed byName := foldlM_inv (fun _ => WellKeyed)
      (fun _ _ _ _ hb hstep => hb.add hstep) WellKeyed.nil hbyName.1
    have hname : ∀ item ∈ byName, Yields IsLockError (orderName A item) fun _ => True := by
      intro item hitem
      have hget := foldlM_addPackage_get item.1 hbyName.1
      rw [Dict.get_of_mem hkeyed.nodup hitem] at hget
      have hrecords : item.2 = records packages item.1 := hget
      have hread : ∀ p ∈ item.2.map Prod.snd, Yields IsLockError (withVersion p) fun _ => True := by
        intro p hp
        obtain ⟨known, hknown, rfl⟩ := List.mem_map.1 hp
        rw [hrecords] at hknown
        have hmem := ((records_spec packages item.1).mem known hknown).1
        exact yields_bind (splitVersion_yields (h _ (List.mem_of_mem_filter hmem)))
          fun _ _ => trivial
      have hsort : Yields IsLockError (newestFirst A (item.2.map Prod.snd)) fun _ => True := by
        unfold newestFirst
        split_ifs
        · trivial
        · exact yields_bind (yields_mapM hread) fun _ _ => trivial
      exact yields_bind hsort fun _ _ => trivial
    exact yields_mono (yields_mapM hname) fun _ _ => trivial
  cases hinit : Universe.init A packages with
  | error e =>
    unfold Universe.init at hinit
    split at hinit
    · rename_i e' he
      cases hinit
      rw [he] at hordered
      exact hordered
    · cases hinit
  | ok u =>
    intro p hp
    have hmem : p ∈ (u.packages.get p.name).getD [] := by
      rw [← filter_all]
      simpa using hp
    rw [(newestFirst_spec (init_packages hinit p.name)).1.mem_iff] at hmem
    obtain ⟨item, hitem, rfl⟩ := List.mem_map.1 hmem
    exact List.mem_of_mem_filter ((records_spec packages _).mem item hitem).1

end

/-! ## Runs -/

/-- `resolve(Universe(packages), requested)` -/
def resolvePackages (A : Alphabet) (packages : List Package) (requested : List String) :
    Except Failure (Dict String Package × Dict String (Finset String)) := do
  let universe_ ← Universe.init A packages
  resolve universe_ requested

theorem resolvePackages_perm {A : Alphabet} {packages packages' : List Package}
    (h : Distinct A packages) (hperm : packages.Perm packages') {requested : List String}
    {result : Dict String Package × Dict String (Finset String)}
    (hrun : resolvePackages A packages requested = .ok result) :
    resolvePackages A packages' requested = .ok result := by
  simp only [resolvePackages, bind_eq_ok] at hrun
  obtain ⟨u, hinit, hresolve⟩ := hrun
  obtain ⟨u', hinit', hsame⟩ := init_perm h hperm hinit
  rw [resolvePackages, hinit', ok_bind, ← resolve_congr hsame, hresolve]

theorem resolvePackages_yields {A : Alphabet} {packages : List Package} {requested : List String}
    (h : ∀ p ∈ packages, p.Readable) :
    Yields IsLockError (resolvePackages A packages requested) fun _ => True :=
  yields_bind (init_yields fun p hp => (h p hp).version) fun _ hu =>
    resolve_yields (fun p hp => h p (hu p hp)) requested

/-- **Resolution does not depend on the order of the indexes.**  If records of one name are
    identical whenever their versions are, resolution of the records in two orders raises in both
    or returns the same packages and edges; it raises nothing but `LockError` on readable records. -/
theorem resolve_order (A : Alphabet) (packages packages' : List Package) (requested : List String)
    (hdistinct : Distinct A packages) (hperm : packages.Perm packages') :
    ((∃ e e', resolvePackages A packages requested = .error e ∧
        resolvePackages A packages' requested = .error e' ∧
        ((∀ p ∈ packages, p.Readable) → IsLockError e ∧ IsLockError e')) ∨
      ∃ selected edges, resolvePackages A packages requested = .ok (selected, edges) ∧
        resolvePackages A packages' requested = .ok (selected, edges)) := by
  cases hrun : resolvePackages A packages requested with
  | ok result => exact .inr ⟨result.1, result.2, rfl, resolvePackages_perm hdistinct hperm hrun⟩
  | error e =>
    cases hrun' : resolvePackages A packages' requested with
    | ok result =>
      have := resolvePackages_perm (hdistinct.perm hperm) hperm.symm hrun'
      cases hrun.symm.trans this
    | error e' =>
      refine .inl ⟨e, e', rfl, rfl, fun hread => ?_⟩
      have hread' : ∀ p ∈ packages', p.Readable := fun p hp => hread p (hperm.mem_iff.2 hp)
      have hyields := @resolvePackages_yields A packages requested hread
      have hyields' := @resolvePackages_yields A packages' requested hread'
      rw [hrun] at hyields
      rw [hrun'] at hyields'
      exact ⟨hyields, hyields'⟩

instance (packages : List Package) : Decidable (Distinct asciiAlphabet packages) :=
  decidable_of_iff (packages.all fun p => packages.all fun q => decide (p.name = q.name →
    p.version = q.version ∨
      (compareVersions asciiAlphabet p.version q.version).toOption = some 0 → p = q)) <| by
    have hzero : ∀ x : Except Failure ℤ, x.toOption = some 0 ↔ x = .ok 0 := by
      intro x
      cases x <;> simp [Except.toOption]
    simp only [List.all_eq_true, decide_eq_true_eq, hzero]
    rfl

theorem resolve_order_example : examplePackages.reverse ≠ examplePackages ∧
    ∃ selected edges, resolvePackages asciiAlphabet examplePackages ["app"] = .ok (selected, edges) ∧
      resolvePackages asciiAlphabet examplePackages.reverse ["app"] = .ok (selected, edges) := by
  refine ⟨by decide, ?_⟩
  have hrun : ((resolvePackages asciiAlphabet examplePackages ["app"]).map fun _ => ()).toOption =
      some () := by
    decide +kernel
  rcases resolve_order asciiAlphabet examplePackages examplePackages.reverse ["app"]
    (by decide +kernel) (List.reverse_perm _).symm with ⟨e, -, herror, -⟩ | hsame
  · rw [herror] at hrun
    cases hrun
  · exact hsame

/-- One package in two components, with a version that cannot be compared. -/
def unreadablePackage (component : String) : Package :=
  { examplePackage "app" "x:1" false [] [] with component := component }

/-- Records whose versions do not compare equal, as they do not compare at all, are taken for
    duplicates that differ in their component only; the first one is kept. -/
theorem resolve_keeps_first : ¬ ∀ (packages packages' : List Package) (requested : List String),
    (∀ p ∈ packages, ∀ q ∈ packages, p.name = q.name →
      compareVersions asciiAlphabet p.version q.version = .ok 0 → p = q) →
    packages.Perm packages' →
      (∃ message message',
        resolvePackages asciiAlphabet packages requested = .error (.lockError message) ∧
        resolvePackages asciiAlphabet packages' requested = .error (.lockError message')) ∨
      ∃ result, resolvePackages asciiAlphabet packages requested = .ok result ∧
        resolvePackages asciiAlphabet packages' requested = .ok result := by
  intro h
  have hcompare : ∀ p ∈ [unreadablePackage "main", unreadablePackage "contrib"],
      ∀ q ∈ [unreadablePackage "main", unreadablePackage "contrib"], p.name = q.name →
        compareVersions asciiAlphabet p.version q.version = .ok 0 → p = q := by
    intro p hp q hq _ hzero
    have hversion : ∀ p ∈ [unreadablePackage "main", unreadablePackage "contrib"],
        p.version = "x:1" := by
      intro p hp
      simp only [List.mem_cons, List.not_mem_nil, or_false] at hp
      rcases hp with rfl | rfl <;> rfl
    rw [hversion p hp, hversion q hq] at hzero
    have hfails : (compareVersions asciiAlphabet "x:1" "x:1").toOption = none := by decide
    rw [hzero] at hfails
    cases hfails
  have hmain : ((resolvePackages asciiAlphabet
      [unreadablePackage "main", unreadablePackage "contrib"] ["app"]).toOption.map fun r =>
        r.1.map fun item => item.2.component) = some ["main"] := by
    decide
  have hcontrib : ((resolvePackages asciiAlphabet
      [unreadablePackage "contrib", unreadablePackage "main"] ["app"]).toOption.map fun r =>
        r.1.map fun item => item.2.component) = some ["contrib"] := by
    decide
  rcases h _ _ ["app"] hcompare (List.Perm.swap _ _ _) with ⟨m, -, herror, -⟩ | ⟨r, hr, hr'⟩
  · rw [herror] at hmain
    cases hmain
  · rw [hr] at hmain
    rw [hr'] at hcontrib
    exact absurd (hmain.symm.trans hcontrib) (by decide)

end RulesMkosi.Debian
