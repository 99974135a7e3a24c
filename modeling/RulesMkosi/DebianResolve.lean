/-
  The install closure of the requested packages (`resolve` of
  `mkosi/debian/generate_lock.py`).

  A closure holds one selected package for each name, the dependency edges
  between the names, and the packages whose dependencies are pending.  Packages
  are only added, so a group that is satisfied stays satisfied
  (`Satisfied.mono`); when the queue is empty every group is
  (`resolve_closed`).
-/
import RulesMkosi.DebianUniverse
import Mathlib.Data.Finset.Sort
import Mathlib.Data.List.Induction
import Mathlib.Logic.Relation

namespace RulesMkosi.Debian

def formatGroup (group : List Relation) : String := " | ".intercalate (group.map Relation.str)

/-! ## The closure -/

structure Closure where
  selected : Dict String Package
  edges : Dict String (Finset String)
  queue : List Package

namespace Closure

def empty : Closure := ⟨[], [], []⟩

/-- A package of a new name, with its dependencies pending. -/
def add (closure : Closure) (package : Package) : Closure where
  selected := closure.selected.set package.name package
  edges := closure.edges.set package.name ∅
  queue := closure.queue ++ [package]

def select (closure : Closure) (package : Package) (reason : String) : Except Failure Closure :=
  match closure.selected.get package.name with
  | some current => do
    raiseIf (current ≠ package)
      (.lockError (reason ++ " requires " ++ package.name ++ " " ++ package.version ++ ", but " ++
        current.version ++ " is already selected"))
    return closure
  | none => .ok (closure.add package)

/-- `closure.edges[name].add(target)` -/
def link (closure : Closure) (name target : String) : Except Failure Closure :=
  match closure.edges.get name with
  | some targets => .ok { closure with edges := closure.edges.set name (insert target targets) }
  | none => .error (.keyError name)

end Closure

/-! ## Resolution -/

section
variable {A : Alphabet} (universe_ : Universe A)

def isBootstrap (package : Package) : Bool := package.essential ∨ package.priority = "required"

/-- `sorted({package.name for package in universe.packages() if ...})` -/
def bootstrapNames : List String :=
  (((universe_.all.filter isBootstrap).map Package.name).dedup).insertionSort (· ≤ ·)

def selectNewest (closure : Closure) (name : String) : Except Failure Closure :=
  match universe_.newest name with
  | some package => closure.select package "the bootstrap set"
  | none => .error (.attributeError "'NoneType' object has no attribute 'name'")

def selectBootstrap (closure : Closure) : Except Failure Closure :=
  (bootstrapNames universe_).foldlM (selectNewest universe_) closure

/-- `Relation(name)` -/
def anyVersion (name : String) : Relation := ⟨name, none, none, none⟩

/-- One round of the loop over the requested names; the state holds the names that are missing. -/
def selectName (state : Closure × List String) (name : String) :
    Except Failure (Closure × List String) := do
  let candidates ← universe_.candidates (anyVersion name)
  match candidates.filter (·.name = name), candidates with
  | real :: _, _ => do
    let closure ← state.1.select real "the specification"
    return (closure, state.2)
  | [], [provider] => do
    let closure ← state.1.select provider "the specification"
    return (closure, state.2)
  | [], [] => return (state.1, state.2 ++ [name])
  | [], _ => .error (.lockError (name ++ " is a virtual package with several providers; " ++
      "request one of: " ++
      ", ".intercalate ((candidates.map Package.name).insertionSort (· ≤ ·))))

def selectRequested (requested : List String) (closure : Closure) : Except Failure Closure := do
  let (closure, missing) ← requested.foldlM (selectName universe_) (closure, [])
  raiseIf (missing ≠ [])
    (.lockError ("requested packages are not in the snapshot: " ++ ", ".intercalate missing))
  return closure

/-- The first candidate of the group's relations that is accepted. -/
def firstCandidate (accept : Package → Bool) : List Relation → Except Failure (Option Package)
  | [] => .ok none
  | relation :: group => do
    let candidates ← universe_.candidates relation
    match candidates.find? accept with
    | some candidate => return some candidate
    | none => firstCandidate accept group

def satisfyingCandidate (selected : Dict String Package) (group : List Relation) :
    Except Failure (Option Package) := do
  match ← firstCandidate universe_ (fun c => selected.get c.name = some c) group with
  | some candidate => return some candidate
  | none => firstCandidate universe_ (fun c => selected.get c.name = none) group

/-- The body of the loop over the groups of a package. -/
def resolveGroup (package : Package) (closure : Closure) (group : List Relation) :
    Except Failure Closure := do
  match ← satisfyingCandidate universe_ closure.selected group with
  | none => .error (.lockError (package.name ++ " " ++ package.version ++
      " has an unsatisfiable dependency: " ++ formatGroup group))
  | some satisfied => do
    let closure ← closure.select satisfied (package.name ++ " " ++ package.version)
    if satisfied.name ≠ package.name then closure.link package.name satisfied.name
    else return closure

def Package.groups (package : Package) : List (List Relation) :=
  package.preDepends ++ package.depends

/-- At most `fuel` rounds of the loop over the queue. -/
def drain : ℕ → Closure → Except Failure Closure
  | 0, closure => .ok closure
  | fuel + 1, closure =>
    match closure.queue with
    | [] => .ok closure
    | package :: queue => do
      let closure ← package.groups.foldlM (resolveGroup universe_ package)
        { closure with queue := queue }
      drain fuel closure

/-- Every name is queued once, so there are at most as many rounds as names (`drain_inv`). -/
def resolve (requested : List String) :
    Except Failure (Dict String Package × Dict String (Finset String)) := do
  let closure ← selectBootstrap universe_ Closure.empty
  let closure ← selectRequested universe_ requested closure
  let closure ← drain universe_ universe_.packages.length closure
  return (closure.selected, closure.edges)

end

/-! ## The lock -/

structure LockedDependency where
  key : String
  name : String
  version : String
  deriving Repr, DecidableEq

structure LockedPackage where
  arch : String
  component : String
  dependencies : List LockedDependency
  filename : String
  key : String
  name : String
  sha256 : String
  size : ℕ
  urls : List String
  version : String
  deriving Repr, DecidableEq

def lockedPackage (package : Package) (dependencies : List Package) (url : String) :
    LockedPackage where
  arch := package.architecture
  component := package.component
  dependencies := (dependencies.insertionSort fun a b => a.key ≤ b.key).map fun dependency =>
    ⟨dependency.key, dependency.name, dependency.version⟩
  filename := package.filename
  key := package.key
  name := package.name
  sha256 := package.sha256
  size := package.size
  urls := [url ++ "/" ++ package.filename]
  version := package.version

/-- `table[key]` -/
def lookup {ν : Type} (table : Dict String ν) (key : String) : Except Failure ν :=
  match table.get key with
  | some value => .ok value
  | none => .error (.keyError key)

section
variable (selected : Dict String Package) (edges : Dict String (Finset String)) (url : String)

def lockedName (name : String) : Except Failure LockedPackage := do
  let package ← lookup selected name
  let targets ← lookup edges name
  let dependencies ← targets.sort.mapM (lookup selected)
  return lockedPackage package dependencies url

def lockedPackages : Except Failure (List LockedPackage) := do
  let names := Dict.keys (selected.insertionSort fun a b => a.2.key ≤ b.2.key)
  let locked ← names.mapM (lockedName selected edges url)
  raiseIf (¬ (locked.map LockedPackage.key).Nodup)
    (.lockError "resolved packages have colliding lock keys")
  return locked

end

/-! ## One step -/

namespace Closure

/-- `target` is in `edges[name]`. -/
def Edge (closure : Closure) (name target : String) : Prop :=
  ∃ targets, closure.edges.get name = some targets ∧ target ∈ targets

/-- The closure with the edge from `name` to `target`. -/
def linked (closure : Closure) (name target : String) (targets : Finset String) : Closure :=
  { closure with edges := closure.edges.set name (insert target targets) }

theorem select_cases {c c' : Closure} {package : Package} {reason : String}
    (h : c.select package reason = .ok c') :
    c.selected.get package.name = some package ∧ c' = c ∨
      c.selected.get package.name = none ∧ c' = c.add package := by
  unfold select at h
  split at h
  · next current hget =>
    simp only [bind_eq_ok, raiseIf_eq_ok, exists_unit, pure_eq_ok, ne_eq, not_not] at h
    exact .inl ⟨h.1 ▸ hget, h.2.symm⟩
  · next hget => exact .inr ⟨hget, by cases h; rfl⟩

theorem link_cases {c c' : Closure} {name target : String} (h : c.link name target = .ok c') :
    ∃ targets, c.edges.get name = some targets ∧ c' = c.linked name target targets := by
  unfold link at h
  split at h
  · next targets hget => exact ⟨targets, hget, by cases h; rfl⟩
  · cases h

end Closure

section
variable {A : Alphabet} {universe_ : Universe A}

/-- A relation of the group has a candidate that is selected. -/
def Satisfied (universe_ : Universe A) (selected : Dict String Package) (group : List Relation) :
    Prop :=
  ∃ relation ∈ group, ∃ candidates, universe_.candidates relation = .ok candidates ∧
    ∃ candidate ∈ candidates, selected.get candidate.name = some candidate

theorem Satisfied.mono {selected selected' : Dict String Package} {group : List Relation}
    (hsub : ∀ name package, selected.get name = some package → selected'.get name = some package)
    (h : Satisfied universe_ selected group) : Satisfied universe_ selected' group := by
  obtain ⟨relation, hrel, candidates, hcand, candidate, hmem, hget⟩ := h
  exact ⟨relation, hrel, candidates, hcand, candidate, hmem, hsub _ _ hget⟩

theorem firstCandidate_spec {accept : Package → Bool} : ∀ {group : List Relation}
    {candidate : Package}, firstCandidate universe_ accept group = .ok (some candidate) →
      accept candidate = true ∧ ∃ relation ∈ group, ∃ candidates,
        universe_.candidates relation = .ok candidates ∧ candidate ∈ candidates
  | [], _, h => by cases h
  | relation :: group, candidate, h => by
    simp only [firstCandidate, bind_eq_ok] at h
    obtain ⟨candidates, hcand, h⟩ := h
    split at h
    · next found hfind =>
      cases h
      exact ⟨List.find?_some hfind, relation, List.mem_cons_self, candidates, hcand,
        List.mem_of_find?_eq_some hfind⟩
    · obtain ⟨haccept, r, hr, hrest⟩ := firstCandidate_spec h
      exact ⟨haccept, r, List.mem_cons_of_mem _ hr, hrest⟩

/-- A satisfying candidate is selected, or its name is new. -/
theorem satisfyingCandidate_spec {selected : Dict String Package} {group : List Relation}
    {candidate : Package}
    (h : satisfyingCandidate universe_ selected group = .ok (some candidate)) :
    (selected.get candidate.name = some candidate ∨ selected.get candidate.name = none) ∧
      ∃ relation ∈ group, ∃ candidates,
        universe_.candidates relation = .ok candidates ∧ candidate ∈ candidates := by
  simp only [satisfyingCandidate, bind_eq_ok] at h
  obtain ⟨first, hfirst, h⟩ := h
  cases first with
  | some c =>
    cases h
    obtain ⟨haccept, hrel⟩ := firstCandidate_spec hfirst
    exact ⟨.inl (of_decide_eq_true haccept), hrel⟩
  | none =>
    obtain ⟨haccept, hrel⟩ := firstCandidate_spec h
    exact ⟨.inr (of_decide_eq_true haccept), hrel⟩

/-- **One group.**  A new edge leads to a package that satisfies the group; it was selected before,
    or is added now, or is the package itself. -/
theorem resolveGroup_cases {package : Package} {c c' : Closure} {group : List Relation}
    (h : resolveGroup universe_ package c group = .ok c') :
    ∃ satisfied relation candidates, relation ∈ group ∧
      universe_.candidates relation = .ok candidates ∧ satisfied ∈ candidates ∧
      ∃ c₁, (c.selected.get satisfied.name = some satisfied ∧ c₁ = c ∨
          c.selected.get satisfied.name = none ∧ c₁ = c.add satisfied) ∧
        (satisfied.name = package.name ∧ c' = c₁ ∨
          satisfied.name ≠ package.name ∧ ∃ targets, c₁.edges.get package.name = some targets ∧
            c' = c₁.linked package.name satisfied.name targets) := by
  simp only [resolveGroup, bind_eq_ok] at h
  obtain ⟨found, hfound, h⟩ := h
  cases found with
  | none => cases h
  | some satisfied =>
    simp only [bind_eq_ok] at h
    obtain ⟨c₁, hselect, h⟩ := h
    obtain ⟨-, relation, hrel, candidates, hcand, hmem⟩ := satisfyingCandidate_spec hfound
    refine ⟨satisfied, relation, candidates, hrel, hcand, hmem, c₁, Closure.select_cases hselect, ?_⟩
    split_ifs at h with hname
    · exact .inr ⟨hname, Closure.link_cases h⟩
    · rw [pure_eq_ok] at h
      exact .inl ⟨not_not.1 hname, h.symm⟩

/-! ## The invariant -/

namespace Closure

variable {c : Closure} {package : Package}

theorem get_add (name : String) : (c.add package).selected.get name =
    if package.name = name then some package else c.selected.get name :=
  Dict.get_set _ _ _ _

/-- A new name does not change what is selected. -/
theorem get_add_of_get (hfresh : c.selected.get package.name = none) {name : String} {p : Package}
    (h : c.selected.get name = some p) : (c.add package).selected.get name = some p := by
  have hne : package.name ≠ name := by
    rintro rfl
    rw [h] at hfresh
    cases hfresh
  rw [get_add, if_neg hne, h]

theorem edge_add (hfresh : c.edges.get package.name = none) {name target : String} :
    (c.add package).Edge name target ↔ c.Edge name target := by
  unfold Edge add
  simp only [Dict.get_set]
  split_ifs with hname
  · subst hname
    simp [hfresh]
  · exact Iff.rfl

theorem edge_linked {name target : String} {targets : Finset String}
    (hget : c.edges.get name = some targets) {a b : String} :
    (c.linked name target targets).Edge a b ↔ c.Edge a b ∨ a = name ∧ b = target := by
  unfold Edge linked
  simp only [Dict.get_set]
  split_ifs with hname
  · subst hname
    simp [hget, or_comm]
  · simp [Ne.symm hname]

end Closure

/-- What holds of a closure at every point of the resolution.  `current` is the package whose
    groups are being resolved, and `popped` counts the packages taken from the queue. -/
structure Core (universe_ : Universe A) (current : List Package) (popped : ℕ) (c : Closure) :
    Prop where
  named : ∀ name package, c.selected.get name = some package →
    package.name = name ∧ package ∈ universe_.all
  nodup : c.selected.keys.Nodup
  queued : ∀ package ∈ c.queue, c.selected.get package.name = some package
  sources : ∀ name, (c.edges.get name).isSome ↔ (c.selected.get name).isSome
  targets : ∀ name target, c.Edge name target → (c.selected.get target).isSome
  closed : ∀ name package, c.selected.get name = some package → package ∈ c.queue ∨
    package ∈ current ∨ ∀ group ∈ package.groups, Satisfied universe_ c.selected group
  count : c.selected.length = popped + c.queue.length

/-- Every selected name is reachable from an initial package that is selected. -/
def Reachable (initial : Package → Prop) (c : Closure) : Prop :=
  ∀ name package, c.selected.get name = some package →
    ∃ start, initial start ∧ c.selected.get start.name = some start ∧
      Relation.ReflTransGen c.Edge start.name name

theorem Core.empty : Core universe_ [] 0 Closure.empty where
  named _ _ h := by cases h
  nodup := List.nodup_nil
  queued _ h := absurd h List.not_mem_nil
  sources _ := Iff.rfl
  targets _ _ := fun ⟨_, h, _⟩ => by cases h
  closed _ _ h := by cases h
  count := rfl

variable {c : Closure} {current : List Package} {popped : ℕ} {package : Package}

theorem Core.edges_none (h : Core universe_ current popped c) {name : String}
    (hfresh : c.selected.get name = none) : c.edges.get name = none := by
  have := h.sources name
  rw [hfresh] at this
  simpa using this

theorem Core.add (h : Core universe_ current popped c)
    (hfresh : c.selected.get package.name = none) (hmem : package ∈ universe_.all) :
    Core universe_ current popped (c.add package) where
  named name p hget := by
    rw [Closure.get_add] at hget
    split_ifs at hget with hname
    · cases hget; exact ⟨hname, hmem⟩
    · exact h.named name p hget
  nodup := Dict.nodup_keys_set h.nodup
  queued p hp := by
    rcases List.mem_append.1 hp with hp | hp
    · exact Closure.get_add_of_get hfresh (h.queued p hp)
    · rw [List.mem_singleton.1 hp, Closure.get_add, if_pos rfl]
  sources name := by
    rw [Closure.get_add, Closure.add, Dict.get_set]
    split_ifs
    · simp
    · exact h.sources name
  targets name target hedge := by
    rw [Closure.edge_add (h.edges_none hfresh)] at hedge
    obtain ⟨p, hp⟩ := Option.isSome_iff_exists.1 (h.targets name target hedge)
    rw [Closure.get_add_of_get hfresh hp]
    rfl
  closed name p hget := by
    rw [Closure.get_add] at hget
    split_ifs at hget with hname
    · cases hget
      exact .inl (List.mem_append_right _ (List.mem_singleton_self _))
    · refine (h.closed name p hget).imp (List.mem_append_left _) (.imp_right fun hsat group hg => ?_)
      exact (hsat group hg).mono fun _ _ => Closure.get_add_of_get hfresh
  count := by
    have hnotMem : package.name ∉ c.selected.keys := fun hk => by
      obtain ⟨p, hp⟩ := Dict.exists_get_of_mem_keys hk
      rw [hp] at hfresh
      cases hfresh
    have hlen : (c.add package).selected.length = c.selected.length + 1 := by
      have := congrArg List.length (Dict.keys_set_of_notMem (v := package) hnotMem)
      simpa [Dict.keys, Closure.add] using this
    rw [hlen, h.count, Closure.add, List.length_append, List.length_singleton, Nat.add_assoc]

theorem Core.link (h : Core universe_ current popped c) {name target : String}
    {targets : Finset String} (hget : c.edges.get name = some targets)
    (htarget : (c.selected.get target).isSome) :
    Core universe_ current popped (c.linked name target targets) where
  named := h.named
  nodup := h.nodup
  queued := h.queued
  sources n := by
    rw [Closure.linked, Dict.get_set]
    split_ifs with hname
    · have := h.sources name
      rw [hget] at this
      rw [← hname]
      simpa using this
    · exact h.sources n
  targets a b hedge := by
    rcases (Closure.edge_linked hget).1 hedge with hedge | ⟨-, rfl⟩
    · exact h.targets a b hedge
    · exact htarget
  closed := h.closed
  count := h.count

variable {initial : Package → Prop}

/-- More edges and more selected names keep what was reachable. -/
theorem Reachable.extend (c' : Closure) (h : Reachable initial c)
    (hselected : ∀ name p, c.selected.get name = some p → c'.selected.get name = some p)
    (hedge : ∀ a b, c.Edge a b → c'.Edge a b) {name : String} {p : Package}
    (hget : c.selected.get name = some p) :
    ∃ start, initial start ∧ c'.selected.get start.name = some start ∧
      Relation.ReflTransGen c'.Edge start.name name := by
  obtain ⟨start, hinit, hstart, hpath⟩ := h name p hget
  exact ⟨start, hinit, hselected _ _ hstart, Relation.ReflTransGen.mono hedge _ _ hpath⟩

theorem Reachable.add (h : Reachable initial c) (hc : Core universe_ current popped c)
    (hfresh : c.selected.get package.name = none) (hinit : initial package) :
    Reachable initial (c.add package) := by
  intro name p hget
  rw [Closure.get_add] at hget
  split_ifs at hget with hname
  · cases hget
    refine ⟨package, hinit, ?_, hname ▸ .refl⟩
    rw [Closure.get_add, if_pos rfl]
  · exact h.extend _ (fun _ _ => Closure.get_add_of_get hfresh)
      (fun _ _ => (Closure.edge_add (hc.edges_none hfresh)).2) hget

theorem Reachable.link (h : Reachable initial c) {name target : String} {targets : Finset String}
    (hget : c.edges.get name = some targets) : Reachable initial (c.linked name target targets) := by
  intro n p hp
  exact h.extend (c.linked name target targets) (fun _ _ h => h)
    (fun _ _ hab => (Closure.edge_linked hget).2 (.inl hab)) hp

/-- A new package is reachable through the edge from the package that needs it. -/
theorem Reachable.add_link (h : Reachable initial c) (hc : Core universe_ current popped c)
    {source : Package} (hsource : c.selected.get source.name = some source)
    (hfresh : c.selected.get package.name = none) {targets : Finset String}
    (hget : (c.add package).edges.get source.name = some targets) :
    Reachable initial ((c.add package).linked source.name package.name targets) := by
  have hgrow : ∀ a b, c.Edge a b → ((c.add package).linked source.name package.name targets).Edge a b :=
    fun a b hab => (Closure.edge_linked hget).2
      (.inl ((Closure.edge_add (hc.edges_none hfresh)).2 hab))
  intro name p hp
  change (c.add package).selected.get name = some p at hp
  rw [Closure.get_add] at hp
  split_ifs at hp with hname
  · obtain ⟨start, hinit, hstart, hpath⟩ :=
      h.extend ((c.add package).linked source.name package.name targets)
        (fun _ _ => Closure.get_add_of_get hfresh) hgrow hsource
    exact ⟨start, hinit, hstart,
      hpath.tail ((Closure.edge_linked hget).2 (.inr ⟨rfl, hname.symm⟩))⟩
  · exact h.extend ((c.add package).linked source.name package.name targets)
      (fun _ _ => Closure.get_add_of_get hfresh) hgrow hp

/-! ## Whole runs -/

/-- What is selected stays selected. -/
def Keeps (c c' : Closure) : Prop :=
  ∀ name package, c.selected.get name = some package → c'.selected.get name = some package

theorem Keeps.refl (c : Closure) : Keeps c c := fun _ _ h => h

theorem Keeps.trans {c₁ c₂ c₃ : Closure} (h : Keeps c₁ c₂) (h' : Keeps c₂ c₃) : Keeps c₁ c₃ :=
  fun name package hget => h' name package (h name package hget)

/-- One selection of the initial set. -/
theorem select_inv {c' : Closure} {reason : String} (hc : Core universe_ [] 0 c)
    (hr : Reachable initial c) (hmem : package ∈ universe_.all) (hinit : initial package)
    (h : c.select package reason = .ok c') :
    Core universe_ [] 0 c' ∧ Reachable initial c' ∧ Keeps c c' ∧
      c'.selected.get package.name = some package := by
  rcases Closure.select_cases h with ⟨hget, rfl⟩ | ⟨hfresh, rfl⟩
  · exact ⟨hc, hr, .refl _, hget⟩
  · refine ⟨hc.add hfresh hmem, hr.add hc hfresh hinit, fun _ _ => Closure.get_add_of_get hfresh, ?_⟩
    rw [Closure.get_add, if_pos rfl]

/-- One group of a package. -/
theorem resolveGroup_inv {c' : Closure} {group : List Relation}
    (hc : Core universe_ [package] popped c) (hr : Reachable initial c)
    (hselected : c.selected.get package.name = some package)
    (h : resolveGroup universe_ package c group = .ok c') :
    Core universe_ [package] popped c' ∧ Reachable initial c' ∧ Keeps c c' ∧
      Satisfied universe_ c'.selected group := by
  obtain ⟨satisfied, relation, candidates, hrel, hcand, hmem, c₁, hadd, hlink⟩ :=
    resolveGroup_cases h
  have hall := (Universe.candidates_answers hcand satisfied hmem).1
  have hsat : ∀ {c₂ : Closure}, c₂.selected.get satisfied.name = some satisfied →
      Satisfied universe_ c₂.selected group := fun hget =>
    ⟨relation, hrel, candidates, hcand, satisfied, hmem, hget⟩
  rcases hadd with ⟨hget, rfl⟩ | ⟨hfresh, rfl⟩
  · rcases hlink with ⟨-, rfl⟩ | ⟨-, targets, htargets, rfl⟩
    · exact ⟨hc, hr, .refl _, hsat hget⟩
    · exact ⟨hc.link htargets (by rw [hget]; rfl), hr.link htargets, .refl _, hsat hget⟩
  · have hnew : (c.add satisfied).selected.get satisfied.name = some satisfied := by
      rw [Closure.get_add, if_pos rfl]
    rcases hlink with ⟨hname, -⟩ | ⟨-, targets, htargets, rfl⟩
    · -- a new name is not the name of the package being resolved
      rw [hname, hselected] at hfresh
      cases hfresh
    · exact ⟨(hc.add hfresh hall).link htargets (by rw [hnew]; rfl),
        hr.add_link hc hselected hfresh htargets, fun _ _ => Closure.get_add_of_get hfresh, hsat hnew⟩

/-- All groups of the package that was taken from the queue. -/
theorem resolvePackage_inv {c' : Closure} {queue : List Package} (hc : Core universe_ [] popped c)
    (hr : Reachable initial c) (hqueue : c.queue = package :: queue)
    (h : package.groups.foldlM (resolveGroup universe_ package) { c with queue := queue } = .ok c') :
    Core universe_ [] (popped + 1) c' ∧ Reachable initial c' ∧ Keeps c c' := by
  have hselected : c.selected.get package.name = some package :=
    hc.queued package (hqueue ▸ List.mem_cons_self)
  have hstart : Core universe_ [package] (popped + 1) { c with queue := queue } := by
    refine ⟨hc.named, hc.nodup, fun p hp => hc.queued p (hqueue ▸ List.mem_cons_of_mem _ hp),
      hc.sources, hc.targets, fun name p hget => ?_, ?_⟩
    · rcases hc.closed name p hget with hq | hq | hq
      · rw [hqueue] at hq
        rcases List.mem_cons.1 hq with rfl | hq
        · exact .inr (.inl (List.mem_singleton_self _))
        · exact .inl hq
      · exact absurd hq List.not_mem_nil
      · exact .inr (.inr hq)
    · have := hc.count
      rw [hqueue, List.length_cons] at this
      change c.selected.length = popped + 1 + queue.length
      omega
  obtain ⟨hcore, hreach, hkeeps, hgroups⟩ := foldlM_inv
    (fun done c₁ => Core universe_ [package] (popped + 1) c₁ ∧ Reachable initial c₁ ∧
      Keeps c c₁ ∧ ∀ group ∈ done, Satisfied universe_ c₁.selected group)
    (fun done c₁ group c₂ ⟨hcore, hreach, hkeeps, hdone⟩ hstep => by
      obtain ⟨hcore', hreach', hkeeps', hsat⟩ :=
        resolveGroup_inv hcore hreach (hkeeps _ _ hselected) hstep
      refine ⟨hcore', hreach', hkeeps.trans hkeeps', fun g hg => ?_⟩
      rcases List.mem_append.1 hg with hg | hg
      · exact (hdone g hg).mono hkeeps'
      · rw [List.mem_singleton.1 hg]; exact hsat)
    ⟨hstart, hr, .refl c, fun _ hg => absurd hg List.not_mem_nil⟩ h
  refine ⟨⟨hcore.named, hcore.nodup, hcore.queued, hcore.sources, hcore.targets,
    fun name p hget => ?_, hcore.count⟩, hreach, hkeeps⟩
  rcases hcore.closed name p hget with hq | hq | hq
  · exact .inl hq
  · rw [List.mem_singleton.1 hq]
    exact .inr (.inr hgroups)
  · exact .inr (.inr hq)

/-- At most as many packages are selected as there are names. -/
theorem Core.length_le (hc : Core universe_ current popped c) :
    c.selected.length ≤ universe_.packages.length := by
  have hsub : c.selected.keys ⊆ universe_.packages.keys := by
    intro name hname
    obtain ⟨p, hp⟩ := Dict.exists_get_of_mem_keys hname
    obtain ⟨rfl, hall⟩ := hc.named name p hp
    obtain ⟨ps, hps, -⟩ := Universe.get_name hall
    exact Dict.mem_keys_of_get hps
  simpa [Dict.keys] using (hc.nodup.subperm hsub).length_le

/-- **The queue is drained**, and every selected package is closed. -/
theorem drain_inv : ∀ {fuel popped : ℕ} {c c' : Closure}, Core universe_ [] popped c →
    Reachable initial c → universe_.packages.length ≤ popped + fuel →
    drain universe_ fuel c = .ok c' →
      c'.queue = [] ∧ (∃ popped', Core universe_ [] popped' c') ∧ Reachable initial c' ∧ Keeps c c'
  | 0, popped, c, c', hc, hr, hfuel, h => by
    cases h
    have hlen := hc.length_le
    rw [hc.count] at hlen
    exact ⟨List.eq_nil_of_length_eq_zero (by omega), ⟨_, hc⟩, hr, .refl _⟩
  | fuel + 1, popped, c, c', hc, hr, hfuel, h => by
    unfold drain at h
    split at h
    · next hqueue =>
      cases h
      exact ⟨hqueue, ⟨_, hc⟩, hr, .refl _⟩
    · next package queue hqueue =>
      simp only [bind_eq_ok] at h
      obtain ⟨c₁, hgroups, h⟩ := h
      obtain ⟨hc₁, hr₁, hkeeps⟩ := resolvePackage_inv hc hr hqueue hgroups
      obtain ⟨hq, hcore, hreach, hkeeps'⟩ := drain_inv hc₁ hr₁ (by omega) h
      exact ⟨hq, hcore, hreach, hkeeps.trans hkeeps'⟩

/-! ## The initial set -/

/-- `package` is the only candidate for `name`, which it provides. -/
def SolelyProvides (universe_ : Universe A) (name : String) (package : Package) : Prop :=
  universe_.candidates (anyVersion name) = .ok [package] ∧
    ∃ version, (name, version) ∈ package.provides

/-- The packages that are selected before any dependency is followed: the newest version of every
    bootstrap name and the packages that answer a request. -/
def Initial (universe_ : Universe A) (requested : List String) (package : Package) : Prop :=
  (∃ record ∈ universe_.all, isBootstrap record ∧ universe_.newest record.name = some package) ∨
    ∃ name ∈ requested, package.name = name ∨ SolelyProvides universe_ name package

theorem mem_bootstrapNames {name : String} :
    name ∈ bootstrapNames universe_ ↔
      ∃ record ∈ universe_.all, isBootstrap record = true ∧ record.name = name := by
  simp only [bootstrapNames, List.mem_insertionSort, List.mem_dedup, List.mem_map, List.mem_filter,
    and_assoc]

variable {requested : List String}

theorem selectBootstrap_inv (requested : List String) {c : Closure}
    (h : selectBootstrap universe_ Closure.empty = .ok c) :
    Core universe_ [] 0 c ∧ Reachable (Initial universe_ requested) c ∧
      ∀ name ∈ bootstrapNames universe_,
        ∃ p, universe_.newest name = some p ∧ c.selected.get name = some p := by
  have hrun := foldlM_mem_inv (l := bootstrapNames universe_)
    (fun c => Core universe_ [] 0 c ∧ Reachable (Initial universe_ requested) c)
    (fun c name c' hname ⟨hc, hr⟩ hstep => by
      obtain ⟨record, hall, hboot, rfl⟩ := mem_bootstrapNames.1 hname
      obtain ⟨newest, hnewest, hmem, -⟩ := Universe.newest_spec hall
      simp only [selectNewest, hnewest] at hstep
      obtain ⟨hc', hr', -⟩ :=
        select_inv hc hr hmem (.inl ⟨record, hall, hboot, hnewest⟩) hstep
      exact ⟨hc', hr'⟩)
    ⟨Core.empty, fun _ _ h => by cases h⟩ h
  refine ⟨hrun.1, hrun.2, fun name hname => ?_⟩
  -- what was selected for `name` is not changed by the later names
  have hdone := foldlM_inv (fun done c' => ∀ n ∈ done, ∃ p, universe_.newest n = some p ∧
      c'.selected.get p.name = some p)
    (fun done c₁ n c₂ hdone hstep => by
      intro m hm
      unfold selectNewest at hstep
      split at hstep
      · next newest hnewest =>
        have hkeep : Keeps c₁ c₂ ∧ c₂.selected.get newest.name = some newest := by
          rcases Closure.select_cases hstep with ⟨hget, rfl⟩ | ⟨hfresh, rfl⟩
          · exact ⟨.refl _, hget⟩
          · exact ⟨fun _ _ => Closure.get_add_of_get hfresh, by rw [Closure.get_add, if_pos rfl]⟩
        rcases List.mem_append.1 hm with hm | hm
        · obtain ⟨p, hp, hget⟩ := hdone m hm
          exact ⟨p, hp, hkeep.1 _ _ hget⟩
        · rw [List.mem_singleton.1 hm]
          exact ⟨newest, hnewest, hkeep.2⟩
      · cases hstep)
    (fun _ h => absurd h List.not_mem_nil) h
  obtain ⟨p, hp, hget⟩ := hdone name hname
  obtain ⟨record, hall, -, rfl⟩ := mem_bootstrapNames.1 hname
  obtain ⟨newest, hnewest, -, hnamed, -⟩ := Universe.newest_spec hall
  cases hnewest.symm.trans hp
  exact ⟨p, hp, hnamed ▸ hget⟩

/-- One requested name: it is missing, or a package that answers it is selected. -/
theorem selectName_inv {name : String} {state state' : Closure × List String}
    (hname : name ∈ requested) (hc : Core universe_ [] 0 state.1)
    (hr : Reachable (Initial universe_ requested) state.1)
    (h : selectName universe_ state name = .ok state') :
    Core universe_ [] 0 state'.1 ∧ Reachable (Initial universe_ requested) state'.1 ∧
      Keeps state.1 state'.1 ∧ state.2 ⊆ state'.2 ∧
      (name ∈ state'.2 ∨ ∃ p, (p.name = name ∨ SolelyProvides universe_ name p) ∧
        state'.1.selected.get p.name = some p) := by
  simp only [selectName, bind_eq_ok] at h
  obtain ⟨candidates, hcand, h⟩ := h
  have hanswers := Universe.candidates_answers hcand
  cases hreal : candidates.filter (·.name = name) with
  | cons real rest =>
    simp only [hreal, bind_eq_ok, pure_eq_ok] at h
    obtain ⟨c, hselect, rfl⟩ := h
    have hfilter : real ∈ candidates ∧ real.name = name := by
      have : real ∈ candidates.filter (·.name = name) := hreal ▸ List.mem_cons_self
      simpa using this
    obtain ⟨hc', hr', hkeeps, hget⟩ := select_inv hc hr (hanswers real hfilter.1).1
      (.inr ⟨name, hname, .inl hfilter.2⟩) hselect
    exact ⟨hc', hr', hkeeps, fun _ h => h, .inr ⟨real, .inl hfilter.2, hget⟩⟩
  | nil =>
    rw [hreal] at h
    cases candidates with
    | nil =>
      cases h
      exact ⟨hc, hr, .refl _, List.subset_append_left _ _,
        .inl (List.mem_append_right _ (List.mem_singleton_self _))⟩
    | cons provider others =>
      cases others with
      | nil =>
        simp only [bind_eq_ok, pure_eq_ok] at h
        obtain ⟨c, hselect, rfl⟩ := h
        obtain ⟨hall, hprovides⟩ := hanswers provider (List.mem_singleton_self _)
        have hother : provider.name ≠ name := by simpa using hreal
        have hsole : SolelyProvides universe_ name provider :=
          ⟨hcand, hprovides.resolve_left hother⟩
        obtain ⟨hc', hr', hkeeps, hget⟩ :=
          select_inv hc hr hall (.inr ⟨name, hname, .inr hsole⟩) hselect
        exact ⟨hc', hr', hkeeps, fun _ h => h, .inr ⟨provider, .inr hsole, hget⟩⟩
      | cons _ _ => cases h

theorem selectRequested_inv {c c' : Closure} (hc : Core universe_ [] 0 c)
    (hr : Reachable (Initial universe_ requested) c)
    (h : selectRequested universe_ requested c = .ok c') :
    Core universe_ [] 0 c' ∧ Reachable (Initial universe_ requested) c' ∧ Keeps c c' ∧
      ∀ name ∈ requested, ∃ p, (p.name = name ∨ SolelyProvides universe_ name p) ∧
        c'.selected.get p.name = some p := by
  simp only [selectRequested, bind_eq_ok, raiseIf_eq_ok, exists_unit, pure_eq_ok, ne_eq,
    not_not] at h
  obtain ⟨⟨c₁, missing⟩, hfold, rfl, rfl⟩ := h
  have hrun : ∀ names ⊆ requested, ∀ state, names.foldlM (selectName universe_) (c, []) = .ok state →
      Core universe_ [] 0 state.1 ∧ Reachable (Initial universe_ requested) state.1 ∧
        Keeps c state.1 ∧ ∀ name ∈ names, name ∈ state.2 ∨
          ∃ p, (p.name = name ∨ SolelyProvides universe_ name p) ∧
            state.1.selected.get p.name = some p := by
    intro names
    induction names using List.reverseRecOn with
    | nil =>
      intro _ state hnil
      cases hnil
      exact ⟨hc, hr, .refl _, fun _ h => absurd h List.not_mem_nil⟩
    | append_singleton names name ih =>
      intro hsub state hstep
      rw [List.foldlM_append] at hstep
      simp only [bind_eq_ok, List.foldlM_cons, List.foldlM_nil, pure_eq_ok] at hstep
      obtain ⟨state₁, hbefore, state₂, hname, rfl⟩ := hstep
      obtain ⟨hc₁, hr₁, hk₁, hdone⟩ := ih (fun n hn => hsub (List.mem_append_left _ hn)) _ hbefore
      obtain ⟨hc₂, hr₂, hk₂, hmissing, hthis⟩ := selectName_inv
        (hsub (List.mem_append_right _ (List.mem_singleton_self _))) hc₁ hr₁ hname
      refine ⟨hc₂, hr₂, hk₁.trans hk₂, fun n hn => ?_⟩
      rcases List.mem_append.1 hn with hn | hn
      · refine (hdone n hn).imp (hmissing ·) ?_
        rintro ⟨p, hp, hget⟩
        exact ⟨p, hp, hk₂ _ _ hget⟩
      · rw [List.mem_singleton.1 hn]
        exact hthis
  obtain ⟨hcore, hreach, hkeeps, hdone⟩ := hrun requested (fun _ h => h) _ hfold
  exact ⟨hcore, hreach, hkeeps, fun name hname =>
    (hdone name hname).resolve_left List.not_mem_nil⟩

/-! ## The closed lock -/

/-- The result of a resolution, as the lock needs it. -/
structure ClosedLock (universe_ : Universe A) (requested : List String)
    (selected : Dict String Package) (edges : Dict String (Finset String)) : Prop where
  named : ∀ name package, selected.get name = some package →
    package.name = name ∧ package ∈ universe_.all
  /-- every dependency group of a selected package has a selected candidate -/
  closed : ∀ name package, selected.get name = some package →
    ∀ group ∈ package.preDepends ++ package.depends, ∃ relation ∈ group, ∃ candidates,
      universe_.candidates relation = .ok candidates ∧
        ∃ candidate ∈ candidates, selected.get candidate.name = some candidate
  /-- the newest version of every bootstrap name is selected -/
  bootstrap : ∀ record ∈ universe_.all, record.essential = true ∨ record.priority = "required" →
    ∃ newest, universe_.newest record.name = some newest ∧
      selected.get record.name = some newest ∧
      ∀ other ∈ universe_.all, other.name = record.name → other = newest ∨
        ∃ difference ≤ 0, compareVersions A other.version newest.version = .ok difference
  /-- every request is answered by a selected package -/
  answered : ∀ name ∈ requested, ∃ package, selected.get package.name = some package ∧
    (package.name = name ∨ SolelyProvides universe_ name package)
  /-- nothing else is selected -/
  reachable : ∀ name package, selected.get name = some package →
    ∃ start, Initial universe_ requested start ∧ selected.get start.name = some start ∧
      Relation.ReflTransGen (fun a b => ∃ targets, edges.get a = some targets ∧ b ∈ targets)
        start.name name
  /-- the lock has an entry for every name it looks up -/
  edges_selected : ∀ name, (edges.get name).isSome = true ↔ (selected.get name).isSome = true
  targets_selected : ∀ name targets, edges.get name = some targets →
    ∀ target ∈ targets, ∃ package, selected.get target = some package
  no_missing_name : ∀ url key, lockedPackages selected edges url ≠ .error (.keyError key)

theorem lookup_ok {ν : Type} {table : Dict String ν} {key : String} {value : ν}
    (h : table.get key = some value) : lookup table key = .ok value := by
  simp only [lookup, h]

/-- The lock finds every name if the edges and their targets are selected. -/
theorem lockedPackages_no_keyError {selected : Dict String Package}
    {edges : Dict String (Finset String)}
    (hedges : ∀ name, (edges.get name).isSome = true ↔ (selected.get name).isSome = true)
    (htargets : ∀ name targets, edges.get name = some targets →
      ∀ target ∈ targets, ∃ package, selected.get target = some package) (url key : String) :
    lockedPackages selected edges url ≠ .error (.keyError key) := by
  have hname : ∀ name ∈ Dict.keys (selected.insertionSort fun a b => a.2.key ≤ b.2.key),
      ∃ locked, lockedName selected edges url name = .ok locked := by
    intro name hmem
    have hkey : name ∈ selected.keys := by
      have hperm := (List.perm_insertionSort (fun a b : String × Package => a.2.key ≤ b.2.key)
        selected).map Prod.fst
      exact hperm.mem_iff.1 hmem
    obtain ⟨package, hpackage⟩ := Dict.exists_get_of_mem_keys hkey
    obtain ⟨targets, hget⟩ := Option.isSome_iff_exists.1 ((hedges name).2 (by rw [hpackage]; rfl))
    have hdependency : ∀ target ∈ targets.sort, ∃ p, lookup selected target = .ok p := by
      intro target htarget
      obtain ⟨p, hp⟩ := htargets name targets hget target ((Finset.mem_sort _).1 htarget)
      exact ⟨p, lookup_ok hp⟩
    obtain ⟨dependencies, hdependencies⟩ := exists_mapM_ok hdependency
    refine ⟨lockedPackage package dependencies url, ?_⟩
    simp only [lockedName, lookup_ok hpackage, lookup_ok hget, hdependencies, ok_bind]
    rfl
  obtain ⟨locked, hlocked⟩ := exists_mapM_ok hname
  simp only [lockedPackages, hlocked, ok_bind]
  unfold raiseIf
  split_ifs <;> simp [pure, Except.pure]

/-- The state in which a run ends. -/
theorem resolve_inv {requested : List String} {selected : Dict String Package}
    {edges : Dict String (Finset String)}
    (h : resolve universe_ requested = .ok (selected, edges)) :
    ∃ c popped, c.selected = selected ∧ c.edges = edges ∧ c.queue = [] ∧
      Core universe_ [] popped c ∧ Reachable (Initial universe_ requested) c ∧
      (∀ name ∈ bootstrapNames universe_,
        ∃ p, universe_.newest name = some p ∧ c.selected.get name = some p) ∧
      ∀ name ∈ requested, ∃ p, (p.name = name ∨ SolelyProvides universe_ name p) ∧
        c.selected.get p.name = some p := by
  simp only [resolve, bind_eq_ok, pure_eq_ok, Prod.mk.injEq] at h
  obtain ⟨c₁, hbootstrap, c₂, hrequested, c₃, hdrain, hselected, hedges⟩ := h
  obtain ⟨hc₁, hr₁, hnewest⟩ := selectBootstrap_inv requested hbootstrap
  obtain ⟨hc₂, hr₂, hkeeps₂, hanswered⟩ := selectRequested_inv hc₁ hr₁ hrequested
  obtain ⟨hqueue, ⟨popped, hc₃⟩, hr₃, hkeeps₃⟩ := drain_inv hc₂ hr₂ (by omega) hdrain
  refine ⟨c₃, popped, hselected, hedges, hqueue, hc₃, hr₃, fun name hname => ?_, fun name hname => ?_⟩
  · obtain ⟨newest, hget, hfirst⟩ := hnewest name hname
    exact ⟨newest, hget, hkeeps₃ _ _ (hkeeps₂ _ _ hfirst)⟩
  · obtain ⟨package, hanswers, hget⟩ := hanswered name hname
    exact ⟨package, hanswers, hkeeps₃ _ _ hget⟩

/-- The selected packages, each under its name. -/
theorem resolve_selected {requested : List String} {selected : Dict String Package}
    {edges : Dict String (Finset String)}
    (h : resolve universe_ requested = .ok (selected, edges)) :
    selected.keys.Nodup ∧ ∀ name package, selected.get name = some package →
      package.name = name ∧ package ∈ universe_.all := by
  obtain ⟨c, popped, rfl, rfl, -, hc, -⟩ := resolve_inv h
  exact ⟨hc.nodup, hc.named⟩

/-- The lock records every selected package once, in the order of the keys. -/
theorem lockedPackages_spec {selected : Dict String Package} {edges : Dict String (Finset String)}
    {url : String} {locked : List LockedPackage} (hnodup : selected.keys.Nodup)
    (hnamed : ∀ name package, selected.get name = some package → package.name = name)
    (h : lockedPackages selected edges url = .ok locked) :
    (∀ record ∈ locked, ∃ package dependencies, selected.get package.name = some package ∧
      record = lockedPackage package dependencies url) ∧
    (locked.map LockedPackage.name).Nodup ∧ (locked.map LockedPackage.key).Nodup ∧
    locked.Pairwise fun a b => a.key ≤ b.key := by
  simp only [lockedPackages, bind_eq_ok, raiseIf_eq_ok, exists_unit, pure_eq_ok, not_not] at h
  obtain ⟨records, hrecords, hkeys, rfl⟩ := h
  generalize hsorted : (selected.insertionSort fun a b => a.2.key ≤ b.2.key) = sorted at hrecords
  have hperm : sorted.Perm selected := hsorted ▸ List.perm_insertionSort _ _
  have hget : ∀ item ∈ sorted, selected.get item.1 = some item.2 := fun item hitem =>
    Dict.get_of_mem hnodup (hperm.mem_iff.1 hitem)
  -- the record of an item of the sorted table
  have hforall : List.Forall₂ (fun item record => item ∈ sorted ∧ ∃ dependencies,
      record = lockedPackage item.2 dependencies url) sorted records := by
    have hall := List.forall₂_map_left_iff.1 (mapM_eq_ok.1 hrecords)
    refine List.forall₂_iff_get.2 ⟨hall.length_eq, fun i hi hr => ⟨List.get_mem _ _, ?_⟩⟩
    have hitem := (List.forall₂_iff_get.1 hall).2 i hi hr
    simp only [lockedName, bind_eq_ok, pure_eq_ok, lookup, hget _ (List.get_mem sorted ⟨i, hi⟩),
      Except.ok.injEq, exists_eq_left'] at hitem
    obtain ⟨targets, -, dependencies, -, hrecord⟩ := hitem
    exact ⟨dependencies, hrecord.symm⟩
  have hname : ∀ item ∈ sorted, item.2.name = item.1 := fun item hitem =>
    hnamed _ _ (hget item hitem)
  refine ⟨fun record hrecord => ?_, ?_, hkeys, ?_⟩
  · obtain ⟨item, hitem, -, dependencies, rfl⟩ := forall₂_mem_right hforall hrecord
    exact ⟨item.2, dependencies, by rw [hname item hitem, hget item hitem], rfl⟩
  · have hnames : sorted.map Prod.fst = records.map LockedPackage.name := by
      refine forall₂_map_eq ?_ hforall
      rintro item _ ⟨hitem, dependencies, rfl⟩
      exact (hname item hitem).symm
    rw [← hnames]
    exact (hperm.map Prod.fst).nodup_iff.2 hnodup
  · have hkeysEq : (sorted.map fun item => item.2.key) = records.map LockedPackage.key := by
      refine forall₂_map_eq ?_ hforall
      rintro item _ ⟨-, dependencies, rfl⟩
      rfl
    have htotal : Std.Total fun a b : String × Package => a.2.key ≤ b.2.key :=
      ⟨fun a b => le_total _ _⟩
    have htrans : IsTrans _ fun a b : String × Package => a.2.key ≤ b.2.key :=
      ⟨fun a b c => le_trans⟩
    have hpair : sorted.Pairwise fun a b => a.2.key ≤ b.2.key :=
      hsorted ▸ List.pairwise_insertionSort _ selected
    have hmapped : (sorted.map fun item => item.2.key).Pairwise (· ≤ ·) := List.pairwise_map.2 hpair
    rw [hkeysEq] at hmapped
    exact List.pairwise_map.1 hmapped

/-- **A resolved lock is closed.**  Every dependency group of a selected package is satisfied by a
    selected candidate, the bootstrap set and every request are selected, and nothing else is but
    what the edges lead to. -/
theorem resolve_closed (A : Alphabet) (universe_ : Universe A) (requested : List String)
    (selected : Dict String Package) (edges : Dict String (Finset String))
    (h : resolve universe_ requested = .ok (selected, edges)) :
    ClosedLock universe_ requested selected edges := by
  obtain ⟨c, popped, rfl, rfl, hqueue, hc, hr, hnewest, hanswered⟩ := resolve_inv h
  have htargets : ∀ name targets, c.edges.get name = some targets →
      ∀ target ∈ targets, ∃ package, c.selected.get target = some package :=
    fun name targets hget target htarget =>
      Option.isSome_iff_exists.1 (hc.targets name target ⟨targets, hget, htarget⟩)
  refine ⟨hc.named, fun name package hget => ?_, fun record hrecord hboot => ?_, fun name hname => ?_,
    hr, hc.sources, htargets, lockedPackages_no_keyError hc.sources htargets⟩
  · -- nothing is pending when the queue is empty
    rcases hc.closed name package hget with hpending | hpending | hsat
    · rw [hqueue] at hpending
      exact absurd hpending List.not_mem_nil
    · exact absurd hpending List.not_mem_nil
    · exact hsat
  · have hboot' : isBootstrap record = true := decide_eq_true hboot
    obtain ⟨newest, hget, hselected⟩ :=
      hnewest record.name (mem_bootstrapNames.2 ⟨record, hrecord, hboot', rfl⟩)
    obtain ⟨newest', hget', -, -, holder⟩ := Universe.newest_spec hrecord
    cases hget.symm.trans hget'
    exact ⟨newest, hget, hselected, holder⟩
  · obtain ⟨package, hanswers, hget⟩ := hanswered name hname
    exact ⟨package, hget, hanswers⟩

end

/-- The letters of ASCII. -/
def asciiAlphabet : Alphabet := ⟨Char.isAlpha, by decide⟩

/-- A package with the given dependencies. -/
def examplePackage (name version : String) (essential : Bool) (depends : List (List Relation))
    (provides : List (String × Option String)) : Package where
  name := name
  version := version
  architecture := "amd64"
  component := "main"
  filename := "pool/" ++ name ++ ".deb"
  size := 1
  sha256 := "00"
  multiArch := "no"
  essential := essential
  priority := "optional"
  preDepends := []
  depends := depends
  provides := provides

/-- Two versions of an essential package, a dependency cycle and a virtual package. -/
def examplePackages : List Package :=
  [examplePackage "base" "1.9-1" true [] [],
    examplePackage "base" "1.10~rc1" true [[anyVersion "mail"]] [],
    examplePackage "app" "1" false [[anyVersion "absent", ⟨"lib", none, some ">=", some "1:2"⟩]] [],
    examplePackage "lib" "1:2.1" false [[anyVersion "app"]] [],
    examplePackage "lib" "3" false [] [],
    examplePackage "mta" "2" false [] [("mail", none)]]

theorem resolve_closed_example : ∃ (universe_ : Universe asciiAlphabet)
    (selected : Dict String Package) (edges : Dict String (Finset String)),
    Universe.init asciiAlphabet examplePackages = .ok universe_ ∧
      resolve universe_ ["app"] = .ok (selected, edges) ∧
      selected.map (fun item => (item.1, item.2.version)) =
        [("base", "1.10~rc1"), ("app", "1"), ("mta", "2"), ("lib", "1:2.1")] ∧
      ClosedLock universe_ ["app"] selected edges := by
  have hversions : (Universe.init asciiAlphabet examplePackages >>= (resolve · ["app"])).toOption.map
      (fun r => r.1.map fun item => (item.1, item.2.version)) =
      some [("base", "1.10~rc1"), ("app", "1"), ("mta", "2"), ("lib", "1:2.1")] := by
    decide
  obtain ⟨r, hrun, hversions⟩ := toOption_map_eq_some.1 hversions
  obtain ⟨u, hinit, hresolve⟩ := bind_eq_ok.1 hrun
  exact ⟨u, r.1, r.2, hinit, hresolve, hversions,
    resolve_closed asciiAlphabet u ["app"] r.1 r.2 hresolve⟩

end RulesMkosi.Debian
