/-
  Merging does not depend on the order of the mappings.

  The table keeps the first declaration of a path, and the side table of owners
  fills as further mappings share a directory.  What both tables together say about
  a path is the list of its declarations (`Holds`): a path is accepted iff it is
  declared once or by directories only, and a link may point at a path iff its
  mapping is among those that declare it.  None of this depends on the order, so
  `manifest_perm`.
-/
import RulesMkosi.StageLayout
import RulesMkosi.Lib.StableSort
import Mathlib.Data.List.Perm.Basic

namespace RulesMkosi.StageInputs

/-! ## The entries of one mapping -/

/-- What every entry of the mapping `owner` satisfies. -/
def Owned (owner : String) (entry : Entry) : Prop :=
  entry.owner = owner ∧ (entry.kind = .directory → entry.linkTarget = none)

/-- The entries of one mapping: one for each path, all of the same owner. -/
structure OwnItems (owner : String) (items : Dict String Entry) : Prop where
  nodup : items.keys.Nodup
  owned : ∀ item ∈ items, Owned owner item.2

theorem OwnItems.set {owner path : String} {entry : Entry} {items : Dict String Entry}
    (h : OwnItems owner items) (hentry : Owned owner entry) : OwnItems owner (items.set path entry) where
  nodup := Dict.nodup_keys_set h.nodup
  owned := by
    intro item hitem
    rcases Dict.mem_set hitem with rfl | hitem
    · exact hentry
    · exact h.owned item hitem

theorem treeItemEntry_owned {host : Host} {sourcePath source owner : String} {node : Node}
    {generated : Bool} {entry : Entry}
    (h : treeItemEntry host sourcePath node source owner generated = .ok entry) :
    Owned owner entry := by
  cases node with
  | symlink target =>
    unfold treeItemEntry at h
    dsimp only at h
    split_ifs at h
    · simp only [bind_eq_ok, exists_unit, pure_eq_ok] at h
      obtain ⟨-, rfl⟩ := h
      exact ⟨rfl, fun _ => rfl⟩
    · simp only [bind_eq_ok, pure_eq_ok] at h
      obtain ⟨linkTarget, -, rfl⟩ := h
      refine ⟨rfl, fun hkind => ?_⟩
      cases hkind
  | directory children =>
    cases h
    exact ⟨rfl, fun _ => rfl⟩
  | file =>
    cases h
    exact ⟨rfl, fun _ => rfl⟩
  | special => cases h

section
variable {host : Host} {source destination owner : String} {generated : Bool}

mutual
theorem visit_own : ∀ {items : List (String × Node)} {dir relative : String}
    {entries entries' : Dict String Entry}, OwnItems owner entries →
      visit host source destination owner generated items dir relative entries = .ok entries' →
      OwnItems owner entries'
  | [], _, _, _, _, hown, h => by
    rw [visit, Except.ok.injEq] at h
    exact h ▸ hown
  | (name, node) :: items, dir, relative, entries, entries', hown, h => by
    rw [visit] at h
    simp only [bind_eq_ok] at h
    obtain ⟨entry, hentry, below, hbelow, h⟩ := h
    exact visit_own (visitBelow_own (hown.set (treeItemEntry_owned hentry)) hbelow) h

theorem visitBelow_own : ∀ {node : Node} {dir relative : String}
    {entries entries' : Dict String Entry}, OwnItems owner entries →
      visitBelow host source destination owner generated node dir relative entries = .ok entries' →
      OwnItems owner entries'
  | .directory children, _, _, _, _, hown, h => by
    rw [visitBelow] at h
    exact visit_own hown h
  | .file, _, _, _, _, hown, h | .symlink _, _, _, _, _, hown, h | .special, _, _, _, _, hown, h => by
    rw [visitBelow, Except.ok.injEq] at h
    · exact h ▸ hown
    · simp
end

theorem treeEntries_own {items : Dict String Entry}
    (h : treeEntries host source destination owner generated = .ok items) : OwnItems owner items := by
  unfold treeEntries at h
  dsimp only at h
  split at h
  · refine visit_own ?_ h
    have hnil : OwnItems owner [] := ⟨List.nodup_nil, fun _ hitem => absurd hitem List.not_mem_nil⟩
    split_ifs
    · exact hnil
    · exact hnil.set ⟨rfl, fun _ => rfl⟩
  · cases h

theorem mappingEntries_own {role : Role} {items : Dict String Entry}
    (h : mappingEntries host source destination owner role = .ok items) : OwnItems owner items := by
  simp only [mappingEntries, bind_eq_ok, exists_unit] at h
  obtain ⟨-, -, -, h⟩ := h
  have hfile : ∀ {items : Dict String Entry}, (do
      raiseIf (destination = "") (Exn.valueError "a file mapping requires a destination")
      return [(destination, (⟨owner, .file, source, none⟩ : Entry))]) = .ok items →
      OwnItems owner items := by
    intro items h
    simp only [bind_eq_ok, exists_unit, pure_eq_ok] at h
    obtain ⟨-, rfl⟩ := h
    exact ⟨List.nodup_singleton _, by simp [Owned]⟩
  cases role with
  | tree => exact treeEntries_own h
  | generatedTree => exact treeEntries_own h
  | other name => cases h
  | file => exact hfile h
  | sourceFile => exact hfile h

end

/-- The owner string of a mapping whose destination is valid. -/
def ownerOf (m : Mapping) : Option String :=
  match destinationOf m with
  | .ok (_, owner) => some owner
  | .error _ => none

theorem ownEntries_own {host : Host} {m : Mapping} {items : Dict String Entry}
    (h : ownEntries host m = .ok items) : ∃ owner, ownerOf m = some owner ∧ OwnItems owner items := by
  simp only [ownEntries, bind_eq_ok] at h
  obtain ⟨⟨destination, owner⟩, hdestination, hitems⟩ := h
  exact ⟨owner, by rw [ownerOf, hdestination], mappingEntries_own hitems⟩

/-! ## All declarations in one list -/

/-- The mapping has entries, whatever the other mappings do. -/
def Declares (host : Host) (m : Mapping) : Prop :=
  host.exists_ (PosixPath.parse m.source).str = true ∧ ∃ items, ownEntries host m = .ok items

/-- `addEntry` with the owner that the entry names. -/
def addDeclared (st : Staging) (item : String × Entry) : Except Exn Staging :=
  addEntry true item.2.owner st item

theorem addMapping_merge {host : Host} {st st' : Staging} {m : Mapping} :
    addMapping host true st m = .ok st' ↔ host.exists_ (PosixPath.parse m.source).str = true ∧
      ∃ items, ownEntries host m = .ok items ∧ items.foldlM addDeclared st = .ok st' := by
  have hfold : ∀ {owner : String} {items : Dict String Entry}, OwnItems owner items →
      items.foldlM (addEntry true owner) st = items.foldlM addDeclared st := by
    intro owner items hown
    refine foldlM_congr fun st item hitem => ?_
    rw [addDeclared, (hown.owned item hitem).1]
  simp only [addMapping, ownEntries, overlapSources, if_true, bind_eq_ok, exists_unit, raiseIf_eq_ok,
    checkIf_eq_ok, pure_eq_ok, not_true_eq_false, false_implies, true_and, not_not, Except.ok.injEq,
    exists_eq_left']
  constructor
  · rintro ⟨hexists, ⟨destination, owner⟩, hdestination, items, hitems, st₁, hrun, rfl⟩
    exact ⟨hexists, items, ⟨_, hdestination, hitems⟩, by rw [← hfold (mappingEntries_own hitems), hrun]⟩
  · rintro ⟨hexists, items, ⟨⟨destination, owner⟩, hdestination, hitems⟩, hrun⟩
    exact ⟨hexists, _, hdestination, items, hitems, st', by rw [hfold (mappingEntries_own hitems), hrun],
      rfl⟩

/-- The mappings are added iff each of them declares its entries and these can be added. -/
theorem addMappings_merge {host : Host} : ∀ {mappings : List Mapping} {st st' : Staging},
    mappings.foldlM (addMapping host true) st = .ok st' ↔ (∀ m ∈ mappings, Declares host m) ∧
      (declared host mappings).foldlM addDeclared st = .ok st'
  | [], st, st' => by simp [declared]
  | m :: mappings, st, st' => by
    have hcons : ∀ {items : Dict String Entry}, ownEntries host m = .ok items →
        declared host (m :: mappings) = items ++ declared host mappings := by
      intro items hitems
      simp [declared, hitems]
    rw [List.foldlM_cons, bind_eq_ok, List.forall_mem_cons]
    constructor
    · rintro ⟨mid, hm, hrun⟩
      obtain ⟨hexists, items, hitems, hadd⟩ := addMapping_merge.1 hm
      obtain ⟨hall, hrun⟩ := addMappings_merge.1 hrun
      refine ⟨⟨⟨hexists, items, hitems⟩, hall⟩, ?_⟩
      rw [hcons hitems, List.foldlM_append, hadd, ok_bind, hrun]
    · rintro ⟨⟨⟨hexists, items, hitems⟩, hall⟩, hrun⟩
      rw [hcons hitems, List.foldlM_append, bind_eq_ok] at hrun
      obtain ⟨mid, hadd, hrun⟩ := hrun
      exact ⟨mid, addMapping_merge.2 ⟨hexists, items, hitems, hadd⟩, addMappings_merge.2 ⟨hall, hrun⟩⟩

/-- Declarations of one path come from different mappings. -/
def Apart (a b : String × Entry) : Prop := a.1 = b.1 → a.2.owner ≠ b.2.owner

theorem OwnItems.apart {owner : String} {items : Dict String Entry} (h : OwnItems owner items) :
    items.Pairwise Apart := by
  have hnodup : items.Pairwise fun a b => a.1 ≠ b.1 := List.pairwise_map.1 h.nodup
  exact hnodup.imp fun hne hpath => absurd hpath hne

theorem declared_apart {host : Host} {mappings : List Mapping}
    (h : (mappings.filterMap ownerOf).Nodup) : (declared host mappings).Pairwise Apart := by
  refine List.pairwise_flatMap.2 ⟨fun m _ => ?_, ?_⟩
  · split
    · next items hitems =>
      obtain ⟨owner, -, hown⟩ := ownEntries_own hitems
      exact hown.apart
    · exact List.Pairwise.nil
  · refine (List.pairwise_filterMap.1 h).imp fun {a b} hne x hx y hy _ => ?_
    split at hx
    · next items hitems =>
      split at hy
      · next items' hitems' =>
        obtain ⟨owner, howner, hown⟩ := ownEntries_own hitems
        obtain ⟨owner', howner', hown'⟩ := ownEntries_own hitems'
        rw [(hown.owned x hx).1, (hown'.owned y hy).1]
        exact hne owner howner owner' howner'
      · cases hy
    · cases hx

theorem declared_linkTarget {host : Host} {mappings : List Mapping} {item : String × Entry}
    (h : item ∈ declared host mappings) (hkind : item.2.kind = .directory) :
    item.2.linkTarget = none := by
  obtain ⟨m, -, hitem⟩ := List.mem_flatMap.1 h
  split at hitem
  · next items hitems =>
    obtain ⟨owner, -, hown⟩ := ownEntries_own hitems
    exact (hown.owned item hitem).2 hkind
  · cases hitem

/-! ## What the tables say about a path -/

/-- The declarations of a path, in their order. -/
def declarationsOf (decl : List (String × Entry)) (path : String) : List Entry :=
  decl.filterMap fun item => if item.1 = path then some item.2 else none

/-- A path is declared once, or by directories only. -/
def Mergeable (declarations : List Entry) : Prop :=
  declarations.length ≤ 1 ∨ ∀ entry ∈ declarations, entry.kind = .directory

def AllMergeable (decl : List (String × Entry)) : Prop := ∀ path, Mergeable (declarationsOf decl path)

/-- The mapping `owner` contributes the path, according to both tables. -/
def Contributes (st : Staging) (path owner : String) : Prop :=
  (∃ entry, st.entries.get path = some entry ∧ entry.owner = owner) ∨
    owner ∈ (st.sharedOwners.get path).getD []

/-- The tables after some declarations: the first entry of a path and all of its owners. -/
structure Holds (decl : List (String × Entry)) (st : Staging) : Prop where
  nodup : st.entries.keys.Nodup
  first : ∀ path, st.entries.get path = (declarationsOf decl path).head?
  contributes : ∀ path owner, Contributes st path owner ↔
    ∃ entry ∈ declarationsOf decl path, entry.owner = owner

theorem Holds.nil : Holds [] ⟨[], [], []⟩ where
  nodup := List.nodup_nil
  first _ := rfl
  contributes := by simp [Contributes, declarationsOf]

theorem declarationsOf_concat (decl : List (String × Entry)) (item : String × Entry) (path : String) :
    declarationsOf (decl ++ [item]) path =
      declarationsOf decl path ++ if item.1 = path then [item.2] else [] := by
  rw [declarationsOf, List.filterMap_append]
  split_ifs with h
  · simp [declarationsOf, h]
  · simp [declarationsOf, h]

theorem mem_declarationsOf {decl : List (String × Entry)} {path : String} {entry : Entry} :
    entry ∈ declarationsOf decl path ↔ (path, entry) ∈ decl := by
  simp only [declarationsOf, List.mem_filterMap, Option.ite_none_right_eq_some, Option.some.injEq]
  constructor
  · rintro ⟨⟨p, e⟩, hmem, rfl, rfl⟩
    exact hmem
  · exact fun hmem => ⟨_, hmem, rfl, rfl⟩

theorem mergeable_concat {declarations : List Entry} {entry : Entry} :
    Mergeable (declarations ++ [entry]) ↔ Mergeable declarations ∧ (declarations = [] ∨
      ∃ prior, declarations.head? = some prior ∧ prior.kind = .directory ∧ entry.kind = .directory) := by
  cases declarations with
  | nil => simp [Mergeable]
  | cons prior rest =>
    constructor
    · rintro (hlength | hall)
      · simp at hlength
      · refine ⟨.inr fun e he => hall e (List.mem_append_left _ he), .inr ⟨prior, rfl, ?_, ?_⟩⟩
        · exact hall prior (by simp)
        · exact hall entry (by simp)
    · rintro ⟨hmergeable, hnil | ⟨first, hfirst, hprior, hentry⟩⟩
      · cases hnil
      · obtain rfl : prior = first := Option.some.inj hfirst
        have hdirectories : ∀ e ∈ prior :: rest, e.kind = .directory := by
          rcases hmergeable with hlength | hall
          · have hrest : rest = [] := List.length_eq_zero_iff.1 (by simpa using hlength)
            simpa [hrest] using hprior
          · exact hall
        refine .inr fun e he => ?_
        rcases List.mem_append.1 he with he | he
        · exact hdirectories e he
        · rw [List.mem_singleton.1 he, hentry]

theorem allMergeable_concat {decl : List (String × Entry)} {item : String × Entry}
    (h : AllMergeable decl) : AllMergeable (decl ++ [item]) ↔ declarationsOf decl item.1 = [] ∨
      ∃ prior, (declarationsOf decl item.1).head? = some prior ∧ prior.kind = .directory ∧
        item.2.kind = .directory := by
  constructor
  · intro hall
    have := hall item.1
    rw [declarationsOf_concat, if_pos rfl] at this
    exact (mergeable_concat.1 this).2
  · intro hjoin path
    rw [declarationsOf_concat]
    split_ifs with hpath
    · subst hpath
      exact mergeable_concat.2 ⟨h _, hjoin⟩
    · rw [List.append_nil]
      exact h path

theorem AllMergeable.left {decl rest : List (String × Entry)} (h : AllMergeable (decl ++ rest)) :
    AllMergeable decl := by
  intro path
  have := h path
  rw [declarationsOf, List.filterMap_append] at this
  rcases this with hlength | hall
  · rw [List.length_append] at hlength
    exact .inl (Nat.le_trans (Nat.le_add_right _ _) hlength)
  · exact .inr fun e he => hall e (List.mem_append_left _ he)

/-! ## The run -/

/-- The first declaration of a path. -/
theorem Holds.add {decl : List (String × Entry)} {st : Staging} {path : String} {entry : Entry}
    (h : Holds decl st) (hnone : st.entries.get path = none) :
    Holds (decl ++ [(path, entry)]) { st with entries := st.entries.set path entry } := by
  have hempty : declarationsOf decl path = [] := by
    rw [← List.head?_eq_none_iff, ← h.first, hnone]
  refine ⟨Dict.nodup_keys_set h.nodup, fun p => ?_, fun p owner => ?_⟩
  · rw [Dict.get_set, declarationsOf_concat]
    split_ifs with hp
    · rw [← hp, hempty]
      rfl
    · rw [List.append_nil, h.first]
  · have hold := h.contributes p owner
    rw [declarationsOf_concat]
    unfold Contributes at hold ⊢
    rw [Dict.get_set]
    split_ifs with hp
    · subst hp
      rw [hempty, hnone] at hold
      have hshared : owner ∉ (st.sharedOwners.get path).getD [] := by simpa using hold
      rw [hempty]
      simp [hshared]
    · rw [List.append_nil]
      exact hold

/-- A further declaration of a directory. -/
theorem Holds.share {decl : List (String × Entry)} {st : Staging} {path : String}
    {entry prior : Entry} (h : Holds decl st) (hprior : st.entries.get path = some prior) :
    Holds (decl ++ [(path, entry)])
      { st with sharedOwners := addSharedOwner st.sharedOwners path prior.owner entry.owner } := by
  refine ⟨h.nodup, fun p => ?_, fun p owner => ?_⟩
  · rw [declarationsOf_concat]
    split_ifs with hp
    · rw [← hp, List.head?_append, ← h.first, hprior]
      rfl
    · rw [List.append_nil, h.first]
  · have hold := h.contributes p owner
    rw [declarationsOf_concat]
    unfold Contributes at hold ⊢
    rw [addSharedOwner, Dict.get_set]
    split_ifs with hp
    · subst hp
      rw [hprior] at hold ⊢
      simp only [Option.some.injEq, exists_eq_left', Option.getD_some, List.mem_insert_iff,
        List.mem_append, List.mem_singleton, or_and_right, exists_or, exists_eq_left] at hold ⊢
      rw [← hold]
      cases st.sharedOwners.get path with
      | none =>
        simp only [Option.getD_none, List.mem_singleton, List.not_mem_nil, or_false]
        constructor
        · rintro (hfirst | hnew | hfirst)
          · exact .inl hfirst
          · exact .inr hnew.symm
          · exact .inl hfirst.symm
        · rintro (hfirst | hnew)
          · exact .inl hfirst
          · exact .inr (.inl hnew.symm)
      | some owners =>
        simp only [Option.getD_some]
        constructor
        · rintro (hfirst | hnew | hshared)
          · exact .inl (.inl hfirst)
          · exact .inr hnew.symm
          · exact .inl (.inr hshared)
        · rintro ((hfirst | hshared) | hnew)
          · exact .inl hfirst
          · exact .inr (.inr hshared)
          · exact .inr (.inl hnew.symm)
    · rw [List.append_nil]
      exact hold

/-- One step: a declaration is added iff it can be merged with those before it. -/
theorem addDeclared_step {decl : List (String × Entry)} {st : Staging} {item : String × Entry}
    (h : Holds decl st) (hmergeable : AllMergeable decl) (hapart : ∀ other ∈ decl, Apart other item) :
    (AllMergeable (decl ++ [item]) ∧
      ∃ st', addDeclared st item = .ok st' ∧ Holds (decl ++ [item]) st') ∨
    (¬ AllMergeable (decl ++ [item]) ∧ ∃ e, addDeclared st item = .error e) := by
  obtain ⟨path, entry⟩ := item
  rw [allMergeable_concat hmergeable]
  unfold addDeclared addEntry
  dsimp only
  cases hprior : st.entries.get path with
  | none =>
    left
    refine ⟨.inl ?_, _, rfl, h.add hprior⟩
    rw [← List.head?_eq_none_iff, ← h.first, hprior]
  | some prior =>
    have hfirst : (declarationsOf decl path).head? = some prior := by rw [← h.first, hprior]
    by_cases hkinds : prior.kind = .directory ∧ entry.kind = .directory
    · left
      refine ⟨.inr ⟨prior, hfirst, hkinds⟩, _, ?_, h.share hprior⟩
      exact if_pos ⟨rfl, hkinds⟩
    · right
      constructor
      · rintro (hnil | ⟨prior', hprior', hkinds'⟩)
        · rw [hnil] at hfirst
          cases hfirst
        · rw [hfirst, Option.some.injEq] at hprior'
          exact hkinds (hprior' ▸ hkinds')
      · -- the earlier declaration comes from another mapping
        have hother : prior.owner ≠ entry.owner :=
          hapart (path, prior) (mem_declarationsOf.1 (List.mem_of_mem_head? hfirst)) rfl
        have hmerge : ¬ (true = true ∧ prior.kind = .directory ∧ entry.kind = .directory) :=
          fun hm => hkinds hm.2
        refine ⟨.valueError ("exact staged collision at '" ++ path ++ "'"), (if_neg hmerge).trans ?_⟩
        rw [raiseIf, if_pos hother, error_bind]

/-- The whole run: the declarations are added iff all of them can be merged. -/
theorem addDeclared_run : ∀ {rest decl : List (String × Entry)} {st : Staging},
    Holds decl st → AllMergeable decl → (decl ++ rest).Pairwise Apart →
      (AllMergeable (decl ++ rest) ∧
        ∃ st', rest.foldlM addDeclared st = .ok st' ∧ Holds (decl ++ rest) st') ∨
      (¬ AllMergeable (decl ++ rest) ∧ ∃ e, rest.foldlM addDeclared st = .error e)
  | [], decl, st, h, hmergeable, _ => by
    rw [List.append_nil]
    exact .inl ⟨hmergeable, st, rfl, h⟩
  | item :: rest, decl, st, h, hmergeable, hapart => by
    have hfresh : ∀ other ∈ decl, Apart other item := fun other hother =>
      (List.pairwise_append.1 hapart).2.2 other hother item List.mem_cons_self
    have hsplit : decl ++ item :: rest = decl ++ [item] ++ rest := by simp
    rw [hsplit] at hapart ⊢
    rcases addDeclared_step h hmergeable hfresh with ⟨hitem, st₁, hst₁, hholds⟩ | ⟨hitem, e, he⟩
    · rw [List.foldlM_cons, hst₁, ok_bind]
      exact addDeclared_run hholds hitem hapart
    · right
      refine ⟨fun hall => hitem hall.left, e, ?_⟩
      rw [List.foldlM_cons, he, error_bind]

theorem addDeclared_declared {host : Host} {mappings : List Mapping}
    (howners : (mappings.filterMap ownerOf).Nodup) :
    (AllMergeable (declared host mappings) ∧ ∃ st,
      (declared host mappings).foldlM addDeclared ⟨[], [], []⟩ = .ok st ∧
        Holds (declared host mappings) st) ∨
    (¬ AllMergeable (declared host mappings) ∧ ∃ e,
      (declared host mappings).foldlM addDeclared ⟨[], [], []⟩ = .error e) := by
  have hempty : AllMergeable [] := fun _ => .inl (Nat.zero_le _)
  exact @addDeclared_run (declared host mappings) [] _ Holds.nil hempty (declared_apart howners)

theorem addMappings_ok {host : Host} {mappings : List Mapping}
    (howners : (mappings.filterMap ownerOf).Nodup) {st : Staging}
    (h : mappings.foldlM (addMapping host true) ⟨[], [], []⟩ = .ok st) :
    (∀ m ∈ mappings, Declares host m) ∧ AllMergeable (declared host mappings) ∧
      Holds (declared host mappings) st := by
  obtain ⟨hdeclares, hrun⟩ := addMappings_merge.1 h
  rcases @addDeclared_declared host _ howners with ⟨hall, st', hst', hholds⟩ | ⟨-, e, he⟩
  · rw [hrun, Except.ok.injEq] at hst'
    exact ⟨hdeclares, hall, hst' ▸ hholds⟩
  · rw [hrun] at he
    cases he

theorem exists_addMappings {host : Host} {mappings : List Mapping}
    (howners : (mappings.filterMap ownerOf).Nodup) (hdeclares : ∀ m ∈ mappings, Declares host m)
    (hmergeable : AllMergeable (declared host mappings)) :
    ∃ st, mappings.foldlM (addMapping host true) ⟨[], [], []⟩ = .ok st ∧
      Holds (declared host mappings) st := by
  rcases @addDeclared_declared host _ howners with ⟨-, st, hst, hholds⟩ | ⟨hnot, -⟩
  · exact ⟨st, addMappings_merge.2 ⟨hdeclares, hst⟩, hholds⟩
  · exact absurd hmergeable hnot

/-! ## Two orders -/

/-- The same entry, or two directories. -/
def Alike (a b : Option Entry) : Prop :=
  a = b ∨ ∃ e e', a = some e ∧ b = some e' ∧ e.kind = .directory ∧ e'.kind = .directory

theorem Mergeable.alike {l l' : List Entry} (h : Mergeable l) (hperm : l.Perm l') :
    Alike l.head? l'.head? := by
  rcases h with hlength | hall
  · left
    match l, hlength with
    | [], _ => rw [List.nil_perm.1 hperm]
    | [e], _ => rw [List.singleton_perm.1 hperm]
  · cases l with
    | nil =>
      rw [List.nil_perm.1 hperm]
      exact .inl rfl
    | cons e l =>
      cases l' with
      | nil => exact absurd hperm.symm (List.nil_perm.not.2 (by simp))
      | cons e' l' =>
        exact .inr ⟨e, e', rfl, rfl, hall e List.mem_cons_self,
          hall e' (hperm.mem_iff.2 List.mem_cons_self)⟩

/-- Two tables that the layout check cannot tell apart. -/
structure SameTables (st st' : Staging) : Prop where
  keys : st.entries.keys.Perm st'.entries.keys
  alike : ∀ path, Alike (st.entries.get path) (st'.entries.get path)
  contributes : ∀ path owner, Contributes st path owner ↔ Contributes st' path owner

theorem Holds.sameTables {decl decl' : List (String × Entry)} {st st' : Staging}
    (h : Holds decl st) (h' : Holds decl' st') (hperm : decl.Perm decl') (hmergeable : AllMergeable decl) :
    SameTables st st' := by
  have hdecl : ∀ path, (declarationsOf decl path).Perm (declarationsOf decl' path) :=
    fun path => hperm.filterMap _
  have halike : ∀ path, Alike (st.entries.get path) (st'.entries.get path) := by
    intro path
    rw [h.first, h'.first]
    exact (hmergeable path).alike (hdecl path)
  refine ⟨(List.perm_ext_iff_of_nodup h.nodup h'.nodup).2 fun path => ?_, halike, fun path owner => ?_⟩
  · rw [← Dict.get_isSome, ← Dict.get_isSome]
    rcases halike path with heq | ⟨e, e', he, he', -, -⟩
    · rw [heq]
    · rw [he, he']
      rfl
  · rw [h.contributes, h'.contributes]
    simp only [(hdecl path).mem_iff]

section
variable {st st' : Staging} (h : SameTables st st')
include h

theorem SameTables.checkStagedSymlink (path : String) (entry : Entry) :
    checkStagedSymlink st.entries st.sharedOwners path entry =
      checkStagedSymlink st'.entries st'.sharedOwners path entry := by
  unfold StageInputs.checkStagedSymlink
  dsimp only
  generalize joinSlash (PosixPath.parse (normpath
    ((PosixPath.parse path).parent.join (entry.linkTarget.getD "")).str)).parts = target
  have hcontributes := h.contributes target entry.owner
  unfold Contributes at hcontributes
  congr 1
  funext _
  rcases h.alike target with heq | ⟨e, e', he, he', -, -⟩
  · rw [heq] at hcontributes ⊢
    cases htarget : st'.entries.get target with
    | none => rfl
    | some e =>
      rw [htarget] at hcontributes
      refine raiseIf_congr ?_ _
      simpa [not_or] using not_congr hcontributes
  · rw [he, he'] at hcontributes ⊢
    refine raiseIf_congr ?_ _
    simpa [not_or] using not_congr hcontributes

theorem SameTables.checkPaths : ∀ paths : List String,
    checkPaths st.entries st.sharedOwners paths = checkPaths st'.entries st'.sharedOwners paths
  | [] => rfl
  | path :: rest => by
    rw [StageInputs.checkPaths, StageInputs.checkPaths, SameTables.checkPaths rest]
    rcases h.alike path with heq | ⟨e, e', he, he', hkind, hkind'⟩
    · rw [heq]
      cases st'.entries.get path with
      | none => rfl
      | some entry => simp only [h.checkStagedSymlink path entry]
    · rw [he, he']
      simp only [hkind, hkind', checkIf, reduceCtorEq, if_false]

theorem SameTables.checkLayout :
    checkLayout st.entries st.sharedOwners = checkLayout st'.entries st'.sharedOwners := by
  have hsorted : st.entries.keys.insertionSort (· ≤ ·) = st'.entries.keys.insertionSort (· ≤ ·) :=
    insertionSort_perm h.keys fun _ _ _ _ => le_antisymm
  rw [StageInputs.checkLayout, StageInputs.checkLayout, hsorted, h.checkPaths]

end

/-- Two tables stage the same paths, and for every path the same kind, the same link and, except
    for a directory, the same source. -/
structure SameTree (entries entries' : Dict String Entry) : Prop where
  paths : entries.keys.Perm entries'.keys
  same : ∀ path e e', entries.get path = some e → entries'.get path = some e' →
    e.kind = e'.kind ∧ e.linkTarget = e'.linkTarget ∧ (e.kind ≠ .directory → e.source = e'.source)

theorem manifest_reorder {host : Host} {mappings mappings' : List Mapping}
    (hperm : mappings.Perm mappings') (howners : (mappings.filterMap ownerOf).Nodup)
    {entries : Dict String Entry} (h : manifest host mappings true = .ok entries) :
    ∃ entries', manifest host mappings' true = .ok entries' ∧ SameTree entries entries' := by
  simp only [manifest, bind_eq_ok, exists_unit, pure_eq_ok] at h
  obtain ⟨st, hst, hlayout, rfl⟩ := h
  obtain ⟨hdeclares, hmergeable, hholds⟩ := addMappings_ok howners hst
  have hdecl : (declared host mappings).Perm (declared host mappings') := hperm.flatMap_right _
  have hmergeable' : AllMergeable (declared host mappings') := by
    intro path
    have hpath : (declarationsOf (declared host mappings) path).Perm
        (declarationsOf (declared host mappings') path) := hdecl.filterMap _
    rcases hmergeable path with hlength | hall
    · exact .inl (hpath.length_eq ▸ hlength)
    · exact .inr fun e he => hall e (hpath.mem_iff.2 he)
  obtain ⟨st', hst', hholds'⟩ := exists_addMappings ((hperm.filterMap _).nodup_iff.1 howners)
    (fun m hm => hdeclares m (hperm.mem_iff.2 hm)) hmergeable'
  have hsame := hholds.sameTables hholds' hdecl hmergeable
  refine ⟨st'.entries, ?_, hsame.keys, fun path e e' he he' => ?_⟩
  · simp only [manifest, bind_eq_ok, exists_unit, pure_eq_ok]
    exact ⟨st', hst', by rw [← hsame.checkLayout, hlayout], rfl⟩
  · rcases hsame.alike path with heq | ⟨d, d', hd, hd', hkind, hkind'⟩
    · obtain rfl : e = e' := Option.some.inj (he.symm.trans (heq.trans he'))
      exact ⟨rfl, rfl, fun _ => rfl⟩
    · -- directories have no link
      rw [hd, Option.some.injEq] at he
      rw [hd', Option.some.injEq] at he'
      subst he he'
      have hlink : ∀ {decl : List (String × Entry)} {st : Staging} {e : Entry}, Holds decl st →
          st.entries.get path = some e → (path, e) ∈ decl := by
        intro decl st e hholds hget
        rw [hholds.first] at hget
        exact mem_declarationsOf.1 (List.mem_of_mem_head? hget)
      refine ⟨hkind.trans hkind'.symm, ?_, fun hne => absurd hkind hne⟩
      rw [declared_linkTarget (hlink hholds hd) hkind, declared_linkTarget (hlink hholds' hd') hkind']

/-- **Merging is order independent.**  Mappings of different owners are accepted in every order or
    in none, and every order stages the same tree. -/
theorem manifest_perm {host : Host} {mappings mappings' : List Mapping}
    (hperm : mappings.Perm mappings') (howners : (mappings.filterMap ownerOf).Nodup) :
    ((∃ entries, manifest host mappings true = .ok entries) ↔
      ∃ entries', manifest host mappings' true = .ok entries') ∧
    ∀ entries entries', manifest host mappings true = .ok entries →
      manifest host mappings' true = .ok entries' → SameTree entries entries' := by
  have howners' : (mappings'.filterMap ownerOf).Nodup := (hperm.filterMap _).nodup_iff.1 howners
  refine ⟨⟨?_, ?_⟩, fun entries entries' h h' => ?_⟩
  · rintro ⟨entries, h⟩
    obtain ⟨entries', h', -⟩ := manifest_reorder hperm howners h
    exact ⟨entries', h'⟩
  · rintro ⟨entries', h'⟩
    obtain ⟨entries, h, -⟩ := manifest_reorder hperm.symm howners' h'
    exact ⟨entries, h⟩
  · obtain ⟨entries'', h'', hsame⟩ := manifest_reorder hperm howners h
    rw [h', Except.ok.injEq] at h''
    exact h'' ▸ hsame

/-- Two configuration trees that share the directory `d`; `b` has a link to it. -/
def mergeHost : Host where
  node
    | "a" | "/w/a" => some (.directory [("d", .directory [("x", .file)])])
    | "b" | "/w/b" => some (.directory [("d", .directory []), ("l", .symlink "d")])
    | "/w/b/d" => some (.directory [])
    | _ => none
  resolve
    | "a" => "/w/a"
    | "b" => "/w/b"
    | "/w/b/l" => "/w/b/d"
    | path => path

def treeA : Mapping := ⟨"a", ".", .tree⟩

def treeB : Mapping := ⟨"b", ".", .tree⟩

/-- The table of `a` and `b` in this order. -/
def tableAB : Dict String Entry :=
  [("d", ⟨"a -> .", .directory, "/w/a/d", none⟩), ("d/x", ⟨"a -> .", .file, "/w/a/d/x", none⟩),
    ("l", ⟨"b -> .", .symlink, "/w/b/l", some "d"⟩)]

def tableBA : Dict String Entry :=
  [("d", ⟨"b -> .", .directory, "/w/b/d", none⟩), ("l", ⟨"b -> .", .symlink, "/w/b/l", some "d"⟩),
    ("d/x", ⟨"a -> .", .file, "/w/a/d/x", none⟩)]

/-- The link is accepted in both orders, whichever mapping the table names for `d`. -/
theorem manifest_perm_shared :
    (∃ entries, manifest mergeHost [treeB, treeA] true = .ok entries) ∧ SameTree tableAB tableBA := by
  have hab : manifest mergeHost [treeA, treeB] true = .ok tableAB := by decide +kernel
  have hba : manifest mergeHost [treeB, treeA] true = .ok tableBA := by decide +kernel
  have h := @manifest_perm mergeHost [treeA, treeB] [treeB, treeA] (by decide) (by decide +kernel)
  exact ⟨h.1.1 ⟨tableAB, hab⟩, h.2 tableAB tableBA hab hba⟩

end RulesMkosi.StageInputs
