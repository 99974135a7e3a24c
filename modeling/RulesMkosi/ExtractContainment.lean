/-
  The links of an extracted tree stay below its root.

  No step before the last one makes a link, and no step removes a directory.  So the
  links of the extracted tree are the symbolic links of the archive, each below real
  directories, and the tree realizes the table of links over which they were resolved.
-/
import RulesMkosi.ExtractTree

namespace RulesMkosi.ExtractTree

open FileTree

/-! ## Paths of members -/

theorem names_of_memberPath {name : Str} {kind : String} {p : Path}
    (h : memberPath name kind = .ok p) : Names p := by
  simp only [memberPath] at h
  split_ifs at h with habsolute hroot hunsafe
  · cases h
    exact fun c hc => absurd hc List.not_mem_nil
  · cases h
    intro c hc
    have hpart : isUnsafePart c = false := by
      rw [not_or, Bool.not_eq_true, List.any_eq_false] at hunsafe
      simpa using hunsafe.2 c hc
    have hmem : c ∈ components (stripDots name) := by
      simp only [memberParts] at hc
      split_ifs at hc
      · exact List.dropLast_subset _ hc
      · exact hc
    simp only [isUnsafePart, decide_eq_false_iff_not, not_or] at hpart
    exact ⟨hpart.1, hpart.2.1, hpart.2.2, no_slash_of_mem_components hmem⟩

/-- The members of an index have distinct paths of names. -/
structure Indexed (index : Dict Path Member) : Prop where
  nodup : index.keys.Nodup
  names : ∀ p ∈ index.keys, Names p ∧ p ≠ []

theorem indexed_nil : Indexed [] := ⟨List.nodup_nil, fun _ h => absurd h List.not_mem_nil⟩

theorem indexed_indexMember {index index' : Dict Path Member} {member : Member}
    (hindex : Indexed index) (h : indexMember index member = .ok index') : Indexed index' := by
  simp only [indexMember, bind_eq_ok] at h
  obtain ⟨relative, hrelative, h⟩ := h
  split_ifs at h with hroot
  · rw [pure_eq_ok] at h
    exact h ▸ hindex
  · simp only [bind_eq_ok, pure_eq_ok] at h
    obtain ⟨-, -, rfl⟩ := h
    refine ⟨Dict.nodup_keys_set hindex.nodup, fun p hp => ?_⟩
    rcases Dict.mem_keys_set.1 hp with rfl | hp
    · exact ⟨names_of_memberPath hrelative, hroot⟩
    · exact hindex.names p hp

theorem indexed_indexMembers {source : List Member} {index : Dict Path Member}
    (h : indexMembers source = .ok index) : Indexed index :=
  foldlM_mem_inv Indexed (fun _ _ _ _ => indexed_indexMember) indexed_nil h

/-- The members of one kind. -/
theorem get_ofKind {index : Dict Path Member} (hindex : Indexed index) {kind : Kind} {p : Path}
    {member : Member} :
    (ofKind kind index).get p = some member ↔ index.get p = some member ∧ member.kind = kind := by
  have hsub : (ofKind kind index).Sublist index := List.filter_sublist
  have hnodup : (ofKind kind index).keys.Nodup := hindex.nodup.sublist (hsub.map _)
  constructor
  · intro h
    obtain ⟨hmem, hkind⟩ := List.mem_filter.1 (Dict.mem_of_get h)
    exact ⟨Dict.get_of_mem hindex.nodup hmem, by simpa using hkind⟩
  · rintro ⟨h, hkind⟩
    refine Dict.get_of_mem hnodup (List.mem_filter.2 ⟨Dict.mem_of_get h, ?_⟩)
    simpa using hkind

theorem linknameAt_eq_some {index : Dict Path Member} (hindex : Indexed index) {p : Path}
    {linkname : Str} :
    linknameAt index p = some linkname ↔
      ∃ member, (ofKind .symlink index).get p = some member ∧ member.linkname = linkname := by
  simp only [linknameAt, Option.bind_eq_some_iff, get_ofKind hindex, Option.ite_none_right_eq_some,
    Option.some.injEq, and_assoc]

theorem lookup_eq_ok {ν : Type} {table : Dict Path ν} {p : Path} {value : ν} :
    lookup table p = .ok value ↔ table.get p = some value := by
  unfold lookup
  split
  · next v hv => rw [hv, Except.ok.injEq, Option.some.injEq]
  · next hv => simp [hv]

theorem mem_sortBy {α : Type} {rank : α → ℕ} {path : α → Path} {items : List α} {a : α} :
    a ∈ sortBy rank path items ↔ a ∈ items :=
  List.mem_insertionSort _

/-! ## The steps before the links -/

section Regular
open FileTree.Tree

variable {t t' : Tree} {relative : Path}

theorem keeps_parentLoop : ∀ {parts : List Str} {t : Tree} {parent : Path},
    parentLoop relative t parent parts = .ok t' → Keeps t t'
  | [], t, _, h => by
    cases h
    exact Keeps.refl _
  | part :: parts, t, parent, h => by
    rw [parentLoop] at h
    split at h
    · exact keeps_parentLoop h
    · cases h
    · obtain ⟨t₁, h₁, h⟩ := bind_eq_ok.1 h
      exact (keeps_mkdir h₁).trans (keeps_parentLoop h)

theorem keeps_parent (h : parent t relative = .ok t') : Keeps t t' := keeps_parentLoop h

/-- The directories above a path are there, and no link is among them. -/
theorem allDirs_parentLoop : ∀ {parts : List Str} {t : Tree} {parent : Path},
    Names (parent ++ parts) → AllDirs t parent → parentLoop relative t parent parts = .ok t' →
    AllDirs t' (parent ++ parts)
  | [], t, parent, _, hdirs, h => by
    cases h
    rwa [List.append_nil]
  | part :: parts, t, parent, hnames, hdirs, h => by
    rw [List.append_cons] at hnames ⊢
    have hparent : Names parent := fun c hc => hnames c (by simp [hc])
    rw [parentLoop] at h
    split at h
    · next hlstat =>
      rw [lstat_of_allDirs hparent hdirs] at hlstat
      exact allDirs_parentLoop hnames (allDirs_concat hdirs hlstat) h
    · cases h
    · obtain ⟨t₁, h₁, h⟩ := bind_eq_ok.1 h
      have hdirs₁ : AllDirs t₁ (parent ++ [part]) := by
        refine allDirs_concat (hdirs.mono (keeps_mkdir h₁).dir) ?_
        obtain ⟨q, hq, -, hne, rfl⟩ := addEntry_eq_ok h₁
        rw [entry_of_allDirs hparent hdirs] at hq
        cases hq
        rw [node_set hne, if_pos rfl]
      exact allDirs_parentLoop hnames hdirs₁ h

theorem allDirs_parent (hnames : Names relative) (h : parent t relative = .ok t') :
    AllDirs t' relative.dropLast := by
  have hparts : Names ([] ++ relative.dropLast) := fun c hc => hnames c (List.dropLast_subset _ hc)
  exact allDirs_parentLoop hparts allDirs_nil h

theorem keeps_materializeDirectory (h : materializeDirectory t relative = .ok t') : Keeps t t' := by
  simp only [materializeDirectory, bind_eq_ok] at h
  obtain ⟨t₁, h₁, -, -, h⟩ := h
  split_ifs at h
  · exact (keeps_parent h₁).trans (keeps_mkdir h)
  · rw [pure_eq_ok] at h
    exact h ▸ keeps_parent h₁

theorem keeps_materializeFile {member : Member} (h : materializeFile t relative member = .ok t') :
    Keeps t t' := by
  simp only [materializeFile, bind_eq_ok] at h
  obtain ⟨t₁, h₁, -, -, h⟩ := h
  exact (keeps_parent h₁).trans (keeps_writeFile h)

theorem keeps_materializeMember {item : Path × Member} (h : materializeMember t item = .ok t') :
    Keeps t t' := by
  unfold materializeMember at h
  split at h
  · exact keeps_materializeDirectory h
  · exact keeps_materializeFile h
  · cases h; exact Keeps.refl t
  · cases h; exact Keeps.refl t
  · cases h

/-- A loop whose iterations keep the directories and add no link. -/
theorem keeps_foldlM {β : Type} {f : Tree → β → Except Exn Tree} {items : List β}
    (hf : ∀ {t t' item}, f t item = .ok t' → Keeps t t') (h : items.foldlM f t = .ok t') :
    Keeps t t' :=
  foldlM_mem_inv (Keeps t) (fun _ _ _ _ hkeep hstep => hkeep.trans (hf hstep)) (Keeps.refl t) h

theorem keeps_writeCaBundle (h : writeCaBundle t = .ok t') : Keeps t t' := by
  simp only [writeCaBundle] at h
  split_ifs at h
  · cases h; exact Keeps.refl t
  · obtain ⟨t₁, h₁, h⟩ := bind_eq_ok.1 h
    exact (keeps_parent h₁).trans (keeps_writeFile h)

theorem keeps_materializeRuntimeLinkTarget
    (h : materializeRuntimeLinkTarget t relative = .ok t') : Keeps t t' := by
  unfold materializeRuntimeLinkTarget at h
  split_ifs at h
  · obtain ⟨t₁, h₁, h⟩ := bind_eq_ok.1 h
    exact (keeps_parent h₁).trans (keeps_writeFile h)
  · cases h; exact Keeps.refl t

theorem keeps_materializeMarker (h : materializeMarker t relative = .ok t') : Keeps t t' := by
  unfold materializeMarker at h
  split_ifs at h
  · cases h; exact Keeps.refl t
  · exact keeps_writeFile h
  · cases h; exact Keeps.refl t

theorem keeps_materializeEmptyDirectorySymlinkTargets {symlinks : Dict Path Member}
    (h : materializeEmptyDirectorySymlinkTargets t symlinks = .ok t') : Keeps t t' := by
  refine keeps_foldlM ?_ h
  intro t t' entry h
  split_ifs at h
  · exact keeps_materializeMarker h
  · cases h; exact Keeps.refl t

theorem keeps_createHardlink {hardlinks index : Dict Path Member} {frames : ℕ}
    {s s' : HardlinkGraph × Tree} (h : createHardlink hardlinks index frames s relative = .ok s') :
    Keeps s.2 s'.2 := by
  simp only [createHardlink, bind_eq_ok, pure_eq_ok] at h
  obtain ⟨_, -, t₁, h₁, -, -, t₂, h₂, rfl⟩ := h
  exact (keeps_parent h₁).trans (keeps_hardlink h₂)

theorem keeps_resolveHardlinkGraph {hardlinks index : Dict Path Member} {frames : ℕ}
    (h : resolveHardlinkGraph hardlinks index frames t = .ok t') : Keeps t t' := by
  simp only [resolveHardlinkGraph, bind_eq_ok, pure_eq_ok] at h
  obtain ⟨s, hs, rfl⟩ := h
  refine foldlM_mem_inv (fun s : HardlinkGraph × Tree => Keeps t s.2) ?_ (Keeps.refl t) hs
  exact fun _ _ _ _ hkeep hstep => hkeep.trans (keeps_createHardlink hstep)

/-- **No link before the links.**  The steps up to the symbolic links make none. -/
theorem extractMembers_eq_ok {frames : ℕ} {source : List Member}
    (h : extractMembers frames source t = .ok t') :
    ∃ index t₀, indexMembers source = .ok index ∧ Keeps t t₀ ∧
      resolveSymlinkGraph (ofKind .symlink index) index frames t₀ = .ok t' := by
  simp only [extractMembers, bind_eq_ok] at h
  obtain ⟨index, hindex, t₁, h₁, t₂, h₂, t₃, h₃, t₄, h₄, t₅, h₅, h⟩ := h
  refine ⟨index, t₅, hindex, ?_, h⟩
  calc Keeps t t₁ := keeps_foldlM keeps_materializeMember h₁
    Keeps t₁ t₂ := keeps_writeCaBundle h₂
    Keeps t₂ t₃ := keeps_foldlM keeps_materializeRuntimeLinkTarget h₃
    Keeps t₃ t₄ := keeps_materializeEmptyDirectorySymlinkTargets h₄
    Keeps t₄ t₅ := keeps_resolveHardlinkGraph h₅

end Regular

/-! ## The resolution of a link -/

section Resolution
variable {symlinks index : Dict Path Member} {relative : Path}

/-- One round: what the rest of the loop resolves, the state before it resolves too. -/
theorem resolves_of_expandComponent {s s' : Expansion} {component : Str} {rest : List Str} {f : Path}
    (hslash : '/' ∉ component) (hfree : LinkFree (linknameAt index) s.resolved)
    (h : expandComponent symlinks index relative s component rest = .ok s')
    (hf : Resolves (linknameAt index) s'.resolved s'.components f) :
    Resolves (linknameAt index) s.resolved (component :: rest) f := by
  unfold expandComponent at h
  split_ifs at h with hskip hdots hroot
  · cases h
    exact .skip hskip hf
  · cases h
    subst hdots
    exact .up hroot hf
  · have hname : IsName component :=
      ⟨fun h => hskip (.inl h), fun h => hskip (.inr h), hdots, hslash⟩
    split at h
    · next hnone =>
      cases h
      exact .step hname hnone hf
    · next linkname hsome =>
      simp only [expandLink, bind_eq_ok, pure_eq_ok] at h
      obtain ⟨-, -, -, -, rfl⟩ := h
      refine .follow hname hsome ?_
      simp only [rawLinkComponents, linkStart, List.dropLast_concat] at hf ⊢
      split_ifs at hf ⊢ with habsolute
      · exact hf
      · -- the directory of the link is resolved again, and leads to itself
        rwa [List.append_assoc, hfree.resolves.append_iff] at hf

theorem linkFree_of_expandComponent {s s' : Expansion} {component : Str} {rest : List Str}
    (hslash : '/' ∉ component) (hfree : LinkFree (linknameAt index) s.resolved)
    (h : expandComponent symlinks index relative s component rest = .ok s') :
    LinkFree (linknameAt index) s'.resolved := by
  unfold expandComponent at h
  split_ifs at h with hskip hdots hroot
  · cases h
    exact hfree
  · cases h
    exact hfree.dropLast
  · split at h
    · next hnone =>
      cases h
      exact hfree.concat ⟨fun h => hskip (.inl h), fun h => hskip (.inr h), hdots, hslash⟩ hnone
    · simp only [expandLink, bind_eq_ok, pure_eq_ok] at h
      obtain ⟨-, -, -, -, rfl⟩ := h
      exact linkFree_nil

theorem no_slash_rawLinkComponents {linkname : Str} (h : ∀ c ∈ relative, '/' ∉ c) :
    ∀ c ∈ rawLinkComponents relative linkname, '/' ∉ c := by
  intro c hc
  unfold rawLinkComponents at hc
  split_ifs at hc
  · exact no_slash_of_mem_components hc
  · rcases List.mem_append.1 hc with hc | hc
    · exact h c (List.dropLast_subset _ hc)
    · exact no_slash_of_mem_components hc

theorem no_slash_of_expandComponent {s s' : Expansion} {component : Str} {rest : List Str}
    (hslash : ∀ c ∈ component :: rest, '/' ∉ c) (hfree : LinkFree (linknameAt index) s.resolved)
    (h : expandComponent symlinks index relative s component rest = .ok s') :
    ∀ c ∈ s'.components, '/' ∉ c := by
  obtain ⟨hcomponent, hrest⟩ := List.forall_mem_cons.1 hslash
  unfold expandComponent at h
  split_ifs at h with hskip hdots hroot
  · cases h
    exact hrest
  · cases h
    exact hrest
  · split at h
    · cases h
      exact hrest
    · simp only [expandLink, bind_eq_ok, pure_eq_ok] at h
      obtain ⟨-, -, -, -, rfl⟩ := h
      intro c hc
      rcases List.mem_append.1 hc with hc | hc
      · refine no_slash_rawLinkComponents ?_ c hc
        intro d hd
        rcases List.mem_append.1 hd with hd | hd
        · exact (hfree.names d hd).no_slash
        · rwa [List.mem_singleton.1 hd]
      · exact hrest c hc

/-- The loop resolves its components. -/
theorem resolves_of_resolveLoop {result : Path × List Path} : ∀ {rounds : ℕ} {s : Expansion},
    (∀ c ∈ s.components, '/' ∉ c) → LinkFree (linknameAt index) s.resolved →
    resolveLoop symlinks index relative rounds s = .ok result →
    Resolves (linknameAt index) s.resolved s.components result.1
  | rounds, s, hslash, hfree, h => by
    unfold resolveLoop at h
    split at h
    · next hnil =>
      cases h
      rw [hnil]
      exact .done
    · cases h
    · next component rest rounds hcons =>
      obtain ⟨s', hs', h⟩ := bind_eq_ok.1 h
      rw [hcons] at hslash ⊢
      have hcomponent := hslash component List.mem_cons_self
      have hloop := resolves_of_resolveLoop (no_slash_of_expandComponent hslash hfree hs')
        (linkFree_of_expandComponent hcomponent hfree hs') h
      exact resolves_of_expandComponent hcomponent hfree hs' hloop

/-- **What `_resolve_link_path` computes.** -/
theorem resolves_of_resolveLinkPath {result : Path × List Path} (hnames : Names relative)
    (h : resolveLinkPath symlinks index relative = .ok result) :
    ∃ member, symlinks.get relative = some member ∧
      Resolves (linknameAt index) [] (rawLinkComponents relative member.linkname) result.1 := by
  obtain ⟨member, hmember, h⟩ := bind_eq_ok.1 h
  refine ⟨member, lookup_eq_ok.1 hmember, ?_⟩
  exact resolves_of_resolveLoop
    (no_slash_rawLinkComponents fun c hc => (hnames c hc).no_slash) linkFree_nil h

end Resolution

/-! ## The links that are created -/

section Creation
open FileTree.Tree

variable {symlinks index : Dict Path Member} {resolved : Dict Path Path}

/-- A resolved target is the result of `_resolve_link_path`. -/
def Computed (symlinks index : Dict Path Member) (resolved : Dict Path Path) : Prop :=
  ∀ p target, resolved.get p = some target →
    ∃ direct, resolveLinkPath symlinks index p = .ok (target, direct)

theorem computed_visitSymlink {t : Tree} : ∀ {frames : ℕ} {graph graph' : SymlinkGraph} {p : Path},
    Computed symlinks index graph.resolved →
    visitSymlink symlinks index t frames graph p = .ok graph' →
    Computed symlinks index graph'.resolved
  | 0, _, _, _, _, h => by cases h
  | frames + 1, graph, graph', p, hgraph, h => by
    rw [visitSymlink] at h
    split at h
    · cases h
    · cases h
      exact hgraph
    · simp only [bind_eq_ok, pure_eq_ok] at h
      obtain ⟨⟨target, direct⟩, hresult, graph₁, hfold, -, -, rfl⟩ := h
      have h₁ : Computed symlinks index graph₁.resolved := by
        refine foldlM_mem_inv (fun g : SymlinkGraph => Computed symlinks index g.resolved) ?_ ?_ hfold
        · exact fun _ _ _ _ hg hvisit => computed_visitSymlink hg hvisit
        · exact hgraph
      intro q target' hq
      dsimp only at hq
      rw [Dict.get_set] at hq
      split_ifs at hq with hpq
      · cases hq
        exact ⟨direct, hpq ▸ hresult⟩
      · exact h₁ q target' hq

theorem computed_validateSymlinkGraph {t : Tree} {frames : ℕ} {dependencies : Dict Path (List Path)}
    (h : validateSymlinkGraph symlinks index frames t = .ok (resolved, dependencies)) :
    Computed symlinks index resolved := by
  simp only [validateSymlinkGraph, bind_eq_ok, pure_eq_ok] at h
  obtain ⟨graph, hgraph, heq⟩ := h
  cases heq
  refine foldlM_mem_inv (fun g : SymlinkGraph => Computed symlinks index g.resolved) ?_ ?_ hgraph
  · exact fun _ _ _ _ hg hvisit => computed_visitSymlink hg hvisit
  · intro p target hp
    cases hp

/-- The text that is written for a link. -/
def TextOf (symlinks : Dict Path Member) (resolved : Dict Path Path) (p : Path) (text : Str) :
    Prop :=
  ∃ member target, symlinks.get p = some member ∧ resolved.get p = some target ∧
    text = linkText p member.linkname target

/-- The links after those of `created` are made. -/
structure Created (symlinks : Dict Path Member) (resolved : Dict Path Path) (created : List Path)
    (t : Tree) : Prop where
  made : ∀ p ∈ created, ∃ text, TextOf symlinks resolved p text
  link : ∀ p text, t.node p = some (.link text) ↔ p ∈ created ∧ TextOf symlinks resolved p text
  dirs : ∀ p ∈ created, AllDirs t p.dropLast

theorem created_createSymlink {t t' : Tree} {created : List Path} {relative : Path}
    (hnames : Names relative) (hne : relative ≠ []) (hcreated : Created symlinks resolved created t)
    (h : createSymlink symlinks resolved t relative = .ok t') :
    Created symlinks resolved (created ++ [relative]) t' := by
  simp only [createSymlink, bind_eq_ok, lookup_eq_ok] at h
  obtain ⟨member, hmember, t₁, h₁, -, -, target, htarget, h⟩ := h
  have hkeep := keeps_parent h₁
  have hdirs := allDirs_parent hnames h₁
  have hparent : Names relative.dropLast := fun c hc => hnames c (List.dropLast_subset _ hc)
  obtain ⟨hnone, ht'⟩ : t₁.node relative = none ∧
      t' = t₁.set relative (.link (linkText relative member.linkname target)) := by
    obtain ⟨q, c, rfl⟩ := (List.eq_nil_or_concat' relative).resolve_left hne
    rw [List.dropLast_concat] at hdirs hparent
    exact symlink_of_allDirs hparent hdirs h
  have hnode : ∀ p, t'.node p = if relative = p then
      some (.link (linkText relative member.linkname target)) else t₁.node p := by
    intro p
    rw [ht', node_set hne]
  have hdir : ∀ p, t₁.node p = some .dir → t'.node p = some .dir := by
    intro p hp
    rw [hnode, if_neg (by rintro rfl; rw [hnone] at hp; cases hp), hp]
  refine ⟨?_, ?_, ?_⟩
  · intro p hp
    rcases List.mem_append.1 hp with hp | hp
    · exact hcreated.made p hp
    · rw [List.mem_singleton.1 hp]
      exact ⟨_, member, target, hmember, htarget, rfl⟩
  · intro p text
    rw [hnode, List.mem_append, List.mem_singleton]
    split_ifs with hp
    · subst hp
      constructor
      · intro heq
        cases heq
        exact ⟨.inr rfl, member, target, hmember, htarget, rfl⟩
      · rintro ⟨-, member', target', hmember', htarget', rfl⟩
        rw [hmember] at hmember'
        rw [htarget] at htarget'
        cases hmember'
        cases htarget'
        rfl
    · rw [hkeep.link, hcreated.link, or_iff_left (Ne.symm hp)]
  · intro p hp
    rcases List.mem_append.1 hp with hp | hp
    · exact ((hcreated.dirs p hp).mono hkeep.dir).mono hdir
    · rw [List.mem_singleton.1 hp]
      exact hdirs.mono hdir

theorem map_snd_of_depthKey {dependencies : Dict Path (List Path)} {frames : ℕ} {paths : List Path}
    {keyed : List (ℕ × Path)}
    (h : List.Forall₂ (fun p key => depthKey dependencies frames p = .ok key) paths keyed) :
    keyed.map Prod.snd = paths := by
  induction h with
  | nil => rfl
  | cons hkey _ ih =>
    simp only [depthKey, bind_eq_ok, pure_eq_ok] at hkey
    obtain ⟨d, -, rfl⟩ := hkey
    rw [List.map_cons, ih]

/-- The links are created in some order. -/
theorem resolveSymlinkGraph_eq_ok {frames : ℕ} {t t' : Tree}
    (h : resolveSymlinkGraph symlinks index frames t = .ok t') :
    ∃ resolved dependencies, ∃ order : List Path, validateSymlinkGraph symlinks index frames t =
        .ok (resolved, dependencies) ∧ (∀ p, p ∈ order ↔ p ∈ symlinks.keys) ∧
      order.foldlM (createSymlink symlinks resolved) t = .ok t' := by
  simp only [resolveSymlinkGraph, bind_eq_ok] at h
  obtain ⟨⟨resolved, dependencies⟩, hvalidate, keyed, hkeyed, h⟩ := h
  refine ⟨resolved, dependencies, _, hvalidate, ?_, h⟩
  intro p
  rw [← map_snd_of_depthKey (mapM_eq_ok.1 hkeyed)]
  simp only [List.mem_map, mem_sortBy]

/-- **The links of the extracted tree.** -/
theorem created_extractMembers {frames : ℕ} {source : List Member} {t' : Tree}
    (h : extractMembers frames source [] = .ok t') :
    ∃ index t₀ resolved dependencies, indexMembers source = .ok index ∧ Indexed index ∧
      validateSymlinkGraph (ofKind .symlink index) index frames t₀ =
        .ok (resolved, dependencies) ∧
      resolveSymlinkGraph (ofKind .symlink index) index frames t₀ = .ok t' ∧
      Computed (ofKind .symlink index) index resolved ∧
      ∃ order, (∀ p, p ∈ order ↔ p ∈ (ofKind .symlink index).keys) ∧
        Created (ofKind .symlink index) resolved order t' := by
  obtain ⟨index, t₀, hindex, hkeep, hlinks⟩ := extractMembers_eq_ok h
  have hindexed := indexed_indexMembers hindex
  obtain ⟨resolved, dependencies, order, hvalidate, horder, hloop⟩ := resolveSymlinkGraph_eq_ok hlinks
  refine ⟨index, t₀, resolved, dependencies, hindex, hindexed, hvalidate, hlinks,
    computed_validateSymlinkGraph hvalidate, order, horder, ?_⟩
  have hnames : ∀ p ∈ order, Names p ∧ p ≠ [] := by
    intro p hp
    obtain ⟨member, hmember⟩ := Dict.exists_get_of_mem_keys ((horder p).1 hp)
    exact hindexed.names p (Dict.mem_keys_of_get ((get_ofKind hindexed).1 hmember).1)
  have hinit : Created (ofKind .symlink index) resolved [] t₀ := by
    refine ⟨fun p hp => absurd hp List.not_mem_nil, ?_, fun p hp => absurd hp List.not_mem_nil⟩
    · intro p text
      rw [hkeep.link]
      constructor
      · intro hnode
        by_cases hp : p = []
        · rw [hp, node_nil] at hnode
          cases hnode
        · rw [node_of_ne hp] at hnode
          cases hnode
      · rintro ⟨hp, -⟩
        exact absurd hp List.not_mem_nil
  refine foldlM_inv (fun done t => (∀ p ∈ done, Names p ∧ p ≠ []) →
    Created (ofKind .symlink index) resolved done t) ?_ (fun _ => hinit) hloop hnames
  intro done t p t' ih hcreate hmem
  obtain ⟨hp, hne⟩ := hmem p (by simp)
  exact created_createSymlink hp hne (ih fun q hq => hmem q (by simp [hq])) hcreate

/-- The extracted tree realizes the links of its members. -/
theorem realizes_of_created (hindex : Indexed index)
    (hcomputed : Computed (ofKind .symlink index) index resolved) {order : List Path}
    (horder : ∀ p, p ∈ order ↔ p ∈ (ofKind .symlink index).keys) {t : Tree}
    (hcreated : Created (ofKind .symlink index) resolved order t) :
    Realizes (linknameAt index) t := by
  constructor
  · intro p linkname hlink
    obtain ⟨member, hmember, rfl⟩ := (linknameAt_eq_some hindex).1 hlink
    have hp := (horder p).2 (Dict.mem_keys_of_get hmember)
    obtain ⟨text, htext⟩ := hcreated.made p hp
    exact ⟨text, (hcreated.link p text).2 ⟨hp, htext⟩⟩
  · intro p text hnode
    obtain ⟨hp, member, target, hmember, htarget, rfl⟩ := (hcreated.link p text).1 hnode
    refine ⟨member.linkname, (linknameAt_eq_some hindex).2 ⟨member, hmember, rfl⟩, ?_⟩
    unfold linkText
    split_ifs with habsolute
    · obtain ⟨direct, hresult⟩ := hcomputed p target htarget
      have hnames := (hindex.names p (Dict.mem_keys_of_get ((get_ofKind hindex).1 hmember).1)).1
      obtain ⟨member', hmember', hresolves⟩ := resolves_of_resolveLinkPath hnames hresult
      rw [hmember] at hmember'
      cases hmember'
      rw [rawLinkComponents, if_pos habsolute] at hresolves
      exact .rooted habsolute hresolves
    · exact .verbatim (by simpa using habsolute)

/-- The path of a link of the tree leads to the target that was computed for it. -/
theorem resolves_of_created (hindex : Indexed index)
    (hcomputed : Computed (ofKind .symlink index) index resolved) {order : List Path} {t : Tree}
    (hcreated : Created (ofKind .symlink index) resolved order t)
    (ht : Realizes (linknameAt index) t) {p : Path} {text : Str}
    (hnode : t.node p = some (.link text)) :
    ∃ target, resolved.get p = some target ∧ Resolves (linknameAt index) [] p target := by
  obtain ⟨hp, member, target, hmember, htarget, -⟩ := (hcreated.link p text).1 hnode
  obtain ⟨hnames, hne⟩ := hindex.names p (Dict.mem_keys_of_get ((get_ofKind hindex).1 hmember).1)
  refine ⟨target, htarget, ?_⟩
  obtain ⟨direct, hresult⟩ := hcomputed p target htarget
  obtain ⟨member', hmember', hresolves⟩ := resolves_of_resolveLinkPath hnames hresult
  obtain rfl : member = member' := Option.some.inj (hmember.symm.trans hmember')
  have hdirs := hcreated.dirs p hp
  obtain ⟨q, c, rfl⟩ := (List.eq_nil_or_concat' p).resolve_left hne
  rw [List.dropLast_concat] at hdirs
  have hfree : LinkFree (linknameAt index) q := by
    refine ⟨fun d hd => hnames d (by simp [hd]), fun r hr hrne => ?_⟩
    by_contra hlink
    obtain ⟨linkname, hlinkname⟩ := Option.ne_none_iff_exists'.1 hlink
    obtain ⟨text', hlinknode⟩ := ht.node_of_link r linkname hlinkname
    rw [hdirs r hr] at hlinknode
    cases hlinknode
  have hlink : linknameAt index (q ++ [c]) = some member.linkname :=
    (linknameAt_eq_some hindex).2 ⟨member, hmember, rfl⟩
  rw [hfree.resolves.append_iff, resolves_follow (hnames c (by simp)) hlink, List.append_nil]
  unfold rawLinkComponents at hresolves
  unfold linkStart
  split_ifs at hresolves ⊢ with habsolute
  · exact hresolves
  · rwa [List.dropLast_concat, hfree.resolves.append_iff] at hresolves

/-- A walk to a link of the tree stays below the root, and what it finds is the target that
    was computed. -/
theorem reaches_of_created (hindex : Indexed index)
    (hcomputed : Computed (ofKind .symlink index) index resolved) {order : List Path}
    (horder : ∀ p, p ∈ order ↔ p ∈ (ofKind .symlink index).keys) {t : Tree}
    (hcreated : Created (ofKind .symlink index) resolved order t) {p : Path} {text : Str}
    (hnode : t.node p = some (.link text)) :
    isAbsolute text = false ∧ ∃ target, resolved.get p = some target ∧
      ∀ links, Reaches target (t.walk links [] p) := by
  have ht := realizes_of_created hindex hcomputed horder hcreated
  obtain ⟨linkname, -, htext⟩ := ht.link_of_node p text hnode
  obtain ⟨target, htarget, hresolves⟩ := resolves_of_created hindex hcomputed hcreated ht hnode
  exact ⟨not_isAbsolute_of_linkText htext, target, htarget, fun links => reaches_walk ht links hresolves⟩

end Creation

/-- **Extracted links stay below the root.**  If an archive is extracted into an empty root,
    then its symbolic links are the links of the tree.  Each is relative; its resolution over
    the tree, however many links are followed, does not leave the root, and where it succeeds
    it ends at the target that `_validate_symlink_graph` computed. -/
theorem extractMembers_contained {frames : ℕ} {source : List Member} {t : Tree}
    (h : extractMembers frames source [] = .ok t) :
    ∃ index t₀ resolved dependencies,
      indexMembers source = .ok index ∧
      validateSymlinkGraph (ofKind .symlink index) index frames t₀ =
        .ok (resolved, dependencies) ∧
      resolveSymlinkGraph (ofKind .symlink index) index frames t₀ = .ok t ∧
      (∀ p, (∃ text, t.node p = some (.link text)) ↔ p ∈ (ofKind .symlink index).keys) ∧
      ∀ p text, t.node p = some (.link text) →
        isAbsolute text = false ∧
        ∃ target, resolved.get p = some target ∧ ∀ links,
          t.walk links [] p ≠ .escaped ∧ ∀ location, t.walk links [] p = .found location →
            location = target := by
  obtain ⟨index, t₀, resolved, dependencies, hindex, hindexed, hvalidate, hlinks, hcomputed, order,
    horder, hcreated⟩ := created_extractMembers h
  refine ⟨index, t₀, resolved, dependencies, hindex, hvalidate, hlinks, ?_, ?_⟩
  · intro p
    rw [← horder p]
    constructor
    · rintro ⟨text, hnode⟩
      exact ((hcreated.link p text).1 hnode).1
    · intro hp
      obtain ⟨text, htext⟩ := hcreated.made p hp
      exact ⟨text, (hcreated.link p text).2 ⟨hp, htext⟩⟩
  · intro p text hnode
    obtain ⟨hrelative, target, htarget, hreach⟩ :=
      reaches_of_created hindexed hcomputed horder hcreated hnode
    refine ⟨hrelative, target, htarget, fun links => ⟨fun hescaped => ?_, fun location hfound => ?_⟩⟩
    · have hlinks := hreach links
      rw [hescaped] at hlinks
      exact hlinks
    · have hlinks := hreach links
      rw [hfound] at hlinks
      exact hlinks

/-- A chain through a directory link, and an absolute link. -/
def sampleMembers : List Member :=
  [⟨"leaf".toList, .symlink, "alias/file".toList, []⟩,
    ⟨"alias".toList, .symlink, "realdir".toList, []⟩,
    ⟨"realdir/file".toList, .file, [], [1]⟩,
    ⟨"realdir/up".toList, .symlink, "/leaf".toList, []⟩]

theorem sampleMembers_extracted :
    (extractMembers 8 sampleMembers []).toOption.map (FileTree.Tree.node · (path "realdir/up")) =
      some (some (.link "file".toList)) := by
  decide +kernel

theorem extractMembers_contained_example :
    ∃ t target, extractMembers 8 sampleMembers [] = .ok t ∧
      t.node (path "realdir/up") = some (.link "file".toList) ∧
      isAbsolute "file".toList = false ∧
      ∀ links, t.walk links [] (path "realdir/up") ≠ .escaped ∧
        ∀ location, t.walk links [] (path "realdir/up") = .found location → location = target := by
  obtain ⟨t, ht, hnode⟩ := toOption_map_eq_some.1 sampleMembers_extracted
  obtain ⟨_, _, _, _, -, -, -, -, hlinks⟩ := extractMembers_contained ht
  obtain ⟨hrelative, target, -, hwalk⟩ := hlinks _ _ hnode
  exact ⟨t, target, ht, hnode, hrelative, hwalk⟩

end RulesMkosi.ExtractTree
