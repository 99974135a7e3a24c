/-
  The merged `/usr` after extraction.

  `_link_legacy_merged_usr` replaces the entries `bin`, `sbin`, `lib` and `lib64` of the
  root after the links of the archive were checked.  A link whose lookup passes one of
  these names goes on at another place afterwards, and may climb above the root there.
-/
import RulesMkosi.ExtractContainment

namespace RulesMkosi.ExtractTree

open FileTree

/-- The target of an entry of the root in a table. -/
def rootLink (links : Dict Str Str) : Path → Option Str
  | [c] => links.get c
  | _ => none

def legacyLink (p : Path) : Option Str := rootLink legacyMergedUsrLinks p

section Step
variable {t t' : Tree}

theorem names_nil : Names [] := fun _ h => absurd h List.not_mem_nil

theorem entry_root (t : Tree) (c : Str) : t.entry [c] = some [c] :=
  FileTree.Tree.entry_of_allDirs (p := []) names_nil FileTree.Tree.allDirs_nil

theorem node_removeLegacy {c : Str} (h : removeLegacy t [c] = .ok t') :
    ∀ p, p ≠ [c] → t'.node p = t.node p := by
  intro p hp
  unfold removeLegacy at h
  split_ifs at h
  · simp only [FileTree.Tree.unlink, entry_root] at h
    split at h
    · cases h
    · cases h
    · cases h
      rw [FileTree.Tree.node_erase (by simp), if_neg (Ne.symm hp)]
  · simp only [FileTree.Tree.rmdir, entry_root] at h
    split_ifs at h
    cases h
    rw [FileTree.Tree.node_erase (by simp), if_neg (Ne.symm hp)]
  · cases h
    rfl

/-- One legacy name becomes a link; nothing else changes. -/
theorem node_linkLegacy {entry : Str × Str} (h : linkLegacy t entry = .ok t') (p : Path) :
    t'.node p = if p = [entry.1] then some (.link entry.2) else t.node p := by
  obtain ⟨t₁, h₁, h⟩ := bind_eq_ok.1 h
  obtain ⟨-, rfl⟩ := FileTree.Tree.symlink_of_allDirs (p := []) names_nil FileTree.Tree.allDirs_nil h
  rw [List.nil_append, FileTree.Tree.node_set (by simp)]
  by_cases hp : p = [entry.1]
  · rw [if_pos hp.symm, if_pos hp]
  · rw [if_neg (Ne.symm hp), if_neg hp, node_removeLegacy h₁ p hp]

theorem node_foldlM_linkLegacy : ∀ {links : Dict Str Str} {t : Tree}, links.keys.Nodup →
    links.foldlM linkLegacy t = .ok t' → ∀ p, t'.node p = match rootLink links p with
      | some target => some (.link target)
      | none => t.node p
  | [], t, _, h, p => by
    rw [List.foldlM_nil, pure_eq_ok] at h
    subst h
    cases p with
    | nil => rfl
    | cons c p => cases p <;> rfl
  | (c, target) :: links, t, hnodup, h, p => by
    rw [List.foldlM_cons, bind_eq_ok] at h
    obtain ⟨t₁, h₁, h⟩ := h
    obtain ⟨hc, hlinks⟩ := List.nodup_cons.1 hnodup
    rw [node_foldlM_linkLegacy hlinks h p, node_linkLegacy h₁ p]
    by_cases hp : p = [c]
    · -- the name is set once
      have hnone : Dict.get links c = none := by
        by_contra hsome
        obtain ⟨other, hother⟩ := Option.ne_none_iff_exists'.1 hsome
        exact hc (Dict.mem_keys_of_get hother)
      subst hp
      simp [rootLink, Dict.get, hnone]
    · rw [if_neg hp]
      cases p with
      | nil => rfl
      | cons d p =>
        cases p with
        | nil =>
          have hd : c ≠ d := by rintro rfl; exact hp rfl
          simp [rootLink, Dict.get, hd]
        | cons _ _ => rfl

/-- **What the step does to the tree.** -/
theorem node_linkLegacyMergedUsr (h : linkLegacyMergedUsr t = .ok t') (p : Path) :
    t'.node p = match legacyLink p with
      | some target => some (.link target)
      | none => t.node p :=
  node_foldlM_linkLegacy (by decide) h p

end Step

/-! ## Lookups before and after -/

section Detours
open FileTree.Tree (State Step Steps)

variable {t t' : Tree}

/-- The lookup is about to pass a legacy name at the root. -/
def AtLegacy (s : State) (target : Str) (rest : List Str) : Prop :=
  ∃ c, s = ([], c :: rest) ∧ legacyLink [c] = some target

/-- A step that passes no legacy name. -/
def StepBefore (t : Tree) (s s' : State) : Prop :=
  (∀ target rest, ¬ AtLegacy s target rest) ∧ Step t s s'

/-- A lookup up to the first legacy name. -/
def Before (t : Tree) : State → State → Prop := Relation.ReflTransGen (StepBefore t)

/-- The paths that take the place of what is left of a lookup at a legacy name: the new
    target, and the components behind the name. -/
inductive Detour (t : Tree) : List Str → Prop
  | entry {c target} : legacyLink [c] = some target → Detour t (components target)
  | link {p text s target rest} : t.node p = some (.link text) → Before t ([], p) s →
      AtLegacy s target rest → Detour t (components target ++ rest)
  | again {cs s target rest} : Detour t cs → Before t ([], cs) s → AtLegacy s target rest →
      Detour t (components target ++ rest)

/-- Before it passes a legacy name, the lookup of the path comes to `..` at the root. -/
def ClimbsOut (t : Tree) (cs : List Str) : Prop := ∃ rest, Before t ([], cs) ([], dotDot :: rest)

/-- The directory is not below a legacy name. -/
def Clear (r : Path) : Prop := ∀ c p, r = c :: p → legacyLink [c] = none

theorem clear_nil : Clear [] := fun _ _ h => by cases h

theorem Clear.of_prefix {r q : Path} (h : Clear r) (hq : q <+: r) : Clear q := by
  rintro c p rfl
  obtain ⟨rest, rfl⟩ := hq
  exact h c (p ++ rest) rfl

theorem Clear.concat {r : Path} {c : Str} (h : Clear r) (hc : r = [] → legacyLink [c] = none) :
    Clear (r ++ [c]) := by
  intro d p heq
  cases r with
  | nil =>
    cases heq
    exact hc rfl
  | cons e r =>
    cases heq
    exact h d r rfl

theorem legacyLink_of_clear {r : Path} (h : Clear r) : legacyLink r = none := by
  match r, h with
  | [], _ => rfl
  | [c], h => exact h c [] rfl
  | _ :: _ :: _, _ => rfl

/-- The two trees have the same nodes away from the legacy names. -/
theorem node_of_clear (h : linkLegacyMergedUsr t = .ok t') {r : Path} (hr : Clear r) :
    t'.node r = t.node r := by
  rw [node_linkLegacyMergedUsr h, legacyLink_of_clear hr]

/-- A step looks at the directory and at its next entry. -/
theorem step_congr {s s' : State} (hdir : t'.node s.1 = t.node s.1)
    (hentry : ∀ c rest, s.2 = c :: rest → t'.node (s.1 ++ [c]) = t.node (s.1 ++ [c]))
    (h : Step t s s') : Step t' s s' := by
  cases h with
  | skip hd hc => exact .skip (hdir.trans hd) hc
  | up hd hr => exact .up (hdir.trans hd) hr
  | follow hd hskip hdots hnode htarget =>
    exact .follow (hdir.trans hd) hskip hdots ((hentry _ _ rfl).trans hnode) htarget
  | enter hd hskip hdots hnode hlink =>
    exact .enter (hdir.trans hd) hskip hdots ((hentry _ _ rfl).trans hnode) hlink

/-- The next entry is not below a legacy name. -/
theorem clear_entry {r : Path} {c : Str} {rest : List Str} (hr : Clear r)
    (hs : ∀ target rest', ¬ AtLegacy (r, c :: rest) target rest') : Clear (r ++ [c]) := by
  refine hr.concat ?_
  rintro rfl
  by_contra hsome
  obtain ⟨target, htarget⟩ := Option.ne_none_iff_exists'.1 hsome
  exact hs target rest ⟨c, rfl, htarget⟩

theorem clear_stepBefore {s s' : State} (hs : Clear s.1) (h : StepBefore t s s') : Clear s'.1 := by
  obtain ⟨hat, hstep⟩ := h
  cases hstep with
  | skip => exact hs
  | up => exact hs.of_prefix (List.dropLast_prefix _)
  | follow => exact hs
  | enter => exact clear_entry hs hat

theorem clear_before {s s' : State} (hs : Clear s.1) (h : Before t s s') : Clear s'.1 := by
  induction h with
  | refl => exact hs
  | tail _ hstep ih => exact clear_stepBefore ih hstep

/-- Away from the legacy names the lookups of the two trees take the same steps. -/
theorem step_iff (h : linkLegacyMergedUsr t = .ok t') {s s' : State} (hs : Clear s.1)
    (hat : ∀ target rest, ¬ AtLegacy s target rest) : Step t' s s' ↔ Step t s s' := by
  have hentry : ∀ c rest, s.2 = c :: rest → t'.node (s.1 ++ [c]) = t.node (s.1 ++ [c]) := by
    intro c rest hc
    have hat' : ∀ target rest', ¬ AtLegacy (s.1, c :: rest) target rest' := by
      rw [← hc]
      exact hat
    exact node_of_clear h (clear_entry hs hat')
  constructor
  · exact step_congr (node_of_clear h hs).symm fun c rest hc => (hentry c rest hc).symm
  · exact step_congr (node_of_clear h hs) hentry

theorem legacyLink_spec {c target : Str} (h : legacyLink [c] = some target) :
    ¬ (c = [] ∨ c = dot) ∧ c ≠ dotDot ∧ target ≠ [] ∧ isAbsolute target = false := by
  have hmem : (c, target) ∈ legacyMergedUsrLinks := Dict.mem_of_get h
  simp only [legacyMergedUsrLinks, List.mem_cons, Prod.mk.injEq, List.not_mem_nil, or_false] at hmem
  rcases hmem with ⟨rfl, rfl⟩ | ⟨rfl, rfl⟩ | ⟨rfl, rfl⟩ | ⟨rfl, rfl⟩ <;> decide

/-- At a legacy name, the lookup goes on in `usr`. -/
theorem step_atLegacy (h : linkLegacyMergedUsr t = .ok t') {s s' : State} {target : Str}
    {rest : List Str} (hat : AtLegacy s target rest) :
    Step t' s s' ↔ s' = ([], components target ++ rest) := by
  obtain ⟨c, rfl, hlink⟩ := hat
  obtain ⟨hskip, hdots, hne, -⟩ := legacyLink_spec hlink
  have hnode : t'.node ([] ++ [c]) = some (.link target) := by
    rw [List.nil_append, node_linkLegacyMergedUsr h, hlink]
  constructor
  · intro hstep
    cases hstep with
    | skip _ hc => exact absurd hc hskip
    | up => exact absurd rfl hdots
    | follow _ _ _ hnode' =>
      rw [hnode] at hnode'
      cases hnode'
      rfl
    | enter _ _ _ hnode' hl =>
      rw [hnode] at hnode'
      cases hnode'
      exact absurd rfl (hl target)
  · rintro rfl
    exact .follow FileTree.Tree.node_nil hskip hdots hnode hne

theorem steps_of_before (h : linkLegacyMergedUsr t = .ok t') {s s' : State} (hs : Clear s.1)
    (hbefore : Before t s s') : Steps t' s s' := by
  induction hbefore with
  | refl => exact .refl
  | tail hb hstep ih => exact ih.tail ((step_iff h (clear_before hs hb) hstep.1).2 hstep.2)

theorem steps_of_before_old {s s' : State} (hbefore : Before t s s') : Steps t s s' := by
  induction hbefore with
  | refl => exact .refl
  | tail _ hstep ih => exact ih.tail hstep.2

/-- A lookup in the new tree is a lookup in the old one, from one legacy name to the next. -/
theorem before_of_steps (h : linkLegacyMergedUsr t = .ok t') {D : List Str → Prop}
    (hD : ∀ cs s target rest, D cs → Before t ([], cs) s → AtLegacy s target rest →
      D (components target ++ rest)) {cs : List Str} (hcs : D cs) {s : State}
    (hsteps : Steps t' ([], cs) s) : ∃ cs', D cs' ∧ Before t ([], cs') s := by
  induction hsteps with
  | refl => exact ⟨cs, hcs, .refl⟩
  | @tail s s' _ hstep ih =>
    obtain ⟨cs', hcs', hbefore⟩ := ih
    by_cases hat : ∃ target rest, AtLegacy s target rest
    · obtain ⟨target, rest, hat⟩ := hat
      rw [step_atLegacy h hat] at hstep
      subst hstep
      exact ⟨_, hD cs' s target rest hcs' hbefore hat, .refl⟩
    · push Not at hat
      have hclear : Clear s.1 := clear_before clear_nil hbefore
      exact ⟨cs', hcs', hbefore.tail ⟨hat, (step_iff h hclear hat).1 hstep⟩⟩

/-- A detour is on the way of a link of the new tree. -/
theorem steps_of_detour (h : linkLegacyMergedUsr t = .ok t') {cs : List Str} (hcs : Detour t cs) :
    ∃ p text, t'.node p = some (.link text) ∧ Steps t' ([], p) ([], cs) := by
  induction hcs with
  | @entry c target hlink =>
    refine ⟨[c], target, by rw [node_linkLegacyMergedUsr h, hlink], .single ?_⟩
    rw [step_atLegacy h ⟨c, rfl, hlink⟩, List.append_nil]
  | @link p text s target rest hnode hbefore hat =>
    have hnode' : ∃ text', t'.node p = some (.link text') := by
      rw [node_linkLegacyMergedUsr h]
      split
      · exact ⟨_, rfl⟩
      · exact ⟨_, hnode⟩
    obtain ⟨text', hnode'⟩ := hnode'
    refine ⟨p, text', hnode', (steps_of_before h clear_nil hbefore).tail ?_⟩
    rw [step_atLegacy h hat]
  | @again cs s target rest _ hbefore hat ih =>
    obtain ⟨p, text, hnode, hsteps⟩ := ih
    refine ⟨p, text, hnode, (hsteps.trans (steps_of_before h clear_nil hbefore)).tail ?_⟩
    rw [step_atLegacy h hat]

theorem relative_linkLegacyMergedUsr (h : linkLegacyMergedUsr t = .ok t') (ht : FileTree.Tree.Relative t) :
    FileTree.Tree.Relative t' := by
  intro p target hnode
  rw [node_linkLegacyMergedUsr h] at hnode
  split at hnode
  · next target' hlink =>
    cases hnode
    match p, hlink with
    | [c], hlink => exact (legacyLink_spec hlink).2.2.2
  · exact ht p target hnode

end Detours

/-- Every link is relative, and its lookup does not leave the root. -/
structure Contained (t : Tree) : Prop where
  relative : FileTree.Tree.Relative t
  below : ∀ p text, t.node p = some (.link text) → ∀ links, t.walk links [] p ≠ .escaped

/-- **When the merged `/usr` keeps the tree contained.**  If the step completes on a contained
    tree, then the links of the new tree stay below the root if and only if no detour climbs
    out of the old one. -/
theorem linkLegacyMergedUsr_contained_iff {t t' : Tree} (ht : Contained t)
    (h : linkLegacyMergedUsr t = .ok t') :
    (∀ p text, t'.node p = some (.link text) → ∀ links, t'.walk links [] p ≠ .escaped) ↔
      ∀ cs, Detour t cs → ¬ ClimbsOut t cs := by
  have hrelative := relative_linkLegacyMergedUsr h ht.relative
  constructor
  -- a detour that climbs out is on the way of some link
  · rintro hbelow cs hcs ⟨rest, hout⟩
    obtain ⟨p, text, hnode, hsteps⟩ := steps_of_detour h hcs
    obtain ⟨n, hn⟩ := (FileTree.Tree.walk_escaped_iff hrelative).2
      ⟨rest, hsteps.trans (steps_of_before h clear_nil hout)⟩
    exact hbelow p text hnode n hn
  · intro hdetours p text hnode links hescaped
    obtain ⟨rest, hsteps⟩ := (FileTree.Tree.walk_escaped_iff hrelative).1 ⟨links, hescaped⟩
    obtain ⟨cs₀, hcs₀, hsteps₀⟩ : ∃ cs, ((∃ text, t.node cs = some (.link text)) ∨ Detour t cs) ∧
        FileTree.Tree.Steps t' ([], cs) ([], dotDot :: rest) := by
      rw [node_linkLegacyMergedUsr h] at hnode
      split at hnode
      · next target hlink =>
        match p, hlink with
        | [c], hlink =>
          rcases hsteps.cases_head with heq | ⟨s, hstep, hsteps⟩
          · cases heq
            exact absurd rfl (legacyLink_spec hlink).2.1
          · rw [step_atLegacy h ⟨c, rfl, hlink⟩, List.append_nil] at hstep
            subst hstep
            exact ⟨_, .inr (.entry hlink), hsteps⟩
      · exact ⟨p, .inl ⟨text, hnode⟩, hsteps⟩
    have hclosed : ∀ cs s target rest, ((∃ text, t.node cs = some (.link text)) ∨ Detour t cs) →
        Before t ([], cs) s → AtLegacy s target rest →
        (∃ text, t.node (components target ++ rest) = some (.link text)) ∨
          Detour t (components target ++ rest) := by
      rintro cs s target rest (⟨text', hnode'⟩ | hdetour) hbefore hat
      · exact .inr (.link hnode' hbefore hat)
      · exact .inr (.again hdetour hbefore hat)
    obtain ⟨cs, hcs | hdetour, hbefore⟩ := before_of_steps h hclosed hcs₀ hsteps₀
    · obtain ⟨text', hnode'⟩ := hcs
      obtain ⟨n, hn⟩ := (FileTree.Tree.walk_escaped_iff ht.relative).2 ⟨rest, steps_of_before_old hbefore⟩
      exact ht.below cs text' hnode' n hn
    · exact hdetours cs hdetour ⟨rest, hbefore⟩

/-- Trees are contained after extraction. -/
theorem contained_extractMembers {frames : ℕ} {source : List Member} {t : Tree}
    (h : extractMembers frames source [] = .ok t) : Contained t := by
  obtain ⟨index, _, resolved, _, -, hindexed, -, -, hcomputed, order, horder, hcreated⟩ :=
    created_extractMembers h
  have hlinks := fun {p text} (hnode : t.node p = some (.link text)) =>
    reaches_of_created hindexed hcomputed horder hcreated hnode
  constructor
  · exact fun p text hnode => (hlinks hnode).1
  · intro p text hnode links hescaped
    obtain ⟨-, target, -, hreach⟩ := hlinks hnode
    have hreach := hreach links
    rw [hescaped] at hreach
    exact hreach

/-- `bin` leads four directories deep, and `x` climbs three of them. -/
def deepMembers : List Member :=
  [⟨"a/b/c/d".toList, .directory, [], []⟩, ⟨"usr/bin".toList, .directory, [], []⟩,
    ⟨"bin".toList, .symlink, "a/b/c/d".toList, []⟩, ⟨"x".toList, .symlink, "bin/../../..".toList, []⟩]

theorem exists_deepMembers_linked : ∃ t t', extractMembers 8 deepMembers [] = .ok t ∧
    linkLegacyMergedUsr t = .ok t' ∧ t'.node (path "x") = some (.link "bin/../../..".toList) ∧
      t'.walk 2 [] (path "x") = .escaped := by
  have hlinked : (extractMembers 8 deepMembers [] >>= linkLegacyMergedUsr).toOption.map
      (fun t => (t.node (path "x"), t.walk 2 [] (path "x"))) =
        some (some (.link "bin/../../..".toList), .escaped) := by
    decide +kernel
  obtain ⟨t', hrun, hwalk⟩ := toOption_map_eq_some.1 hlinked
  obtain ⟨t, ht, ht'⟩ := bind_eq_ok.1 hrun
  rw [Prod.mk.injEq] at hwalk
  exact ⟨t, t', ht, ht', hwalk.1, hwalk.2⟩

/-- An extracted tree in which the merged `/usr` lets a link leave the root. -/
theorem linkLegacyMergedUsr_escapes : ∃ t t', extractMembers 8 deepMembers [] = .ok t ∧
    Contained t ∧ linkLegacyMergedUsr t = .ok t' ∧
      t'.node (path "x") = some (.link "bin/../../..".toList) ∧
      t'.walk 2 [] (path "x") = .escaped := by
  obtain ⟨t, t', ht, ht', hnode, hwalk⟩ := exists_deepMembers_linked
  exact ⟨t, t', ht, contained_extractMembers ht, ht', hnode, hwalk⟩

/-- `x` leads through `bin` to `a`, and to `usr` afterwards. -/
def flatMembers : List Member :=
  [⟨"a/b".toList, .directory, [], []⟩, ⟨"usr/bin".toList, .directory, [], []⟩,
    ⟨"usr/sbin".toList, .directory, [], []⟩,
    ⟨"usr/lib/x86_64-linux-gnu".toList, .directory, [], []⟩,
    ⟨"bin".toList, .symlink, "a/b".toList, []⟩, ⟨"x".toList, .symlink, "bin/..".toList, []⟩]

/-- The entry is no link, or its walk finds something with at most four links. -/
def isFound (t : Tree) (entry : Path × Node) : Bool :=
  match entry.2, t.walk 4 [] entry.1 with
  | .link _, .found _ => true
  | .link _, _ => false
  | _, _ => true

theorem exists_flatMembers_linked : ∃ t t', extractMembers 8 flatMembers [] = .ok t ∧
    linkLegacyMergedUsr t = .ok t' ∧ t'.walk 2 [] (path "x") = .found (path "usr") ∧
      ∀ p text, t'.node p = some (.link text) → ∃ f, t'.walk 4 [] p = .found f := by
  have hlinked : (extractMembers 8 flatMembers [] >>= linkLegacyMergedUsr).toOption.map
      (fun t => (t.walk 2 [] (path "x"), t.all (isFound t))) =
        some (.found (path "usr"), true) := by
    decide +kernel
  obtain ⟨t', hrun, hwalks⟩ := toOption_map_eq_some.1 hlinked
  obtain ⟨t, ht, ht'⟩ := bind_eq_ok.1 hrun
  rw [Prod.mk.injEq, List.all_eq_true] at hwalks
  refine ⟨t, t', ht, ht', hwalks.1, fun p text hnode => ?_⟩
  have hne : p ≠ [] := FileTree.Tree.ne_nil_of_node (t := t') (by rw [hnode]; simp)
  rw [FileTree.Tree.node_of_ne hne] at hnode
  have hfound := hwalks.2 _ (Dict.mem_of_get hnode)
  cases hwalk : t'.walk 4 [] p with
  | found f => exact ⟨f, rfl⟩
  | absent location rest => simp [isFound, hwalk] at hfound
  | failed => simp [isFound, hwalk] at hfound
  | escaped => simp [isFound, hwalk] at hfound

/-- A detour climbs out of the one tree, and none climbs out of the other. -/
theorem linkLegacyMergedUsr_contained_example :
    (∃ t t', Contained t ∧ linkLegacyMergedUsr t = .ok t' ∧ ∃ cs, Detour t cs ∧ ClimbsOut t cs) ∧
    ∃ t t', Contained t ∧ linkLegacyMergedUsr t = .ok t' ∧
      t'.walk 2 [] (path "x") = .found (path "usr") ∧ ∀ cs, Detour t cs → ¬ ClimbsOut t cs := by
  constructor
  · obtain ⟨t, t', ht, ht', hnode, hwalk⟩ := exists_deepMembers_linked
    have hcontained := contained_extractMembers ht
    refine ⟨t, t', hcontained, ht', ?_⟩
    by_contra hall
    push Not at hall
    exact (linkLegacyMergedUsr_contained_iff hcontained ht').2 hall _ _ hnode 2 hwalk
  · obtain ⟨t, t', ht, ht', hx, hfound⟩ := exists_flatMembers_linked
    have hcontained := contained_extractMembers ht
    have hrelative := relative_linkLegacyMergedUsr ht' hcontained.relative
    refine ⟨t, t', hcontained, ht', hx, ?_⟩
    refine (linkLegacyMergedUsr_contained_iff hcontained ht').1 fun p text hnode links => ?_
    obtain ⟨f, hf⟩ := hfound p text hnode
    exact FileTree.Tree.not_escaped_of_found hrelative hf links

end RulesMkosi.ExtractTree
