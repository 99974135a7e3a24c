/-
  Copies into a directory tree.

  A copy makes the directories above its path and then the node itself; along a path without
  links `put_eq_ok` says what it changes.  In a tree without links `Wrote` says which files a
  number of copies has written, and that nothing else was done.
-/
import RulesMkosi.Lib.FileTree

namespace RulesMkosi.FileTree

namespace Tree

/-- `path.mkdir(exist_ok=True)` of a path whose parent is there -/
def makeDir (t : Tree) (p : Path) : Except Exn Tree :=
  if t.stat p = some .dir then .ok t else t.mkdir p

/-- The directories of the path, from `r` on. -/
def makeDirsFrom (t : Tree) (r : Path) : List Str → Except Exn Tree
  | [] => .ok t
  | c :: cs => do
    let t ← t.makeDir (r ++ [c])
    makeDirsFrom t (r ++ [c]) cs

/-- `path.mkdir(parents=True, exist_ok=True)` -/
def makeDirs (t : Tree) (p : Path) : Except Exn Tree := t.makeDirsFrom [] p

/-- A copy of a node to a path: the directories above it are made where they are missing. -/
def put (t : Tree) (p : Path) : Node → Except Exn Tree
  | .dir => t.makeDirs p
  | .file content => do
    let t ← t.makeDirs p.dropLast
    t.writeFile p content
  | .link target => do
    let t ← t.makeDirs p.dropLast
    t.symlink target p

variable {t t' : Tree} {p q r : Path} {c : Str} {n : Node}

/-- No prefix of the path is a link. -/
def NoLinks (t : Tree) (p : Path) : Prop := ∀ q, q <+: p → ∀ target, t.node q ≠ some (.link target)

/-- Every prefix of the path is missing or a directory. -/
def Free (t : Tree) (p : Path) : Prop := ∀ q, q <+: p → t.node q = none ∨ t.node q = some .dir

/-! ## Walks -/

/-- The walk to an entry of a directory. -/
theorem resolve_concat (hp : Names p) (hc : IsName c) (hdirs : AllDirs t p)
    (hlink : ∀ target, t.node (p ++ [c]) ≠ some (.link target)) :
    t.resolve (p ++ [c]) = if t.node (p ++ [c]) = none then .absent (p ++ [c]) [] else .found (p ++ [c]) := by
  have hwalk : ∀ {follow : Path → List Str → Outcome} {cs : List Str} {r : Path}, Names cs →
      AllDirs t (r ++ cs) → (∀ target, t.node (r ++ cs ++ [c]) ≠ some (.link target)) →
      walkWith t follow r (cs ++ [c]) =
        if t.node (r ++ cs ++ [c]) = none then .absent (r ++ cs ++ [c]) [] else .found (r ++ cs ++ [c]) := by
    intro follow cs
    induction cs with
    | nil =>
      intro r _ hdirs hlink
      rw [List.append_nil] at hdirs hlink ⊢
      rw [List.nil_append, walkWith_name (hdirs r List.prefix_rfl) hc]
      cases hnode : t.node (r ++ [c]) with
      | none => rfl
      | some n =>
        cases n with
        | dir => rfl
        | file content => rfl
        | link target => exact absurd hnode (hlink target)
    | cons d cs ih =>
      intro r hcs hdirs hlink
      obtain ⟨hd, hcs⟩ := List.forall_mem_cons.1 hcs
      rw [List.append_cons r d cs] at hdirs hlink ⊢
      have hr : t.node r = some .dir :=
        hdirs r ((List.prefix_append r [d]).trans (List.prefix_append _ cs))
      have hrd : t.node (r ++ [d]) = some .dir := hdirs _ (List.prefix_append _ cs)
      rw [List.cons_append, walkWith_name hr hd, hrd]
      exact ih hcs hdirs hlink
  exact hwalk (r := []) hp hdirs hlink

theorem stat_concat (hp : Names p) (hc : IsName c) (hdirs : AllDirs t p)
    (hlink : ∀ target, t.node (p ++ [c]) ≠ some (.link target)) :
    t.stat (p ++ [c]) = t.node (p ++ [c]) := by
  rw [stat, resolve_concat hp hc hdirs hlink]
  split_ifs with hnode
  · exact hnode.symm
  · rfl

/-! ## Directories -/

/-- A directory that is made, in one that is there. -/
theorem makeDir_eq_ok (hp : Names p) (hc : IsName c) (hdirs : AllDirs t p)
    (hlink : ∀ target, t.node (p ++ [c]) ≠ some (.link target)) (h : t.makeDir (p ++ [c]) = .ok t') :
    (t.node (p ++ [c]) = none ∨ t.node (p ++ [c]) = some .dir) ∧
      ∀ q, t'.node q = if q = p ++ [c] then some .dir else t.node q := by
  unfold makeDir at h
  rw [stat_concat hp hc hdirs hlink] at h
  split_ifs at h with hdir
  · cases h
    refine ⟨Or.inr hdir, fun q => ?_⟩
    split_ifs with hq
    · rw [hq, hdir]
    · rfl
  · obtain ⟨q, hq, hnode, hne, rfl⟩ := addEntry_eq_ok h
    rw [entry_of_allDirs hp hdirs] at hq
    cases hq
    refine ⟨Or.inl hnode, fun q => ?_⟩
    rw [node_set hne]
    exact if_congr eq_comm rfl rfl

/-- The directories of a path, below one that is there. -/
theorem makeDirsFrom_eq_ok : ∀ {cs : List Str} {r : Path} {t : Tree}, Names r → Names cs → AllDirs t r →
    NoLinks t (r ++ cs) → t.makeDirsFrom r cs = .ok t' →
    Free t (r ++ cs) ∧ ∀ q, t'.node q = if q <+: r ++ cs then some .dir else t.node q
  | [], r, t, _, _, hdirs, _, h => by
    cases h
    rw [List.append_nil]
    refine ⟨fun q hq => Or.inr (hdirs q hq), fun q => ?_⟩
    split_ifs with hq
    · exact hdirs q hq
    · rfl
  | c :: cs, r, t, hr, hcs, hdirs, hlinks, h => by
    obtain ⟨hc, hcs⟩ := List.forall_mem_cons.1 hcs
    rw [List.append_cons] at hlinks ⊢
    have hprefix : r ++ [c] <+: r ++ [c] ++ cs := List.prefix_append _ cs
    rw [makeDirsFrom, bind_eq_ok] at h
    obtain ⟨t₁, hmake, h⟩ := h
    obtain ⟨hfree, hnode⟩ := makeDir_eq_ok hr hc hdirs (hlinks _ hprefix) hmake
    have hdirs' : AllDirs t₁ (r ++ [c]) := by
      refine allDirs_concat (hdirs.mono fun q hq => ?_) (by rw [hnode, if_pos rfl])
      rw [hnode]
      split_ifs
      · rfl
      · exact hq
    have hlinks' : NoLinks t₁ (r ++ [c] ++ cs) := by
      intro q hq target
      rw [hnode]
      split_ifs
      · simp
      · exact hlinks q hq target
    obtain ⟨hfree', hnode'⟩ := makeDirsFrom_eq_ok
      (List.forall_mem_append.2 ⟨hr, by simpa using hc⟩) hcs hdirs'
      hlinks' h
    constructor
    · intro q hq
      by_cases heq : q = r ++ [c]
      · rw [heq]
        exact hfree
      · have hold := hfree' q hq
        rwa [hnode, if_neg heq] at hold
    · intro q
      rw [hnode']
      split_ifs with hq
      · rfl
      · rw [hnode, if_neg]
        rintro rfl
        exact hq hprefix

theorem makeDirs_eq_ok (hp : Names p) (hlinks : NoLinks t p) (h : t.makeDirs p = .ok t') :
    Free t p ∧ ∀ q, t'.node q = if q <+: p then some .dir else t.node q :=
  makeDirsFrom_eq_ok (by simp [Names]) hp allDirs_nil hlinks h

/-! ## Copies -/

/-- A node of the kind can be written where this one is. -/
def Replaces : Node → Option Node → Prop
  | .dir, old => old = none ∨ old = some .dir
  | .file _, old => old = none ∨ ∃ content, old = some (.file content)
  | .link target, old => target ≠ [] ∧ old = none

/-- What a copy changes: the directories above the path are made, and the node is there. -/
theorem put_eq_ok (hp : Names (p ++ [c])) (hlinks : NoLinks t (p ++ [c])) (h : t.put (p ++ [c]) n = .ok t') :
    Free t p ∧ Replaces n (t.node (p ++ [c])) ∧
      ∀ q, t'.node q = if q = p ++ [c] then some n else if q <+: p then some .dir else t.node q := by
  obtain ⟨hparent, hc⟩ := List.forall_mem_append.1 hp
  have hc : IsName c := hc c (by simp)
  have hlinks' : NoLinks t p := fun q hq => hlinks q (hq.trans (List.prefix_append p [c]))
  have hnot : ¬ p ++ [c] <+: p := fun hprefix => by
    have := hprefix.length_le
    simp at this
  cases n with
  | dir =>
    obtain ⟨hfree, hnode⟩ := makeDirs_eq_ok hp hlinks h
    refine ⟨fun q hq => hfree q (hq.trans (List.prefix_append p [c])), hfree _ List.prefix_rfl, fun q => ?_⟩
    rw [hnode, ← ite_or]
    exact if_congr List.prefix_concat_iff rfl rfl
  | file content =>
    rw [put, List.dropLast_concat, bind_eq_ok] at h
    obtain ⟨t₁, hmake, h⟩ := h
    obtain ⟨hfree, hnode⟩ := makeDirs_eq_ok hparent hlinks' hmake
    have hdirs : AllDirs t₁ p := fun q hq => by rw [hnode, if_pos hq]
    have hold : t₁.node (p ++ [c]) = t.node (p ++ [c]) := by rw [hnode, if_neg hnot]
    have hset : ∀ q, Tree.node (t₁.set (p ++ [c]) (.file content)) q =
        if q = p ++ [c] then some (.file content) else if q <+: p then some .dir else t.node q := by
      intro q
      rw [node_set (by simp), hnode]
      exact if_congr eq_comm rfl rfl
    unfold writeFile at h
    rw [resolve_concat hparent hc hdirs (by rw [hold]; exact hlinks _ List.prefix_rfl), hold] at h
    split_ifs at h with hnone
    · cases h
      exact ⟨hfree, Or.inl hnone, hset⟩
    · dsimp only at h
      rw [hold] at h
      split at h
      · next old hfile =>
        cases h
        exact ⟨hfree, Or.inr ⟨old, hfile⟩, hset⟩
      · cases h
  | link target =>
    rw [put, List.dropLast_concat, bind_eq_ok] at h
    obtain ⟨t₁, hmake, h⟩ := h
    obtain ⟨hfree, hnode⟩ := makeDirs_eq_ok hparent hlinks' hmake
    have hdirs : AllDirs t₁ p := fun q hq => by rw [hnode, if_pos hq]
    have htarget : target ≠ [] := by
      rintro rfl
      cases h
    obtain ⟨hnone, rfl⟩ := symlink_of_allDirs hparent hdirs h
    rw [hnode, if_neg hnot] at hnone
    refine ⟨hfree, ⟨htarget, hnone⟩, fun q => ?_⟩
    rw [node_set (by simp), hnode]
    exact if_congr eq_comm rfl rfl

/-! ## Files that are written -/

/-- A tree without links. -/
def Plain (t : Tree) : Prop := ∀ q target, t.node q ≠ some (.link target)

/-- What is found at a path in a tree without links. -/
theorem Plain.node_of_stat (h : Plain t) (hp : Names p) (hstat : t.stat p = some n) : t.node p = some n := by
  have hwalk : ∀ {follow : Path → List Str → Outcome} {cs : List Str} {r location : Path}, Names cs →
      walkWith t follow r cs = .found location → location = r ++ cs := by
    intro follow cs
    induction cs with
    | nil =>
      intro r location _ hfound
      cases hfound
      rw [List.append_nil]
    | cons d cs ih =>
      intro r location hcs hfound
      obtain ⟨hd, hcs⟩ := List.forall_mem_cons.1 hcs
      by_cases hdir : t.node r = some .dir
      · rw [walkWith_name hdir hd] at hfound
        cases hnode : t.node (r ++ [d]) with
        | none =>
          rw [hnode] at hfound
          cases hfound
        | some m =>
          rw [hnode] at hfound
          cases m with
          | dir => exact (ih hcs hfound).trans (List.append_cons ..).symm
          | file content => exact (ih hcs hfound).trans (List.append_cons ..).symm
          | link target => exact absurd hnode (h _ target)
      · rw [walkWith_notDir hdir] at hfound
        cases hfound
  unfold stat at hstat
  split at hstat
  · next location hresolve =>
    rwa [hwalk (r := []) hp hresolve] at hstat
  · cases hstat

/-- Files were written to the tree, and nothing else was done. -/
structure Wrote (t : Tree) (writes : List (Path × Bytes)) (t' : Tree) : Prop where
  plain : Plain t'
  file : ∀ q content, t'.node q = some (.file content) →
    (q, content) ∈ writes ∨ t.node q = some (.file content) ∧ q ∉ writes.map Prod.fst
  kept : ∀ q content, t.node q = some (.file content) → ∃ content', t'.node q = some (.file content')
  written : ∀ q ∈ writes.map Prod.fst, ∃ content, t'.node q = some (.file content)

/-- Only the root is in the empty tree. -/
theorem eq_dir_of_node_nil (h : Tree.node [] q = some n) : n = .dir := by
  by_cases hq : q = []
  · subst hq
    rw [node_nil] at h
    exact (Option.some.inj h).symm
  · rw [node_of_ne hq] at h
    cases h

theorem plain_nil : Plain [] := by
  intro q target hnode
  cases eq_dir_of_node_nil hnode

/-- The files of a tree that was empty. -/
theorem Wrote.mem {writes : List (Path × Bytes)} {content : Bytes} (h : Wrote [] writes t)
    (hq : t.node q = some (.file content)) : (q, content) ∈ writes := by
  rcases h.file q content hq with hmem | ⟨hnode, -⟩
  · exact hmem
  · cases eq_dir_of_node_nil hnode

theorem Wrote.nil (h : Plain t) : Wrote t [] t :=
  ⟨h, fun _ _ hq => Or.inr ⟨hq, List.not_mem_nil⟩, fun _ content hq => ⟨content, hq⟩, fun _ hq => by cases hq⟩

theorem Wrote.append {t'' : Tree} {writes writes' : List (Path × Bytes)} (h : Wrote t writes t')
    (h' : Wrote t' writes' t'') : Wrote t (writes ++ writes') t'' where
  plain := h'.plain
  file q content hq := by
    rw [List.map_append, List.mem_append, List.mem_append]
    rcases h'.file q content hq with hmem | ⟨hq, hnot⟩
    · exact Or.inl (Or.inr hmem)
    · exact (h.file q content hq).imp Or.inl fun hold => ⟨hold.1, not_or.2 ⟨hold.2, hnot⟩⟩
  kept q content hq := by
    obtain ⟨content', hq'⟩ := h.kept q content hq
    exact h'.kept q content' hq'
  written q hq := by
    rw [List.map_append, List.mem_append] at hq
    rcases hq with hq | hq
    · obtain ⟨content, hq'⟩ := h.written q hq
      exact h'.kept q content hq'
    · exact h'.written q hq

/-- A file that is not written again stays as it is. -/
theorem Wrote.unchanged {writes : List (Path × Bytes)} {content : Bytes} (h : Wrote t writes t')
    (hq : t.node q = some (.file content)) (hnot : q ∉ writes.map Prod.fst) :
    t'.node q = some (.file content) := by
  obtain ⟨content', hq'⟩ := h.kept q content hq
  rcases h.file q content' hq' with hmem | ⟨hold, -⟩
  · exact absurd (List.mem_map.2 ⟨_, hmem, rfl⟩) hnot
  · rw [hq', ← hold, hq]

theorem Plain.put_file {content : Bytes} (h : Plain t) (hp : Names p) (hne : p ≠ [])
    (hput : t.put p (.file content) = .ok t') : Wrote t [(p, content)] t' := by
  obtain ⟨p, c, rfl⟩ := (List.eq_nil_or_concat' p).resolve_left hne
  obtain ⟨hfree, -, hnode⟩ := put_eq_ok hp (fun q _ => h q) hput
  refine ⟨fun q target => ?_, fun q content' hq => ?_, fun q content' hq => ?_, fun q hq => ?_⟩
  · rw [hnode]
    split_ifs
    · simp
    · simp
    · exact h q target
  · rw [hnode] at hq
    split_ifs at hq with heq hprefix
    · cases hq
      exact Or.inl (by rw [heq]; exact List.mem_singleton.2 rfl)
    · cases hq
    · exact Or.inr ⟨hq, by simpa using heq⟩
  · rw [hnode]
    split_ifs with heq hprefix
    · exact ⟨content, rfl⟩
    · rcases hfree q hprefix with hnone | hdir
      · cases hnone.symm.trans hq
      · cases hdir.symm.trans hq
    · exact ⟨content', hq⟩
  · rw [List.map_singleton, List.mem_singleton] at hq
    exact ⟨content, by rw [hnode, if_pos hq]⟩

/-- A loop that writes one file after the other. -/
theorem wrote_foldlM {γ : Type} {f : Tree → γ → Except Exn Tree} {R : γ → Path × Bytes → Prop} :
    ∀ {l : List γ} {t : Tree}, (∀ a ∈ l, ∀ t t' : Tree, t.Plain → f t a = .ok t' →
      ∃ write, R a write ∧ Wrote t [write] t') → Plain t → l.foldlM f t = .ok t' →
      ∃ writes, List.Forall₂ R l writes ∧ Wrote t writes t'
  | [], t, _, hplain, h => by
    cases h
    exact ⟨[], .nil, .nil hplain⟩
  | a :: l, t, hf, hplain, h => by
    obtain ⟨ha, hl⟩ := List.forall_mem_cons.1 hf
    rw [List.foldlM_cons, bind_eq_ok] at h
    obtain ⟨t₁, hstep, h⟩ := h
    obtain ⟨write, hwrite, hwrote⟩ := ha t t₁ hplain hstep
    obtain ⟨writes, hwrites, hwrote'⟩ := wrote_foldlM hl hwrote.plain h
    exact ⟨write :: writes, .cons hwrite hwrites, hwrote.append hwrote'⟩

end Tree

end RulesMkosi.FileTree
