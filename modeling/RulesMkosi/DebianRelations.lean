/-
  Dependency relations and their text (`parse_relations`, `Relation.__str__` and
  `_format_group` of `mkosi/debian/generate_lock.py`).

  `Matched` says which relations the pattern `_RELATION` can return from a text
  without separators; every such relation is read back from its own text, because
  the blank after the operator keeps the operators apart and no part of the text
  goes on with a character of the part before it.
-/
import RulesMkosi.DebianIndex
import RulesMkosi.DebianResolve

namespace RulesMkosi.Debian

/-! ## Parts of the pattern -/

/-- A run of characters that ends before the rest. -/
theorem takeWhile_append_stop {p : Char → Bool} {run rest : Str} (hrun : ∀ c ∈ run, p c = true)
    (hrest : ∀ c ∈ rest.head?, p c = false) :
    (run ++ rest).takeWhile p = run ∧ (run ++ rest).dropWhile p = rest := by
  rw [List.takeWhile_append_of_pos hrun, List.dropWhile_append_of_pos hrun]
  cases rest with
  | nil => simp
  | cons c rest =>
    have hc : ¬ p c = true := by simp [hrest c rfl]
    rw [List.takeWhile_cons_of_neg hc, List.dropWhile_cons_of_neg hc, List.append_nil]
    exact ⟨rfl, rfl⟩

theorem scanName_eq_some {text name rest : Str} (h : scanName text = some (name, rest)) :
    (∃ c run, name = c :: run ∧ isLowerAlnum c = true ∧ run ≠ [] ∧ ∀ d ∈ run, isNameChar d = true) ∧
      rest ⊆ text := by
  cases text with
  | nil => cases h
  | cons c text =>
    rw [scanName] at h
    split_ifs at h with hname
    cases h
    refine ⟨⟨c, _, rfl, hname.1, hname.2, fun d hd => List.mem_takeWhile_imp hd⟩, fun d hd => ?_⟩
    exact List.mem_cons_of_mem _ ((List.dropWhile_suffix _).mem hd)

theorem scanArch_spec (text : Str) :
    (∀ arch ∈ (scanArch text).1, arch ≠ [] ∧ ∀ c ∈ arch, isIdentifierChar c = true) ∧
      (scanArch text).2 ⊆ text := by
  unfold scanArch
  split
  · next rest =>
    split_ifs with harch
    · refine ⟨fun arch h => ?_, fun d hd => ?_⟩
      · cases h
        exact ⟨harch, fun c hc => List.mem_takeWhile_imp hc⟩
      · exact List.mem_cons_of_mem _ ((List.dropWhile_suffix _).mem hd)
    · exact ⟨by simp, List.Subset.refl _⟩
  · exact ⟨by simp, List.Subset.refl _⟩

theorem lstrip_subset (text : Str) : lstrip text ⊆ text := (List.dropWhile_suffix _).subset

theorem scanVersion_eq_some {text version rest : Str} (h : scanVersion text = some (version, rest)) :
    version ≠ [] ∧ (∀ c ∈ version, isVersionChar c = true) ∧ version ⊆ text := by
  unfold scanVersion at h
  dsimp only at h
  split at h
  · next hversion _ =>
    cases h
    refine ⟨by rw [hversion]; simp, ?_, ?_⟩
    · exact fun c hc => List.mem_takeWhile_imp hc
    · exact fun c hc => lstrip_subset _ ((List.takeWhile_prefix _).mem hc)
  · cases h

theorem scanOperator_eq_some {text version rest : Str} {operator found : String}
    (h : scanOperator text operator = some (found, version, rest)) :
    found = operator ∧ version ≠ [] ∧ (∀ c ∈ version, isVersionChar c = true) ∧ version ⊆ text := by
  unfold scanOperator at h
  split_ifs at h
  obtain ⟨⟨version', rest'⟩, hversion, heq⟩ := Option.map_eq_some_iff.1 h
  cases heq
  obtain ⟨hne, hall, hsub⟩ := scanVersion_eq_some hversion
  exact ⟨rfl, hne, hall, fun c hc => (List.drop_suffix _ _).mem (hsub hc)⟩

theorem scanConstraint_eq_some {text version rest : Str} {operator : String}
    (h : scanConstraint text = (some (operator, version), rest)) :
    operator ∈ operators ∧ version ≠ [] ∧ (∀ c ∈ version, isVersionChar c = true) ∧ version ⊆ text := by
  unfold scanConstraint at h
  split at h
  · next inner =>
    split at h
    · next operator' version' rest' hfound =>
      cases h
      obtain ⟨tried, htried, hscan⟩ := List.exists_of_findSome?_eq_some hfound
      obtain ⟨rfl, hne, hall, hsub⟩ := scanOperator_eq_some hscan
      exact ⟨htried, hne, hall, fun c hc => List.mem_cons_of_mem _ (lstrip_subset _ (hsub hc))⟩
    · cases h
  · cases h

/-! ## Relations that the pattern returns -/

/-- A version without separators, as the pattern matches it. -/
structure IsVersion (version : Str) : Prop where
  ne_nil : version ≠ []
  chars : ∀ c ∈ version, isVersionChar c = true
  separators : ',' ∉ version ∧ '|' ∉ version

/-- What the pattern can return for a text without separators. -/
structure Matched (relation : Relation) : Prop where
  name : ∃ c run, relation.name = String.ofList (c :: run) ∧ isLowerAlnum c = true ∧ run ≠ [] ∧
    ∀ d ∈ run, isNameChar d = true
  arch : ∀ arch ∈ relation.arch, ∃ run, arch = String.ofList run ∧ run ≠ [] ∧
    ∀ c ∈ run, isIdentifierChar c = true
  constraint : (relation.operator = none ∧ relation.version = none) ∨
    ∃ operator ∈ operators, ∃ version, relation.operator = some operator ∧
      relation.version = some (String.ofList version) ∧ IsVersion version

theorem matchRelation_matched {text : Str} {relation : Relation}
    (h : matchRelation text = some relation) (hcomma : ',' ∉ text) (hbar : '|' ∉ text) :
    Matched relation := by
  unfold matchRelation at h
  split at h
  · cases h
  · next name rest hname =>
    obtain ⟨hname, hrest⟩ := scanName_eq_some hname
    obtain ⟨harch, hafter⟩ := scanArch_spec rest
    generalize scanArch rest = scanned at h harch hafter
    obtain ⟨arch, after⟩ := scanned
    dsimp only at h harch hafter
    cases hconstraint : scanConstraint (lstrip after) with
    | mk constraint last =>
      rw [hconstraint] at h
      dsimp only at h
      split_ifs at h
      cases h
      refine ⟨?_, ?_, ?_⟩
      · obtain ⟨c, run, rfl, hc, hne, hrun⟩ := hname
        exact ⟨c, run, rfl, hc, hne, hrun⟩
      · intro text' htext'
        obtain ⟨run, hrun, rfl⟩ := Option.mem_map.1 htext'
        exact ⟨run, rfl, harch run hrun⟩
      · cases constraint with
        | none => exact .inl ⟨rfl, rfl⟩
        | some pair =>
          obtain ⟨operator, version⟩ := pair
          obtain ⟨hoperator, hne, hall, hsub⟩ := scanConstraint_eq_some hconstraint
          have hfrom : version ⊆ text := fun c hc => hrest (hafter (lstrip_subset _ (hsub hc)))
          exact .inr ⟨operator, hoperator, version, rfl, rfl, hne, hall,
            fun hmem => hcomma (hfrom hmem), fun hmem => hbar (hfrom hmem)⟩

/-! ## Their text -/

def archText : Option String → Str
  | some arch => ':' :: arch.toList
  | none => []

def constraintText : Option String → Option String → Str
  | some operator, some version => ' ' :: '(' :: operator.toList ++ ' ' :: version.toList ++ [')']
  | _, _ => []

theorem truthy_some {field : String} (h : field ≠ "") : truthy (some field) = some field := by
  unfold truthy
  split
  · next heq => exact absurd (Option.some.inj heq) h
  · rfl

theorem ne_empty_of_mem_operators : ∀ operator ∈ operators, operator ≠ "" := by decide

theorem ofList_ne_empty {run : Str} (h : run ≠ []) : String.ofList run ≠ "" := by
  intro heq
  have := congrArg String.toList heq
  rw [String.toList_ofList] at this
  exact h this

theorem isNameChar_of_isLowerAlnum {c : Char} (h : isLowerAlnum c = true) : isNameChar c = true := by
  simp [isNameChar, h]

theorem isNameChar_of_isIdentifierChar {c : Char} (h : isIdentifierChar c = true) :
    isNameChar c = true := by
  simp only [isIdentifierChar, decide_eq_true_eq] at h
  rcases h with h | rfl
  · exact isNameChar_of_isLowerAlnum h
  · rfl

/-- A character of a name is neither white space nor a separator. -/
theorem isNameChar_text {c : Char} (h : isNameChar c = true) :
    isSpace c = false ∧ c ≠ ',' ∧ c ≠ '|' ∧ c ≠ '\n' := by
  have hascii : c.toNat < 128 := by
    simp only [isNameChar, isLowerAlnum, decide_eq_true_eq] at h
    rcases h with (⟨-, h⟩ | ⟨-, h⟩) | rfl | rfl | rfl
    · exact Nat.lt_of_le_of_lt (UInt32.le_iff_toNat_le.1 h) (by decide)
    · exact Nat.lt_of_le_of_lt (UInt32.le_iff_toNat_le.1 h) (by decide)
    · decide
    · decide
    · decide
  revert h
  exact forall_ascii (P := fun c => isNameChar c = true →
    isSpace c = false ∧ c ≠ ',' ∧ c ≠ '|' ∧ c ≠ '\n') (by decide) hascii

theorem isVersionChar_text {c : Char} (h : isVersionChar c = true) :
    isSpace c = false ∧ c ≠ ')' ∧ c ≠ '\n' := by
  simp only [isVersionChar, decide_eq_true_eq, Bool.not_eq_true] at h
  refine ⟨h.1, h.2, ?_⟩
  rintro rfl
  exact absurd h.1 (by decide)

theorem blank_isSpace : ∀ c ∈ [' '], isSpace c = true := forall_mem_of_all (by decide)

theorem operator_text :
    ∀ operator ∈ operators, ∀ c ∈ operator.toList, c ≠ ',' ∧ c ≠ '|' ∧ c ≠ '\n' := by
  have hall : ∀ operator ∈ operators,
      operator.toList.all (fun c => decide (c ≠ ',' ∧ c ≠ '|' ∧ c ≠ '\n')) = true := by decide
  exact fun operator hoperator => forall_mem_of_all (hall operator hoperator)

section
variable {relation : Relation} (h : Matched relation)
include h

theorem Matched.name_text : ∃ c run, relation.name.toList = c :: run ∧ isLowerAlnum c = true ∧
    run ≠ [] ∧ ∀ d ∈ run, isNameChar d = true := by
  obtain ⟨c, run, hname, hc, hne, hrun⟩ := h.name
  exact ⟨c, run, by rw [hname, String.toList_ofList], hc, hne, hrun⟩

theorem Matched.str_toList : relation.str.toList =
    relation.name.toList ++ (archText relation.arch ++
      constraintText relation.operator relation.version) := by
  rw [Relation.str, String.toList_append, String.toList_append, List.append_assoc]
  refine congrArg₂ _ rfl (congrArg₂ _ ?_ ?_)
  · cases hrelation : relation.arch with
    | none => rfl
    | some arch =>
      obtain ⟨run, rfl, hne, -⟩ := h.arch arch hrelation
      rw [truthy_some (ofList_ne_empty hne)]
      exact String.toList_append
  · rcases h.constraint with ⟨hoperator, -⟩ | ⟨operator, hmem, version, hoperator, hversion, -⟩
    · rw [hoperator]
      rfl
    · rw [hoperator, hversion, truthy_some (ne_empty_of_mem_operators operator hmem)]
      simp [constraintText]

theorem Matched.archText_text : ∀ c ∈ archText relation.arch,
    isSpace c = false ∧ c ≠ ',' ∧ c ≠ '|' ∧ c ≠ '\n' := by
  intro c hc
  cases harch : relation.arch with
  | none => rw [harch] at hc; cases hc
  | some arch =>
    obtain ⟨run, rfl, -, hrun⟩ := h.arch arch harch
    rw [harch, archText, String.toList_ofList] at hc
    rcases List.mem_cons.1 hc with rfl | hc
    · decide
    · exact isNameChar_text (isNameChar_of_isIdentifierChar (hrun c hc))

theorem Matched.nameText_text : ∀ c ∈ relation.name.toList,
    isSpace c = false ∧ c ≠ ',' ∧ c ≠ '|' ∧ c ≠ '\n' := by
  obtain ⟨first, run, hname, hfirst, -, hrun⟩ := h.name_text
  intro c hc
  rw [hname] at hc
  rcases List.mem_cons.1 hc with rfl | hc
  · exact isNameChar_text (isNameChar_of_isLowerAlnum hfirst)
  · exact isNameChar_text (hrun c hc)

/-- The text has no separators. -/
theorem Matched.str_chars : ∀ c ∈ relation.str.toList, c ≠ ',' ∧ c ≠ '|' ∧ c ≠ '\n' := by
  intro c hc
  rw [h.str_toList] at hc
  rcases List.mem_append.1 hc with hc | hc
  · exact (h.nameText_text c hc).2
  · rcases List.mem_append.1 hc with hc | hc
    · exact (h.archText_text c hc).2
    · rcases h.constraint with ⟨hoperator, -⟩ | ⟨operator, hmem, version, hoperator, hversion, ok⟩
      · rw [hoperator] at hc
        cases hc
      · rw [hoperator, hversion, constraintText, String.toList_ofList] at hc
        simp only [List.cons_append, List.mem_cons, List.mem_append, List.not_mem_nil, or_false,
          List.append_assoc] at hc
        rcases hc with rfl | rfl | hc | rfl | hc | rfl
        · decide
        · decide
        · exact operator_text operator hmem c hc
        · decide
        · refine ⟨?_, ?_, (isVersionChar_text (ok.chars c hc)).2.2⟩
          · rintro rfl
            exact ok.separators.1 hc
          · rintro rfl
            exact ok.separators.2 hc
        · decide

/-- The text has no white space at its ends. -/
theorem Matched.str_stripped : Stripped relation.str.toList := by
  rw [h.str_toList]
  obtain ⟨first, run, hname, hfirst, -, -⟩ := h.name_text
  constructor
  · intro c hc
    rw [hname] at hc
    cases hc
    exact (isNameChar_text (isNameChar_of_isLowerAlnum hfirst)).1
  · rcases h.constraint with ⟨hoperator, -⟩ | ⟨operator, -, version, hoperator, hversion, -⟩
    · intro c hc
      rw [hoperator] at hc
      simp only [constraintText, List.append_nil] at hc
      rcases List.mem_append.1 (List.mem_of_mem_getLast? hc) with hc | hc
      · exact (h.nameText_text c hc).1
      · exact (h.archText_text c hc).1
    · intro c hc
      rw [hoperator, hversion, constraintText, ← List.append_assoc, ← List.append_assoc,
        List.getLast?_concat] at hc
      cases hc
      decide

end

/-! ## Reading the text -/

theorem scanVersion_text {version : Str} (h : IsVersion version) :
    scanVersion (' ' :: (version ++ [')'])) = some (version, []) := by
  have hchars : ∀ c ∈ (version ++ [')']).head?, isSpace c = false := by
    intro c hc
    cases version with
    | nil => exact absurd rfl h.ne_nil
    | cons d version =>
      cases hc
      exact (isVersionChar_text (h.chars c (by simp))).1
  have hstrip : lstrip (' ' :: (version ++ [')'])) = version ++ [')'] := by
    rw [lstrip, List.dropWhile_cons_of_pos (by decide)]
    exact lstrip_of_head hchars
  obtain ⟨htake, hdrop⟩ := @takeWhile_append_stop _ _ [')'] h.chars (by
    intro c hc
    cases hc
    decide)
  obtain ⟨c, rest, rfl⟩ := List.exists_cons_of_ne_nil h.ne_nil
  unfold scanVersion
  rw [hstrip, htake, hdrop]
  rfl

/-- The blank after the operator keeps the operators apart. -/
theorem scanConstraint_text {operator : String} (hoperator : operator ∈ operators) {version : Str}
    (h : IsVersion version) :
    scanConstraint ('(' :: (operator.toList ++ ' ' :: (version ++ [')']))) =
      (some (operator, version), []) := by
  have hscan := scanVersion_text h
  generalize version ++ [')'] = text at hscan
  simp only [operators, List.mem_cons, List.not_mem_nil, or_false] at hoperator
  rcases hoperator with rfl | rfl | rfl | rfl | rfl | rfl | rfl
  all_goals simp [scanConstraint, operators, scanOperator, lstrip, isSpace, List.isPrefixOf, hscan]

theorem head_constraintText {operator version : Option String} {c : Char}
    (hc : c ∈ (constraintText operator version).head?) : c = ' ' := by
  unfold constraintText at hc
  split at hc
  · exact (Option.some.inj hc).symm
  · cases hc

section
variable {relation : Relation} (h : Matched relation)
include h

theorem Matched.scanConstraint_text :
    scanConstraint (lstrip (constraintText relation.operator relation.version)) =
      ((relation.operator.bind fun operator => relation.version.map fun version =>
        (operator, version.toList)), []) := by
  rcases h.constraint with ⟨hoperator, hversion⟩ | ⟨operator, hmem, version, hoperator, hversion, ok⟩
  · rw [hoperator, hversion]
    rfl
  · have hstrip : lstrip (constraintText (some operator) (some (String.ofList version))) =
        '(' :: (operator.toList ++ ' ' :: (version ++ [')'])) := by
      rw [constraintText, String.toList_ofList]
      simp [lstrip, isSpace]
    rw [hoperator, hversion, hstrip, Debian.scanConstraint_text hmem ok]
    simp

/-- The pattern reads the relation back. -/
theorem Matched.matchRelation_str : matchRelation relation.str.toList = some relation := by
  obtain ⟨c, run, hname, hc, hne, hrun⟩ := h.name_text
  have hafter : ∀ d ∈ (archText relation.arch ++
      constraintText relation.operator relation.version).head?, isNameChar d = false := by
    intro d hd
    cases harch : relation.arch with
    | none =>
      rw [harch, archText, List.nil_append] at hd
      rw [head_constraintText hd]
      decide
    | some arch =>
      rw [harch] at hd
      cases hd
      decide
  obtain ⟨htake, hdrop⟩ := takeWhile_append_stop hrun hafter
  have hscanName : scanName relation.str.toList = some (relation.name.toList,
      archText relation.arch ++ constraintText relation.operator relation.version) := by
    rw [h.str_toList, hname, List.cons_append, scanName, htake, hdrop, if_pos ⟨hc, hne⟩]
  have hscanArch : scanArch (archText relation.arch ++
      constraintText relation.operator relation.version) =
      (relation.arch.map String.toList, constraintText relation.operator relation.version) := by
    cases harch : relation.arch with
    | none =>
      rw [archText, List.nil_append]
      unfold scanArch
      split
      · next rest hrest =>
        have hcolon : ':' ∈ (constraintText relation.operator relation.version).head? := by
          rw [hrest]
          rfl
        exact absurd (head_constraintText hcolon) (by decide)
      · rfl
    | some arch =>
      obtain ⟨arch, rfl, harchNe, harchRun⟩ := h.arch _ harch
      obtain ⟨htakeArch, hdropArch⟩ := @takeWhile_append_stop _ _
        (constraintText relation.operator relation.version) harchRun (by
          intro d hd
          rw [head_constraintText hd]
          decide)
      rw [archText, String.toList_ofList, List.cons_append, scanArch, htakeArch, hdropArch,
        if_pos harchNe, Option.map_some, String.toList_ofList]
  unfold matchRelation
  rw [hscanName]
  dsimp only
  rw [hscanArch]
  dsimp only
  rw [h.scanConstraint_text]
  have hrest : lstrip (skipArchitectures (lstrip [])) = [] := rfl
  have hdone : skipProfiles ([] : Str).length [] = [] := rfl
  dsimp only
  rw [hrest, if_pos hdone]
  obtain ⟨name, arch, operator, version⟩ := relation
  rcases h.constraint with ⟨hoperator, hversion⟩ | ⟨op, -, text, hoperator, hversion, -⟩
  · dsimp only at hoperator hversion
    subst hoperator hversion
    cases arch <;> simp
  · dsimp only at hoperator hversion
    subst hoperator hversion
    cases arch <;> simp

end

/-! ## Groups -/

/-- Splitting at the separator takes a joined text apart, up to the white space around it. -/
theorem map_strip_splitOn_join {separator : Char} {before after : Str}
    (hbefore : ∀ c ∈ before, isSpace c = true) (hafter : ∀ c ∈ after, isSpace c = true)
    (hnot : separator ∉ before ∧ separator ∉ after) :
    ∀ {texts : List Str} {spaces : Str}, texts ≠ [] → (∀ text ∈ texts, separator ∉ text) →
      (∀ c ∈ spaces, isSpace c = true) → separator ∉ spaces →
      ((spaces ++ (before ++ separator :: after).intercalate texts).splitOn separator).map strip =
        texts.map strip
  | [], _, hne, _, _, _ => absurd rfl hne
  | [text], spaces, _, htexts, hspaces, hsep => by
    rw [List.intercalate_singleton, List.splitOn_eq_singleton]
    · simp [strip_spaces_append hspaces]
    · simpa using ⟨hsep, htexts text (by simp)⟩
  | text :: next :: rest, spaces, _, htexts, hspaces, hsep => by
    have hfirst : separator ∉ spaces ++ (text ++ before) := by
      simpa using ⟨hsep, htexts text (by simp), hnot.1⟩
    have hjoin : spaces ++ (before ++ separator :: after).intercalate (text :: next :: rest) =
        (spaces ++ (text ++ before)) ++ separator ::
          (after ++ (before ++ separator :: after).intercalate (next :: rest)) := by
      rw [List.intercalate_cons_cons]
      simp
    have hrest := @map_strip_splitOn_join _ _ _ hbefore hafter hnot (next :: rest) _ (by simp)
      (fun text htext => htexts text (List.mem_cons_of_mem _ htext)) hafter hnot.2
    rw [hjoin, List.splitOn_append_cons_self_of_not_mem hfirst, List.map_cons, hrest,
      strip_spaces_append hspaces, strip_append_spaces hbefore, ← List.map_cons]

theorem intercalate_comma (text : Str) : ∀ rest : List Str,
    [',', ' '].intercalate (text :: rest) = [','].intercalate (text :: rest.map (' ' :: ·))
  | [] => by simp
  | next :: rest => by
    have hblank : ∀ more : List Str, [','].intercalate ((' ' :: next) :: more) =
        ' ' :: [','].intercalate (next :: more) := by
      intro more
      cases more with
      | nil => simp
      | cons other more => simp [List.intercalate_cons_cons]
    rw [List.intercalate_cons_cons, intercalate_comma next rest, List.map_cons,
      List.intercalate_cons_cons, hblank]
    simp

theorem formatGroup_toList (group : List Relation) :
    (formatGroup group).toList = [' ', '|', ' '].intercalate (group.map fun r => r.str.toList) := by
  rw [formatGroup, String.toList_intercalate, List.map_map]
  rfl

/-- The text of a group of relations. -/
theorem formatGroup_chars {group : List Relation} (hgroup : ∀ r ∈ group, Matched r) :
    ∀ c ∈ (formatGroup group).toList, c ≠ ',' ∧ c ≠ '\n' := by
  intro c hc
  rw [formatGroup_toList] at hc
  rcases mem_intercalate hc with hc | ⟨text, htext, hc⟩
  · simp only [List.mem_cons, List.not_mem_nil, or_false] at hc
    rcases hc with rfl | rfl | rfl <;> decide
  · obtain ⟨r, hr, rfl⟩ := List.mem_map.1 htext
    have hchars := (hgroup r hr).str_chars c hc
    exact ⟨hchars.1, hchars.2.2⟩

/-- A group is not blank. -/
theorem strip_formatGroup_ne_nil {group : List Relation} (hne : group ≠ [])
    (hgroup : ∀ r ∈ group, Matched r) : strip (formatGroup group).toList ≠ [] := by
  obtain ⟨r, rest, rfl⟩ := List.exists_cons_of_ne_nil hne
  have hr := hgroup r (by simp)
  obtain ⟨c, run, hname, -⟩ := hr.name_text
  have hc : c ∈ r.name.toList := by simp [hname]
  have hmem : c ∈ (formatGroup (r :: rest)).toList := by
    have hstr : c ∈ r.str.toList := by
      rw [hr.str_toList]
      exact List.mem_append_left _ hc
    rw [formatGroup_toList, List.map_cons]
    cases rest with
    | nil => simpa using hstr
    | cons next rest =>
      rw [List.map_cons, List.intercalate_cons_cons]
      simp [hstr]
  intro hnil
  have hspace := strip_eq_nil_iff.1 hnil c hmem
  rw [(hr.nameText_text c hc).1] at hspace
  cases hspace

theorem parseAlternative_str {relation : Relation} (h : Matched relation) {text : Str}
    (htext : strip text = relation.str.toList) : parseAlternative text = .ok relation := by
  rw [parseAlternative, htext, h.matchRelation_str]

/-- A group is read back from its text, with white space in front. -/
theorem mapM_parseAlternative {group : List Relation} (hne : group ≠ [])
    (hgroup : ∀ r ∈ group, Matched r) {spaces : Str} (hspaces : ∀ c ∈ spaces, isSpace c = true)
    (hbar : '|' ∉ spaces) :
    ((spaces ++ (formatGroup group).toList).splitOn '|').mapM parseAlternative = .ok group := by
  have hstrip : ((spaces ++ (formatGroup group).toList).splitOn '|').map strip =
      group.map fun r => r.str.toList := by
    rw [formatGroup_toList]
    have hjoin := @map_strip_splitOn_join '|' [' '] [' '] blank_isSpace blank_isSpace (by decide)
      (group.map fun r => r.str.toList) _ (by simpa using hne) (by
        intro text htext
        obtain ⟨r, hr, rfl⟩ := List.mem_map.1 htext
        exact fun hmem => ((hgroup r hr).str_chars _ hmem).2.1 rfl) hspaces hbar
    refine hjoin.trans ?_
    rw [List.map_map]
    refine List.map_congr_left fun r hr => ?_
    exact (hgroup r hr).str_stripped.strip_eq
  generalize (spaces ++ (formatGroup group).toList).splitOn '|' = texts at hstrip
  clear hne
  induction texts generalizing group with
  | nil =>
    cases group with
    | nil => rfl
    | cons r group => simp at hstrip
  | cons text texts ih =>
    cases group with
    | nil => simp at hstrip
    | cons r group =>
      rw [List.map_cons, List.map_cons, List.cons.injEq] at hstrip
      obtain ⟨hr, hgroup⟩ := List.forall_mem_cons.1 hgroup
      rw [List.mapM_cons, parseAlternative_str hr hstrip.1, ok_bind, ih hgroup hstrip.2, ok_bind]
      rfl

/-- What `parse_relations` returns. -/
theorem parseRelations_matched {value : Option Str} {groups : List (List Relation)}
    (h : parseRelations value = .ok groups) :
    ∀ group ∈ groups, group ≠ [] ∧ ∀ r ∈ group, Matched r := by
  intro group hgroup
  obtain ⟨text, htext, hread⟩ := forall₂_mem_right (mapM_eq_ok.1 h) hgroup
  have hcomma : ',' ∉ text := by
    intro hmem
    exact (mem_of_mem_splitOn (List.mem_of_mem_filter htext) ',' hmem).2 rfl
  have hpieces := mapM_eq_ok.1 hread
  refine ⟨?_, fun r hr => ?_⟩
  · rintro rfl
    exact List.splitOn_ne_nil '|' text (List.forall₂_nil_right_iff.1 hpieces)
  · obtain ⟨piece, hpiece, hparse⟩ := forall₂_mem_right hpieces hr
    have hchars : ∀ c ∈ strip piece, c ∈ text ∧ c ≠ '|' := fun c hc =>
      mem_of_mem_splitOn hpiece c (mem_of_mem_strip hc)
    unfold parseAlternative at hparse
    split at hparse
    · next relation hmatch =>
      cases hparse
      exact matchRelation_matched hmatch (fun hmem => hcomma (hchars _ hmem).1)
        fun hmem => (hchars _ hmem).2 rfl
    · cases hparse

/-- **Relations round-trip.**  The text that is formatted from the groups of a field is read as the
    same groups. -/
theorem parseRelations_format (value : Option Str) (groups : List (List Relation))
    (h : parseRelations value = .ok groups) :
    parseRelations (some (", ".intercalate (groups.map formatGroup)).toList) = .ok groups := by
  have hmatched := parseRelations_matched h
  clear h
  cases groups with
  | nil => rfl
  | cons group rest =>
    obtain ⟨⟨hne, hgroup⟩, hrest⟩ := List.forall_mem_cons.1 hmatched
    have htext : (", ".intercalate ((group :: rest).map formatGroup)).toList =
        [','].intercalate ((formatGroup group).toList ::
          rest.map fun g => ' ' :: (formatGroup g).toList) := by
      rw [String.toList_intercalate, List.map_map, List.map_cons, ← List.map_map]
      exact (intercalate_comma _ _).trans (by simp [Function.comp_def])
    have hpieces : ∀ piece ∈ (formatGroup group).toList ::
        rest.map (fun g => ' ' :: (formatGroup g).toList), ∀ c ∈ piece, c ≠ ',' ∧ c ≠ '\n' := by
      intro piece hpiece c hc
      rcases List.mem_cons.1 hpiece with rfl | hpiece
      · exact formatGroup_chars hgroup c hc
      · obtain ⟨g, hg, rfl⟩ := List.mem_map.1 hpiece
        rcases List.mem_cons.1 hc with rfl | hc
        · decide
        · exact formatGroup_chars (hrest g hg).2 c hc
    have hlines : (", ".intercalate ((group :: rest).map formatGroup)).toList.map
        (fun c => if c = '\n' then ' ' else c) =
        (", ".intercalate ((group :: rest).map formatGroup)).toList := by
      refine (List.map_congr_left fun c hc => ?_).trans (List.map_id _)
      rw [htext] at hc
      rcases mem_intercalate hc with hc | ⟨piece, hpiece, hc⟩
      · rw [List.mem_singleton.1 hc]
        decide
      · exact if_neg (hpieces piece hpiece c hc).2
    have hgroups : relationGroups (some (", ".intercalate ((group :: rest).map formatGroup)).toList) =
        (formatGroup group).toList :: rest.map fun g => ' ' :: (formatGroup g).toList := by
      rw [relationGroups, Option.getD_some, hlines, htext, List.splitOn_intercalate _
        (fun piece hpiece hmem => (hpieces piece hpiece _ hmem).1 rfl) (by simp)]
      refine List.filter_eq_self.2 fun piece hpiece => ?_
      rcases List.mem_cons.1 hpiece with rfl | hpiece
      · simpa using strip_formatGroup_ne_nil hne hgroup
      · obtain ⟨g, hg, rfl⟩ := List.mem_map.1 hpiece
        have hblank := strip_spaces_append blank_isSpace (formatGroup g).toList
        rw [List.singleton_append] at hblank
        simpa [hblank] using strip_formatGroup_ne_nil (hrest g hg).1 (hrest g hg).2
    rw [parseRelations, hgroups, mapM_eq_ok]
    refine .cons (@mapM_parseAlternative _ hne hgroup [] (by simp) (by simp)) ?_
    refine List.forall₂_map_left_iff.2 (List.forall₂_same.2 fun g hg => ?_)
    exact @mapM_parseAlternative _ (hrest g hg).1 (hrest g hg).2 [' '] blank_isSpace (by decide)

theorem parseRelations_format_example :
    parseRelations (some ", a1:any (>=2)|b2 (<=) [amd64],,".toList) =
        .ok [[⟨"a1", some "any", some ">=", some "2"⟩, ⟨"b2", none, some "<", some "="⟩]] ∧
      parseRelations (some "a1:any (>= 2) | b2 (< =)".toList) =
        .ok [[⟨"a1", some "any", some ">=", some "2"⟩, ⟨"b2", none, some "<", some "="⟩]] := by
  have h : parseRelations (some ", a1:any (>=2)|b2 (<=) [amd64],,".toList) =
      .ok [[⟨"a1", some "any", some ">=", some "2"⟩, ⟨"b2", none, some "<", some "="⟩]] := by
    decide
  have htext : ", ".intercalate ([[(⟨"a1", some "any", some ">=", some "2"⟩ : Relation),
      ⟨"b2", none, some "<", some "="⟩]].map formatGroup) = "a1:any (>= 2) | b2 (< =)" := by
    decide
  have hformat := parseRelations_format _ _ h
  rw [htext] at hformat
  exact ⟨h, hformat⟩

end RulesMkosi.Debian
