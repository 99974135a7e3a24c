/-
  Searching a sequence for patterns.

  `find` is the first occurrence of a pattern at or after an offset, and
  `searchInOrder` looks for several patterns one after the other, each behind the one
  before.  Greedy search is complete (`searchInOrder_isSome_iff`), it ends no later than
  any other placement of the patterns (`searchInOrder_le`), and what it finds in the
  beginning of a sequence it finds in the whole sequence (`find_extend`).
-/
import Mathlib.Data.List.Basic
import Mathlib.Data.List.Forall2
import Mathlib.Data.List.Infix

namespace RulesMkosi

variable {α : Type*}

/-- `pattern` stands at the offset. -/
def OccursAt (pattern s : List α) (offset : ℕ) : Prop :=
  ∃ before after, s = before ++ (pattern ++ after) ∧ before.length = offset

/-- The patterns stand in `s` one behind the other. -/
def InOrder : List (List α) → List α → Prop
  | [], _ => True
  | pattern :: patterns, s => ∃ before after, s = before ++ (pattern ++ after) ∧ InOrder patterns after

/-! ## Occurrences -/

theorem OccursAt.fits {pattern s : List α} {offset : ℕ} (h : OccursAt pattern s offset) :
    offset + pattern.length ≤ s.length := by
  obtain ⟨before, after, rfl, rfl⟩ := h
  simp only [List.length_append]
  omega

theorem occursAt_iff {pattern s : List α} {offset : ℕ} :
    OccursAt pattern s offset ↔ offset ≤ s.length ∧ pattern <+: s.drop offset := by
  constructor
  · rintro ⟨before, after, rfl, rfl⟩
    rw [List.drop_left]
    exact ⟨by simp, after, rfl⟩
  · rintro ⟨hoffset, after, hafter⟩
    refine ⟨s.take offset, after, ?_, by rw [List.length_take, Nat.min_eq_left hoffset]⟩
    rw [hafter, List.take_append_drop]

/-- Text that follows does not change an occurrence. -/
theorem OccursAt.extend {pattern s t : List α} {offset : ℕ} (h : OccursAt pattern s offset)
    (hst : s <+: t) : OccursAt pattern t offset := by
  obtain ⟨before, after, rfl, hlength⟩ := h
  obtain ⟨rest, rfl⟩ := hst
  exact ⟨before, after ++ rest, by simp, hlength⟩

/-- An occurrence that ends in the beginning of a sequence is one there. -/
theorem OccursAt.restrict {pattern s t : List α} {offset : ℕ} (h : OccursAt pattern t offset)
    (hst : s <+: t) (hfits : offset + pattern.length ≤ s.length) : OccursAt pattern s offset := by
  obtain ⟨before, after, rfl, rfl⟩ := h
  obtain ⟨rest, hrest⟩ := hst
  have hfront : before ++ pattern <+: s := by
    have hwhole : before ++ pattern <+: before ++ (pattern ++ after) :=
      ⟨after, by rw [List.append_assoc]⟩
    refine List.prefix_of_prefix_length_le hwhole ⟨rest, hrest⟩ ?_
    rw [List.length_append]
    exact hfits
  obtain ⟨between, hbetween⟩ := hfront
  exact ⟨before, between, by rw [← hbetween, List.append_assoc], rfl⟩

theorem InOrder.append_left {patterns : List (List α)} {s : List α} (front : List α)
    (h : InOrder patterns s) : InOrder patterns (front ++ s) := by
  cases patterns with
  | nil => trivial
  | cons pattern patterns =>
    obtain ⟨before, after, rfl, hrest⟩ := h
    exact ⟨front ++ before, after, by simp, hrest⟩

/-! ## The first occurrence -/

theorem mem_offsets {s : List α} {start offset : ℕ} :
    offset ∈ List.range' start (s.length + 1 - start) ↔ start ≤ offset ∧ offset ≤ s.length := by
  rw [List.mem_range'_1]
  omega

section
variable [DecidableEq α]

/-- The first occurrence of `pattern` at or after `start`. -/
def find (s pattern : List α) (start : ℕ) : Option ℕ :=
  (List.range' start (s.length + 1 - start)).find? fun offset => pattern.isPrefixOf (s.drop offset)

variable {s t pattern : List α} {start offset : ℕ}

theorem find_eq_some (h : find s pattern start = some offset) :
    start ≤ offset ∧ OccursAt pattern s offset ∧
      ∀ i, start ≤ i → i < offset → ¬ OccursAt pattern s i := by
  have hmem := List.mem_of_find?_eq_some h
  have hfound := List.find?_some h
  rw [List.isPrefixOf_iff_prefix] at hfound
  obtain ⟨hstart, hend⟩ := mem_offsets.1 hmem
  refine ⟨hstart, occursAt_iff.2 ⟨hend, hfound⟩, fun i hi hlt hoccurs => ?_⟩
  obtain ⟨before, after, hsplit, hno⟩ := (List.find?_eq_some_iff_append.1 h).2
  have hbefore : i ∈ before := by
    have hi' : i ∈ List.range' start (s.length + 1 - start) :=
      mem_offsets.2 ⟨hi, by omega⟩
    have hsorted : (List.range' start (s.length + 1 - start)).Pairwise (· < ·) :=
      List.pairwise_lt_range'
    rw [hsplit] at hi' hsorted
    rcases List.mem_append.1 hi' with hi' | hi'
    · exact hi'
    · rcases List.mem_cons.1 hi' with rfl | hi'
      · exact absurd hlt (Nat.lt_irrefl _)
      · have := List.rel_of_pairwise_cons (List.pairwise_append.1 hsorted).2.1 hi'
        exact absurd hlt (by omega)
  have := hno i hbefore
  simp only [Bool.not_eq_true'] at this
  rw [List.isPrefixOf_iff_prefix.2 (occursAt_iff.1 hoccurs).2] at this
  cases this

theorem find_isSome_of_occursAt (hstart : start ≤ offset) (h : OccursAt pattern s offset) :
    ∃ first ≤ offset, find s pattern start = some first := by
  cases hfind : find s pattern start with
  | none =>
    have hno := List.find?_eq_none.1 hfind offset
      (mem_offsets.2 ⟨hstart, (occursAt_iff.1 h).1⟩)
    exact absurd (List.isPrefixOf_iff_prefix.2 (occursAt_iff.1 h).2) hno
  | some first =>
    obtain ⟨hle, -, hfirst⟩ := find_eq_some hfind
    refine ⟨first, Nat.le_of_not_lt fun hlt => ?_, rfl⟩
    exact hfirst offset hstart hlt h

/-- What is found in the beginning of a sequence is found in the whole sequence. -/
theorem find_extend (hst : s <+: t) (h : find s pattern start = some offset) :
    find t pattern start = some offset := by
  obtain ⟨hstart, hoccurs, hfirst⟩ := find_eq_some h
  obtain ⟨first, hle, hfind⟩ := find_isSome_of_occursAt hstart (hoccurs.extend hst)
  obtain ⟨hstart', hoccurs', -⟩ := find_eq_some hfind
  rcases Nat.lt_or_eq_of_le hle with hlt | rfl
  · have hfits : first + pattern.length ≤ s.length := by
      have := hoccurs.fits
      omega
    exact absurd (hoccurs'.restrict hst hfits) (hfirst first hstart' hlt)
  · exact hfind

/-- What is found in the whole sequence is found in a beginning that holds it. -/
theorem find_restrict (hst : s <+: t) (h : find t pattern start = some offset)
    (hfits : offset + pattern.length ≤ s.length) : find s pattern start = some offset := by
  obtain ⟨hstart, hoccurs, -⟩ := find_eq_some h
  obtain ⟨first, -, hfind⟩ := find_isSome_of_occursAt hstart (hoccurs.restrict hst hfits)
  rw [hfind, ← find_extend hst hfind, h]

/-! ## Patterns in order -/

/-- The end of the last pattern, when each is looked for behind the one before. -/
def searchInOrder (s : List α) : List (List α) → ℕ → Option ℕ
  | [], start => some start
  | pattern :: patterns, start =>
    match find s pattern start with
    | none => none
    | some offset => searchInOrder s patterns (offset + pattern.length)

/-- **Greedy search is complete.**  It finds the patterns iff they stand one behind the other. -/
theorem searchInOrder_isSome_iff : ∀ {patterns : List (List α)} {start : ℕ}, start ≤ s.length →
    ((searchInOrder s patterns start).isSome = true ↔ InOrder patterns (s.drop start))
  | [], start, _ => by simp [searchInOrder, InOrder]
  | pattern :: patterns, start, hstart => by
    unfold searchInOrder
    constructor
    · intro h
      split at h
      · cases h
      · next offset hfind =>
        obtain ⟨hle, hoccurs, -⟩ := find_eq_some hfind
        have hrest := (searchInOrder_isSome_iff hoccurs.fits).1 h
        obtain ⟨before, after, rfl, rfl⟩ := hoccurs
        refine ⟨before.drop start, after, ?_, ?_⟩
        · rw [List.drop_append_of_le_length hle]
        · have hdrop : (before ++ (pattern ++ after)).drop (before.length + pattern.length) = after := by
            rw [← List.append_assoc, ← List.length_append, List.drop_left]
          rwa [hdrop] at hrest
    · rintro ⟨before, after, hsplit, hrest⟩
      have hs : s = (s.take start ++ before) ++ (pattern ++ after) := by
        rw [List.append_assoc, ← hsplit, List.take_append_drop]
      have hoccurs : OccursAt pattern s (start + before.length) :=
        ⟨s.take start ++ before, after, hs, by
          rw [List.length_append, List.length_take, Nat.min_eq_left hstart]⟩
      obtain ⟨first, hle, hfind⟩ := find_isSome_of_occursAt (Nat.le_add_right _ _) hoccurs
      rw [hfind]
      obtain ⟨-, hfirst, -⟩ := find_eq_some hfind
      refine (searchInOrder_isSome_iff hfirst.fits).2 ?_
      -- the first occurrence leaves more of the sequence than any other
      have hafter : after = s.drop (start + before.length + pattern.length) := by
        conv_rhs => rw [hs]
        rw [← List.append_assoc, List.drop_left']
        rw [List.length_append, List.length_append, List.length_take, Nat.min_eq_left hstart]
      have hdrop : s.drop (first + pattern.length) =
          (s.drop (first + pattern.length)).take (start + before.length - first) ++ after := by
        rw [hafter]
        conv_lhs => rw [← List.take_append_drop (start + before.length - first)
          (s.drop (first + pattern.length))]
        rw [List.drop_drop]
        congr 2
        omega
      rw [hdrop]
      exact hrest.append_left _

theorem le_of_searchInOrder : ∀ {patterns : List (List α)} {start stop : ℕ},
    searchInOrder s patterns start = some stop → start ≤ stop
  | [], _, _, h => by
    cases h
    exact Nat.le_refl _
  | pattern :: patterns, start, stop, h => by
    unfold searchInOrder at h
    split at h
    · cases h
    · next offset hfind =>
      have := le_of_searchInOrder h
      have := (find_eq_some hfind).1
      omega

theorem searchInOrder_extend (hst : s <+: t) : ∀ {patterns : List (List α)} {start stop : ℕ},
    searchInOrder s patterns start = some stop → searchInOrder t patterns start = some stop
  | [], _, _, h => h
  | pattern :: patterns, start, stop, h => by
    unfold searchInOrder at h ⊢
    split at h
    · cases h
    · next offset hfind =>
      rw [find_extend hst hfind]
      exact searchInOrder_extend hst h

theorem searchInOrder_restrict (hst : s <+: t) : ∀ {patterns : List (List α)} {start stop : ℕ},
    searchInOrder t patterns start = some stop → stop ≤ s.length →
      searchInOrder s patterns start = some stop
  | [], _, _, h, _ => h
  | pattern :: patterns, start, stop, h, hstop => by
    unfold searchInOrder at h ⊢
    split at h
    · cases h
    · next offset hfind =>
      have hle := le_of_searchInOrder h
      rw [find_restrict hst hfind (by omega)]
      exact searchInOrder_restrict hst h hstop

theorem searchInOrder_append {before after : List (List α)} : ∀ {start : ℕ},
    searchInOrder s (before ++ after) start =
      (searchInOrder s before start).bind (searchInOrder s after) := by
  induction before with
  | nil =>
    intro start
    rfl
  | cons pattern before ih =>
    intro start
    rw [List.cons_append, searchInOrder, searchInOrder]
    cases find s pattern start with
    | none => rfl
    | some offset => exact ih

/-! ## Placements -/

/-- The patterns stand at the offsets, in order and without an overlap. -/
structure Placed (s : List α) (patterns : List (List α)) (offsets : List ℕ) : Prop where
  occurs : List.Forall₂ (fun pattern offset => OccursAt pattern s offset) patterns offsets
  apart : (patterns.zip offsets).Pairwise fun a b => a.2 + a.1.length ≤ b.2

/-- The end of the last pattern, or `start` where there is none. -/
def lastEnd (start : ℕ) : List (List α) → List ℕ → ℕ
  | pattern :: patterns, offset :: offsets => lastEnd (offset + pattern.length) patterns offsets
  | _, _ => start

omit [DecidableEq α] in
theorem placed_cons {patterns : List (List α)} {offsets : List ℕ} :
    Placed s (pattern :: patterns) (offset :: offsets) ↔
      OccursAt pattern s offset ∧ Placed s patterns offsets ∧
        ∀ o ∈ offsets, offset + pattern.length ≤ o := by
  have hbehind : patterns.length = offsets.length →
      ((∀ b ∈ patterns.zip offsets, offset + pattern.length ≤ b.2) ↔
        ∀ o ∈ offsets, offset + pattern.length ≤ o) := by
    intro hlength
    conv_rhs => rw [← List.map_snd_zip (Nat.le_of_eq hlength.symm)]
    simp only [List.mem_map, forall_exists_index, and_imp, forall_apply_eq_imp_iff₂]
  constructor
  · rintro ⟨hoccurs, hapart⟩
    obtain ⟨hoccurs, hrest⟩ := List.forall₂_cons.1 hoccurs
    obtain ⟨hbehind', hapart⟩ := List.pairwise_cons.1 hapart
    exact ⟨hoccurs, ⟨hrest, hapart⟩, (hbehind hrest.length_eq).1 hbehind'⟩
  · rintro ⟨hoccurs, ⟨hrest, hapart⟩, hbehind'⟩
    exact ⟨.cons hoccurs hrest, .cons ((hbehind hrest.length_eq).2 hbehind') hapart⟩

omit [DecidableEq α] in
theorem lastEnd_mono {start start' : ℕ} (h : start ≤ start') (patterns : List (List α))
    (offsets : List ℕ) : lastEnd start patterns offsets ≤ lastEnd start' patterns offsets := by
  cases patterns with
  | nil => exact h
  | cons pattern patterns =>
    cases offsets with
    | nil => exact h
    | cons offset offsets => exact Nat.le_refl _

/-- What greedy search finds is a placement. -/
theorem placed_of_searchInOrder : ∀ {patterns : List (List α)} {start stop : ℕ},
    searchInOrder s patterns start = some stop →
      ∃ offsets, Placed s patterns offsets ∧ (∀ o ∈ offsets, start ≤ o) ∧
        lastEnd start patterns offsets = stop
  | [], start, stop, h => by
    cases h
    exact ⟨[], ⟨.nil, .nil⟩, by simp, rfl⟩
  | pattern :: patterns, start, stop, h => by
    rw [searchInOrder] at h
    split at h
    · cases h
    · next offset hfind =>
      obtain ⟨hstart, hoccurs, -⟩ := find_eq_some hfind
      obtain ⟨offsets, hplaced, hbehind, hend⟩ := placed_of_searchInOrder h
      refine ⟨offset :: offsets, placed_cons.2 ⟨hoccurs, hplaced, hbehind⟩, ?_, hend⟩
      intro o ho
      rcases List.mem_cons.1 ho with rfl | ho
      · exact hstart
      · have := hbehind o ho
        omega

/-- **Greedy search ends first.**  No placement of the patterns ends before it. -/
theorem searchInOrder_le : ∀ {patterns : List (List α)} {offsets : List ℕ} {start : ℕ},
    Placed s patterns offsets → (∀ o ∈ offsets, start ≤ o) →
      ∃ stop ≤ lastEnd start patterns offsets, searchInOrder s patterns start = some stop
  | [], _, start, _, _ => ⟨start, Nat.le_refl _, rfl⟩
  | pattern :: patterns, [], _, h, _ => by cases h.occurs
  | pattern :: patterns, offset :: offsets, start, h, hstart => by
    obtain ⟨hoccurs, hrest, hbehind⟩ := placed_cons.1 h
    obtain ⟨first, hfirst, hfind⟩ :=
      find_isSome_of_occursAt (hstart offset List.mem_cons_self) hoccurs
    -- the first occurrence leaves the offsets of the other patterns where they are
    have hlater : ∀ o ∈ offsets, first + pattern.length ≤ o := by
      intro o ho
      have := hbehind o ho
      omega
    obtain ⟨stop, hstop, hsearch⟩ := searchInOrder_le hrest hlater
    refine ⟨stop, hstop.trans (lastEnd_mono (by omega) patterns offsets), ?_⟩
    rw [searchInOrder, hfind]
    exact hsearch

/-- The patterns can be placed iff greedy search finds them. -/
theorem exists_placed_iff {patterns : List (List α)} :
    (∃ offsets, Placed s patterns offsets) ↔ ∃ stop, searchInOrder s patterns 0 = some stop := by
  constructor
  · rintro ⟨offsets, h⟩
    obtain ⟨stop, -, hsearch⟩ := searchInOrder_le h fun o _ => Nat.zero_le o
    exact ⟨stop, hsearch⟩
  · rintro ⟨stop, h⟩
    obtain ⟨offsets, hplaced, -, -⟩ := placed_of_searchInOrder h
    exact ⟨offsets, hplaced⟩

end

end RulesMkosi
