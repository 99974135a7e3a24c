/-
  Debian control data (`mkosi/private/debian_control.py`).

  `paragraphs` reads deb822 text line by line.  A text of one paragraph is a block of
  lines that are not blank, with blank lines around it; every line of the block is a
  field or continues the field before it.
-/
import RulesMkosi.Lib.Result
import RulesMkosi.Lib.Dict
import RulesMkosi.Lib.Text
import Mathlib.Data.List.TakeWhile

namespace RulesMkosi.DebianControl

abbrev Paragraph := Dict Str Str

/-- `not line.strip()` -/
def isBlank (line : Str) : Bool := strip line = []

/-- `line[0].isspace()` -/
def isIndented (line : Str) : Bool := line.head?.any isSpace

/-- `line.split(":", 1)[0]` -/
def fieldName (line : Str) : Str := line.takeWhile (· ≠ ':')

/-- `line.split(":", 1)[1]` -/
def fieldValue (line : Str) : Str := (line.dropWhile (· ≠ ':')).tail

/-- The state of the loop over the lines. -/
structure Parser where
  result : List Paragraph
  current : Paragraph
  field : Option Str

/-- `current[field] += "\n" + line.strip()` -/
def continueField (current : Paragraph) (field line : Str) : Except Exn Paragraph :=
  match current.get field with
  | some value => .ok (current.set field (value ++ '\n' :: strip line))
  | none => .error (.keyError (String.ofList field))

def parseContinuation (p : Parser) (line : Str) : Except Exn Parser :=
  match p.field with
  | none => .error (.valueError "continuation without a Debian metadata field")
  | some field => do
    let current ← continueField p.current field line
    return { p with current := current }

def parseField (p : Parser) (line : Str) : Except Exn Parser := do
  raiseIf (':' ∉ line)
    (.valueError ("malformed Debian metadata field: " ++ String.ofList line))
  raiseIf ((p.current.get (fieldName line)).isSome = true)
    (.valueError ("duplicate Debian metadata field: " ++ String.ofList (fieldName line)))
  return ⟨p.result, p.current.set (fieldName line) (strip (fieldValue line)), some (fieldName line)⟩

/-- The paragraph that a blank line ends. -/
def closeParagraph (p : Parser) : Parser :=
  if p.current = [] then p else ⟨p.result ++ [p.current], [], none⟩

/-- The loop body. -/
def parseLine (p : Parser) (line : Str) : Except Exn Parser :=
  if isBlank line then .ok (closeParagraph p)
  else if isIndented line then parseContinuation p line
  else parseField p line

def paragraphs (text : Str) : Except Exn (List Paragraph) := do
  let p ← (splitLines text).foldlM parseLine ⟨[], [], none⟩
  return (closeParagraph p).result

/-! ## One paragraph -/

/-- A line that is not blank is more text for the field before it, or a field of a new name. -/
theorem parseLine_cases {p q : Parser} {line : Str} (hline : isBlank line = false)
    (h : parseLine p line = .ok q) :
    (isIndented line = true ∧ ∃ field value, p.field = some field ∧ p.current.get field = some value ∧
      q = ⟨p.result, p.current.set field (value ++ '\n' :: strip line), some field⟩) ∨
    (isIndented line = false ∧ p.current.get (fieldName line) = none ∧
      q = ⟨p.result, p.current.set (fieldName line) (strip (fieldValue line)),
        some (fieldName line)⟩) := by
  simp only [parseLine, hline, Bool.false_eq_true, if_false] at h
  split_ifs at h with hindent
  · left
    unfold parseContinuation continueField at h
    split at h
    · cases h
    · next field hfield =>
      rw [bind_eq_ok] at h
      obtain ⟨current, hcurrent, h⟩ := h
      split at hcurrent
      · next value hvalue =>
        cases hcurrent
        cases h
        exact ⟨hindent, field, value, hfield, hvalue, by rw [hfield]⟩
      · cases hcurrent
  · right
    simp only [parseField, bind_eq_ok, exists_unit, pure_eq_ok, raiseIf_eq_ok,
      Option.not_isSome_iff_eq_none] at h
    obtain ⟨-, hnew, rfl⟩ := h
    exact ⟨by simpa using hindent, hnew, rfl⟩

theorem parseLine_nonblank {p q : Parser} {line : Str} (hline : isBlank line = false)
    (h : parseLine p line = .ok q) : q.result = p.result ∧ q.current ≠ [] := by
  obtain ⟨-, field, value, -, -, rfl⟩ | ⟨-, -, rfl⟩ := parseLine_cases hline h
  · exact ⟨rfl, Dict.set_ne_nil⟩
  · exact ⟨rfl, Dict.set_ne_nil⟩

/-- Paragraphs are only added. -/
theorem parseLines_result : ∀ {lines : List Str} {p q : Parser},
    lines.foldlM parseLine p = .ok q → p.result.length ≤ q.result.length ∧
      (p.current ≠ [] → p.result.length + 1 ≤ (closeParagraph q).result.length)
  | [], p, q, h => by
    rw [List.foldlM_nil, pure_eq_ok] at h
    subst h
    refine ⟨Nat.le_refl _, fun hcurrent => ?_⟩
    rw [closeParagraph, if_neg hcurrent]
    simp
  | line :: lines, p, q, h => by
    rw [List.foldlM_cons, bind_eq_ok] at h
    obtain ⟨p', hline, h⟩ := h
    obtain ⟨hle, hclose⟩ := parseLines_result h
    by_cases hblank : isBlank line = true
    · simp only [parseLine, hblank, if_true, Except.ok.injEq] at hline
      subst hline
      by_cases hcurrent : p.current = []
      · rw [closeParagraph, if_pos hcurrent] at hle
        exact ⟨hle, fun hne => absurd hcurrent hne⟩
      · rw [closeParagraph, if_neg hcurrent] at hle
        simp only [List.length_append, List.length_singleton] at hle
        refine ⟨by omega, fun _ => ?_⟩
        unfold closeParagraph
        split_ifs
        · exact hle
        · simp only [List.length_append, List.length_singleton]; omega
    · obtain ⟨hresult, hcurrent⟩ := parseLine_nonblank (by simpa using hblank) hline
      rw [hresult] at hle hclose
      exact ⟨hle, fun _ => hclose hcurrent⟩

/-- A text that is one paragraph and no more has only blank lines after it. -/
theorem blank_of_closed : ∀ {lines : List Str} {fields : Paragraph} {q : Parser},
    lines.foldlM parseLine ⟨[fields], [], none⟩ = .ok q →
      (closeParagraph q).result.length = 1 → ∀ line ∈ lines, isBlank line = true
  | [], _, _, _, _, line, hmem => absurd hmem List.not_mem_nil
  | first :: lines, fields, q, h, hone, line, hmem => by
    rw [List.foldlM_cons, bind_eq_ok] at h
    obtain ⟨p', hfirst, h⟩ := h
    by_cases hblank : isBlank first = true
    · simp only [parseLine, hblank, if_true, Except.ok.injEq] at hfirst
      have hsame : p' = ⟨[fields], [], none⟩ := hfirst.symm
      rcases List.mem_cons.1 hmem with rfl | hmem
      · exact hblank
      · exact blank_of_closed (hsame ▸ h) hone line hmem
    · obtain ⟨hresult, hcurrent⟩ := parseLine_nonblank (by simpa using hblank) hfirst
      have := (parseLines_result h).2 hcurrent
      rw [hresult] at this
      simp at this
      omega

theorem parseLines_blank {p : Parser} (hp : p.current = []) : ∀ {lines : List Str},
    (∀ line ∈ lines, isBlank line = true) → lines.foldlM parseLine p = .ok p
  | [], _ => rfl
  | line :: lines, h => by
    have hline : parseLine p line = .ok p := by
      rw [parseLine, if_pos (h line List.mem_cons_self), closeParagraph, if_pos hp]
    rw [List.foldlM_cons, hline, ok_bind]
    exact parseLines_blank hp fun l hl => h l (List.mem_cons_of_mem _ hl)

/-- The rest of the only paragraph, once it has started. -/
theorem body_of_open : ∀ {lines : List Str} {current fields : Paragraph} {field : Option Str}
    {q : Parser}, current ≠ [] → lines.foldlM parseLine ⟨[], current, field⟩ = .ok q →
      (closeParagraph q).result = [fields] →
      ∃ body post field', lines = body ++ post ∧ (∀ line ∈ body, isBlank line = false) ∧
        (∀ line ∈ post, isBlank line = true) ∧
        body.foldlM parseLine ⟨[], current, field⟩ = .ok ⟨[], fields, field'⟩
  | [], current, fields, field, q, hcurrent, h, hone => by
    rw [List.foldlM_nil, pure_eq_ok] at h
    subst h
    rw [closeParagraph, if_neg hcurrent] at hone
    obtain rfl : current = fields := List.head_eq_of_cons_eq hone
    exact ⟨[], [], field, rfl, by simp, by simp, rfl⟩
  | line :: lines, current, fields, field, q, hcurrent, h, hone => by
    rw [List.foldlM_cons, bind_eq_ok] at h
    obtain ⟨p', hline, h⟩ := h
    by_cases hblank : isBlank line = true
    · -- the paragraph ends here
      simp only [parseLine, hblank, if_true, closeParagraph, if_neg hcurrent, List.nil_append,
        Except.ok.injEq] at hline
      subst hline
      have hrest := blank_of_closed h (by rw [hone]; rfl)
      rw [parseLines_blank rfl hrest, Except.ok.injEq] at h
      subst h
      obtain rfl : current = fields := List.head_eq_of_cons_eq hone
      refine ⟨[], line :: lines, field, rfl, by simp, ?_, rfl⟩
      exact List.forall_mem_cons.2 ⟨hblank, hrest⟩
    · have hnonblank : isBlank line = false := by simpa using hblank
      obtain ⟨hresult, hcurrent'⟩ := parseLine_nonblank hnonblank hline
      obtain ⟨result, current', field'⟩ := p'
      obtain rfl : result = [] := hresult
      obtain ⟨body, post, field'', rfl, hbody, hpost, hrun⟩ := body_of_open hcurrent' h hone
      refine ⟨line :: body, post, field'', rfl, ?_, hpost, ?_⟩
      · exact List.forall_mem_cons.2 ⟨hnonblank, hbody⟩
      · rw [List.foldlM_cons, hline, ok_bind, hrun]

/-- **A text of one paragraph** is a block of lines that are not blank, between blank lines. -/
theorem one_paragraph : ∀ {lines : List Str} {fields : Paragraph} {q : Parser},
    lines.foldlM parseLine ⟨[], [], none⟩ = .ok q → (closeParagraph q).result = [fields] →
      ∃ pre body post field, lines = pre ++ body ++ post ∧ (∀ line ∈ pre, isBlank line = true) ∧
        (∀ line ∈ body, isBlank line = false) ∧ (∀ line ∈ post, isBlank line = true) ∧
        body.foldlM parseLine ⟨[], [], none⟩ = .ok ⟨[], fields, field⟩
  | [], fields, q, h, hone => by
    rw [List.foldlM_nil, pure_eq_ok] at h
    subst h
    cases hone
  | line :: lines, fields, q, h, hone => by
    rw [List.foldlM_cons, bind_eq_ok] at h
    obtain ⟨p', hline, h⟩ := h
    by_cases hblank : isBlank line = true
    · simp only [parseLine, hblank, if_true, Except.ok.injEq] at hline
      have hsame : p' = ⟨[], [], none⟩ := hline.symm
      obtain ⟨pre, body, post, field, rfl, hpre, hbody, hpost, hrun⟩ := one_paragraph (hsame ▸ h) hone
      exact ⟨line :: pre, body, post, field, rfl, List.forall_mem_cons.2 ⟨hblank, hpre⟩, hbody,
        hpost, hrun⟩
    · have hnonblank : isBlank line = false := by simpa using hblank
      obtain ⟨hresult, hcurrent'⟩ := parseLine_nonblank hnonblank hline
      obtain ⟨result, current', field'⟩ := p'
      obtain rfl : result = [] := hresult
      obtain ⟨body, post, field'', rfl, hbody, hpost, hrun⟩ := body_of_open hcurrent' h hone
      refine ⟨[], line :: body, post, field'', rfl, by simp, ?_, hpost, ?_⟩
      · exact List.forall_mem_cons.2 ⟨hnonblank, hbody⟩
      · rw [List.foldlM_cons, hline, ok_bind, hrun]

/-! ## The fields of a block -/

section
variable {key : Str}

/-- A field keeps its value once another field has started. -/
theorem get_of_other_field : ∀ {lines : List Str} {p q : Parser} {value : Str},
    (∀ line ∈ lines, isBlank line = false) → lines.foldlM parseLine p = .ok q →
      p.current.get key = some value → p.field ≠ some key → q.current.get key = some value
  | [], p, q, value, _, h, hget, _ => by
    rw [List.foldlM_nil, pure_eq_ok] at h
    exact h ▸ hget
  | line :: lines, p, q, value, hlines, h, hget, hfield => by
    rw [List.foldlM_cons, bind_eq_ok] at h
    obtain ⟨p', hline, h⟩ := h
    obtain ⟨hblank, hlines⟩ := List.forall_mem_cons.1 hlines
    refine get_of_other_field hlines h ?_ ?_
    · obtain ⟨-, field, v, hp, hv, rfl⟩ | ⟨-, hnew, rfl⟩ := parseLine_cases hblank hline
      · rw [Dict.get_set_ne _ _ (by rintro rfl; exact hfield hp), hget]
      · rw [Dict.get_set_ne _ _ (by rintro rfl; rw [hget] at hnew; cases hnew), hget]
    · obtain ⟨-, field, v, hp, hv, rfl⟩ | ⟨-, hnew, rfl⟩ := parseLine_cases hblank hline
      · rwa [hp] at hfield
      · simp only [ne_eq, Option.some.injEq]
        rintro rfl
        rw [hget] at hnew
        cases hnew

/-- A field's continuation lines are appended to its value. -/
theorem get_of_continuations : ∀ {lines : List Str} {p q : Parser} {value : Str},
    (∀ line ∈ lines, isBlank line = false) → (∀ line ∈ lines, isIndented line = true) →
      lines.foldlM parseLine p = .ok q → p.field = some key → p.current.get key = some value →
      q.field = some key ∧
        q.current.get key = some (value ++ lines.flatMap fun line => '\n' :: strip line)
  | [], p, q, value, _, _, h, hfield, hget => by
    rw [List.foldlM_nil, pure_eq_ok] at h
    subst h
    exact ⟨hfield, by simpa using hget⟩
  | line :: lines, p, q, value, hlines, hindented, h, hfield, hget => by
    rw [List.foldlM_cons, bind_eq_ok] at h
    obtain ⟨p', hline, h⟩ := h
    obtain ⟨hblank, hlines⟩ := List.forall_mem_cons.1 hlines
    obtain ⟨hindent, hindented⟩ := List.forall_mem_cons.1 hindented
    obtain ⟨-, field, v, hp, hv, rfl⟩ | ⟨hnot, -⟩ := parseLine_cases hblank hline
    · have hkey : field = key := Option.some.inj (hp.symm.trans hfield)
      rw [hkey, hget, Option.some.injEq] at hv
      rw [hkey, ← hv] at h
      have ih := get_of_continuations hlines hindented h rfl (Dict.get_set_self _ _ _)
      simpa using ih
    · rw [hindent] at hnot
      cases hnot

/-- A field that is present does not start again. -/
theorem fieldName_ne_of_get : ∀ {lines : List Str} {p q : Parser} {value : Str},
    (∀ line ∈ lines, isBlank line = false) → lines.foldlM parseLine p = .ok q →
      p.current.get key = some value →
      ∀ line ∈ lines, isIndented line = false → fieldName line ≠ key
  | first :: lines, p, q, value, hlines, h, hget, line, hmem, hindent => by
    rw [List.foldlM_cons, bind_eq_ok] at h
    obtain ⟨p', hfirst, h⟩ := h
    obtain ⟨hblank, hlines⟩ := List.forall_mem_cons.1 hlines
    obtain ⟨value', hget'⟩ : ∃ value', p'.current.get key = some value' := by
      obtain ⟨-, field, v, -, -, rfl⟩ | ⟨-, -, rfl⟩ := parseLine_cases hblank hfirst
      · rw [Dict.get_set]; split_ifs <;> exact ⟨_, by first | rfl | exact hget⟩
      · rw [Dict.get_set]; split_ifs <;> exact ⟨_, by first | rfl | exact hget⟩
    rcases List.mem_cons.1 hmem with rfl | hmem
    · obtain ⟨hnot, -⟩ | ⟨-, hnew, -⟩ := parseLine_cases hblank hfirst
      · rw [hindent] at hnot
        cases hnot
      · rintro rfl
        rw [hget] at hnew
        cases hnew
    · exact fieldName_ne_of_get hlines h hget' line hmem hindent

end

/-- A block in two parts. -/
theorem foldlM_append_eq_ok {lines₁ lines₂ : List Str} {p q : Parser} :
    (lines₁ ++ lines₂).foldlM parseLine p = .ok q ↔
      ∃ mid, lines₁.foldlM parseLine p = .ok mid ∧ lines₂.foldlM parseLine mid = .ok q := by
  rw [List.foldlM_append, bind_eq_ok]

/-- Fields that start later have other names. -/
theorem fieldName_ne_after {line : Str} {after : List Str} {p q : Parser}
    (hblank : ∀ l ∈ line :: after, isBlank l = false) (hindent : isIndented line = false)
    (h : (line :: after).foldlM parseLine p = .ok q) :
    ∀ l ∈ after, isIndented l = false → fieldName l ≠ fieldName line := by
  rw [List.foldlM_cons, bind_eq_ok] at h
  obtain ⟨p', hline, h⟩ := h
  obtain ⟨hfirst, hafter⟩ := List.forall_mem_cons.1 hblank
  obtain ⟨hnot, -⟩ | ⟨-, -, rfl⟩ := parseLine_cases hfirst hline
  · rw [hindent] at hnot
    cases hnot
  · exact fieldName_ne_of_get hafter h (Dict.get_set_self _ _ _)

/-- **The value of a field:** the text after its colon and its continuation lines. -/
theorem get_field {line : Str} {after : List Str} {p q : Parser}
    (hblank : ∀ l ∈ line :: after, isBlank l = false) (hindent : isIndented line = false)
    (h : (line :: after).foldlM parseLine p = .ok q) :
    q.current.get (fieldName line) = some (strip (fieldValue line) ++
      (after.takeWhile isIndented).flatMap fun l => '\n' :: strip l) := by
  have hnames := fieldName_ne_after hblank hindent h
  rw [List.foldlM_cons, bind_eq_ok] at h
  obtain ⟨p', hline, h⟩ := h
  obtain ⟨hfirst, hafter⟩ := List.forall_mem_cons.1 hblank
  obtain ⟨hnot, -⟩ | ⟨-, -, rfl⟩ := parseLine_cases hfirst hline
  · rw [hindent] at hnot
    cases hnot
  have hsplit := List.takeWhile_append_dropWhile (p := isIndented) (l := after)
  generalize hconts : after.takeWhile isIndented = conts at hsplit ⊢
  generalize hrest : after.dropWhile isIndented = rest at hsplit
  subst hsplit
  obtain ⟨mid, hmid, h⟩ := foldlM_append_eq_ok.1 h
  have hindented : ∀ l ∈ conts, isIndented l = true := by
    rw [← hconts]
    exact fun l hl => List.mem_takeWhile_imp hl
  obtain ⟨-, hget⟩ := get_of_continuations
    (fun l hl => hafter l (List.mem_append_left _ hl)) hindented hmid rfl (Dict.get_set_self _ _ _)
  cases rest with
  | nil =>
    rw [List.foldlM_nil, pure_eq_ok] at h
    exact h ▸ hget
  | cons next rest =>
    have hnext : isIndented next = false := by
      have := List.head?_dropWhile_not isIndented (conts ++ next :: rest)
      rw [hrest] at this
      simpa using this
    -- the next field is another one, so the value does not change any more
    rw [List.foldlM_cons, bind_eq_ok] at h
    obtain ⟨p'', hline', h⟩ := h
    have hne := hnames next (by simp) hnext
    have hblank' : isBlank next = false := hafter next (by simp)
    obtain ⟨hnot, -⟩ | ⟨-, -, rfl⟩ := parseLine_cases hblank' hline'
    · rw [hnext] at hnot
      cases hnot
    · refine get_of_other_field (fun l hl => hafter l (by simp [hl])) h ?_ ?_
      · rw [Dict.get_set_ne _ _ hne, hget]
      · simpa using hne

end RulesMkosi.DebianControl
