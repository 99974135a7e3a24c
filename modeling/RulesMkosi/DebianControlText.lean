/-
  Control data that is written and read back.

  A `Document` is deb822 text with its parts apart: fields with their continuation
  lines, paragraphs of fields, and the blank lines around the paragraphs.
  `Document.paragraphs_text`: `paragraphs` reads the text of a document as the
  paragraphs that it was written from.
-/
import RulesMkosi.DebianRelease

namespace RulesMkosi.DebianControl

/-! ## Documents -/

/-- A line of a value: without white space around it and without a line boundary. -/
def IsValueLine (line : Str) : Prop :=
  strip line = line ∧ ∀ c ∈ line, isLineBreak c = false

/-- White space that may stand before the text of a line. -/
def IsIndent (indent : Str) : Prop := ∀ c ∈ indent, c = ' ' ∨ c = '\t'

/-- A line that separates paragraphs. -/
def IsSeparator (line : Str) : Prop := ∀ c ∈ line, isSpace c = true ∧ isLineBreak c = false

/-- A continuation line. -/
structure Continuation where
  indent : Str
  line : Str
  indent_ne_nil : indent ≠ []
  indent_spaces : IsIndent indent
  line_ne_nil : line ≠ []
  line_valid : IsValueLine line

/-- A field with the way it is written: `gap` is the white space behind the colon. -/
structure FieldText where
  name : Str
  gap : Str
  first : Str
  more : List Continuation
  name_chars : ∀ c ∈ name, c ≠ ':' ∧ isLineBreak c = false
  name_start : ∀ c ∈ name.head?, isSpace c = false
  gap_spaces : IsIndent gap
  first_valid : IsValueLine first

structure ParagraphText where
  fields : List FieldText
  fields_ne_nil : fields ≠ []
  names_nodup : (fields.map FieldText.name).Nodup

/-- Paragraphs, each with the blank lines behind it.  Only the last one may have none. -/
structure Document where
  before : List Str
  items : List (ParagraphText × List Str)
  before_blank : ∀ line ∈ before, IsSeparator line
  after_blank : ∀ item ∈ items, ∀ line ∈ item.2, IsSeparator line
  separated : ∀ item ∈ items.dropLast, item.2 ≠ []

def Continuation.text (l : Continuation) : Str := l.indent ++ l.line

/-- `name: first line` -/
def FieldText.heading (f : FieldText) : Str := f.name ++ ':' :: (f.gap ++ f.first)

def FieldText.lines (f : FieldText) : List Str := f.heading :: f.more.map Continuation.text

/-- The lines of the value, joined by line feeds. -/
def FieldText.value (f : FieldText) : Str := f.first ++ f.more.flatMap fun l => '\n' :: l.line

def ParagraphText.lines (t : ParagraphText) : List Str := t.fields.flatMap FieldText.lines

/-- The fields in the order in which they are written. -/
def ParagraphText.paragraph (t : ParagraphText) : Paragraph := t.fields.map fun f => (f.name, f.value)

def Document.lines (d : Document) : List Str :=
  d.before ++ d.items.flatMap fun item => item.1.lines ++ item.2

/-- The text, with or without a line feed behind the last line. -/
def Document.text (d : Document) (final : Bool) : Str := writeLines d.lines final

def Document.paragraphs (d : Document) : List Paragraph := d.items.map fun item => item.1.paragraph

/-! ## Single lines -/

theorem IsIndent.isSpace {indent : Str} (h : IsIndent indent) : ∀ c ∈ indent, isSpace c = true := by
  intro c hc
  rcases h c hc with rfl | rfl
  · rfl
  · rfl

theorem IsIndent.no_break {indent : Str} (h : IsIndent indent) :
    ∀ c ∈ indent, isLineBreak c = false := by
  intro c hc
  rcases h c hc with rfl | rfl
  · rfl
  · rfl

theorem IsSeparator.isBlank {line : Str} (h : IsSeparator line) : isBlank line = true :=
  decide_eq_true (strip_eq_nil_iff.2 fun c hc => (h c hc).1)

namespace Continuation

variable (l : Continuation)

theorem strip_text : strip l.text = l.line := by
  rw [text, strip_spaces_append l.indent_spaces.isSpace, l.line_valid.1]

theorem not_isBlank : isBlank l.text = false := by
  rw [isBlank, l.strip_text]
  exact decide_eq_false l.line_ne_nil

theorem isIndented : isIndented l.text = true := by
  obtain ⟨c, rest, hindent⟩ := List.exists_cons_of_ne_nil l.indent_ne_nil
  have hc : isSpace c = true := l.indent_spaces.isSpace c (by rw [hindent]; exact List.mem_cons_self)
  rw [text, hindent]
  exact hc

theorem no_break : ∀ c ∈ l.text, isLineBreak c = false := by
  intro c hc
  rcases List.mem_append.1 hc with hc | hc
  · exact l.indent_spaces.no_break c hc
  · exact l.line_valid.2 c hc

end Continuation

namespace FieldText

variable (f : FieldText)

theorem colon_mem_heading : ':' ∈ f.heading := by simp [heading]

theorem not_isBlank : isBlank f.heading = false := by
  refine decide_eq_false fun h => ?_
  exact absurd (strip_eq_nil_iff.1 h ':' f.colon_mem_heading) (by decide)

theorem not_isIndented : isIndented f.heading = false := by
  have hstart := f.name_start
  unfold heading isIndented
  cases hname : f.name with
  | nil => rfl
  | cons c name =>
    rw [hname] at hstart
    exact hstart c rfl

theorem fieldName_heading : fieldName f.heading = f.name := by
  unfold heading fieldName
  rw [List.takeWhile_append_of_pos (fun c hc => decide_eq_true (f.name_chars c hc).1),
    List.takeWhile_cons_of_neg (by simp), List.append_nil]

theorem fieldValue_heading : strip (fieldValue f.heading) = f.first := by
  unfold heading fieldValue
  rw [List.dropWhile_append_of_pos (fun c hc => decide_eq_true (f.name_chars c hc).1),
    List.dropWhile_cons_of_neg (by simp), List.tail_cons, strip_spaces_append f.gap_spaces.isSpace,
    f.first_valid.1]

theorem no_break : ∀ line ∈ f.lines, ∀ c ∈ line, isLineBreak c = false := by
  refine List.forall_mem_cons.2 ⟨fun c hc => ?_, fun line hline => ?_⟩
  · rcases List.mem_append.1 hc with hc | hc
    · exact (f.name_chars c hc).2
    · rcases List.mem_cons.1 hc with rfl | hc
      · rfl
      · rcases List.mem_append.1 hc with hc | hc
        · exact f.gap_spaces.no_break c hc
        · exact f.first_valid.2 c hc
  · obtain ⟨l, -, rfl⟩ := List.mem_map.1 hline
    exact l.no_break

end FieldText

theorem Document.no_break (d : Document) : ∀ line ∈ d.lines, ∀ c ∈ line, isLineBreak c = false := by
  intro line hline
  rcases List.mem_append.1 hline with hbefore | hitems
  · exact fun c hc => (d.before_blank line hbefore c hc).2
  · obtain ⟨item, hitem, hline⟩ := List.mem_flatMap.1 hitems
    rcases List.mem_append.1 hline with hfields | hafter
    · obtain ⟨f, -, hline⟩ := List.mem_flatMap.1 hfields
      exact f.no_break line hline
    · exact fun c hc => (d.after_blank item hitem line hafter c hc).2

/-! ## The run of the parser -/

theorem parseLine_heading {p : Parser} {f : FieldText} (h : f.name ∉ p.current.keys) :
    parseLine p f.heading = .ok ⟨p.result, p.current.set f.name f.first, some f.name⟩ := by
  have hnew : ¬(p.current.get f.name).isSome = true := fun hsome => h (Dict.get_isSome.1 hsome)
  rw [parseLine, f.not_isBlank, if_neg Bool.false_ne_true, f.not_isIndented,
    if_neg Bool.false_ne_true, parseField, raiseIf_of_not (not_not.2 f.colon_mem_heading), ok_bind,
    f.fieldName_heading, raiseIf_of_not hnew, ok_bind, f.fieldValue_heading]
  rfl

theorem parseLine_continuation {result : List Paragraph} {current : Paragraph} {name value : Str}
    (l : Continuation) :
    parseLine ⟨result, current.set name value, some name⟩ l.text =
      .ok ⟨result, current.set name (value ++ '\n' :: l.line), some name⟩ := by
  rw [parseLine, l.not_isBlank, if_neg Bool.false_ne_true, if_pos l.isIndented, parseContinuation]
  simp only [continueField, Dict.get_set_self, l.strip_text, Dict.set_set]
  rfl

/-- The loop over the continuation lines of a field. -/
theorem parseLines_continuations {result : List Paragraph} {current : Paragraph} {name : Str} :
    ∀ {more : List Continuation} {value : Str},
      (more.map Continuation.text).foldlM parseLine ⟨result, current.set name value, some name⟩ =
        .ok ⟨result, current.set name (value ++ more.flatMap fun l => '\n' :: l.line), some name⟩
  | [], value => by
    rw [List.flatMap_nil, List.append_nil]
    rfl
  | l :: more, value => by
    rw [List.map_cons, List.foldlM_cons, parseLine_continuation, ok_bind, parseLines_continuations,
      List.append_assoc]
    rfl

/-- A field of a new name is added to the paragraph. -/
theorem parseLines_field {p : Parser} {f : FieldText} (h : f.name ∉ p.current.keys) :
    f.lines.foldlM parseLine p =
      .ok ⟨p.result, p.current ++ [(f.name, f.value)], some f.name⟩ := by
  rw [FieldText.lines, List.foldlM_cons, parseLine_heading h, ok_bind, parseLines_continuations,
    Dict.set_of_notMem h]
  rfl

/-- The loop over the fields of a paragraph. -/
theorem parseLines_fields {result : List Paragraph} : ∀ {fields : List FieldText}
    {current : Paragraph} {field : Option Str},
      (current.keys ++ fields.map FieldText.name).Nodup →
      ∃ field', (fields.flatMap FieldText.lines).foldlM parseLine ⟨result, current, field⟩ =
        .ok ⟨result, current ++ fields.map fun f => (f.name, f.value), field'⟩
  | [], current, field, _ => by
    rw [List.map_nil, List.append_nil]
    exact ⟨field, rfl⟩
  | f :: fields, current, field, h => by
    have hnew : f.name ∉ current.keys := fun hin =>
      (List.nodup_append.1 h).2.2 _ hin _ List.mem_cons_self rfl
    have hrest : (Dict.keys (current ++ [(f.name, f.value)]) ++ fields.map FieldText.name).Nodup := by
      simpa [Dict.keys] using h
    obtain ⟨field', hrun⟩ := @parseLines_fields result fields _ (some f.name) hrest
    refine ⟨field', ?_⟩
    rw [List.flatMap_cons, List.foldlM_append, parseLines_field hnew, ok_bind, hrun, List.map_cons,
      List.append_assoc]
    rfl

theorem ParagraphText.paragraph_ne_nil (t : ParagraphText) : t.paragraph ≠ [] :=
  fun h => t.fields_ne_nil (List.map_eq_nil_iff.1 h)

theorem parseLines_paragraph {result : List Paragraph} (t : ParagraphText) :
    ∃ field, t.lines.foldlM parseLine ⟨result, [], none⟩ = .ok ⟨result, t.paragraph, field⟩ := by
  have h := @parseLines_fields result t.fields [] none (by simpa [Dict.keys] using t.names_nodup)
  rwa [List.nil_append] at h

/-- The loop over the paragraphs: the induction is on the items, and only the last paragraph can
    be open at the end. -/
theorem parseLines_items : ∀ {items : List (ParagraphText × List Str)} {result : List Paragraph},
    (∀ item ∈ items, ∀ line ∈ item.2, IsSeparator line) → (∀ item ∈ items.dropLast, item.2 ≠ []) →
      ∃ p, (items.flatMap fun item => item.1.lines ++ item.2).foldlM parseLine ⟨result, [], none⟩ =
          .ok p ∧
        (closeParagraph p).result = result ++ items.map fun item => item.1.paragraph
  | [], result, _, _ => ⟨⟨result, [], none⟩, rfl, (List.append_nil _).symm⟩
  | (t, after) :: items, result, hblank, hseparated => by
    obtain ⟨hafter, hblanks⟩ := List.forall_mem_cons.1 hblank
    obtain ⟨field, hrun⟩ := @parseLines_paragraph result t
    have hclose : closeParagraph ⟨result, t.paragraph, field⟩ = ⟨result ++ [t.paragraph], [], none⟩ :=
      if_neg t.paragraph_ne_nil
    cases after with
    | nil =>
      -- without a separator this is the last paragraph
      obtain rfl : items = [] := by
        by_contra hitems
        rw [List.dropLast_cons_of_ne_nil hitems] at hseparated
        exact hseparated _ List.mem_cons_self rfl
      refine ⟨⟨result, t.paragraph, field⟩, ?_, ?_⟩
      · simpa using hrun
      · rw [hclose]
        rfl
    | cons first after =>
      obtain ⟨hfirst, hafter⟩ := List.forall_mem_cons.1 hafter
      have hrest : ∀ item ∈ items.dropLast, item.2 ≠ [] := by
        intro item hitem
        refine hseparated item ?_
        rw [List.dropLast_cons_of_ne_nil (List.ne_nil_of_mem (List.dropLast_subset _ hitem))]
        exact List.mem_cons_of_mem _ hitem
      obtain ⟨p, hitems, hresult⟩ := @parseLines_items items (result ++ [t.paragraph]) hblanks hrest
      refine ⟨p, ?_, ?_⟩
      · have hline : parseLine ⟨result, t.paragraph, field⟩ first =
            .ok ⟨result ++ [t.paragraph], [], none⟩ := by
          rw [parseLine, if_pos hfirst.isBlank, hclose]
        rw [List.flatMap_cons, List.foldlM_append, List.foldlM_append, hrun, ok_bind,
          List.foldlM_cons, hline, ok_bind,
          parseLines_blank rfl fun line hline => (hafter line hline).isBlank, ok_bind, hitems]
      · rw [hresult, List.append_assoc]
        rfl

theorem Document.parseLines (d : Document) :
    ∃ p, d.lines.foldlM parseLine ⟨[], [], none⟩ = .ok p ∧ (closeParagraph p).result = d.paragraphs := by
  obtain ⟨p, hrun, hresult⟩ := @parseLines_items d.items [] d.after_blank d.separated
  refine ⟨p, ?_, by rw [hresult]; rfl⟩
  rw [Document.lines, List.foldlM_append,
    parseLines_blank rfl fun line hline => (d.before_blank line hline).isBlank, ok_bind, hrun]

/-! ## The text -/

theorem closeParagraph_close (p : Parser) : closeParagraph (closeParagraph p) = closeParagraph p := by
  by_cases h : p.current = []
  · have hclose : closeParagraph p = p := if_pos h
    rw [hclose, hclose]
  · rw [closeParagraph, closeParagraph, if_neg h, if_pos rfl]

/-- An empty line at the end of the text makes no difference. -/
theorem paragraphs_of_lines {text : Str} {lines : List Str} {p : Parser}
    (hlines : splitLines text = lines ∨ splitLines text = lines ++ [[]] ∨
      lines = splitLines text ++ [[]])
    (hrun : lines.foldlM parseLine ⟨[], [], none⟩ = .ok p) :
    paragraphs text = .ok (closeParagraph p).result := by
  have hempty : ∀ q : Parser, parseLine q [] = .ok (closeParagraph q) := fun _ => rfl
  unfold paragraphs
  rcases hlines with h | h | h
  · rw [h, hrun]
    rfl
  · rw [h, List.foldlM_append, hrun, ok_bind, List.foldlM_cons, hempty, ok_bind, List.foldlM_nil,
      pure_bind, closeParagraph_close]
    rfl
  · rw [h] at hrun
    obtain ⟨mid, hmid, hlast⟩ := foldlM_append_eq_ok.1 hrun
    rw [List.foldlM_cons, hempty, ok_bind, List.foldlM_nil, pure_eq_ok] at hlast
    rw [hmid, ok_bind, ← hlast, closeParagraph_close]
    rfl

theorem Document.paragraphs_eq (d : Document) (final : Bool) :
    DebianControl.paragraphs (d.text final) = .ok d.paragraphs := by
  obtain ⟨p, hrun, hresult⟩ := d.parseLines
  rw [Document.text, paragraphs_of_lines (splitLines_writeLines final d.no_break) hrun, hresult]

/-- **What is written is read back.**  The parser of the staging action and the one of the
    generator return the paragraphs of a document, in its order. -/
theorem Document.paragraphs_text (d : Document) (final : Bool) :
    DebianControl.paragraphs (d.text final) = .ok d.paragraphs ∧
      DebianRelease.lockParagraphs (d.text final) = .ok d.paragraphs := by
  refine ⟨d.paragraphs_eq final, ?_⟩
  rw [DebianRelease.lockParagraphs, d.paragraphs_eq final]

/-- `SHA256:`, with its value on the next line. -/
def digestsField : FieldText where
  name := "SHA256".toList
  gap := []
  first := []
  more := [{
    indent := [' ']
    line := "00 1 Packages".toList
    indent_ne_nil := by decide
    indent_spaces := forall_mem_of_all (by decide)
    line_ne_nil := by decide
    line_valid := ⟨by decide, forall_mem_of_all (by decide)⟩ }]
  name_chars := forall_mem_of_all (by decide)
  name_start := by simp [isSpace]
  gap_spaces := forall_mem_of_all (by decide)
  first_valid := ⟨by decide, forall_mem_of_all (by decide)⟩

/-- `Suite: trixie` -/
def suiteField : FieldText where
  name := "Suite".toList
  gap := [' ']
  first := "trixie".toList
  more := []
  name_chars := forall_mem_of_all (by decide)
  name_start := by simp [isSpace]
  gap_spaces := forall_mem_of_all (by decide)
  first_valid := ⟨by decide, forall_mem_of_all (by decide)⟩

/-- Two paragraphs, with a line of white space between them. -/
def exampleDocument : Document where
  before := [[]]
  items := [(⟨[digestsField], by decide, by decide⟩, [[' ', '\t']]),
    (⟨[suiteField], by decide, by decide⟩, [])]
  before_blank := by simp [IsSeparator]
  after_blank := by simp [IsSeparator, isSpace, isLineBreak]
  separated := by decide

example : exampleDocument.text true =
    "\nSHA256:\n 00 1 Packages\n \t\nSuite: trixie\n".toList := by decide

example : exampleDocument.paragraphs =
    [[("SHA256".toList, "\n00 1 Packages".toList)], [("Suite".toList, "trixie".toList)]] := by decide

end RulesMkosi.DebianControl
