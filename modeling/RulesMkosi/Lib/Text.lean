/-
  Text as Python's `str` methods read it.

  A string is the list of its characters.  White space, line boundaries and
  digits are those of `str.split`, `str.splitlines`, `str.isdigit` and `int`.
-/
import Mathlib.Data.List.Basic
import Mathlib.Data.List.TakeWhile
import Mathlib.Data.Nat.Notation
import Mathlib.Algebra.Group.Nat.Defs

namespace RulesMkosi

abbrev Str := List Char

instance instLawfulBEqStr : LawfulBEq Str := inferInstance

/-- `c.isspace()` -/
def isSpace (c : Char) : Bool :=
  let n := c.toNat
  (0x09 ≤ n ∧ n ≤ 0x0D) ∨ (0x1C ≤ n ∧ n ≤ 0x20) ∨ n = 0x85 ∨ n = 0xA0 ∨ n = 0x1680 ∨
    (0x2000 ≤ n ∧ n ≤ 0x200A) ∨ n = 0x2028 ∨ n = 0x2029 ∨ n = 0x202F ∨ n = 0x205F ∨ n = 0x3000

/-- `str.splitlines` ends a line here. -/
def isLineBreak (c : Char) : Bool :=
  let n := c.toNat
  (0x0A ≤ n ∧ n ≤ 0x0D) ∨ (0x1C ≤ n ∧ n ≤ 0x1E) ∨ n = 0x85 ∨ n = 0x2028 ∨ n = 0x2029

/-- The digit zero of every decimal digit block of Unicode 16, the version of Python 3.14. -/
def decimalZeros : List ℕ :=
  [0x30, 0x660, 0x6F0, 0x7C0, 0x966, 0x9E6, 0xA66, 0xAE6, 0xB66, 0xBE6, 0xC66, 0xCE6, 0xD66, 0xDE6,
    0xE50, 0xED0, 0xF20, 0x1040, 0x1090, 0x17E0, 0x1810, 0x1946, 0x19D0, 0x1A80, 0x1A90, 0x1B50,
    0x1BB0, 0x1C40, 0x1C50, 0xA620, 0xA8D0, 0xA900, 0xA9D0, 0xA9F0, 0xAA50, 0xABF0, 0xFF10, 0x104A0,
    0x10D30, 0x10D40, 0x11066, 0x110F0, 0x11136, 0x111D0, 0x112F0, 0x11450, 0x114D0, 0x11650,
    0x116C0, 0x116D0, 0x116DA, 0x11730, 0x118E0, 0x11950, 0x11BF0, 0x11C50, 0x11D50, 0x11DA0,
    0x11F50, 0x16130, 0x16A60, 0x16AC0, 0x16B50, 0x16D70, 0x1CCF0, 0x1D7CE, 0x1D7D8, 0x1D7E2,
    0x1D7EC, 0x1D7F6, 0x1E140, 0x1E2F0, 0x1E4F0, 0x1E5F1, 0x1E950, 0x1FBF0]

/-- Digits that are not decimal, such as superscripts: `isdigit` accepts them, `int` does not. -/
def otherDigits : List (ℕ × ℕ) :=
  [(0xB2, 0xB3), (0xB9, 0xB9), (0x1369, 0x1371), (0x19DA, 0x19DA), (0x2070, 0x2070),
    (0x2074, 0x2079), (0x2080, 0x2089), (0x2460, 0x2468), (0x2474, 0x247C), (0x2488, 0x2490),
    (0x24EA, 0x24EA), (0x24F5, 0x24FD), (0x24FF, 0x24FF), (0x2776, 0x277E), (0x2780, 0x2788),
    (0x278A, 0x2792), (0x10A40, 0x10A43), (0x10E60, 0x10E68), (0x11052, 0x1105A), (0x1F100, 0x1F10A)]

/-- The value of a decimal digit. -/
def decimalValue (c : Char) : Option ℕ :=
  (decimalZeros.find? fun z => z ≤ c.toNat ∧ c.toNat < z + 10).map (c.toNat - ·)

def isDigitChar (c : Char) : Bool :=
  (decimalValue c).isSome || otherDigits.any fun r => r.1 ≤ c.toNat ∧ c.toNat ≤ r.2

/-- `s.isdigit()` -/
def isDigit (s : Str) : Bool := s ≠ [] ∧ s.all isDigitChar

/-- The longest string of digits that `int` converts. -/
def maxIntDigits : ℕ := 4300

/-- `int(s)` for a string of digits; `none` where it raises. -/
def toInt (s : Str) : Option ℕ :=
  if maxIntDigits < s.length then none
  else s.foldlM (fun n c => (decimalValue c).map (10 * n + ·)) 0

/-- The lines after a started line; `cur` is its reversed text so far. -/
def splitLinesFrom : Str → Str → List Str
  | cur, [] => if cur = [] then [] else [cur.reverse]
  | cur, '\r' :: '\n' :: rest => cur.reverse :: splitLinesFrom [] rest
  | cur, c :: rest =>
    if isLineBreak c then cur.reverse :: splitLinesFrom [] rest else splitLinesFrom (c :: cur) rest

/-- `s.splitlines()` -/
def splitLines (s : Str) : List Str := splitLinesFrom [] s

/-- The words after a started word; `cur` is its reversed text so far. -/
def splitWordsFrom : Str → Str → List Str
  | cur, [] => if cur = [] then [] else [cur.reverse]
  | cur, c :: rest =>
    if isSpace c then
      if cur = [] then splitWordsFrom [] rest else cur.reverse :: splitWordsFrom [] rest
    else splitWordsFrom (c :: cur) rest

/-- `s.split()` -/
def splitWords (s : Str) : List Str := splitWordsFrom [] s

/-- `s.lstrip()` -/
def lstrip (s : Str) : Str := s.dropWhile isSpace

/-- `s.strip()` -/
def strip (s : Str) : Str := ((lstrip s).reverse.dropWhile isSpace).reverse

/-! ## Characters -/

theorem forall_ascii {P : Char → Prop} (h : ∀ n < 128, P (Char.ofNat n)) {c : Char}
    (hc : c.toNat < 128) : P c := by
  have := h c.toNat hc
  rwa [Char.ofNat_toNat] at this

/-- A test of each character. -/
theorem forall_mem_of_all {P : Char → Prop} [DecidablePred P] {s : Str}
    (h : s.all (fun c => decide (P c)) = true) : ∀ c ∈ s, P c :=
  fun c hc => of_decide_eq_true (List.all_eq_true.1 h c hc)

/-! ## Numbers -/

theorem decimalValue_lt {c : Char} {d : ℕ} (h : decimalValue c = some d) : d < 10 := by
  obtain ⟨z, hz, rfl⟩ := Option.map_eq_some_iff.1 h
  have hfound := List.find?_some hz
  simp only [decide_eq_true_eq] at hfound
  omega

theorem decimalValue_of_isDigit {c : Char} (h : c.isDigit = true) :
    decimalValue c = some (c.toNat - '0'.toNat) := by
  have hascii : c.toNat < 128 := by
    simp only [Char.isDigit, Bool.and_eq_true, decide_eq_true_eq] at h
    exact Nat.lt_of_le_of_lt (UInt32.le_iff_toNat_le.1 h.2) (by decide)
  revert h
  exact forall_ascii (P := fun c => c.isDigit = true → decimalValue c = some (c.toNat - '0'.toNat))
    (by decide) hascii

theorem isDigitChar_of_isDigit {c : Char} (h : c.isDigit = true) : isDigitChar c = true := by
  rw [isDigitChar, decimalValue_of_isDigit h]
  rfl

/-- The value of a number is bounded by its number of digits. -/
theorem foldlM_decimal_lt : ∀ {s : Str} {start n : ℕ},
    s.foldlM (fun n c => (decimalValue c).map (10 * n + ·)) start = some n →
      n < 10 ^ s.length * (start + 1)
  | [], start, n, h => by
    cases h
    simp
  | c :: s, start, n, h => by
    rw [List.foldlM_cons] at h
    cases hc : decimalValue c with
    | none => rw [hc] at h; cases h
    | some d =>
      rw [hc] at h
      have hd := decimalValue_lt hc
      have hlt := @foldlM_decimal_lt s (10 * start + d) n h
      have hle : 10 ^ s.length * (10 * start + d + 1) ≤ 10 ^ s.length * (10 * (start + 1)) :=
        Nat.mul_le_mul_left _ (by omega)
      rw [List.length_cons, Nat.pow_succ, Nat.mul_assoc]
      exact Nat.lt_of_lt_of_le hlt hle

theorem toInt_lt {s : Str} {n : ℕ} (h : toInt s = some n) : n < 10 ^ maxIntDigits := by
  unfold toInt at h
  split_ifs at h with hlength
  have hlt := foldlM_decimal_lt h
  rw [Nat.mul_one] at hlt
  exact Nat.lt_of_lt_of_le hlt (Nat.pow_le_pow_right (by decide) (Nat.le_of_not_lt hlength))

theorem foldlM_decimal_of_isDigit : ∀ {s : Str} {start : ℕ}, (∀ c ∈ s, c.isDigit = true) →
    s.foldlM (fun n c => (decimalValue c).map (10 * n + ·)) start =
      some (Nat.ofDigitChars 10 s start)
  | [], _, _ => by simp
  | c :: s, start, h => by
    obtain ⟨hc, hs⟩ := List.forall_mem_cons.1 h
    rw [List.foldlM_cons, decimalValue_of_isDigit hc, Nat.ofDigitChars_cons]
    exact foldlM_decimal_of_isDigit hs

/-- `int(str(n))` -/
theorem toInt_repr {n : ℕ} (h : n < 10 ^ maxIntDigits) : toInt n.repr.toList = some n := by
  have hlength : (Nat.toDigits 10 n).length ≤ maxIntDigits :=
    (Nat.length_toDigits_le_iff (by decide) (by decide)).2 h
  rw [Nat.toList_repr, toInt, if_neg (Nat.not_lt.2 hlength), foldlM_decimal_of_isDigit,
    Nat.ofDigitChars_ten_toDigits]
  exact fun c hc => Nat.isDigit_of_mem_toDigits (by decide) (by decide) hc

theorem isDigit_repr (n : ℕ) : isDigit n.repr.toList = true := by
  simp only [isDigit, Nat.toList_repr, decide_eq_true_eq, List.all_eq_true]
  exact ⟨Nat.toDigits_ne_nil, fun c hc =>
    isDigitChar_of_isDigit (Nat.isDigit_of_mem_toDigits (by decide) (by decide) hc)⟩

/-! ## Lines -/

theorem splitLinesFrom_cons {cur rest : Str} {c : Char} (hc : isLineBreak c = false) :
    splitLinesFrom cur (c :: rest) = splitLinesFrom (c :: cur) rest := by
  rw [splitLinesFrom]
  · simp [hc]
  · rintro _ rfl -
    cases hc

theorem splitLinesFrom_append {rest : Str} : ∀ {text cur : Str}, (∀ c ∈ text, isLineBreak c = false) →
    splitLinesFrom cur (text ++ rest) = splitLinesFrom (text.reverse ++ cur) rest
  | [], _, _ => rfl
  | c :: text, cur, h => by
    obtain ⟨hc, htext⟩ := List.forall_mem_cons.1 h
    rw [List.cons_append, splitLinesFrom_cons hc, splitLinesFrom_append htext]
    simp

theorem splitLinesFrom_newline (cur rest : Str) :
    splitLinesFrom cur ('\n' :: rest) = cur.reverse :: splitLinesFrom [] rest := by
  rw [splitLinesFrom]
  · rfl
  · rintro _ h -
    cases h

/-- The text of some lines, with or without a line feed behind the last one. -/
def writeLines (lines : List Str) (final : Bool) : Str :=
  ['\n'].intercalate lines ++ if final then ['\n'] else []

/-- **Lines that are written are read back,** up to an empty line at the end. -/
theorem splitLines_writeLines (final : Bool) : ∀ {lines : List Str},
    (∀ line ∈ lines, ∀ c ∈ line, isLineBreak c = false) →
      splitLines (writeLines lines final) = lines ∨
      splitLines (writeLines lines final) = lines ++ [[]] ∨
      lines = splitLines (writeLines lines final) ++ [[]]
  | [], _ => by
    cases final with
    | false => exact .inl rfl
    | true => exact .inr (.inl rfl)
  | [line], h => by
    have hline : ∀ c ∈ line, isLineBreak c = false := h line List.mem_cons_self
    rw [writeLines, List.intercalate_singleton, splitLines, splitLinesFrom_append hline,
      List.append_nil]
    cases final with
    | false =>
      rw [if_neg Bool.false_ne_true, splitLinesFrom]
      split_ifs with hnil
      · rw [List.reverse_eq_nil_iff.1 hnil]
        exact .inr (.inr rfl)
      · exact .inl (by rw [List.reverse_reverse])
    | true =>
      rw [if_pos rfl, splitLinesFrom_newline, List.reverse_reverse]
      exact .inl rfl
  | line :: next :: rest, h => by
    obtain ⟨hline, hrest⟩ := List.forall_mem_cons.1 h
    have hsplit : splitLines (writeLines (line :: next :: rest) final) =
        line :: splitLines (writeLines (next :: rest) final) := by
      rw [writeLines, List.intercalate_cons_cons, List.append_assoc, List.append_assoc, splitLines,
        splitLinesFrom_append hline, List.singleton_append, splitLinesFrom_newline, List.append_nil,
        List.reverse_reverse]
      rfl
    rw [hsplit]
    rcases splitLines_writeLines final hrest with ih | ih | ih
    · exact .inl (by rw [ih])
    · exact .inr (.inl (by rw [ih]; rfl))
    · refine .inr (.inr ?_)
      rw [List.cons_append, ← ih]

/-- Lines have no line breaks. -/
theorem no_break_of_splitLinesFrom (cur text : Str) (hcur : ∀ c ∈ cur, isLineBreak c = false) :
    ∀ line ∈ splitLinesFrom cur text, ∀ c ∈ line, isLineBreak c = false := by
  fun_induction splitLinesFrom cur text with
  | case1 => simp
  | case2 cur hne => simpa using hcur
  | case3 cur rest ih => exact List.forall_mem_cons.2 ⟨by simpa using hcur, ih (by simp)⟩
  | case4 cur c rest _ hbreak ih =>
    exact List.forall_mem_cons.2 ⟨by simpa using hcur, ih (by simp)⟩
  | case5 cur c rest _ hbreak ih =>
    exact ih (List.forall_mem_cons.2 ⟨by simpa using hbreak, hcur⟩)

/-- The lines of texts that are joined by line breaks. -/
theorem mem_splitLinesFrom_flatMap : ∀ {pieces : List Str} {cur : Str},
    (∀ piece ∈ pieces, ∀ c ∈ piece, isLineBreak c = false) →
      ∀ line ∈ splitLinesFrom cur (pieces.flatMap fun piece => '\n' :: piece),
        line = cur.reverse ∨ line ∈ pieces
  | [], cur, _, line, hline => by
    rw [List.flatMap_nil, splitLinesFrom] at hline
    split_ifs at hline
    · exact absurd hline List.not_mem_nil
    · exact .inl (List.mem_singleton.1 hline)
  | piece :: pieces, cur, h, line, hline => by
    obtain ⟨hpiece, hpieces⟩ := List.forall_mem_cons.1 h
    rw [List.flatMap_cons, List.cons_append, splitLinesFrom_newline,
      splitLinesFrom_append hpiece] at hline
    rcases List.mem_cons.1 hline with rfl | hline
    · exact .inl rfl
    · rcases mem_splitLinesFrom_flatMap hpieces line hline with rfl | hmem
      · exact .inr (by simp)
      · exact .inr (List.mem_cons_of_mem _ hmem)

/-! ## White space -/

/-- A text that neither starts nor ends with white space. -/
def Stripped (s : Str) : Prop :=
  (∀ c ∈ s.head?, isSpace c = false) ∧ ∀ c ∈ s.getLast?, isSpace c = false

theorem lstrip_of_head {s : Str} (h : ∀ c ∈ s.head?, isSpace c = false) : lstrip s = s := by
  cases s with
  | nil => rfl
  | cons c s => exact List.dropWhile_cons_of_neg (by simp [h c rfl])

theorem Stripped.strip_eq {s : Str} (h : Stripped s) : strip s = s := by
  have hreverse : ∀ c ∈ s.reverse.head?, isSpace c = false := by
    rw [List.head?_reverse]
    exact h.2
  have hlast : s.reverse.dropWhile isSpace = s.reverse := lstrip_of_head hreverse
  rw [strip, lstrip_of_head h.1, hlast, List.reverse_reverse]

theorem mem_of_mem_strip {line : Str} {c : Char} (h : c ∈ strip line) : c ∈ line := by
  have h₁ := List.mem_reverse.1 h
  have h₂ := List.mem_reverse.1 ((List.dropWhile_suffix _).mem h₁)
  exact (List.dropWhile_suffix _).mem h₂

theorem strip_eq_nil_iff {s : Str} : strip s = [] ↔ ∀ c ∈ s, isSpace c = true := by
  rw [strip, List.reverse_eq_nil_iff, List.dropWhile_eq_nil_iff]
  constructor
  · intro h c hc
    rw [← List.takeWhile_append_dropWhile (p := isSpace) (l := s)] at hc
    rcases List.mem_append.1 hc with hc | hc
    · exact List.mem_takeWhile_imp hc
    · exact h c (List.mem_reverse.2 hc)
  · intro h c hc
    exact h c ((List.dropWhile_suffix _).mem (List.mem_reverse.1 hc))

/-- White space in front of a text does not change the stripped text. -/
theorem strip_spaces_append {spaces : Str} (h : ∀ c ∈ spaces, isSpace c = true) (s : Str) :
    strip (spaces ++ s) = strip s := by
  rw [strip, lstrip, List.dropWhile_append_of_pos h]
  rfl

/-- White space behind a text does not change the stripped text. -/
theorem strip_append_spaces {spaces : Str} (h : ∀ c ∈ spaces, isSpace c = true) (s : Str) :
    strip (s ++ spaces) = strip s := by
  by_cases hs : lstrip s = []
  · have hnil : lstrip (s ++ spaces) = [] := by
      rw [lstrip, List.dropWhile_append_of_pos (List.dropWhile_eq_nil_iff.1 hs)]
      exact List.dropWhile_eq_nil_iff.2 h
    rw [strip, strip, hnil, hs]
  · have happend : lstrip (s ++ spaces) = lstrip s ++ spaces := by
      rw [lstrip, List.dropWhile_append, if_neg (by simpa [lstrip] using hs)]
      rfl
    rw [strip, strip, happend, List.reverse_append, List.dropWhile_append_of_pos]
    exact fun c hc => h c (List.mem_reverse.1 hc)

/-! ## Separators -/

/-- A piece between separators is made of other characters of the text. -/
theorem mem_of_mem_splitOn {separator : Char} : ∀ {text piece : Str},
    piece ∈ text.splitOn separator → ∀ c ∈ piece, c ∈ text ∧ c ≠ separator
  | [], piece, hpiece, c, hc => by
    rw [List.splitOn_nil, List.mem_singleton] at hpiece
    rw [hpiece] at hc
    cases hc
  | d :: text, piece, hpiece, c, hc => by
    have ih := @mem_of_mem_splitOn separator text
    rw [List.splitOn_cons_eq_if_modifyHead] at hpiece
    split_ifs at hpiece with hd
    · rcases List.mem_cons.1 hpiece with rfl | hpiece
      · cases hc
      · exact ⟨List.mem_cons_of_mem _ (ih hpiece c hc).1, (ih hpiece c hc).2⟩
    · obtain ⟨first, rest, hsplit⟩ := List.exists_cons_of_ne_nil (List.splitOn_ne_nil separator text)
      rw [hsplit] at hpiece ih
      rcases List.mem_cons.1 hpiece with rfl | hpiece
      · rcases List.mem_cons.1 hc with rfl | hc
        · exact ⟨List.mem_cons_self, by simpa using hd⟩
        · obtain ⟨hmem, hne⟩ := ih (by simp) c hc
          exact ⟨List.mem_cons_of_mem _ hmem, hne⟩
      · obtain ⟨hmem, hne⟩ := ih (List.mem_cons_of_mem _ hpiece) c hc
        exact ⟨List.mem_cons_of_mem _ hmem, hne⟩

theorem mem_intercalate {separator : Str} {c : Char} : ∀ {texts : List Str},
    c ∈ separator.intercalate texts → c ∈ separator ∨ ∃ text ∈ texts, c ∈ text
  | [], hc => by simp at hc
  | [text], hc => by
    rw [List.intercalate_singleton] at hc
    exact .inr ⟨text, by simp, hc⟩
  | text :: next :: rest, hc => by
    rw [List.intercalate_cons_cons] at hc
    rcases List.mem_append.1 hc with hc | hc
    · rcases List.mem_append.1 hc with hc | hc
      · exact .inr ⟨text, by simp, hc⟩
      · exact .inl hc
    · rcases mem_intercalate hc with hc | ⟨other, hother, hc⟩
      · exact .inl hc
      · exact .inr ⟨other, List.mem_cons_of_mem _ hother, hc⟩

/-! ## Words -/

theorem splitWords_lstrip : ∀ s : Str, splitWords (lstrip s) = splitWords s
  | [] => rfl
  | c :: s => by
    by_cases hc : isSpace c
    · have hleft : lstrip (c :: s) = lstrip s := by rw [lstrip, lstrip, List.dropWhile_cons_of_pos hc]
      have hright : splitWords (c :: s) = splitWords s := by
        rw [splitWords, splitWordsFrom, if_pos hc, if_pos rfl]; rfl
      rw [hleft, hright, splitWords_lstrip s]
    · rw [lstrip, List.dropWhile_cons_of_neg hc]

theorem splitWordsFrom_spaces : ∀ {spaces cur : Str}, (∀ c ∈ spaces, isSpace c = true) →
    splitWordsFrom cur spaces = splitWordsFrom cur []
  | [], _, _ => rfl
  | c :: spaces, cur, h => by
    obtain ⟨hc, hspaces⟩ := List.forall_mem_cons.1 h
    have hnil : splitWordsFrom [] spaces = [] := splitWordsFrom_spaces hspaces
    simp [splitWordsFrom, hc, hnil]

theorem splitWordsFrom_append_spaces {spaces : Str} (h : ∀ c ∈ spaces, isSpace c = true) :
    ∀ {s cur : Str}, splitWordsFrom cur (s ++ spaces) = splitWordsFrom cur s
  | [], cur => splitWordsFrom_spaces h
  | c :: s, cur => by
    have ih : ∀ cur, splitWordsFrom cur (s ++ spaces) = splitWordsFrom cur s :=
      fun _ => splitWordsFrom_append_spaces h
    rw [List.cons_append, splitWordsFrom, splitWordsFrom, ih, ih]

/-- Surrounding white space does not change the words. -/
theorem splitWords_strip (s : Str) : splitWords (strip s) = splitWords s := by
  have hsplit : strip s ++ ((lstrip s).reverse.takeWhile isSpace).reverse = lstrip s := by
    rw [strip, ← List.reverse_append, List.takeWhile_append_dropWhile, List.reverse_reverse]
  have hspaces : ∀ c ∈ ((lstrip s).reverse.takeWhile isSpace).reverse, isSpace c = true :=
    fun c hc => List.mem_takeWhile_imp (List.mem_reverse.1 hc)
  calc splitWords (strip s)
      = splitWords (strip s ++ ((lstrip s).reverse.takeWhile isSpace).reverse) :=
        (splitWordsFrom_append_spaces hspaces).symm
    _ = splitWords (lstrip s) := by rw [hsplit]
    _ = splitWords s := splitWords_lstrip s

/-- A word is not empty and has no white space. -/
def IsWord (word : Str) : Prop := word ≠ [] ∧ ∀ c ∈ word, isSpace c = false

theorem isWord_of_mem_splitWordsFrom {word : Str} : ∀ {s cur : Str},
    (∀ c ∈ cur, isSpace c = false) → word ∈ splitWordsFrom cur s →
      IsWord word ∧ ∀ c ∈ word, c ∈ cur ∨ c ∈ s
  | [], cur, hcur, h => by
    rw [splitWordsFrom] at h
    split_ifs at h with hnil
    · cases h
    · rw [List.mem_singleton.1 h]
      exact ⟨⟨by simpa using hnil, by simpa using hcur⟩, fun c hc => .inl (List.mem_reverse.1 hc)⟩
  | c :: s, cur, hcur, h => by
    have hspace : word ∈ splitWordsFrom [] s → IsWord word ∧ ∀ d ∈ word, d ∈ cur ∨ d ∈ c :: s := by
      intro h
      obtain ⟨hword, hmem⟩ := isWord_of_mem_splitWordsFrom (by simp) h
      exact ⟨hword, fun d hd => .inr (List.mem_cons_of_mem _ ((hmem d hd).resolve_left (by simp)))⟩
    rw [splitWordsFrom] at h
    split_ifs at h with hc hnil
    · exact hspace h
    · rcases List.mem_cons.1 h with rfl | h
      · exact ⟨⟨by simpa using hnil, by simpa using hcur⟩, fun d hd => .inl (List.mem_reverse.1 hd)⟩
      · exact hspace h
    · obtain ⟨hword, hmem⟩ := isWord_of_mem_splitWordsFrom
        (List.forall_mem_cons.2 ⟨by simpa using hc, hcur⟩) h
      refine ⟨hword, fun d hd => ?_⟩
      rcases hmem d hd with hd | hd
      · rcases List.mem_cons.1 hd with rfl | hd
        · exact .inr List.mem_cons_self
        · exact .inl hd
      · exact .inr (List.mem_cons_of_mem _ hd)

theorem isWord_of_mem_splitWords {s word : Str} (h : word ∈ splitWords s) :
    IsWord word ∧ ∀ c ∈ word, c ∈ s := by
  obtain ⟨hword, hmem⟩ := isWord_of_mem_splitWordsFrom (by simp) h
  exact ⟨hword, fun c hc => (hmem c hc).resolve_left (by simp)⟩

theorem splitWordsFrom_append {rest : Str} : ∀ {text cur : Str}, (∀ c ∈ text, isSpace c = false) →
    splitWordsFrom cur (text ++ rest) = splitWordsFrom (text.reverse ++ cur) rest
  | [], _, _ => rfl
  | c :: text, cur, h => by
    obtain ⟨hc, htext⟩ := List.forall_mem_cons.1 h
    rw [List.cons_append, splitWordsFrom, if_neg (by simp [hc]), splitWordsFrom_append htext]
    simp

/-- **Words that are joined by a blank** are split again. -/
theorem splitWords_intercalate : ∀ {words : List Str}, (∀ word ∈ words, IsWord word) →
    splitWords ([' '].intercalate words) = words
  | [], _ => rfl
  | [word], h => by
    obtain ⟨hne, hspace⟩ := h word List.mem_cons_self
    have hsplit := @splitWordsFrom_append [] word [] hspace
    rw [List.append_nil, List.append_nil, splitWordsFrom, if_neg (by simpa using hne),
      List.reverse_reverse] at hsplit
    rw [List.intercalate_singleton]
    exact hsplit
  | word :: following :: rest, h => by
    obtain ⟨⟨hne, hspace⟩, hrest⟩ := List.forall_mem_cons.1 h
    have ih := splitWords_intercalate hrest
    rw [List.intercalate_cons_cons, List.append_assoc, splitWords, splitWordsFrom_append hspace,
      List.singleton_append, splitWordsFrom, if_pos (by decide), if_neg (by simpa using hne),
      List.append_nil, List.reverse_reverse]
    exact congrArg _ ih

end RulesMkosi
