/-
  JSON text without blanks and with sorted keys.

  `dumps` writes ASCII only: other characters are `\u` escapes, those above the basic
  plane as surrogate pairs.  The text of a string, and of a list of strings, determines
  what it was written from and where it ends.
-/
import Mathlib.Data.List.Sort
import RulesMkosi.Lib.Codec
import RulesMkosi.Lib.Json

namespace RulesMkosi.Json

/-! ## Writing -/

/-- `"\\u{0:04x}".format(n)` -/
def unicodeEscape (n : ℕ) : Str :=
  ['\\', 'u', hexDigit (n / 4096 % 16), hexDigit (n / 256 % 16), hexDigit (n / 16 % 16),
    hexDigit (n % 16)]

/-- A character inside a string. -/
def escapeChar (c : Char) : Str :=
  if c = '\\' then ['\\', '\\']
  else if c = '"' then ['\\', '"']
  else if c = '\n' then ['\\', 'n']
  else if c = '\r' then ['\\', 'r']
  else if c = '\t' then ['\\', 't']
  else if c = '\x0C' then ['\\', 'f']
  else if c = '\x08' then ['\\', 'b']
  else if ' ' ≤ c ∧ c ≤ '~' then [c]
  else if c.toNat < 0x10000 then unicodeEscape c.toNat
  else
    let n := c.toNat - 0x10000
    unicodeEscape (0xD800 + n / 0x400 % 0x400) ++ unicodeEscape (0xDC00 + n % 0x400)

def encodeString (s : Str) : Str := '"' :: (s.flatMap escapeChar ++ ['"'])

/-- Texts between brackets, with commas between them. -/
def enclose (left right : Char) (texts : List Str) : Str :=
  left :: ([','].intercalate texts ++ [right])

section
-- `float.__repr__`
variable (floatText : ℚ → Str)

mutual
/-- `json.dumps(value, sort_keys=True, separators=(",", ":"))` -/
def dumps : Json → Str
  | .null => "null".toList
  | .bool true => "true".toList
  | .bool false => "false".toList
  | .int value => (toString value).toList
  | .float value => floatText value
  | .string value => encodeString value.toList
  | .list items => enclose '[' ']' (itemTexts items)
  | .object fields => enclose '{' '}'
      (((fieldTexts fields).insertionSort fun a b => a.1 ≤ b.1).map fun field =>
        encodeString field.1.toList ++ ':' :: field.2)
termination_by structural value => value

def itemTexts : List Json → List Str
  | [] => []
  | item :: items => dumps item :: itemTexts items
termination_by structural items => items

/-- The fields with the texts of their values. -/
def fieldTexts : List (String × Json) → List (String × Str)
  | [] => []
  | (key, value) :: fields => (key, dumps value) :: fieldTexts fields
termination_by structural fields => fields
end

theorem itemTexts_strings (values : List String) :
    itemTexts floatText (values.map Json.string) = values.map fun s => encodeString s.toList := by
  induction values with
  | nil => rfl
  | cons value values ih => rw [List.map_cons, itemTexts, ih, dumps, List.map_cons]

end

/-! ## Reading back -/

/-- The value of a lower-case hex digit. -/
def hexValue (c : Char) : ℕ :=
  if c.toNat < 0x61 then c.toNat - 0x30 else c.toNat - 0x61 + 10

theorem hexValue_hexDigit : ∀ {n : ℕ}, n < 16 → hexValue (hexDigit n) = n := by decide

/-- The number of a `\u` escape. -/
def hexNumber (a b c d : Char) : ℕ :=
  ((hexValue a * 16 + hexValue b) * 16 + hexValue c) * 16 + hexValue d

theorem hexNumber_hexDigit {n : ℕ} (h : n < 0x10000) :
    hexNumber (hexDigit (n / 4096 % 16)) (hexDigit (n / 256 % 16)) (hexDigit (n / 16 % 16))
      (hexDigit (n % 16)) = n := by
  have hlt : ∀ m : ℕ, m % 16 < 16 := fun m => Nat.mod_lt m (by decide)
  rw [hexNumber, hexValue_hexDigit (hlt _), hexValue_hexDigit (hlt _), hexValue_hexDigit (hlt _),
    hexValue_hexDigit (hlt _)]
  omega

/-- The character of an escape with one letter. -/
def unescape : Char → Char
  | 'n' => '\n'
  | 'r' => '\r'
  | 't' => '\t'
  | 'f' => '\x0C'
  | 'b' => '\x08'
  | c => c

/-- The first character of a text inside a string, and the rest. -/
def scanChar : Str → Option (Char × Str)
  | '\\' :: 'u' :: a :: b :: c :: d :: rest =>
    if isHighSurrogate (hexNumber a b c d) then
      match rest with
      | '\\' :: 'u' :: a' :: b' :: c' :: d' :: rest =>
        some (surrogatePair (hexNumber a b c d) (hexNumber a' b' c' d'), rest)
      | _ => none
    else some (Char.ofNat (hexNumber a b c d), rest)
  | '\\' :: c :: rest => some (unescape c, rest)
  | c :: rest => some (c, rest)
  | [] => none

theorem scanChar_plain {c : Char} (h : c ≠ '\\') (rest : Str) : scanChar (c :: rest) = some (c, rest) := by
  unfold scanChar
  split
  · next heq => cases heq; exact absurd rfl h
  · next heq => cases heq; exact absurd rfl h
  · next heq => cases heq; rfl
  · next heq => cases heq

theorem scanChar_unicodeEscape {n : ℕ} (h : n < 0x10000) (hhigh : isHighSurrogate n = false) (rest : Str) :
    scanChar (unicodeEscape n ++ rest) = some (Char.ofNat n, rest) := by
  simp only [unicodeEscape, List.cons_append, List.nil_append, scanChar, hexNumber_hexDigit h, hhigh,
    Bool.false_eq_true, if_false]

theorem scanChar_pair {high low : ℕ} (hhigh : isHighSurrogate high = true) (hlow : low < 0x10000)
    (rest : Str) : scanChar (unicodeEscape high ++ unicodeEscape low ++ rest) =
      some (surrogatePair high low, rest) := by
  have hlt : high < 0x10000 := by
    simp only [isHighSurrogate, decide_eq_true_eq] at hhigh
    omega
  simp only [unicodeEscape, List.cons_append, List.nil_append, scanChar, hexNumber_hexDigit hlt,
    hexNumber_hexDigit hlow, hhigh, if_true]

/-- No character is a surrogate. -/
theorem not_isHighSurrogate_toNat (c : Char) : isHighSurrogate c.toNat = false := by
  have hvalid : c.toNat < 0xD800 ∨ (0xDFFF < c.toNat ∧ c.toNat < 0x110000) := c.valid
  refine decide_eq_false fun h => ?_
  omega

/-- **An escaped character is read back,** whatever follows it. -/
theorem scanChar_escapeChar (c : Char) (rest : Str) : scanChar (escapeChar c ++ rest) = some (c, rest) := by
  unfold escapeChar
  split_ifs with h₁ h₂ h₃ h₄ h₅ h₆ h₇ h₈ h₉
  · rw [h₁]; rfl
  · rw [h₂]; rfl
  · rw [h₃]; rfl
  · rw [h₄]; rfl
  · rw [h₅]; rfl
  · rw [h₆]; rfl
  · rw [h₇]; rfl
  · exact scanChar_plain h₁ rest
  · rw [scanChar_unicodeEscape h₉ (not_isHighSurrogate_toNat c), Char.ofNat_toNat]
  · have hvalid : c.toNat < 0x110000 := by
      have : c.toNat < 0xD800 ∨ (0xDFFF < c.toNat ∧ c.toNat < 0x110000) := c.valid
      omega
    have hhigh : isHighSurrogate (0xD800 + (c.toNat - 0x10000) / 0x400 % 0x400) = true :=
      decide_eq_true (by omega)
    rw [scanChar_pair hhigh (by omega), surrogatePair]
    have hnumber : 0x10000 + (0xD800 + (c.toNat - 0x10000) / 0x400 % 0x400 - 0xD800) * 0x400 +
        (0xDC00 + (c.toNat - 0x10000) % 0x400 - 0xDC00) = c.toNat := by omega
    rw [hnumber, Char.ofNat_toNat]

theorem escapeChar_append_inj {c c' : Char} {rest rest' : Str}
    (h : escapeChar c ++ rest = escapeChar c' ++ rest') : c = c' ∧ rest = rest' := by
  have hscan := congrArg scanChar h
  rw [scanChar_escapeChar, scanChar_escapeChar, Option.some.injEq, Prod.mk.injEq] at hscan
  exact hscan

/-- The quote that ends a string does not start a character. -/
theorem escapeChar_ne_quote (c : Char) (rest rest' : Str) : escapeChar c ++ rest ≠ '"' :: rest' := by
  intro h
  have hscan := congrArg scanChar h
  rw [scanChar_escapeChar, scanChar_plain (by decide), Option.some.injEq, Prod.mk.injEq] at hscan
  rw [hscan.1] at h
  cases h

theorem encodeString_append (s rest : Str) :
    encodeString s ++ rest = '"' :: (s.flatMap escapeChar ++ '"' :: rest) := by
  simp [encodeString]

/-- **The text of a string** determines the string and where it ends. -/
theorem encodeString_append_inj {s s' rest rest' : Str}
    (h : encodeString s ++ rest = encodeString s' ++ rest') : s = s' ∧ rest = rest' := by
  rw [encodeString_append, encodeString_append, List.cons.injEq] at h
  obtain ⟨-, h⟩ := h
  induction s generalizing s' with
  | nil =>
    cases s' with
    | nil => exact ⟨rfl, List.tail_eq_of_cons_eq h⟩
    | cons c s' =>
      rw [List.flatMap_cons, List.append_assoc] at h
      exact absurd h.symm (escapeChar_ne_quote c _ _)
  | cons c s ih =>
    cases s' with
    | nil =>
      rw [List.flatMap_cons, List.append_assoc] at h
      exact absurd h (escapeChar_ne_quote c _ _)
    | cons c' s' =>
      rw [List.flatMap_cons, List.append_assoc, List.flatMap_cons, List.append_assoc] at h
      obtain ⟨rfl, htail⟩ := escapeChar_append_inj h
      obtain ⟨rfl, hrest⟩ := ih htail
      exact ⟨rfl, hrest⟩

/-! ## Lists of strings -/

/-- The text of a list of strings. -/
def encodeStrings (values : List Str) : Str := enclose '[' ']' (values.map encodeString)

theorem encodeStrings_cons (value : Str) (values : List Str) (rest : Str) :
    encodeStrings (value :: values) ++ rest =
      '[' :: (encodeString value ++ (values.flatMap (fun s => ',' :: encodeString s) ++ ']' :: rest)) := by
  have hjoin : ∀ (value : Str) (values : List Str),
      [','].intercalate ((value :: values).map encodeString) =
        encodeString value ++ values.flatMap fun s => ',' :: encodeString s := by
    intro value values
    induction values generalizing value with
    | nil => simp
    | cons next values ih =>
      rw [List.map_cons, List.map_cons, List.intercalate_cons_cons, ← List.map_cons, ih]
      simp
  rw [encodeStrings, enclose, hjoin]
  simp

/-- What follows the first string of a list determines the other strings. -/
theorem tailText_append_inj {rest rest' : Str} : ∀ {values values' : List Str},
    values.flatMap (fun s => ',' :: encodeString s) ++ ']' :: rest =
      values'.flatMap (fun s => ',' :: encodeString s) ++ ']' :: rest' → values = values' ∧ rest = rest'
  | [], [], h => ⟨rfl, List.tail_eq_of_cons_eq h⟩
  | [], value :: values, h => by
    have := List.head_eq_of_cons_eq h
    exact absurd this (by decide)
  | value :: values, [], h => by
    have := List.head_eq_of_cons_eq h
    exact absurd this (by decide)
  | value :: values, value' :: values', h => by
    rw [List.flatMap_cons, List.flatMap_cons, List.cons_append, List.cons_append, List.cons_append,
      List.cons_append, List.cons.injEq, List.append_assoc, List.append_assoc] at h
    obtain ⟨rfl, htail⟩ := encodeString_append_inj h.2
    obtain ⟨rfl, hrest⟩ := tailText_append_inj htail
    exact ⟨rfl, hrest⟩

/-- **The text of a list of strings** determines the list and where it ends. -/
theorem encodeStrings_append_inj {values values' : List Str} {rest rest' : Str}
    (h : encodeStrings values ++ rest = encodeStrings values' ++ rest') :
    values = values' ∧ rest = rest' := by
  have hquote : ∀ (value : Str) (text text' : Str), encodeString value ++ text ≠ ']' :: text' := by
    intro value text text' heq
    rw [encodeString_append, List.cons.injEq] at heq
    exact absurd heq.1 (by decide)
  cases values with
  | nil =>
    cases values' with
    | nil =>
      have : ('[' :: ']' :: rest : Str) = '[' :: ']' :: rest' := h
      simpa using this
    | cons value' values' =>
      rw [encodeStrings_cons] at h
      exact absurd (List.tail_eq_of_cons_eq h).symm (hquote _ _ _)
  | cons value values =>
    cases values' with
    | nil =>
      rw [encodeStrings_cons] at h
      exact absurd (List.tail_eq_of_cons_eq h) (hquote _ _ _)
    | cons value' values' =>
      rw [encodeStrings_cons, encodeStrings_cons, List.cons.injEq] at h
      obtain ⟨rfl, htail⟩ := encodeString_append_inj h.2
      obtain ⟨rfl, hrest⟩ := tailText_append_inj htail
      exact ⟨rfl, hrest⟩

end RulesMkosi.Json
