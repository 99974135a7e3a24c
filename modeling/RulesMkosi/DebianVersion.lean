/-
  Debian versions (`mkosi/debian/generate_lock.py`).

  `compareVersions` follows dpkg: epochs numerically, then the upstream version
  and the revision fragment by fragment.  A fragment is read as alternating
  runs of non-digits and digits; an index into a string is the rest of it.

  The comparison of two fragments is the lexicographic comparison of their
  keys (`compareFragment_nonpos`), so it is a total preorder.
-/
import RulesMkosi.Lib.Result
import RulesMkosi.Lib.Text
import RulesMkosi.Lib.Dict
import RulesMkosi.Lib.LexOrder
import Mathlib.Data.Prod.Lex

namespace RulesMkosi.Debian

/-- What `generate_lock` raises. -/
inductive Failure where
  | lockError (message : String)
  | valueError (message : String)
  | typeError (message : String)
  | attributeError (message : String)
  | keyError (key : String)
  deriving Repr, DecidableEq

/-- The Unicode property `str.isalpha`. -/
structure Alphabet where
  isAlpha : Char → Bool
  isAlpha_nul : isAlpha (Char.ofNat 0) = false

/-! ## Fragments -/

section
variable (A : Alphabet)

def order (character : Char) : ℤ :=
  if character = '~' then -1
  else if isDigitChar character then 0
  else if A.isAlpha character then character.toNat
  else character.toNat + 256

/-- `_order(text[index]) if index < len(text) else 0` -/
def orderAt : Str → ℤ
  | [] => 0
  | c :: _ => order A c

/-- `index < len(text) and text[index].isdigit()` -/
def atDigit : Str → Bool
  | [] => false
  | c :: _ => isDigitChar c

/-- `index < len(text) and not text[index].isdigit()` -/
def atNonDigit : Str → Bool
  | [] => false
  | c :: _ => !isDigitChar c

/-- The loop of `_compare_non_digits`, of at most `fuel` rounds. -/
def nonDigitsLoop : ℕ → Str → Str → ℤ × Str × Str
  | 0, left, right => (0, left, right)
  | fuel + 1, left, right =>
    if atNonDigit left ∨ atNonDigit right then
      if orderAt A left ≠ orderAt A right then (orderAt A left - orderAt A right, left, right)
      else nonDigitsLoop fuel left.tail right.tail
    else (0, left, right)

/-- Every round of the loop reads a character. -/
def compareNonDigits (left right : Str) : ℤ × Str × Str :=
  nonDigitsLoop A (left.length + right.length) left right

/-- The loop of `_compare_digits` over the common part of two runs of digits. -/
def digitsLoop (difference : ℤ) : Str → Str → ℤ × Str × Str
  | a :: left, b :: right =>
    if isDigitChar a ∧ isDigitChar b then
      digitsLoop (if difference = 0 then (a.toNat : ℤ) - b.toNat else difference) left right
    else (difference, a :: left, b :: right)
  | left, right => (difference, left, right)

def compareDigits (left right : Str) : ℤ × Str × Str :=
  let (difference, left, right) :=
    digitsLoop 0 (left.dropWhile (· = '0')) (right.dropWhile (· = '0'))
  if atDigit left then (1, left, right)
  else if atDigit right then (-1, left, right)
  else (difference, left, right)

/-- The loop of `_compare_fragment`, of at most `fuel` rounds. -/
def fragmentLoop : ℕ → Str → Str → ℤ
  | 0, _, _ => 0
  | fuel + 1, left, right =>
    if left ≠ [] ∨ right ≠ [] then
      match compareNonDigits A left right with
      | (difference, left, right) =>
        if difference ≠ 0 then difference
        else
          match compareDigits left right with
          | (difference, left, right) =>
            if difference ≠ 0 then difference else fragmentLoop fuel left right
    else 0

/-- Every round of the loop reads a character. -/
def compareFragment (left right : Str) : ℤ :=
  fragmentLoop A (left.length + right.length) left right

/-! ## Versions -/

structure SplitVersion where
  epoch : ℕ
  upstream : Str
  revision : Str
  deriving Repr, DecidableEq

/-- `int(text)` -/
def parseEpoch (text : Str) : Except Failure ℕ :=
  match toInt text with
  | some n => .ok n
  | none => .error (.valueError ("invalid literal for int() with base 10: " ++ String.ofList text))

/-- The epoch and the text after it. -/
def splitEpoch (version : Str) : Except Failure (ℕ × Str) :=
  if ':' ∈ version then do
    let text := version.takeWhile (· ≠ ':')
    raiseIf (¬ isDigit text)
      (.lockError ("invalid Debian version epoch: " ++ String.ofList text))
    let epoch ← parseEpoch text
    return (epoch, (version.dropWhile (· ≠ ':')).tail)
  else .ok (0, version)

/-- `version.rpartition("-")`, with the whole text as upstream version if there is no revision -/
def splitRevision (version : Str) : Str × Str :=
  if '-' ∈ version then
    ((version.reverse.dropWhile (· ≠ '-')).tail.reverse, (version.reverse.takeWhile (· ≠ '-')).reverse)
  else (version, [])

def splitVersion (version : String) : Except Failure SplitVersion := do
  let (epoch, rest) ← splitEpoch version.toList
  return ⟨epoch, (splitRevision rest).1, (splitRevision rest).2⟩

def compareSplit (left right : SplitVersion) : ℤ :=
  if left.epoch ≠ right.epoch then left.epoch - right.epoch
  else if compareFragment A left.upstream right.upstream ≠ 0 then
    compareFragment A left.upstream right.upstream
  else compareFragment A left.revision right.revision

def compareVersions (left right : String) : Except Failure ℤ := do
  let left ← splitVersion left
  let right ← splitVersion right
  return compareSplit A left right

/-- `_RELATION_OPERATORS` -/
def relationOperators : Dict String (ℤ → Bool) :=
  [("<<", fun result => result < 0), ("<=", fun result => result ≤ 0),
    ("<", fun result => result ≤ 0), ("=", fun result => result = 0),
    (">=", fun result => 0 ≤ result), (">", fun result => 0 ≤ result),
    (">>", fun result => 0 < result)]

def versionSatisfies (version operator required : String) : Except Failure Bool := do
  let result ← compareVersions A version required
  match relationOperators.get operator with
  | some holds => return holds result
  | none => .error (.lockError ("unsupported version relation: " ++ operator))

/-! ## The order of fragments -/

variable {A}

/-- The orders of the non-digits a text starts with. -/
def nonDigitsKey (A : Alphabet) (text : Str) : List ℤ :=
  (text.takeWhile (!isDigitChar ·)).map (order A)

def afterNonDigits (text : Str) : Str := text.dropWhile (!isDigitChar ·)

/-- The digits a text starts with, without leading zeros. -/
def digitRun (text : Str) : Str := (text.dropWhile (· = '0')).takeWhile isDigitChar

def afterDigits (text : Str) : Str := (text.dropWhile (· = '0')).dropWhile isDigitChar

/-- The length of a run of digits, then the digits: of two runs without leading zeros the longer
    one is the larger number. -/
def digitsKey (text : Str) : List ℤ :=
  (digitRun text).length :: (digitRun text).map fun c => (c.toNat : ℤ)

theorem length_dropWhile_le (p : Char → Bool) (text : Str) :
    (text.dropWhile p).length ≤ text.length :=
  (List.dropWhile_suffix p).length_le

theorem length_afterDigits_le (text : Str) : (afterDigits text).length ≤ text.length :=
  (length_dropWhile_le _ _).trans (length_dropWhile_le _ _)

/-- A round of the fragment loop reads at least one character of a text that is not empty. -/
theorem length_after_lt {text : Str} (h : text ≠ []) :
    (afterDigits (afterNonDigits text)).length < text.length := by
  cases text with
  | nil => exact absurd rfl h
  | cons c text =>
    by_cases hc : isDigitChar c
    · have hdrop : (afterDigits (c :: text)).length ≤ text.length := by
        by_cases h0 : c = '0'
        · have := length_afterDigits_le text
          simpa only [afterDigits, List.dropWhile_cons, h0, decide_true, if_true] using this
        · simp only [afterDigits, List.dropWhile_cons, h0, decide_false, Bool.false_eq_true,
            if_false, hc, if_true]
          exact length_dropWhile_le _ _
      simp only [afterNonDigits, List.dropWhile_cons, hc, Bool.not_true, Bool.false_eq_true, if_false,
        List.length_cons]
      omega
    · have h₁ := length_afterDigits_le (afterNonDigits text)
      have h₂ := length_dropWhile_le (!isDigitChar ·) text
      simp only [afterNonDigits, List.dropWhile_cons, hc, Bool.not_false, if_true,
        List.length_cons] at h₁ ⊢
      omega

theorem length_after_le (text : Str) :
    (afterDigits (afterNonDigits text)).length ≤ text.length :=
  (length_afterDigits_le _).trans (length_dropWhile_le _ _)

/-- The key of a fragment: the end of a run of non-digits counts as zero. -/
def fragmentKey (A : Alphabet) (text : Str) : List ℤ :=
  if _h : text = [] then []
  else
    nonDigitsKey A text ++ 0 ::
      (digitsKey (afterNonDigits text) ++ fragmentKey A (afterDigits (afterNonDigits text)))
termination_by text.length
decreasing_by exact length_after_lt _h

theorem order_eq_zero {c : Char} : order A c = 0 ↔ isDigitChar c = true := by
  unfold order
  by_cases ht : c = '~'
  · simp only [ht, if_true]; decide
  by_cases hd : isDigitChar c
  · simp [ht, hd]
  by_cases ha : A.isAlpha c
  · have hc : c.toNat ≠ 0 := by
      intro h0
      have : c = Char.ofNat 0 := by rw [← h0, Char.ofNat_toNat]
      rw [this, A.isAlpha_nul] at ha
      exact absurd ha Bool.false_ne_true
    simp [ht, hd, ha, hc]
  · simp only [ht, hd, ha, if_false]
    have : (c.toNat : ℤ) + 256 ≠ 0 := by omega
    simp [this]

theorem orderAt_eq_zero {text : Str} : orderAt A text = 0 ↔ atNonDigit text = false := by
  cases text with
  | nil => simp [orderAt, atNonDigit]
  | cons c text => simp [orderAt, atNonDigit, order_eq_zero]

/-- A key starts with the order of the first character. -/
theorem nonDigitsKey_head (text : Str) (s : List ℤ) :
    ∃ w, nonDigitsKey A text ++ 0 :: s = orderAt A text :: w := by
  cases text with
  | nil => exact ⟨s, rfl⟩
  | cons c text =>
    by_cases hc : isDigitChar c
    · exact ⟨s, by simp [nonDigitsKey, hc, orderAt, order_eq_zero.2 hc]⟩
    · exact ⟨nonDigitsKey A text ++ 0 :: s, by simp [nonDigitsKey, hc, orderAt]⟩

theorem nonDigitsKey_of_not {text : Str} (h : atNonDigit text = false) :
    nonDigitsKey A text = [] ∧ afterNonDigits text = text := by
  cases text with
  | nil => exact ⟨rfl, rfl⟩
  | cons c text =>
    have hc : isDigitChar c = true := by simpa [atNonDigit] using h
    simp [nonDigitsKey, afterNonDigits, hc]

theorem nonDigitsKey_of {text : Str} (h : atNonDigit text = true) :
    nonDigitsKey A text = orderAt A text :: nonDigitsKey A text.tail ∧
      afterNonDigits text = afterNonDigits text.tail ∧ text.length = text.tail.length + 1 := by
  cases text with
  | nil => simp [atNonDigit] at h
  | cons c text =>
    have hc : isDigitChar c = false := by simpa [atNonDigit] using h
    simp [nonDigitsKey, afterNonDigits, hc, orderAt]

/-- The sign of a comparison decides the order of two keys. -/
def Decides (difference : ℤ) (left right : Lex (ℕ → ℤ)) : Prop :=
  (difference < 0 → left < right) ∧ (0 < difference → right < left)

theorem nonDigitsLoop_spec : ∀ (fuel : ℕ) (left right : Str), left.length + right.length ≤ fuel →
    ∀ difference left' right', nonDigitsLoop A fuel left right = (difference, left', right') →
      (∀ s t, Decides difference (padded (nonDigitsKey A left ++ 0 :: s))
        (padded (nonDigitsKey A right ++ 0 :: t))) ∧
      (difference = 0 → left' = afterNonDigits left ∧ right' = afterNonDigits right ∧
        nonDigitsKey A left = nonDigitsKey A right)
  | 0, left, right, hfuel, difference, left', right', h => by
    obtain ⟨rfl, rfl⟩ : left = [] ∧ right = [] :=
      ⟨List.eq_nil_of_length_eq_zero (by omega), List.eq_nil_of_length_eq_zero (by omega)⟩
    cases h
    exact ⟨fun s t => ⟨fun h => absurd h (lt_irrefl _), fun h => absurd h (lt_irrefl _)⟩,
      fun _ => ⟨rfl, rfl, rfl⟩⟩
  | fuel + 1, left, right, hfuel, difference, left', right', h => by
    unfold nonDigitsLoop at h
    split_ifs at h with hloop hne
    · cases h
      refine ⟨fun s t => ?_, fun h0 => absurd (sub_eq_zero.1 h0) hne⟩
      obtain ⟨v, hv⟩ := nonDigitsKey_head (A := A) left s
      obtain ⟨w, hw⟩ := nonDigitsKey_head (A := A) right t
      rw [hv, hw]
      exact ⟨fun h => padded_cons_lt.2 (.inl (sub_neg.1 h)),
        fun h => padded_cons_lt.2 (.inl (sub_pos.1 h))⟩
    · rw [not_not] at hne
      -- equal orders: both texts go on with a non-digit
      have hboth : atNonDigit left = true ∧ atNonDigit right = true := by
        have hl : orderAt A left = 0 ↔ atNonDigit left = false := orderAt_eq_zero
        have hr : orderAt A right = 0 ↔ atNonDigit right = false := orderAt_eq_zero
        rw [hne, hr] at hl
        rcases hloop with hloop | hloop <;> simp_all
      obtain ⟨hkl, hal, hll⟩ := nonDigitsKey_of (A := A) hboth.1
      obtain ⟨hkr, har, hlr⟩ := nonDigitsKey_of (A := A) hboth.2
      obtain ⟨hdec, heq⟩ := nonDigitsLoop_spec fuel left.tail right.tail (by omega) _ _ _ h
      rw [hkl, hkr, hal, har, hne]
      refine ⟨fun s t => ⟨fun h => ?_, fun h => ?_⟩, fun h0 => ?_⟩
      · exact padded_cons_lt.2 (.inr ⟨rfl, (hdec s t).1 h⟩)
      · exact padded_cons_lt.2 (.inr ⟨rfl, (hdec s t).2 h⟩)
      · obtain ⟨hl, hr, hk⟩ := heq h0
        exact ⟨hl, hr, by rw [hk]⟩
    · cases h
      simp only [not_or, Bool.not_eq_true] at hloop
      obtain ⟨hkl, hal⟩ := nonDigitsKey_of_not (A := A) hloop.1
      obtain ⟨hkr, har⟩ := nonDigitsKey_of_not (A := A) hloop.2
      exact ⟨fun s t => ⟨fun h => absurd h (lt_irrefl _), fun h => absurd h (lt_irrefl _)⟩,
        fun _ => ⟨hal.symm, har.symm, by rw [hkl, hkr]⟩⟩

/-- What the loop over two runs of digits has found when it stops: a run that goes on is the
    longer one; runs of equal length are ordered by their first difference. -/
structure DigitsResult (left right : Str) (d difference : ℤ) (left' right' : Str) : Prop where
  longer : atDigit left' = true →
    (right.takeWhile isDigitChar).length < (left.takeWhile isDigitChar).length
  shorter : atDigit left' = false → atDigit right' = true →
    (left.takeWhile isDigitChar).length < (right.takeWhile isDigitChar).length
  length_eq : atDigit left' = false → atDigit right' = false →
    (left.takeWhile isDigitChar).length = (right.takeWhile isDigitChar).length
  rest : atDigit left' = false → atDigit right' = false →
    left' = left.dropWhile isDigitChar ∧ right' = right.dropWhile isDigitChar
  keep : d ≠ 0 → difference = d
  eq_of_zero : d = 0 → atDigit left' = false → atDigit right' = false → difference = 0 →
    left.takeWhile isDigitChar = right.takeWhile isDigitChar
  decides : d = 0 → atDigit left' = false → atDigit right' = false → ∀ s t, Decides difference
    (padded ((left.takeWhile isDigitChar).map (fun c => (c.toNat : ℤ)) ++ s))
    (padded ((right.takeWhile isDigitChar).map (fun c => (c.toNat : ℤ)) ++ t))

theorem decides_zero (x y : Lex (ℕ → ℤ)) : Decides 0 x y :=
  ⟨fun h => absurd h (lt_irrefl _), fun h => absurd h (lt_irrefl _)⟩

theorem takeWhile_of_not_atDigit {text : Str} (h : atDigit text = false) :
    text.takeWhile isDigitChar = [] ∧ text.dropWhile isDigitChar = text := by
  cases text with
  | nil => exact ⟨rfl, rfl⟩
  | cons c text =>
    have hc : isDigitChar c = false := h
    simp [hc]

theorem length_takeWhile_of_atDigit {text : Str} (h : atDigit text = true) :
    0 < (text.takeWhile isDigitChar).length := by
  cases text with
  | nil => exact absurd h Bool.false_ne_true
  | cons c text =>
    have hc : isDigitChar c = true := h
    simp [hc]

/-- The loop stops at once unless both texts go on with a digit. -/
theorem digitsResult_stop {left right : Str} (d : ℤ)
    (h : ¬ (atDigit left = true ∧ atDigit right = true)) :
    DigitsResult left right d d left right where
  longer hl := by
    have hr : atDigit right = false := by simpa [hl] using h
    rw [(takeWhile_of_not_atDigit hr).1]
    exact length_takeWhile_of_atDigit hl
  shorter hl hr := by
    rw [(takeWhile_of_not_atDigit hl).1]
    exact length_takeWhile_of_atDigit hr
  length_eq hl hr := by rw [(takeWhile_of_not_atDigit hl).1, (takeWhile_of_not_atDigit hr).1]
  rest hl hr := ⟨(takeWhile_of_not_atDigit hl).2.symm, (takeWhile_of_not_atDigit hr).2.symm⟩
  keep _ := rfl
  eq_of_zero _ hl hr _ := by
    rw [(takeWhile_of_not_atDigit hl).1, (takeWhile_of_not_atDigit hr).1]
  decides hd _ _ s t := hd ▸ decides_zero _ _

theorem digitsLoop_spec : ∀ (left right : Str) (d difference : ℤ) (left' right' : Str),
    digitsLoop d left right = (difference, left', right') →
      DigitsResult left right d difference left' right'
  | [], right, d, difference, left', right', h => by
    have hstop : digitsLoop d [] right = (d, [], right) := by cases right <;> rfl
    cases hstop.symm.trans h
    exact digitsResult_stop d fun h => absurd h.1 Bool.false_ne_true
  | a :: left, [], d, difference, left', right', h => by
    cases h
    exact digitsResult_stop d fun h => absurd h.2 Bool.false_ne_true
  | a :: left, b :: right, d, difference, left', right', h => by
    rw [digitsLoop] at h
    by_cases hab : isDigitChar a = true ∧ isDigitChar b = true
    · rw [if_pos hab] at h
      have ih := digitsLoop_spec left right _ _ _ _ h
      have hl : (a :: left).takeWhile isDigitChar = a :: left.takeWhile isDigitChar := by
        simp [hab.1]
      have hr : (b :: right).takeWhile isDigitChar = b :: right.takeWhile isDigitChar := by
        simp [hab.2]
      -- the first difference is the one that counts
      have hfirst : d = 0 → (a.toNat : ℤ) - b.toNat ≠ 0 → difference = (a.toNat : ℤ) - b.toNat := by
        intro hd hne
        have := ih.keep (by rwa [if_pos hd])
        rwa [if_pos hd] at this
      refine ⟨fun h₁ => ?_, fun h₁ h₂ => ?_, fun h₁ h₂ => ?_, fun h₁ h₂ => ?_, fun hd => ?_,
        fun hd h₁ h₂ h0 => ?_, fun hd h₁ h₂ s t => ?_⟩
      · rw [hl, hr]; exact Nat.succ_lt_succ (ih.longer h₁)
      · rw [hl, hr]; exact Nat.succ_lt_succ (ih.shorter h₁ h₂)
      · rw [hl, hr]; exact congrArg (· + 1) (ih.length_eq h₁ h₂)
      · have := ih.rest h₁ h₂
        simpa [hab.1, hab.2] using this
      · have := ih.keep (by rwa [if_neg hd])
        rwa [if_neg hd] at this
      · by_cases hne : (a.toNat : ℤ) - b.toNat = 0
        · have hc : a = b := Char.toNat_inj.1 (by omega)
          rw [hl, hr, hc, ih.eq_of_zero (by rwa [if_pos hd]) h₁ h₂ h0]
        · exact absurd ((hfirst hd hne).symm.trans h0) hne
      · rw [hl, hr]
        simp only [List.map_cons, List.cons_append]
        by_cases hne : (a.toNat : ℤ) - b.toNat = 0
        · have hdec := ih.decides (by rwa [if_pos hd]) h₁ h₂ s t
          rw [sub_eq_zero.1 hne]
          exact ⟨fun h => padded_cons_lt.2 (.inr ⟨rfl, hdec.1 h⟩),
            fun h => padded_cons_lt.2 (.inr ⟨rfl, hdec.2 h⟩)⟩
        · rw [hfirst hd hne]
          exact ⟨fun h => padded_cons_lt.2 (.inl (sub_neg.1 h)),
            fun h => padded_cons_lt.2 (.inl (sub_pos.1 h))⟩
    · rw [if_neg hab] at h
      cases h
      exact digitsResult_stop d hab

theorem compareDigits_spec {left right : Str} {difference : ℤ} {left' right' : Str}
    (h : compareDigits left right = (difference, left', right')) :
    (∀ s t, Decides difference (padded (digitsKey left ++ s)) (padded (digitsKey right ++ t))) ∧
      (difference = 0 → left' = afterDigits left ∧ right' = afterDigits right ∧
        digitsKey left = digitsKey right) := by
  unfold compareDigits at h
  rcases hloop : digitsLoop 0 (left.dropWhile (· = '0')) (right.dropWhile (· = '0')) with
    ⟨d, l, r⟩
  have hres := digitsLoop_spec _ _ _ _ _ _ hloop
  simp only [hloop] at h
  split_ifs at h with hl hr
  · cases h
    refine ⟨fun s t => ⟨fun h => absurd h (by decide), fun _ => ?_⟩, fun h => absurd h (by decide)⟩
    exact padded_cons_lt.2 (.inl (Int.ofNat_lt.2 (hres.longer hl)))
  · cases h
    rw [Bool.not_eq_true] at hl
    refine ⟨fun s t => ⟨fun _ => ?_, fun h => absurd h (by decide)⟩, fun h => absurd h (by decide)⟩
    exact padded_cons_lt.2 (.inl (Int.ofNat_lt.2 (hres.shorter hl hr)))
  · cases h
    rw [Bool.not_eq_true] at hl hr
    have hlen : ((digitRun left).length : ℤ) = (digitRun right).length :=
      congrArg _ (hres.length_eq hl hr)
    refine ⟨fun s t => ?_, fun h0 => ?_⟩
    · have hdec := hres.decides rfl hl hr s t
      exact ⟨fun h => padded_cons_lt.2 (.inr ⟨hlen, hdec.1 h⟩),
        fun h => padded_cons_lt.2 (.inr ⟨hlen.symm, hdec.2 h⟩)⟩
    · have hrun : digitRun left = digitRun right := hres.eq_of_zero rfl hl hr h0
      exact ⟨(hres.rest hl hr).1, (hres.rest hl hr).2, by simp only [digitsKey, hrun]⟩

/-- A text that has been read goes on like any text of zeros. -/
theorem padded_fragmentKey (text : Str) : padded (fragmentKey A text) =
    padded (nonDigitsKey A text ++ 0 ::
      (digitsKey (afterNonDigits text) ++ fragmentKey A (afterDigits (afterNonDigits text)))) := by
  by_cases h : text = []
  · subst h
    have hnil : fragmentKey A [] = [] := by rw [fragmentKey, dif_pos rfl]
    have hzero : padded [] = padded [0, 0] :=
      padded_nil.trans (padded_append (w := [0]) padded_nil)
    simpa [nonDigitsKey, afterNonDigits, afterDigits, digitsKey, digitRun, hnil] using hzero
  · rw [fragmentKey, dif_neg h]

theorem fragmentLoop_spec : ∀ (fuel : ℕ) (left right : Str), left.length + right.length ≤ fuel →
    Decides (fragmentLoop A fuel left right) (padded (fragmentKey A left))
      (padded (fragmentKey A right)) ∧
    (fragmentLoop A fuel left right = 0 →
      padded (fragmentKey A left) = padded (fragmentKey A right))
  | 0, left, right, hfuel => by
    obtain ⟨rfl, rfl⟩ : left = [] ∧ right = [] :=
      ⟨List.eq_nil_of_length_eq_zero (by omega), List.eq_nil_of_length_eq_zero (by omega)⟩
    exact ⟨decides_zero _ _, fun _ => rfl⟩
  | fuel + 1, left, right, hfuel => by
    unfold fragmentLoop
    by_cases hne : left ≠ [] ∨ right ≠ []
    · rw [if_pos hne]
      rcases hn : compareNonDigits A left right with ⟨d, l, r⟩
      obtain ⟨hdec, heq⟩ := nonDigitsLoop_spec _ _ _ le_rfl _ _ _ hn
      rw [padded_fragmentKey left, padded_fragmentKey right]
      by_cases hd : d = 0
      · obtain ⟨rfl, rfl, hkey⟩ := heq hd
        rcases hdig : compareDigits (afterNonDigits left) (afterNonDigits right) with ⟨d', l', r'⟩
        obtain ⟨hdec', heq'⟩ := compareDigits_spec hdig
        simp only [hd, ne_eq, not_true_eq_false, if_false, hdig]
        have hlift : ∀ {x y : List ℤ} {e : ℤ}, Decides e (padded x) (padded y) →
            Decides e (padded (nonDigitsKey A left ++ 0 :: x))
              (padded (nonDigitsKey A right ++ 0 :: y)) := by
          intro x y e h
          rw [hkey]
          exact ⟨fun h' => padded_append_lt (padded_append_lt (w := [0]) (h.1 h')),
            fun h' => padded_append_lt (padded_append_lt (w := [0]) (h.2 h'))⟩
        by_cases hd' : d' = 0
        · obtain ⟨rfl, rfl, hkey'⟩ := heq' hd'
          have hlen : (afterDigits (afterNonDigits left)).length +
              (afterDigits (afterNonDigits right)).length ≤ fuel := by
            have hl := length_after_le left
            have hr := length_after_le right
            rcases hne with h | h
            · have := length_after_lt h; omega
            · have := length_after_lt h; omega
          obtain ⟨ih, ih₀⟩ := fragmentLoop_spec fuel _ _ hlen
          simp only [hd', not_true_eq_false, if_false]
          refine ⟨hlift ?_, fun h0 => ?_⟩
          · rw [hkey']
            exact ⟨fun h => padded_append_lt (ih.1 h), fun h => padded_append_lt (ih.2 h)⟩
          · rw [hkey, hkey']
            have hrest := padded_append (w := digitsKey (afterNonDigits right)) (ih₀ h0)
            exact padded_append (padded_append (w := [0]) hrest)
        · simp only [hd', not_false_eq_true, if_true]
          exact ⟨hlift (hdec' _ _), False.elim⟩
      · simp only [hd, ne_eq, not_false_eq_true, if_true]
        exact ⟨hdec _ _, False.elim⟩
    · rw [if_neg hne]
      obtain ⟨rfl, rfl⟩ : left = [] ∧ right = [] := by simpa using hne
      exact ⟨decides_zero _ _, fun _ => rfl⟩

/-- **Fragments are ordered by their keys.** -/
theorem compareFragment_nonpos {left right : Str} :
    compareFragment A left right ≤ 0 ↔
      padded (fragmentKey A left) ≤ padded (fragmentKey A right) := by
  obtain ⟨hdec, h0⟩ := fragmentLoop_spec (A := A) _ left right le_rfl
  constructor
  · intro h
    rcases lt_or_eq_of_le h with h | h
    · exact (hdec.1 h).le
    · exact (h0 h).le
  · intro h
    by_contra hpos
    exact absurd (hdec.2 (not_le.1 hpos)) (not_lt.2 h)

theorem compareFragment_eq_zero {left right : Str} :
    compareFragment A left right = 0 ↔
      padded (fragmentKey A left) = padded (fragmentKey A right) := by
  obtain ⟨hdec, h0⟩ := fragmentLoop_spec (A := A) _ left right le_rfl
  refine ⟨h0, fun h => ?_⟩
  by_contra hne
  rcases lt_or_gt_of_ne hne with hlt | hgt
  · exact absurd (hdec.1 hlt) (h ▸ lt_irrefl _)
  · exact absurd (hdec.2 hgt) (h ▸ lt_irrefl _)

/-! ## The order of versions -/

/-- Epoch, upstream version and revision, most significant first. -/
noncomputable def SplitVersion.key (A : Alphabet) (v : SplitVersion) :
    ℕ ×ₗ Lex (ℕ → ℤ) ×ₗ Lex (ℕ → ℤ) :=
  toLex (v.epoch, toLex (padded (fragmentKey A v.upstream), padded (fragmentKey A v.revision)))

/-- **Versions are ordered by their keys.**  In particular `compare_versions` is a total preorder. -/
theorem compareSplit_nonpos {left right : SplitVersion} :
    compareSplit A left right ≤ 0 ↔ left.key A ≤ right.key A := by
  unfold compareSplit SplitVersion.key
  rw [Prod.Lex.toLex_le_toLex, Prod.Lex.toLex_le_toLex]
  by_cases he : left.epoch = right.epoch
  · simp only [he, ne_eq, not_true_eq_false, if_false, lt_irrefl, false_or, true_and]
    by_cases hu : compareFragment A left.upstream right.upstream = 0
    · simp only [hu, not_true_eq_false, if_false, compareFragment_nonpos,
        compareFragment_eq_zero.1 hu, true_and]
      exact ⟨.inr, fun h => h.resolve_left (lt_irrefl _)⟩
    · have hne := mt compareFragment_eq_zero.2 hu
      simp only [hu, not_false_eq_true, if_true, compareFragment_nonpos, hne, false_and, or_false]
      exact ⟨fun h => lt_of_le_of_ne h hne, le_of_lt⟩
  · simp only [he, ne_eq, not_false_eq_true, if_true, false_and, or_false]
    omega

theorem compareSplit_eq_zero {left right : SplitVersion} :
    compareSplit A left right = 0 ↔ left.key A = right.key A := by
  unfold compareSplit SplitVersion.key
  rw [toLex_inj, Prod.mk.injEq, toLex_inj, Prod.mk.injEq]
  by_cases he : left.epoch = right.epoch
  · simp only [he, ne_eq, not_true_eq_false, if_false, true_and]
    by_cases hu : compareFragment A left.upstream right.upstream = 0
    · simp only [hu, not_true_eq_false, if_false, compareFragment_eq_zero,
        compareFragment_eq_zero.1 hu, true_and]
    · simp only [hu, not_false_eq_true, if_true, mt compareFragment_eq_zero.2 hu, false_and]
  · simp only [he, ne_eq, not_false_eq_true, if_true, false_and, iff_false]
    omega

end

end RulesMkosi.Debian
