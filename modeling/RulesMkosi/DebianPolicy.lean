/-
  The Debian policy order of versions, and `compare_versions`
  (`mkosi/debian/generate_lock.py`).

  Policy reads a part of a version as runs of non-digits that alternate with
  numbers.  Runs are ordered character by character, `~` before the end of the
  run, the end before letters and letters before the other characters; numbers
  by value.  The two-pointer loop of `_compare_fragment` never builds this
  decomposition; on ASCII versions its sign is the policy order all the same.
-/
import RulesMkosi.DebianResolve
import Mathlib.Tactic.Ring

namespace RulesMkosi.Debian

/-! ## The policy order -/

/-- The rank of a character, or of the end of a run (`none`). -/
def rank : Option Char → ℕ ×ₗ ℕ
  | none => toLex (1, 0)
  | some c =>
    if c = '~' then toLex (0, 0)
    else if c.isAlpha then toLex (2, c.toNat)
    else toLex (3, c.toNat)

/-- A run of non-digits, continued by its end. -/
def runOrder (run : Str) : Lex (ℕ → ℕ ×ₗ ℕ) := seq (rank none) ((run.map some).map rank)

def number (digits : Str) : ℕ := digits.foldl (fun n c => 10 * n + (c.toNat - 48)) 0

/-- The runs of non-digits of a part, each with the number after it. -/
def decompose (text : Str) : List (Str × ℕ) :=
  if _h : text = [] then []
  else
    (text.takeWhile (!·.isDigit), number ((text.dropWhile (!·.isDigit)).takeWhile (·.isDigit))) ::
      decompose ((text.dropWhile (!·.isDigit)).dropWhile (·.isDigit))
termination_by text.length
decreasing_by
  cases text with
  | nil => exact absurd rfl _h
  | cons c text =>
    by_cases hc : c.isDigit
    · have := length_dropWhile_le (·.isDigit) text
      simpa [hc] using Nat.lt_succ_of_le this
    · have h₁ := length_dropWhile_le (·.isDigit) (text.dropWhile (!·.isDigit))
      have h₂ := length_dropWhile_le (!·.isDigit) text
      simpa [hc] using Nat.lt_succ_of_le (h₁.trans h₂)

/-- A decomposition without the empty runs and zeros at its end. -/
def canonical (text : Str) : List (Str × ℕ) :=
  (decompose text).rdropWhile fun piece => decide (piece = ([], 0))

/-- A part, continued by empty runs and zeros. -/
def partOrder (text : Str) : Lex (ℕ → Lex (ℕ → ℕ ×ₗ ℕ) ×ₗ ℕ) :=
  seq (toLex (runOrder [], 0)) ((decompose text).map fun piece => toLex (runOrder piece.1, piece.2))

/-- The text before the first colon, if there is one. -/
def epochText (version : Str) : Option Str :=
  if ':' ∈ version then some (version.takeWhile (· ≠ ':')) else none

def epochOf (version : Str) : ℕ := ((epochText version).map number).getD 0

/-- The upstream version and the revision. -/
def partsOf (version : Str) : Str × Str :=
  splitRevision (if ':' ∈ version then (version.dropWhile (· ≠ ':')).tail else version)

/-- Epoch, upstream version and revision, most significant first. -/
def policyOrder (version : String) : ℕ ×ₗ Lex (ℕ → Lex (ℕ → ℕ ×ₗ ℕ) ×ₗ ℕ) ×ₗ
    Lex (ℕ → Lex (ℕ → ℕ ×ₗ ℕ) ×ₗ ℕ) :=
  toLex (epochOf version.toList,
    toLex (partOrder (partsOf version.toList).1, partOrder (partsOf version.toList).2))

/-- ASCII versions whose epoch, if any, is a number that `int` converts. -/
structure Comparable (version : String) : Prop where
  ascii : ∀ c ∈ version.toList, c.toNat < 128
  epoch : ∀ text ∈ epochText version.toList, text ≠ [] ∧ (∀ c ∈ text, c.isDigit = true) ∧
    text.length ≤ maxIntDigits

/-! ## Characters -/

theorem isDigitChar_of_ascii {c : Char} (hc : c.toNat < 128) : isDigitChar c = c.isDigit :=
  forall_ascii (P := fun c => isDigitChar c = c.isDigit) (by decide +kernel) hc

theorem toNat_lt_of_isDigit {c : Char} (hc : c.isDigit = true) : 48 ≤ c.toNat ∧ c.toNat < 58 := by
  simp only [Char.isDigit, Bool.and_eq_true, decide_eq_true_eq] at hc
  have h₁ : 48 ≤ c.val.toNat := hc.1
  have h₂ : c.val.toNat ≤ 57 := hc.2
  exact ⟨h₁, Nat.lt_succ_of_le h₂⟩

theorem decimalValue_of_isDigit {c : Char} (hc : c.isDigit = true) :
    decimalValue c = some (c.toNat - 48) := by
  have hlt : c.toNat < 128 := (toNat_lt_of_isDigit hc).2.trans (by decide)
  refine forall_ascii
    (P := fun c => c.isDigit = true → decimalValue c = some (c.toNat - 48)) ?_ hlt hc
  decide +kernel

/-- The order of a character, or of the end of a run. -/
def orderOf (A : Alphabet) : Option Char → ℤ
  | none => 0
  | some c => order A c

/-- The characters that runs of non-digits of ASCII texts have. -/
def NonDigit (c : Char) : Prop := c.toNat < 128 ∧ c.isDigit = false

section
variable {A : Alphabet} (hA : ∀ c, c.toNat < 128 → A.isAlpha c = c.isAlpha)
include hA

/-- The orders and the ranks of the four kinds of characters. -/
theorem orderOf_rank {a : Option Char} (ha : ∀ c ∈ a, NonDigit c) : ∃ kind code, rank a = toLex (kind, code) ∧
    (kind = 0 ∧ code = 0 ∧ orderOf A a = -1 ∨ kind = 1 ∧ code = 0 ∧ orderOf A a = 0 ∨
      kind = 2 ∧ 0 < code ∧ code < 128 ∧ orderOf A a = code ∨ kind = 3 ∧ orderOf A a = code + 256) := by
  cases a with
  | none => exact ⟨1, 0, rfl, .inr (.inl ⟨rfl, rfl, rfl⟩)⟩
  | some c =>
    obtain ⟨hascii, hdigit⟩ := ha c rfl
    simp only [rank, orderOf, order, isDigitChar_of_ascii hascii, hdigit, hA c hascii]
    by_cases htilde : c = '~'
    · exact ⟨0, 0, by rw [if_pos htilde], .inl ⟨rfl, rfl, by rw [if_pos htilde]⟩⟩
    by_cases halpha : c.isAlpha
    · have hpos : 0 < c.toNat := by
        refine forall_ascii (P := fun c => c.isAlpha = true → 0 < c.toNat) ?_ hascii halpha
        decide
      exact ⟨2, c.toNat, by simp [htilde, halpha],
        .inr (.inr (.inl ⟨rfl, hpos, hascii, by simp [htilde, halpha]⟩))⟩
    · exact ⟨3, c.toNat, by simp [htilde, halpha],
        .inr (.inr (.inr ⟨rfl, by simp [htilde, halpha]⟩))⟩

/-- **Characters.**  `_order` orders the non-digits like policy does. -/
theorem orderOf_iff {a b : Option Char} (ha : ∀ c ∈ a, NonDigit c) (hb : ∀ c ∈ b, NonDigit c) :
    (orderOf A a < orderOf A b ↔ rank a < rank b) ∧ (orderOf A a = orderOf A b ↔ rank a = rank b) := by
  obtain ⟨kind, code, hrank, hcases⟩ := orderOf_rank hA ha
  obtain ⟨kind', code', hrank', hcases'⟩ := orderOf_rank hA hb
  rw [hrank, hrank', Prod.Lex.toLex_lt_toLex, toLex_inj, Prod.mk.injEq]
  dsimp only
  omega

end

/-! ## Runs -/

/-- The sign of a comparison is the order of what it compares. -/
structure Signs {β : Type*} [LinearOrder β] (difference : ℤ) (left right : β) : Prop where
  neg : difference < 0 → left < right
  pos : 0 < difference → right < left
  zero : difference = 0 → left = right

def Ascii (text : Str) : Prop := ∀ c ∈ text, c.toNat < 128

theorem span_congr {p q : Char → Bool} : ∀ {text : Str}, (∀ c ∈ text, p c = q c) →
    text.takeWhile p = text.takeWhile q ∧ text.dropWhile p = text.dropWhile q
  | [], _ => ⟨rfl, rfl⟩
  | c :: text, h => by
    obtain ⟨hc, htext⟩ := List.forall_mem_cons.1 h
    obtain ⟨htake, hdrop⟩ := span_congr htext
    simp only [List.takeWhile_cons, List.dropWhile_cons, hc, htake, hdrop, and_self]

theorem span_nonDigits {text : Str} (h : Ascii text) :
    text.takeWhile (!isDigitChar ·) = text.takeWhile (!·.isDigit) ∧
      afterNonDigits text = text.dropWhile (!·.isDigit) :=
  span_congr fun c hc => by rw [isDigitChar_of_ascii (h c hc)]

theorem ascii_dropWhile {text : Str} (h : Ascii text) (p : Char → Bool) : Ascii (text.dropWhile p) :=
  fun c hc => h c ((List.dropWhile_suffix p).subset hc)

theorem mem_run {text : Str} (h : Ascii text) :
    ∀ c ∈ text.takeWhile (!·.isDigit), NonDigit c := fun c hc =>
  ⟨h c ((List.takeWhile_prefix _).subset hc), by simpa using List.mem_takeWhile_imp hc⟩

section
variable {A : Alphabet} (hA : ∀ c, c.toNat < 128 → A.isAlpha c = c.isAlpha)
include hA

theorem padded_nonDigitsKey {left right : Str} (hl : Ascii left) (hr : Ascii right) :
    padded (nonDigitsKey A left) < padded (nonDigitsKey A right) ↔
      runOrder (left.takeWhile (!·.isDigit)) < runOrder (right.takeWhile (!·.isDigit)) := by
  have hkey : ∀ {text : Str}, Ascii text → padded (nonDigitsKey A text) =
      seq (orderOf A none) (((text.takeWhile (!·.isDigit)).map some).map (orderOf A)) := by
    intro text h
    rw [nonDigitsKey, (span_nonDigits h).1, List.map_map]
    rfl
  have hmem : ∀ {text : Str}, Ascii text →
      ∀ a ∈ none :: (text.takeWhile (!·.isDigit)).map some, ∀ c ∈ a, NonDigit c := by
    intro text h a ha c hc
    rcases List.mem_cons.1 ha with rfl | ha
    · cases hc
    · obtain ⟨c', hc', rfl⟩ := List.mem_map.1 ha
      cases hc
      exact mem_run h _ hc'
  rw [hkey hl, hkey hr]
  exact seq_map_lt_iff fun a ha b hb => orderOf_iff hA (hmem hl a ha) (hmem hr b hb)

/-- **Runs of non-digits** are compared in the policy order. -/
theorem compareNonDigits_signs {left right : Str} (hl : Ascii left) (hr : Ascii right)
    {difference : ℤ} {left' right' : Str}
    (h : compareNonDigits A left right = (difference, left', right')) :
    Signs difference (runOrder (left.takeWhile (!·.isDigit))) (runOrder (right.takeWhile (!·.isDigit))) ∧
      (difference = 0 → left' = afterNonDigits left ∧ right' = afterNonDigits right) := by
  obtain ⟨hdec, heq⟩ := nonDigitsLoop_spec _ _ _ le_rfl _ _ _ h
  have hend : ∀ l : List ℤ, padded (l ++ [0]) = padded l := fun l => by
    simpa using (padded_append (w := l) padded_nil).symm
  have hdec := hdec [] []
  rw [hend, hend] at hdec
  refine ⟨⟨fun h => ?_, fun h => ?_, fun h => ?_⟩, fun h => ⟨(heq h).1, (heq h).2.1⟩⟩
  · exact (padded_nonDigitsKey hA hl hr).1 (hdec.1 h)
  · exact (padded_nonDigitsKey hA hr hl).1 (hdec.2 h)
  · -- equal keys: neither run is before the other
    have hkey := (heq h).2.2
    refine le_antisymm (not_lt.1 fun hlt => ?_) (not_lt.1 fun hlt => ?_)
    · exact absurd ((padded_nonDigitsKey hA hr hl).2 hlt) (hkey ▸ lt_irrefl _)
    · exact absurd ((padded_nonDigitsKey hA hl hr).2 hlt) (hkey ▸ lt_irrefl _)

end

/-! ## Numbers -/

theorem foldl_number (n : ℕ) : ∀ digits : Str,
    digits.foldl (fun n c => 10 * n + (c.toNat - 48)) n = n * 10 ^ digits.length + number digits
  | [] => by simp [number]
  | c :: digits => by
    have hcons : number (c :: digits) =
        (10 * 0 + (c.toNat - 48)) * 10 ^ digits.length + number digits := foldl_number _ digits
    rw [List.foldl_cons, foldl_number _ digits, hcons, List.length_cons, pow_succ]
    ring

theorem number_cons (c : Char) (digits : Str) :
    number (c :: digits) = (c.toNat - 48) * 10 ^ digits.length + number digits := by
  rw [number, List.foldl_cons, foldl_number]
  simp

theorem number_lt : ∀ {digits : Str}, (∀ c ∈ digits, c.isDigit = true) →
    number digits < 10 ^ digits.length
  | [], _ => by simp [number]
  | c :: digits, h => by
    obtain ⟨hc, hdigits⟩ := List.forall_mem_cons.1 h
    have hlt := number_lt hdigits
    have hval := toNat_lt_of_isDigit hc
    have hle : (c.toNat - 48) * 10 ^ digits.length ≤ 9 * 10 ^ digits.length :=
      Nat.mul_le_mul_right _ (by omega)
    rw [number_cons, List.length_cons, pow_succ]
    omega

/-- Digits of equal length are ordered by their first difference. -/
theorem number_lt_of_padded : ∀ {left right : Str}, left.length = right.length →
    (∀ c ∈ left, c.isDigit = true) → (∀ c ∈ right, c.isDigit = true) →
    padded (left.map fun c => (c.toNat : ℤ)) < padded (right.map fun c => (c.toNat : ℤ)) →
      number left < number right
  | [], [], _, _, _, h => absurd h (lt_irrefl _)
  | a :: left, b :: right, hlen, hl, hr, h => by
    obtain ⟨ha, hl⟩ := List.forall_mem_cons.1 hl
    obtain ⟨hb, hr⟩ := List.forall_mem_cons.1 hr
    have hlen : left.length = right.length := Nat.succ_injective hlen
    rw [number_cons, number_cons, hlen]
    rcases padded_cons_lt.1 h with h | ⟨h, hlt⟩
    · have h : (a.toNat : ℤ) < b.toNat := h
      have hlt := number_lt hl
      have h₁ := toNat_lt_of_isDigit ha
      have hval : (a.toNat - 48) + 1 ≤ b.toNat - 48 := by omega
      have hle := Nat.mul_le_mul_right (10 ^ right.length) hval
      rw [Nat.add_mul, one_mul, ← hlen] at hle
      rw [← hlen]
      omega
    · have hab : a.toNat = b.toNat := Int.ofNat.inj h
      rw [hab]
      exact Nat.add_lt_add_left (number_lt_of_padded hlen hl hr hlt) _

/-- A longer number without leading zeros is the larger one. -/
theorem number_lt_of_length {left right : Str} (hlen : left.length < right.length)
    (hl : ∀ c ∈ left, c.isDigit = true) (hr : ∀ c ∈ right, c.isDigit = true)
    (hhead : right.head? ≠ some '0') : number left < number right := by
  cases right with
  | nil => exact absurd hlen (Nat.not_lt_zero _)
  | cons b right =>
    obtain ⟨hb, -⟩ := List.forall_mem_cons.1 hr
    have hb0 : b.toNat ≠ 48 := fun h0 => hhead (congrArg some (Char.toNat_inj.1 h0))
    have h₁ := toNat_lt_of_isDigit hb
    have hpow : 10 ^ left.length ≤ 10 ^ right.length :=
      Nat.pow_le_pow_right (by decide) (Nat.le_of_lt_succ hlen)
    have hval : 1 * 10 ^ right.length ≤ (b.toNat - 48) * 10 ^ right.length :=
      Nat.mul_le_mul_right _ (by omega)
    have hlt := number_lt hl
    rw [number_cons]
    omega

/-- Leading zeros belong to the digits and do not count. -/
theorem span_digits : ∀ text : Str, number (text.takeWhile (·.isDigit)) =
      number ((text.dropWhile (· = '0')).takeWhile (·.isDigit)) ∧
    text.dropWhile (·.isDigit) = (text.dropWhile (· = '0')).dropWhile (·.isDigit)
  | [] => ⟨rfl, rfl⟩
  | c :: text => by
    by_cases hc : c = '0'
    · subst hc
      obtain ⟨hnumber, hrest⟩ := span_digits text
      have hdigit : '0'.isDigit = true := by decide
      have hzero : '0'.toNat - 48 = 0 := by decide
      rw [List.takeWhile_cons_of_pos hdigit, List.dropWhile_cons_of_pos hdigit,
        List.dropWhile_cons_of_pos (by decide), number_cons, hzero, zero_mul, zero_add]
      exact ⟨hnumber, hrest⟩
    · simp [List.dropWhile_cons, hc]

theorem span_digitRun {text : Str} (h : Ascii text) :
    number (digitRun text) = number (text.takeWhile (·.isDigit)) ∧
      afterDigits text = text.dropWhile (·.isDigit) := by
  have hcongr := span_congr (p := isDigitChar) (q := (·.isDigit))
    fun c hc => isDigitChar_of_ascii (ascii_dropWhile h (· = '0') c hc)
  rw [digitRun, afterDigits, hcongr.1, hcongr.2, (span_digits text).1, (span_digits text).2]
  exact ⟨rfl, rfl⟩

theorem isDigit_of_digitRun {text : Str} (h : Ascii text) : ∀ c ∈ digitRun text, c.isDigit = true := by
  intro c hc
  have hmem : c ∈ text.dropWhile (· = '0') := (List.takeWhile_prefix _).subset hc
  rw [← isDigitChar_of_ascii (ascii_dropWhile h _ c hmem)]
  exact List.mem_takeWhile_imp hc

theorem head_digitRun (text : Str) : (digitRun text).head? ≠ some '0' := by
  intro hhead
  have hmem : (text.dropWhile (· = '0')).head? = some '0' := by
    rw [digitRun] at hhead
    cases hdrop : text.dropWhile (· = '0') with
    | nil => rw [hdrop] at hhead; cases hhead
    | cons c rest =>
      rw [hdrop, List.takeWhile_cons] at hhead
      split_ifs at hhead
      · exact hhead
      · cases hhead
  have := List.head?_dropWhile_not (p := fun c : Char => decide (c = '0')) text
  rw [hmem] at this
  simp at this

/-- **Runs of digits** are compared by value. -/
theorem compareDigits_signs {left right : Str} (hl : Ascii left) (hr : Ascii right)
    {difference : ℤ} {left' right' : Str}
    (h : compareDigits left right = (difference, left', right')) :
    Signs difference (number (left.takeWhile (·.isDigit))) (number (right.takeWhile (·.isDigit))) ∧
      (difference = 0 → left' = afterDigits left ∧ right' = afterDigits right) := by
  obtain ⟨hdec, heq⟩ := compareDigits_spec h
  have hdec := hdec [] []
  rw [List.append_nil, List.append_nil] at hdec
  rw [← (span_digitRun hl).1, ← (span_digitRun hr).1]
  have hlt : ∀ {l r : Str}, Ascii l → Ascii r → padded (digitsKey l) < padded (digitsKey r) →
      number (digitRun l) < number (digitRun r) := by
    intro l r hl hr hlt
    rcases padded_cons_lt.1 hlt with hlen | ⟨hlen, hlt⟩
    · exact number_lt_of_length (Int.ofNat_lt.1 hlen) (isDigit_of_digitRun hl)
        (isDigit_of_digitRun hr) (head_digitRun r)
    · exact number_lt_of_padded (Int.ofNat.inj hlen) (isDigit_of_digitRun hl)
        (isDigit_of_digitRun hr) hlt
  refine ⟨⟨fun h => hlt hl hr (hdec.1 h), fun h => hlt hr hl (hdec.2 h), fun h => ?_⟩,
    fun h => ⟨(heq h).1, (heq h).2.1⟩⟩
  have hmap := (List.cons.inj (heq h).2.2).2
  have hinj : Function.Injective fun c : Char => (c.toNat : ℤ) :=
    fun a b h => Char.toNat_inj.1 (Int.ofNat.inj h)
  rw [List.map_injective_iff.2 hinj hmap]

/-! ## Parts -/

/-- A text that has been read goes on with empty runs and zeros. -/
theorem partOrder_eq {text : Str} (h : Ascii text) : partOrder text =
    seq (toLex (runOrder [], 0))
      (toLex (runOrder (text.takeWhile (!·.isDigit)),
          number ((afterNonDigits text).takeWhile (·.isDigit))) ::
        (decompose (afterDigits (afterNonDigits text))).map
          fun piece => toLex (runOrder piece.1, piece.2)) := by
  unfold partOrder
  by_cases hnil : text = []
  · subst hnil
    have hnone : decompose [] = [] := by rw [decompose, dif_pos rfl]
    simpa [afterNonDigits, afterDigits, hnone, number] using seq_nil
  · have hafter := (span_nonDigits h).2
    have hdigits := (span_digitRun (ascii_dropWhile h (!·.isDigit))).2
    rw [decompose, dif_neg hnil, hafter, hdigits, List.map_cons]

theorem length_after {left right : Str} {fuel : ℕ} (hne : left ≠ [] ∨ right ≠ [])
    (hfuel : left.length + right.length ≤ fuel + 1) : (afterDigits (afterNonDigits left)).length +
      (afterDigits (afterNonDigits right)).length ≤ fuel := by
  have hl := length_after_le left
  have hr := length_after_le right
  rcases hne with h | h
  · have := length_after_lt h
    omega
  · have := length_after_lt h
    omega

section
variable {A : Alphabet} (hA : ∀ c, c.toNat < 128 → A.isAlpha c = c.isAlpha)
include hA

theorem fragmentLoop_signs : ∀ {fuel : ℕ} {left right : Str}, Ascii left → Ascii right →
    left.length + right.length ≤ fuel →
      Signs (fragmentLoop A fuel left right) (partOrder left) (partOrder right)
  | 0, left, right, _, _, hfuel => by
    obtain ⟨rfl, rfl⟩ : left = [] ∧ right = [] :=
      ⟨List.eq_nil_of_length_eq_zero (by omega), List.eq_nil_of_length_eq_zero (by omega)⟩
    exact ⟨fun h => absurd h (lt_irrefl _), fun h => absurd h (lt_irrefl _), fun _ => rfl⟩
  | fuel + 1, left, right, hl, hr, hfuel => by
    unfold fragmentLoop
    by_cases hne : left ≠ [] ∨ right ≠ []
    · rw [if_pos hne, partOrder_eq hl, partOrder_eq hr]
      have hl' : Ascii (afterNonDigits left) := ascii_dropWhile hl _
      have hr' : Ascii (afterNonDigits right) := ascii_dropWhile hr _
      rcases hrun : compareNonDigits A left right with ⟨d, l, r⟩
      obtain ⟨hruns, hafter⟩ := compareNonDigits_signs hA hl hr hrun
      by_cases hd : d = 0
      · obtain ⟨rfl, rfl⟩ := hafter hd
        rw [hruns.zero hd]
        rcases hdig : compareDigits (afterNonDigits left) (afterNonDigits right) with ⟨d', l', r'⟩
        obtain ⟨hnumbers, hafter'⟩ := compareDigits_signs hl' hr' hdig
        simp only [hd, ne_eq, not_true_eq_false, if_false, hdig]
        by_cases hd' : d' = 0
        · obtain ⟨rfl, rfl⟩ := hafter' hd'
          rw [hnumbers.zero hd']
          simp only [hd', not_true_eq_false, if_false]
          have ih := fragmentLoop_signs (ascii_dropWhile (ascii_dropWhile hl' _) _)
            (ascii_dropWhile (ascii_dropWhile hr' _) _) (length_after hne hfuel)
          exact ⟨fun h => seq_cons_lt.2 (.inr ⟨rfl, ih.neg h⟩),
            fun h => seq_cons_lt.2 (.inr ⟨rfl, ih.pos h⟩),
            fun h => seq_cons_inj.2 ⟨rfl, ih.zero h⟩⟩
        · simp only [hd', not_false_eq_true, if_true]
          refine ⟨fun h => seq_cons_lt.2 (.inl ?_), fun h => seq_cons_lt.2 (.inl ?_), fun h => ?_⟩
          · exact Prod.Lex.toLex_lt_toLex.2 (.inr ⟨rfl, hnumbers.neg h⟩)
          · exact Prod.Lex.toLex_lt_toLex.2 (.inr ⟨rfl, hnumbers.pos h⟩)
          · exact absurd h hd'
      · simp only [hd, ne_eq, not_false_eq_true, if_true]
        refine ⟨fun h => seq_cons_lt.2 (.inl ?_), fun h => seq_cons_lt.2 (.inl ?_), fun h => ?_⟩
        · exact Prod.Lex.toLex_lt_toLex.2 (.inl (hruns.neg h))
        · exact Prod.Lex.toLex_lt_toLex.2 (.inl (hruns.pos h))
        · exact absurd h hd
    · rw [if_neg hne]
      obtain ⟨rfl, rfl⟩ : left = [] ∧ right = [] := by simpa using hne
      exact ⟨fun h => absurd h (lt_irrefl _), fun h => absurd h (lt_irrefl _), fun _ => rfl⟩

end

/-! ## Canonical decompositions -/

theorem rank_injective : Function.Injective rank := by
  have hkind : ∀ c, ∃ kind code, rank (some c) = toLex (kind, code) ∧ kind ≠ 1 ∧
      (kind = 0 ∧ c = '~' ∨ kind ≠ 0 ∧ code = c.toNat) := by
    intro c
    simp only [rank]
    split_ifs with htilde halpha
    · exact ⟨0, 0, rfl, by decide, .inl ⟨rfl, htilde⟩⟩
    · exact ⟨2, c.toNat, rfl, by decide, .inr ⟨by decide, rfl⟩⟩
    · exact ⟨3, c.toNat, rfl, by decide, .inr ⟨by decide, rfl⟩⟩
  have hnone : ∀ c, rank (some c) ≠ rank none := by
    intro c h
    obtain ⟨kind, code, hrank, hne, -⟩ := hkind c
    exact hne (congrArg Prod.fst (toLex_inj.1 (hrank ▸ h)))
  intro a b h
  match a, b with
  | none, none => rfl
  | none, some c => exact absurd h.symm (hnone c)
  | some c, none => exact absurd h (hnone c)
  | some c, some c' =>
    obtain ⟨kind, code, hrank, -, hc⟩ := hkind c
    obtain ⟨kind', code', hrank', -, hc'⟩ := hkind c'
    rw [hrank, hrank', toLex_inj, Prod.mk.injEq] at h
    obtain ⟨rfl, rfl⟩ := h
    rcases hc with ⟨h0, rfl⟩ | ⟨h0, rfl⟩
    · rcases hc' with ⟨-, rfl⟩ | ⟨h0', -⟩
      · rfl
      · exact absurd h0 h0'
    · rcases hc' with ⟨h0', -⟩ | ⟨-, hcode⟩
      · exact absurd h0' h0
      · exact congrArg some (Char.toNat_inj.1 hcode)

theorem runOrder_injective : Function.Injective runOrder := by
  intro left right h
  have h := (seq_map_inj rank_injective).1 h
  have hfull : ∀ run : Str, (run.map some).rdropWhile (fun a => decide (a = none)) = run.map some := by
    intro run
    refine List.rdropWhile_eq_self_iff.2 fun hne hlast => ?_
    obtain ⟨c, -, hc⟩ := List.mem_map.1 (List.getLast_mem hne)
    simp [← hc] at hlast
  rw [seq_inj, hfull, hfull] at h
  exact List.map_injective_iff.2 (Option.some_injective _) h

/-- Parts are equal in the policy order iff their canonical decompositions are. -/
theorem partOrder_inj {left right : Str} :
    partOrder left = partOrder right ↔ canonical left = canonical right := by
  have hinj : Function.Injective fun piece : Str × ℕ => toLex (runOrder piece.1, piece.2) := by
    intro a b h
    have h := Prod.mk.injEq .. ▸ toLex_inj.1 h
    exact Prod.ext (runOrder_injective h.1) h.2
  exact (seq_map_inj (i := ([], 0)) hinj).trans seq_inj

/-! ## Versions -/

theorem toInt_of_digits {text : Str} (hdigits : ∀ c ∈ text, c.isDigit = true)
    (hlen : text.length ≤ maxIntDigits) : toInt text = some (number text) := by
  have hfold : ∀ (text : Str) (n : ℕ), (∀ c ∈ text, c.isDigit = true) →
      text.foldlM (fun n c => (decimalValue c).map (10 * n + ·)) n =
        some (text.foldl (fun n c => 10 * n + (c.toNat - 48)) n) := by
    intro text
    induction text with
    | nil => intro n _; rfl
    | cons c text ih =>
      intro n h
      obtain ⟨hc, htext⟩ := List.forall_mem_cons.1 h
      rw [List.foldlM_cons, decimalValue_of_isDigit hc]
      exact ih _ htext
  rw [toInt, if_neg (not_lt.2 hlen), hfold text 0 hdigits]
  rfl

theorem isDigit_of_digits {text : Str} (hne : text ≠ []) (hdigits : ∀ c ∈ text, c.isDigit = true) :
    isDigit text = true := by
  have hall : text.all isDigitChar = true := by
    refine List.all_eq_true.2 fun c hc => ?_
    have hlt : c.toNat < 128 := (toNat_lt_of_isDigit (hdigits c hc)).2.trans (by decide)
    rw [isDigitChar_of_ascii hlt, hdigits c hc]
  simpa [isDigit, hne] using hall

theorem splitVersion_of_comparable {version : String} (h : Comparable version) :
    splitVersion version = .ok ⟨epochOf version.toList, (partsOf version.toList).1,
      (partsOf version.toList).2⟩ := by
  by_cases hcolon : ':' ∈ version.toList
  · obtain ⟨hne, hdigits, hlen⟩ := h.epoch _ (if_pos hcolon)
    have hraise := raiseIf_of_not (not_not.2 (isDigit_of_digits hne hdigits))
      (Failure.lockError ("invalid Debian version epoch: " ++
        String.ofList (version.toList.takeWhile (· ≠ ':'))))
    simp only [splitVersion, splitEpoch, if_pos hcolon, hraise, parseEpoch,
      toInt_of_digits hdigits hlen, ok_bind, epochOf, epochText, partsOf]
    rfl
  · simp only [splitVersion, splitEpoch, if_neg hcolon, ok_bind, epochOf, epochText, partsOf]
    rfl

theorem ascii_partsOf {version : Str} (h : Ascii version) :
    Ascii (partsOf version).1 ∧ Ascii (partsOf version).2 := by
  have hsplit : ∀ {text : Str}, Ascii text →
      Ascii (splitRevision text).1 ∧ Ascii (splitRevision text).2 := by
    intro text h
    unfold splitRevision
    split_ifs
    · refine ⟨fun c hc => h c ?_, fun c hc => h c ?_⟩
      · have := List.mem_of_mem_tail (List.mem_reverse.1 hc)
        exact List.mem_reverse.1 ((List.dropWhile_suffix _).subset this)
      · exact List.mem_reverse.1 ((List.takeWhile_prefix _).subset (List.mem_reverse.1 hc))
    · exact ⟨h, fun c hc => absurd hc List.not_mem_nil⟩
  unfold partsOf
  split_ifs
  · exact hsplit fun c hc => ascii_dropWhile h _ c (List.mem_of_mem_tail hc)
  · exact hsplit h

section
variable {A : Alphabet} (hA : ∀ c, c.toNat < 128 → A.isAlpha c = c.isAlpha)
include hA

theorem compareFragment_signs {left right : Str} (hl : Ascii left) (hr : Ascii right) :
    Signs (compareFragment A left right) (partOrder left) (partOrder right) :=
  fragmentLoop_signs hA hl hr le_rfl

/-- The sign of a comparison of versions is their policy order. -/
theorem compareVersions_signs {left right : String} (hl : Comparable left) (hr : Comparable right) :
    ∃ difference, compareVersions A left right = .ok difference ∧
      Signs difference (policyOrder left) (policyOrder right) := by
  obtain ⟨hul, hrl⟩ := ascii_partsOf hl.ascii
  obtain ⟨hur, hrr⟩ := ascii_partsOf hr.ascii
  have hupstream := compareFragment_signs hA hul hur
  have hrevision := compareFragment_signs hA hrl hrr
  refine ⟨_, by rw [compareVersions, splitVersion_of_comparable hl, ok_bind,
    splitVersion_of_comparable hr, ok_bind]; rfl, ?_⟩
  unfold compareSplit policyOrder
  by_cases hepoch : epochOf left.toList = epochOf right.toList
  · rw [if_neg (not_not.2 hepoch), hepoch]
    by_cases hzero : compareFragment A (partsOf left.toList).1 (partsOf right.toList).1 = 0
    · rw [if_neg (not_not.2 hzero), hupstream.zero hzero]
      refine ⟨fun h => ?_, fun h => ?_, fun h => by rw [hrevision.zero h]⟩
      · exact Prod.Lex.toLex_lt_toLex.2 (.inr ⟨rfl,
          Prod.Lex.toLex_lt_toLex.2 (.inr ⟨rfl, hrevision.neg h⟩)⟩)
      · exact Prod.Lex.toLex_lt_toLex.2 (.inr ⟨rfl,
          Prod.Lex.toLex_lt_toLex.2 (.inr ⟨rfl, hrevision.pos h⟩)⟩)
    · rw [if_pos hzero]
      refine ⟨fun h => ?_, fun h => ?_, fun h => absurd h hzero⟩
      · exact Prod.Lex.toLex_lt_toLex.2 (.inr ⟨rfl,
          Prod.Lex.toLex_lt_toLex.2 (.inl (hupstream.neg h))⟩)
      · exact Prod.Lex.toLex_lt_toLex.2 (.inr ⟨rfl,
          Prod.Lex.toLex_lt_toLex.2 (.inl (hupstream.pos h))⟩)
  · rw [if_pos hepoch]
    refine ⟨fun h => ?_, fun h => ?_, fun h => ?_⟩
    · exact Prod.Lex.toLex_lt_toLex.2 (.inl (Int.ofNat_lt.1 (sub_neg.1 h)))
    · exact Prod.Lex.toLex_lt_toLex.2 (.inl (Int.ofNat_lt.1 (sub_pos.1 h)))
    · exact absurd (Int.ofNat.inj (sub_eq_zero.1 h)) hepoch

/-- A record of a name whose version no other record of the name exceeds. -/
theorem init_newest {packages : List Package} {universe_ : Universe A}
    (h : Universe.init A packages = .ok universe_) (hc : ∀ p ∈ packages, Comparable p.version)
    {package : Package} (hp : package ∈ packages) :
    ∃ newest ∈ packages, universe_.newest package.name = some newest ∧
      newest.name = package.name ∧ ∀ other ∈ packages, other.name = package.name →
        ∃ difference ≤ 0, compareVersions A other.version newest.version = .ok difference := by
  have hspec := records_spec packages package.name
  obtain ⟨hperm, hsorted⟩ := newestFirst_spec (init_packages h package.name)
  -- every package of the name has a record of its version
  have hrecord : ∀ other ∈ packages, other.name = package.name →
      ∃ record ∈ (universe_.packages.get package.name).getD [], record.version = other.version := by
    intro other hother hname
    have hkey := hspec.covers other (List.mem_filter.2 ⟨hother, by simpa using hname⟩)
    obtain ⟨item, hitem, hkey⟩ := List.mem_map.1 hkey
    refine ⟨item.2, hperm.mem_iff.2 (List.mem_map_of_mem hitem), ?_⟩
    exact congrArg Prod.fst ((hspec.mem item hitem).2.symm.trans hkey)
  have hmem : ∀ record ∈ (universe_.packages.get package.name).getD [],
      record ∈ packages ∧ record.name = package.name := by
    intro record hrec
    obtain ⟨item, hitem, rfl⟩ := List.mem_map.1 (hperm.mem_iff.1 hrec)
    have := List.mem_filter.1 (hspec.mem item hitem).1
    exact ⟨this.1, by simpa using this.2⟩
  unfold Universe.newest
  cases hlist : (universe_.packages.get package.name).getD [] with
  | nil =>
    obtain ⟨record, hrec, -⟩ := hrecord package hp rfl
    rw [hlist] at hrec
    exact absurd hrec List.not_mem_nil
  | cons newest older =>
    rw [hlist] at hrecord hmem hsorted
    obtain ⟨hnewest, hname⟩ := hmem newest List.mem_cons_self
    refine ⟨newest, hnewest, rfl, hname, fun other hother hname' => ?_⟩
    obtain ⟨record, hrec, hversion⟩ := hrecord other hother hname'
    rw [← hversion]
    rcases List.mem_cons.1 hrec with rfl | holder
    · obtain ⟨difference, hcompare, hsigns⟩ := compareVersions_signs hA (hc _ hnewest) (hc _ hnewest)
      exact ⟨difference, not_lt.1 fun hpos => lt_irrefl _ (hsigns.pos hpos), hcompare⟩
    · exact List.rel_of_pairwise_cons hsorted holder

end

theorem Signs.iff {β : Type*} [LinearOrder β] {difference : ℤ} {left right : β}
    (h : Signs difference left right) : (difference < 0 ↔ left < right) ∧
      (difference = 0 ↔ left = right) ∧ (0 < difference ↔ right < left) := by
  rcases lt_trichotomy difference 0 with hd | hd | hd
  · have hlt := h.neg hd
    exact ⟨iff_of_true hd hlt, iff_of_false hd.ne hlt.ne, iff_of_false hd.asymm hlt.asymm⟩
  · have heq := h.zero hd
    exact ⟨iff_of_false hd.not_lt heq.not_lt, iff_of_true hd heq, iff_of_false hd.not_gt heq.not_gt⟩
  · have hlt := h.pos hd
    exact ⟨iff_of_false hd.asymm hlt.asymm, iff_of_false hd.ne' hlt.ne', iff_of_true hd hlt⟩

theorem policyOrder_inj {left right : String} : policyOrder left = policyOrder right ↔
    epochOf left.toList = epochOf right.toList ∧
      canonical (partsOf left.toList).1 = canonical (partsOf right.toList).1 ∧
      canonical (partsOf left.toList).2 = canonical (partsOf right.toList).2 := by
  rw [policyOrder, policyOrder, toLex_inj, Prod.mk.injEq, toLex_inj, Prod.mk.injEq, partOrder_inj,
    partOrder_inj]

/-- **Debian version order.**  On ASCII versions with an epoch that `int` converts,
    `compare_versions` returns, its sign is the policy order, it is antisymmetric and transitive,
    and it is zero exactly on equal epochs and canonical decompositions.  The newest record of a
    name is one whose version no other record of the name exceeds. -/
theorem compareVersions_policy (A : Alphabet) (hA : ∀ c, c.toNat < 128 → A.isAlpha c = c.isAlpha) :
    (∀ left right : String, Comparable left → Comparable right → ∃ difference,
      compareVersions A left right = .ok difference ∧
      (difference < 0 ↔ policyOrder left < policyOrder right) ∧
      (0 < difference ↔ policyOrder right < policyOrder left) ∧
      (difference = 0 ↔ epochOf left.toList = epochOf right.toList ∧
        canonical (partsOf left.toList).1 = canonical (partsOf right.toList).1 ∧
        canonical (partsOf left.toList).2 = canonical (partsOf right.toList).2) ∧
      ∃ reverse, compareVersions A right left = .ok reverse ∧ reverse.sign = -difference.sign) ∧
    (∀ a b c : String, Comparable a → Comparable b → Comparable c → ∀ d₁ d₂ d₃,
      compareVersions A a b = .ok d₁ → compareVersions A b c = .ok d₂ →
      compareVersions A a c = .ok d₃ → d₁ ≤ 0 → d₂ ≤ 0 →
        d₃ ≤ 0 ∧ (d₃ = 0 ↔ d₁ = 0 ∧ d₂ = 0)) ∧
    (∀ (packages : List Package) (universe_ : Universe A),
      Universe.init A packages = .ok universe_ → (∀ p ∈ packages, Comparable p.version) →
      ∀ package ∈ packages, ∃ newest ∈ packages, universe_.newest package.name = some newest ∧
        newest.name = package.name ∧ ∀ other ∈ packages, other.name = package.name →
          ∃ difference ≤ 0,
            compareVersions A other.version newest.version = .ok difference) := by
  refine ⟨fun left right hl hr => ?_, fun a b c ha hb hc d₁ d₂ d₃ h₁ h₂ h₃ hle₁ hle₂ => ?_,
    fun packages universe_ h hc package hp => init_newest hA h hc hp⟩
  · obtain ⟨difference, hcompare, hsigns⟩ := compareVersions_signs hA hl hr
    obtain ⟨reverse, hreverse, hsigns'⟩ := compareVersions_signs hA hr hl
    obtain ⟨hneg, hzero, hpos⟩ := hsigns.iff
    refine ⟨difference, hcompare, hneg, hpos, hzero.trans policyOrder_inj, reverse, hreverse, ?_⟩
    rcases lt_trichotomy difference 0 with hd | hd | hd
    · rw [Int.sign_eq_neg_one_of_neg hd, Int.sign_eq_one_of_pos (hsigns'.iff.2.2.2 (hneg.1 hd))]
      rfl
    · rw [hd, hsigns'.iff.2.1.2 (hzero.1 hd).symm]
      rfl
    · rw [Int.sign_eq_one_of_pos hd, Int.sign_eq_neg_one_of_neg (hsigns'.iff.1.2 (hpos.1 hd))]
  · obtain ⟨_, hab, hsab⟩ := compareVersions_signs hA ha hb
    obtain ⟨_, hbc, hsbc⟩ := compareVersions_signs hA hb hc
    obtain ⟨_, hac, hsac⟩ := compareVersions_signs hA ha hc
    cases h₁.symm.trans hab
    cases h₂.symm.trans hbc
    cases h₃.symm.trans hac
    have hab' : policyOrder a ≤ policyOrder b := not_lt.1 fun h => not_lt.2 hle₁ (hsab.iff.2.2.2 h)
    have hbc' : policyOrder b ≤ policyOrder c := not_lt.1 fun h => not_lt.2 hle₂ (hsbc.iff.2.2.2 h)
    refine ⟨not_lt.1 fun h => not_lt.2 (hab'.trans hbc') (hsac.iff.2.2.1 h), ?_⟩
    rw [hsac.iff.2.1, hsab.iff.2.1, hsbc.iff.2.1]
    constructor
    · intro h
      have hba : policyOrder b ≤ policyOrder a := h ▸ hbc'
      exact ⟨le_antisymm hab' hba, le_antisymm hbc' (h ▸ hab')⟩
    · rintro ⟨h, h'⟩
      exact h.trans h'

instance (version : String) : Decidable (Comparable version) :=
  decidable_of_iff (version.toList.all (·.toNat < 128) ∧ (epochText version.toList).all fun text =>
    text ≠ [] ∧ text.all Char.isDigit ∧ text.length ≤ maxIntDigits) <| by
    constructor
    · rintro ⟨hascii, hepoch⟩
      refine ⟨by simpa using hascii, fun text htext => ?_⟩
      rw [Option.mem_def.1 htext] at hepoch
      simpa using hepoch
    · rintro ⟨hascii, hepoch⟩
      refine ⟨by simpa using hascii, ?_⟩
      cases htext : epochText version.toList with
      | none => rfl
      | some text => simpa using hepoch text htext

theorem compareVersions_policy_example :
    (∃ difference < 0, compareVersions asciiAlphabet "1:2.10~rc1-1" "1:2.10-1" = .ok difference) ∧
      ∃ (universe_ : Universe asciiAlphabet) (newest : Package),
        Universe.init asciiAlphabet examplePackages = .ok universe_ ∧
          universe_.newest "base" = some newest ∧ newest.version = "1.10~rc1" ∧
          ∀ other ∈ examplePackages, other.name = "base" → ∃ difference ≤ 0,
            compareVersions asciiAlphabet other.version newest.version = .ok difference := by
  obtain ⟨hcompare, htrans, hnewest⟩ := compareVersions_policy asciiAlphabet fun _ _ => rfl
  constructor
  · obtain ⟨d₁, h₁, -, -, -, -⟩ := hcompare "1:2.10~rc1-1" "1:2.10" (by decide) (by decide)
    obtain ⟨d₂, h₂, -, -, -, -⟩ := hcompare "1:2.10" "1:2.10-1" (by decide) (by decide)
    obtain ⟨d₃, h₃, -, -, -, -⟩ := hcompare "1:2.10~rc1-1" "1:2.10-1" (by decide) (by decide)
    have hd₁ : compareVersions asciiAlphabet "1:2.10~rc1-1" "1:2.10" = .ok (-1) := by decide
    have hd₂ : compareVersions asciiAlphabet "1:2.10" "1:2.10-1" = .ok (-1) := by decide
    cases hd₁.symm.trans h₁
    cases hd₂.symm.trans h₂
    obtain ⟨hle, hzero⟩ := htrans "1:2.10~rc1-1" "1:2.10" "1:2.10-1" (by decide) (by decide)
      (by decide) _ _ _ h₁ h₂ h₃ (by decide) (by decide)
    refine ⟨d₃, lt_of_le_of_ne hle fun h0 => ?_, h₃⟩
    exact absurd (hzero.1 h0).1 (by decide)
  · have hrun : (Universe.init asciiAlphabet examplePackages).toOption.bind
        (fun u => (u.newest "base").map Package.version) = some "1.10~rc1" := by
      decide
    cases hinit : Universe.init asciiAlphabet examplePackages with
    | error e => rw [hinit] at hrun; cases hrun
    | ok u =>
      have hversions : ∀ p ∈ examplePackages, Comparable p.version := by
        have : examplePackages.all fun p => decide (Comparable p.version) := by decide
        simpa using this
      obtain ⟨newest, -, hget, -, hbest⟩ := hnewest examplePackages u hinit hversions
        (examplePackage "base" "1.9-1" true [] []) List.mem_cons_self
      rw [hinit] at hrun
      have hget : u.newest "base" = some newest := hget
      simp only [Except.toOption, Option.bind_some, hget, Option.map_some, Option.some.injEq] at hrun
      exact ⟨u, newest, rfl, hget, hrun, hbest⟩

/-- A version with an epoch of `n` ones. -/
def longEpoch (n : ℕ) : String := String.ofList (List.replicate n '1' ++ [':', '1'])

theorem toList_longEpoch (n : ℕ) :
    (longEpoch n).toList = List.replicate n '1' ++ [':', '1'] := String.toList_ofList

theorem isDigit_of_ones {n : ℕ} : ∀ c ∈ List.replicate n '1', c.isDigit = true := by
  intro c hc
  rw [List.eq_of_mem_replicate hc]
  decide

theorem epochText_longEpoch (n : ℕ) : ':' ∈ (longEpoch n).toList ∧
    (longEpoch n).toList.takeWhile (· ≠ ':') = List.replicate n '1' := by
  rw [toList_longEpoch]
  refine ⟨by simp, ?_⟩
  rw [List.takeWhile_append_of_pos]
  · simp
  · intro c hc
    rw [List.eq_of_mem_replicate hc]
    decide

/-- An epoch of digits in an ASCII version. -/
theorem longEpoch_digits {n : ℕ} (hn : n ≠ 0) : (∀ c ∈ (longEpoch n).toList, c.toNat < 128) ∧
    ∀ text ∈ epochText (longEpoch n).toList, text ≠ [] ∧ ∀ c ∈ text, c.isDigit = true := by
  constructor
  · intro c hc
    rw [toList_longEpoch] at hc
    rcases List.mem_append.1 hc with hc | hc
    · exact (toNat_lt_of_isDigit (isDigit_of_ones c hc)).2.trans (by decide)
    · rcases List.mem_cons.1 hc with rfl | hc
      · decide
      · rw [List.mem_singleton.1 hc]
        decide
  · intro text htext
    obtain ⟨hcolon, htake⟩ := epochText_longEpoch n
    rw [epochText, if_pos hcolon, htake] at htext
    cases htext
    exact ⟨by simpa [List.replicate_eq_nil_iff] using hn, isDigit_of_ones⟩

theorem compareVersions_longEpoch {A : Alphabet} {n : ℕ} (hn : maxIntDigits < n) {right : String}
    {difference : ℤ} : compareVersions A (longEpoch n) right ≠ .ok difference := by
  intro hok
  obtain ⟨hcolon, htake⟩ := epochText_longEpoch n
  simp only [compareVersions, splitVersion, splitEpoch, if_pos hcolon, bind_eq_ok, htake] at hok
  obtain ⟨_, ⟨_, ⟨_, -, epoch, hepoch, -⟩, -⟩, -⟩ := hok
  have hlong : toInt (List.replicate n '1') = none := by
    rw [toInt, List.length_replicate, if_pos hn]
  rw [parseEpoch, hlong] at hepoch
  cases hepoch

/-- `compare_versions` is not total on the ASCII versions with digits as epoch: `int` converts at
    most 4300 digits. -/
theorem compareVersions_not_total : ¬ ∀ left right : String,
    (∀ version ∈ [left, right], (∀ c ∈ version.toList, c.toNat < 128) ∧
      ∀ text ∈ epochText version.toList, text ≠ [] ∧ ∀ c ∈ text, c.isDigit = true) →
    ∃ difference, compareVersions asciiAlphabet left right = .ok difference := by
  intro h
  obtain ⟨difference, hok⟩ := h (longEpoch 4301) (longEpoch 4301) <| by
    intro version hversion
    obtain rfl : version = longEpoch 4301 := by simpa using hversion
    exact longEpoch_digits (by decide)
  exact compareVersions_longEpoch (by decide) hok

end RulesMkosi.Debian
