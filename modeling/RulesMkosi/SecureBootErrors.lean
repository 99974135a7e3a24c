/-
  The errors of `parse_pe`.

  `parse_pe` unpacks fields at offsets that the image names; each is in bounds by the checks
  before it, but for the magic of the optional header, which is read after a check that the
  header as declared, possibly empty, fits.
-/
import RulesMkosi.SecureBootEquivalence

namespace RulesMkosi.SecureBoot

def IsValueError (e : Exn) : Prop := ∃ message, e = .valueError message

theorem isValueError (message : String) : IsValueError (.valueError message) := ⟨message, rfl⟩

/-- The headers pass every check up to the optional header, whose magic is cut off by the end of
    the data. -/
structure MagicMissing (data : Bytes) : Prop where
  size : 64 ≤ data.length
  magic : data.take 2 = mz
  bounds : field data 0x3C 4 + 24 ≤ data.length
  signature : slice data (field data 0x3C 4) (field data 0x3C 4 + 4) = peSignature
  count : 0 < field data (field data 0x3C 4 + 6) 2 ∧ field data (field data 0x3C 4 + 6) 2 ≤ 96
  fits : field data 0x3C 4 + 24 + field data (field data 0x3C 4 + 20) 2 ≤ data.length
  cut : data.length < field data 0x3C 4 + 26

/-- The ranges of a layout are inside the data. -/
structure Layout.Inside (pe : Layout) (data : Bytes) : Prop where
  checksum : pe.checksum + 4 ≤ data.length
  security : pe.securityDirectory + 8 ≤ data.length
  headers : pe.sizeHeaders ≤ data.length
  sections : ∀ range ∈ pe.sections, range.1 + range.2 ≤ data.length
  certificate : pe.certificateOffset + pe.certificateSize ≤ data.length

section Yields
variable {data : Bytes}

theorem unpackFrom_yields {n off : ℕ} (h : off + n ≤ data.length) :
    Yields IsValueError (unpackFrom n data off) fun v => v = field data off n := by
  rw [unpackFrom_eq_ok.2 ⟨h, rfl⟩]
  rfl

theorem raiseIf_yields {c : Prop} [Decidable c] (message : String) :
    Yields IsValueError (raiseIf c (.valueError message)) fun _ => ¬ c :=
  yields_raiseIf fun _ => isValueError message

/-- The optional header is found, or a check fails, unless its magic is missing. -/
theorem peOptionalHeader_yields (hdata : ¬ MagicMissing data) :
    Yields IsValueError (peOptionalHeader data) (IsPe data) := by
  unfold peOptionalHeader
  refine yields_bind (raiseIf_yields _) fun _ hmz => ?_
  rw [not_or, not_lt, not_not] at hmz
  refine yields_bind (unpackFrom_yields (by omega)) fun pe hpe => ?_
  refine yields_bind (raiseIf_yields _) fun _ hbounds => ?_
  rw [not_or, not_lt, not_not] at hbounds
  refine yields_bind (unpackFrom_yields (by omega)) fun count hcount => ?_
  refine yields_bind (unpackFrom_yields (by omega)) fun size hsize => ?_
  refine yields_bind (raiseIf_yields _) fun _ hsections => ?_
  refine yields_bind (raiseIf_yields _) fun _ hfits => ?_
  rw [not_lt] at hfits
  subst hpe hcount hsize
  have hmagic : field data 0x3C 4 + 24 + 2 ≤ data.length := by
    by_contra hcut
    exact hdata ⟨hmz.1, hmz.2, hbounds.1, hbounds.2, by omega, hfits, by omega⟩
  refine yields_bind (unpackFrom_yields hmagic) fun magic hm => ?_
  subst hm
  split
  · exact isValueError _
  · next fixedSize hfixed =>
    refine yields_bind (raiseIf_yields _) fun _ hsize => ?_
    exact ⟨hmz.1, hmz.2, hbounds.1, hbounds.2, rfl, rfl, rfl, by simp only; omega, hfits, hfixed,
      not_lt.1 hsize⟩

variable {h : OptionalHeader}

theorem securityDirectory_yields (hp : IsPe data h) :
    Yields IsValueError (securityDirectory data h) fun security => security + 8 ≤ data.length := by
  have hfixed := fixedSizeOf_cases hp.fixedSize
  have hfits := hp.fits
  have hinside := hp.inside
  unfold securityDirectory
  refine yields_bind (unpackFrom_yields (by omega)) fun count _ => ?_
  refine yields_bind (raiseIf_yields _) fun _ hcount => ?_
  refine yields_bind (raiseIf_yields _) fun _ hdirectories => ?_
  show h.optional + h.fixedSize + 32 + 8 ≤ data.length
  omega

theorem headerLayout_yields (hp : IsPe data h) :
    Yields IsValueError (headerLayout data h) fun t =>
      t.1 + h.sectionCount * 40 ≤ data.length ∧ t.2.1 ≤ data.length := by
  have hfixed := fixedSizeOf_cases hp.fixedSize
  have hfits := hp.fits
  have hinside := hp.inside
  unfold headerLayout
  refine yields_bind (unpackFrom_yields (by omega)) fun alignment _ => ?_
  refine yields_bind (unpackFrom_yields (by omega)) fun size _ => ?_
  refine yields_bind (raiseIf_yields _) fun _ _ => ?_
  refine yields_bind (raiseIf_yields _) fun _ htable => ?_
  refine yields_bind (raiseIf_yields _) fun _ _ => ?_
  rw [not_or, not_or] at htable
  exact ⟨not_lt.1 htable.1, not_lt.1 htable.2.2⟩

theorem sectionRanges_yields {table count sizeHeaders alignment : ℕ}
    (htable : table + count * 40 ≤ data.length) :
    Yields IsValueError (sectionRanges data table count sizeHeaders alignment) fun sections =>
      ∀ range ∈ sections, range.1 + range.2 ≤ data.length := by
  have hraise : Yields IsValueError (sectionRanges data table count sizeHeaders alignment)
      fun _ => True := by
    have hsection : ∀ index ∈ List.range count, Yields IsValueError
        (sectionRange data table sizeHeaders alignment index) fun _ => True := by
      intro index hindex
      rw [List.mem_range] at hindex
      unfold sectionRange
      refine yields_bind (unpackFrom_yields (by omega)) fun size _ => ?_
      refine yields_bind (unpackFrom_yields (by omega)) fun offset _ => ?_
      exact yields_bind (raiseIf_yields _) fun _ _ => trivial
    unfold sectionRanges
    refine yields_bind (yields_mapM hsection) fun ranges _ => ?_
    exact yields_bind (raiseIf_yields _) fun _ _ => trivial
  exact yields_mono (yields_eq hraise) fun sections h range hr => (sections_bounds h.1 range hr).2

theorem certificateTable_yields {security : ℕ} {signed : Bool} (hsecurity : security + 8 ≤ data.length) :
    Yields IsValueError (certificateTable data security signed) fun c =>
      c.1 + c.2 ≤ data.length := by
  have hraise : Yields IsValueError (certificateTable data security signed) fun _ => True := by
    unfold certificateTable
    refine yields_bind (unpackFrom_yields (by omega)) fun offset _ => ?_
    refine yields_bind (unpackFrom_yields (by omega)) fun size _ => ?_
    refine yields_bind (raiseIf_yields _) fun _ _ => ?_
    refine yields_bind (raiseIf_yields _) fun _ _ => ?_
    exact yields_bind (raiseIf_yields _) fun _ _ => trivial
  refine yields_mono (yields_eq hraise) fun c h => ?_
  obtain ⟨-, -, hsigned, hunsigned⟩ := certificateTable_eq_ok.1 h.1
  by_cases hs : signed = true
  · exact (hsigned hs).2.2.2.le
  · rw [hunsigned hs]
    exact Nat.zero_le _

/-- **Every check in its order.**  Unless the magic is missing, `parse_pe` returns a layout inside
    the data or raises `ValueError`. -/
theorem parsePe_yields (hdata : ¬ MagicMissing data) (signed : Bool) :
    Yields IsValueError (parsePe data signed) (Layout.Inside · data) := by
  unfold parsePe
  refine yields_bind (peOptionalHeader_yields hdata) fun h hp => ?_
  refine yields_bind (securityDirectory_yields hp) fun security hsecurity => ?_
  refine yields_bind (headerLayout_yields hp) fun t ht => ?_
  refine yields_bind (sectionRanges_yields ht.1) fun sections hsections => ?_
  refine yields_bind (certificateTable_yields hsecurity) fun c hc => ?_
  have hfixed := fixedSizeOf_cases hp.fixedSize
  have hfits := hp.fits
  have hinside := hp.inside
  exact ⟨by simp only; omega, hsecurity, ht.2, hsections, hc⟩

/-- The magic is unpacked past the end of the data. -/
theorem parsePe_of_magicMissing (hdata : MagicMissing data) (signed : Bool) :
    parsePe data signed = .error (.structError "unpack_from requires a larger buffer") := by
  obtain ⟨hsize, hmagic, hbounds, hsignature, hcount, hfits, hcut⟩ := hdata
  have hheader : peOptionalHeader data =
      .error (.structError "unpack_from requires a larger buffer") := by
    unfold peOptionalHeader
    have hmz : ¬ (data.length < 64 ∨ data.take 2 ≠ mz) :=
      not_or.2 ⟨not_lt.2 hsize, not_not.2 hmagic⟩
    have hpe : ¬ (data.length < field data 0x3C 4 + 24 ∨
        slice data (field data 0x3C 4) (field data 0x3C 4 + 4) ≠ peSignature) :=
      not_or.2 ⟨not_lt.2 hbounds, not_not.2 hsignature⟩
    rw [raiseIf_of_not hmz, ok_bind, unpackFrom_eq_ok.2 ⟨by omega, rfl⟩, ok_bind,
      raiseIf_of_not hpe, ok_bind]
    dsimp only
    rw [unpackFrom_eq_ok.2 ⟨by omega, rfl⟩, ok_bind, unpackFrom_eq_ok.2 ⟨by omega, rfl⟩, ok_bind,
      raiseIf_of_not (by omega), ok_bind, raiseIf_of_not (by omega), ok_bind, unpackFrom,
      if_neg (by omega), error_bind]
  rw [parsePe, hheader, error_bind]

end Yields

/-! ## The callers -/

section Callers
variable (D : Digests)

theorem verifyEmbeddedDigest_eq_error {unsignedData signedData : Bytes} {e : Exn}
    (h : parsePe unsignedData false = .error e ∨
      (∃ pe, parsePe unsignedData false = .ok pe) ∧ parsePe signedData true = .error e) :
    verifyEmbeddedDigest D unsignedData signedData = .error e := by
  have hprove : proveEquivalence unsignedData signedData = .error e := by
    unfold proveEquivalence
    rcases h with h | ⟨⟨pe, hpe⟩, h⟩
    · rw [h, error_bind]
    · rw [hpe, ok_bind, h, error_bind]
  rw [verifyEmbeddedDigest, hprove, error_bind]

/-- The exception contract of `parse_pe` on `data`, and what its callers make of it. -/
structure PeContract (data : Bytes) (signed : Bool) : Prop where
  /-- a layout inside the data, or `ValueError` -/
  yields : Yields IsValueError (parsePe data signed) (Layout.Inside · data)
  /-- a malformed candidate: the next one is tried -/
  select : ∀ D unsignedData candidate rest errors e,
    (∃ pe, parsePe unsignedData false = .ok pe) → parsePe data true = .error e →
    ∃ message, selectLoop D unsignedData ((candidate, data) :: rest) errors =
      selectLoop D unsignedData rest (errors ++ [message])
  /-- a malformed requested binary: every candidate is tried -/
  request : ∀ D candidate signedData rest errors e, parsePe data false = .error e →
    ∃ message, selectLoop D data ((candidate, signedData) :: rest) errors =
      selectLoop D data rest (errors ++ [message])
  /-- a command that parses the data first -/
  report : ∀ e (command : Layout → Except Exn Unit), parsePe data signed = .error e →
    ∃ message, reportErrors (parsePe data signed >>= command) =
      .exit ("SECURE_BOOT_INVALID: " ++ message)

/-- **The errors of `parse_pe`.**  For all data: `parse_pe` returns a layout inside the data or
    raises `ValueError`, a malformed candidate is passed over and a malformed input is reported,
    if and only if the data does not end before the magic of its optional header. -/
theorem parsePe_contract_iff (data : Bytes) (signed : Bool) :
    PeContract data signed ↔ ¬ MagicMissing data := by
  constructor
  · intro hcontract hdata
    have hyields := hcontract.yields
    rw [parsePe_of_magicMissing hdata] at hyields
    obtain ⟨message, h⟩ := hyields
    cases h
  · intro hdata
    refine ⟨parsePe_yields hdata signed, ?_, ?_, ?_⟩
    · intro D unsignedData candidate rest errors e hunsigned he
      have hyields := parsePe_yields hdata true
      rw [he] at hyields
      obtain ⟨message, rfl⟩ := hyields
      refine ⟨message, ?_⟩
      rw [selectLoop, verifyEmbeddedDigest_eq_error D (.inr ⟨hunsigned, he⟩)]
    · intro D candidate signedData rest errors e he
      have hyields := parsePe_yields hdata false
      rw [he] at hyields
      obtain ⟨message, rfl⟩ := hyields
      refine ⟨message, ?_⟩
      rw [selectLoop, verifyEmbeddedDigest_eq_error D (.inl he)]
    · intro e command he
      have hyields := parsePe_yields hdata signed
      rw [he] at hyields
      obtain ⟨message, rfl⟩ := hyields
      exact ⟨message, by rw [he, error_bind]; rfl⟩

/-- A DOS header and a COFF header for one section and no optional header. -/
def cutImage : Bytes :=
  mz ++ zeros 58 ++ [64, 0, 0, 0] ++ peSignature ++ [0, 0, 1, 0] ++ zeros 16

theorem magicMissing_cutImage : MagicMissing cutImage :=
  ⟨by decide, by decide, by decide, by decide, by decide, by decide, by decide⟩

/-- An image on which `parse_pe` raises `struct.error`, which its callers do not catch. -/
theorem parsePe_struct_error :
    parsePe cutImage true = .error (.structError "unpack_from requires a larger buffer") ∧
      parsePe cutImage false = .error (.structError "unpack_from requires a larger buffer") ∧
      reportErrors (parsePe cutImage false >>= fun _ => .ok ()) =
        .raised (.structError "unpack_from requires a larger buffer") := by
  refine ⟨parsePe_of_magicMissing magicMissing_cutImage true,
    parsePe_of_magicMissing magicMissing_cutImage false, ?_⟩
  rw [parsePe_of_magicMissing magicMissing_cutImage false, error_bind]
  rfl

end Callers

end RulesMkosi.SecureBoot
