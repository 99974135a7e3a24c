/-
  What `prove_equivalence` proves.

  The parser reads fields at offsets that the image itself names.  None of the
  fields overlaps the checksum or the security directory entry (`Agree`), so an
  image that differs from an accepted one only there, and may be longer, has
  the same layout.
-/
import RulesMkosi.SecureBoot

namespace RulesMkosi.SecureBoot

/-! ## The parser's results -/

/-- What `_pe_optional_header` checks and returns. -/
structure IsPe (data : Bytes) (h : OptionalHeader) : Prop where
  size : 64 ≤ data.length
  magic : data.take 2 = mz
  bounds : field data 0x3C 4 + 24 ≤ data.length
  signature : slice data (field data 0x3C 4) (field data 0x3C 4 + 4) = peSignature
  optional : h.optional = field data 0x3C 4 + 24
  sectionCount : h.sectionCount = field data (field data 0x3C 4 + 6) 2
  optionalSize : h.optionalSize = field data (field data 0x3C 4 + 20) 2
  count : 0 < h.sectionCount ∧ h.sectionCount ≤ 96
  inside : h.optional + h.optionalSize ≤ data.length
  fixedSize : fixedSizeOf (field data h.optional 2) = some h.fixedSize
  fits : h.fixedSize ≤ h.optionalSize

theorem fixedSizeOf_cases {m n : ℕ} (h : fixedSizeOf m = some n) : n = 112 ∨ n = 96 := by
  unfold fixedSizeOf at h
  split_ifs at h <;> simp_all

theorem peOptionalHeader_eq_ok {data : Bytes} {h : OptionalHeader} :
    peOptionalHeader data = .ok h ↔ IsPe data h := by
  unfold peOptionalHeader
  simp only [bind_eq_ok, exists_unit, raiseIf_eq_ok, unpackFrom_eq_ok, not_or, not_lt, not_not]
  constructor
  · rintro ⟨⟨h1, h2⟩, pe, ⟨-, rfl⟩, ⟨h3, h4⟩, count, ⟨-, rfl⟩, size, ⟨-, rfl⟩, h5, h6, magic,
      ⟨h7, rfl⟩, hm⟩
    cases hf : fixedSizeOf (field data (field data 0x3C 4 + 24) 2) with
    | none => simp [hf] at hm
    | some n =>
      simp only [hf, bind_eq_ok, exists_unit, raiseIf_eq_ok, not_lt, pure_eq_ok] at hm
      obtain ⟨h8, rfl⟩ := hm
      exact ⟨h1, h2, h3, h4, rfl, rfl, rfl, ⟨Nat.pos_of_ne_zero h5.1, h5.2⟩, h6, hf, h8⟩
  · intro hp
    obtain ⟨optional, optionalSize, fixedSize, sectionCount⟩ := h
    obtain ⟨h1, h2, h3, h4, rfl, rfl, rfl, h5, h6, h7, h8⟩ := hp
    have h9 := fixedSizeOf_cases h7
    simp only at h5 h6 h7 h8 h9
    refine ⟨⟨h1, h2⟩, _, ⟨by omega, rfl⟩, ⟨h3, h4⟩, _, ⟨by omega, rfl⟩, _, ⟨by omega, rfl⟩,
      ⟨by omega, h5.2⟩, h6, _, ⟨by omega, rfl⟩, ?_⟩
    simp only [h7, bind_eq_ok, exists_unit, raiseIf_eq_ok, not_lt, h8, pure_eq_ok, true_and]

theorem securityDirectory_eq_ok {data : Bytes} {h : OptionalHeader} {d : ℕ} :
    securityDirectory data h = .ok d ↔
      h.optional + h.fixedSize - 4 + 4 ≤ data.length ∧
      5 ≤ field data (h.optional + h.fixedSize - 4) 4 ∧
      h.optional + h.fixedSize + field data (h.optional + h.fixedSize - 4) 4 * 8 ≤
        h.optional + h.optionalSize ∧
      d = h.optional + h.fixedSize + 32 := by
  unfold securityDirectory
  simp only [bind_eq_ok, exists_unit, raiseIf_eq_ok, unpackFrom_eq_ok, not_lt, pure_eq_ok]
  constructor
  · rintro ⟨n, ⟨h1, rfl⟩, h2, h3, rfl⟩; exact ⟨h1, h2, h3, rfl⟩
  · rintro ⟨h1, h2, h3, rfl⟩; exact ⟨_, ⟨h1, rfl⟩, h2, h3, rfl⟩

theorem headerLayout_eq_ok {data : Bytes} {h : OptionalHeader} {t : ℕ × ℕ × ℕ} :
    headerLayout data h = .ok t ↔
      h.optional + 64 ≤ data.length ∧
      t = (h.optional + h.optionalSize, field data (h.optional + 60) 4,
        field data (h.optional + 36) 4) ∧
      0x200 ≤ t.2.2 ∧ t.2.2 &&& (t.2.2 - 1) = 0 ∧
      h.optional + h.optionalSize + h.sectionCount * 40 ≤ t.2.1 ∧ t.2.1 ≤ data.length ∧
      t.2.1 % t.2.2 = 0 := by
  unfold headerLayout
  simp only [bind_eq_ok, exists_unit, raiseIf_eq_ok, unpackFrom_eq_ok, not_or, not_lt, not_not,
    pure_eq_ok]
  constructor
  · rintro ⟨a, ⟨h1, rfl⟩, s, ⟨h2, rfl⟩, ⟨h3, h4⟩, ⟨h5, h6, h7⟩, h8, rfl⟩
    exact ⟨by omega, rfl, h3, h4, h6, h7, h8⟩
  · rintro ⟨h1, rfl, h3, h4, h6, h7, h8⟩
    exact ⟨_, ⟨by omega, rfl⟩, _, ⟨by omega, rfl⟩, ⟨h3, h4⟩, ⟨by simp only at h6 h7; omega, h6, h7⟩, h8, rfl⟩

/-- The raw data range that a section header declares. -/
def rawRange (data : Bytes) (sectionTable index : ℕ) : Option (ℕ × ℕ) :=
  if field data (sectionTable + index * 40 + 16) 4 = 0 then none
  else some (field data (sectionTable + index * 40 + 20) 4,
    field data (sectionTable + index * 40 + 16) 4)

theorem sectionRange_eq_ok {data : Bytes} {table sizeHeaders alignment index : ℕ}
    {r : Option (ℕ × ℕ)} : sectionRange data table sizeHeaders alignment index = .ok r ↔
      table + index * 40 + 24 ≤ data.length ∧ r = rawRange data table index ∧
      ∀ p ∈ r, sizeHeaders ≤ p.1 ∧ p.1 % alignment = 0 ∧ p.1 + p.2 ≤ data.length := by
  unfold sectionRange rawRange
  simp only [bind_eq_ok, exists_unit, raiseIf_eq_ok, unpackFrom_eq_ok, not_and, not_or, not_lt,
    not_not, pure_eq_ok]
  constructor
  · rintro ⟨size, ⟨h1, rfl⟩, off, ⟨h2, rfl⟩, h3, rfl⟩
    refine ⟨by omega, rfl, fun p hp => ?_⟩
    split_ifs at hp with h0
    · simp at hp
    · rw [Option.mem_some_iff] at hp
      rw [← hp]; exact h3 h0
  · rintro ⟨h1, rfl, h3⟩
    refine ⟨_, ⟨by omega, rfl⟩, _, ⟨by omega, rfl⟩, fun h0 => ?_, rfl⟩
    exact h3 _ (by rw [if_neg h0]; rfl)

theorem sectionRanges_eq_ok {data : Bytes} {table count sizeHeaders alignment : ℕ}
    {sections : List (ℕ × ℕ)} : sectionRanges data table count sizeHeaders alignment = .ok sections ↔
      (∀ i < count, table + i * 40 + 24 ≤ data.length ∧ ∀ p ∈ rawRange data table i,
        sizeHeaders ≤ p.1 ∧ p.1 % alignment = 0 ∧ p.1 + p.2 ≤ data.length) ∧
      sections = ((List.range count).filterMap (rawRange data table)).insertionSort rangeLe ∧
      Disjoint sections := by
  unfold sectionRanges
  simp only [bind_eq_ok, exists_unit, raiseIf_eq_ok, not_not, pure_eq_ok, mapM_eq_ok,
    sectionRange_eq_ok]
  constructor
  · rintro ⟨ranges, hr, hd, rfl⟩
    have hmap : ranges = (List.range count).map (rawRange data table) := by
      rw [← List.forall₂_eq_eq_eq, List.forall₂_map_right_iff]
      exact (hr.imp fun a b h => h.2.1).flip
    refine ⟨fun i hi => ?_, by rw [hmap, List.filterMap_map]; rfl, hd⟩
    have hi' : i < ranges.length := by rw [hmap]; simpa using hi
    have h := hr.get (i := i) (by simpa using hi) hi'
    simp only [List.get_eq_getElem, List.getElem_range] at h
    exact ⟨h.1, h.2.1 ▸ h.2.2⟩
  · rintro ⟨hr, rfl, hd⟩
    refine ⟨(List.range count).map (rawRange data table), ?_, ?_, ?_⟩
    · rw [List.forall₂_map_right_iff, List.forall₂_same]
      intro i hi
      obtain ⟨h1, h2⟩ := hr i (List.mem_range.1 hi)
      exact ⟨h1, rfl, h2⟩
    · rw [List.filterMap_map]; exact hd
    · rw [List.filterMap_map]; rfl

theorem certificateTable_eq_ok {data : Bytes} {security : ℕ} {signed : Bool} {c : ℕ × ℕ} :
    certificateTable data security signed = .ok c ↔
      security + 8 ≤ data.length ∧ c = (field data security 4, field data (security + 4) 4) ∧
      (signed → c.1 ≠ 0 ∧ c.1 % 8 = 0 ∧ 8 ≤ c.2 ∧ c.1 + c.2 = data.length) ∧
      (¬ signed → c = (0, 0)) := by
  unfold certificateTable
  simp only [bind_eq_ok, exists_unit, raiseIf_eq_ok, unpackFrom_eq_ok, not_and, not_or, not_lt,
    not_not, pure_eq_ok]
  constructor
  · rintro ⟨off, ⟨h1, rfl⟩, size, ⟨h2, rfl⟩, h3, h4, h5, rfl⟩
    refine ⟨by omega, rfl, fun hs => ?_, fun hs => ?_⟩
    · exact ⟨(h3 hs).1, (h3 hs).2.1, (h3 hs).2.2, h4 hs⟩
    · rw [(h5 hs).1, (h5 hs).2]
  · rintro ⟨h1, rfl, h2, h3⟩
    simp only [Prod.mk.injEq] at h3
    refine ⟨_, ⟨by omega, rfl⟩, _, ⟨by omega, rfl⟩, fun hs => ?_, fun hs => (h2 hs).2.2.2, h3, rfl⟩
    exact ⟨(h2 hs).1, (h2 hs).2.1, (h2 hs).2.2.1⟩

/-- An accepted image, taken apart. -/
theorem parsePe_eq_ok {data : Bytes} {signed : Bool} {pe : Layout} :
    parsePe data signed = .ok pe ↔ ∃ h t, IsPe data h ∧ pe.checksum = h.optional + 64 ∧
      securityDirectory data h = .ok pe.securityDirectory ∧ headerLayout data h = .ok t ∧
      pe.sizeHeaders = t.2.1 ∧ sectionRanges data t.1 h.sectionCount t.2.1 t.2.2 = .ok pe.sections ∧
      certificateTable data pe.securityDirectory signed =
        .ok (pe.certificateOffset, pe.certificateSize) := by
  unfold parsePe
  simp only [bind_eq_ok, peOptionalHeader_eq_ok, pure_eq_ok]
  constructor
  · rintro ⟨h, hh, security, hs, t, ht, sections, hsec, c, hc, rfl⟩
    exact ⟨h, t, hh, rfl, hs, ht, rfl, hsec, hc⟩
  · rintro ⟨h, t, hh, h1, hs, ht, h2, hsec, hc⟩
    refine ⟨h, hh, _, hs, t, ht, _, hsec, _, hc, ?_⟩
    rw [← h1, ← h2]

/-! ## Locality -/

/-- `s` is at least as long as `u` and equals it outside the checksum and the security directory
    entry. -/
structure Agree (u s : Bytes) (checksum security : ℕ) : Prop where
  le : u.length ≤ s.length
  eq : ∀ i < u.length, ¬ (checksum ≤ i ∧ i < checksum + 4) →
    ¬ (security ≤ i ∧ i < security + 8) → s[i]? = u[i]?

namespace Agree
variable {u s : Bytes} {checksum security : ℕ} (A : Agree u s checksum security)
include A

theorem slice {a b : ℕ} (hb : b ≤ u.length) (h₁ : b ≤ checksum ∨ checksum + 4 ≤ a)
    (h₂ : b ≤ security ∨ security + 8 ≤ a) : slice s a b = slice u a b :=
  slice_congr fun i _ _ => A.eq i (by omega) (by omega) (by omega)

theorem field (off n : ℕ) (hb : off + n ≤ u.length) (h₁ : off + n ≤ checksum ∨ checksum + 4 ≤ off)
    (h₂ : off + n ≤ security ∨ security + 8 ≤ off) : field s off n = field u off n := by
  rw [RulesMkosi.field, RulesMkosi.field, A.slice hb h₁ h₂]

end Agree

section
variable {u s : Bytes} {h : OptionalHeader} {security : ℕ}

/-- The headers before the checksum. -/
theorem IsPe.local (hp : IsPe u h) (hs : securityDirectory u h = .ok security)
    (A : Agree u s (h.optional + 64) security) : IsPe s h := by
  obtain ⟨hs1, hs2, hs3, hs4⟩ := securityDirectory_eq_ok.1 hs
  have hfix := fixedSizeOf_cases hp.fixedSize
  have hopt := hp.optional
  have hsize := hp.size
  have hbounds := hp.bounds
  have hin := hp.inside
  have hfits := hp.fits
  have hlen := A.le
  have hpe : field s 0x3C 4 = field u 0x3C 4 := A.field _ _ (by omega) (by omega) (by omega)
  refine ⟨by omega, ?_, by omega, ?_, by rw [hpe]; exact hopt, ?_, ?_, hp.count, by omega, ?_, hfits⟩
  · rw [← slice_zero, A.slice (by omega) (by omega) (by omega), slice_zero]; exact hp.magic
  · rw [hpe, A.slice (by omega) (by omega) (by omega)]; exact hp.signature
  · rw [hpe, A.field _ _ (by omega) (by omega) (by omega)]; exact hp.sectionCount
  · rw [hpe, A.field _ _ (by omega) (by omega) (by omega)]; exact hp.optionalSize
  · rw [A.field _ _ (by omega) (by omega) (by omega)]; exact hp.fixedSize

theorem securityDirectory_local (hp : IsPe u h) (hs : securityDirectory u h = .ok security)
    (A : Agree u s (h.optional + 64) security) : securityDirectory s h = .ok security := by
  obtain ⟨hs1, hs2, hs3, hs4⟩ := securityDirectory_eq_ok.1 hs
  have hfix := fixedSizeOf_cases hp.fixedSize
  have hlen := A.le
  have hc : field s (h.optional + h.fixedSize - 4) 4 = field u (h.optional + h.fixedSize - 4) 4 :=
    A.field _ _ hs1 (by omega) (by omega)
  rw [securityDirectory_eq_ok, hc]
  exact ⟨by omega, hs2, hs3, hs4⟩

theorem headerLayout_local (hp : IsPe u h) (hs : securityDirectory u h = .ok security)
    (A : Agree u s (h.optional + 64) security) {t : ℕ × ℕ × ℕ} (ht : headerLayout u h = .ok t) :
    headerLayout s h = .ok t := by
  obtain ⟨hs1, hs2, hs3, hs4⟩ := securityDirectory_eq_ok.1 hs
  obtain ⟨h1, h2, h3, h4, h5, h6, h7⟩ := headerLayout_eq_ok.1 ht
  have hfix := fixedSizeOf_cases hp.fixedSize
  have hlen := A.le
  rw [headerLayout_eq_ok, A.field (h.optional + 60) 4 (by omega) (by omega) (by omega),
    A.field (h.optional + 36) 4 (by omega) (by omega) (by omega)]
  exact ⟨by omega, h2, h3, h4, h5, by omega, h7⟩

/-- The section table lies after the security directory entry. -/
theorem sectionRanges_local (hp : IsPe u h) (hs : securityDirectory u h = .ok security)
    (A : Agree u s (h.optional + 64) security) {t : ℕ × ℕ × ℕ} (ht : headerLayout u h = .ok t)
    {sections : List (ℕ × ℕ)} (hr : sectionRanges u t.1 h.sectionCount t.2.1 t.2.2 = .ok sections) :
    sectionRanges s t.1 h.sectionCount t.2.1 t.2.2 = .ok sections := by
  obtain ⟨hs1, hs2, hs3, hs4⟩ := securityDirectory_eq_ok.1 hs
  obtain ⟨h1, h2, h3, h4, h5, h6, h7⟩ := headerLayout_eq_ok.1 ht
  obtain ⟨hr1, hr2, hr3⟩ := sectionRanges_eq_ok.1 hr
  have htable : t.1 = h.optional + h.optionalSize := by rw [h2]
  have hfix := fixedSizeOf_cases hp.fixedSize
  have hlen := A.le
  have hraw : ∀ i < h.sectionCount, rawRange s t.1 i = rawRange u t.1 i := by
    intro i hi
    have hb := (hr1 i hi).1
    rw [rawRange, rawRange, A.field (t.1 + i * 40 + 16) 4 (by omega) (by omega) (by omega),
      A.field (t.1 + i * 40 + 20) 4 (by omega) (by omega) (by omega)]
  rw [sectionRanges_eq_ok]
  refine ⟨fun i hi => ?_, ?_, hr3⟩
  · rw [hraw i hi]
    refine ⟨by have := (hr1 i hi).1; omega, fun p hp => ?_⟩
    obtain ⟨ha, hb, hc⟩ := (hr1 i hi).2 p hp
    exact ⟨ha, hb, by omega⟩
  · rw [hr2]
    congr 1
    exact List.filterMap_congr fun i hi => (hraw i (List.mem_range.1 hi)).symm

end

/-! ## The certificate table -/

/-- The bytes of a certificate table with exactly one WIN_CERTIFICATE: its length, revision 2.0,
    the type PKCS#7, the payload, and zeros up to a multiple of eight bytes. -/
def IsWinCertificate (table payload : Bytes) : Prop :=
  ∃ length, 8 + payload.length ≤ length ∧ length < 2 ^ 32 ∧
    table = leBytes 4 length ++ leBytes 2 0x200 ++ leBytes 2 2 ++ payload ++
      zeros (align8 length - (8 + payload.length))

theorem le_align8 (n : ℕ) : n ≤ align8 n := by unfold align8; omega

theorem derObject_split {body payload : Bytes} (h : derObject body = .ok payload) :
    payload.length ≤ body.length ∧ body = payload ++ zeros (body.length - payload.length) := by
  unfold derObject at h
  simp only [bind_eq_ok, exists_unit, raiseIf_eq_ok, not_not, pure_eq_ok] at h
  obtain ⟨⟨item, last⟩, -, -, hz, rfl⟩ := h
  refine ⟨by simp, ?_⟩
  have hdrop := eq_zeros_of_allZero hz
  have hlen : (body.drop last).length = body.length - (body.take last).length := by
    simp only [List.length_drop, List.length_take]; omega
  rw [hlen] at hdrop
  rw [← hdrop, List.take_append_drop]

theorem winCertificate_table {data certificate : Bytes} {cursor last next : ℕ}
    (hlast : last ≤ data.length) (h : winCertificate data cursor last = .ok (certificate, next)) :
    next ≤ last ∧ IsWinCertificate (slice data cursor next) certificate := by
  unfold winCertificate at h
  simp only [bind_eq_ok, exists_unit, raiseIf_eq_ok, unpackFrom_eq_ok, not_or, not_lt, not_not,
    pure_eq_ok, Prod.mk.injEq] at h
  obtain ⟨h1, length, ⟨h2, hl⟩, revision, ⟨h3, hrev⟩, type, ⟨h4, htype⟩, ⟨h5, h6⟩, ⟨rfl, rfl⟩,
    body, hbody, ⟨h7, hz⟩, rfl, rfl⟩ := h
  have hle := le_align8 length
  obtain ⟨hp, hsplit⟩ := derObject_split hbody
  have hblen : (slice data (cursor + 8) (cursor + length)).length = length - 8 := by
    rw [length_slice (by omega)]; omega
  have hplen : (slice data (cursor + length) (cursor + align8 length)).length =
      align8 length - length := by
    rw [length_slice (by omega)]; omega
  rw [hblen] at hp hsplit
  have hpad := eq_zeros_of_allZero hz
  rw [hplen] at hpad
  have hlt : length < 2 ^ 32 := by
    rw [hl]; exact lt_of_lt_of_eq (field_lt h2) (by norm_num)
  refine ⟨h7, length, by omega, hlt, ?_⟩
  -- the table is cut at the header fields, the payload and the padding
  have hcut : slice data cursor (cursor + align8 length) =
      slice data cursor (cursor + 4) ++ slice data (cursor + 4) (cursor + 4 + 2) ++
        slice data (cursor + 6) (cursor + 6 + 2) ++ slice data (cursor + 8) (cursor + length) ++
        slice data (cursor + length) (cursor + align8 length) := by
    rw [show cursor + 4 + 2 = cursor + 6 by omega, show cursor + 6 + 2 = cursor + 8 by omega,
      slice_append_slice data (by omega) (by omega), slice_append_slice data (by omega) (by omega),
      slice_append_slice data (by omega) (by omega), slice_append_slice data (by omega) (by omega)]
  rw [hcut, slice_eq_leBytes h2, slice_eq_leBytes h3, slice_eq_leBytes h4, ← hl, ← hrev, ← htype,
    hsplit, hpad]
  simp only [zeros, List.append_assoc, List.append_cancel_left_eq, ← List.replicate_add]
  congr 1
  omega

/-- One certificate and nothing else. -/
theorem authenticodePayload_table {data payload : Bytes} {off size : ℕ} (hsize : 8 ≤ size)
    (hend : off + size = data.length) (h : authenticodePayload data off size = .ok payload) :
    IsWinCertificate (data.drop off) payload := by
  unfold authenticodePayload at h
  simp only [bind_eq_ok, exists_unit, raiseIf_eq_ok, not_or, not_not, pure_eq_ok] at h
  obtain ⟨⟨found, cursor⟩, hfound, ⟨hcursor, hone⟩, rfl⟩ := h
  simp only at hcursor hone
  obtain ⟨fuel, rfl⟩ : ∃ fuel, size = fuel + 2 := ⟨size - 2, by omega⟩
  rw [certificates, if_pos (by omega)] at hfound
  simp only [bind_eq_ok, pure_eq_ok, Prod.mk.injEq] at hfound
  obtain ⟨⟨certificate, next⟩, hcert, ⟨rest, last⟩, hrest, rfl, rfl⟩ := hfound
  obtain ⟨hnext, htable⟩ := winCertificate_table hend.le hcert
  simp only [List.length_cons, Nat.add_eq_right, List.length_eq_zero_iff] at hone
  subst hone
  -- the second iteration does not run, so the first certificate ends the table
  rw [certificates] at hrest
  split_ifs at hrest with hlt
  · simp only [bind_eq_ok, pure_eq_ok, Prod.mk.injEq] at hrest
    obtain ⟨_, -, _, -, hcons, -⟩ := hrest
    exact absurd hcons (by simp)
  · cases hrest
    simp only at hcursor
    rw [hcursor, hend, slice_length] at htable
    exact htable

/-! ## The signed image -/

/-- What the masked comparison of `prove_equivalence` says. -/
theorem agree_of_restored {u s : Bytes} {checksum security : ℕ} (hle : u.length ≤ s.length)
    (h₁ : checksum + 4 ≤ security) (h₂ : security + 8 ≤ u.length)
    (h : splice (splice (s.take u.length) checksum (checksum + 4)
      (slice u checksum (checksum + 4))) security (security + 8)
      (slice u security (security + 8)) = u) : Agree u s checksum security := by
  have l₁ : (slice u checksum (checksum + 4)).length = 4 := by rw [length_slice (by omega)]; omega
  have l₂ : (slice u security (security + 8)).length = 8 := by rw [length_slice (by omega)]; omega
  have hover : overwrite (overwrite (s.take u.length) checksum (slice u checksum (checksum + 4)))
      security (slice u security (security + 8)) = u := by
    rw [overwrite, overwrite, l₁, l₂]; exact h
  have hlen : (s.take u.length).length = u.length := by rw [List.length_take]; omega
  refine ⟨hle, fun i hi hc hs => ?_⟩
  have hlen' : (overwrite (s.take u.length) checksum (slice u checksum (checksum + 4))).length =
      u.length := by rw [length_overwrite (by omega), hlen]
  rw [← List.getElem?_take_of_lt hi]
  conv_rhs => rw [← hover]
  rw [getElem?_overwrite (by omega), l₂, if_neg hs, getElem?_overwrite (by omega), l₁, if_neg hc]

/-- An image that agrees with `u` is `u` with the two fields overwritten. -/
theorem Agree.take_eq {u s : Bytes} {checksum security : ℕ} (A : Agree u s checksum security)
    (h₁ : checksum + 4 ≤ security) (h₂ : security + 8 ≤ u.length) :
    s.take u.length = overwrite (overwrite u checksum (RulesMkosi.slice s checksum (checksum + 4)))
      security (RulesMkosi.slice s security (security + 8)) := by
  have hle := A.le
  have l₁ : (RulesMkosi.slice s checksum (checksum + 4)).length = 4 := by
    rw [length_slice (by omega)]; omega
  have l₂ : (RulesMkosi.slice s security (security + 8)).length = 8 := by
    rw [length_slice (by omega)]; omega
  have hlen : (overwrite u checksum (RulesMkosi.slice s checksum (checksum + 4))).length =
      u.length := length_overwrite (by omega)
  refine List.ext_getElem? fun i => ?_
  rw [getElem?_overwrite (by omega), l₂]
  by_cases hi : i < u.length
  · rw [List.getElem?_take_of_lt hi]
    split_ifs with hs
    · rw [getElem?_slice, if_pos (by omega)]; congr 1; omega
    · rw [getElem?_overwrite (by omega), l₁]
      split_ifs with hc
      · rw [getElem?_slice, if_pos (by omega)]; congr 1; omega
      · exact A.eq i hi hc hs
  · rw [if_neg (by omega), List.getElem?_take_eq_none (by omega), eq_comm, List.getElem?_eq_none]
    omega

/-! ## The hashed stream -/

/-- The first range, if any, does not start before `last`. -/
def StartsAfter (last : ℕ) : List (ℕ × ℕ) → Prop
  | [] => True
  | r :: _ => last ≤ r.1

/-- Sorted disjoint sections are hashed without an error. -/
theorem sectionStream_ok (data : Bytes) (n : ℕ) : ∀ (sections : List (ℕ × ℕ)) (last : ℕ),
    StartsAfter last sections → Disjoint sections → (∀ r ∈ sections, r.1 + r.2 ≤ n) → last ≤ n →
    ∃ stream last', sectionStream data sections last = .ok (stream, last') ∧ last ≤ last' ∧ last' ≤ n
  | [], last, _, _, _, hn => ⟨[], last, rfl, le_rfl, hn⟩
  | (offset, size) :: sections, last, hs, hd, hb, hn => by
    have hstart : StartsAfter (offset + size) sections := by
      cases sections with
      | nil => trivial
      | cons r rest => exact hd.1
    have hdis : Disjoint sections := by
      cases sections with
      | nil => trivial
      | cons r rest => exact hd.2
    obtain ⟨stream, last', h, h1, h2⟩ := sectionStream_ok data n sections (offset + size) hstart hdis
      (fun r hr => hb r (List.mem_cons_of_mem _ hr)) (hb _ List.mem_cons_self)
    have hs' : last ≤ offset := hs
    refine ⟨slice data offset (offset + size) ++ stream, last', ?_, by omega, h2⟩
    simp only [sectionStream, bind_eq_ok, exists_unit, raiseIf_eq_ok, not_lt, pure_eq_ok]
    exact ⟨hs', _, h, rfl⟩

theorem sectionStream_congr {d d' : Bytes} : ∀ (sections : List (ℕ × ℕ)) (last : ℕ),
    (∀ r ∈ sections, slice d r.1 (r.1 + r.2) = slice d' r.1 (r.1 + r.2)) →
    sectionStream d sections last = sectionStream d' sections last
  | [], _, _ => rfl
  | (offset, size) :: sections, last, h => by
    have hhead := h (offset, size) List.mem_cons_self
    simp only at hhead
    rw [sectionStream, sectionStream, hhead, sectionStream_congr sections (offset + size)
      fun r hr => h r (List.mem_cons_of_mem _ hr)]

/-- The ranges of an accepted section table start after the headers and end inside the data. -/
theorem sections_bounds {data : Bytes} {table count sizeHeaders alignment : ℕ}
    {sections : List (ℕ × ℕ)}
    (h : sectionRanges data table count sizeHeaders alignment = .ok sections) :
    ∀ r ∈ sections, sizeHeaders ≤ r.1 ∧ r.1 + r.2 ≤ data.length := by
  obtain ⟨h1, h2, -⟩ := sectionRanges_eq_ok.1 h
  intro r hr
  rw [h2, (List.perm_insertionSort _ _).mem_iff, List.mem_filterMap] at hr
  obtain ⟨i, hi, hr⟩ := hr
  obtain ⟨ha, -, hb⟩ := (h1 i (List.mem_range.1 hi)).2 r hr
  exact ⟨ha, hb⟩

/-- **The hashed stream ignores the masked fields.**  Two images that agree up to the certificate
    table of the second have the same stream. -/
theorem authenticodeStream_agree {v s : Bytes} {pe signed : Layout}
    (hv : parsePe v false = .ok pe) (A : Agree v s pe.checksum pe.securityDirectory)
    (hsec : signed.sections = pe.sections) (hsize : signed.sizeHeaders = pe.sizeHeaders)
    (hcheck : signed.checksum = pe.checksum)
    (hdir : signed.securityDirectory = pe.securityDirectory)
    (hcert : signed.certificateOffset = v.length) :
    ∃ stream, authenticodeStream s signed = .ok stream ∧ authenticodeStream v pe = .ok stream := by
  obtain ⟨h, t, hp, hcs, hs, ht, hh, hr, hc⟩ := parsePe_eq_ok.1 hv
  obtain ⟨hs1, hs2, hs3, hs4⟩ := securityDirectory_eq_ok.1 hs
  obtain ⟨h1, h2, h3, h4, h5, h6, h7⟩ := headerLayout_eq_ok.1 ht
  obtain ⟨hc1, -, -, hc2⟩ := certificateTable_eq_ok.1 hc
  obtain ⟨hc3, hc4⟩ := Prod.mk.inj (hc2 (by simp))
  have hfix := fixedSizeOf_cases hp.fixedSize
  have hbounds := sections_bounds hr
  have hstart : StartsAfter pe.sizeHeaders pe.sections := by
    cases hps : pe.sections with
    | nil => trivial
    | cons r rest =>
      rw [hh]; exact (hbounds r (by rw [hps]; exact List.mem_cons_self)).1
  obtain ⟨stream, last, hstream, hl1, hl2⟩ := sectionStream_ok v v.length pe.sections pe.sizeHeaders
    hstart (sectionRanges_eq_ok.1 hr).2.2 (fun r hr' => (hbounds r hr').2) (by omega)
  have hcongr : sectionStream s pe.sections pe.sizeHeaders = .ok (stream, last) := by
    rw [← hstream]
    refine sectionStream_congr _ _ fun r hr' => ?_
    have := hbounds r hr'
    exact A.slice (by omega) (by omega) (by omega)
  have hne : v.length ≠ 0 := by have := hp.size; omega
  refine ⟨v.take pe.checksum ++ slice v (pe.checksum + 4) pe.securityDirectory ++
    slice v (pe.securityDirectory + 8) pe.sizeHeaders ++ stream ++ slice v last v.length, ?_, ?_⟩
  · simp only [authenticodeStream, hsec, hsize, hcheck, hdir, hcert, hcongr, ok_bind, bind_eq_ok,
      exists_unit, raiseIf_eq_ok, pure_eq_ok, if_neg hne, not_lt]
    refine ⟨hl2, ?_⟩
    rw [← slice_zero s, ← slice_zero v, A.slice (by omega) (by omega) (by omega),
      A.slice (by omega) (by omega) (by omega), A.slice (by omega) (by omega) (by omega),
      A.slice (by omega) (by omega) (by omega)]
  · simp only [authenticodeStream, hstream, ok_bind, bind_eq_ok, exists_unit, raiseIf_eq_ok,
      pure_eq_ok, hc3, if_true, not_lt, and_true]
    exact hl2

/-! ## Soundness -/

/-- An image that agrees with an accepted unsigned one and whose security directory entry is
    still zero is accepted with the same layout. -/
theorem parsePe_extend {u v : Bytes} {pe : Layout} (hu : parsePe u false = .ok pe)
    (A : Agree u v pe.checksum pe.securityDirectory)
    (hdir : slice v pe.securityDirectory (pe.securityDirectory + 8) =
      slice u pe.securityDirectory (pe.securityDirectory + 8)) : parsePe v false = .ok pe := by
  obtain ⟨h, t, hp, hcs, hs, ht, hh, hr, hc⟩ := parsePe_eq_ok.1 hu
  rw [hcs] at A
  obtain ⟨hc1, hc2, hc3, hc4⟩ := certificateTable_eq_ok.1 hc
  have hle := A.le
  have hbyte : ∀ i, pe.securityDirectory ≤ i → i < pe.securityDirectory + 8 → v[i]? = u[i]? := by
    intro i h1 h2
    have := congrArg (fun l : Bytes => l[i - pe.securityDirectory]?) hdir
    simp only [getElem?_slice] at this
    rw [if_pos (by omega), if_pos (by omega)] at this
    rwa [Nat.add_sub_cancel' h1] at this
  refine parsePe_eq_ok.2 ⟨h, t, hp.local hs A, hcs, securityDirectory_local hp hs A,
    headerLayout_local hp hs A ht, hh, sectionRanges_local hp hs A ht hr, ?_⟩
  refine certificateTable_eq_ok.2 ⟨by omega, ?_, by simp, hc4⟩
  rw [hc2, field_congr fun i h1 h2 => hbyte i (by omega) (by omega),
    field_congr fun i h1 h2 => hbyte i (by omega) (by omega)]

/-- **Soundness of `prove_equivalence`.**  A signed image for which it returns a payload is
    (a) the unsigned image with the checksum and the security directory entry overwritten, zeros up
    to the certificate table, and a table with one WIN_CERTIFICATE that holds the payload; (b) both
    images have the same sections, SizeOfHeaders, checksum and security directory; (c) the bytes
    hashed for the signed image are those hashed for the unsigned image extended by the zeros. -/
theorem proveEquivalence_sound {u s payload : Bytes} (h : proveEquivalence u s = .ok payload) :
    ∃ (unsigned signed : Layout) (checksum directory table stream : Bytes) (k : ℕ),
      parsePe u false = .ok unsigned ∧ parsePe s true = .ok signed ∧
      (checksum.length = 4 ∧ directory.length = 8 ∧
        s = overwrite (overwrite u unsigned.checksum checksum) unsigned.securityDirectory directory ++
          zeros k ++ table ∧
        signed.certificateOffset = u.length + k ∧ IsWinCertificate table payload) ∧
      (signed.sections = unsigned.sections ∧ signed.sizeHeaders = unsigned.sizeHeaders ∧
        signed.checksum = unsigned.checksum ∧
        signed.securityDirectory = unsigned.securityDirectory) ∧
      (parsePe (u ++ zeros k) false = .ok unsigned ∧ authenticodeStream s signed = .ok stream ∧
        authenticodeStream (u ++ zeros k) unsigned = .ok stream) := by
  unfold proveEquivalence at h
  simp only [bind_eq_ok, exists_unit, raiseIf_eq_ok, not_not, not_lt, Prod.mk.injEq] at h
  obtain ⟨unsigned, hu, signed, hs, ⟨hcheck, hdir⟩, hoff, hrestored, hz, hpay⟩ := h
  obtain ⟨h, t, hp, hcs, hsd, ht, hh, hr, hc⟩ := parsePe_eq_ok.1 hu
  obtain ⟨h', t', hp', hcs', hsd', ht', hh', hr', hc'⟩ := parsePe_eq_ok.1 hs
  obtain ⟨-, -, hsigned, -⟩ := certificateTable_eq_ok.1 hc'
  obtain ⟨-, -, hsize, hend⟩ := hsigned rfl
  simp only at hsize hend
  obtain ⟨hsd1, -, -, hsd4⟩ := securityDirectory_eq_ok.1 hsd
  obtain ⟨hc1, -, -, hc4⟩ := certificateTable_eq_ok.1 hc
  have hfix := fixedSizeOf_cases hp.fixedSize
  have A : Agree u s unsigned.checksum unsigned.securityDirectory :=
    agree_of_restored (by omega) (by omega) (by omega) hrestored
  have hzl : (slice s u.length signed.certificateOffset).length =
      signed.certificateOffset - u.length := length_slice (by omega)
  have hzeros : slice s u.length signed.certificateOffset =
      zeros (signed.certificateOffset - u.length) := by rw [eq_zeros_of_allZero hz, hzl]
  have hlen : (u ++ zeros (signed.certificateOffset - u.length)).length =
      signed.certificateOffset := by
    rw [List.length_append, zeros, List.length_replicate]; omega
  -- the unsigned image extended by the zeros agrees with the signed one up to its table
  have A' : Agree (u ++ zeros (signed.certificateOffset - u.length)) s unsigned.checksum
      unsigned.securityDirectory := by
    refine ⟨by omega, fun i hi hi1 hi2 => ?_⟩
    by_cases hiu : i < u.length
    · rw [List.getElem?_append_left hiu]; exact A.eq i hiu hi1 hi2
    · rw [List.getElem?_append_right (by omega), ← hzeros, getElem?_slice, if_pos (by omega)]
      congr 1; omega
  have hext : parsePe (u ++ zeros (signed.certificateOffset - u.length)) false = .ok unsigned := by
    refine parsePe_extend hu ⟨by simp, fun i hi _ _ => List.getElem?_append_left hi⟩ ?_
    exact slice_append_left hc1
  -- the headers of both images are read at the same offsets
  rw [hcs] at A
  have hopt : h' = h := by
    have := peOptionalHeader_eq_ok.2 hp'
    rw [peOptionalHeader_eq_ok.2 (hp.local hsd A)] at this
    exact (Except.ok.inj this).symm
  subst hopt
  have htt : t' = t := by
    have := ht'
    rw [headerLayout_local hp hsd A ht] at this
    exact (Except.ok.inj this).symm
  subst htt
  have hsections : signed.sections = unsigned.sections := by
    rw [sectionRanges_local hp hsd A ht hr] at hr'
    exact (Except.ok.inj hr').symm
  rw [← hcs] at A
  obtain ⟨stream, hstream, hstream'⟩ := authenticodeStream_agree hext A' hsections
    (by rw [hh, hh']) hcheck.symm hdir.symm hlen.symm
  refine ⟨unsigned, signed, slice s unsigned.checksum (unsigned.checksum + 4),
    slice s unsigned.securityDirectory (unsigned.securityDirectory + 8),
    s.drop signed.certificateOffset, stream, signed.certificateOffset - u.length, hu, hs,
    ⟨?_, ?_, ?_, by omega, authenticodePayload_table hsize hend hpay⟩,
    ⟨hsections, by rw [hh, hh'], hcheck.symm, hdir.symm⟩, hext, hstream, hstream'⟩
  · rw [length_slice (by omega)]; omega
  · rw [length_slice (by omega)]; omega
  · rw [← A.take_eq (by omega) (by omega), ← hzeros, ← slice_zero, slice_append_slice s (by omega) hoff,
      slice_zero, List.take_append_drop]

/-- A minimal unsigned PE32 image: one section without raw data, five data directories. -/
def exampleUki : Bytes :=
  mz ++ zeros 58 ++ leBytes 4 0x40 ++ peSignature ++ zeros 2 ++ leBytes 2 1 ++ zeros 12 ++
    leBytes 2 136 ++ zeros 2 ++ leBytes 2 0x10B ++ zeros 34 ++ leBytes 4 0x200 ++ zeros 20 ++
    leBytes 4 0x200 ++ zeros 28 ++ leBytes 4 5 ++ zeros 328

/-- The image with a checksum and a certificate table that holds an empty DER sequence. -/
def exampleSignedUki : Bytes :=
  overwrite (overwrite exampleUki 152 [1, 2, 3, 4]) 216 (leBytes 4 512 ++ leBytes 4 16) ++
    leBytes 4 10 ++ leBytes 2 0x200 ++ leBytes 2 2 ++ [0x30, 0] ++ zeros 6

/-- An unsigned image whose section has 512 bytes of raw data, with three bytes behind it. -/
def sectionUki : Bytes :=
  mz ++ zeros 58 ++ leBytes 4 0x40 ++ peSignature ++ zeros 2 ++ leBytes 2 1 ++ zeros 12 ++
    leBytes 2 136 ++ zeros 2 ++ leBytes 2 0x10B ++ zeros 34 ++ leBytes 4 0x200 ++ zeros 20 ++
    leBytes 4 0x200 ++ zeros 28 ++ leBytes 4 5 ++ zeros 56 ++ leBytes 4 0x200 ++ leBytes 4 0x200 ++
    zeros 264 ++ List.replicate 512 7 ++ [1, 2, 3]

/-- The image, padded to 1032 bytes, with a checksum and a certificate table. -/
def signedSectionUki : Bytes :=
  overwrite (overwrite sectionUki 152 [1, 2, 3, 4]) 216 (leBytes 4 1032 ++ leBytes 4 16) ++ zeros 5 ++
    leBytes 4 10 ++ leBytes 2 0x200 ++ leBytes 2 2 ++ [0x30, 0] ++ zeros 6

theorem proveEquivalence_example : proveEquivalence sectionUki signedSectionUki = .ok [0x30, 0] ∧
    ∃ unsigned signed, parsePe sectionUki false = .ok unsigned ∧
      parsePe signedSectionUki true = .ok signed ∧ signed.sections = unsigned.sections ∧
      unsigned.sections = [(512, 512)] := by
  have h : proveEquivalence sectionUki signedSectionUki = .ok [0x30, 0] := by decide +kernel
  have hunsigned : parsePe sectionUki false = .ok ⟨0, 0, 152, 216, [(512, 512)], 512⟩ := by
    decide +kernel
  obtain ⟨unsigned, signed, _, _, _, _, _, hu, hs, -, ⟨hsec, -⟩, -⟩ := proveEquivalence_sound h
  obtain rfl := Except.ok.inj (hu.symm.trans hunsigned)
  exact ⟨h, _, signed, hu, hs, hsec, rfl⟩

end RulesMkosi.SecureBoot
