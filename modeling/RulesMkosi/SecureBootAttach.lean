/-
  Attaching a signature to an image, and proving it.

  `attach` is what a signing tool does: it pads the image, writes the checksum and the
  security directory entry, and appends a certificate table.  No branch of the two parsers
  and of the comparison rejects its result, and `prove_equivalence` returns the signature.
-/
import RulesMkosi.SecureBootEquivalence

namespace RulesMkosi.SecureBoot

/-! ## The signed file -/

/-- A certificate table with one WIN_CERTIFICATE: its length, revision 2.0, the type PKCS#7, the
    payload, and zeros up to a multiple of eight bytes. -/
def winCertificateTable (payload : Bytes) : Bytes :=
  leBytes 4 (8 + payload.length) ++ leBytes 2 0x200 ++ leBytes 2 2 ++ payload ++
    zeros (align8 (8 + payload.length) - (8 + payload.length))

/-- The image with zeros up to a multiple of eight bytes. -/
def padded (image : Bytes) : Bytes := image ++ zeros (align8 image.length - image.length)

/-- The image of the layout, signed with the payload. -/
def attach (image : Bytes) (pe : Layout) (checksum payload : Bytes) : Bytes :=
  overwrite (overwrite (padded image) pe.checksum checksum) pe.securityDirectory
    (leBytes 4 (padded image).length ++ leBytes 4 (align8 (8 + payload.length))) ++
    winCertificateTable payload

@[simp] theorem length_winCertificateTable (payload : Bytes) :
    (winCertificateTable payload).length = align8 (8 + payload.length) := by
  have := le_align8 (8 + payload.length)
  simp only [winCertificateTable, List.length_append, length_leBytes, length_zeros]
  omega

@[simp] theorem length_padded (image : Bytes) : (padded image).length = align8 image.length := by
  have := le_align8 image.length
  simp only [padded, List.length_append, length_zeros]
  omega

theorem align8_mod (n : ℕ) : align8 n % 8 = 0 := by
  unfold align8
  omega

/-! ## The payload -/

/-- A DER sequence that ends its payload is the object of the payload. -/
theorem derObject_of_derRead {payload : Bytes} {item : Der}
    (h : derRead payload 0 0 = .ok (item, payload.length)) (htag : item.tag = 0x30) :
    derObject payload = .ok payload := by
  simp [derObject, h, htag, raiseIf, AllZero]

theorem winCertificate_append {data payload : Bytes} (hlt : 8 + payload.length < 2 ^ 32)
    (hder : derObject payload = .ok payload) :
    winCertificate (data ++ winCertificateTable payload) data.length
      (data.length + align8 (8 + payload.length)) =
        .ok (payload, data.length + align8 (8 + payload.length)) := by
  have hle := le_align8 (8 + payload.length)
  have hsize : (data ++ winCertificateTable payload).length =
      data.length + align8 (8 + payload.length) := by
    rw [List.length_append, length_winCertificateTable]
  set length := 8 + payload.length with hlength
  set padding := zeros (align8 length - length) with hpadding
  -- the header fields, the payload and the padding stand one behind the other
  have htable : data ++ winCertificateTable payload =
      data ++ (leBytes 4 length ++ (leBytes 2 0x200 ++ (leBytes 2 2 ++ (payload ++ (padding ++ []))))) := by
    simp only [winCertificateTable, List.append_assoc, List.append_nil, hlength, hpadding]
  have hfirst : field (data ++ winCertificateTable payload) data.length 4 = length := by
    rw [htable, field_middle rfl hlt]
  have hrevision : field (data ++ winCertificateTable payload) (data.length + 4) 2 = 0x200 := by
    rw [htable, ← List.append_assoc data, field_middle (by simp [length_leBytes]) (by decide)]
  have htype : field (data ++ winCertificateTable payload) (data.length + 6) 2 = 2 := by
    rw [htable, ← List.append_assoc data, ← List.append_assoc (data ++ _),
      field_middle (by simp [length_leBytes]) (by decide)]
  have hbody : slice (data ++ winCertificateTable payload) (data.length + 8) (data.length + length) =
      payload := by
    rw [htable, ← List.append_assoc data, ← List.append_assoc (data ++ _),
      ← List.append_assoc (data ++ _ ++ _), slice_middle (by simp [length_leBytes]) (by omega)]
  have hpad : slice (data ++ winCertificateTable payload) (data.length + length)
      (data.length + align8 length) = padding := by
    rw [htable, ← List.append_assoc data, ← List.append_assoc (data ++ _),
      ← List.append_assoc (data ++ _ ++ _), ← List.append_assoc (data ++ _ ++ _ ++ _)]
    refine slice_middle ?_ (by rw [hpadding, length_zeros]; omega)
    simp only [List.length_append, length_leBytes]
    omega
  unfold winCertificate
  simp only [bind_eq_ok, exists_unit, raiseIf_eq_ok, unpackFrom_eq_ok, hsize, not_or, not_lt, not_not,
    pure_eq_ok]
  refine ⟨by omega, length, ⟨by omega, hfirst.symm⟩, 0x200, ⟨by omega, hrevision.symm⟩, 2,
    ⟨by omega, htype.symm⟩, ⟨by omega, by omega⟩, ⟨rfl, rfl⟩, payload, ?_, ⟨by omega, ?_⟩, rfl⟩
  · rw [hbody]
    exact hder
  · rw [hpad]
    exact allZero_zeros _

theorem authenticodePayload_append {data payload : Bytes} (hlt : 8 + payload.length < 2 ^ 32)
    (hder : derObject payload = .ok payload) :
    authenticodePayload (data ++ winCertificateTable payload) data.length
      (align8 (8 + payload.length)) = .ok payload := by
  have hle := le_align8 (8 + payload.length)
  obtain ⟨fuel, hfuel⟩ : ∃ fuel, align8 (8 + payload.length) = fuel + 2 :=
    ⟨align8 (8 + payload.length) - 2, by omega⟩
  have hfirst := @winCertificate_append data payload hlt hder
  have hfound : certificates (data ++ winCertificateTable payload)
      (data.length + align8 (8 + payload.length)) (align8 (8 + payload.length)) data.length =
        .ok ([payload], data.length + align8 (8 + payload.length)) := by
    rw [hfuel, certificates, if_pos (by omega), ← hfuel, hfirst, ok_bind]
    dsimp only
    rw [certificates, if_neg (by omega), ok_bind]
    rfl
  simp [authenticodePayload, hfound, ok_bind, raiseIf]

/-! ## The round trip -/

section
variable {image checksum payload : Bytes} {pe : Layout}

/-- Where an accepted image has its two masked fields. -/
theorem parsePe_masked {signed : Bool} (h : parsePe image signed = .ok pe) :
    pe.checksum + 4 ≤ pe.securityDirectory ∧ pe.securityDirectory + 8 ≤ image.length := by
  obtain ⟨header, t, hp, hcs, hs, -, -, -, hc⟩ := parsePe_eq_ok.1 h
  obtain ⟨-, -, -, hs4⟩ := securityDirectory_eq_ok.1 hs
  obtain ⟨hc1, -⟩ := certificateTable_eq_ok.1 hc
  have hfix := fixedSizeOf_cases hp.fixedSize
  omega

/-- The image with its checksum and its directory entry written. -/
def marked (image : Bytes) (pe : Layout) (checksum payload : Bytes) : Bytes :=
  overwrite (overwrite (padded image) pe.checksum checksum) pe.securityDirectory
    (leBytes 4 (align8 image.length) ++ leBytes 4 (align8 (8 + payload.length)))

theorem attach_eq (image : Bytes) (pe : Layout) (checksum payload : Bytes) :
    attach image pe checksum payload = marked image pe checksum payload ++ winCertificateTable payload := by
  rw [attach, length_padded, marked]

variable (hpe : parsePe image false = .ok pe) (hchecksum : checksum.length = 4)
include hpe hchecksum

theorem length_marked : (marked image pe checksum payload).length = align8 image.length := by
  obtain ⟨hmasked, hinside⟩ := parsePe_masked hpe
  have hle := le_align8 image.length
  have hfirst : (overwrite (padded image) pe.checksum checksum).length = align8 image.length := by
    rw [length_overwrite (by rw [length_padded, hchecksum]; omega), length_padded]
  rw [marked, length_overwrite, hfirst]
  rw [hfirst, List.length_append, length_leBytes, length_leBytes]
  omega

theorem length_attach : (attach image pe checksum payload).length =
    align8 image.length + align8 (8 + payload.length) := by
  rw [attach_eq, List.length_append, length_marked hpe hchecksum, length_winCertificateTable]

/-- Only the two fields change. -/
theorem getElem?_marked {i : ℕ} (hcheck : ¬ (pe.checksum ≤ i ∧ i < pe.checksum + 4))
    (hdirectory : ¬ (pe.securityDirectory ≤ i ∧ i < pe.securityDirectory + 8)) :
    (marked image pe checksum payload)[i]? = (padded image)[i]? := by
  obtain ⟨hmasked, hinside⟩ := parsePe_masked hpe
  have hle := le_align8 image.length
  have hfirst : (overwrite (padded image) pe.checksum checksum).length = align8 image.length := by
    rw [length_overwrite (by rw [length_padded, hchecksum]; omega), length_padded]
  have hentry : (leBytes 4 (align8 image.length) ++
      leBytes 4 (align8 (8 + payload.length))).length = 8 := by simp [length_leBytes]
  rw [marked, getElem?_overwrite (by rw [hfirst, hentry]; omega), hentry, if_neg hdirectory,
    getElem?_overwrite (by rw [length_padded, hchecksum]; omega), hchecksum, if_neg hcheck]

theorem attach_agree : Agree image (attach image pe checksum payload) pe.checksum
    pe.securityDirectory := by
  have hle := le_align8 image.length
  refine ⟨by rw [length_attach hpe hchecksum]; omega, fun i hi hcheck hdirectory => ?_⟩
  rw [attach_eq, List.getElem?_append_left (by rw [length_marked hpe hchecksum]; omega),
    getElem?_marked hpe hchecksum hcheck hdirectory, padded, List.getElem?_append_left hi]

/-- The signed file between the image and its table. -/
theorem attach_padding : slice (attach image pe checksum payload) image.length (align8 image.length) =
    zeros (align8 image.length - image.length) := by
  obtain ⟨hmasked, hinside⟩ := parsePe_masked hpe
  have hle := le_align8 image.length
  have hpadding : slice (padded image) image.length (align8 image.length) =
      zeros (align8 image.length - image.length) := by
    have hmiddle := @slice_middle image (zeros (align8 image.length - image.length)) [] _
      (align8 image.length) rfl (by rw [length_zeros]; omega)
    rwa [List.append_nil] at hmiddle
  rw [← hpadding, attach_eq, slice_append_left (length_marked hpe hchecksum).ge]
  exact slice_congr fun i hi _ => getElem?_marked hpe hchecksum (by omega) (by omega)

theorem attach_directory (hsize : (attach image pe checksum payload).length < 2 ^ 32) :
    field (attach image pe checksum payload) pe.securityDirectory 4 = align8 image.length ∧
      field (attach image pe checksum payload) (pe.securityDirectory + 4) 4 =
        align8 (8 + payload.length) := by
  obtain ⟨hmasked, hinside⟩ := parsePe_masked hpe
  have hle := le_align8 image.length
  rw [length_attach hpe hchecksum] at hsize
  set front := (overwrite (padded image) pe.checksum checksum).take pe.securityDirectory with hfront
  have hlength : front.length = pe.securityDirectory := by
    rw [hfront, List.length_take, length_overwrite (by rw [length_padded, hchecksum]; omega),
      length_padded]
    omega
  rw [attach_eq, marked, overwrite, splice, ← hfront]
  simp only [List.append_assoc]
  constructor
  · exact field_middle hlength (by norm_num; omega)
  · rw [← List.append_assoc front]
    exact field_middle (by rw [List.length_append, hlength, length_leBytes]) (by norm_num; omega)

/-- The signed file has the layout of the image. -/
theorem parsePe_attach (hsize : (attach image pe checksum payload).length < 2 ^ 32) :
    parsePe (attach image pe checksum payload) true =
      .ok { pe with
        certificateOffset := align8 image.length
        certificateSize := align8 (8 + payload.length) } := by
  obtain ⟨header, t, hp, hcs, hs, ht, hh, hr, hc⟩ := parsePe_eq_ok.1 hpe
  obtain ⟨hmasked, hinside⟩ := parsePe_masked hpe
  obtain ⟨hoffset, htable⟩ := attach_directory hpe hchecksum hsize
  have hA := @attach_agree image checksum payload pe hpe hchecksum
  have hlength := @length_attach image checksum payload pe hpe hchecksum
  have hle := le_align8 image.length
  have hle' := le_align8 (8 + payload.length)
  rw [hcs] at hA
  refine parsePe_eq_ok.2 ⟨header, t, hp.local hs hA, hcs, securityDirectory_local hp hs hA,
    headerLayout_local hp hs hA ht, hh, sectionRanges_local hp hs hA ht hr, ?_⟩
  refine certificateTable_eq_ok.2 ⟨?_, by rw [hoffset, htable], fun _ => ?_, by simp⟩
  · rw [hlength]
    exact hinside.trans (by omega)
  have := hp.size
  exact ⟨by simp only; omega, align8_mod _, by simp only; omega, hlength.symm⟩

/-- Restoring the two fields gives the image back. -/
theorem attach_restored :
    splice (splice ((attach image pe checksum payload).take image.length) pe.checksum (pe.checksum + 4)
      (slice image pe.checksum (pe.checksum + 4))) pe.securityDirectory (pe.securityDirectory + 8)
      (slice image pe.securityDirectory (pe.securityDirectory + 8)) = image := by
  obtain ⟨hmasked, hinside⟩ := parsePe_masked hpe
  have hA := @attach_agree image checksum payload pe hpe hchecksum
  have hle := hA.le
  set front := (attach image pe checksum payload).take image.length with hfront
  have hlength : front.length = image.length := by
    rw [hfront, List.length_take]
    omega
  have hback : Agree front image pe.checksum pe.securityDirectory := by
    refine ⟨hlength.le, fun i hi hcheck hdirectory => ?_⟩
    rw [hlength] at hi
    rw [hfront, List.getElem?_take_of_lt hi]
    exact (hA.eq i hi hcheck hdirectory).symm
  have htake := hback.take_eq hmasked (by omega)
  rw [hlength, List.take_length] at htake
  have hcheck : (slice image pe.checksum (pe.checksum + 4)).length = 4 := by
    rw [length_slice (by omega)]
    omega
  have hdirectory : (slice image pe.securityDirectory (pe.securityDirectory + 8)).length = 8 := by
    rw [length_slice (by omega)]
    omega
  rw [overwrite, overwrite, hcheck, hdirectory] at htake
  exact htake.symm

end

/-- **Attaching a signature and proving it.**  For every accepted unsigned image, every DER sequence
    that is read to its end and every checksum, `prove_equivalence` accepts the signed file and
    returns the sequence. -/
theorem proveEquivalence_attach (image checksum payload : Bytes) (pe : Layout) (item : Der)
    (hpe : parsePe image false = .ok pe) (hchecksum : checksum.length = 4)
    (hder : derRead payload 0 0 = .ok (item, payload.length)) (htag : item.tag = 0x30)
    (hsize : (attach image pe checksum payload).length < 2 ^ 32) :
    proveEquivalence image (attach image pe checksum payload) = .ok payload := by
  have hlength := @length_attach image checksum payload pe hpe hchecksum
  have hle := le_align8 image.length
  have hle' := le_align8 (8 + payload.length)
  have hpayload : authenticodePayload (attach image pe checksum payload) (align8 image.length)
      (align8 (8 + payload.length)) = .ok payload := by
    have := @authenticodePayload_append (marked image pe checksum payload) payload (by omega)
      (derObject_of_derRead hder htag)
    rwa [length_marked hpe hchecksum, ← attach_eq] at this
  unfold proveEquivalence
  simp only [hpe, parsePe_attach hpe hchecksum hsize, ok_bind, bind_eq_ok, exists_unit, raiseIf_eq_ok,
    not_not, not_lt]
  refine ⟨trivial, hle, attach_restored hpe hchecksum, ?_, hpayload⟩
  rw [attach_padding hpe hchecksum]
  exact allZero_zeros _

/-- An empty DER sequence on the image with a section, which is padded for it. -/
theorem proveEquivalence_attach_example :
    proveEquivalence sectionUki
      (attach sectionUki ⟨0, 0, 152, 216, [(512, 512)], 512⟩ [1, 2, 3, 4] [0x30, 0]) =
        .ok [0x30, 0] :=
  proveEquivalence_attach sectionUki [1, 2, 3, 4] [0x30, 0] ⟨0, 0, 152, 216, [(512, 512)], 512⟩
    ⟨0x30, [], 0⟩ (by decide +kernel) rfl (by decide) rfl (by decide +kernel)

end RulesMkosi.SecureBoot
