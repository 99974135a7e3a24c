/-
  Object identifiers in AuthentiCode signatures (`mkosi/private/secure_boot.py`).

  `der_oid` reads the content of an object identifier as base-128 numbers, splits the
  first one into two arcs, and returns the dotted text that the checks of a signature
  compare.  The text determines the content (`derOid_injective`).
-/
import RulesMkosi.Lib.Base128
import RulesMkosi.Lib.Text
import RulesMkosi.SecureBootDer

namespace RulesMkosi.SecureBoot

/-! ## The identifiers of a signature -/

def oidSignedData : String := "1.2.840.113549.1.7.2"

def oidSha256 : String := "2.16.840.1.101.3.4.2.1"

def oidRsa : List String := ["1.2.840.113549.1.1.1", "1.2.840.113549.1.1.11"]

/-- The identifiers that a signature may have. -/
def allowedOids : List String := oidSignedData :: oidSpcIndirectData :: oidSha256 :: oidRsa

def algorithmOid (item : Der) : Except Exn String := do
  match ← item.children with
  | [] => .error (.valueError "invalid AlgorithmIdentifier")
  | identifier :: _ => do
    raiseIf (item.tag ≠ 0x30) (.valueError "invalid AlgorithmIdentifier")
    derOid identifier

/-- `algorithm_oid(item) in oids` -/
def checkAlgorithm (item : Der) (oids : List String) (message : String) : Except Exn Unit := do
  let oid ← algorithmOid item
  raiseIf (oid ∉ oids) (.valueError message)

/-- The items of a PKCS#7 `SignedData`. -/
def signedDataItems (payload : Bytes) : Except Exn (List Der) := do
  let (outer, stop) ← derRead payload 0 0
  match ← outer.children with
  | [contentType, wrapper] => do
    raiseIf (outer.tag ≠ 0x30 ∨ stop ≠ payload.length)
      (.valueError "invalid Authenticode ContentInfo")
    let oid ← derOid contentType
    raiseIf (oid ≠ oidSignedData ∨ wrapper.tag ≠ 0xA0)
      (.valueError "AuthentiCode is not PKCS7 SignedData")
    match ← wrapper.children with
    | [signed] => do
      raiseIf (signed.tag ≠ 0x30) (.valueError "invalid SignedData wrapper")
      signed.children
    | _ => .error (.valueError "invalid SignedData wrapper")
  | _ => .error (.valueError "invalid Authenticode ContentInfo")

/-- The SignedData fields of a DER PKCS#7 ContentInfo. -/
def parseSignedData (payload : Bytes) : Except Exn (List Der) := do
  let signed ← signedDataItems payload
  match signed with
  | _ :: digestAlgorithms :: _ => do
    raiseIf (signed.length < 4 ∨ digestAlgorithms.tag ≠ 0x31)
      (.valueError "invalid SignedData fields")
    match ← digestAlgorithms.children with
    | [algorithm] =>
      checkAlgorithm algorithm [oidSha256] "SignedData must declare exactly SHA-256"
      return signed
    | _ => .error (.valueError "SignedData must declare exactly SHA-256")
  | _ => .error (.valueError "invalid SignedData fields")

/-- The image digest in the SpcIndirectDataContent. -/
def imageDigest (contentInfo : Der) : Except Exn Der := do
  match ← contentInfo.children with
  | [contentType, wrapper] => do
    let oid ← derOid contentType
    raiseIf (oid ≠ oidSpcIndirectData ∨ wrapper.tag ≠ 0xA0)
      (.valueError "missing Authenticode SpcIndirectDataContent")
    match ← wrapper.children with
    | [indirect] => do
      raiseIf (indirect.tag ≠ 0x30) (.valueError "invalid SpcIndirectDataContent")
      match ← indirect.children with
      | [_, digestInfo] => do
        match ← digestInfo.children with
        | [algorithm, digest] =>
          checkAlgorithm algorithm [oidSha256] "invalid Authenticode image digest"
          raiseIf (digest.tag ≠ 0x04) (.valueError "invalid Authenticode image digest")
          return digest
        | _ => .error (.valueError "invalid Authenticode image digest")
      | _ => .error (.valueError "invalid SpcIndirectDataContent fields")
    | _ => .error (.valueError "invalid SpcIndirectDataContent")
  | _ => .error (.valueError "missing Authenticode SpcIndirectDataContent")

/-- The algorithm and the signature of a SignerInfo. -/
def checkSignature (algorithm signature : Der) : Except Exn Unit := do
  checkAlgorithm algorithm oidRsa "unsupported SignerInfo signature algorithm"
  raiseIf (signature.tag ≠ 0x04) (.valueError "missing SignerInfo signature")

def checkSignerInfo (signerInfos : Der) : Except Exn Unit := do
  match ← signerInfos.children with
  | [signerInfo] => do
    raiseIf (signerInfos.tag ≠ 0x31)
      (.valueError "AuthentiCode must have exactly one SignerInfo")
    match ← signerInfo.children with
    | _ :: _ :: digestAlgorithm :: fourth :: fifth :: rest => do
      checkAlgorithm digestAlgorithm [oidSha256] "SignerInfo digest algorithm is not SHA-256"
      -- signed attributes stand in front of the signature algorithm
      if fourth.tag ≠ 0xA0 then checkSignature fourth fifth
      else
        match rest with
        | [] => .error (.valueError "unsupported SignerInfo signature algorithm")
        | signature :: _ => checkSignature fifth signature
    | _ => .error (.valueError "invalid SignerInfo")
  | _ => .error (.valueError "AuthentiCode must have exactly one SignerInfo")

def authenticodeFacts (payload : Bytes) : Except Exn Bytes := do
  let signed ← parseSignedData payload
  match signed.drop 2, signed.getLast? with
  | contentInfo :: _, some signerInfos =>
    let digest ← imageDigest contentInfo
    checkSignerInfo signerInfos
    return digest.value
  | _, _ => .error (.indexError "list index out of range")

/-! ## Subidentifiers -/

/-- What is read of the content determines it: the subidentifiers, and the digits of the one that
    is being read. -/
theorem subidentifiersFrom_eq_ok : ∀ {bytes : Bytes} {subidentifiers result : List ℕ} {value : ℕ}
    {groupStart : Bool}, (groupStart = true → value = 0) → (groupStart = false → 0 < value) →
    subidentifiersFrom bytes subidentifiers value groupStart = .ok result →
      ∃ more, result = subidentifiers ++ more ∧
        (if groupStart then [] else continued value) ++ bytes = more.flatMap base128
  | [], subidentifiers, result, value, groupStart, _, _, h => by
    rw [subidentifiersFrom] at h
    cases groupStart with
    | false => cases h
    | true =>
      cases h
      exact ⟨[], by simp, rfl⟩
  | byte :: rest, subidentifiers, result, value, groupStart, hstart, hinside, h => by
    rw [subidentifiersFrom] at h
    simp only [bind_eq_ok, raiseIf_eq_ok, exists_unit, or_digit, last_digit_iff] at h
    obtain ⟨hminimal, -, h⟩ := h
    split_ifs at h with hlast
    · -- the last digit of a subidentifier
      simp only [bind_eq_ok, raiseIf_eq_ok, exists_unit] at h
      obtain ⟨more, rfl, hmore⟩ := subidentifiersFrom_eq_ok (fun _ => rfl) (by simp) h.2
      refine ⟨(value * 128 + byte.toNat % 128) :: more, by simp, ?_⟩
      rw [List.flatMap_cons, ← hmore, Nat.mod_eq_of_lt hlast]
      cases groupStart with
      | true =>
        rw [hstart rfl, Nat.zero_mul, Nat.zero_add, base128_single hlast]
        rfl
      | false =>
        rw [base128_concat (hinside rfl) hlast]
        simp
    · -- a digit with more behind it, which is not zero where it is the first one
      have hpos : 0 < value * 128 + byte.toNat % 128 := by
        cases groupStart with
        | true =>
          have hne : byte.toNat ≠ 128 := fun heq => hminimal ⟨rfl, UInt8.toNat_inj.1 heq⟩
          have hlt := byte.toNat_lt
          omega
        | false =>
          have hvalue := hinside rfl
          omega
      obtain ⟨more, rfl, hmore⟩ := subidentifiersFrom_eq_ok (by simp) (fun _ => hpos) h
      refine ⟨more, rfl, ?_⟩
      rw [← hmore, if_neg Bool.false_ne_true]
      cases groupStart with
      | true =>
        rw [hstart rfl, Nat.zero_mul, Nat.zero_add, continued_first hlast]
        rfl
      | false =>
        rw [continued_concat (hinside rfl) hlast]
        simp

/-! ## Arcs -/

theorem arcs_injective {first first' : ℕ} {rest rest' : List ℕ}
    (h : arcs first rest = arcs first' rest') : first = first' ∧ rest = rest' := by
  unfold arcs at h
  split_ifs at h
  all_goals
    simp only [List.cons.injEq] at h
    obtain ⟨harc, hfirst, hrest⟩ := h
    exact ⟨by omega, hrest⟩

theorem arcs_ne_nil (first : ℕ) (rest : List ℕ) : arcs first rest ≠ [] := by
  unfold arcs
  split_ifs <;> simp

/-- The dotted text of some arcs. -/
theorem dotted_injective {a b : List ℕ} (ha : a ≠ []) (hb : b ≠ [])
    (h : ".".intercalate (a.map Nat.repr) = ".".intercalate (b.map Nat.repr)) : a = b := by
  have htext := congrArg String.toList h
  rw [String.toList_intercalate, String.toList_intercalate, List.map_map, List.map_map] at htext
  have hsplit : ∀ {arcs : List ℕ}, arcs ≠ [] →
      (['.'].intercalate (arcs.map (String.toList ∘ Nat.repr))).splitOn '.' =
        arcs.map (String.toList ∘ Nat.repr) := by
    intro arcs harcs
    refine List.splitOn_intercalate '.' (fun text htext hdot => ?_) (by simpa using harcs)
    obtain ⟨n, -, rfl⟩ := List.mem_map.1 htext
    rw [Function.comp_apply, Nat.toList_repr] at hdot
    have hdigit := Nat.isDigit_of_mem_toDigits (by decide) (by decide) hdot
    cases hdigit
  have hmap : a.map (String.toList ∘ Nat.repr) = b.map (String.toList ∘ Nat.repr) := by
    rw [← hsplit ha, ← hsplit hb]
    exact congrArg _ htext
  refine List.map_injective_iff.2 (fun m n hmn => ?_) hmap
  rw [Function.comp_apply, Function.comp_apply, Nat.toList_repr, Nat.toList_repr] at hmn
  rw [← Nat.ofDigitChars_ten_toDigits (n := m), hmn, Nat.ofDigitChars_ten_toDigits]

/-! ## Identifiers -/

/-- An accepted identifier has the content that its arcs have. -/
theorem derOid_eq_ok {item : Der} {oid : String} (h : derOid item = .ok oid) :
    item.tag = 0x06 ∧ ∃ first rest, item.value = (first :: rest).flatMap base128 ∧
      oid = ".".intercalate ((arcs first rest).map Nat.repr) := by
  unfold derOid at h
  simp only [bind_eq_ok, raiseIf_eq_ok, exists_unit, not_or, not_not, pure_eq_ok] at h
  obtain ⟨⟨htag, hvalue, -⟩, subidentifiers, hread, rfl⟩ := h
  obtain ⟨_, rfl, hmore⟩ := subidentifiersFrom_eq_ok (fun _ => rfl) (by simp) hread
  rw [if_pos rfl, List.nil_append] at hmore
  cases subidentifiers with
  | nil => exact absurd hmore hvalue
  | cons first rest => exact ⟨htag, first, rest, hmore, rfl⟩

/-- Equal texts have equal contents. -/
theorem value_eq_of_derOid {a b : Der} {oid : String} (ha : derOid a = .ok oid)
    (hb : derOid b = .ok oid) : a.value = b.value := by
  obtain ⟨-, first, rest, hvalue, rfl⟩ := derOid_eq_ok ha
  obtain ⟨-, first', rest', hvalue', htext⟩ := derOid_eq_ok hb
  have harcs := dotted_injective (arcs_ne_nil _ _) (arcs_ne_nil _ _) htext
  obtain ⟨rfl, rfl⟩ := arcs_injective harcs
  rw [hvalue, hvalue']

def encodedSignedData : Bytes := [0x2a, 0x86, 0x48, 0x86, 0xf7, 0x0d, 0x01, 0x07, 0x02]

def encodedSpcIndirectData : Bytes := [0x2b, 0x06, 0x01, 0x04, 0x01, 0x82, 0x37, 0x02, 0x01, 0x04]

def encodedSha256 : Bytes := [0x60, 0x86, 0x48, 0x01, 0x65, 0x03, 0x04, 0x02, 0x01]

def encodedRsa : List Bytes :=
  [[0x2a, 0x86, 0x48, 0x86, 0xf7, 0x0d, 0x01, 0x01, 0x01],
    [0x2a, 0x86, 0x48, 0x86, 0xf7, 0x0d, 0x01, 0x01, 0x0b]]

/-- The encodings of the identifiers that a signature may have. -/
def allowedEncodings : List Bytes :=
  encodedSignedData :: encodedSpcIndirectData :: encodedSha256 :: encodedRsa

/-- The encoding of an identifier. -/
def Encodes (encoding : Bytes) (oid : String) : Prop := derOid ⟨0x06, encoding, 0⟩ = .ok oid

/-- An identifier that is compared with a text has one encoding. -/
theorem derOid_iff {encoding : Bytes} {oid : String} (h : Encodes encoding oid) (item : Der) :
    derOid item = .ok oid ↔ item.tag = 0x06 ∧ item.value = encoding := by
  constructor
  · intro hitem
    exact ⟨(derOid_eq_ok hitem).1, value_eq_of_derOid hitem h⟩
  · rintro ⟨htag, hvalue⟩
    rw [derOid, htag, hvalue]
    exact h

theorem encodes_signedData : Encodes encodedSignedData oidSignedData := by
  unfold Encodes
  decide

theorem encodes_spcIndirectData : Encodes encodedSpcIndirectData oidSpcIndirectData := by
  unfold Encodes
  decide

theorem encodes_sha256 : Encodes encodedSha256 oidSha256 := by
  unfold Encodes
  decide

theorem encodes_rsa : List.Forall₂ Encodes encodedRsa oidRsa := by
  unfold encodedRsa oidRsa Encodes
  exact .cons (by decide) (.cons (by decide) .nil)

theorem encodes_allowed : List.Forall₂ Encodes allowedEncodings allowedOids :=
  .cons encodes_signedData (.cons encodes_spcIndirectData (.cons encodes_sha256 encodes_rsa))

/-- **The dotted text of an identifier determines its content,** so a comparison with an allowed
    identifier accepts one encoding. -/
theorem derOid_injective :
    (∀ a b : Der, ∀ oid, derOid a = .ok oid → derOid b = .ok oid → a.value = b.value) ∧
    ∀ oid ∈ allowedOids, ∃ encoding ∈ allowedEncodings, ∀ item : Der,
      derOid item = .ok oid ↔ item.tag = 0x06 ∧ item.value = encoding := by
  refine ⟨fun a b oid => value_eq_of_derOid, fun oid hoid => ?_⟩
  obtain ⟨encoding, hencoding, hread⟩ := forall₂_mem_right encodes_allowed hoid
  exact ⟨encoding, hencoding, derOid_iff hread⟩

/-! ## The encodings in a signature -/

/-- An algorithm whose identifier has one of the encodings. -/
def HasAlgorithm (item : Der) (encodings : List Bytes) : Prop :=
  ∃ identifier rest, item.children = .ok (identifier :: rest) ∧ identifier.tag = 0x06 ∧
    identifier.value ∈ encodings

theorem hasAlgorithm_of_check {item : Der} {encodings : List Bytes} {oids : List String}
    {message : String}
    (hoids : List.Forall₂ Encodes encodings oids)
    (h : checkAlgorithm item oids message = .ok ()) : HasAlgorithm item encodings := by
  unfold checkAlgorithm algorithmOid at h
  simp only [bind_eq_ok, raiseIf_eq_ok, not_not] at h
  obtain ⟨oid, ⟨children, hchildren, hread⟩, hoid⟩ := h
  cases children with
  | nil => cases hread
  | cons identifier rest =>
    simp only [bind_eq_ok, raiseIf_eq_ok, exists_unit] at hread
    obtain ⟨encoding, hencoding, hknown⟩ := forall₂_mem_right hoids hoid
    obtain ⟨htag, hvalue⟩ := (derOid_iff hknown identifier).1 hread.2
    exact ⟨identifier, rest, hchildren, htag, hvalue ▸ hencoding⟩

theorem signedDataItems_encoding {payload : Bytes} {signed : List Der}
    (h : signedDataItems payload = .ok signed) :
    ∃ outer contentType wrapper, derRead payload 0 0 = .ok (outer, payload.length) ∧
      outer.children = .ok [contentType, wrapper] ∧ contentType.value = encodedSignedData := by
  unfold signedDataItems at h
  simp only [bind_eq_ok, Prod.exists] at h
  obtain ⟨outer, stop, houter, children, hchildren, h⟩ := h
  split at h
  · next contentType wrapper =>
    simp only [bind_eq_ok, raiseIf_eq_ok, exists_unit, not_or, not_not] at h
    obtain ⟨⟨-, hstop⟩, oid, hoid, ⟨hsigned, -⟩, -⟩ := h
    rw [hsigned] at hoid
    rw [hstop] at houter
    exact ⟨outer, contentType, wrapper, houter, hchildren,
      value_eq_of_derOid hoid encodes_signedData⟩
  · cases h

/-- The digest algorithm that a signature declares. -/
theorem parseSignedData_encodings {payload : Bytes} {signed : List Der}
    (h : parseSignedData payload = .ok signed) :
    signedDataItems payload = .ok signed ∧ 4 ≤ signed.length ∧
      ∃ digestAlgorithms ∈ signed, ∃ algorithm, digestAlgorithms.children = .ok [algorithm] ∧
        HasAlgorithm algorithm [encodedSha256] := by
  unfold parseSignedData at h
  obtain ⟨items, hitems, h⟩ := bind_eq_ok.1 h
  split at h
  · next first digestAlgorithms rest =>
    simp only [bind_eq_ok, raiseIf_eq_ok, exists_unit, not_or, not_not, Nat.not_lt] at h
    obtain ⟨⟨hlength, -⟩, children, hchildren, h⟩ := h
    split at h
    · next algorithm =>
      simp only [bind_eq_ok, exists_unit, pure_eq_ok] at h
      obtain ⟨hcheck, rfl⟩ := h
      exact ⟨hitems, hlength, digestAlgorithms, by simp, algorithm, hchildren,
        hasAlgorithm_of_check (.cons encodes_sha256 .nil) hcheck⟩
    · cases h
  · cases h

/-- The type and the digest algorithm of the signed content. -/
theorem imageDigest_encodings {contentInfo digest : Der} (h : imageDigest contentInfo = .ok digest) :
    ∃ contentType wrapper, contentInfo.children = .ok [contentType, wrapper] ∧
      contentType.value = encodedSpcIndirectData ∧
      ∃ indirect data digestInfo algorithm, wrapper.children = .ok [indirect] ∧
        indirect.children = .ok [data, digestInfo] ∧
        digestInfo.children = .ok [algorithm, digest] ∧ HasAlgorithm algorithm [encodedSha256] := by
  unfold imageDigest at h
  obtain ⟨children, hcontent, h⟩ := bind_eq_ok.1 h
  split at h
  · next contentType wrapper =>
    simp only [bind_eq_ok, raiseIf_eq_ok, exists_unit, not_or, not_not] at h
    obtain ⟨oid, hoid, ⟨hspc, -⟩, children, hwrapper, h⟩ := h
    split at h
    · next indirect =>
      simp only [bind_eq_ok, raiseIf_eq_ok, exists_unit] at h
      obtain ⟨-, children, hindirect, h⟩ := h
      split at h
      · next data digestInfo =>
        obtain ⟨children, hinfo, h⟩ := bind_eq_ok.1 h
        split at h
        · next algorithm digest' =>
          simp only [bind_eq_ok, exists_unit, raiseIf_eq_ok, pure_eq_ok] at h
          obtain ⟨hcheck, -, rfl⟩ := h
          rw [hspc] at hoid
          exact ⟨contentType, wrapper, hcontent, value_eq_of_derOid hoid encodes_spcIndirectData,
            indirect, data, digestInfo, algorithm, hwrapper, hindirect, hinfo,
            hasAlgorithm_of_check (.cons encodes_sha256 .nil) hcheck⟩
        · cases h
      · cases h
    · cases h
  · cases h

/-- The algorithms of the signer. -/
theorem checkSignerInfo_encodings {signerInfos : Der} (h : checkSignerInfo signerInfos = .ok ()) :
    ∃ signerInfo signer, signerInfos.children = .ok [signerInfo] ∧
      signerInfo.children = .ok signer ∧
      (∃ algorithm ∈ signer, HasAlgorithm algorithm [encodedSha256]) ∧
      ∃ algorithm ∈ signer, HasAlgorithm algorithm encodedRsa := by
  have hsignature : ∀ {algorithm signature : Der}, checkSignature algorithm signature = .ok () →
      HasAlgorithm algorithm encodedRsa := by
    intro algorithm signature h
    simp only [checkSignature, bind_eq_ok, exists_unit] at h
    exact hasAlgorithm_of_check encodes_rsa h.1
  unfold checkSignerInfo at h
  obtain ⟨children, hchildren, h⟩ := bind_eq_ok.1 h
  split at h
  · next signerInfo =>
    simp only [bind_eq_ok, raiseIf_eq_ok, exists_unit] at h
    obtain ⟨-, signer, hsigner, h⟩ := h
    split at h
    · next first second digestAlgorithm fourth fifth rest =>
      simp only [bind_eq_ok, exists_unit] at h
      obtain ⟨hdigest, h⟩ := h
      refine ⟨signerInfo, _, hchildren, hsigner, ⟨digestAlgorithm, by simp,
        hasAlgorithm_of_check (.cons encodes_sha256 .nil) hdigest⟩, ?_⟩
      split_ifs at h
      · exact ⟨fourth, by simp, hsignature h⟩
      · split at h
        · cases h
        · exact ⟨fifth, by simp, hsignature h⟩
    · cases h
  · cases h

/-- **A signature whose facts are read has the allowed encodings:** its content is SignedData of SPC
    indirect data, its digests are SHA-256, and its signer signs with RSA. -/
theorem authenticodeFacts_encodings {payload digest : Bytes}
    (h : authenticodeFacts payload = .ok digest) :
    ∃ signed contentInfo signerInfos imageItem, parseSignedData payload = .ok signed ∧
      contentInfo ∈ signed ∧ signerInfos ∈ signed ∧
      imageDigest contentInfo = .ok imageItem ∧ imageItem.value = digest ∧
      (∃ outer contentType wrapper, derRead payload 0 0 = .ok (outer, payload.length) ∧
        outer.children = .ok [contentType, wrapper] ∧ contentType.value = encodedSignedData) ∧
      (∃ contentType wrapper, contentInfo.children = .ok [contentType, wrapper] ∧
        contentType.value = encodedSpcIndirectData) ∧
      ∃ signerInfo signer, signerInfos.children = .ok [signerInfo] ∧
        signerInfo.children = .ok signer ∧ ∃ algorithm ∈ signer, HasAlgorithm algorithm encodedRsa := by
  unfold authenticodeFacts at h
  obtain ⟨signed, hsigned, h⟩ := bind_eq_ok.1 h
  split at h
  · next contentInfo rest signerInfos hdrop hlast =>
    simp only [bind_eq_ok, exists_unit, pure_eq_ok] at h
    obtain ⟨imageItem, himage, hsigner, hdigest⟩ := h
    have hcontent : contentInfo ∈ signed :=
      (List.drop_sublist 2 signed).mem (hdrop ▸ List.mem_cons_self)
    obtain ⟨contentType, wrapper, hchildren, hvalue, -⟩ := imageDigest_encodings himage
    obtain ⟨signerInfo, signer, hinfo, hitems, -, hrsa⟩ := checkSignerInfo_encodings hsigner
    exact ⟨signed, contentInfo, signerInfos, imageItem, hsigned, hcontent,
      List.mem_of_getLast? hlast, himage, hdigest,
      signedDataItems_encoding (parseSignedData_encodings hsigned).1,
      ⟨contentType, wrapper, hchildren, hvalue⟩, signerInfo, signer, hinfo, hitems, hrsa⟩
  · cases h

end RulesMkosi.SecureBoot
