/-
  DER objects (`mkosi/private/secure_boot.py`, `mkosi/private/secure_boot_signer.py`).

  `_signed_attributes_digest` encodes the attributes again that `der_read` has decoded, and
  hashes the result.  The reader accepts one encoding of every object, the one that
  `_encode_der` writes, so what is hashed is what was read.
-/
import RulesMkosi.Lib.Dict
import RulesMkosi.SecureBoot

namespace RulesMkosi.SecureBoot

/-! ## Writing, children and object identifiers -/

/-- `(length.bit_length() + 7) // 8` -/
def byteLength (length : ℕ) : ℕ := (bitLength length + 7) / 8

def encodeDer (tag : UInt8) (value : Bytes) : Bytes :=
  if value.length < 0x80 then [tag, UInt8.ofNat value.length] ++ value
  else [tag, UInt8.ofNat (0x80 ||| byteLength value.length)] ++
    beBytes (byteLength value.length) value.length ++ value

def maxDerChildren : ℕ := 4096

/-- The loop of `Der.children` from an offset, with room for so many children. -/
def childrenFrom (value : Bytes) (depth : ℕ) : (room cursor : ℕ) → Except Exn (List Der)
  | 0, cursor =>
    if cursor < value.length then .error (.valueError "DER child count exceeds limit") else .ok []
  | room + 1, cursor =>
    if cursor < value.length then do
      let (item, cursor) ← derRead value cursor (depth + 1)
      let rest ← childrenFrom value depth room cursor
      return item :: rest
    else .ok []

def Der.children (item : Der) : Except Exn (List Der) := do
  raiseIf (maxDerDepth ≤ item.depth) (.valueError "DER nesting exceeds limit")
  childrenFrom item.value item.depth maxDerChildren 0

/-- The loop of `der_oid` over the bytes of an object identifier. -/
def subidentifiersFrom : Bytes → (subidentifiers : List ℕ) → (value : ℕ) → (groupStart : Bool) →
    Except Exn (List ℕ)
  | [], subidentifiers, _, groupStart =>
    if groupStart then .ok subidentifiers
    else .error (.valueError "truncated DER object identifier")
  | byte :: rest, subidentifiers, value, groupStart => do
    raiseIf (groupStart ∧ byte = 0x80) (.valueError "nonminimal DER OID subidentifier")
    raiseIf (2 ^ 63 < value) (.valueError "DER OID subidentifier is too large")
    let value := (value <<< 7) ||| (byte.toNat &&& 0x7F)
    if byte.toNat &&& 0x80 = 0 then
      raiseIf (64 < subidentifiers.length + 1) (.valueError "DER OID has too many arcs")
      subidentifiersFrom rest (subidentifiers ++ [value]) 0 true
    else subidentifiersFrom rest subidentifiers value false

/-- The arcs of an object identifier. -/
def arcs (first : ℕ) (rest : List ℕ) : List ℕ :=
  if first < 40 then 0 :: first :: rest
  else if first < 80 then 1 :: (first - 40) :: rest
  else 2 :: (first - 80) :: rest

def derOid (item : Der) : Except Exn String := do
  raiseIf (item.tag ≠ 0x06 ∨ item.value = [] ∨ 256 < item.value.length)
    (.valueError "expected DER object identifier")
  let subidentifiers ← subidentifiersFrom item.value [] 0 true
  return ".".intercalate ((arcs (subidentifiers.headD 0) subidentifiers.tail).map Nat.repr)

/-! ## Signed attributes -/

def oidContentType : String := "1.2.840.113549.1.9.3"

def oidMessageDigest : String := "1.2.840.113549.1.9.4"

def oidSpcIndirectData : String := "1.3.6.1.4.1.311.2.1.4"

/-- `values.setdefault(der_oid(oid), []).append(attribute_values.children())` -/
def addAttribute (values : Dict String (List (List Der))) (signed : Der) :
    Except Exn (Dict String (List (List Der))) := do
  match ← signed.children with
  | [oid, attributeValues] =>
    let name ← derOid oid
    let found ← attributeValues.children
    return Dict.set values name ((Dict.get values name).getD [] ++ [found])
  | _ :: _ :: _ => .error (.valueError "too many values to unpack (expected 2)")
  | children =>
    .error (.valueError ("not enough values to unpack (expected 2, got " ++
      Nat.repr children.length ++ ")"))

def checkMessageDigest (values : Dict String (List (List Der))) (contentDigest : Bytes) :
    Except Exn Unit :=
  match (Dict.get values oidMessageDigest).getD [] with
  | [[digest]] => raiseIf (digest.value ≠ contentDigest)
      (.valueError "the signed messageDigest does not match the Authenticode content")
  | _ => .error (.valueError "the signed messageDigest does not match the Authenticode content")

def checkContentType (values : Dict String (List (List Der))) : Except Exn Unit :=
  match (Dict.get values oidContentType).getD [] with
  | [contentType :: _] => do
    let oid ← derOid contentType
    raiseIf (oid ≠ oidSpcIndirectData)
      (.valueError "the signed contentType is not SpcIndirectDataContent")
  | [[]] => .error (.indexError "list index out of range")
  | _ => .error (.valueError "the signed contentType is not SpcIndirectDataContent")

/-- The digest that the signature covers, after checking the signed contentType and messageDigest. -/
def signedAttributesDigest (sha256 : Bytes → Bytes) (attributes : Der) (contentDigest : Bytes) :
    Except Exn Bytes := do
  let children ← attributes.children
  let values ← children.foldlM addAttribute []
  checkMessageDigest values contentDigest
  checkContentType values
  return sha256 (encodeDer 0x31 attributes.value)

/-! ## Lengths -/

theorem lt_byteLength (n : ℕ) : n < 256 ^ byteLength n := by
  have hbits : n < 2 ^ bitLength n := by
    unfold bitLength
    split_ifs with h
    · simp [h]
    · exact Nat.lt_log2_self
  calc n < 2 ^ bitLength n := hbits
    _ ≤ 2 ^ (8 * byteLength n) := Nat.pow_le_pow_right (by norm_num) (by unfold byteLength; omega)
    _ = 256 ^ byteLength n := by rw [pow_mul]; norm_num

/-- The first byte of a minimal length is not zero. -/
theorem le_of_byteLength {n size : ℕ} (hn : n ≠ 0) (h : byteLength n = size + 1) : 256 ^ size ≤ n := by
  have hbits : 8 * size ≤ n.log2 := by
    unfold byteLength bitLength at h
    rw [if_neg hn] at h
    omega
  calc 256 ^ size = 2 ^ (8 * size) := by rw [pow_mul]; norm_num
    _ ≤ 2 ^ n.log2 := Nat.pow_le_pow_right (by norm_num) hbits
    _ ≤ n := Nat.log2_self_le hn

theorem byteLength_le {n size : ℕ} (h : n < 256 ^ size) : byteLength n ≤ size := by
  by_contra hlt
  obtain ⟨extra, hextra⟩ : ∃ extra, byteLength n = extra + 1 := ⟨byteLength n - 1, by omega⟩
  have hn : n ≠ 0 := by
    rintro rfl
    simp [byteLength, bitLength] at hextra
  have := le_of_byteLength hn hextra
  have hmono : (256 : ℕ) ^ size ≤ 256 ^ extra := Nat.pow_le_pow_right (by norm_num) (by omega)
  omega

theorem firstByte_ne_zero {n size : ℕ} (hn : n ≠ 0) (h : byteLength n = size + 1) :
    UInt8.ofNat (n / 256 ^ size) ≠ 0 := by
  have hle := le_of_byteLength hn h
  have hlt := lt_byteLength n
  rw [h, pow_succ] at hlt
  have hpow : 0 < 256 ^ size := Nat.pow_pos (by norm_num)
  have hpos : 0 < n / 256 ^ size := Nat.div_pos hle hpow
  have hsmall : n / 256 ^ size < 256 := by
    rw [Nat.div_lt_iff_lt_mul hpow]
    rwa [Nat.mul_comm] at hlt
  intro hzero
  have hnat := congrArg UInt8.toNat hzero
  rw [UInt8.toNat_ofNat', Nat.mod_eq_of_lt hsmall] at hnat
  exact hpos.ne' hnat

/-! ## Headers -/

/-- The tag and the length of an object. -/
def derHeader (tag : UInt8) (length : ℕ) : Bytes :=
  if length < 0x80 then [tag, UInt8.ofNat length]
  else [tag, UInt8.ofNat (0x80 ||| byteLength length)] ++ beBytes (byteLength length) length

theorem encodeDer_eq (tag : UInt8) (value : Bytes) :
    encodeDer tag value = derHeader tag value.length ++ value := by
  unfold encodeDer derHeader
  split_ifs <;> simp

/-- The first byte of a length has the short form or the size of the long form. -/
theorem lengthByte (b : UInt8) :
    (b.toNat &&& 0x80 = 0 → b.toNat < 0x80) ∧
      (b.toNat &&& 0x80 ≠ 0 → UInt8.ofNat (0x80 ||| (b.toNat &&& 0x7F)) = b) := by
  revert b
  refine forall_byte ?_
  decide +kernel

theorem lengthByte_short {n : ℕ} (h : n < 0x80) :
    (UInt8.ofNat n).toNat = n ∧ (UInt8.ofNat n).toNat &&& 0x80 = 0 := by
  revert h
  revert n
  decide

theorem lengthByte_long {size : ℕ} (h : size ≤ 4) :
    (UInt8.ofNat (0x80 ||| size)).toNat &&& 0x80 ≠ 0 ∧
      (UInt8.ofNat (0x80 ||| size)).toNat &&& 0x7F = size := by
  have h : size < 5 := by omega
  revert h
  revert size
  decide

/-- Reading a length that was written. -/
theorem derLength_header {data rest : Bytes} {tag : UInt8} {offset n : ℕ} (hn : n < 2 ^ 32)
    (hdata : data.drop offset = derHeader tag n ++ rest) :
    derLength data offset = .ok (n, offset + (derHeader tag n).length) := by
  have hbyte : ∀ i, data[offset + i]? = (derHeader tag n ++ rest)[i]? := by
    intro i
    rw [← hdata, List.getElem?_drop]
  unfold derHeader at hdata hbyte ⊢
  by_cases hshort : n < 0x80
  · rw [if_pos hshort] at hbyte ⊢
    obtain ⟨hvalue, hform⟩ := lengthByte_short hshort
    have hlength : data.getD (offset + 1) 0 = UInt8.ofNat n := by
      rw [List.getD_eq_getElem?_getD, hbyte 1]
      rfl
    have hform : n &&& 0x80 = 0 := by rwa [hvalue] at hform
    simp only [derLength, hlength, hvalue, if_pos hform]
    rfl
  · rw [if_neg hshort] at hdata hbyte ⊢
    obtain ⟨size, hsize⟩ : ∃ size, byteLength n = size + 1 := by
      refine ⟨byteLength n - 1, ?_⟩
      have hpos : byteLength n ≠ 0 := by
        intro hzero
        have := lt_byteLength n
        rw [hzero] at this
        omega
      omega
    have hfour : byteLength n ≤ 4 := byteLength_le (hn.trans_le (by norm_num))
    obtain ⟨hform, hcount⟩ := lengthByte_long hfour
    have hlength : data.getD (offset + 1) 0 = UInt8.ofNat (0x80 ||| byteLength n) := by
      rw [List.getD_eq_getElem?_getD, hbyte 1]
      rfl
    have hdigits : slice data (offset + 2) (offset + 2 + byteLength n) = beBytes (byteLength n) n := by
      rw [slice, ← List.drop_drop, hdata]
      simp [List.take_left', length_beBytes]
    have hfirst : data.getD (offset + 2) 0 = UInt8.ofNat (n / 256 ^ size) := by
      rw [List.getD_eq_getElem?_getD, hbyte 2, hsize, beBytes_succ]
      rfl
    have hnonzero := firstByte_ne_zero (by omega) hsize
    have hinside : offset + 2 + byteLength n ≤ data.length := by
      have hlen := congrArg List.length hdata
      simp only [List.length_drop, List.length_append, List.length_cons, List.length_nil,
        length_beBytes] at hlen
      omega
    simp only [derLength, hlength, hcount, if_neg hform, bind_eq_ok, exists_unit, raiseIf_eq_ok,
      pure_eq_ok, hdigits, hfirst, beNat_beBytes (lt_byteLength n)]
    refine ⟨by omega, by omega, hnonzero, ?_, ?_⟩
    · rw [not_or, not_not]
      exact ⟨hshort, rfl⟩
    · simp [length_beBytes]
      omega

/-- Writing a length that was read. -/
theorem header_of_derLength {data : Bytes} {offset n cursor : ℕ} (hinside : offset + 2 ≤ data.length)
    (h : derLength data offset = .ok (n, cursor)) :
    cursor ≤ data.length ∧ offset + 2 ≤ cursor ∧
      derHeader (data.getD offset 0) n = slice data offset cursor := by
  obtain ⟨hshort, hlong⟩ := lengthByte (data.getD (offset + 1) 0)
  unfold derLength at h
  by_cases hform : (data.getD (offset + 1) 0).toNat &&& 0x80 = 0
  · simp only [if_pos hform, pure_eq_ok, Prod.mk.injEq] at h
    obtain ⟨rfl, rfl⟩ := h
    refine ⟨hinside, le_rfl, ?_⟩
    rw [derHeader, if_pos (hshort hform), UInt8.ofNat_toNat, slice_cons (by omega) (by omega),
      slice_cons (by omega) (by omega)]
    simp [slice]
  · simp only [if_neg hform, bind_eq_ok, exists_unit, raiseIf_eq_ok, pure_eq_ok, Prod.mk.injEq,
      not_or, not_lt, not_not] at h
    obtain ⟨-, ⟨-, hfits⟩, -, ⟨hlarge, hcount⟩, rfl, rfl⟩ := h
    refine ⟨hfits, by omega, ?_⟩
    set count := (data.getD (offset + 1) 0).toNat &&& 0x7F with hcountdef
    set digits := slice data (offset + 2) (offset + 2 + count) with hdigits
    have hlength : digits.length = count := by
      rw [hdigits, length_slice hfits]
      omega
    have hbytes : byteLength (beNat digits) = count := hcount.symm
    rw [derHeader, if_neg (by omega), hbytes, hlong hform]
    conv_lhs => rw [← hlength, beBytes_beNat]
    rw [slice_cons (by omega) (by omega), slice_cons (by omega) (by omega)]
    rfl

/-! ## Reading and writing -/

/-- Reading an object that was written, in front of any bytes. -/
theorem derRead_encodeDer {data value rest : Bytes} {tag : UInt8} {offset depth : ℕ}
    (hsize : data.length ≤ maxDerBytes) (hdepth : depth ≤ maxDerDepth)
    (hdata : data.drop offset = encodeDer tag value ++ rest) :
    derRead data offset depth = .ok (⟨tag, value, depth⟩, offset + (encodeDer tag value).length) := by
  have hlen := congrArg List.length hdata
  rw [encodeDer_eq, List.append_assoc] at hdata
  have hheader : 2 ≤ (derHeader tag value.length).length := by
    unfold derHeader
    split_ifs <;> simp
  simp only [List.length_drop, List.length_append, encodeDer_eq] at hlen
  have hbound : value.length < 2 ^ 32 := by
    have : maxDerBytes < 2 ^ 32 := by decide
    omega
  have htag : data.getD offset 0 = tag := by
    have hfirst := congrArg (fun l : Bytes => l[0]?) hdata
    simp only [List.getElem?_drop, Nat.add_zero] at hfirst
    rw [List.getD_eq_getElem?_getD, hfirst]
    unfold derHeader
    split_ifs <;> rfl
  have hvalue : slice data (offset + (derHeader tag value.length).length)
      (offset + (derHeader tag value.length).length + value.length) = value := by
    rw [slice, ← List.drop_drop, hdata, List.drop_left, Nat.add_sub_cancel_left, List.take_left]
  unfold derRead
  simp only [bind_eq_ok, exists_unit, raiseIf_eq_ok, pure_eq_ok, derLength_header hbound hdata, not_or,
    not_lt, ok_bind]
  refine ⟨⟨hsize, hdepth⟩, by omega, by omega, ?_⟩
  rw [htag, hvalue, encodeDer_eq, List.length_append, Nat.add_assoc]

/-- Writing an object that was read. -/
theorem encodeDer_of_derRead {data : Bytes} {offset depth last : ℕ} {item : Der}
    (h : derRead data offset depth = .ok (item, last)) :
    offset < last ∧ last ≤ data.length ∧ encodeDer item.tag item.value = slice data offset last := by
  unfold derRead at h
  simp only [bind_eq_ok, exists_unit, raiseIf_eq_ok, pure_eq_ok, Prod.mk.injEq, not_or, not_lt] at h
  obtain ⟨-, hinside, ⟨n, cursor⟩, hlength, hfits, rfl, rfl⟩ := h
  obtain ⟨hcursor, hle, hheader⟩ := header_of_derLength hinside hlength
  simp only at hfits ⊢
  refine ⟨by omega, hfits, ?_⟩
  have hvalue : (slice data cursor (cursor + n)).length = n := by
    rw [length_slice hfits]
    omega
  rw [encodeDer_eq, hvalue, hheader, slice_append_slice data (by omega) (by omega)]

/-- The children of an object, written again, from an offset on. -/
theorem childrenFrom_encode {value : Bytes} {depth : ℕ} : ∀ {room cursor : ℕ} {children : List Der},
    childrenFrom value depth room cursor = .ok children →
    (children.flatMap fun child => encodeDer child.tag child.value) = value.drop cursor
  | 0, cursor, children, h => by
    unfold childrenFrom at h
    split_ifs at h with hlt
    obtain rfl := Except.ok.inj h
    rw [List.drop_eq_nil_of_le (by omega)]
    rfl
  | room + 1, cursor, children, h => by
    unfold childrenFrom at h
    split_ifs at h with hlt
    · simp only [bind_eq_ok, pure_eq_ok] at h
      obtain ⟨⟨item, next⟩, hitem, rest, hrest, rfl⟩ := h
      obtain ⟨hnext, hinside, hencode⟩ := encodeDer_of_derRead hitem
      rw [List.flatMap_cons, childrenFrom_encode hrest, hencode, ← slice_length, ← slice_length,
        slice_append_slice value hnext.le hinside]
    · obtain rfl := Except.ok.inj h
      rw [List.drop_eq_nil_of_le (by omega)]
      rfl

theorem children_encode {item : Der} {children : List Der} (h : item.children = .ok children) :
    (children.flatMap fun child => encodeDer child.tag child.value) = item.value := by
  unfold Der.children at h
  simp only [bind_eq_ok, exists_unit, raiseIf_eq_ok] at h
  rw [childrenFrom_encode h.2, List.drop_zero]

/-- Another tag changes the first byte only. -/
theorem encodeDer_tag (tag tag' : UInt8) (value : Bytes) :
    encodeDer tag' value = tag' :: (encodeDer tag value).tail := by
  unfold encodeDer
  split_ifs <;> rfl

/-- **DER reading and writing are inverse.**  What is written is read back; what is read is written
    back, object by object and child by child; and the signed attributes are hashed as they were read,
    but for their first byte. -/
theorem der_round_trip :
    (∀ (tag : UInt8) (value rest : Bytes), (encodeDer tag value ++ rest).length ≤ maxDerBytes →
      derRead (encodeDer tag value ++ rest) 0 0 =
        .ok (⟨tag, value, 0⟩, (encodeDer tag value).length)) ∧
    (∀ (data : Bytes) (offset depth last : ℕ) (item : Der),
      derRead data offset depth = .ok (item, last) →
        last ≤ data.length ∧ encodeDer item.tag item.value = slice data offset last) ∧
    (∀ (item : Der) (children : List Der), item.children = .ok children →
      (children.flatMap fun child => encodeDer child.tag child.value) = item.value) ∧
    (∀ (sha256 : Bytes → Bytes) (data contentDigest digest : Bytes) (offset depth last : ℕ)
      (attributes : Der), derRead data offset depth = .ok (attributes, last) →
        signedAttributesDigest sha256 attributes contentDigest = .ok digest →
          digest = sha256 (0x31 :: (slice data offset last).tail)) := by
  refine ⟨fun tag value rest hsize => ?_, fun data offset depth last item h => ?_,
    fun item children h => children_encode h, ?_⟩
  · have := @derRead_encodeDer (encodeDer tag value ++ rest) value rest tag 0 0 hsize (Nat.zero_le _) rfl
    rwa [Nat.zero_add] at this
  · exact (encodeDer_of_derRead h).2
  · intro sha256 data contentDigest digest offset depth last attributes hread hdigest
    simp only [signedAttributesDigest, bind_eq_ok, exists_unit, pure_eq_ok] at hdigest
    obtain ⟨_, -, _, -, -, -, rfl⟩ := hdigest
    rw [encodeDer_tag attributes.tag, (encodeDer_of_derRead hread).2.2]

/-- The attributes of a signature over the content digest `AA BB`: its contentType and its
    messageDigest. -/
def exampleAttributes : Bytes :=
  [0xA0, 46, 0x30, 25, 0x06, 9, 0x2A, 0x86, 0x48, 0x86, 0xF7, 0x0D, 1, 9, 3, 0x31, 12, 0x06, 10, 0x2B, 6,
    1, 4, 1, 0x82, 0x37, 2, 1, 4, 0x30, 17, 0x06, 9, 0x2A, 0x86, 0x48, 0x86, 0xF7, 0x0D, 1, 9, 4, 0x31, 4,
    0x04, 2, 0xAA, 0xBB]

theorem der_round_trip_example :
    derRead (encodeDer 0x04 [7] ++ [1]) 0 0 = .ok (⟨0x04, [7], 0⟩, 3) ∧
    encodeDer 0xA0 (exampleAttributes.drop 2) = slice exampleAttributes 0 48 ∧
    (∃ children, Der.children ⟨0xA0, exampleAttributes.drop 2, 0⟩ = .ok children ∧
      (children.flatMap fun child => encodeDer child.tag child.value) = exampleAttributes.drop 2) ∧
    signedAttributesDigest id ⟨0xA0, exampleAttributes.drop 2, 0⟩ [0xAA, 0xBB] =
      .ok (0x31 :: (slice exampleAttributes 0 48).tail) := by
  obtain ⟨hwrite, hread, hchildren, hhash⟩ := der_round_trip
  have hattributes : derRead exampleAttributes 0 0 = .ok (⟨0xA0, exampleAttributes.drop 2, 0⟩, 48) := by
    decide
  have hdigest : ∃ digest, signedAttributesDigest id ⟨0xA0, exampleAttributes.drop 2, 0⟩ [0xAA, 0xBB] =
      .ok digest := ⟨encodeDer 0x31 (exampleAttributes.drop 2), by decide⟩
  obtain ⟨digest, hdigest⟩ := hdigest
  have hparts : Der.children ⟨0xA0, exampleAttributes.drop 2, 0⟩ =
      .ok [⟨0x30, slice exampleAttributes 4 29, 1⟩, ⟨0x30, slice exampleAttributes 31 48, 1⟩] := by
    decide
  refine ⟨hwrite 0x04 [7] [1] (by decide), (hread _ _ _ _ _ hattributes).2, ⟨_, hparts, ?_⟩, ?_⟩
  · exact hchildren _ _ hparts
  · rw [hdigest, hhash id _ _ _ 0 0 48 _ hattributes hdigest]
    rfl

end RulesMkosi.SecureBoot
