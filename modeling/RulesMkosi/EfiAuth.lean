/-
  UEFI authenticated variables (`mkosi/private/efi_auth.py`).

  An `.auth` file is a time, a certificate header with a PKCS#7 signature, and a list of
  EFI_SIGNATURE_LISTs.  `parseAuth` reads back what `authFile` writes (`parseAuth_authFile`),
  and the lists that `signatureLists` accepts tile the data (`signatureLists_tile`).
-/
import RulesMkosi.Lib.Scan

namespace RulesMkosi.EfiAuth

/-! ## UUIDs -/

/-- Reverses the order of the bytes in the first three fields. -/
def swapFields (bytes : Bytes) : Bytes :=
  (bytes.take 4).reverse ++ (slice bytes 4 6).reverse ++ (slice bytes 6 8).reverse ++ bytes.drop 8

/-- A UUID, as `uuid.UUID.bytes`. -/
structure Uuid where
  bytes : Bytes
  length : bytes.length = 16
  deriving DecidableEq

def Uuid.bytesLe (id : Uuid) : Bytes := swapFields id.bytes

theorem length_swapFields {bytes : Bytes} (h : bytes.length = 16) : (swapFields bytes).length = 16 := by
  simp only [swapFields, List.length_append, List.length_reverse, List.length_take, List.length_drop,
    slice]
  omega

/-- `uuid.UUID(bytes_le=bytes)` -/
def Uuid.ofBytesLe (bytes : Bytes) : Except Exn Uuid :=
  if h : bytes.length = 16 then .ok ⟨swapFields bytes, length_swapFields h⟩
  else .error (.valueError "bytes_le is not a 16-char string")

theorem exists_of_length {bytes : Bytes} (h : bytes.length = 16) :
    ∃ b0 b1 b2 b3 b4 b5 b6 b7 rest, bytes = b0 :: b1 :: b2 :: b3 :: b4 :: b5 :: b6 :: b7 :: rest := by
  rcases bytes with _ | ⟨b0, _ | ⟨b1, _ | ⟨b2, _ | ⟨b3, _ | ⟨b4, _ | ⟨b5, _ | ⟨b6, _ | ⟨b7, rest⟩⟩⟩⟩⟩⟩⟩⟩
  · simp at h
  · simp at h
  · simp at h
  · simp at h
  · simp at h
  · simp at h
  · simp at h
  · simp at h
  · exact ⟨b0, b1, b2, b3, b4, b5, b6, b7, rest, rfl⟩

theorem swapFields_swapFields {bytes : Bytes} (h : bytes.length = 16) :
    swapFields (swapFields bytes) = bytes := by
  obtain ⟨b0, b1, b2, b3, b4, b5, b6, b7, rest, rfl⟩ := exists_of_length h
  rfl

theorem Uuid.length_bytesLe (id : Uuid) : id.bytesLe.length = 16 := length_swapFields id.length

theorem Uuid.ofBytesLe_bytesLe (id : Uuid) : Uuid.ofBytesLe id.bytesLe = .ok id := by
  rw [Uuid.ofBytesLe, dif_pos id.length_bytesLe]
  congr 1
  cases id with
  | mk bytes length => simp only [Uuid.bytesLe, swapFields_swapFields length]

theorem Uuid.ofBytesLe_eq_ok {bytes : Bytes} {id : Uuid} (h : Uuid.ofBytesLe bytes = .ok id) :
    bytes = id.bytesLe := by
  unfold Uuid.ofBytesLe at h
  split_ifs at h with hlength
  obtain rfl := Except.ok.inj h
  exact (swapFields_swapFields hlength).symm

def efiCertTypePkcs7 : Uuid :=
  ⟨[0x4a, 0xaf, 0xd2, 0x9d, 0x68, 0xdf, 0x49, 0xee, 0x8a, 0xa9, 0x34, 0x7d, 0x37, 0x56, 0x65, 0xa7], rfl⟩

def efiCertX509 : Uuid :=
  ⟨[0xa5, 0xc0, 0x59, 0xa1, 0x94, 0xe4, 0x4a, 0xa7, 0x87, 0xb5, 0xab, 0x15, 0x5c, 0x2b, 0xf0, 0x72], rfl⟩

/-- The names in `VARIABLES`. -/
def variableNames : List String := ["PK", "KEK", "db", "dbx"]

/-! ## Writing -/

/-- `struct.pack` of one unsigned little-endian field of `n` bytes. -/
def packField (n value : ℕ) : Except Exn Bytes :=
  if value < 256 ^ n then .ok (leBytes n value)
  else .error (.structError "argument out of range")

/-- `_TIME.size` -/
def timeSize : ℕ := 16

/-- `_WIN_CERTIFICATE.size` -/
def winCertificateSize : ℕ := 24

/-- `_SIGNATURE_LIST.size` -/
def signatureListSize : ℕ := 28

def winCertTypeEfiGuid : ℕ := 0x0EF1

def winCertRevision : ℕ := 0x0200

/-- An EFI_TIME at midnight UTC. -/
def efiTime (year month day : ℕ) : Except Exn Bytes := do
  let year ← packField 2 year
  let month ← packField 1 month
  let day ← packField 1 day
  return year ++ month ++ day ++ zeros 12

/-- An EFI_SIGNATURE_LIST holding one X.509 certificate owned by the owner UUID. -/
def signatureList (certificateDer : Bytes) (owner : Uuid) : Except Exn Bytes := do
  let size ← packField 4 (signatureListSize + 16 + certificateDer.length)
  let headerSize ← packField 4 0
  let signatureSize ← packField 4 (16 + certificateDer.length)
  return efiCertX509.bytesLe ++ size ++ headerSize ++ signatureSize ++ owner.bytesLe ++ certificateDer

/-- An `.auth` file from its timestamp, the DER PKCS#7 SignedData and the data. -/
def authFile (timestamp signedData data : Bytes) : Except Exn Bytes := do
  let length ← packField 4 (winCertificateSize + signedData.length)
  let revision ← packField 2 winCertRevision
  let certificateType ← packField 2 winCertTypeEfiGuid
  return timestamp ++ (length ++ revision ++ certificateType ++ efiCertTypePkcs7.bytesLe) ++ signedData ++
    data

/-! ## Reading -/

def parseTime (data : Bytes) : Except Exn Unit := do
  raiseIf (data.length < timeSize + winCertificateSize)
    (.valueError "too short for an EFI_VARIABLE_AUTHENTICATION_2 header")
  let year := field data 0 2
  let month := field data 2 1
  let day := field data 3 1
  let hour := field data 4 1
  let minute := field data 5 1
  let second := field data 6 1
  raiseIf (¬ (1 ≤ month ∧ month ≤ 12 ∧ 1 ≤ day ∧ day ≤ 31 ∧ hour < 24 ∧ minute < 60 ∧ second < 60 ∧
      1900 ≤ year))
    (.valueError "invalid EFI_TIME")
  -- Pad1, Nanosecond, TimeZone, Daylight, Pad2
  raiseIf (field data 7 1 ≠ 0 ∨ field data 8 4 ≠ 0 ∨ field data 12 2 ≠ 0 ∨ field data 14 1 ≠ 0 ∨
      field data 15 1 ≠ 0)
    (.valueError "EFI_TIME of a time-based authenticated variable must have zero Pad, Nanosecond, TimeZone")

/-- The PKCS#7 bytes and the offset of the variable data after the WIN_CERTIFICATE_UEFI_GUID. -/
def parseCertificate (data : Bytes) : Except Exn (Bytes × ℕ) := do
  let length ← unpackFrom 4 data timeSize
  let revision ← unpackFrom 2 data (timeSize + 4)
  let certificateType ← unpackFrom 2 data (timeSize + 6)
  let last := timeSize + length
  raiseIf (revision ≠ winCertRevision ∨ certificateType ≠ winCertTypeEfiGuid)
    (.valueError "authentication header is not a WIN_CERTIFICATE_UEFI_GUID")
  let certType ← Uuid.ofBytesLe (slice data (timeSize + 8) (timeSize + 24))
  raiseIf (certType ≠ efiCertTypePkcs7)
    (.valueError "authentication header does not carry a PKCS#7 signature")
  raiseIf (length ≤ winCertificateSize ∨ data.length < last)
    (.valueError "WIN_CERTIFICATE length is out of bounds")
  let signedData := slice data (timeSize + winCertificateSize) last
  raiseIf (signedData.take 1 ≠ [0x30]) (.valueError "PKCS#7 signature is not DER")
  return (signedData, last)

/-- A signature type and the data of its signatures. -/
abbrev SignatureList := Uuid × List Bytes

/-- `[data[start + 16 : start + size] for start in range(body, last, size)]` -/
def entriesOf (data : Bytes) (body last size : ℕ) : List Bytes :=
  (List.range ((last - body + size - 1) / size)).map fun index =>
    slice data (body + index * size + 16) (body + index * size + size)

/-- One round of the loop of `signature_lists`: the list at the offset, and the offset after it. -/
def signatureListAt (data : Bytes) (offset : ℕ) : Except Exn (SignatureList × ℕ) := do
  raiseIf (data.length - offset < signatureListSize) (.valueError "truncated EFI_SIGNATURE_LIST")
  let listSize ← unpackFrom 4 data (offset + 16)
  let headerSize ← unpackFrom 4 data (offset + 20)
  let signatureSize ← unpackFrom 4 data (offset + 24)
  let body := offset + signatureListSize + headerSize
  let last := offset + listSize
  raiseIf (data.length < last ∨ last < body ∨ signatureSize ≤ 16 ∨
      (last - body) % signatureSize ≠ 0)
    (.valueError "EFI_SIGNATURE_LIST sizes are inconsistent")
  let entries := entriesOf data body last signatureSize
  raiseIf (entries = []) (.valueError "EFI_SIGNATURE_LIST is empty")
  let signatureType ← Uuid.ofBytesLe (slice data offset (offset + 16))
  return ((signatureType, entries), last)

/-- The loop of `signature_lists`; `none` if it does not end within `rounds` rounds. -/
def signatureListsLoop (data : Bytes) (rounds : ℕ) : Option (Except Exn (List SignatureList)) :=
  scan data.length (signatureListAt data) rounds 0

/-- `signature_lists`; its loop ends within as many rounds as the data has bytes
    (`signatureLists_ends`). -/
def signatureLists (data : Bytes) : Except Exn (List SignatureList) :=
  (signatureListsLoop data data.length).getD (.error (.runtimeError "the loop does not end"))

def parseAuth (name : String) (data : Bytes) : Except Exn (Bytes × List SignatureList) := do
  raiseIf (name ∉ variableNames) (.valueError (name ++
    ".auth is not a Secure Boot variable; expected one of ['KEK', 'PK', 'db', 'dbx']"))
  parseTime data
  let (signedData, last) ← parseCertificate data
  let lists ← signatureLists (data.drop last)
  raiseIf (name = "PK" ∧ (lists.length ≠ 1 ∨ lists.head?.map (fun list => list.1) ≠ some efiCertX509 ∨
      lists.head?.map (fun list => list.2.length) ≠ some 1))
    (.valueError "PK.auth must hold exactly one X.509 certificate")
  raiseIf ((name = "KEK" ∨ name = "db") ∧ ¬ ∃ list ∈ lists, list.1 = efiCertX509)
    (.valueError (name ++ ".auth must hold at least one X.509 certificate"))
  return (signedData, lists)

/-! ## Lists tile the data -/

/-- The bytes of an EFI_SIGNATURE_LIST: its type, the three sizes, its header, and signatures of one
    size, each an owner and its data. -/
def IsSignatureList (part : Bytes) (list : SignatureList) : Prop :=
  ∃ (header : Bytes) (signatures : List (Bytes × Bytes)) (size : ℕ),
    part = list.1.bytesLe ++ leBytes 4 part.length ++ leBytes 4 header.length ++ leBytes 4 size ++
      header ++ signatures.flatMap (fun signature => signature.1 ++ signature.2) ∧
    part.length < 2 ^ 32 ∧ list.2 = signatures.map Prod.snd ∧ signatures ≠ [] ∧
    ∀ signature ∈ signatures, signature.1.length = 16 ∧ 16 + signature.2.length = size

section
variable {data : Bytes} {offset next : ℕ} {list : SignatureList}

/-- What one round checks. -/
theorem signatureListAt_eq_ok (h : signatureListAt data offset = .ok (list, next)) :
    ∃ headerSize size, offset + 28 ≤ data.length ∧ next = offset + field data (offset + 16) 4 ∧
      headerSize = field data (offset + 20) 4 ∧ size = field data (offset + 24) 4 ∧
      next ≤ data.length ∧ offset + 28 + headerSize ≤ next ∧ 16 < size ∧
      (next - (offset + 28 + headerSize)) % size = 0 ∧
      list.2 = entriesOf data (offset + 28 + headerSize) next size ∧ list.2 ≠ [] ∧
      slice data offset (offset + 16) = list.1.bytesLe := by
  unfold signatureListAt signatureListSize at h
  simp only [bind_eq_ok, exists_unit, raiseIf_eq_ok, unpackFrom_eq_ok, pure_eq_ok, not_or, not_lt, not_le,
    not_not, Prod.mk.injEq] at h
  obtain ⟨hfits, listSize, ⟨hfits', rfl⟩, headerSize, ⟨-, rfl⟩, size, ⟨-, rfl⟩, ⟨hnext, hbody, hsize, hmod⟩,
    hne, id, hid, rfl, rfl⟩ := h
  exact ⟨_, _, by omega, rfl, rfl, rfl, hnext, hbody, hsize, hmod, rfl, hne, Uuid.ofBytesLe_eq_ok hid⟩

/-- One round moves behind the header of its list. -/
theorem signatureListAt_progress (h : signatureListAt data offset = .ok (list, next)) :
    offset < next ∧ next ≤ data.length := by
  obtain ⟨_, _, _, _, _, _, hnext, hbody, _⟩ := signatureListAt_eq_ok h
  omega

theorem flatMap_entries (data : Bytes) (body size count : ℕ) (hsize : 16 ≤ size) :
    ((List.range count).map fun index => (slice data (body + index * size) (body + index * size + 16),
      slice data (body + index * size + 16) (body + index * size + size))).flatMap
        (fun signature => signature.1 ++ signature.2) = slice data body (body + count * size) := by
  induction count with
  | zero => simp [slice]
  | succ count ih =>
    rw [List.range_succ, List.map_append, List.flatMap_append, ih, Nat.succ_mul, ← Nat.add_assoc]
    simp only [List.map_cons, List.map_nil, List.flatMap_cons, List.flatMap_nil, List.append_nil]
    rw [slice_append_slice data (by omega) (by omega), slice_append_slice data (by omega) (by omega)]

/-- A round takes a whole list. -/
theorem signatureListAt_isSignatureList (h : signatureListAt data offset = .ok (list, next)) :
    IsSignatureList (slice data offset next) list := by
  obtain ⟨headerSize, size, hfits, hlast, hheader, hsizeField, hnext, hbody, hsize, hmod, hentries, hne,
    htype⟩ := signatureListAt_eq_ok h
  set body := offset + 28 + headerSize with hbodydef
  set count := (next - body) / size with hcount
  have hexact : count * size = next - body := Nat.div_mul_cancel (Nat.dvd_of_mod_eq_zero hmod)
  have hrange : (next - body + size - 1) / size = count := by
    rw [← hexact, Nat.add_sub_assoc (by omega), Nat.mul_comm, Nat.mul_add_div (by omega),
      Nat.div_eq_of_lt (by omega), Nat.add_zero]
  set signatures := (List.range count).map fun index =>
    (slice data (body + index * size) (body + index * size + 16),
      slice data (body + index * size + 16) (body + index * size + size)) with hsignatures
  have hflat : signatures.flatMap (fun signature => signature.1 ++ signature.2) = slice data body next := by
    rw [hsignatures, flatMap_entries data body size count hsize.le, hexact, Nat.add_sub_cancel' hbody]
  have hpart : (slice data offset next).length = field data (offset + 16) 4 := by
    rw [length_slice hnext]
    omega
  have hheaderSize : (slice data (offset + 28) body).length = headerSize := by
    rw [length_slice (by omega)]
    omega
  have hdata : list.2 = signatures.map Prod.snd := by
    rw [hentries, entriesOf, hrange, hsignatures, List.map_map]
    rfl
  refine ⟨slice data (offset + 28) body, signatures, size, ?_, ?_, hdata, ?_, ?_⟩
  · -- the list is cut at its sizes, its header and its signatures
    rw [hpart, hheaderSize, hheader, hsizeField, ← slice_eq_leBytes (by omega),
      ← slice_eq_leBytes (by omega), ← slice_eq_leBytes (by omega), ← htype, hflat,
      slice_append_slice data (by omega) (by omega),
      slice_append_slice data (by omega) (by omega), slice_append_slice data (by omega) (by omega),
      slice_append_slice data (by omega) (by omega), slice_append_slice data (by omega) (by omega)]
  · rw [hpart]
    exact lt_of_lt_of_eq (field_lt (by omega)) (by norm_num)
  · intro hnil
    rw [hdata, hnil] at hne
    exact hne rfl
  · intro signature hmem
    rw [hsignatures] at hmem
    obtain ⟨index, hindex, rfl⟩ := List.mem_map.1 hmem
    have hindex : index < count := List.mem_range.1 hindex
    have hlast : body + index * size + size ≤ next := by
      have : (index + 1) * size ≤ count * size := Nat.mul_le_mul_right _ hindex
      rw [Nat.succ_mul] at this
      omega
    rw [length_slice (by omega), length_slice (by omega)]
    omega

end

/-- The loop ends, and `signatureLists` is its result. -/
theorem signatureLists_ends (data : Bytes) :
    signatureListsLoop data data.length = some (signatureLists data) := by
  obtain ⟨result, hresult⟩ := @scan_ends _ _ data.length (signatureListAt data)
    (fun _ _ _ h => (signatureListAt_progress h).1) data.length 0 (by omega)
  rw [signatureLists, signatureListsLoop, hresult, Option.getD_some]

theorem signatureLists_tile {data : Bytes} {lists : List SignatureList}
    (h : signatureLists data = .ok lists) :
    ∃ parts, data = parts.flatten ∧ List.Forall₂ IsSignatureList parts lists := by
  have hends := signatureLists_ends data
  rw [h] at hends
  refine scan_tile (fun offset list next hround => ?_) hends
  obtain ⟨hnext, hinside⟩ := signatureListAt_progress hround
  exact ⟨hnext, hinside, signatureListAt_isSignatureList hround⟩

/-! ## The round trip -/

theorem packField_eq_ok {n value : ℕ} (h : value < 256 ^ n) : packField n value = .ok (leBytes n value) := by
  rw [packField, if_pos h]

/-- The list that holds one certificate. -/
def listBytes (certificate : Bytes × Uuid) : Bytes :=
  efiCertX509.bytesLe ++ leBytes 4 (44 + certificate.1.length) ++ leBytes 4 0 ++
    leBytes 4 (16 + certificate.1.length) ++ certificate.2.bytesLe ++ certificate.1

theorem signatureList_eq_ok {certificate : Bytes × Uuid} (h : 44 + certificate.1.length < 2 ^ 32) :
    signatureList certificate.1 certificate.2 = .ok (listBytes certificate) := by
  simp only [signatureList, signatureListSize]
  rw [packField_eq_ok (by norm_num; omega), packField_eq_ok (by norm_num),
    packField_eq_ok (by norm_num; omega)]
  rfl

theorem length_listBytes (certificate : Bytes × Uuid) :
    (listBytes certificate).length = 44 + certificate.1.length := by
  simp only [listBytes, List.length_append, Uuid.length_bytesLe, length_leBytes]

/-- Reading a list that was written. -/
theorem signatureListAt_listBytes {data rest : Bytes} {certificate : Bytes × Uuid} {offset : ℕ}
    (hne : certificate.1 ≠ []) (hsize : 44 + certificate.1.length < 2 ^ 32)
    (hdata : data.drop offset = listBytes certificate ++ rest) :
    signatureListAt data offset =
      .ok ((efiCertX509, [certificate.1]), offset + (listBytes certificate).length) := by
  have hlength := length_listBytes certificate
  obtain ⟨certificate, owner⟩ := certificate
  simp only at hne hsize hlength
  have hpos : 0 < certificate.length := List.length_pos_iff.2 hne
  have hinside : offset + (44 + certificate.length) ≤ data.length := by
    have := congrArg List.length hdata
    rw [List.length_drop, List.length_append, hlength] at this
    omega
  have hid := efiCertX509.length_bytesLe
  have howner := owner.length_bytesLe
  -- the fields of the list stand one behind the other
  have hparts : data.drop offset = [] ++ (efiCertX509.bytesLe ++ (leBytes 4 (44 + certificate.length) ++
      (leBytes 4 0 ++ (leBytes 4 (16 + certificate.length) ++
        (owner.bytesLe ++ (certificate ++ rest)))))) := by
    rw [hdata]
    simp only [listBytes, List.append_assoc, List.nil_append]
  have htype : slice data offset (offset + 16) = efiCertX509.bytesLe := by
    have := slice_drop data offset 0 16
    rw [Nat.add_zero] at this
    rw [← this, hparts, slice_middle List.length_nil (by rw [hid])]
  have hlist : field data (offset + 16) 4 = 44 + certificate.length := by
    rw [← field_drop, hparts, ← List.append_assoc, field_middle (by simp [hid]) (by norm_num; omega)]
  have hheader : field data (offset + 20) 4 = 0 := by
    rw [← field_drop, hparts, ← List.append_assoc, ← List.append_assoc ([] ++ _),
      field_middle (by simp [hid, length_leBytes]) (by norm_num)]
  have hsignature : field data (offset + 24) 4 = 16 + certificate.length := by
    rw [← field_drop, hparts, ← List.append_assoc, ← List.append_assoc ([] ++ _),
      ← List.append_assoc ([] ++ _ ++ _), field_middle (by simp [hid, length_leBytes]) (by norm_num; omega)]
  have hentry : slice data (offset + 44) (offset + (44 + certificate.length)) = certificate := by
    rw [← slice_drop, hparts, ← List.append_assoc, ← List.append_assoc ([] ++ _),
      ← List.append_assoc ([] ++ _ ++ _), ← List.append_assoc ([] ++ _ ++ _ ++ _),
      ← List.append_assoc ([] ++ _ ++ _ ++ _ ++ _),
      slice_middle (by simp [hid, howner, length_leBytes]) rfl]
  have hentries : entriesOf data (offset + 28 + 0) (offset + (44 + certificate.length))
      (16 + certificate.length) = [certificate] := by
    have hcount : (offset + (44 + certificate.length) - (offset + 28 + 0) + (16 + certificate.length) - 1) /
        (16 + certificate.length) = 1 :=
      Nat.div_eq_of_lt_le (by omega) (by omega)
    rw [entriesOf, hcount, List.range_one, List.map_singleton]
    have hstop : offset + 28 + 0 + 0 * (16 + certificate.length) + (16 + certificate.length) =
        offset + (44 + certificate.length) := by omega
    rw [hstop, Nat.zero_mul]
    exact congrArg (fun l => [l]) hentry
  have hmod : (offset + (44 + certificate.length) - (offset + 28 + 0)) % (16 + certificate.length) = 0 := by
    have : offset + (44 + certificate.length) - (offset + 28 + 0) = 16 + certificate.length := by omega
    rw [this, Nat.mod_self]
  unfold signatureListAt signatureListSize
  simp only [bind_eq_ok, exists_unit, raiseIf_eq_ok, unpackFrom_eq_ok, pure_eq_ok, not_or, not_lt, not_le,
    not_not]
  refine ⟨by omega, _, ⟨by omega, hlist.symm⟩, _, ⟨by omega, hheader.symm⟩, _, ⟨by omega, hsignature.symm⟩,
    ⟨hinside, by omega, by omega, hmod⟩, by rw [hentries]; simp, efiCertX509, ?_, ?_⟩
  · rw [htype, Uuid.ofBytesLe_bytesLe]
  · rw [hentries, hlength]

/-- Certificates whose sizes fit into the fields. -/
def Encodable (certificates : List (Bytes × Uuid)) : Prop :=
  ∀ certificate ∈ certificates, certificate.1 ≠ [] ∧ 44 + certificate.1.length < 2 ^ 32

/-- The lists that a file of certificates holds. -/
def certificateLists (certificates : List (Bytes × Uuid)) : List SignatureList :=
  certificates.map fun certificate => (efiCertX509, [certificate.1])

theorem listBytes_ne_nil (certificate : Bytes × Uuid) : listBytes certificate ≠ [] := by
  rw [← List.length_pos_iff, length_listBytes]
  omega

theorem signatureLists_listBytes {certificates : List (Bytes × Uuid)} (h : Encodable certificates) :
    signatureLists (certificates.flatMap listBytes) = .ok (certificateLists certificates) := by
  have hends := signatureLists_ends (certificates.flatMap listBytes)
  rw [signatureListsLoop, scan_flatMap (fun certificate hmem => ⟨listBytes_ne_nil certificate,
    fun offset rest hdata => ?_⟩) (length_le_flatMap fun certificate _ => listBytes_ne_nil certificate)
    List.drop_zero] at hends
  · exact (Option.some.inj hends).symm
  · exact signatureListAt_listBytes (h certificate hmem).1 (h certificate hmem).2 hdata

/-- The bytes of a time at midnight. -/
def timeBytes (year month day : ℕ) : Bytes :=
  leBytes 2 year ++ leBytes 1 month ++ leBytes 1 day ++ zeros 12

theorem efiTime_eq_ok {year month day : ℕ} (hyear : year < 2 ^ 16) (hmonth : month ≤ 12) (hday : day ≤ 31) :
    efiTime year month day = .ok (timeBytes year month day) := by
  rw [efiTime, packField_eq_ok (by norm_num; omega), packField_eq_ok (by norm_num; omega),
    packField_eq_ok (by norm_num; omega)]
  rfl

theorem length_timeBytes (year month day : ℕ) : (timeBytes year month day).length = 16 := rfl

theorem parseTime_timeBytes {year month day : ℕ} {rest : Bytes} (hyear : 1900 ≤ year)
    (hyear' : year < 2 ^ 16) (hmonth : 1 ≤ month ∧ month ≤ 12) (hday : 1 ≤ day ∧ day ≤ 31)
    (hrest : 24 ≤ rest.length) : parseTime (timeBytes year month day ++ rest) = .ok () := by
  have hparts : timeBytes year month day ++ rest =
      [] ++ (leBytes 2 year ++ (leBytes 1 month ++ (leBytes 1 day ++ (zeros 12 ++ rest)))) := by
    simp only [timeBytes, List.append_assoc, List.nil_append]
  have h0 : field (timeBytes year month day ++ rest) 0 2 = year := by
    rw [hparts, field_middle List.length_nil (by norm_num; omega)]
  have h2 : field (timeBytes year month day ++ rest) 2 1 = month := by
    rw [hparts, ← List.append_assoc, field_middle (by simp [length_leBytes]) (by norm_num; omega)]
  have h3 : field (timeBytes year month day ++ rest) 3 1 = day := by
    rw [hparts, ← List.append_assoc, ← List.append_assoc ([] ++ _),
      field_middle (by simp [length_leBytes]) (by norm_num; omega)]
  -- the other fields are zero
  have hzero : ∀ off ∈ [4, 5, 6, 7, 14, 15], field (timeBytes year month day ++ rest) off 1 = 0 := by
    intro off hoff
    simp only [List.mem_cons, List.not_mem_nil, or_false] at hoff
    rcases hoff with rfl | rfl | rfl | rfl | rfl | rfl <;> rfl
  have hlength : (timeBytes year month day ++ rest).length = 16 + rest.length := by
    rw [List.length_append, length_timeBytes]
  unfold parseTime timeSize winCertificateSize
  simp only [bind_eq_ok, exists_unit, raiseIf_eq_ok, not_lt, not_not, not_or, h0, h2, h3,
    hzero 4 (by simp), hzero 5 (by simp), hzero 6 (by simp), hzero 7 (by simp), hzero 14 (by simp),
    hzero 15 (by simp)]
  refine ⟨by omega, ⟨hmonth.1, hmonth.2, hday.1, hday.2, by omega, by omega, by omega, hyear⟩, trivial,
    ?_, ?_, trivial, trivial⟩
  · rfl
  · rfl

/-- The bytes of the certificate header. -/
def certificateBytes (signedData : Bytes) : Bytes :=
  leBytes 4 (24 + signedData.length) ++ leBytes 2 winCertRevision ++ leBytes 2 winCertTypeEfiGuid ++
    efiCertTypePkcs7.bytesLe

theorem authFile_eq_ok {timestamp signedData data : Bytes} (h : 24 + signedData.length < 2 ^ 32) :
    authFile timestamp signedData data =
      .ok (timestamp ++ certificateBytes signedData ++ signedData ++ data) := by
  simp only [authFile, winCertificateSize]
  rw [packField_eq_ok (by norm_num; omega), packField_eq_ok (by decide), packField_eq_ok (by decide)]
  rfl

theorem length_certificateBytes (signedData : Bytes) : (certificateBytes signedData).length = 24 := by
  simp only [certificateBytes, List.length_append, length_leBytes, Uuid.length_bytesLe]

theorem parseCertificate_certificateBytes {timestamp signedData data : Bytes}
    (htime : timestamp.length = 16) (hder : signedData.take 1 = [0x30])
    (hsize : 24 + signedData.length < 2 ^ 32) :
    parseCertificate (timestamp ++ certificateBytes signedData ++ signedData ++ data) =
      .ok (signedData, 40 + signedData.length) := by
  set file := timestamp ++ certificateBytes signedData ++ signedData ++ data with hfile
  have hid := efiCertTypePkcs7.length_bytesLe
  have hpos : 0 < signedData.length := by
    cases signedData with
    | nil => simp at hder
    | cons b signedData => simp
  have hlength : file.length = 40 + signedData.length + data.length := by
    rw [hfile]
    simp only [List.length_append, length_certificateBytes, htime]
  have hparts : file = timestamp ++ (leBytes 4 (24 + signedData.length) ++ (leBytes 2 winCertRevision ++
      (leBytes 2 winCertTypeEfiGuid ++ (efiCertTypePkcs7.bytesLe ++ (signedData ++ data))))) := by
    simp only [hfile, certificateBytes, List.append_assoc]
  have h16 : field file 16 4 = 24 + signedData.length := by
    rw [hparts, field_middle htime (by norm_num; omega)]
  have h20 : field file 20 2 = winCertRevision := by
    rw [hparts, ← List.append_assoc, field_middle (by simp [length_leBytes, htime]) (by decide)]
  have h22 : field file 22 2 = winCertTypeEfiGuid := by
    rw [hparts, ← List.append_assoc, ← List.append_assoc (timestamp ++ _),
      field_middle (by simp [length_leBytes, htime]) (by decide)]
  have h24 : slice file 24 40 = efiCertTypePkcs7.bytesLe := by
    rw [hparts, ← List.append_assoc, ← List.append_assoc (timestamp ++ _),
      ← List.append_assoc (timestamp ++ _ ++ _), slice_middle (by simp [length_leBytes, htime]) (by rw [hid])]
  have h40 : slice file 40 (40 + signedData.length) = signedData := by
    rw [hfile, List.append_assoc, slice_middle (by simp [htime, length_certificateBytes]) rfl]
  unfold parseCertificate timeSize winCertificateSize
  simp only [bind_eq_ok, exists_unit, raiseIf_eq_ok, unpackFrom_eq_ok, pure_eq_ok, not_or, not_lt, not_le,
    not_not]
  have hlast : 16 + (24 + signedData.length) = 40 + signedData.length := by omega
  refine ⟨_, ⟨by omega, h16.symm⟩, _, ⟨by omega, h20.symm⟩, _, ⟨by omega, h22.symm⟩, ⟨rfl, rfl⟩,
    efiCertTypePkcs7, ?_, rfl, ⟨by omega, by omega⟩, ?_, ?_⟩
  · rw [h24, Uuid.ofBytesLe_bytesLe]
  · rw [hlast, h40, hder]
  · rw [hlast, h40]

theorem mapM_signatureList {certificates : List (Bytes × Uuid)} (h : Encodable certificates) :
    certificates.mapM (fun certificate => signatureList certificate.1 certificate.2) =
      .ok (certificates.map listBytes) :=
  mapM_eq_map fun certificate hmem => signatureList_eq_ok (h certificate hmem).2

section
variable {year month day : ℕ} {signedData : Bytes} {certificates : List (Bytes × Uuid)}

/-- What `parse_auth` does with a file that was written, before the checks of its variable. -/
theorem parseAuth_written {name : String} (hname : name ∈ variableNames) (hyear : 1900 ≤ year)
    (hyear' : year < 2 ^ 16) (hmonth : 1 ≤ month ∧ month ≤ 12) (hday : 1 ≤ day ∧ day ≤ 31)
    (hder : signedData.take 1 = [0x30]) (hsize : 24 + signedData.length < 2 ^ 32)
    (hcertificates : Encodable certificates) :
    parseAuth name (timeBytes year month day ++ certificateBytes signedData ++ signedData ++
        certificates.flatMap listBytes) = (do
      raiseIf (name = "PK" ∧ certificates.length ≠ 1)
        (.valueError "PK.auth must hold exactly one X.509 certificate")
      raiseIf ((name = "KEK" ∨ name = "db") ∧ certificates = [])
        (.valueError (name ++ ".auth must hold at least one X.509 certificate"))
      return (signedData, certificateLists certificates)) := by
  have htime : parseTime (timeBytes year month day ++ certificateBytes signedData ++ signedData ++
      certificates.flatMap listBytes) = .ok () := by
    rw [List.append_assoc, List.append_assoc]
    refine parseTime_timeBytes hyear hyear' hmonth hday ?_
    rw [List.length_append, length_certificateBytes]
    omega
  have hdrop : (timeBytes year month day ++ certificateBytes signedData ++ signedData ++
      certificates.flatMap listBytes).drop (40 + signedData.length) = certificates.flatMap listBytes := by
    refine List.drop_left' ?_
    simp only [List.length_append, length_timeBytes, length_certificateBytes]
  have hone : (certificateLists certificates).length ≠ 1 ∨
      (certificateLists certificates).head?.map (fun list => list.1) ≠ some efiCertX509 ∨
      (certificateLists certificates).head?.map (fun list => list.2.length) ≠ some 1 ↔
      certificates.length ≠ 1 := by
    rw [certificateLists]
    rcases certificates with _ | ⟨certificate, rest⟩
    · simp
    · simp
  have hany : (¬ ∃ list ∈ certificateLists certificates, list.1 = efiCertX509) ↔ certificates = [] := by
    rw [certificateLists]
    rcases certificates with _ | ⟨certificate, rest⟩
    · simp
    · simp
  rw [parseAuth, raiseIf_of_not (by simpa using hname), ok_bind, htime, ok_bind,
    parseCertificate_certificateBytes (length_timeBytes year month day) hder hsize, ok_bind]
  simp only [hdrop, signatureLists_listBytes hcertificates, ok_bind]
  rw [raiseIf_congr (and_congr_right' hone), raiseIf_congr (and_congr_right' hany)]

end

/-- **Authenticated variables.**  A file written for valid certificates is read back for KEK, db and
    dbx, and for PK iff there is one certificate.  On every byte string the loop over the lists ends,
    and the lists it returns tile the bytes. -/
theorem auth_round_trip :
    (∀ (year month day : ℕ) (signedData : Bytes) (certificates : List (Bytes × Uuid)),
      1900 ≤ year → year < 2 ^ 16 → 1 ≤ month ∧ month ≤ 12 → 1 ≤ day ∧ day ≤ 31 →
      signedData.take 1 = [0x30] → 24 + signedData.length < 2 ^ 32 →
      certificates ≠ [] → Encodable certificates →
      ∃ timestamp lists file, efiTime year month day = .ok timestamp ∧
        certificates.mapM (fun certificate => signatureList certificate.1 certificate.2) = .ok lists ∧
        authFile timestamp signedData lists.flatten = .ok file ∧
        (∀ name ∈ ["KEK", "db", "dbx"],
          parseAuth name file = .ok (signedData, certificateLists certificates)) ∧
        (parseAuth "PK" file = .ok (signedData, certificateLists certificates) ↔
          certificates.length = 1) ∧
        (certificates.length ≠ 1 →
          parseAuth "PK" file = .error (.valueError "PK.auth must hold exactly one X.509 certificate"))) ∧
    (∀ data : Bytes, signatureListsLoop data data.length = some (signatureLists data) ∧
      ∀ lists, signatureLists data = .ok lists →
        ∃ parts, data = parts.flatten ∧ List.Forall₂ IsSignatureList parts lists) := by
  refine ⟨?_, fun data => ⟨signatureLists_ends data, fun lists h => signatureLists_tile h⟩⟩
  intro year month day signedData certificates hyear hyear' hmonth hday hder hsize hne hcertificates
  have hwritten := fun name (hname : name ∈ variableNames) =>
    parseAuth_written hname hyear hyear' hmonth hday hder hsize hcertificates
  have hkey := hwritten "PK" (by simp [variableNames])
  refine ⟨timeBytes year month day, certificates.map listBytes, _,
    efiTime_eq_ok hyear' hmonth.2 hday.2, mapM_signatureList hcertificates, authFile_eq_ok hsize, ?_, ?_, ?_⟩
  · intro name hname
    have hvariable : name ∈ variableNames ∧ name ≠ "PK" := by
      revert name
      decide
    rw [← List.flatMap_def, hwritten name hvariable.1, raiseIf_of_not (fun h => hvariable.2 h.1), ok_bind,
      raiseIf_of_not (fun h => hne h.2), ok_bind]
    rfl
  · rw [← List.flatMap_def, hkey]
    simp only [bind_eq_ok, exists_unit, raiseIf_eq_ok, pure_eq_ok]
    constructor
    · rintro ⟨hone, -⟩
      simpa using hone
    · intro hone
      exact ⟨by simp [hone], by simp, trivial⟩
  · intro hmany
    rw [← List.flatMap_def, hkey]
    simp [raiseIf, hmany]

/-- Two certificates and an empty signature. -/
theorem auth_round_trip_example : ∃ timestamp lists file, efiTime 2026 1 1 = .ok timestamp ∧
    [([0x30, 3], efiCertX509), ([7], efiCertTypePkcs7)].mapM
      (fun certificate => signatureList certificate.1 certificate.2) = .ok lists ∧
    authFile timestamp [0x30, 0] lists.flatten = .ok file ∧
    parseAuth "db" file = .ok ([0x30, 0], [(efiCertX509, [[0x30, 3]]), (efiCertX509, [[7]])]) ∧
    ∃ parts, lists.flatten = parts.flatten ∧ List.Forall₂ IsSignatureList parts
      [(efiCertX509, [[0x30, 3]]), (efiCertX509, [[7]])] := by
  obtain ⟨hwrite, hread⟩ := auth_round_trip
  obtain ⟨timestamp, lists, file, htime, hlists, hfile, hparse, -, -⟩ := hwrite 2026 1 1 [0x30, 0]
    [([0x30, 3], efiCertX509), ([7], efiCertTypePkcs7)] (by decide) (by decide) (by decide) (by decide) rfl
    (by decide) (by decide) (by
      intro certificate hmem
      simp only [List.mem_cons, List.not_mem_nil, or_false] at hmem
      rcases hmem with rfl | rfl
      · decide
      · decide)
  refine ⟨timestamp, lists, file, htime, hlists, hfile, hparse "db" (by decide), ?_⟩
  refine (hread lists.flatten).2 _ ?_
  have hbytes : lists = [listBytes ([0x30, 3], efiCertX509), listBytes ([7], efiCertTypePkcs7)] :=
    Except.ok.inj (hlists.symm.trans rfl)
  rw [hbytes]
  decide

end RulesMkosi.EfiAuth
