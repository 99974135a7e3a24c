/-
  OpenPGP packets (`mkosi/private/openpgp.py`).

  A packet is a header in one of six forms and a body.  Some lengths are read by an index,
  which fails at the end of the data, and some by a slice, which is then too short; in both
  cases the packet is rejected (`packets_tile`).  `packets` reads back what `packet` writes.
-/
import RulesMkosi.Lib.Scan

namespace RulesMkosi.OpenPgp

/-- `data[i]` -/
def byteAt (data : Bytes) (i : ℕ) : Except Exn ℕ :=
  match data[i]? with
  | some byte => .ok byte.toNat
  | none => .error (.indexError "index out of range")

/-- `(1, 2, 4, None)[code]` -/
def lengthBytes (code : ℕ) : Option ℕ :=
  if code = 0 then some 1 else if code = 1 then some 2 else if code = 2 then some 4 else none

/-- The tag, body offset and body length of the packet at the offset. -/
def header (data : Bytes) (offset : ℕ) : Except Exn (ℕ × ℕ × ℕ) := do
  let first ← byteAt data offset
  raiseIf (first &&& 0x80 = 0)
    (.valueError ("invalid OpenPGP packet header at byte " ++ Nat.repr offset))
  if first &&& 0x40 = 0 then
    match lengthBytes (first &&& 0x03) with
    | none => .error (.valueError "indeterminate OpenPGP packet lengths are not supported")
    | some count =>
      let start := offset + 1 + count
      return ((first >>> 2) &&& 0x0F, start, beNat (slice data (offset + 1) start))
  else
    let octet ← byteAt data (offset + 1)
    if octet < 192 then
      return (first &&& 0x3F, offset + 2, octet)
    else if octet < 224 then
      let second ← byteAt data (offset + 2)
      return (first &&& 0x3F, offset + 3, ((octet - 192) <<< 8) + second + 192)
    else if octet = 255 then
      return (first &&& 0x3F, offset + 6, beNat (slice data (offset + 2) (offset + 6)))
    else .error (.valueError "partial OpenPGP packet lengths are not supported")

/-- `except IndexError` -/
def headerOrTruncated (data : Bytes) (offset : ℕ) : Except Exn (ℕ × ℕ × ℕ) :=
  match header data offset with
  | .error (.indexError _) => .error (.valueError "truncated OpenPGP packet header")
  | result => result

/-- A tag and a body. -/
abbrev Packet := ℕ × Bytes

/-- One round of the loop of `packets`: the packet at the offset, and the offset after it. -/
def packetAt (data : Bytes) (offset : ℕ) : Except Exn (Packet × ℕ) := do
  let (tag, start, length) ← headerOrTruncated data offset
  raiseIf (data.length < start + length) (.valueError "truncated OpenPGP packet")
  return ((tag, slice data start (start + length)), start + length)

/-- The loop of `packets`; `none` if it does not end within `rounds` rounds. -/
def packetsLoop (data : Bytes) (rounds : ℕ) : Option (Except Exn (List Packet)) :=
  scan data.length (packetAt data) rounds 0

/-- `packets`; its loop ends within as many rounds as the data has bytes (`packetsLoop_ends`). -/
def packets (data : Bytes) : Except Exn (List Packet) := do
  let result ← (packetsLoop data data.length).getD (.error (.runtimeError "the loop does not end"))
  raiseIf (result = []) (.valueError "no OpenPGP packets")
  return result

/-- The length octets of a new-format packet. -/
def lengthOctets (length : ℕ) : Bytes :=
  if length < 192 then [UInt8.ofNat length]
  else if length < 8384 then
    [UInt8.ofNat (((length - 192) >>> 8) + 192), UInt8.ofNat ((length - 192) &&& 0xFF)]
  else 0xFF :: beBytes 4 length

/-- A new-format packet. -/
def packet (tag : ℕ) (body : Bytes) : Except Exn Bytes := do
  raiseIf (8384 ≤ body.length ∧ 2 ^ 32 ≤ body.length) (.structError "argument out of range")
  raiseIf (256 ≤ 0xC0 ||| tag) (.valueError "bytes must be in range(0, 256)")
  return [UInt8.ofNat (0xC0 ||| tag)] ++ lengthOctets body.length ++ body

/-! ## Headers -/

/-- The six forms of a header. -/
inductive IsHeader : (tag length : ℕ) → Bytes → Prop
  /-- the old format, with one, two or four bytes -/
  | old {tag code count length : ℕ} : tag < 16 → code < 3 → lengthBytes code = some count →
      length < 256 ^ count →
      IsHeader tag length ([UInt8.ofNat (0x80 + 4 * tag + code)] ++ beBytes count length)
  | one {tag length : ℕ} : tag < 64 → length < 192 →
      IsHeader tag length [UInt8.ofNat (0xC0 + tag), UInt8.ofNat length]
  | two {tag length : ℕ} : tag < 64 → 192 ≤ length → length < 8384 →
      IsHeader tag length [UInt8.ofNat (0xC0 + tag), UInt8.ofNat ((length - 192) / 256 + 192),
        UInt8.ofNat ((length - 192) % 256)]
  | five {tag length : ℕ} : tag < 64 → length < 2 ^ 32 →
      IsHeader tag length ([UInt8.ofNat (0xC0 + tag), 0xFF] ++ beBytes 4 length)

/-- The bytes of a packet: a whole header and the body that it announces. -/
def IsPacket (part : Bytes) (p : Packet) : Prop :=
  ∃ head, IsHeader p.1 p.2.length head ∧ part = head ++ p.2

theorem byteAt_eq_ok {data : Bytes} {i n : ℕ} (h : byteAt data i = .ok n) :
    i < data.length ∧ n < 256 ∧ data.getD i 0 = UInt8.ofNat n := by
  unfold byteAt at h
  cases hbyte : data[i]? with
  | none => simp [hbyte] at h
  | some byte =>
    obtain rfl : byte.toNat = n := by simpa [hbyte] using h
    obtain ⟨hi, -⟩ := List.getElem?_eq_some_iff.1 hbyte
    refine ⟨hi, byte.toNat_lt, ?_⟩
    rw [List.getD_eq_getElem?_getD, hbyte, Option.getD_some, UInt8.ofNat_toNat]

/-- The bits of a first byte. -/
theorem firstByte_old : ∀ first < 256, first &&& 0x80 ≠ 0 → first &&& 0x40 = 0 →
    (first >>> 2) &&& 0x0F < 16 ∧ first &&& 0x03 < 4 ∧
      first = 0x80 + 4 * ((first >>> 2) &&& 0x0F) + (first &&& 0x03) := by
  decide +kernel

theorem firstByte_new : ∀ first < 256, first &&& 0x80 ≠ 0 → first &&& 0x40 ≠ 0 →
    first &&& 0x3F < 64 ∧ first = 0xC0 + (first &&& 0x3F) := by
  decide +kernel

theorem firstByte_write : ∀ tag < 64, (0xC0 ||| tag) < 256 ∧ (0xC0 ||| tag) &&& 0x80 ≠ 0 ∧
    (0xC0 ||| tag) &&& 0x40 ≠ 0 ∧ (0xC0 ||| tag) &&& 0x3F = tag := by
  decide

theorem lengthBytes_cases {code count : ℕ} (h : lengthBytes code = some count) :
    code < 3 ∧ 0 < count := by
  unfold lengthBytes at h
  split_ifs at h with h0 h1 h2
  all_goals
    have := Option.some.inj h
    omega

/-- A header whose body fits is whole. -/
theorem header_eq_ok {data : Bytes} {offset tag start length : ℕ}
    (h : header data offset = .ok (tag, start, length)) (hfits : start + length ≤ data.length) :
    offset < start ∧ IsHeader tag length (slice data offset start) := by
  unfold header at h
  simp only [bind_eq_ok, exists_unit, raiseIf_eq_ok] at h
  obtain ⟨first, hfirst, hmark, h⟩ := h
  obtain ⟨hoffset, hsmall, hbyte⟩ := byteAt_eq_ok hfirst
  by_cases hformat : first &&& 0x40 = 0
  · rw [if_pos hformat] at h
    obtain ⟨htag, -, hsplit⟩ := firstByte_old first hsmall hmark hformat
    cases hcount : lengthBytes (first &&& 0x03) with
    | none => simp [hcount] at h
    | some count =>
      simp only [hcount, pure_eq_ok, Prod.mk.injEq] at h
      obtain ⟨rfl, rfl, rfl⟩ := h
      obtain ⟨hcode, hpos⟩ := lengthBytes_cases hcount
      refine ⟨by omega, ?_⟩
      set digits := slice data (offset + 1) (offset + 1 + count) with hdigits
      have hlength : digits.length = count := by
        rw [hdigits, length_slice (by omega)]
        omega
      have hbytes : beBytes count (beNat digits) = digits := by
        rw [← hlength, beBytes_beNat]
      have hlt : beNat digits < 256 ^ count := by
        have := leNat_lt digits.reverse
        rwa [List.length_reverse, hlength] at this
      have hhead := IsHeader.old htag hcode hcount hlt
      rw [← hsplit, hbytes, ← hbyte] at hhead
      rw [slice_cons (by omega) hoffset]
      exact hhead
  · rw [if_neg hformat] at h
    obtain ⟨htag, hsplit⟩ := firstByte_new first hsmall hmark hformat
    simp only [bind_eq_ok] at h
    obtain ⟨octet, hoctet, h⟩ := h
    obtain ⟨hnext, hoctetSmall, hoctetByte⟩ := byteAt_eq_ok hoctet
    split_ifs at h with hone htwo hfive
    · simp only [pure_eq_ok, Prod.mk.injEq] at h
      obtain ⟨rfl, rfl, rfl⟩ := h
      have hhead := IsHeader.one htag hone
      rw [← hsplit, ← hbyte, ← hoctetByte] at hhead
      refine ⟨by omega, ?_⟩
      rw [slice_cons (by omega) hoffset, slice_cons (by omega) hnext]
      simpa [slice] using hhead
    · simp only [bind_eq_ok, pure_eq_ok, Prod.mk.injEq] at h
      obtain ⟨second, hsecond, rfl, rfl, rfl⟩ := h
      obtain ⟨hthird, hsecondSmall, hsecondByte⟩ := byteAt_eq_ok hsecond
      have hvalue : ((octet - 192) <<< 8) + second + 192 = (octet - 192) * 256 + second + 192 := by
        rw [Nat.shiftLeft_eq]
      rw [hvalue]
      have hhead := @IsHeader.two (first &&& 0x3F) ((octet - 192) * 256 + second + 192) htag (by omega)
        (by omega)
      have hhigh : ((octet - 192) * 256 + second + 192 - 192) / 256 + 192 = octet := by omega
      have hlow : ((octet - 192) * 256 + second + 192 - 192) % 256 = second := by omega
      rw [hhigh, hlow, ← hsplit, ← hbyte, ← hoctetByte, ← hsecondByte] at hhead
      refine ⟨by omega, ?_⟩
      rw [slice_cons (by omega) hoffset, slice_cons (by omega) hnext, slice_cons (by omega) hthird]
      simpa [slice] using hhead
    · simp only [pure_eq_ok, Prod.mk.injEq] at h
      obtain ⟨rfl, rfl, rfl⟩ := h
      set digits := slice data (offset + 2) (offset + 6) with hdigits
      have hlength : digits.length = 4 := by
        rw [hdigits, length_slice (by omega)]
        omega
      have hbytes : beBytes 4 (beNat digits) = digits := by
        rw [← hlength, beBytes_beNat]
      have hlt : beNat digits < 2 ^ 32 := by
        have := leNat_lt digits.reverse
        rw [List.length_reverse, hlength] at this
        exact this
      have hhead := IsHeader.five htag hlt
      rw [hfive] at hoctetByte
      rw [← hsplit, hbytes, ← hbyte] at hhead
      refine ⟨by omega, ?_⟩
      rw [slice_cons (by omega) hoffset, slice_cons (by omega) hnext, hoctetByte]
      exact hhead

/-! ## Every byte string -/

/-- The exceptions of a header are value errors and index errors. -/
theorem header_eq_error {data : Bytes} {offset : ℕ} {e : Exn} (h : header data offset = .error e) :
    (∃ message, e = .valueError message) ∨ ∃ message, e = .indexError message := by
  have hbyteAt : ∀ {i : ℕ} {e : Exn}, byteAt data i = .error e → ∃ message, e = .indexError message := by
    intro i e hi
    unfold byteAt at hi
    cases hbyte : data[i]? with
    | none => exact ⟨_, by simpa [hbyte] using hi.symm⟩
    | some byte => simp [hbyte] at hi
  unfold header at h
  rcases bind_eq_error.1 h with hfirst | ⟨first, -, h⟩
  · exact .inr (hbyteAt hfirst)
  rcases bind_eq_error.1 h with hmark | ⟨_, -, h⟩
  · exact .inl ⟨_, (raiseIf_eq_error.1 hmark).2.symm⟩
  split_ifs at h with hformat
  · cases hcount : lengthBytes (first &&& 0x03) with
    | none =>
      simp only [hcount, Except.error.injEq] at h
      exact .inl ⟨_, h.symm⟩
    | some count => simp [hcount, pure, Except.pure] at h
  · rcases bind_eq_error.1 h with hoctet | ⟨octet, -, h⟩
    · exact .inr (hbyteAt hoctet)
    split_ifs at h with hone htwo hfive
    · cases h
    · rcases bind_eq_error.1 h with hsecond | ⟨second, -, h⟩
      · exact .inr (hbyteAt hsecond)
      · cases h
    · cases h
    · exact .inl ⟨_, (Except.error.inj h).symm⟩

theorem packetAt_eq_error {data : Bytes} {offset : ℕ} {e : Exn} (h : packetAt data offset = .error e) :
    ∃ message, e = .valueError message := by
  unfold packetAt headerOrTruncated at h
  rcases bind_eq_error.1 h with hheader | ⟨⟨tag, start, length⟩, -, h⟩
  · cases hread : header data offset with
    | ok result => simp [hread] at hheader
    | error e' =>
      rcases header_eq_error hread with ⟨message, rfl⟩ | ⟨message, rfl⟩
      · simp only [hread, Except.error.injEq] at hheader
        exact ⟨message, hheader.symm⟩
      · simp only [hread, Except.error.injEq] at hheader
        exact ⟨_, hheader.symm⟩
  · rcases bind_eq_error.1 h with hfits | ⟨_, -, h⟩
    · exact ⟨_, (raiseIf_eq_error.1 hfits).2.symm⟩
    · cases h

/-- A round takes a whole packet. -/
theorem packetAt_isPacket {data : Bytes} {offset next : ℕ} {p : Packet}
    (h : packetAt data offset = .ok (p, next)) :
    offset < next ∧ next ≤ data.length ∧ IsPacket (slice data offset next) p := by
  unfold packetAt at h
  simp only [bind_eq_ok, exists_unit, raiseIf_eq_ok, pure_eq_ok, not_lt, Prod.mk.injEq] at h
  obtain ⟨⟨tag, start, length⟩, hread, hfits, rfl, rfl⟩ := h
  have hheader : header data offset = .ok (tag, start, length) := by
    unfold headerOrTruncated at hread
    cases hread' : header data offset with
    | ok result => rwa [hread'] at hread
    | error e => cases e <;> simp [hread'] at hread
  simp only at hfits ⊢
  obtain ⟨hstart, hhead⟩ := header_eq_ok hheader hfits
  refine ⟨by omega, hfits, slice data offset start, ?_, ?_⟩
  · have hlength : (slice data start (start + length)).length = length := by
      rw [length_slice hfits]
      omega
    rw [hlength]
    exact hhead
  · rw [slice_append_slice data hstart.le (by omega)]

theorem packetsLoop_ends (data : Bytes) :
    ∃ result, packetsLoop data data.length = some result :=
  scan_ends (fun _ _ _ h => (packetAt_isPacket h).1) (by omega)

/-- Packets are read or rejected, and what is read tiles the data. -/
theorem packets_tile (data : Bytes) :
    (∃ message, packets data = .error (.valueError message)) ∨
      ∃ found parts, packets data = .ok found ∧ found ≠ [] ∧ data = parts.flatten ∧
        List.Forall₂ IsPacket parts found := by
  obtain ⟨result, hresult⟩ := packetsLoop_ends data
  unfold packets
  rw [hresult, Option.getD_some]
  cases result with
  | error e =>
    obtain ⟨offset, hoffset⟩ := scan_eq_error hresult
    obtain ⟨message, rfl⟩ := packetAt_eq_error hoffset
    exact .inl ⟨message, rfl⟩
  | ok found =>
    obtain ⟨parts, hparts, hforall⟩ := scan_tile (fun _ _ _ h => packetAt_isPacket h) hresult
    by_cases hempty : found = []
    · exact .inl ⟨_, by rw [ok_bind, raiseIf, if_pos hempty]; rfl⟩
    · refine .inr ⟨found, parts, ?_, hempty, hparts, hforall⟩
      rw [ok_bind, raiseIf_of_not hempty, ok_bind]
      rfl

/-! ## The round trip -/

/-- The packet that is written. -/
def packetBytes (p : Packet) : Bytes :=
  [UInt8.ofNat (0xC0 ||| p.1)] ++ lengthOctets p.2.length ++ p.2

theorem packet_eq_ok {p : Packet} (htag : p.1 < 64) (hbody : p.2.length < 2 ^ 32) :
    packet p.1 p.2 = .ok (packetBytes p) := by
  have hsmall := (firstByte_write p.1 htag).1
  rw [packet, raiseIf_of_not (by omega), ok_bind, raiseIf_of_not (by omega), ok_bind]
  rfl

theorem byteAt_of_drop {data : Bytes} {offset i : ℕ} {n : ℕ} (hn : n < 256)
    (h : (data.drop offset)[i]? = some (UInt8.ofNat n)) : byteAt data (offset + i) = .ok n := by
  rw [List.getElem?_drop] at h
  rw [byteAt, h, Except.ok.injEq, UInt8.toNat_ofNat']
  omega

/-- Reading a header that was written. -/
theorem header_packetBytes {data rest : Bytes} {p : Packet} {offset : ℕ} (htag : p.1 < 64)
    (hbody : p.2.length < 2 ^ 32) (hdata : data.drop offset = packetBytes p ++ rest) :
    header data offset =
      .ok (p.1, offset + 1 + (lengthOctets p.2.length).length, p.2.length) := by
  obtain ⟨tag, body⟩ := p
  simp only at htag hbody
  obtain ⟨hsmall, hmark, hformat, hread⟩ := firstByte_write tag htag
  have hfirst : byteAt data offset = .ok (0xC0 ||| tag) :=
    @byteAt_of_drop data offset 0 _ hsmall (by rw [hdata]; rfl)
  rw [header, hfirst, ok_bind, raiseIf_of_not hmark, ok_bind, if_neg hformat, hread]
  unfold packetBytes lengthOctets at hdata
  unfold lengthOctets
  simp only at hdata ⊢
  split_ifs at hdata ⊢ with hone htwo
  · have hoctet : byteAt data (offset + 1) = .ok body.length :=
      byteAt_of_drop (by omega) (by rw [hdata]; rfl)
    rw [hoctet, ok_bind, if_pos hone]
    rfl
  · have hhigh : ((body.length - 192) >>> 8) + 192 = (body.length - 192) / 256 + 192 := by
      rw [Nat.shiftRight_eq_div_pow]
    have hlow : (body.length - 192) &&& 0xFF = (body.length - 192) % 256 :=
      Nat.and_two_pow_sub_one_eq_mod _ 8
    rw [hhigh, hlow] at hdata
    have hoctet : byteAt data (offset + 1) = .ok ((body.length - 192) / 256 + 192) :=
      byteAt_of_drop (by omega) (by rw [hdata]; rfl)
    have hsecond : byteAt data (offset + 2) = .ok ((body.length - 192) % 256) :=
      byteAt_of_drop (by omega) (by rw [hdata]; rfl)
    have hvalue : (((body.length - 192) / 256 + 192 - 192) <<< 8) + (body.length - 192) % 256 + 192 =
        body.length := by
      rw [Nat.shiftLeft_eq]
      omega
    rw [hoctet, ok_bind, if_neg (by omega), if_pos (by omega), hsecond, ok_bind, hvalue]
    rfl
  · have hoctet : byteAt data (offset + 1) = .ok 255 :=
      byteAt_of_drop (by omega) (by rw [hdata]; rfl)
    have hdigits : slice data (offset + 2) (offset + 6) = beBytes 4 body.length := by
      have hparts : data.drop offset = [UInt8.ofNat (0xC0 ||| tag), 0xFF] ++
          (beBytes 4 body.length ++ (body ++ rest)) := by
        rw [hdata]
        simp only [List.append_assoc, List.cons_append, List.nil_append]
      rw [← slice_drop, hparts]
      exact slice_middle rfl (by rw [length_beBytes])
    rw [hoctet, ok_bind, if_neg (by omega), if_neg (by omega), if_pos rfl, hdigits,
      beNat_beBytes (by norm_num; omega)]
    rfl

/-- Reading a packet that was written. -/
theorem packetAt_packetBytes {data rest : Bytes} {p : Packet} {offset : ℕ} (htag : p.1 < 64)
    (hbody : p.2.length < 2 ^ 32) (hdata : data.drop offset = packetBytes p ++ rest) :
    packetAt data offset = .ok (p, offset + (packetBytes p).length) := by
  have hheader := header_packetBytes htag hbody hdata
  have hlength : (packetBytes p).length = 1 + (lengthOctets p.2.length).length + p.2.length := by
    simp only [packetBytes, List.length_append, List.length_singleton]
  have hinside : offset + (packetBytes p).length ≤ data.length := by
    have := congrArg List.length hdata
    rw [List.length_drop, List.length_append] at this
    omega
  have hslice : slice data (offset + 1 + (lengthOctets p.2.length).length)
      (offset + 1 + (lengthOctets p.2.length).length + p.2.length) = p.2 := by
    rw [packetBytes, List.append_assoc] at hdata
    rw [Nat.add_assoc offset, Nat.add_assoc offset, ← slice_drop, hdata]
    exact slice_middle (by rw [List.length_append, List.length_singleton]) rfl
  rw [packetAt, headerOrTruncated, hheader]
  simp only [ok_bind]
  rw [raiseIf_of_not (by omega), ok_bind, hslice]
  simp only [pure, Except.pure, hlength]
  rw [Nat.add_assoc offset, Nat.add_assoc offset]

theorem packetBytes_ne_nil (p : Packet) : packetBytes p ≠ [] := by
  simp [packetBytes]

theorem packets_packetBytes {items : List Packet} (hne : items ≠ [])
    (hitems : ∀ p ∈ items, p.1 < 64 ∧ p.2.length < 2 ^ 32) :
    packets (items.flatMap packetBytes) = .ok items := by
  have hloop : packetsLoop (items.flatMap packetBytes) (items.flatMap packetBytes).length =
      some (.ok (items.map id)) := by
    refine scan_flatMap (fun p hmem => ⟨packetBytes_ne_nil p, fun offset rest hdata => ?_⟩)
      (length_le_flatMap fun p _ => packetBytes_ne_nil p) List.drop_zero
    exact packetAt_packetBytes (hitems p hmem).1 (hitems p hmem).2 hdata
  rw [List.map_id] at hloop
  rw [packets, hloop, Option.getD_some, ok_bind, raiseIf_of_not hne, ok_bind]
  rfl

/-- **OpenPGP framing.**  What `packet` writes is read back by `packets`; and on every byte string
    `packets` raises a ValueError or returns packets whose whole headers and bodies tile the bytes. -/
theorem packets_round_trip :
    (∀ items : List Packet, items ≠ [] → (∀ p ∈ items, p.1 < 64 ∧ p.2.length < 2 ^ 32) →
      ∃ parts, items.mapM (fun p => packet p.1 p.2) = .ok parts ∧ packets parts.flatten = .ok items) ∧
    (∀ data : Bytes, (∃ result, packetsLoop data data.length = some result) ∧
      ((∃ message, packets data = .error (.valueError message)) ∨
        ∃ found parts, packets data = .ok found ∧ found ≠ [] ∧ data = parts.flatten ∧
          List.Forall₂ IsPacket parts found)) := by
  refine ⟨fun items hne hitems => ⟨items.map packetBytes, ?_, ?_⟩,
    fun data => ⟨packetsLoop_ends data, packets_tile data⟩⟩
  · exact mapM_eq_map fun p hmem => packet_eq_ok (hitems p hmem).1 (hitems p hmem).2
  · rw [← List.flatMap_def]
    exact packets_packetBytes hne hitems

/-- A user ID packet and an empty trust packet. -/
theorem packets_round_trip_example :
    ∃ parts, [(13, [0x61]), (12, [])].mapM (fun p : Packet => packet p.1 p.2) = .ok parts ∧
      packets parts.flatten = .ok [(13, [0x61]), (12, [])] :=
  packets_round_trip.1 [(13, [0x61]), (12, [])] (by decide) (by
    intro p hmem
    simp only [List.mem_cons, List.not_mem_nil, or_false] at hmem
    rcases hmem with rfl | rfl
    · decide
    · decide)

end RulesMkosi.OpenPgp
