/-
  Checksums and text encodings: ASCII, UTF-8, CRC-32, code page 437 and UTF-16.
-/
import RulesMkosi.Lib.Bytes
import RulesMkosi.Lib.Text

namespace RulesMkosi

/-! ## Hex -/

/-- The hex digit of a number below 16. -/
def hexDigit (n : ℕ) : Char :=
  if n < 10 then Char.ofNat (0x30 + n) else Char.ofNat (0x61 + (n - 10))

/-- `data.hex()` -/
def hex (data : Bytes) : Str :=
  data.flatMap fun b => [hexDigit (b.toNat / 16), hexDigit (b.toNat % 16)]

/-! ## ASCII -/

/-- `data.decode("ascii")` -/
def decodeAscii (data : Bytes) : Except Exn Str := do
  raiseIf (∃ b ∈ data, 0x80 ≤ b.toNat) (.unicodeError "'ascii' codec can't decode byte")
  return data.map fun b => Char.ofNat b.toNat

theorem decodeAscii_eq_ok {data : Bytes} {text : Str} :
    decodeAscii data = .ok text ↔
      (∀ b ∈ data, b.toNat < 0x80) ∧ text = data.map fun b => Char.ofNat b.toNat := by
  simp only [decodeAscii, bind_eq_ok, raiseIf_eq_ok, exists_unit, pure_eq_ok, not_exists, not_and,
    not_le]
  exact and_congr Iff.rfl eq_comm

/-! ## UTF-8 -/

/-- `text.encode("utf-8")` -/
def utf8Encode (text : Str) : Bytes := text.flatMap String.utf8EncodeChar

/-- `data.decode("utf-8")`; `none` where it raises -/
def utf8Decode (data : Bytes) : Option Str := data.toByteArray.utf8Decode?.map Array.toList

theorem utf8Encode_append (text rest : Str) :
    utf8Encode (text ++ rest) = utf8Encode text ++ utf8Encode rest := List.flatMap_append

@[simp] theorem utf8Decode_utf8Encode (text : Str) : utf8Decode (utf8Encode text) = some text := by
  have hencode : (utf8Encode text).toByteArray = text.utf8Encode := rfl
  rw [utf8Decode, hencode, List.utf8Decode?_utf8Encode]
  rfl

/-! ## CRC-32 -/

/-- One bit of the reflected CRC-32 register. -/
def crcBit (register : ℕ) : ℕ :=
  if register % 2 = 1 then (register / 2).xor 0xEDB88320 else register / 2

/-- The register after one byte. -/
def crcByte (register : ℕ) (byte : UInt8) : ℕ :=
  Nat.iterate crcBit 8 (register.xor byte.toNat)

/-- `zlib.crc32(data)` -/
def crc32 (data : Bytes) : ℕ := (data.foldl crcByte 0xFFFFFFFF).xor 0xFFFFFFFF

theorem crcBit_lt {register : ℕ} (h : register < 2 ^ 32) : crcBit register < 2 ^ 32 := by
  have hhalf : register / 2 < 2 ^ 32 := by omega
  unfold crcBit
  split_ifs
  · exact Nat.xor_lt_two_pow hhalf (by decide)
  · exact hhalf

theorem iterate_crcBit_lt : ∀ (n : ℕ) {register : ℕ}, register < 2 ^ 32 →
    Nat.iterate crcBit n register < 2 ^ 32
  | 0, _, h => h
  | n + 1, _, h => iterate_crcBit_lt n (crcBit_lt h)

theorem foldl_crcByte_lt : ∀ (data : Bytes) {register : ℕ}, register < 2 ^ 32 →
    data.foldl crcByte register < 2 ^ 32
  | [], _, h => h
  | b :: data, register, h => by
    have hbyte : b.toNat < 2 ^ 32 := b.toNat_lt.trans (by decide)
    exact foldl_crcByte_lt data (iterate_crcBit_lt 8 (Nat.xor_lt_two_pow h hbyte))

/-- The checksum fits its field of four bytes. -/
theorem crc32_lt (data : Bytes) : crc32 data < 2 ^ 32 :=
  Nat.xor_lt_two_pow (foldl_crcByte_lt data (by decide)) (by decide)

/-! ## Code page 437 -/

/-- The characters of the bytes from 0x80. -/
def cp437High : List ℕ :=
  [0xC7, 0xFC, 0xE9, 0xE2, 0xE4, 0xE0, 0xE5, 0xE7, 0xEA, 0xEB, 0xE8, 0xEF, 0xEE, 0xEC, 0xC4,
    0xC5, 0xC9, 0xE6, 0xC6, 0xF4, 0xF6, 0xF2, 0xFB, 0xF9, 0xFF, 0xD6, 0xDC, 0xA2, 0xA3, 0xA5,
    0x20A7, 0x192, 0xE1, 0xED, 0xF3, 0xFA, 0xF1, 0xD1, 0xAA, 0xBA, 0xBF, 0x2310, 0xAC, 0xBD,
    0xBC, 0xA1, 0xAB, 0xBB, 0x2591, 0x2592, 0x2593, 0x2502, 0x2524, 0x2561, 0x2562, 0x2556,
    0x2555, 0x2563, 0x2551, 0x2557, 0x255D, 0x255C, 0x255B, 0x2510, 0x2514, 0x2534, 0x252C,
    0x251C, 0x2500, 0x253C, 0x255E, 0x255F, 0x255A, 0x2554, 0x2569, 0x2566, 0x2560, 0x2550,
    0x256C, 0x2567, 0x2568, 0x2564, 0x2565, 0x2559, 0x2558, 0x2552, 0x2553, 0x256B, 0x256A,
    0x2518, 0x250C, 0x2588, 0x2584, 0x258C, 0x2590, 0x2580, 0x3B1, 0xDF, 0x393, 0x3C0, 0x3A3,
    0x3C3, 0xB5, 0x3C4, 0x3A6, 0x398, 0x3A9, 0x3B4, 0x221E, 0x3C6, 0x3B5, 0x2229, 0x2261, 0xB1,
    0x2265, 0x2264, 0x2320, 0x2321, 0xF7, 0x2248, 0xB0, 0x2219, 0xB7, 0x221A, 0x207F, 0xB2,
    0x25A0, 0xA0]

def cp437Char (byte : UInt8) : Char :=
  if byte.toNat < 0x80 then Char.ofNat byte.toNat
  else Char.ofNat (cp437High.getD (byte.toNat - 0x80) 0)

/-- `data.decode("cp437")` -/
def decodeCp437 (data : Bytes) : Str := data.map cp437Char

/-! ## UTF-16 -/

/-- The 16-bit units of a little-endian text; a last odd byte is left out. -/
def utf16Units : Bytes → List ℕ
  | a :: b :: rest => (a.toNat + 256 * b.toNat) :: utf16Units rest
  | _ => []

def isHighSurrogate (unit : ℕ) : Bool := 0xD800 ≤ unit ∧ unit < 0xDC00

def isLowSurrogate (unit : ℕ) : Bool := 0xDC00 ≤ unit ∧ unit < 0xE000

/-- The character of a surrogate pair. -/
def surrogatePair (high low : ℕ) : Char :=
  Char.ofNat (0x10000 + (high - 0xD800) * 0x400 + (low - 0xDC00))

/-- The characters of UTF-16 units; `none` stands for a unit that is ill-formed. -/
def utf16Chars : List ℕ → List (Option Char)
  | [] => []
  | unit :: rest =>
    if isHighSurrogate unit then
      match rest with
      | low :: rest' =>
        if isLowSurrogate low then some (surrogatePair unit low) :: utf16Chars rest'
        else none :: utf16Chars (low :: rest')
      | [] => [none]
    else if isLowSurrogate unit then none :: utf16Chars rest
    else some (Char.ofNat unit) :: utf16Chars rest

/-- `data.decode("utf-16-le", errors="replace")` for an even number of bytes -/
def decodeUtf16Replace (data : Bytes) : Str :=
  (utf16Chars (utf16Units data)).map (·.getD (Char.ofNat 0xFFFD))

/-- `data.decode("utf-16-le")` for an even number of bytes; `none` where it raises -/
def decodeUtf16 (data : Bytes) : Option Str := (utf16Chars (utf16Units data)).mapM id

/-- The units of a character: one, or a surrogate pair. -/
def charUnits (c : Char) : List ℕ :=
  if c.toNat < 0x10000 then [c.toNat]
  else [0xD800 + (c.toNat - 0x10000) / 0x400, 0xDC00 + (c.toNat - 0x10000) % 0x400]

/-- `text.encode("utf-16-le")`, as units -/
def textUnits (text : Str) : List ℕ := text.flatMap charUnits

/-- The bytes of units. -/
def unitBytes (units : List ℕ) : Bytes := units.flatMap (leBytes 2)

/-- The scalar values. -/
theorem char_range (c : Char) : c.toNat < 0xD800 ∨ 0xDFFF < c.toNat ∧ c.toNat < 0x110000 := c.valid

theorem charUnits_lt {c : Char} {unit : ℕ} (h : unit ∈ charUnits c) : unit < 2 ^ 16 := by
  have hrange := char_range c
  unfold charUnits at h
  split_ifs at h
  · rw [List.mem_singleton.1 h]
    omega
  · simp only [List.mem_cons, List.not_mem_nil, or_false] at h
    omega

theorem utf16Chars_charUnits (c : Char) (rest : List ℕ) :
    utf16Chars (charUnits c ++ rest) = some c :: utf16Chars rest := by
  have hrange := char_range c
  unfold charUnits
  split_ifs with hone
  · have hhigh : isHighSurrogate c.toNat = false := by simp [isHighSurrogate]; omega
    have hlow : isLowSurrogate c.toNat = false := by simp [isLowSurrogate]; omega
    rw [List.singleton_append, utf16Chars.eq_def]
    simp [hhigh, hlow]
  · have hhigh : isHighSurrogate (0xD800 + (c.toNat - 0x10000) / 0x400) = true := by
      simp [isHighSurrogate]; omega
    have hlow : isLowSurrogate (0xDC00 + (c.toNat - 0x10000) % 0x400) = true := by
      simp [isLowSurrogate]; omega
    have hchar : surrogatePair (0xD800 + (c.toNat - 0x10000) / 0x400)
        (0xDC00 + (c.toNat - 0x10000) % 0x400) = c := by
      have hvalue : 0x10000 + (0xD800 + (c.toNat - 0x10000) / 0x400 - 0xD800) * 0x400 +
          (0xDC00 + (c.toNat - 0x10000) % 0x400 - 0xDC00) = c.toNat := by omega
      rw [surrogatePair, hvalue, Char.ofNat_toNat]
    rw [List.cons_append, List.singleton_append, utf16Chars.eq_def]
    simp [hhigh, hlow, hchar]

/-- Whatever follows a text, its units are read as the text. -/
theorem utf16Chars_textUnits (text : Str) (rest : List ℕ) :
    utf16Chars (textUnits text ++ rest) = text.map some ++ utf16Chars rest := by
  induction text with
  | nil => rfl
  | cons c text ih =>
    have hcons : textUnits (c :: text) = charUnits c ++ textUnits text := rfl
    rw [hcons, List.append_assoc, utf16Chars_charUnits, ih]
    rfl

theorem utf16Units_unitBytes : ∀ {units : List ℕ}, (∀ unit ∈ units, unit < 2 ^ 16) →
    utf16Units (unitBytes units) = units
  | [], _ => rfl
  | unit :: units, h => by
    have hunit := h unit List.mem_cons_self
    have ih : utf16Units (unitBytes units) = units :=
      utf16Units_unitBytes fun u hu => h u (List.mem_cons_of_mem _ hu)
    have hvalue : (UInt8.ofNat unit).toNat + 256 * (UInt8.ofNat (unit / 256)).toNat = unit := by
      simp only [UInt8.toNat_ofNat']
      omega
    have hcons : unitBytes (unit :: units) =
        UInt8.ofNat unit :: UInt8.ofNat (unit / 256) :: unitBytes units := rfl
    rw [hcons, utf16Units, ih, hvalue]

theorem textUnits_lt {text : Str} {unit : ℕ} (h : unit ∈ textUnits text) : unit < 2 ^ 16 := by
  obtain ⟨c, -, hc⟩ := List.mem_flatMap.1 h
  exact charUnits_lt hc

/-- Decoding returns the encoded text, then what the units after it stand for. -/
theorem decodeUtf16Replace_text (text : Str) {rest : List ℕ} (h : ∀ unit ∈ rest, unit < 2 ^ 16) :
    decodeUtf16Replace (unitBytes (textUnits text ++ rest)) =
      text ++ decodeUtf16Replace (unitBytes rest) := by
  have hunits : ∀ unit ∈ textUnits text ++ rest, unit < 2 ^ 16 := by
    intro unit hunit
    rcases List.mem_append.1 hunit with hunit | hunit
    · exact textUnits_lt hunit
    · exact h unit hunit
  rw [decodeUtf16Replace, decodeUtf16Replace, utf16Units_unitBytes hunits,
    utf16Units_unitBytes h, utf16Chars_textUnits, List.map_append, List.map_map]
  congr 1
  exact List.map_id text

end RulesMkosi
