/-
  SHA-256 in Starlark (`mkosi/private/sha256.bzl`).

  Starlark has unbounded integers; the code masks them by hand.  Numbers below `2 ^ 32` stand
  for words, every step of the code computes the number of the word that the standard
  computes, and so the digests agree (`sha256Hex_eq_spec`).
-/
import Mathlib.Data.Int.Bitwise
import RulesMkosi.Lib.Bytes
import RulesMkosi.Lib.Dict
import RulesMkosi.Lib.Fips180

namespace RulesMkosi.Sha256

open Fips180 (Registers)

/-! ## The code -/

/-- `_MASK` -/
def mask : ℕ := 0xffffffff

/-- `_ROUND_CONSTANTS` -/
def roundConstants : List ℕ :=
  [0x428a2f98, 0x71374491, 0xb5c0fbcf, 0xe9b5dba5, 0x3956c25b, 0x59f111f1, 0x923f82a4, 0xab1c5ed5,
    0xd807aa98, 0x12835b01, 0x243185be, 0x550c7dc3, 0x72be5d74, 0x80deb1fe, 0x9bdc06a7, 0xc19bf174,
    0xe49b69c1, 0xefbe4786, 0x0fc19dc6, 0x240ca1cc, 0x2de92c6f, 0x4a7484aa, 0x5cb0a9dc, 0x76f988da,
    0x983e5152, 0xa831c66d, 0xb00327c8, 0xbf597fc7, 0xc6e00bf3, 0xd5a79147, 0x06ca6351, 0x14292967,
    0x27b70a85, 0x2e1b2138, 0x4d2c6dfc, 0x53380d13, 0x650a7354, 0x766a0abb, 0x81c2c92e, 0x92722c85,
    0xa2bfe8a1, 0xa81a664b, 0xc24b8b70, 0xc76c51a3, 0xd192e819, 0xd6990624, 0xf40e3585, 0x106aa070,
    0x19a4c116, 0x1e376c08, 0x2748774c, 0x34b0bcb5, 0x391c0cb3, 0x4ed8aa4a, 0x5b9cca4f, 0x682e6ff3,
    0x748f82ee, 0x78a5636f, 0x84c87814, 0x8cc70208, 0x90befffa, 0xa4506ceb, 0xbef9a3f7, 0xc67178f2]

/-- `_INITIAL_STATE` -/
def initialState : Registers ℕ :=
  ⟨0x6a09e667, 0xbb67ae85, 0x3c6ef372, 0xa54ff53a, 0x510e527f, 0x9b05688c, 0x1f83d9ab, 0x5be0cd19⟩

/-- `_BYTE_VALUES`: the 256 characters of `_BYTES` and their positions -/
def byteValues : Dict Char ℕ := ((List.range 256).map Char.ofNat).zipIdx

/-- `_HEX_DIGITS` -/
def hexDigits : List Char := "0123456789abcdef".toList

/-- `range(28, -4, -4)` -/
def hexShifts : List ℕ := [28, 24, 20, 16, 12, 8, 4, 0]

def hex32 (value : ℕ) : List Char :=
  hexShifts.map fun shift => hexDigits.getD ((value >>> shift) &&& 0xf) '0'

def rotateRight (value count : ℕ) : ℕ := ((value >>> count) ||| (value <<< (32 - count))) &&& mask

/-- `range(56, -8, -8)` -/
def lengthShifts : List ℕ := [56, 48, 40, 32, 24, 16, 8, 0]

/-- The bytes of data followed by the SHA-256 padding and bit length. -/
def paddedMessage (data : String) : Except String (List ℕ) := do
  let message ← data.toList.mapM fun character =>
    match Dict.get byteValues character with
    | some value => .ok value
    | none => .error "sha256_hex input must be a byte string"
  let bitLength := message.length * 8
  let message := message ++ [0x80]
  let message := message ++ List.replicate (((56 : ℤ) - (message.length % 64 : ℕ)) % 64).toNat 0
  return message ++ lengthShifts.map fun shift => (bitLength >>> shift) &&& 0xff

/-- The word at an index of the block at the offset. -/
def blockWord (message : List ℕ) (offset index : ℕ) : ℕ :=
  (message.getD (offset + 4 * index) 0 <<< 24) ||| (message.getD (offset + 4 * index + 1) 0 <<< 16) |||
    (message.getD (offset + 4 * index + 2) 0 <<< 8) ||| message.getD (offset + 4 * index + 3) 0

def sigma0 (previous : ℕ) : ℕ := rotateRight previous 7 ^^^ rotateRight previous 18 ^^^ (previous >>> 3)

def sigma1 (recent : ℕ) : ℕ := rotateRight recent 17 ^^^ rotateRight recent 19 ^^^ (recent >>> 10)

/-- The second loop of `_message_schedule`, at an index. -/
def extendSchedule (schedule : List ℕ) (index : ℕ) : List ℕ :=
  schedule ++ [(schedule.getD (index - 16) 0 + sigma0 (schedule.getD (index - 15) 0) +
    schedule.getD (index - 7) 0 + sigma1 (schedule.getD (index - 2) 0)) &&& mask]

/-- The 64 schedule words of the 64-byte block at the offset. -/
def messageSchedule (message : List ℕ) (offset : ℕ) : List ℕ :=
  (List.range' 16 48).foldl extendSchedule ((List.range 16).map (blockWord message offset))

/-- `(e & f) ^ (~e & _MASK & g)` -/
def choice (e f g : ℕ) : ℕ := (e &&& f) ^^^ (Int.land (Int.land (Int.lnot e) mask) g).toNat

/-- The loop of `_compress`, at an index. -/
def compressRound (schedule : List ℕ) (r : Registers ℕ) (index : ℕ) : Registers ℕ :=
  let sum1 := rotateRight r.e 6 ^^^ rotateRight r.e 11 ^^^ rotateRight r.e 25
  let first := (r.h + sum1 + choice r.e r.f r.g + roundConstants.getD index 0 + schedule.getD index 0) &&&
    mask
  let sum0 := rotateRight r.a 2 ^^^ rotateRight r.a 13 ^^^ rotateRight r.a 22
  let majority := (r.a &&& r.b) ^^^ (r.a &&& r.c) ^^^ (r.b &&& r.c)
  let second := (sum0 + majority) &&& mask
  ⟨(first + second) &&& mask, r.a, r.b, r.c, (r.d + first) &&& mask, r.e, r.f, r.g⟩

/-- The state after processing one block's schedule. -/
def compress (state : Registers ℕ) (schedule : List ℕ) : Registers ℕ :=
  let r := (List.range 64).foldl (compressRound schedule) state
  ⟨(state.a + r.a) &&& mask, (state.b + r.b) &&& mask, (state.c + r.c) &&& mask, (state.d + r.d) &&& mask,
    (state.e + r.e) &&& mask, (state.f + r.f) &&& mask, (state.g + r.g) &&& mask, (state.h + r.h) &&& mask⟩

/-- The lowercase hexadecimal SHA-256 digest of a byte string. -/
def sha256Hex (data : String) : Except String String := do
  let message ← paddedMessage data
  -- `range(0, len(message), 64)`
  let offsets := (List.range ((message.length + 63) / 64)).map (64 * ·)
  let state := offsets.foldl (fun state offset => compress state (messageSchedule message offset))
    initialState
  return String.ofList (state.toList.flatMap hex32)

/-! ## Words -/

theorem and_mask (n : ℕ) : n &&& mask = n % 2 ^ 32 := Nat.and_two_pow_sub_one_eq_mod n 32

section
variable (x y z : Fips180.Word)

theorem rotateRight_toNat {count : ℕ} : rotateRight x.toNat count = (Fips180.rotr count x).toNat := by
  have hsmall : x.toNat >>> count < 2 ^ 32 := (Nat.shiftRight_le _ _).trans_lt x.isLt
  rw [rotateRight, and_mask, Nat.or_mod_two_pow, Nat.mod_eq_of_lt hsmall, Fips180.rotr, BitVec.toNat_or,
    BitVec.toNat_ushiftRight, BitVec.toNat_shiftLeft]

theorem sigma0_toNat : sigma0 x.toNat = (Fips180.smallSigma0 x).toNat := by
  simp only [sigma0, rotateRight_toNat, Fips180.smallSigma0, Fips180.shr, BitVec.toNat_xor,
    BitVec.toNat_ushiftRight]

theorem sigma1_toNat : sigma1 x.toNat = (Fips180.smallSigma1 x).toNat := by
  simp only [sigma1, rotateRight_toNat, Fips180.smallSigma1, Fips180.shr, BitVec.toNat_xor,
    BitVec.toNat_ushiftRight]

theorem sum0_toNat : rotateRight x.toNat 2 ^^^ rotateRight x.toNat 13 ^^^ rotateRight x.toNat 22 =
    (Fips180.bigSigma0 x).toNat := by
  simp only [rotateRight_toNat, Fips180.bigSigma0, BitVec.toNat_xor]

theorem sum1_toNat : rotateRight x.toNat 6 ^^^ rotateRight x.toNat 11 ^^^ rotateRight x.toNat 25 =
    (Fips180.bigSigma1 x).toNat := by
  simp only [rotateRight_toNat, Fips180.bigSigma1, BitVec.toNat_xor]

theorem majority_toNat : (x.toNat &&& y.toNat) ^^^ (x.toNat &&& z.toNat) ^^^ (y.toNat &&& z.toNat) =
    (Fips180.maj x y z).toNat := by
  simp only [Fips180.maj, BitVec.toNat_xor, BitVec.toNat_and]

theorem add_and_mask : (x.toNat + y.toNat) &&& mask = (x + y).toNat := by
  rw [and_mask, BitVec.toNat_add]

/-- Numbers may be added before they are masked. -/
theorem add_add_and_mask (n : ℕ) : (x.toNat + y.toNat + n) &&& mask = ((x + y).toNat + n) &&& mask := by
  rw [and_mask, and_mask, BitVec.toNat_add, Nat.mod_add_mod]

/-- The complement of an unbounded integer, masked, is that of the word. -/
theorem complement_toNat : Int.land (Int.lnot x.toNat) mask = ((~~~x).toNat : ℤ) := by
  have hldiff : Int.land (Int.lnot x.toNat) mask = (Nat.ldiff mask x.toNat : ℤ) := rfl
  rw [hldiff, Int.ofNat_inj]
  refine Nat.eq_of_testBit_eq fun i => ?_
  have hmask : mask.testBit i = decide (i < 32) := Nat.testBit_two_pow_sub_one 32 i
  rw [Nat.testBit_ldiff, BitVec.testBit_toNat, BitVec.testBit_toNat, BitVec.getLsbD_not, hmask]

theorem choice_toNat : choice x.toNat y.toNat z.toNat = (Fips180.ch x y z).toNat := by
  have hland : ∀ m n : ℕ, Int.land m n = ((m &&& n : ℕ) : ℤ) := fun m n => rfl
  rw [choice, complement_toNat, hland, Int.toNat_natCast, Fips180.ch, BitVec.toNat_xor, BitVec.toNat_and,
    BitVec.toNat_and]

end

/-! ## Rounds -/

/-- The numbers of the words in the registers. -/
def numbers (r : Registers Fips180.Word) : Registers ℕ := r.map BitVec.toNat

theorem roundConstants_lt : ∀ k ∈ roundConstants, k < 2 ^ 32 := by decide

theorem roundConstant_toNat (index : ℕ) :
    roundConstants.getD index 0 = (BitVec.ofNat 32 (Fips180.constants.getD index 0)).toNat := by
  have hsame : Fips180.constants = roundConstants := rfl
  rw [hsame, BitVec.toNat_ofNat, Nat.mod_eq_of_lt]
  rw [List.getD_eq_getElem?_getD]
  cases hget : roundConstants[index]? with
  | none => simp
  | some k => exact roundConstants_lt k (List.mem_of_getElem? hget)

/-- **One round.**  The code computes the numbers of the words that the standard computes. -/
theorem compressRound_numbers {schedule : List ℕ} {w : ℕ → Fips180.Word} {index : ℕ}
    (hw : schedule.getD index 0 = (w index).toNat) (r : Registers Fips180.Word) :
    compressRound schedule (numbers r) index = numbers (Fips180.round w r index) := by
  have hfirst : (r.h.toNat + (Fips180.bigSigma1 r.e).toNat + (Fips180.ch r.e r.f r.g).toNat +
      (BitVec.ofNat 32 (Fips180.constants.getD index 0)).toNat + (w index).toNat) &&& mask =
      (r.h + Fips180.bigSigma1 r.e + Fips180.ch r.e r.f r.g +
        BitVec.ofNat 32 (Fips180.constants.getD index 0) + w index).toNat := by
    rw [Nat.add_assoc _ _ (w index).toNat, Nat.add_assoc _ _ (_ + _), add_add_and_mask, ← Nat.add_assoc,
      add_add_and_mask, ← Nat.add_assoc, add_add_and_mask, add_and_mask]
  simp only [compressRound, numbers, Registers.map, Fips180.round, sum0_toNat, sum1_toNat, choice_toNat,
    majority_toNat, roundConstant_toNat, hw, hfirst, add_and_mask]

theorem foldl_numbers {schedule : List ℕ} {w : ℕ → Fips180.Word} {indexes : List ℕ}
    (hw : ∀ index ∈ indexes, schedule.getD index 0 = (w index).toNat) (r : Registers Fips180.Word) :
    indexes.foldl (compressRound schedule) (numbers r) = numbers (indexes.foldl (Fips180.round w) r) := by
  induction indexes generalizing r with
  | nil => rfl
  | cons index indexes ih =>
    obtain ⟨hfirst, hrest⟩ := List.forall_mem_cons.1 hw
    rw [List.foldl_cons, List.foldl_cons, compressRound_numbers hfirst, ih hrest]

theorem compress_numbers {schedule : List ℕ} {block : ℕ → Fips180.Word}
    (hw : ∀ t < 64, schedule.getD t 0 = (Fips180.schedule block t).toNat) (state : Registers Fips180.Word) :
    compress (numbers state) schedule = numbers (Fips180.compress state block) := by
  have hrounds := foldl_numbers (fun t ht => hw t (List.mem_range.1 ht)) state
  rw [compress, hrounds, Fips180.compress]
  simp only [numbers, Registers.map, Registers.add, add_and_mask, BitVec.add_comm]

/-! ## The schedule -/

theorem getD_map_range {α : Type*} {n i : ℕ} (f : ℕ → α) (default : α) (h : i < n) :
    ((List.range n).map f).getD i default = f i := by
  rw [List.getD_eq_getElem?_getD, List.getElem?_map, List.getElem?_range h]
  rfl

/-- The schedule after some extensions. -/
theorem foldl_extendSchedule {block : ℕ → Fips180.Word} (n : ℕ) :
    (List.range' 16 n).foldl extendSchedule ((List.range 16).map fun t => (block t).toNat) =
      (List.range (16 + n)).map fun t => (Fips180.schedule block t).toNat := by
  induction n with
  | zero =>
    refine List.map_congr_left fun t ht => ?_
    rw [Fips180.schedule_of_lt (List.mem_range.1 ht)]
  | succ n ih =>
    rw [List.range'_concat, List.foldl_append, ih, ← Nat.add_assoc, List.range_succ, List.map_append]
    simp only [List.foldl_cons, List.foldl_nil, Nat.one_mul, extendSchedule, List.map_cons, List.map_nil]
    congr 2
    rw [getD_map_range _ _ (by omega), getD_map_range _ _ (by omega), getD_map_range _ _ (by omega),
      getD_map_range _ _ (by omega), sigma0_toNat, sigma1_toNat,
      Fips180.schedule_of_le (Nat.le_add_right 16 n), Nat.add_assoc _ _ (Fips180.smallSigma1 _).toNat,
      add_add_and_mask, ← Nat.add_assoc, add_add_and_mask, add_and_mask]
    congr 1
    ac_rfl

theorem messageSchedule_getD {message : List ℕ} {offset : ℕ} {block : ℕ → Fips180.Word}
    (hblock : ∀ index < 16, blockWord message offset index = (block index).toNat) {t : ℕ} (ht : t < 64) :
    (messageSchedule message offset).getD t 0 = (Fips180.schedule block t).toNat := by
  have hfirst : (List.range 16).map (blockWord message offset) =
      (List.range 16).map fun t => (block t).toNat :=
    List.map_congr_left fun index hindex => hblock index (List.mem_range.1 hindex)
  rw [messageSchedule, hfirst, foldl_extendSchedule, getD_map_range _ _ ht]

/-! ## Messages -/

/-- The bits of a byte string. -/
def bytesBits (data : Bytes) : List Bool := data.flatMap fun b => Fips180.natBits 8 b.toNat

/-- The padded message of the code, as bytes. -/
def paddedBytes (data : Bytes) : Bytes :=
  data ++ [0x80] ++ zeros ((56 + 64 - (data.length + 1) % 64) % 64) ++ beBytes 8 (data.length * 8)

theorem bytesBits_append (left right : Bytes) :
    bytesBits (left ++ right) = bytesBits left ++ bytesBits right := List.flatMap_append

theorem length_bytesBits (data : Bytes) : (bytesBits data).length = 8 * data.length := by
  induction data with
  | nil => rfl
  | cons b data ih =>
    rw [bytesBits, List.flatMap_cons, List.length_append, Fips180.length_natBits, ← bytesBits, ih,
      List.length_cons]
    omega

/-- Bytes and bits denote the same number. -/
theorem bitsNat_bytesBits (data : Bytes) : Fips180.bitsNat (bytesBits data) = beNat data := by
  induction data with
  | nil => rfl
  | cons b data ih =>
    have hbyte : Fips180.bitsNat (Fips180.natBits 8 b.toNat) = b.toNat := by
      rw [Fips180.bitsNat_natBits, Nat.mod_eq_of_lt b.toNat_lt]
    rw [bytesBits, List.flatMap_cons, ← bytesBits, Fips180.bitsNat_append, ih, hbyte, length_bytesBits,
      beNat_cons, pow_mul]
    norm_num

theorem bytesBits_drop (data : Bytes) (n : ℕ) : (bytesBits data).drop (8 * n) = bytesBits (data.drop n) := by
  by_cases hn : n ≤ data.length
  · conv_lhs => rw [← List.take_append_drop n data, bytesBits_append]
    refine List.drop_left' ?_
    rw [length_bytesBits, List.length_take, Nat.min_eq_left hn]
  · rw [List.drop_eq_nil_of_le (by rw [length_bytesBits]; omega), List.drop_eq_nil_of_le (by omega)]
    rfl

theorem bytesBits_take (data : Bytes) (n : ℕ) : (bytesBits data).take (8 * n) = bytesBits (data.take n) := by
  by_cases hn : n ≤ data.length
  · conv_lhs => rw [← List.take_append_drop n data, bytesBits_append]
    refine List.take_left' ?_
    rw [length_bytesBits, List.length_take, Nat.min_eq_left hn]
  · rw [List.take_of_length_le (by rw [length_bytesBits]; omega), List.take_of_length_le (by omega)]

theorem bytesBits_zeros (n : ℕ) : bytesBits (zeros n) = List.replicate (8 * n) false := by
  induction n with
  | zero => rfl
  | succ n ih =>
    rw [zeros, List.replicate_succ, bytesBits, List.flatMap_cons, ← bytesBits, ← zeros, ih, Nat.mul_succ,
      Nat.add_comm, List.replicate_add]
    rfl

theorem bytesBits_beBytes {n k : ℕ} (h : k < 256 ^ n) :
    bytesBits (beBytes n k) = Fips180.natBits (8 * n) k := by
  have hbits := Fips180.natBits_bitsNat (bytesBits (beBytes n k))
  rw [bitsNat_bytesBits, beNat_beBytes h, length_bytesBits, length_beBytes] at hbits
  exact hbits.symm

/-- The padding of the code is that of the standard. -/
theorem pad_bytesBits {data : Bytes} (h : data.length < 2 ^ 61) :
    Fips180.pad (bytesBits data) = bytesBits (paddedBytes data) := by
  have hmarker : bytesBits [0x80] = [true] ++ List.replicate 7 false := by decide
  have hzeros : Fips180.zeroBits (8 * data.length) = 7 + 8 * ((56 + 64 - (data.length + 1) % 64) % 64) := by
    unfold Fips180.zeroBits
    omega
  rw [Fips180.pad, length_bytesBits, paddedBytes, bytesBits_append, bytesBits_append, bytesBits_append,
    hmarker, bytesBits_zeros, bytesBits_beBytes (by norm_num; omega), hzeros, List.replicate_add,
    Nat.mul_comm data.length]
  simp only [List.append_assoc]

theorem length_paddedBytes (data : Bytes) : (paddedBytes data).length % 64 = 0 := by
  simp only [paddedBytes, List.length_append, List.length_singleton, length_zeros, length_beBytes]
  omega

/-- A byte string as Bazel reads it. -/
def latin1 (data : Bytes) : String := String.ofList (data.map fun b => Char.ofNat b.toNat)

theorem toNat_ofNat {n : ℕ} (h : n < 256) : (Char.ofNat n).toNat = n := by
  have hvalid : n.isValidChar := .inl (by omega)
  rw [Char.ofNat, dif_pos hvalid]
  rfl

theorem get_zipIdx {n : ℕ} (hn : n < 256) : ∀ {count start : ℕ}, start + count ≤ 256 → start ≤ n →
    n < start + count →
    Dict.get (((List.range' start count).map Char.ofNat).zipIdx start) (Char.ofNat n) = some n
  | 0, start, _, hle, hlt => absurd hlt (by omega)
  | count + 1, start, hbound, hle, hlt => by
    rw [List.range'_succ, List.map_cons, List.zipIdx_cons, Dict.get]
    by_cases heq : start = n
    · rw [if_pos (by rw [heq]), heq]
    · have hne : Char.ofNat start ≠ Char.ofNat n := by
        intro hchar
        have := congrArg Char.toNat hchar
        rw [toNat_ofNat (by omega), toNat_ofNat hn] at this
        exact heq this
      rw [if_neg hne, get_zipIdx hn (by omega) (by omega) (by omega)]

theorem get_byteValues (n : ℕ) (hn : n < 256) : Dict.get byteValues (Char.ofNat n) = some n := by
  rw [byteValues, List.range_eq_range']
  exact get_zipIdx hn (by omega) (by omega) (by omega)

theorem lengthBytes_eq (n : ℕ) :
    (lengthShifts.map fun shift => (n >>> shift) &&& 0xff) = (beBytes 8 n).map UInt8.toNat := by
  have hand : ∀ k, k &&& 0xff = k % 256 := fun k => Nat.and_two_pow_sub_one_eq_mod k 8
  simp only [lengthShifts, beBytes, leBytes, List.map_cons, List.map_nil, List.reverse_cons,
    List.reverse_nil, List.nil_append, List.cons_append, UInt8.toNat_ofNat', hand,
    Nat.shiftRight_eq_div_pow, Nat.div_div_eq_div_mul]
  norm_num

/-- The padded message of the code. -/
theorem paddedMessage_latin1 (data : Bytes) :
    paddedMessage (latin1 data) = .ok ((paddedBytes data).map UInt8.toNat) := by
  have hvalues : (latin1 data).toList.mapM (fun character =>
      match Dict.get byteValues character with
      | some value => Except.ok value
      | none => .error "sha256_hex input must be a byte string") = .ok (data.map UInt8.toNat) := by
    rw [latin1, String.toList_ofList, List.mapM_map]
    refine mapM_eq_map fun b _ => ?_
    rw [Function.comp_apply, get_byteValues b.toNat b.toNat_lt]
  have hzeros : (((56 : ℤ) - ((data.length + 1) % 64 : ℕ)) % 64).toNat =
      (56 + 64 - (data.length + 1) % 64) % 64 := by omega
  rw [paddedMessage, hvalues, ok_bind]
  simp only [List.length_append, List.length_map, List.length_singleton, hzeros, lengthBytes_eq, paddedBytes,
    List.map_append, zeros, List.map_replicate]
  rfl

/-- Four bytes make a word. -/
theorem bytes_or {m0 m1 m2 m3 : ℕ} (h1 : m1 < 256) (h2 : m2 < 256) (h3 : m3 < 256) :
    (m0 <<< 24) ||| (m1 <<< 16) ||| (m2 <<< 8) ||| m3 =
      m0 * 256 ^ 3 + (m1 * 256 ^ 2 + (m2 * 256 ^ 1 + m3)) := by
  have hor : ∀ {k n m : ℕ}, m < 2 ^ k → 2 ^ k * n ||| m = 2 ^ k * n + m :=
    fun hm => (Nat.two_pow_add_eq_or_of_lt hm _).symm
  have hfirst : (m0 <<< 24) ||| (m1 <<< 16) = 2 ^ 16 * (m0 * 256 + m1) := by
    rw [Nat.shiftLeft_eq, Nat.shiftLeft_eq, Nat.mul_comm m0, hor (by omega)]
    omega
  have hsecond : 2 ^ 16 * (m0 * 256 + m1) ||| (m2 <<< 8) = 2 ^ 8 * ((m0 * 256 + m1) * 256 + m2) := by
    rw [Nat.shiftLeft_eq, hor (by omega)]
    omega
  rw [hfirst, hsecond, hor (by omega)]
  omega

theorem blockWord_map {message : Bytes} {offset index : ℕ}
    (h : offset + 4 * index + 4 ≤ message.length) :
    blockWord (message.map UInt8.toNat) offset index =
      beNat (slice message (offset + 4 * index) (offset + 4 * index + 4)) := by
  have hbyte : ∀ i, (message.map UInt8.toNat).getD i 0 = (message.getD i 0).toNat := by
    intro i
    simp only [List.getD_eq_getElem?_getD, List.getElem?_map]
    cases message[i]? <;> rfl
  have hslice : slice message (offset + 4 * index) (offset + 4 * index + 4) =
      [message.getD (offset + 4 * index) 0, message.getD (offset + 4 * index + 1) 0,
        message.getD (offset + 4 * index + 2) 0, message.getD (offset + 4 * index + 3) 0] := by
    rw [slice_cons (by omega) (by omega), slice_cons (by omega) (by omega), slice_cons (by omega) (by omega),
      slice_cons (by omega) (by omega)]
    simp [slice]
  rw [hslice, blockWord, hbyte, hbyte, hbyte, hbyte,
    bytes_or (UInt8.toNat_lt _) (UInt8.toNat_lt _) (UInt8.toNat_lt _), beNat_cons, beNat_cons, beNat_cons,
    beNat_cons]
  simp [beNat, leNat]

/-- The words of a block are those of the standard. -/
theorem blockWord_toNat {message : Bytes} {i index : ℕ} (h : 64 * i + 64 ≤ message.length)
    (hindex : index < 16) : blockWord (message.map UInt8.toNat) (64 * i) index =
      (Fips180.messageWord (bytesBits message) i index).toNat := by
  have hlength : (slice message (64 * i + 4 * index) (64 * i + 4 * index + 4)).length = 4 := by
    rw [length_slice (by omega)]
    omega
  have hbits : ((bytesBits message).drop (512 * i + 32 * index)).take 32 =
      bytesBits (slice message (64 * i + 4 * index) (64 * i + 4 * index + 4)) := by
    rw [show 512 * i + 32 * index = 8 * (64 * i + 4 * index) by omega, bytesBits_drop,
      show 32 = 8 * 4 by norm_num, bytesBits_take, slice, Nat.add_sub_cancel_left]
  have hlt : beNat (slice message (64 * i + 4 * index) (64 * i + 4 * index + 4)) < 2 ^ 32 := by
    have := leNat_lt (slice message (64 * i + 4 * index) (64 * i + 4 * index + 4)).reverse
    rwa [List.length_reverse, hlength] at this
  rw [blockWord_map (by omega), Fips180.messageWord, hbits, bitsNat_bytesBits, BitVec.toNat_ofNat,
    Nat.mod_eq_of_lt hlt]

/-! ## The digest -/

/-- The blocks of a message. -/
theorem foldl_compress {message : Bytes} {indexes : List ℕ}
    (hinside : ∀ i ∈ indexes, 64 * i + 64 ≤ message.length) (state : Registers Fips180.Word) :
    (indexes.map (64 * ·)).foldl
      (fun state offset => compress state (messageSchedule (message.map UInt8.toNat) offset))
      (numbers state) =
    numbers (indexes.foldl
      (fun hash i => Fips180.compress hash (Fips180.messageWord (bytesBits message) i)) state) := by
  induction indexes generalizing state with
  | nil => rfl
  | cons i indexes ih =>
    obtain ⟨hfirst, hrest⟩ := List.forall_mem_cons.1 hinside
    have hblock : compress (numbers state) (messageSchedule (message.map UInt8.toNat) (64 * i)) =
        numbers (Fips180.compress state (Fips180.messageWord (bytesBits message) i)) := by
      refine compress_numbers (fun t ht => ?_) state
      exact messageSchedule_getD (fun index hindex => blockWord_toNat hfirst hindex) ht
    rw [List.map_cons, List.foldl_cons, List.foldl_cons, hblock, ih hrest]

/-- The lower-case hexadecimal digits of a bit string. -/
def hexBits : List Bool → List Char
  | b3 :: b2 :: b1 :: b0 :: rest => Nat.digitChar (Fips180.bitsNat [b3, b2, b1, b0]) :: hexBits rest
  | _ => []

theorem hexDigits_getD (n : ℕ) : hexDigits.getD (n &&& 0xf) '0' = Nat.digitChar (n % 16) := by
  have hdigits : ∀ d < 16, hexDigits.getD d '0' = Nat.digitChar d := by decide
  have hand : n &&& 0xf = n % 16 := Nat.and_two_pow_sub_one_eq_mod n 4
  rw [hand, hdigits _ (Nat.mod_lt _ (by norm_num))]

theorem hexBits_natBits (n : ℕ) (rest : List Bool) :
    hexBits (Fips180.natBits 4 n ++ rest) = hexDigits.getD (n &&& 0xf) '0' :: hexBits rest := by
  have hvalue := Fips180.bitsNat_natBits 4 n
  rw [hexDigits_getD, show (16 : ℕ) = 2 ^ 4 by norm_num, ← hvalue]
  rfl

/-- The digits of a word. -/
theorem hexBits_word (n : ℕ) (rest : List Bool) :
    hexBits (Fips180.natBits 32 n ++ rest) = hex32 n ++ hexBits rest := by
  have hsplit : ∀ k, Fips180.natBits (4 + k) n = Fips180.natBits 4 (n >>> k) ++ Fips180.natBits k n :=
    fun k => Fips180.natBits_add 4 k n
  rw [show (32 : ℕ) = 4 + (4 + (4 + (4 + (4 + (4 + (4 + (4 + 0))))))) by norm_num, hsplit, hsplit, hsplit,
    hsplit, hsplit, hsplit, hsplit, hsplit]
  simp only [List.append_assoc, hexBits_natBits]
  rfl

theorem hexBits_words (words : List Fips180.Word) :
    hexBits (words.flatMap fun word => Fips180.natBits 32 word.toNat) =
      words.flatMap fun word => hex32 word.toNat := by
  induction words with
  | nil => rfl
  | cons word words ih => rw [List.flatMap_cons, List.flatMap_cons, hexBits_word, ih]

/-- **SHA-256.**  For every byte string shorter than `2 ^ 61` bytes the code computes the hexadecimal
    digits of the digest of FIPS 180-4; its padded message has a multiple of 64 bytes and ends with the
    64-bit length in bits. -/
theorem sha256Hex_eq_spec (data : Bytes) (h : data.length < 2 ^ 61) :
    sha256Hex (latin1 data) = .ok (String.ofList (hexBits (Fips180.sha256 (bytesBits data)))) ∧
    ∃ message : Bytes, paddedMessage (latin1 data) = .ok (message.map UInt8.toNat) ∧
      message.length % 64 = 0 ∧ bytesBits message = Fips180.pad (bytesBits data) ∧
      ∃ body, message = body ++ beBytes 8 (8 * data.length) := by
  constructor
  · have hmod := length_paddedBytes data
    have hcount : ((paddedBytes data).length + 63) / 64 = (paddedBytes data).length / 64 := by omega
    have hbits : (bytesBits (paddedBytes data)).length / 512 = (paddedBytes data).length / 64 := by
      rw [length_bytesBits]
      omega
    have hinside : ∀ i ∈ List.range ((paddedBytes data).length / 64),
        64 * i + 64 ≤ (paddedBytes data).length := by
      intro i hi
      have := List.mem_range.1 hi
      omega
    have hinitial : initialState = numbers Fips180.initial := rfl
    rw [sha256Hex, paddedMessage_latin1, ok_bind]
    simp only [List.length_map]
    rw [hcount, hinitial, foldl_compress hinside, Fips180.sha256, pad_bytesBits h, hbits]
    simp only [hexBits_words]
    rfl
  · refine ⟨paddedBytes data, paddedMessage_latin1 data, length_paddedBytes data, (pad_bytesBits h).symm,
      data ++ [0x80] ++ zeros ((56 + 64 - (data.length + 1) % 64) % 64), ?_⟩
    rw [paddedBytes, Nat.mul_comm]

example : (sha256Hex "abc").toOption =
    some "ba7816bf8f01cfea414140de5dae2223b00361a396177a9cb410ff61f20015ad" := by
  decide +kernel

/-- The bytes of `abc`. -/
theorem sha256Hex_eq_spec_example : [0x61, 0x62, 0x63].length < 2 ^ 61 ∧
    sha256Hex (latin1 [0x61, 0x62, 0x63]) =
      .ok (String.ofList (hexBits (Fips180.sha256 (bytesBits [0x61, 0x62, 0x63])))) :=
  ⟨by decide, (sha256Hex_eq_spec [0x61, 0x62, 0x63] (by decide)).1⟩

end RulesMkosi.Sha256
