/-
  SHA-256 (FIPS 180-4).

  Messages are bit strings, as in the standard, and words are 32-bit vectors.  `natBits` and
  `bitsNat` translate between numbers and bit strings, most significant bit first.
-/
import Mathlib.Data.List.Induction
import Mathlib.Data.Nat.Bitwise
import Mathlib.Tactic.Ring

namespace RulesMkosi.Fips180

/-! ## Bit strings -/

/-- The `n` low bits of a number, most significant bit first. -/
def natBits (n k : ℕ) : List Bool := (List.range n).map fun i => k.testBit (n - 1 - i)

/-- The number that a bit string denotes. -/
def bitsNat (bits : List Bool) : ℕ := bits.foldl (fun n bit => 2 * n + bit.toNat) 0

theorem bitsNat_concat (bits : List Bool) (bit : Bool) :
    bitsNat (bits ++ [bit]) = 2 * bitsNat bits + bit.toNat := by
  simp [bitsNat]

theorem bitsNat_append (left right : List Bool) :
    bitsNat (left ++ right) = bitsNat left * 2 ^ right.length + bitsNat right := by
  induction right using List.reverseRecOn with
  | nil => simp [bitsNat]
  | append_singleton right bit ih =>
    rw [← List.append_assoc, bitsNat_concat, bitsNat_concat, ih, List.length_append, List.length_singleton,
      pow_succ]
    ring

@[simp] theorem length_natBits (n k : ℕ) : (natBits n k).length = n := by
  simp [natBits]

theorem natBits_succ (n k : ℕ) : natBits (n + 1) k = natBits n (k / 2) ++ [k.testBit 0] := by
  rw [natBits, List.range_succ, List.map_append, natBits]
  congr 1
  · refine List.map_congr_left fun i hi => ?_
    have hi := List.mem_range.1 hi
    rw [← Nat.testBit_succ]
    congr 1
    omega
  · simp

theorem bitsNat_natBits (n k : ℕ) : bitsNat (natBits n k) = k % 2 ^ n := by
  induction n generalizing k with
  | zero => simp [natBits, bitsNat, Nat.mod_one]
  | succ n ih =>
    rw [natBits_succ, bitsNat_concat, ih, pow_succ, Nat.mul_comm, Nat.mul_comm (2 ^ n), Nat.mod_mul,
      Nat.testBit_zero]
    rcases Nat.mod_two_eq_zero_or_one k with h | h
    · simp [h, Nat.mul_comm]
    · simp [h, Nat.mul_comm, Nat.add_comm]

theorem natBits_bitsNat (bits : List Bool) : natBits bits.length (bitsNat bits) = bits := by
  induction bits using List.reverseRecOn with
  | nil => rfl
  | append_singleton bits bit ih =>
    have hhalf : (2 * bitsNat bits + bit.toNat) / 2 = bitsNat bits := by
      cases bit <;> simp only [Bool.toNat_false, Bool.toNat_true] <;> omega
    have hlow : (2 * bitsNat bits + bit.toNat).testBit 0 = bit := by
      rw [Nat.testBit_zero]
      cases bit <;> simp
    rw [bitsNat_concat, List.length_append, List.length_singleton, natBits_succ, hhalf, hlow, ih]

/-- The bits of a number are its high bits and its low bits. -/
theorem natBits_add (m n k : ℕ) : natBits (m + n) k = natBits m (k >>> n) ++ natBits n k := by
  induction n generalizing k with
  | zero => simp [natBits]
  | succ n ih =>
    rw [← Nat.add_assoc, natBits_succ, ih, natBits_succ, List.append_assoc, ← Nat.shiftRight_succ_inside]

/-! ## Functions and constants (sections 4.1.2, 4.2.2 and 5.3.3) -/

abbrev Word := BitVec 32

def rotr (n : ℕ) (x : Word) : Word := (x >>> n) ||| (x <<< (32 - n))

def shr (n : ℕ) (x : Word) : Word := x >>> n

def ch (x y z : Word) : Word := (x &&& y) ^^^ (~~~x &&& z)

def maj (x y z : Word) : Word := (x &&& y) ^^^ (x &&& z) ^^^ (y &&& z)

def bigSigma0 (x : Word) : Word := rotr 2 x ^^^ rotr 13 x ^^^ rotr 22 x

def bigSigma1 (x : Word) : Word := rotr 6 x ^^^ rotr 11 x ^^^ rotr 25 x

def smallSigma0 (x : Word) : Word := rotr 7 x ^^^ rotr 18 x ^^^ shr 3 x

def smallSigma1 (x : Word) : Word := rotr 17 x ^^^ rotr 19 x ^^^ shr 10 x

/-- The constants `K`. -/
def constants : List ℕ :=
  [0x428a2f98, 0x71374491, 0xb5c0fbcf, 0xe9b5dba5, 0x3956c25b, 0x59f111f1, 0x923f82a4, 0xab1c5ed5,
    0xd807aa98, 0x12835b01, 0x243185be, 0x550c7dc3, 0x72be5d74, 0x80deb1fe, 0x9bdc06a7, 0xc19bf174,
    0xe49b69c1, 0xefbe4786, 0x0fc19dc6, 0x240ca1cc, 0x2de92c6f, 0x4a7484aa, 0x5cb0a9dc, 0x76f988da,
    0x983e5152, 0xa831c66d, 0xb00327c8, 0xbf597fc7, 0xc6e00bf3, 0xd5a79147, 0x06ca6351, 0x14292967,
    0x27b70a85, 0x2e1b2138, 0x4d2c6dfc, 0x53380d13, 0x650a7354, 0x766a0abb, 0x81c2c92e, 0x92722c85,
    0xa2bfe8a1, 0xa81a664b, 0xc24b8b70, 0xc76c51a3, 0xd192e819, 0xd6990624, 0xf40e3585, 0x106aa070,
    0x19a4c116, 0x1e376c08, 0x2748774c, 0x34b0bcb5, 0x391c0cb3, 0x4ed8aa4a, 0x5b9cca4f, 0x682e6ff3,
    0x748f82ee, 0x78a5636f, 0x84c87814, 0x8cc70208, 0x90befffa, 0xa4506ceb, 0xbef9a3f7, 0xc67178f2]

/-- The eight hash values or working variables. -/
@[ext]
structure Registers (α : Type*) where
  a : α
  b : α
  c : α
  d : α
  e : α
  f : α
  g : α
  h : α
  deriving Repr, DecidableEq

def Registers.map {α β : Type*} (f : α → β) (r : Registers α) : Registers β :=
  ⟨f r.a, f r.b, f r.c, f r.d, f r.e, f r.f, f r.g, f r.h⟩

def Registers.toList {α : Type*} (r : Registers α) : List α := [r.a, r.b, r.c, r.d, r.e, r.f, r.g, r.h]

/-- The initial hash value. -/
def initial : Registers Word :=
  ⟨0x6a09e667, 0xbb67ae85, 0x3c6ef372, 0xa54ff53a, 0x510e527f, 0x9b05688c, 0x1f83d9ab, 0x5be0cd19⟩

/-- The first 64 primes. -/
def primes : List ℕ :=
  [2, 3, 5, 7, 11, 13, 17, 19, 23, 29, 31, 37, 41, 43, 47, 53, 59, 61, 67, 71, 73, 79, 83, 89, 97, 101, 103,
    107, 109, 113, 127, 131, 137, 139, 149, 151, 157, 163, 167, 173, 179, 181, 191, 193, 197, 199, 211, 223,
    227, 229, 233, 239, 241, 251, 257, 263, 269, 271, 277, 281, 283, 293, 307, 311]

/-- `k` is the first 32 bits of the fractional part of the root of `n` of the given degree, whose
    integral part is `whole`. -/
def IsFraction (degree n whole k : ℕ) : Prop :=
  (whole * 2 ^ 32 + k) ^ degree ≤ n * 2 ^ (32 * degree) ∧
    n * 2 ^ (32 * degree) < (whole * 2 ^ 32 + k + 1) ^ degree ∧ k < 2 ^ 32

instance (degree n whole k : ℕ) : Decidable (IsFraction degree n whole k) :=
  inferInstanceAs (Decidable (_ ∧ _ ∧ _))

/-- The constants are fractional parts of cube roots of primes, the initial hash value those of square
    roots. -/
theorem constants_isFraction :
    List.Forall₂ (fun p k => ∃ whole < 7, IsFraction 3 p whole k) primes constants ∧
      List.Forall₂ (fun p k => ∃ whole < 5, IsFraction 2 p whole (BitVec.toNat k)) (primes.take 8)
        initial.toList := by
  decide

/-! ## Preprocessing (section 5) -/

/-- The number of zero bits in the padding of `length` bits. -/
def zeroBits (length : ℕ) : ℕ := (512 + 448 - (length + 1) % 512) % 512

/-- It is the smallest solution of the equation of section 5.1.1. -/
theorem zeroBits_least (length : ℕ) : (length + 1 + zeroBits length) % 512 = 448 ∧
    ∀ k, (length + 1 + k) % 512 = 448 → zeroBits length ≤ k := by
  unfold zeroBits
  refine ⟨by omega, fun k hk => ?_⟩
  omega

def pad (message : List Bool) : List Bool :=
  message ++ [true] ++ List.replicate (zeroBits message.length) false ++ natBits 64 message.length

/-- The word `j` of the block `i`. -/
def messageWord (padded : List Bool) (i j : ℕ) : Word :=
  BitVec.ofNat 32 (bitsNat ((padded.drop (512 * i + 32 * j)).take 32))

/-! ## Hash computation (section 6.2.2) -/

/-- The message schedule of a block. -/
def schedule (block : ℕ → Word) (t : ℕ) : Word :=
  if t < 16 then block t
  else smallSigma1 (schedule block (t - 2)) + schedule block (t - 7) +
    smallSigma0 (schedule block (t - 15)) + schedule block (t - 16)
termination_by t

theorem schedule_of_lt {block : ℕ → Word} {t : ℕ} (h : t < 16) : schedule block t = block t := by
  rw [schedule, if_pos h]

theorem schedule_of_le {block : ℕ → Word} {t : ℕ} (h : 16 ≤ t) : schedule block t =
    smallSigma1 (schedule block (t - 2)) + schedule block (t - 7) +
      smallSigma0 (schedule block (t - 15)) + schedule block (t - 16) := by
  rw [schedule, if_neg (by omega)]

def round (w : ℕ → Word) (r : Registers Word) (t : ℕ) : Registers Word :=
  let t1 := r.h + bigSigma1 r.e + ch r.e r.f r.g + BitVec.ofNat 32 (constants.getD t 0) + w t
  let t2 := bigSigma0 r.a + maj r.a r.b r.c
  ⟨t1 + t2, r.a, r.b, r.c, r.d + t1, r.e, r.f, r.g⟩

def Registers.add (r s : Registers Word) : Registers Word :=
  ⟨r.a + s.a, r.b + s.b, r.c + s.c, r.d + s.d, r.e + s.e, r.f + s.f, r.g + s.g, r.h + s.h⟩

/-- The hash value after a block. -/
def compress (hash : Registers Word) (block : ℕ → Word) : Registers Word :=
  Registers.add ((List.range 64).foldl (round (schedule block)) hash) hash

/-- The message digest, a string of 256 bits. -/
def sha256 (message : List Bool) : List Bool :=
  let padded := pad message
  let hash := (List.range (padded.length / 512)).foldl
    (fun hash i => compress hash (messageWord padded i)) initial
  hash.toList.flatMap fun word => natBits 32 word.toNat

end RulesMkosi.Fips180
