/-
  Numbers in base 128, most significant digit first.

  Every byte but the last of a number has its top bit set, and the first byte of a
  longer number is not a zero digit.  A reader takes one byte at a time: what it has
  read of a number determines the bytes (`continued_concat`, `base128_concat`).
-/
import RulesMkosi.Lib.Bytes

namespace RulesMkosi

/-- The digits of a number behind which another digit follows. -/
def continued (n : ℕ) : Bytes :=
  if n < 128 then [UInt8.ofNat (n + 128)]
  else continued (n / 128) ++ [UInt8.ofNat (n % 128 + 128)]

/-- The digits of a number. -/
def base128 (n : ℕ) : Bytes :=
  (if n < 128 then [] else continued (n / 128)) ++ [UInt8.ofNat (n % 128)]

/-- The digit in a byte, behind the digits that were read. -/
theorem or_digit (value : ℕ) (byte : UInt8) :
    (value <<< 7) ||| (byte.toNat &&& 0x7F) = value * 128 + byte.toNat % 128 := by
  have hdigit : byte.toNat &&& 0x7F = byte.toNat % 128 := Nat.and_two_pow_sub_one_eq_mod byte.toNat 7
  have hlt : byte.toNat % 128 < 2 ^ 7 := Nat.mod_lt _ (by decide)
  rw [hdigit, ← Nat.shiftLeft_add_eq_or_of_lt hlt, Nat.shiftLeft_eq]

theorem last_digit_iff (byte : UInt8) : byte.toNat &&& 0x80 = 0 ↔ byte.toNat < 128 := by
  revert byte
  exact forall_byte (by decide +kernel)

section
variable {value : ℕ} {byte : UInt8}

theorem continued_first (hbyte : ¬ byte.toNat < 128) : continued (byte.toNat % 128) = [byte] := by
  have hlt := byte.toNat_lt
  have hback : byte.toNat % 128 + 128 = byte.toNat := by omega
  rw [continued, if_pos (Nat.mod_lt _ (by decide)), hback, UInt8.ofNat_toNat]

theorem continued_concat (hvalue : 0 < value) (hbyte : ¬ byte.toNat < 128) :
    continued (value * 128 + byte.toNat % 128) = continued value ++ [byte] := by
  have hlt := byte.toNat_lt
  have hdiv : (value * 128 + byte.toNat % 128) / 128 = value := by omega
  have hmod : (value * 128 + byte.toNat % 128) % 128 + 128 = byte.toNat := by omega
  rw [continued, if_neg (by omega), hdiv, hmod, UInt8.ofNat_toNat]

theorem base128_single (hbyte : byte.toNat < 128) : base128 byte.toNat = [byte] := by
  rw [base128, if_pos hbyte, Nat.mod_eq_of_lt hbyte, UInt8.ofNat_toNat]
  rfl

theorem base128_concat (hvalue : 0 < value) (hbyte : byte.toNat < 128) :
    base128 (value * 128 + byte.toNat) = continued value ++ [byte] := by
  have hdiv : (value * 128 + byte.toNat) / 128 = value := by omega
  have hmod : (value * 128 + byte.toNat) % 128 = byte.toNat := by omega
  rw [base128, if_neg (by omega), hdiv, hmod, UInt8.ofNat_toNat]

end

end RulesMkosi
