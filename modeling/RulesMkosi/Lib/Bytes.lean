/-
  Byte strings: Python slices, overwritten ranges and little-endian fields.
-/
import RulesMkosi.Lib.Result
import Mathlib.Algebra.Order.Group.Nat
import Mathlib.Tactic.Ring

namespace RulesMkosi

abbrev Bytes := List UInt8

/-- `data[a:b]` -/
def slice (data : Bytes) (a b : ℕ) : Bytes := (data.drop a).take (b - a)

/-- `data[a:b] = new` -/
def splice (data : Bytes) (a b : ℕ) (new : Bytes) : Bytes := data.take a ++ new ++ data.drop b

/-- `data` with the bytes from `off` on replaced by `new`. -/
def overwrite (data : Bytes) (off : ℕ) (new : Bytes) : Bytes :=
  splice data off (off + new.length) new

/-- `bytes(n)` -/
def zeros (n : ℕ) : Bytes := List.replicate n 0

/-- `not any(data)` -/
def AllZero (data : Bytes) : Prop := ∀ b ∈ data, b = 0

instance (data : Bytes) : Decidable (AllZero data) := inferInstanceAs (Decidable (∀ b ∈ data, b = 0))

/-- The number that bytes denote, least significant byte first. -/
def leNat : Bytes → ℕ
  | [] => 0
  | b :: data => b.toNat + 256 * leNat data

/-- The `n` bytes of a number, least significant byte first. -/
def leBytes : ℕ → ℕ → Bytes
  | 0, _ => []
  | n + 1, k => UInt8.ofNat k :: leBytes n (k / 256)

/-- `int.from_bytes(data, "big")` -/
def beNat (data : Bytes) : ℕ := leNat data.reverse

/-- `k.to_bytes(n, "big")` -/
def beBytes (n k : ℕ) : Bytes := (leBytes n k).reverse

/-- The little-endian field of `n` bytes at `off`. -/
def field (data : Bytes) (off n : ℕ) : ℕ := leNat (slice data off (off + n))

/-- `struct.unpack_from` of one little-endian field of `n` bytes. -/
def unpackFrom (n : ℕ) (data : Bytes) (off : ℕ) : Except Exn ℕ :=
  if off + n ≤ data.length then .ok (field data off n)
  else .error (.structError "unpack_from requires a larger buffer")

/-- A fact about bytes, checked for their values. -/
theorem forall_byte {p : UInt8 → Prop} (h : ∀ n < 256, p (UInt8.ofNat n)) (b : UInt8) : p b := by
  have := h b.toNat b.toNat_lt
  rwa [UInt8.ofNat_toNat] at this

/-! ## Slices -/

theorem getElem?_slice (data : Bytes) (a b i : ℕ) :
    (slice data a b)[i]? = if i < b - a then data[a + i]? else none := by
  unfold slice
  split_ifs with h
  · rw [List.getElem?_take_of_lt h, List.getElem?_drop]
  · exact List.getElem?_take_eq_none (not_lt.1 h)

theorem length_slice {data : Bytes} {a b : ℕ} (h : b ≤ data.length) :
    (slice data a b).length = b - a := by
  simp only [slice, List.length_take, List.length_drop]; omega

theorem length_slice_le (data : Bytes) (a b : ℕ) : (slice data a b).length ≤ b - a :=
  List.length_take_le _ _

/-- A slice depends only on its own bytes. -/
theorem slice_congr {d d' : Bytes} {a b : ℕ} (h : ∀ i, a ≤ i → i < b → d[i]? = d'[i]?) :
    slice d a b = slice d' a b := by
  refine List.ext_getElem? fun i => ?_
  rw [getElem?_slice, getElem?_slice]
  split_ifs with hi
  · exact h _ (by omega) (by omega)
  · rfl

theorem slice_zero (data : Bytes) (b : ℕ) : slice data 0 b = data.take b := by
  simp [slice]

theorem slice_length (data : Bytes) (a : ℕ) : slice data a data.length = data.drop a := by
  rw [slice, List.take_of_length_le]; simp

theorem slice_append_slice (data : Bytes) {a b c : ℕ} (hab : a ≤ b) (hbc : b ≤ c) :
    slice data a b ++ slice data b c = slice data a c := by
  have hb : data.drop b = (data.drop a).drop (b - a) := by
    rw [List.drop_drop]; congr 1; omega
  rw [slice, slice, slice, hb, show c - a = (b - a) + (c - b) by omega, List.take_add]

theorem slice_append_left {d e : Bytes} {a b : ℕ} (h : b ≤ d.length) :
    slice (d ++ e) a b = slice d a b :=
  slice_congr fun i _ hi => List.getElem?_append_left (by omega)

theorem slice_append_right (d e : Bytes) (a b : ℕ) :
    slice (d ++ e) (d.length + a) (d.length + b) = slice e a b := by
  refine List.ext_getElem? fun i => ?_
  rw [getElem?_slice, getElem?_slice]
  split_ifs with h h' h'
  · rw [List.getElem?_append_right (by omega)]; congr 1; omega
  · omega
  · omega
  · rfl

theorem slice_cons {data : Bytes} {a b : ℕ} (hab : a < b) (ha : a < data.length) :
    slice data a b = data.getD a 0 :: slice data (a + 1) b := by
  have hsize : b - a = (b - (a + 1)) + 1 := by omega
  rw [slice, slice, List.drop_eq_getElem_cons ha, hsize, List.take_succ_cons,
    List.getD_eq_getElem?_getD, List.getElem?_eq_getElem ha, Option.getD_some]

/-! ## Fields -/

theorem leNat_lt : ∀ data : Bytes, leNat data < 256 ^ data.length
  | [] => by simp [leNat]
  | b :: data => by
    have h₁ := b.toNat_lt
    have h₂ := leNat_lt data
    rw [leNat, List.length_cons, pow_succ]
    omega

theorem length_leBytes : ∀ n k : ℕ, (leBytes n k).length = n
  | 0, _ => rfl
  | n + 1, k => by simp [leBytes, length_leBytes n]

theorem leNat_leBytes : ∀ {n k : ℕ}, k < 256 ^ n → leNat (leBytes n k) = k
  | 0, k, h => by simp at h; simp [leBytes, leNat, h]
  | n + 1, k, h => by
    rw [pow_succ] at h
    rw [leBytes, leNat, leNat_leBytes (by omega)]
    simp only [UInt8.toNat_ofNat']
    omega

theorem leBytes_leNat : ∀ data : Bytes, leBytes data.length (leNat data) = data
  | [] => rfl
  | b :: data => by
    have hb := b.toNat_lt
    have h₁ : (b.toNat + 256 * leNat data) / 256 = leNat data := by omega
    have h₂ : UInt8.ofNat (b.toNat + 256 * leNat data) = b := by
      apply UInt8.toNat_inj.1
      rw [UInt8.toNat_ofNat']; omega
    rw [List.length_cons, leNat, leBytes, h₁, h₂, leBytes_leNat data]

theorem leNat_append (left right : Bytes) :
    leNat (left ++ right) = leNat left + 256 ^ left.length * leNat right := by
  induction left with
  | nil => simp [leNat]
  | cons b left ih =>
    rw [List.cons_append, leNat, leNat, ih, List.length_cons, pow_succ]
    ring

theorem beNat_cons (b : UInt8) (data : Bytes) :
    beNat (b :: data) = b.toNat * 256 ^ data.length + beNat data := by
  rw [beNat, beNat, List.reverse_cons, leNat_append, List.length_reverse, leNat, leNat]
  ring

theorem beNat_beBytes {size n : ℕ} (h : n < 256 ^ size) : beNat (beBytes size n) = n := by
  rw [beNat, beBytes, List.reverse_reverse, leNat_leBytes h]

theorem beBytes_beNat (data : Bytes) : beBytes data.length (beNat data) = data := by
  have := leBytes_leNat data.reverse
  rw [List.length_reverse] at this
  rw [beBytes, beNat, this, List.reverse_reverse]

theorem length_beBytes (size n : ℕ) : (beBytes size n).length = size := by
  rw [beBytes, List.length_reverse, length_leBytes]

theorem leBytes_succ (size n : ℕ) :
    leBytes (size + 1) n = leBytes size n ++ [UInt8.ofNat (n / 256 ^ size)] := by
  induction size generalizing n with
  | zero => simp [leBytes]
  | succ size ih =>
    rw [leBytes, ih, leBytes, Nat.div_div_eq_div_mul, ← pow_succ', List.cons_append]

theorem beBytes_succ (size n : ℕ) :
    beBytes (size + 1) n = UInt8.ofNat (n / 256 ^ size) :: beBytes size n := by
  rw [beBytes, leBytes_succ, List.reverse_append, beBytes]
  rfl

theorem field_congr {d d' : Bytes} {off n : ℕ}
    (h : ∀ i, off ≤ i → i < off + n → d[i]? = d'[i]?) : field d off n = field d' off n := by
  rw [field, field, slice_congr h]

theorem field_lt {data : Bytes} {off n : ℕ} (h : off + n ≤ data.length) :
    field data off n < 256 ^ n := by
  have := leNat_lt (slice data off (off + n))
  rwa [length_slice h, Nat.add_sub_cancel_left] at this

@[simp] theorem unpackFrom_eq_ok {n off v : ℕ} {data : Bytes} :
    unpackFrom n data off = .ok v ↔ off + n ≤ data.length ∧ v = field data off n := by
  unfold unpackFrom
  split_ifs with h
  · simp [h, eq_comm]
  · simp [h]

/-- The bytes of a field. -/
theorem slice_eq_leBytes {data : Bytes} {off n : ℕ} (h : off + n ≤ data.length) :
    slice data off (off + n) = leBytes n (field data off n) := by
  have hlen : (slice data off (off + n)).length = n := by rw [length_slice h]; omega
  have := leBytes_leNat (slice data off (off + n))
  rw [hlen] at this
  exact this.symm

@[simp] theorem length_zeros (n : ℕ) : (zeros n).length = n := List.length_replicate

theorem allZero_zeros (n : ℕ) : AllZero (zeros n) := fun _ h => List.eq_of_mem_replicate h

theorem eq_zeros_of_allZero {data : Bytes} (h : AllZero data) : data = zeros data.length :=
  List.eq_replicate_of_mem h

/-! ## Fields of concatenations -/

theorem slice_drop (data : Bytes) (off a b : ℕ) :
    slice (data.drop off) a b = slice data (off + a) (off + b) := by
  rw [slice, slice, List.drop_drop, Nat.add_sub_add_left]

theorem field_drop (data : Bytes) (off a n : ℕ) :
    field (data.drop off) a n = field data (off + a) n := by
  rw [field, field, slice_drop, Nat.add_assoc]

/-- The part that stands at `a` and ends at `b`. -/
theorem slice_middle {d m e : Bytes} {a b : ℕ} (ha : d.length = a) (hb : a + m.length = b) :
    slice (d ++ (m ++ e)) a b = m := by
  subst ha hb
  have := slice_append_right d (m ++ e) 0 m.length
  rwa [Nat.add_zero, slice_zero, List.take_left] at this

/-- The field that was written at `off`. -/
theorem field_middle {d e : Bytes} {off n k : ℕ} (hoff : d.length = off) (h : k < 256 ^ n) :
    field (d ++ (leBytes n k ++ e)) off n = k := by
  rw [field, slice_middle hoff (by rw [length_leBytes]), leNat_leBytes h]

/-! ## Overwritten ranges -/

theorem length_overwrite {data new : Bytes} {off : ℕ} (h : off + new.length ≤ data.length) :
    (overwrite data off new).length = data.length := by
  simp only [overwrite, splice, List.length_append, List.length_take, List.length_drop]; omega

theorem getElem?_overwrite {data new : Bytes} {off : ℕ} (h : off + new.length ≤ data.length)
    (i : ℕ) : (overwrite data off new)[i]? =
      if off ≤ i ∧ i < off + new.length then new[i - off]? else data[i]? := by
  have hlen : (data.take off).length = off := by rw [List.length_take]; omega
  unfold overwrite splice
  split_ifs with hi
  · rw [List.append_assoc, List.getElem?_append_right (by omega), hlen,
      List.getElem?_append_left (by omega)]
  · by_cases hlt : i < off
    · rw [List.append_assoc, List.getElem?_append_left (by omega), List.getElem?_take_of_lt hlt]
    · rw [List.getElem?_append_right (by simp; omega), List.getElem?_drop]
      congr 1
      simp only [List.length_append, hlen]; omega

/-- A splice that keeps the length, byte by byte. -/
theorem getElem?_splice {data new : Bytes} {a b : ℕ} (hb : b = a + new.length)
    (h : b ≤ data.length) (i : ℕ) :
    (splice data a b new)[i]? = if a ≤ i ∧ i < b then new[i - a]? else data[i]? := by
  subst hb
  exact getElem?_overwrite h i

theorem length_splice {data new : Bytes} {a b : ℕ} (hb : b = a + new.length)
    (h : b ≤ data.length) : (splice data a b new).length = data.length := by
  subst hb
  exact length_overwrite h

theorem getElem?_zeros {n i : ℕ} (h : i < n) : (zeros n)[i]? = some 0 :=
  List.getElem?_replicate_of_lt h

/-! ## Blocks -/

/-- The blocks that a region needs cover it. -/
theorem le_ceil_mul {a b : ℕ} (hb : 0 < b) : a ≤ (a + b - 1) / b * b := by
  have hdiv := Nat.div_add_mod (a + b - 1) b
  have hmod := Nat.mod_lt (a + b - 1) hb
  rw [Nat.mul_comm] at hdiv
  omega

end RulesMkosi
