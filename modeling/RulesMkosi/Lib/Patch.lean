/-
  Byte strings with some ranges replaced.

  Patches are pairs of an offset and its new bytes.  `patched` copies a file up
  to each patch, then the new bytes, and so on; `Ordered` patches follow each
  other inside the file.
-/
import RulesMkosi.Lib.Bytes

namespace RulesMkosi

/-- The file from `cursor` on, with the patches in place of its own bytes. -/
def patched (image : Bytes) : ℕ → List (ℕ × Bytes) → Bytes
  | cursor, [] => image.drop cursor
  | cursor, (offset, new) :: rest =>
    slice image cursor offset ++ new ++ patched image (offset + new.length) rest

/-- The patches follow each other between `cursor` and `size`. -/
def Ordered (size : ℕ) : ℕ → List (ℕ × Bytes) → Prop
  | cursor, [] => cursor ≤ size
  | cursor, (offset, new) :: rest => cursor ≤ offset ∧ Ordered size (offset + new.length) rest

/-- No patch covers the position. -/
def Untouched (patches : List (ℕ × Bytes)) (i : ℕ) : Prop :=
  ∀ p ∈ patches, ¬ (p.1 ≤ i ∧ i < p.1 + p.2.length)

variable {image : Bytes}

theorem Ordered.le_size {size : ℕ} : ∀ {patches : List (ℕ × Bytes)} {cursor : ℕ},
    Ordered size cursor patches → cursor ≤ size
  | [], _, h => h
  | (_, _) :: _, _, h => h.1.trans ((Nat.le_add_right _ _).trans h.2.le_size)

theorem Ordered.of_mem {size : ℕ} : ∀ {patches : List (ℕ × Bytes)} {cursor : ℕ},
    Ordered size cursor patches → ∀ p ∈ patches, cursor ≤ p.1 ∧ p.1 + p.2.length ≤ size
  | (offset, new) :: rest, cursor, h, p, hp => by
    rcases List.mem_cons.1 hp with rfl | hp
    · exact ⟨h.1, h.2.le_size⟩
    · have := h.2.of_mem p hp
      have := h.1
      omega

/-- Each patch ends before the next one starts. -/
theorem Ordered.pairwise {size : ℕ} : ∀ {patches : List (ℕ × Bytes)} {cursor : ℕ},
    Ordered size cursor patches → patches.Pairwise fun p q => p.1 + p.2.length ≤ q.1
  | [], _, _ => .nil
  | (_, _) :: _, _, h => .cons (fun q hq => (h.2.of_mem q hq).1) h.2.pairwise

theorem length_patched : ∀ {patches : List (ℕ × Bytes)} {cursor : ℕ},
    Ordered image.length cursor patches →
      (patched image cursor patches).length = image.length - cursor
  | [], _, _ => List.length_drop
  | (offset, new) :: rest, cursor, h => by
    have hoffset : offset ≤ image.length := (Nat.le_add_right _ _).trans h.2.le_size
    have hend := h.2.le_size
    have hcursor := h.1
    rw [patched, List.length_append, List.length_append, length_slice hoffset, length_patched h.2]
    omega

/-- A position that no patch covers keeps its byte. -/
theorem getElem?_patched_untouched : ∀ {patches : List (ℕ × Bytes)} {cursor i : ℕ},
    Ordered image.length cursor patches → cursor ≤ i → Untouched patches i →
      (patched image cursor patches)[i - cursor]? = image[i]?
  | [], cursor, i, _, hi, _ => by
    rw [patched, List.getElem?_drop, Nat.add_sub_cancel' hi]
  | (offset, new) :: rest, cursor, i, h, hi, hout => by
    have hoffset : offset ≤ image.length := (Nat.le_add_right _ _).trans h.2.le_size
    have hfirst := hout _ List.mem_cons_self
    have hrest : Untouched rest i := fun p hp => hout p (List.mem_cons_of_mem _ hp)
    have hcursor := h.1
    rw [patched, List.append_assoc]
    by_cases hbefore : i < offset
    · rw [List.getElem?_append_left (by rw [length_slice hoffset]; omega), getElem?_slice,
        if_pos (by omega), Nat.add_sub_cancel' hi]
    · have hafter : offset + new.length ≤ i := by
        by_contra hlt
        exact hfirst ⟨not_lt.1 hbefore, not_le.1 hlt⟩
      rw [List.getElem?_append_right (by rw [length_slice hoffset]; omega), length_slice hoffset,
        List.getElem?_append_right (by omega)]
      have ih := getElem?_patched_untouched h.2 hafter hrest
      rw [← ih]
      congr 1
      omega

/-- The range of a patch holds its bytes. -/
theorem slice_patched_mem : ∀ {patches : List (ℕ × Bytes)} {cursor : ℕ},
    Ordered image.length cursor patches → ∀ p ∈ patches,
      slice (patched image cursor patches) (p.1 - cursor) (p.1 - cursor + p.2.length) = p.2
  | (offset, new) :: rest, cursor, h, p, hp => by
    have hoffset : offset ≤ image.length := (Nat.le_add_right _ _).trans h.2.le_size
    have hcursor := h.1
    have hslice : (slice image cursor offset).length = offset - cursor := length_slice hoffset
    rw [patched, List.append_assoc]
    generalize slice image cursor offset = before at hslice ⊢
    rcases List.mem_cons.1 hp with rfl | hp
    · rw [← hslice, slice, List.drop_left, Nat.add_sub_cancel_left, List.take_left]
    · have hmem := h.2.of_mem p hp
      have ih := slice_patched_mem h.2 p hp
      have hstart : p.1 - cursor =
          before.length + (new.length + (p.1 - (offset + new.length))) := by
        omega
      unfold slice at ih ⊢
      rw [Nat.add_sub_cancel_left] at ih ⊢
      rw [hstart, ← List.drop_drop, List.drop_left, ← List.drop_drop, List.drop_left]
      exact ih

theorem getElem?_patched_mem {patches : List (ℕ × Bytes)} (h : Ordered image.length 0 patches)
    {p : ℕ × Bytes} (hp : p ∈ patches) {i : ℕ} (hi : p.1 ≤ i ∧ i < p.1 + p.2.length) :
    (patched image 0 patches)[i]? = p.2[i - p.1]? := by
  have hslice := slice_patched_mem h p hp
  rw [Nat.sub_zero] at hslice
  rw [← hslice, getElem?_slice, if_pos (by omega), Nat.add_sub_cancel' hi.1]

/-- The result depends only on the bytes that no patch covers. -/
theorem patched_congr {image' : Bytes} {patches : List (ℕ × Bytes)}
    (h : Ordered image.length 0 patches) (hlen : image.length = image'.length)
    (hagree : ∀ i, Untouched patches i → image[i]? = image'[i]?) :
    patched image 0 patches = patched image' 0 patches := by
  refine List.ext_getElem? fun i => ?_
  by_cases hi : Untouched patches i
  · have h₁ := getElem?_patched_untouched h (Nat.zero_le i) hi
    have h₂ := getElem?_patched_untouched (hlen ▸ h) (Nat.zero_le i) hi
    rw [Nat.sub_zero] at h₁ h₂
    rw [h₁, h₂, hagree i hi]
  · simp only [Untouched, not_forall, not_not] at hi
    obtain ⟨p, hp, hi⟩ := hi
    rw [getElem?_patched_mem h hp hi, getElem?_patched_mem (hlen ▸ h) hp hi]

end RulesMkosi
