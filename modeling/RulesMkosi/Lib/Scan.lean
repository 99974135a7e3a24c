/-
  Scanning a byte string item by item.

  `scan` is the loop `while offset < len(data): item, offset = step(offset)`.  If every step
  moves forward, the loop ends (`scan_ends`); if every step takes exactly the bytes of its
  item, the items tile the data (`scan_tile`); and if a step reads back what an encoder
  writes, the loop reads back a concatenation (`scan_flatMap`).
-/
import Mathlib.Data.List.Forall2
import RulesMkosi.Lib.Bytes

namespace RulesMkosi

variable {α β ε : Type*}

/-- The items from an offset on; `none` if the loop does not end within `rounds` rounds. -/
def scan (size : ℕ) (step : ℕ → Except ε (α × ℕ)) : (rounds offset : ℕ) → Option (Except ε (List α))
  | 0, offset => if offset < size then none else some (.ok [])
  | rounds + 1, offset =>
    if offset < size then
      match step offset with
      | .error e => some (.error e)
      | .ok (item, next) => (scan size step rounds next).map (·.map (item :: ·))
    else some (.ok [])

section
variable {size : ℕ} {step : ℕ → Except ε (α × ℕ)}

theorem scan_of_le {rounds offset : ℕ} (h : size ≤ offset) :
    scan size step rounds offset = some (.ok []) := by
  cases rounds <;> rw [scan, if_neg (by omega)]

/-- What a round that runs does. -/
theorem scan_succ {rounds offset : ℕ} (h : offset < size) : scan size step (rounds + 1) offset =
    match step offset with
    | .error e => some (.error e)
    | .ok (item, next) => (scan size step rounds next).map (·.map (item :: ·)) := by
  rw [scan, if_pos h]

/-- A loop that moves forward ends within as many rounds as there are bytes. -/
theorem scan_ends (hstep : ∀ offset item next, step offset = .ok (item, next) → offset < next) :
    ∀ {rounds offset : ℕ}, size ≤ offset + rounds →
      ∃ result, scan size step rounds offset = some result
  | 0, offset, hrounds => ⟨.ok [], scan_of_le hrounds⟩
  | rounds + 1, offset, hrounds => by
    by_cases hlt : offset < size
    · rw [scan_succ hlt]
      cases hround : step offset with
      | error e => exact ⟨.error e, rfl⟩
      | ok round =>
        obtain ⟨item, next⟩ := round
        have hnext := hstep offset item next hround
        obtain ⟨result, hresult⟩ := @scan_ends hstep rounds next (by omega)
        exact ⟨result.map (item :: ·), by simp only [hresult, Option.map_some]⟩
    · exact ⟨.ok [], scan_of_le (by omega)⟩

/-- The items of a round and of the rounds after it. -/
theorem scan_succ_eq_ok {rounds offset : ℕ} {items : List α} (hlt : offset < size)
    (h : scan size step (rounds + 1) offset = some (.ok items)) :
    ∃ item next rest, step offset = .ok (item, next) ∧ scan size step rounds next = some (.ok rest) ∧
      items = item :: rest := by
  rw [scan_succ hlt] at h
  cases hround : step offset with
  | error e => simp [hround] at h
  | ok round =>
    obtain ⟨item, next⟩ := round
    simp only [hround, Option.map_eq_some_iff] at h
    obtain ⟨result, hresult, hitems⟩ := h
    cases result with
    | error e => simp [Except.map] at hitems
    | ok rest => exact ⟨item, next, rest, rfl, hresult, (Except.ok.inj hitems).symm⟩

/-- An error of the loop is one of a step. -/
theorem scan_eq_error : ∀ {rounds offset : ℕ} {e : ε},
    scan size step rounds offset = some (.error e) → ∃ offset', step offset' = .error e
  | 0, offset, e, h => by
    rw [scan] at h
    split_ifs at h
    simp at h
  | rounds + 1, offset, e, h => by
    by_cases hlt : offset < size
    · rw [scan_succ hlt] at h
      cases hround : step offset with
      | error e' =>
        simp only [hround, Option.some.injEq, Except.error.injEq] at h
        exact ⟨offset, by rw [hround, h]⟩
      | ok round =>
        simp only [hround, Option.map_eq_some_iff] at h
        obtain ⟨result, hresult, hitems⟩ := h
        cases result with
        | error e' =>
          obtain rfl : e' = e := by simpa [Except.map] using hitems
          exact scan_eq_error hresult
        | ok rest => simp [Except.map] at hitems
    · rw [scan_of_le (by omega)] at h
      simp at h

end

section
variable {data : Bytes} {step : ℕ → Except ε (α × ℕ)} {P : Bytes → α → Prop}

/-- If a step takes the bytes of its item, the items from an offset on tile the rest of the data. -/
theorem scan_tile (hstep : ∀ offset item next, step offset = .ok (item, next) →
      offset < next ∧ next ≤ data.length ∧ P (slice data offset next) item) :
    ∀ {rounds offset : ℕ} {items : List α}, scan data.length step rounds offset = some (.ok items) →
      ∃ parts, data.drop offset = parts.flatten ∧ List.Forall₂ P parts items
  | 0, offset, items, h => by
    rw [scan] at h
    split_ifs at h with hlt
    obtain rfl := Except.ok.inj (Option.some.inj h)
    exact ⟨[], List.drop_eq_nil_of_le (by omega), .nil⟩
  | rounds + 1, offset, items, h => by
    by_cases hlt : offset < data.length
    · obtain ⟨item, next, rest, hround, hrest, rfl⟩ := scan_succ_eq_ok hlt h
      obtain ⟨hnext, hinside, hitem⟩ := hstep offset item next hround
      obtain ⟨parts, hparts, hforall⟩ := scan_tile hstep hrest
      refine ⟨slice data offset next :: parts, ?_, .cons hitem hforall⟩
      rw [List.flatten_cons, ← hparts, ← slice_length, ← slice_length,
        slice_append_slice data hnext.le hinside]
    · rw [scan_of_le (by omega)] at h
      obtain rfl := Except.ok.inj (Option.some.inj h)
      exact ⟨[], List.drop_eq_nil_of_le (by omega), .nil⟩

/-- If a step reads back an encoded item, the loop reads back a concatenation of encoded items. -/
theorem scan_flatMap {encode : β → Bytes} {item : β → α} : ∀ {items : List β} {rounds offset : ℕ},
    (∀ b ∈ items, encode b ≠ [] ∧ ∀ offset rest, data.drop offset = encode b ++ rest →
      step offset = .ok (item b, offset + (encode b).length)) →
    items.length ≤ rounds → data.drop offset = items.flatMap encode →
    scan data.length step rounds offset = some (.ok (items.map item))
  | [], rounds, offset, _, _, hdata => by
    refine scan_of_le ?_
    have hlength := congrArg List.length hdata
    simp only [List.length_drop, List.flatMap_nil, List.length_nil] at hlength
    omega
  | b :: items, rounds, offset, hstep, hrounds, hdata => by
    obtain ⟨⟨hne, hfirst⟩, hstep⟩ := List.forall_mem_cons.1 hstep
    rw [List.flatMap_cons] at hdata
    obtain ⟨rounds, rfl⟩ : ∃ k, rounds = k + 1 := ⟨rounds - 1, by simp at hrounds; omega⟩
    have hlt : offset < data.length := by
      have hlength := congrArg List.length hdata
      rw [List.length_drop, List.length_append] at hlength
      have := List.length_pos_iff.2 hne
      omega
    have hnext : data.drop (offset + (encode b).length) = items.flatMap encode := by
      rw [← List.drop_drop, hdata, List.drop_left]
    rw [scan_succ hlt, hfirst offset _ hdata]
    dsimp only
    rw [scan_flatMap hstep (by simpa using hrounds) hnext]
    rfl

end

/-- Every item takes a byte at least. -/
theorem length_le_flatMap {encode : β → Bytes} {items : List β} (h : ∀ b ∈ items, encode b ≠ []) :
    items.length ≤ (items.flatMap encode).length := by
  induction items with
  | nil => simp
  | cons b items ih =>
    obtain ⟨hne, hrest⟩ := List.forall_mem_cons.1 h
    have hpos := List.length_pos_iff.2 hne
    have := ih hrest
    rw [List.flatMap_cons, List.length_append, List.length_cons]
    omega

end RulesMkosi
