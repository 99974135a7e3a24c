/-
  Byte ranges of a file.

  An extent is a start and a size.  Extents that are in order do not overlap;
  extents that tile a range follow each other without a gap and fill it.

  The last two imports are for the instances: with them `Disjoint` and `Set.Ico` take the same
  orders of sets and of integers as with all of Mathlib.
-/
import Mathlib.Order.Interval.Set.Disjoint
import Mathlib.Data.List.Pairwise
import Mathlib.Order.CompletePartialOrder
import Mathlib.Order.Interval.Set.OrdConnectedLinear

namespace RulesMkosi

structure Extent where
  start : ℕ
  size : ℕ
  deriving Repr, DecidableEq

namespace Extent

/-- The offset behind the last byte. -/
def stop (e : Extent) : ℕ := e.start + e.size

/-- The offsets of the bytes. -/
def bytes (e : Extent) : Set ℕ := Set.Ico e.start e.stop

/-- The first extent ends where the second one starts, or before. -/
def Before (e f : Extent) : Prop := e.stop ≤ f.start

theorem Before.disjoint {e f : Extent} (h : e.Before f) : Disjoint e.bytes f.bytes := by
  refine Set.disjoint_left.2 ?_
  rintro i ⟨-, hstop⟩ ⟨hstart, -⟩
  exact absurd (hstop.trans_le h) (not_lt.2 hstart)

theorem bytes_subset {e f : Extent} (hstart : f.start ≤ e.start) (hstop : e.stop ≤ f.stop) :
    e.bytes ⊆ f.bytes := Set.Ico_subset_Ico hstart hstop

/-- Two extents that share a byte. -/
theorem not_disjoint {e f : Extent} {i : ℕ} (he : i ∈ e.bytes) (hf : i ∈ f.bytes) :
    ¬ Disjoint e.bytes f.bytes := Set.not_disjoint_iff.2 ⟨i, he, hf⟩

/-- The extents follow each other without a gap, from one offset to another. -/
inductive Tiles : ℕ → List Extent → ℕ → Prop
  | nil {offset : ℕ} : Tiles offset [] offset
  | cons {start size stop : ℕ} {rest : List Extent} (h : Tiles (start + size) rest stop) :
      Tiles start (⟨start, size⟩ :: rest) stop

namespace Tiles

theorem le {start stop : ℕ} {extents : List Extent} (h : Tiles start extents stop) :
    start ≤ stop := by
  induction h with
  | nil => exact le_rfl
  | cons _ ih => omega

theorem inside {start stop : ℕ} {extents : List Extent} (h : Tiles start extents stop) :
    ∀ e ∈ extents, start ≤ e.start ∧ e.stop ≤ stop := by
  induction h with
  | nil => simp
  | @cons start size stop rest h ih =>
    intro e he
    rcases List.mem_cons.1 he with rfl | he
    · exact ⟨le_rfl, h.le⟩
    · obtain ⟨hstart, hstop⟩ := ih e he
      exact ⟨by omega, hstop⟩

theorem before {start stop : ℕ} {extents : List Extent} (h : Tiles start extents stop) :
    extents.Pairwise Before := by
  induction h with
  | nil => exact .nil
  | cons h ih => exact .cons (fun e he => (h.inside e he).1) ih

/-- The tiles cover the range. -/
theorem mem_iff {start stop : ℕ} {extents : List Extent} (h : Tiles start extents stop) {i : ℕ} :
    (∃ e ∈ extents, i ∈ e.bytes) ↔ start ≤ i ∧ i < stop := by
  induction h with
  | nil =>
    simp only [List.not_mem_nil, false_and, exists_false, false_iff]
    omega
  | @cons start size stop rest h ih =>
    have hle := h.le
    simp only [List.mem_cons, exists_eq_or_imp, ih]
    simp only [bytes, Extent.stop, Set.mem_Ico]
    omega

/-- Tiles in front of other tiles. -/
theorem append {start middle stop : ℕ} {extents rest : List Extent} (h : Tiles start extents middle)
    (hrest : Tiles middle rest stop) : Tiles start (extents ++ rest) stop := by
  induction h with
  | nil => exact hrest
  | cons _ ih => exact .cons (ih hrest)

end Tiles

end Extent

end RulesMkosi
