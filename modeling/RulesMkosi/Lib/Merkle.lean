/-
  Hash trees that are stored level by level, the top level first.

  A level is the list of the digests below it, cut into blocks of at most
  `perBlock` digests; the digests of its blocks form the next level.  The tree
  ends when one digest is left.  `pack` writes a block and `hash` digests it.
-/
import RulesMkosi.Lib.Bytes
import Mathlib.Algebra.Order.Group.Nat

namespace RulesMkosi

namespace Merkle

section
variable (perBlock : ℕ) (pack : List Bytes → Bytes) (hash : Bytes → Bytes)

/-- The number of blocks for `n` digests. -/
def blockCount (n : ℕ) : ℕ := (n + perBlock - 1) / perBlock

/-- The first `count` blocks of a level over the digests `ds`. -/
def blocks (count : ℕ) (ds : List Bytes) : List Bytes :=
  (List.range count).map fun i => pack ((ds.drop (i * perBlock)).take perBlock)

/-- The blocks of the level over the digests `ds`. -/
def levelBlocks (ds : List Bytes) : List Bytes := blocks perBlock pack (blockCount perBlock ds.length) ds

/-- The tree over the digests `ds` and its top digest. -/
inductive Tree : List Bytes → Bytes → Bytes → Prop where
  /-- one digest is the top: there is no level above it -/
  | top (d : Bytes) : Tree [d] [] d
  /-- the level over several digests follows the levels above it -/
  | level {ds : List Bytes} {upper top : Bytes} (several : 1 < ds.length)
      (above : Tree ((levelBlocks perBlock pack ds).map hash) upper top) :
      Tree ds (upper ++ (levelBlocks perBlock pack ds).flatten) top

/-- The block counts of the levels over `n` digests, the lowest level first. -/
inductive Counts : ℕ → List ℕ → Prop where
  | done {n : ℕ} (few : n ≤ 1) : Counts n []
  | more {n : ℕ} {counts : List ℕ} (several : 1 < n)
      (above : Counts (blockCount perBlock n) counts) :
      Counts n (blockCount perBlock n :: counts)

end

section
variable {perBlock : ℕ} {pack : List Bytes → Bytes} {hash : Bytes → Bytes}

theorem blocks_zero (ds : List Bytes) : blocks perBlock pack 0 ds = [] := rfl

theorem blocks_succ (count : ℕ) (ds : List Bytes) : blocks perBlock pack (count + 1) ds =
    pack (ds.take perBlock) :: blocks perBlock pack count (ds.drop perBlock) := by
  unfold blocks
  rw [List.range_succ_eq_map, List.map_cons, List.map_map, Nat.zero_mul, List.drop_zero]
  refine congrArg _ (List.map_congr_left fun i _ => ?_)
  rw [Function.comp_apply, List.drop_drop, Nat.succ_mul, Nat.add_comm perBlock]

theorem length_blocks (count : ℕ) (ds : List Bytes) :
    (blocks perBlock pack count ds).length = count := by
  simp [blocks]

theorem length_levelBlocks (ds : List Bytes) :
    (levelBlocks perBlock pack ds).length = blockCount perBlock ds.length :=
  length_blocks _ _

/-- **The tree is determined by the digests it is over.** -/
theorem Tree.unique {ds : List Bytes} {tree tree' top top' : Bytes}
    (h : Tree perBlock pack hash ds tree top) (h' : Tree perBlock pack hash ds tree' top') :
    tree = tree' ∧ top = top' := by
  induction h generalizing tree' top' with
  | top d =>
    cases h' with
    | top => exact ⟨rfl, rfl⟩
    | level several _ => exact absurd several (by simp)
  | level several _ ih =>
    cases h' with
    | top => exact absurd several (by simp)
    | level _ above =>
      obtain ⟨rfl, rfl⟩ := ih above
      exact ⟨rfl, rfl⟩

/-- A finite tree has finitely many levels. -/
theorem Tree.counts {ds : List Bytes} {tree top : Bytes} (h : Tree perBlock pack hash ds tree top) :
    ∃ counts, Counts perBlock ds.length counts := by
  induction h with
  | top d => exact ⟨[], .done (by simp)⟩
  | level several _ ih =>
    obtain ⟨counts, hcounts⟩ := ih
    rw [List.length_map, length_levelBlocks] at hcounts
    exact ⟨_, .more several hcounts⟩

/-- With one digest in a block no level gets smaller, so there is no tree. -/
theorem Counts.le_one {n : ℕ} {counts : List ℕ} (h : Counts 1 n counts) : n ≤ 1 := by
  induction h with
  | done few => exact few
  | more several _ ih =>
    unfold blockCount at ih
    omega

/-- With two digests in a block every level halves. -/
theorem Counts.length_le {n : ℕ} {counts : List ℕ} (h : Counts perBlock n counts) :
    ∀ {k : ℕ}, n ≤ 2 ^ k → 0 < perBlock → counts.length ≤ k := by
  induction h with
  | done few => exact fun _ _ => Nat.zero_le _
  | @more n counts several above ih =>
    intro k hk hpos
    have htwo : 2 ≤ perBlock := by
      by_contra hlt
      obtain rfl : perBlock = 1 := by omega
      have := (Counts.more several above).le_one
      omega
    cases k with
    | zero => omega
    | succ k =>
      have hblocks : blockCount perBlock n ≤ 2 ^ k := by
        unfold blockCount
        rw [Nat.div_le_iff_le_mul_add_pred hpos]
        have : 2 * 2 ^ k ≤ perBlock * 2 ^ k := Nat.mul_le_mul_right _ htwo
        rw [pow_succ] at hk
        omega
      have := ih hblocks hpos
      rw [List.length_cons]
      omega

theorem blockCount_pos (hpos : 0 < perBlock) {n : ℕ} (hn : 0 < n) : 0 < blockCount perBlock n :=
  Nat.div_pos (by omega) hpos

end

end Merkle

end RulesMkosi
