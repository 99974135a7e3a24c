/-
  Stable sorting by a key.

  A stable sort keeps the elements of one key in their order, so its result is
  determined by these lists, one for each key (`insertionSort_congr`): the order
  in which elements of different keys arrive does not matter.
-/
import Mathlib.Data.List.Sort

namespace RulesMkosi

variable {α : Type*} {r : α → α → Prop} [DecidableRel r]

/-- Permutations are sorted alike if the order is antisymmetric on their elements. -/
theorem insertionSort_perm [Std.Total r] [IsTrans α r] {l l' : List α} (hperm : l.Perm l')
    (hanti : ∀ a ∈ l, ∀ b ∈ l, r a b → r b a → a = b) : l.insertionSort r = l'.insertionSort r := by
  refine List.Perm.eq_of_pairwise (fun a b ha hb => ?_) (List.pairwise_insertionSort r l)
    (List.pairwise_insertionSort r l') ?_
  · rw [List.mem_insertionSort] at ha hb
    exact hanti a ha b (hperm.mem_iff.2 hb)
  · exact (List.perm_insertionSort r l).trans (hperm.trans (List.perm_insertionSort r l').symm)

section
variable {κ : Type*} [LinearOrder κ] {key : α → κ}

/-- Sorting keeps the elements of a key in their order. -/
theorem filter_insertionSort (hr : ∀ a b, r a b ↔ key a ≤ key b) (l : List α) (k : κ) :
    (l.insertionSort r).filter (fun a => decide (key a = k)) =
      l.filter (fun a => decide (key a = k)) := by
  have hpair : (l.filter fun a => decide (key a = k)).Pairwise r := by
    refine List.Pairwise.imp_of_mem (fun {a b} ha hb _ => (hr a b).2 ?_)
      (List.pairwise_of_forall fun _ _ => trivial : List.Pairwise (fun _ _ => True) _)
    simp only [List.mem_filter, decide_eq_true_eq] at ha hb
    rw [ha.2, hb.2]
  have hsub := (List.sublist_insertionSort hpair List.filter_sublist).filter
    fun a => decide (key a = k)
  simp only [List.filter_filter, Bool.and_self] at hsub
  refine (hsub.eq_of_length ?_).symm
  exact ((List.perm_insertionSort r l).filter _).length_eq.symm

/-- Sorted lists with the same elements of every key, in the same order, are equal. -/
theorem eq_of_filter_eq : ∀ {l l' : List α}, l.Pairwise (fun a b => key a ≤ key b) →
    l'.Pairwise (fun a b => key a ≤ key b) →
    (∀ k, l.filter (fun a => decide (key a = k)) = l'.filter (fun a => decide (key a = k))) → l = l'
  | [], [], _, _, _ => rfl
  | [], b :: l', _, _, h => by
    have := h (key b)
    simp at this
  | a :: l, [], _, _, h => by
    have := h (key a)
    simp at this
  | a :: l, b :: l', hl, hl', h => by
    have hmem : ∀ c k, c ∈ (a :: l).filter (fun a => decide (key a = k)) ↔
        c ∈ (b :: l').filter (fun a => decide (key a = k)) := by
      intro c k
      rw [h k]
    -- both heads have the least key
    have hkey : key a = key b := by
      refine le_antisymm ?_ ?_
      · have hb := (hmem b (key b)).2 (by simp)
        rcases List.mem_cons.1 (List.mem_of_mem_filter hb) with rfl | hb
        · exact le_rfl
        · exact List.rel_of_pairwise_cons hl hb
      · have ha := (hmem a (key a)).1 (by simp)
        rcases List.mem_cons.1 (List.mem_of_mem_filter ha) with rfl | ha
        · exact le_rfl
        · exact List.rel_of_pairwise_cons hl' ha
    have hhead := h (key a)
    simp only [List.filter_cons, hkey, decide_true, if_true, List.cons.injEq] at hhead
    obtain ⟨rfl, -⟩ := hhead
    refine congrArg (a :: ·) (eq_of_filter_eq hl.of_cons hl'.of_cons fun k => ?_)
    have := h k
    by_cases hk : key a = k
    · simpa [List.filter_cons, hk] using this
    · simpa [List.filter_cons, hk] using this

/-- **Stable sorting.**  Lists with the same elements of every key are sorted alike. -/
theorem insertionSort_congr (hr : ∀ a b, r a b ↔ key a ≤ key b) {l l' : List α}
    (h : ∀ k, l.filter (fun a => decide (key a = k)) = l'.filter (fun a => decide (key a = k))) :
    l.insertionSort r = l'.insertionSort r := by
  have htotal : Std.Total r := ⟨fun a b => by simp only [hr]; exact le_total _ _⟩
  have htrans : IsTrans α r := ⟨fun a b c => by simp only [hr]; exact le_trans⟩
  refine @eq_of_filter_eq α κ _ key _ _ ?_ ?_ fun k => ?_
  · exact (List.pairwise_insertionSort r l).imp (hr _ _).1
  · exact (List.pairwise_insertionSort r l').imp (hr _ _).1
  · rw [filter_insertionSort hr, filter_insertionSort hr, h k]

end

end RulesMkosi
