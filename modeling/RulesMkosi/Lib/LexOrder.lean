/-
  The lexicographic order between a string and its extensions, and between
  lists of numbers that are continued by zeros.

  The import on conditionally complete lattices is for the instances: with it the lists of
  integers take the same order as with all of Mathlib.
-/
import Mathlib.Data.List.Lex
import Mathlib.Data.String.Basic
import Mathlib.Order.Basic
import Mathlib.Order.PiLex
import Mathlib.Data.Int.ConditionallyCompleteOrder
import Mathlib.Order.ConditionallyCompleteLattice.Basic
import Mathlib.Data.List.DropRight

namespace RulesMkosi

variable {α : Type*} [LinearOrder α]

theorem lt_append_cons (p : List α) (a : α) (q : List α) : p < p ++ a :: q := by
  induction p with
  | nil => exact List.Lex.nil
  | cons b p ih => exact List.Lex.cons ih

/-- **Between `p` and its extension by `a`.**  A list that sorts between `p` and `p ++ a :: q`
    and does not start with `p ++ [a]` extends `p` by a letter below `a`. -/
theorem lex_between {a : α} {q : List α} : ∀ {p r : List α}, p < r → r < p ++ a :: q →
    ¬ (p ++ [a]) <+: r → ∃ c t, r = p ++ c :: t ∧ c < a
  | [], r, h₁, h₂, hn => by
    cases r with
    | nil => exact absurd h₁ (lt_irrefl _)
    | cons c t =>
      refine ⟨c, t, rfl, ?_⟩
      rcases List.cons_lt_cons_iff.1 h₂ with h | ⟨rfl, -⟩
      · exact h
      · exact absurd ⟨t, rfl⟩ hn
  | b :: p, r, h₁, h₂, hn => by
    cases r with
    | nil => exact absurd h₁ (by simp)
    | cons c t =>
      -- both neighbours start with `b`, so `r` does too
      rcases List.cons_lt_cons_iff.1 h₁ with h | ⟨rfl, h₁'⟩
      · rcases List.cons_lt_cons_iff.1 h₂ with h' | ⟨rfl, -⟩
        · exact absurd (h.trans h') (lt_irrefl _)
        · exact absurd h (lt_irrefl _)
      · rcases List.cons_lt_cons_iff.1 h₂ with h' | ⟨-, h₂'⟩
        · exact absurd h' (lt_irrefl _)
        · have hn' : ¬ (p ++ [a]) <+: t := fun ⟨w, hw⟩ => hn ⟨w, by simp [← hw]⟩
          obtain ⟨d, u, rfl, hd⟩ := lex_between h₁' h₂' hn'
          exact ⟨d, u, rfl, hd⟩

/-! ## Continued lists -/

section
variable {α : Type*}

/-- The sequence of a list's elements followed by a default, ordered lexicographically. -/
def seq (d : α) (l : List α) : Lex (ℕ → α) := toLex fun n => l.getD n d

theorem seq_nil {d : α} : seq d [] = seq d [d] := by
  refine congrArg toLex (funext fun n => ?_)
  cases n <;> simp

theorem seq_cons_inj {d a b : α} {l r : List α} :
    seq d (a :: l) = seq d (b :: r) ↔ a = b ∧ seq d l = seq d r := by
  constructor
  · intro h
    have hn := congrFun (toLex.injective h)
    exact ⟨hn 0, congrArg toLex (funext fun n => hn (n + 1))⟩
  · rintro ⟨rfl, h⟩
    have hn := congrFun (toLex.injective h)
    refine congrArg toLex (funext fun n => ?_)
    cases n with
    | zero => rfl
    | succ n => exact hn n

/-- A list that continues like the default is a list of defaults. -/
theorem seq_eq_nil {d : α} {l : List α} : seq d l = seq d [] ↔ ∀ a ∈ l, a = d := by
  induction l with
  | nil => simp
  | cons a l ih => rw [seq_nil, seq_cons_inj, ih, List.forall_mem_cons]

theorem rdropWhile_cons (p : α → Bool) (a : α) (l : List α) : (a :: l).rdropWhile p =
    if l.rdropWhile p = [] then if p a then [] else [a] else a :: l.rdropWhile p := by
  unfold List.rdropWhile
  rw [List.reverse_cons, List.dropWhile_append]
  by_cases h : l.reverse.dropWhile p = []
  · by_cases ha : p a <;> simp [h, ha]
  · simp [h]

/-- Two lists continue alike iff they are equal up to defaults at the end. -/
theorem seq_inj [DecidableEq α] {d : α} : ∀ {l r : List α}, seq d l = seq d r ↔
    l.rdropWhile (decide <| · = d) = r.rdropWhile (decide <| · = d)
  | [], r => by
    rw [List.rdropWhile_nil, eq_comm, seq_eq_nil, @eq_comm _ [], List.rdropWhile_eq_nil_iff]
    simp
  | a :: l, [] => by
    rw [List.rdropWhile_nil, seq_eq_nil, List.rdropWhile_eq_nil_iff]
    simp
  | a :: l, b :: r => by
    rw [seq_cons_inj, seq_inj, rdropWhile_cons, rdropWhile_cons]
    -- an element is dropped only if nothing is left behind it
    by_cases hl : l.rdropWhile (decide <| · = d) = [] <;>
      by_cases hr : r.rdropWhile (decide <| · = d) = []
    · by_cases ha : a = d <;> by_cases hb : b = d
      · simp [hl, hr, ha, hb]
      · simp [hl, hr, ha, hb, Ne.symm hb]
      · simp [hl, hr, ha, hb]
      · simp [hl, hr, ha, hb]
    · have hne : [] ≠ r.rdropWhile (decide <| · = d) := Ne.symm hr
      by_cases ha : a = d
      · simp [hl, hr, ha, hne]
      · simp [hl, hr, ha, hne]
    · by_cases hb : b = d
      · simp [hl, hr, hb]
      · simp [hl, hr, hb]
    · simp [hl, hr]

theorem getD_map {ι β : Type*} (f : ι → β) (l : List ι) (n : ℕ) (i : ι) :
    (l.map f).getD n (f i) = f (l.getD n i) := by
  rw [List.getD_eq_getElem?_getD, List.getElem?_map, List.getD_eq_getElem?_getD]
  cases l[n]? <;> rfl

/-- An injective map does not identify more lists. -/
theorem seq_map_inj {ι β : Type*} {f : ι → β} (hf : Function.Injective f) {i : ι} {l r : List ι} :
    seq (f i) (l.map f) = seq (f i) (r.map f) ↔ seq i l = seq i r := by
  constructor
  · intro h
    have hn := congrFun (toLex.injective h)
    simp only [getD_map] at hn
    exact congrArg toLex (funext fun n => hf (hn n))
  · intro h
    have hn := congrFun (toLex.injective h)
    refine congrArg toLex (funext fun n => ?_)
    simp only [getD_map]
    exact congrArg f (hn n)

end

section
variable {d : α}

/-- The first elements decide unless they are equal. -/
theorem seq_cons_lt {a b : α} {l r : List α} :
    seq d (a :: l) < seq d (b :: r) ↔ a < b ∨ a = b ∧ seq d l < seq d r := by
  constructor
  · rintro ⟨n, heq, hlt⟩
    cases n with
    | zero => exact .inl hlt
    | succ n =>
      refine .inr ⟨heq 0 n.succ_pos, n, fun m hm => ?_, hlt⟩
      exact heq (m + 1) (Nat.succ_lt_succ hm)
  · rintro (h | ⟨rfl, n, heq, hlt⟩)
    · exact ⟨0, fun m hm => absurd hm m.not_lt_zero, h⟩
    · refine ⟨n + 1, fun m hm => ?_, hlt⟩
      cases m with
      | zero => rfl
      | succ m => exact heq m (Nat.lt_of_succ_lt_succ hm)

/-- The order of two lists depends only on how their elements compare. -/
theorem seq_map_lt_iff {ι β γ : Type*} [LinearOrder β] [LinearOrder γ] {f : ι → β} {g : ι → γ}
    {i : ι} {l r : List ι}
    (h : ∀ a ∈ i :: l, ∀ b ∈ i :: r, (f a < f b ↔ g a < g b) ∧ (f a = f b ↔ g a = g b)) :
    seq (f i) (l.map f) < seq (f i) (r.map f) ↔ seq (g i) (l.map g) < seq (g i) (r.map g) := by
  have hmem : ∀ (l : List ι) n, l.getD n i ∈ i :: l := by
    intro l n
    rw [List.getD_eq_getElem?_getD]
    cases hn : l[n]? with
    | none => exact List.mem_cons_self
    | some a => exact List.mem_cons_of_mem _ (List.mem_of_getElem? hn)
  have hat := fun n => h _ (hmem l n) _ (hmem r n)
  constructor
  · rintro ⟨n, heq, hlt⟩
    simp only [seq, Pi.toLex_apply, getD_map] at heq hlt
    refine ⟨n, fun m hm => ?_, ?_⟩
    · simpa only [seq, Pi.toLex_apply, getD_map] using (hat m).2.1 (heq m hm)
    · simpa only [seq, Pi.toLex_apply, getD_map] using (hat n).1.1 hlt
  · rintro ⟨n, heq, hlt⟩
    simp only [seq, Pi.toLex_apply, getD_map] at heq hlt
    refine ⟨n, fun m hm => ?_, ?_⟩
    · simpa only [seq, Pi.toLex_apply, getD_map] using (hat m).2.2 (heq m hm)
    · simpa only [seq, Pi.toLex_apply, getD_map] using (hat n).1.2 hlt

end

/-! ## Lists continued by zeros -/

/-- The sequence of a list's numbers followed by zeros, ordered lexicographically. -/
def padded (l : List ℤ) : Lex (ℕ → ℤ) := toLex fun n => l.getD n 0

theorem padded_nil : padded [] = padded [0] := seq_nil

/-- The first numbers decide unless they are equal. -/
theorem padded_cons_lt {a b : ℤ} {l r : List ℤ} :
    padded (a :: l) < padded (b :: r) ↔ a < b ∨ a = b ∧ padded l < padded r := seq_cons_lt

theorem padded_append_lt {w l r : List ℤ} (h : padded l < padded r) :
    padded (w ++ l) < padded (w ++ r) := by
  induction w with
  | nil => exact h
  | cons a w ih => exact padded_cons_lt.2 (.inr ⟨rfl, ih⟩)

theorem padded_append {w l r : List ℤ} (h : padded l = padded r) :
    padded (w ++ l) = padded (w ++ r) := by
  induction w with
  | nil => exact h
  | cons a w ih => exact seq_cons_inj.2 ⟨rfl, ih⟩

end RulesMkosi
