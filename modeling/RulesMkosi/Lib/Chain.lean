/-
  Chains of links.

  A link leads to another link, to the end of its chain, or to a fault.  A chain either
  comes to one end (`EndsAt.unique`) or is broken: it runs into a cycle or a fault.  It
  is never both (`EndsAt.not_broken`).
-/
import Mathlib.Logic.Relation

namespace RulesMkosi

/-- Where a link leads. -/
inductive Hop (α β ρ : Type*) where
  | link (next : α)
  | stop (target : β)
  | fault (reason : ρ)
  deriving Repr, DecidableEq

namespace Hop

variable {α β ρ : Type*} (hop : α → Hop α β ρ)

def Next (a b : α) : Prop := hop a = .link b

/-- Following the links from `a` comes to the end `target`. -/
inductive EndsAt : α → β → Prop
  | stop {a : α} {target : β} : hop a = .stop target → EndsAt a target
  | link {a b : α} {target : β} : hop a = .link b → EndsAt b target → EndsAt a target

/-- Following the links from `a` reaches a cycle or a fault. -/
def Broken (a : α) : Prop :=
  ∃ b, Relation.ReflTransGen (Next hop) a b ∧
    (Relation.TransGen (Next hop) b b ∨ ∃ reason, hop b = .fault reason)

variable {hop}

theorem Broken.fault {a : α} {reason : ρ} (h : hop a = .fault reason) : Broken hop a :=
  ⟨a, .refl, .inr ⟨reason, h⟩⟩

theorem Broken.cycle {a : α} (h : Relation.TransGen (Next hop) a a) : Broken hop a :=
  ⟨a, .refl, .inl h⟩

theorem Broken.of_next {a b : α} (hnext : Next hop a b) (h : Broken hop b) : Broken hop a := by
  obtain ⟨c, hreach, hc⟩ := h
  exact ⟨c, .head hnext hreach, hc⟩

/-- A broken chain is broken behind its first link, or at it. -/
theorem Broken.next {a b : α} (hnext : Next hop a b) (h : Broken hop a) : Broken hop b := by
  have hsame : ∀ {c}, Next hop a c → c = b := by
    intro c hc
    cases hc.symm.trans hnext
    rfl
  obtain ⟨c, hreach, hc⟩ := h
  rcases Relation.ReflTransGen.cases_head hreach with rfl | ⟨d, hd, hreach⟩
  · rcases hc with hcycle | ⟨reason, hfault⟩
    · obtain ⟨d, hd, hback⟩ := Relation.TransGen.head'_iff.1 hcycle
      rw [hsame hd] at hback
      exact .cycle (.tail' hback hnext)
    · cases hfault.symm.trans hnext
  · rw [hsame hd] at hreach
    exact ⟨c, hreach, hc⟩

theorem EndsAt.unique {a : α} {target target' : β} (h : EndsAt hop a target)
    (h' : EndsAt hop a target') : target = target' := by
  induction h with
  | stop hstop =>
    cases h' with
    | stop hstop' =>
      cases hstop.symm.trans hstop'
      rfl
    | link hlink => cases hstop.symm.trans hlink
  | link hlink _ ih =>
    cases h' with
    | stop hstop => cases hlink.symm.trans hstop
    | link hlink' hrest =>
      cases hlink.symm.trans hlink'
      exact ih hrest

/-- **A chain with an end is not broken.** -/
theorem EndsAt.not_broken {a : α} {target : β} (h : EndsAt hop a target) : ¬ Broken hop a := by
  induction h with
  | stop hstop =>
    rintro ⟨c, hreach, hc⟩
    rcases Relation.ReflTransGen.cases_head hreach with rfl | ⟨d, hd, -⟩
    · rcases hc with hcycle | ⟨reason, hfault⟩
      · obtain ⟨d, hd, -⟩ := Relation.TransGen.head'_iff.1 hcycle
        cases hstop.symm.trans hd
      · cases hstop.symm.trans hfault
    · cases hstop.symm.trans hd
  | link hlink _ ih => exact fun hbroken => ih (hbroken.next hlink)

end Hop

end RulesMkosi
