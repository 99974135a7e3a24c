/-
  Programs that act on their surroundings and may fail at any point.

  A program knows how many calls were made before it; what a call finds may depend on that
  number, so that a world which changes between two calls, in any way, is one that the calls
  are read from.  A policy says what every effect does to a state and in which states it is
  allowed.  `Safe` is the weakest precondition of a program under a policy: all its effects are
  allowed where they occur, also when it fails later, and when it returns, the state is as said.
-/
import Mathlib.Data.Nat.Notation

namespace RulesMkosi

universe u v w

/-- What came of a program: its effects, the calls that were made so far, and its result. -/
structure Effected (ε : Type u) (ρ : Type v) (α : Type) where
  effects : List ρ
  calls : ℕ
  result : Except ε α

/-- A program, from the number of calls before it. -/
def Prog (ε : Type u) (ρ : Type v) (α : Type) := ℕ → Effected ε ρ α

/-- What effects do to a state, and the states in which they are allowed. -/
structure Policy (σ : Type w) (ρ : Type v) where
  after : σ → ρ → σ
  Allowed : σ → ρ → Prop

namespace Policy

variable {σ : Type w} {ρ : Type v} (policy : Policy σ ρ)

def run (s : σ) (effects : List ρ) : σ := effects.foldl policy.after s

/-- Every effect is allowed in the state that those before it lead to. -/
def Allows : σ → List ρ → Prop
  | _, [] => True
  | s, effect :: effects => policy.Allowed s effect ∧ Allows (policy.after s effect) effects

theorem allows_append {s : σ} : ∀ {effects effects' : List ρ}, policy.Allows s (effects ++ effects') ↔
    policy.Allows s effects ∧ policy.Allows (policy.run s effects) effects'
  | [], _ => ⟨fun h => ⟨trivial, h⟩, fun h => h.2⟩
  | effect :: effects, effects' => by
    rw [List.cons_append, Allows, Allows, allows_append, and_assoc]
    rfl

/-- The effect of a sequence that is allowed is allowed at its place. -/
theorem Allows.allowed {policy : Policy σ ρ} {s : σ} {before after : List ρ} {effect : ρ}
    (h : policy.Allows s (before ++ effect :: after)) : policy.Allowed (policy.run s before) effect :=
  ((policy.allows_append.1 h).2).1

end Policy

namespace Prog

variable {ε : Type u} {ρ : Type v} {α β γ : Type}

protected def pure (a : α) : Prog ε ρ α := fun calls => ⟨[], calls, .ok a⟩

protected def bind (p : Prog ε ρ α) (f : α → Prog ε ρ β) : Prog ε ρ β := fun calls =>
  match (p calls).result with
  | .error e => ⟨(p calls).effects, (p calls).calls, .error e⟩
  | .ok a =>
    ⟨(p calls).effects ++ (f a (p calls).calls).effects, (f a (p calls).calls).calls,
      (f a (p calls).calls).result⟩

instance : Monad (Prog ε ρ) where
  pure := Prog.pure
  bind := Prog.bind

/-- A program that only computes. -/
def lift (x : Except ε α) : Prog ε ρ α := fun calls => ⟨[], calls, x⟩

/-- A call that finds something out. -/
def query (f : ℕ → Except ε α) : Prog ε ρ α := fun calls => ⟨[], calls + 1, f calls⟩

/-- A call that has an effect, unless it fails. -/
def act (f : ℕ → Except ε ρ) : Prog ε ρ Unit := fun calls =>
  match f calls with
  | .error e => ⟨[], calls + 1, .error e⟩
  | .ok effect => ⟨[effect], calls + 1, .ok ()⟩

variable {σ : Type w} {policy : Policy σ ρ}

/-- From the state on, all effects of the program are allowed; when it returns, its value and the state
    that is reached satisfy the post-condition. -/
def Safe (policy : Policy σ ρ) (s : σ) (p : Prog ε ρ α) (post : α → σ → Prop) : Prop :=
  ∀ calls, policy.Allows s (p calls).effects ∧
    ∀ a, (p calls).result = .ok a → post a (policy.run s (p calls).effects)

/-! ## Rules -/

theorem safe_pure {s : σ} {a : α} {post : α → σ → Prop} (h : post a s) :
    Safe policy s (pure a : Prog ε ρ α) post := fun _ =>
  ⟨trivial, fun _ ha => Except.ok.inj ha ▸ h⟩

theorem safe_lift {s : σ} {x : Except ε α} {post : α → σ → Prop} (h : ∀ a, x = .ok a → post a s) :
    Safe policy s (lift x : Prog ε ρ α) post := fun _ => ⟨trivial, h⟩

theorem safe_query {s : σ} {f : ℕ → Except ε α} {post : α → σ → Prop}
    (h : ∀ calls a, f calls = .ok a → post a s) : Safe policy s (query f : Prog ε ρ α) post :=
  fun calls => ⟨trivial, h calls⟩

theorem safe_act {s : σ} {f : ℕ → Except ε ρ} {post : Unit → σ → Prop}
    (h : ∀ calls effect, f calls = .ok effect →
      policy.Allowed s effect ∧ post () (policy.after s effect)) :
    Safe policy s (act f) post := by
  intro calls
  unfold act
  cases hf : f calls with
  | error e => exact ⟨trivial, fun a ha => by cases ha⟩
  | ok effect =>
    obtain ⟨hallowed, hpost⟩ := h calls effect hf
    exact ⟨⟨hallowed, trivial⟩, fun _ _ => hpost⟩

/-- **Composition.** -/
theorem Safe.bind {s : σ} {p : Prog ε ρ α} {f : α → Prog ε ρ β} {post : β → σ → Prop}
    (h : Safe policy s p fun a s' => Safe policy s' (f a) post) : Safe policy s (p >>= f) post := by
  intro calls
  obtain ⟨hallows, hok⟩ := h calls
  show policy.Allows s (Prog.bind p f calls).effects ∧
    ∀ b, (Prog.bind p f calls).result = .ok b → post b (policy.run s (Prog.bind p f calls).effects)
  unfold Prog.bind
  cases hresult : (p calls).result with
  | error e => exact ⟨hallows, fun b hb => by cases hb⟩
  | ok a =>
    obtain ⟨hallows', hok'⟩ := hok a hresult (p calls).calls
    refine ⟨policy.allows_append.2 ⟨hallows, hallows'⟩, fun b hb => ?_⟩
    have hpost := hok' b hb
    rwa [Policy.run, Policy.run, ← List.foldl_append] at hpost

theorem Safe.weaken {s : σ} {p : Prog ε ρ α} {post post' : α → σ → Prop} (h : Safe policy s p post)
    (hpost : ∀ a s', post a s' → post' a s') : Safe policy s p post' := fun calls =>
  ⟨(h calls).1, fun a ha => hpost a _ ((h calls).2 a ha)⟩

/-- A loop over a list, with an invariant on what is left and the state. -/
theorem safe_forM {p : γ → Prog ε ρ Unit} (inv : List γ → σ → Prop)
    (h : ∀ c l s, inv (c :: l) s → Safe policy s (p c) fun _ s' => inv l s') :
    ∀ {l : List γ} {s : σ}, inv l s → Safe policy s (l.forM p) fun _ s' => inv [] s'
  | [], _, hinv => safe_pure hinv
  | c :: l, s, hinv => by
    rw [List.forM_eq_forM, List.forM_cons]
    exact ((h c l s hinv).weaken fun _ _ hinv' => safe_forM inv h hinv').bind

end Prog

end RulesMkosi
