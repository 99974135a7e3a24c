/-
  Fallible programs.

  A function that raises is a function into `Except ε`; a guard that raises is
  `raiseIf`.  The equations below take a run apart: a bind returns iff both of
  its parts do, and a guard returns iff its condition is false.
-/
import Mathlib.Data.List.Basic
import Mathlib.Data.List.Forall2

namespace RulesMkosi

/-- Python's built-in exceptions, with their messages. -/
inductive Exn where
  | valueError (message : String)
  | structError (message : String)
  | keyError (key : String)
  | osError (message : String)
  | unicodeError (message : String)
  | indexError (message : String)
  | runtimeError (message : String)
  | typeError (message : String)
  deriving Repr, DecidableEq

universe u v w

/-- `if c: raise e` -/
def raiseIf {ε : Type u} (c : Prop) [Decidable c] (e : ε) : Except ε Unit :=
  if c then .error e else .ok ()

/-- `if c: x`, for a check `x` that may raise -/
def checkIf {ε : Type u} (c : Prop) [Decidable c] (x : Except ε Unit) : Except ε Unit :=
  if c then x else .ok ()

section
variable {ε : Type u} {α β : Type v} {γ : Type w}

@[simp] theorem raiseIf_eq_ok {c : Prop} [Decidable c] {e : ε} {u : Unit} :
    raiseIf c e = .ok u ↔ ¬ c := by
  unfold raiseIf; split_ifs with h <;> simp [h]

@[simp] theorem checkIf_eq_ok {c : Prop} [Decidable c] {x : Except ε Unit} {u : Unit} :
    checkIf c x = .ok u ↔ (c → x = .ok ()) := by
  unfold checkIf; split_ifs with h <;> simp [h]

@[simp] theorem bind_eq_ok {x : Except ε α} {f : α → Except ε β} {b : β} :
    (x >>= f) = .ok b ↔ ∃ a, x = .ok a ∧ f a = .ok b := by
  cases x with
  | error e => simp [bind, Except.bind]
  | ok a => simp [bind, Except.bind]

/-- A bind raises what its first part raises, or its second one. -/
theorem bind_eq_error {x : Except ε α} {f : α → Except ε β} {e : ε} :
    (x >>= f) = .error e ↔ x = .error e ∨ ∃ a, x = .ok a ∧ f a = .error e := by
  cases x with
  | error e' => simp [bind, Except.bind]
  | ok a => simp [bind, Except.bind]

theorem raiseIf_of_not {c : Prop} [Decidable c] (h : ¬ c) (e : ε) : raiseIf c e = .ok () := if_neg h

theorem raiseIf_congr {c c' : Prop} [Decidable c] [Decidable c'] (h : c ↔ c') (e : ε) :
    raiseIf c e = raiseIf c' e := if_congr h rfl rfl

theorem raiseIf_eq_error {c : Prop} [Decidable c] {e e' : ε} :
    raiseIf c e = .error e' ↔ c ∧ e = e' := by
  unfold raiseIf; split_ifs with h <;> simp [h]

/-- A check has one possible result. -/
@[simp] theorem exists_unit {P : Unit → Prop} : (∃ u, P u) ↔ P () :=
  ⟨fun ⟨_, h⟩ => h, fun h => ⟨(), h⟩⟩

@[simp] theorem pure_eq_ok {a b : α} : (pure a : Except ε α) = .ok b ↔ a = b := by
  simp [pure, Except.pure]

@[simp] theorem ok_bind {a : α} {f : α → Except ε β} : (Except.ok a >>= f) = f a := rfl

@[simp] theorem error_bind {e : ε} {f : α → Except ε β} :
    ((Except.error e : Except ε α) >>= f) = .error e := rfl

/-- What is known of a run that was evaluated. -/
theorem toOption_map_eq_some {x : Except ε α} {f : α → β} {b : β} :
    x.toOption.map f = some b ↔ ∃ a, x = .ok a ∧ f a = b := by
  cases x with
  | error e => simp [Except.toOption]
  | ok a => simp [Except.toOption]

/-- The results of a successful `mapM`, element by element. -/
theorem mapM_eq_ok {f : γ → Except ε β} : ∀ {l : List γ} {r : List β},
    l.mapM f = .ok r ↔ List.Forall₂ (fun a b => f a = .ok b) l r
  | [], r => by
    rw [List.mapM_nil, pure_eq_ok]
    constructor
    · rintro rfl; exact .nil
    · rintro ⟨⟩; rfl
  | a :: l, r => by
    simp only [List.mapM_cons, bind_eq_ok, pure_eq_ok, mapM_eq_ok (l := l)]
    constructor
    · rintro ⟨b, hb, bs, hbs, rfl⟩; exact .cons hb hbs
    · rintro (_ | ⟨hb, hbs⟩); exact ⟨_, hb, _, hbs, rfl⟩

/-- A `mapM` returns if every element's call does. -/
theorem exists_mapM_ok {f : γ → Except ε β} : ∀ {l : List γ}, (∀ a ∈ l, ∃ b, f a = .ok b) →
    ∃ r, l.mapM f = .ok r
  | [], _ => ⟨[], by simp⟩
  | a :: l, h => by
    obtain ⟨b, hb⟩ := h a List.mem_cons_self
    obtain ⟨r, hr⟩ := exists_mapM_ok fun c hc => h c (List.mem_cons_of_mem _ hc)
    exact ⟨b :: r, by simp [List.mapM_cons, hb, hr]⟩

/-- A `mapM` whose calls all return. -/
theorem mapM_eq_map {f : γ → Except ε β} {g : γ → β} : ∀ {l : List γ}, (∀ a ∈ l, f a = .ok (g a)) →
    l.mapM f = .ok (l.map g)
  | [], _ => rfl
  | a :: l, h => by
    rw [List.mapM_cons, h a List.mem_cons_self, ok_bind,
      mapM_eq_map fun b hb => h b (List.mem_cons_of_mem _ hb)]
    rfl

/-- A loop of checks returns iff every check does. -/
theorem forM_eq_ok {check : γ → Except ε Unit} : ∀ {l : List γ},
    l.forM check = .ok () ↔ ∀ a ∈ l, check a = .ok ()
  | [] => by simp [List.forM, pure, Except.pure]
  | a :: l => by
    rw [List.forM, bind_eq_ok, exists_unit, List.forall_mem_cons]
    exact and_congr_right fun _ => forM_eq_ok

theorem foldlM_inv_from {f : β → γ → Except ε β} (P : List γ → β → Prop)
    (step : ∀ done b c b', P done b → f b c = .ok b' → P (done ++ [c]) b') :
    ∀ {l done : List γ} {b b' : β}, P done b → l.foldlM f b = .ok b' → P (done ++ l) b'
  | [], done, b, b', hb, h => by
    rw [List.foldlM_nil, pure_eq_ok] at h
    rw [List.append_nil]; exact h ▸ hb
  | c :: l, done, b, b', hb, h => by
    rw [List.foldlM_cons, bind_eq_ok] at h
    obtain ⟨b₁, h₁, h⟩ := h
    have := foldlM_inv_from P step (step done b c b₁ hb h₁) h
    rwa [List.append_assoc] at this

/-- **Invariant rule for loops that may raise.**  The invariant may mention the
    elements that are done; every iteration that returns keeps it. -/
theorem foldlM_inv {f : β → γ → Except ε β} (P : List γ → β → Prop)
    (step : ∀ done b c b', P done b → f b c = .ok b' → P (done ++ [c]) b')
    {l : List γ} {b b' : β} (hb : P [] b) (h : l.foldlM f b = .ok b') : P l b' :=
  foldlM_inv_from P step hb h

/-- The rule for an invariant that an iteration keeps for every element of the list. -/
theorem foldlM_mem_inv {f : β → γ → Except ε β} (P : β → Prop) :
    ∀ {l : List γ} {b b' : β}, (∀ b c b', c ∈ l → P b → f b c = .ok b' → P b') → P b →
      l.foldlM f b = .ok b' → P b'
  | [], b, b', _, hb, h => by
    rw [List.foldlM_nil, pure_eq_ok] at h
    exact h ▸ hb
  | c :: l, b, b', step, hb, h => by
    rw [List.foldlM_cons, bind_eq_ok] at h
    obtain ⟨b₁, h₁, h⟩ := h
    exact foldlM_mem_inv P (fun b d b' hd => step b d b' (List.mem_cons_of_mem _ hd))
      (step b c b₁ List.mem_cons_self hb h₁) h

/-- What a loop raises, one of its iterations raises, in a state with the invariant. -/
theorem foldlM_eq_error {f : β → γ → Except ε β} (P : β → Prop) {e : ε} :
    ∀ {l : List γ} {b : β}, (∀ b c b', c ∈ l → P b → f b c = .ok b' → P b') → P b →
      l.foldlM f b = .error e → ∃ b' c, c ∈ l ∧ P b' ∧ f b' c = .error e
  | [], b, _, _, h => by cases h
  | c :: l, b, step, hb, h => by
    rw [List.foldlM_cons, bind_eq_error] at h
    rcases h with h | ⟨b₁, h₁, h⟩
    · exact ⟨b, c, List.mem_cons_self, hb, h⟩
    · obtain ⟨b', d, hd, hb', hraise⟩ := foldlM_eq_error P
        (fun b d b' hd => step b d b' (List.mem_cons_of_mem _ hd))
        (step b c b₁ List.mem_cons_self hb h₁) h
      exact ⟨b', d, List.mem_cons_of_mem _ hd, hb', hraise⟩

theorem foldlM_congr {f g : β → γ → Except ε β} : ∀ {l : List γ} {b : β},
    (∀ b, ∀ a ∈ l, f b a = g b a) → l.foldlM f b = l.foldlM g b
  | [], _, _ => rfl
  | a :: l, b, h => by
    have ih : ∀ b, l.foldlM f b = l.foldlM g b := fun b =>
      foldlM_congr fun b' a' ha' => h b' a' (List.mem_cons_of_mem a ha')
    rw [List.foldlM_cons, List.foldlM_cons, h b a List.mem_cons_self]
    simp only [ih]

/-- Two loops whose iterations keep a relation between their states: where the
    first returns, so does the second. -/
theorem foldlM_rel {ε' : Type u} {β' : Type v} {f : β → γ → Except ε β} {g : β' → γ → Except ε' β'}
    (R : β → β' → Prop) : ∀ {l : List γ} {b : β} {b' : β'} {c : β},
      (∀ b b' c a, a ∈ l → R b b' → f b a = .ok c → ∃ c', g b' a = .ok c' ∧ R c c') →
      R b b' → l.foldlM f b = .ok c → ∃ c', l.foldlM g b' = .ok c' ∧ R c c'
  | [], b, b', c, _, hR, h => by
    rw [List.foldlM_nil, pure_eq_ok] at h
    subst h
    exact ⟨b', rfl, hR⟩
  | a :: l, b, b', c, step, hR, h => by
    rw [List.foldlM_cons, bind_eq_ok] at h
    obtain ⟨b₁, h₁, h⟩ := h
    obtain ⟨b₁', h₁', hR₁⟩ := step _ _ _ a List.mem_cons_self hR h₁
    obtain ⟨c', h', hR'⟩ := foldlM_rel R
      (fun b b' c d hd => step b b' c d (List.mem_cons_of_mem _ hd)) hR₁ h
    exact ⟨c', by rw [List.foldlM_cons, h₁', ok_bind, h'], hR'⟩

theorem forall₂_mem_right {α : Type w} {R : γ → α → Prop} {l : List γ} {r : List α}
    (h : List.Forall₂ R l r) {b : α} (hb : b ∈ r) : ∃ a ∈ l, R a b := by
  induction h with
  | nil => exact absurd hb List.not_mem_nil
  | cons hab _ ih =>
    rcases List.mem_cons.1 hb with rfl | hb
    · exact ⟨_, List.mem_cons_self, hab⟩
    · obtain ⟨a, ha, hR⟩ := ih hb
      exact ⟨a, List.mem_cons_of_mem _ ha, hR⟩

theorem forall₂_map_eq {α : Type w} {δ : Type*} {R : γ → α → Prop} {f : γ → δ} {g : α → δ}
    (hR : ∀ a b, R a b → f a = g b) : ∀ {l : List γ} {r : List α}, List.Forall₂ R l r →
      l.map f = r.map g
  | _, _, .nil => rfl
  | _, _, .cons hab hrest => by rw [List.map_cons, List.map_cons, hR _ _ hab, forall₂_map_eq hR hrest]

/-! ## What a computation returns or raises -/

/-- A returned value has `post`, a raised error has `good`. -/
def Yields (good : ε → Prop) (x : Except ε α) (post : α → Prop) : Prop :=
  match x with
  | .ok a => post a
  | .error e => good e

variable {good : ε → Prop}

theorem yields_bind {x : Except ε α} {f : α → Except ε β} {mid : α → Prop} {post : β → Prop}
    (hx : Yields good x mid) (hf : ∀ a, mid a → Yields good (f a) post) :
    Yields good (x >>= f) post := by
  cases x with
  | error e => exact hx
  | ok a => exact hf a hx

theorem yields_mono {x : Except ε α} {post post' : α → Prop} (h : Yields good x post)
    (himp : ∀ a, post a → post' a) : Yields good x post' := by
  cases x with
  | error e => exact h
  | ok a => exact himp a h

theorem yields_weaken {good' : ε → Prop} {x : Except ε α} {post : α → Prop} (h : Yields good x post)
    (himp : ∀ e, good e → good' e) : Yields good' x post := by
  cases x with
  | error e => exact himp e h
  | ok a => exact h

/-- The returned value with its equation. -/
theorem yields_eq {x : Except ε α} {post : α → Prop} (h : Yields good x post) :
    Yields good x fun a => x = .ok a ∧ post a := by
  cases x with
  | error e => exact h
  | ok a => exact ⟨rfl, h⟩

theorem yields_raiseIf {c : Prop} [Decidable c] {e : ε} (h : c → good e) :
    Yields good (raiseIf c e) fun _ => ¬ c := by
  unfold raiseIf
  split_ifs with hc
  · exact h hc
  · exact hc

theorem yields_mapM {f : γ → Except ε β} {post : β → Prop} : ∀ {l : List γ},
    (∀ a ∈ l, Yields good (f a) post) → Yields good (l.mapM f) fun r => ∀ b ∈ r, post b
  | [], _ => by simp [Yields, pure, Except.pure]
  | a :: l, h => by
    rw [List.mapM_cons]
    refine yields_bind (h a List.mem_cons_self) fun b hb => ?_
    refine yields_bind (yields_mapM fun c hc => h c (List.mem_cons_of_mem _ hc)) fun bs hbs => ?_
    intro c hc
    rcases List.mem_cons.1 hc with rfl | hc
    · exact hb
    · exact hbs c hc

theorem yields_foldlM {f : β → γ → Except ε β} {P : β → Prop} : ∀ {l : List γ} {b : β},
    (∀ b, ∀ c ∈ l, P b → Yields good (f b c) P) → P b → Yields good (l.foldlM f b) P
  | [], b, _, hb => by simpa [Yields, pure, Except.pure] using hb
  | c :: l, b, step, hb => by
    rw [List.foldlM_cons]
    refine yields_bind (step b c List.mem_cons_self hb) fun b' hb' => ?_
    exact yields_foldlM (fun b d hd => step b d (List.mem_cons_of_mem _ hd)) hb'

end

end RulesMkosi
