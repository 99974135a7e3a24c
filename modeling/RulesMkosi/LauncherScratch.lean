/-
  Launchers in one scratch directory (`mkosi/debian/debian_launcher.py`).

  `_extract_root` takes the `.in-use` directory of the scratch directory as its lock,
  extracts into `.partial`, renames that to `root` and gives the lock back; `_run` works in
  `.runtime` beside the root and starts the namespace runner on the root.  Any number of
  launchers may do so at once, each call may fail and any of them may stop for good, whatever
  earlier ones have left in the directory.  At most one is ever between taking the lock and
  giving it back, and it finds in `.partial` what it has written itself
  (`extraction_exclusive`); at most one is ever given a root, that root is its own and
  complete, and afterwards nothing in it changes but `.namespace-oldroot`, which the runner of
  its launcher makes and removes (`returned_root_kept`).

  A tree is the list of the writes that made it, each with its launcher; that of `.complete`
  is the last.  `.namespace-oldroot` is not among them, although an archive may have it.  The
  tool that a runner executes in the end makes no step here: it finds the root read-only.
-/
import Mathlib.Logic.Function.Basic
import Mathlib.Logic.Relation
import Mathlib.Data.List.Range

namespace RulesMkosi.LauncherScratch

variable {ι : Type*}

/-! ## The launchers -/

/-- The scratch directory: whether it exists, who took `.in-use`, `.partial`, `root`, who made `.runtime`,
    and whether `.namespace-oldroot` is in `root`. -/
structure Scratch (ι : Type*) where
  present : Bool
  inUse : Option ι
  partialRoot : Option (List (ι × ℕ))
  root : Option (List (ι × ℕ))
  runtime : Option ι
  oldRoot : Bool
  deriving Repr, DecidableEq

/-- Where a launcher is; `extracted` is whether the body of the `try` was left with a root. -/
inductive Stage where
  /-- before `scratch_was_present = os.path.lexists(...)` -/
  | entry
  /-- in `_private_scratch` -/
  | scratchParent
  | makeParent
  | list
  /-- before `os.mkdir(lock)` -/
  | lock
  /-- before `os.path.lexists(root)` -/
  | checkRoot
  | makePartial
  /-- in `_materialize_root` -/
  | materialize (written : ℕ)
  | replace
  /-- in `shutil.rmtree(partial)` -/
  | removePartial
  /-- before `os.rmdir(lock)` -/
  | unlock (extracted : Bool)
  /-- before `os.path.lexists(root)` in the `finally` -/
  | checkEmpty (extracted : Bool)
  | removeParent (extracted : Bool)
  /-- `_extract_root` has returned -/
  | returned
  /-- in the `try` of `_run` -/
  | running
  | finished
  | failed
  deriving Repr, DecidableEq

/-- A launcher, and whether it has started the namespace runner. -/
structure Launcher where
  stage : Stage
  scratchWasPresent : Bool
  runner : Bool
  deriving Repr, DecidableEq

def Launcher.to (l : Launcher) (stage : Stage) : Launcher := { l with stage := stage }

/-- The end of `_extract_root`. -/
def outcome (extracted : Bool) : Stage := if extracted then .returned else .failed

/-- No entry in the scratch directory. -/
def Scratch.Empty (f : Scratch ι) : Prop :=
  f.inUse = none ∧ f.partialRoot = none ∧ f.root = none ∧ f.runtime = none

variable (entries : ℕ)

/-- One step of the launcher `i`; `_materialize_root` makes `entries` writes before `.complete`. -/
inductive Move (i : ι) : Launcher → Scratch ι → Launcher → Scratch ι → Prop
  | entry {l f} : l.stage = .entry →
    Move i l f { l with stage := .scratchParent, scratchWasPresent := f.present } f
  | isParent {l f} : l.stage = .scratchParent → f.present = true → Move i l f (l.to .list) f
  | noParent {l f} : l.stage = .scratchParent → f.present = false → Move i l f (l.to .makeParent) f
  | makeParent {l f} : l.stage = .makeParent → f.present = false →
    Move i l f (l.to .list) { f with present := true }
  /-- only `.in-use` may be there -/
  | list {l f} : l.stage = .list → f.present = true → f.partialRoot = none → f.root = none →
    f.runtime = none → Move i l f (l.to .lock) f
  | lock {l f} : l.stage = .lock → f.present = true → f.inUse = none →
    Move i l f (l.to .checkRoot) { f with inUse := some i }
  /-- an error, or a check that fails, before the lock is taken -/
  | fail {l f} : l.stage ∈ [.entry, .scratchParent, .makeParent, .list, .lock] →
    Move i l f (l.to .failed) f
  | checkRoot {l f} : l.stage = .checkRoot → f.root = none → Move i l f (l.to .makePartial) f
  | makePartial {l f} : l.stage = .makePartial → f.partialRoot = none →
    Move i l f (l.to (.materialize 0)) { f with partialRoot := some [] }
  /-- an error outside of the inner `try`, or one that is no `Exception` in it -/
  | raise {l f} : (l.stage ∈ [.checkRoot, .makePartial, .replace, .removePartial] ∨
      ∃ written, l.stage = .materialize written) → Move i l f (l.to (.unlock false)) f
  | write {l f written content} : l.stage = .materialize written → written ≤ entries →
    f.partialRoot = some content →
    Move i l f (l.to (.materialize (written + 1)))
      { f with partialRoot := some (content ++ [(i, written)]) }
  | materialized {l f} : l.stage = .materialize (entries + 1) → Move i l f (l.to .replace) f
  /-- an error in the inner `try` -/
  | except {l f} : (l.stage = .replace ∨ ∃ written, l.stage = .materialize written) →
    Move i l f (l.to .removePartial) f
  /-- a directory replaces only an empty one; `archived` is whether the archive has `.namespace-oldroot` -/
  | replace {l f content archived} : l.stage = .replace → f.partialRoot = some content →
    (f.root = none ∨ f.root = some []) →
    Move i l f (l.to (.unlock true))
      { f with root := some content, partialRoot := none, oldRoot := archived }
  | removeEntries {l f content rest} : l.stage = .removePartial → f.partialRoot = some content →
    rest.Sublist content → Move i l f l { f with partialRoot := some rest }
  | removePartial {l f} : l.stage = .removePartial →
    Move i l f (l.to (.unlock false)) { f with partialRoot := none }
  | unlock {l f extracted} : l.stage = .unlock extracted → f.inUse ≠ none →
    Move i l f (l.to (.checkEmpty extracted)) { f with inUse := none }
  /-- `os.rmdir(lock)` fails; the lock may still be there -/
  | unlockFails {l f extracted} : l.stage = .unlock extracted → Move i l f (l.to .failed) f
  | keepParent {l f extracted} : l.stage = .checkEmpty extracted →
    (l.scratchWasPresent = true ∨ f.root ≠ none) → Move i l f (l.to (outcome extracted)) f
  | dropParent {l f extracted} : l.stage = .checkEmpty extracted → l.scratchWasPresent = false →
    f.root = none → Move i l f (l.to (.removeParent extracted)) f
  | removeParent {l f extracted} : l.stage = .removeParent extracted → f.Empty →
    Move i l f (l.to (outcome extracted)) { f with present := false }
  /-- the error of `os.rmdir(scratch_parent)` is suppressed -/
  | suppress {l f extracted} : l.stage = .removeParent extracted →
    Move i l f (l.to (outcome extracted)) f
  | makeRuntime {l f} : l.stage = .returned → f.runtime = none →
    Move i l f (l.to .running) { f with runtime := some i }
  /-- with `--validate-only`, or when `.runtime` cannot be made -/
  | leave {l f} : l.stage = .returned → Move i l f (l.to .finished) f
  | removeRuntime {l f} : l.stage = .running → Move i l f (l.to .finished) { f with runtime := none }
  | keepRuntime {l f} : l.stage = .running → Move i l f (l.to .finished) f
  | startRunner {l f} : l.stage = .running → Move i l f { l with runner := true } f
  /-- `make_root_directory` of the runner, which may outlive its launcher -/
  | makeOldRoot {l f} : l.runner = true → Move i l f l { f with oldRoot := true }
  /-- `rmdir` in `enter_root` of the runner -/
  | removeOldRoot {l f} : l.runner = true → Move i l f l { f with oldRoot := false }

structure State (ι : Type*) where
  launcher : ι → Launcher
  scratch : Scratch ι

/-- All launchers before their first step. -/
def start (scratch : Scratch ι) : State ι := ⟨fun _ => ⟨.entry, false, false⟩, scratch⟩

section
variable [DecidableEq ι]

/-- One launcher makes a step. -/
def Step (s s' : State ι) : Prop :=
  ∃ i l, Move entries i (s.launcher i) s.scratch l s'.scratch ∧
    s'.launcher = Function.update s.launcher i l

/-- The states of every run. -/
def Reaches : State ι → State ι → Prop := Relation.ReflTransGen (Step entries)

end

/-! ## What a launcher relies on -/

/-- The stages between taking the lock and giving it back. -/
def Stage.Holds : Stage → Prop
  | .checkRoot | .makePartial | .materialize _ | .replace | .removePartial | .unlock _ => True
  | _ => False

/-- The stages behind `_extract_root`, where it returned. -/
def Stage.Returned : Stage → Prop
  | .returned | .running | .finished => True
  | _ => False

/-- The first writes of a launcher. -/
def written (i : ι) (count : ℕ) : List (ι × ℕ) := (List.range count).map (Prod.mk i)

@[simp] theorem written_zero (i : ι) : written i 0 = [] := rfl

theorem written_succ (i : ι) (count : ℕ) : written i (count + 1) = written i count ++ [(i, count)] := by
  simp [written, List.range_succ]

/-- The tree of a launcher, complete. -/
def tree (i : ι) : List (ι × ℕ) := written i (entries + 1)

/-- What the launcher `i` relies on at a stage. -/
def Relies (i : ι) (f : Scratch ι) : Stage → Prop
  | .checkRoot | .removePartial | .unlock false => f.inUse = some i
  | .makePartial => f.inUse = some i ∧ f.root = none
  | .materialize count => f.inUse = some i ∧ f.root = none ∧ f.partialRoot = some (written i count)
  | .replace => f.inUse = some i ∧ f.root = none ∧ f.partialRoot = some (tree entries i)
  | .unlock true => f.inUse = some i ∧ f.root = some (tree entries i)
  | .checkEmpty true | .removeParent true | .returned | .running | .finished =>
    f.root = some (tree entries i)
  | _ => True

variable {entries} {i j : ι} {l l' : Launcher} {f f' : Scratch ι} {stage : Stage}

/-! ## One step -/

@[simp] theorem Launcher.to_stage (l : Launcher) (stage : Stage) : (l.to stage).stage = stage := rfl

theorem Relies.inUse (h : Relies entries i f stage) (hstage : stage.Holds) : f.inUse = some i := by
  cases stage with
  | unlock extracted => cases extracted with
    | false => exact h
    | true => exact h.1
  | checkRoot => exact h
  | removePartial => exact h
  | makePartial => exact h.1
  | materialize count => exact h.1
  | replace => exact h.1
  | _ => exact hstage.elim

theorem Relies.root (h : Relies entries i f stage) (hstage : stage.Returned) :
    f.root = some (tree entries i) := by
  cases stage <;> first | exact h | exact hstage.elim

/-- The end of `_extract_root` relies on no more than what came before it. -/
theorem relies_outcome {extracted : Bool} (h : Relies entries i f (.checkEmpty extracted)) :
    Relies entries i f (outcome extracted) := by
  cases extracted with
  | false => trivial
  | true => exact h

/-- No launcher relies on `.namespace-oldroot`. -/
theorem Relies.oldRoot {b : Bool} (h : Relies entries i f stage) :
    Relies entries i { f with oldRoot := b } stage := by
  cases stage with
  | unlock extracted => cases extracted <;> exact h
  | checkEmpty extracted => cases extracted <;> exact h
  | removeParent extracted => cases extracted <;> exact h
  | _ => exact h

/-- The step of a launcher keeps what it relies on. -/
theorem Move.relies (hmove : Move entries i l f l' f') (h : Relies entries i f l.stage) :
    Relies entries i f' l'.stage := by
  cases hmove with
  | entry | isParent | noParent | makeParent | list | fail | unlockFails => trivial
  | lock => rfl
  | checkRoot hstage hroot =>
    rw [hstage] at h
    exact ⟨h, hroot⟩
  | makePartial hstage =>
    rw [hstage] at h
    exact ⟨h.1, h.2, rfl⟩
  | raise hstage =>
    refine h.inUse ?_
    rcases hstage with hstage | ⟨count, hstage⟩
    · simp only [List.mem_cons, List.not_mem_nil, or_false] at hstage
      rcases hstage with hstage | hstage | hstage | hstage <;> rw [hstage] <;> trivial
    · rw [hstage]
      trivial
  | @write count content hstage hcount hcontent =>
    rw [hstage] at h
    refine ⟨h.1, h.2.1, ?_⟩
    rw [h.2.2, Option.some.injEq] at hcontent
    rw [written_succ, hcontent]
  | materialized hstage =>
    rw [hstage] at h
    exact h
  | except hstage =>
    refine h.inUse ?_
    rcases hstage with hstage | ⟨count, hstage⟩ <;> rw [hstage] <;> trivial
  | replace hstage hcontent =>
    rw [hstage] at h
    exact ⟨h.1, hcontent ▸ h.2.2⟩
  | removeEntries hstage =>
    rw [hstage] at h ⊢
    exact h
  | removePartial hstage =>
    rw [hstage] at h
    exact h
  | @unlock extracted hstage =>
    rw [hstage] at h
    cases extracted with
    | false => trivial
    | true => exact h.2
  | keepParent hstage =>
    rw [hstage] at h
    exact relies_outcome h
  | @dropParent extracted hstage =>
    rw [hstage] at h
    cases extracted with
    | false => trivial
    | true => exact h
  | @removeParent extracted hstage hempty =>
    rw [hstage] at h
    refine relies_outcome ?_
    cases extracted with
    | false => trivial
    | true => exact h
  | @suppress extracted hstage =>
    rw [hstage] at h
    refine relies_outcome ?_
    cases extracted with
    | false => trivial
    | true => exact h
  | makeRuntime hstage =>
    rw [hstage] at h
    exact h
  | leave hstage =>
    rw [hstage] at h
    exact h
  | removeRuntime hstage =>
    rw [hstage] at h
    exact h
  | keepRuntime hstage =>
    rw [hstage] at h
    exact h
  | startRunner => exact h
  | makeOldRoot => exact h.oldRoot
  | removeOldRoot => exact h.oldRoot

/-- A launcher without the lock changes neither tree. -/
theorem Move.trees (hmove : Move entries j l f l' f') (h : ¬ l.stage.Holds) :
    f'.partialRoot = f.partialRoot ∧ f'.root = f.root := by
  cases hmove <;> simp_all [Stage.Holds]

/-- A launcher leaves the lock of another alone. -/
theorem Move.inUse (hmove : Move entries j l f l' f') (h : l.stage.Holds → f.inUse = some j)
    (hne : i ≠ j) (hlock : f.inUse = some i) : f'.inUse = some i := by
  cases hmove <;> simp_all [Stage.Holds]

/-- A root with entries stays as it is. -/
theorem Move.root {content : List (ι × ℕ)} (hmove : Move entries j l f l' f')
    (hroot : f.root = some content) (hne : content ≠ []) : f'.root = some content := by
  cases hmove <;> simp_all

/-- `.namespace-oldroot` comes into a root, and goes, only by the runner. -/
theorem Move.oldRoot {content : List (ι × ℕ)} (hmove : Move entries j l f l' f')
    (hroot : f.root = some content) (hne : content ≠ []) : f'.oldRoot = f.oldRoot ∨ l.runner = true := by
  cases hmove <;> simp_all

/-- Only a launcher with a root starts the runner. -/
theorem Move.returned (hmove : Move entries j l f l' f') (h : l.runner = true → l.stage.Returned)
    (hrunner : l'.runner = true) : l'.stage.Returned := by
  cases hmove with
  | fail hstage =>
    have hreturned := h hrunner
    simp only [List.mem_cons, List.not_mem_nil, or_false] at hstage
    rcases hstage with hstage | hstage | hstage | hstage | hstage <;> exact (hstage ▸ hreturned).elim
  | raise hstage =>
    have hreturned := h hrunner
    simp only [List.mem_cons, List.not_mem_nil, or_false] at hstage
    rcases hstage with (hstage | hstage | hstage | hstage) | ⟨_, hstage⟩ <;> exact (hstage ▸ hreturned).elim
  | except hstage =>
    have hreturned := h hrunner
    rcases hstage with hstage | ⟨_, hstage⟩ <;> exact (hstage ▸ hreturned).elim
  | _ => simp_all [Stage.Returned, Launcher.to]

/-- A runner that was started stays. -/
theorem Move.runner (hmove : Move entries j l f l' f') (h : l.runner = true) : l'.runner = true := by
  cases hmove <;> simp_all [Launcher.to]

/-- A step of another launcher leaves alone what a launcher relies on. -/
theorem Relies.frame (h : Relies entries i f stage) (hmove : Move entries j l f l' f')
    (hrelies : Relies entries j f l.stage) (hne : i ≠ j) : Relies entries i f' stage := by
  have hroot : f.root = some (tree entries i) → f'.root = some (tree entries i) := fun hroot =>
    hmove.root hroot (by simp [tree, written_succ])
  by_cases hstage : stage.Holds
  · have hlock := h.inUse hstage
    have hother : ¬ l.stage.Holds := fun hholds =>
      hne (Option.some.inj (hlock.symm.trans (hrelies.inUse hholds)))
    have hlock' := hmove.inUse hrelies.inUse hne hlock
    obtain ⟨hstaging, hroot'⟩ := hmove.trees hother
    cases stage with
    | unlock extracted => cases extracted with
      | false => exact hlock'
      | true => exact ⟨hlock', hroot h.2⟩
    | checkRoot => exact hlock'
    | removePartial => exact hlock'
    | makePartial => exact ⟨hlock', hroot' ▸ h.2⟩
    | materialize count => exact ⟨hlock', hroot' ▸ h.2.1, hstaging ▸ h.2.2⟩
    | replace => exact ⟨hlock', hroot' ▸ h.2.1, hstaging ▸ h.2.2⟩
    | _ => exact hstage.elim
  · cases stage with
    | checkEmpty extracted => cases extracted with
      | false => trivial
      | true => exact hroot h
    | removeParent extracted => cases extracted with
      | false => trivial
      | true => exact hroot h
    | returned => exact hroot h
    | running => exact hroot h
    | finished => exact hroot h
    | entry | scratchParent | makeParent | list | lock | failed => trivial
    | _ => exact absurd trivial hstage

/-! ## Every run -/

variable [DecidableEq ι] {s s' : State ι} {scratch : Scratch ι}

/-- What every launcher relies on holds in every state. -/
theorem Reaches.relies (h : Reaches entries (start scratch) s) (i : ι) :
    Relies entries i s.scratch (s.launcher i).stage := by
  induction h generalizing i with
  | refl => trivial
  | @tail s s' hreach hstep ih =>
    obtain ⟨j, l, hmove, hlauncher⟩ := hstep
    rw [hlauncher]
    by_cases hi : i = j
    · subst hi
      rw [Function.update_self]
      exact hmove.relies (ih i)
    · rw [Function.update_of_ne hi]
      exact (ih i).frame hmove (ih j) hi

/-- One step of one launcher. -/
theorem Reaches.move {s₀ : State ι} (h : Reaches entries s₀ s)
    (hmove : Move entries i (s.launcher i) s.scratch l f) :
    Reaches entries s₀ ⟨Function.update s.launcher i l, f⟩ :=
  h.tail ⟨i, l, hmove, rfl⟩

/-- **Extraction is exclusive.**  In every run, whatever the scratch directory held before, at most one
    launcher is between taking the lock and giving it back; while it extracts, the partial tree is what
    it has written, and no root exists. -/
theorem extraction_exclusive (hreach : Reaches entries (start scratch) s)
    (hi : (s.launcher i).stage.Holds) :
    s.scratch.inUse = some i ∧ (∀ j, (s.launcher j).stage.Holds → j = i) ∧
      ∀ count, (s.launcher i).stage = .materialize count →
        s.scratch.partialRoot = some (written i count) ∧ s.scratch.root = none := by
  have hrelies := hreach.relies i
  refine ⟨hrelies.inUse hi, fun j hj => ?_, fun count hcount => ?_⟩
  · exact Option.some.inj (((hreach.relies j).inUse hj).symm.trans (hrelies.inUse hi))
  · rw [hcount] at hrelies
    exact ⟨hrelies.2.2, hrelies.2.1⟩

/-- A launcher that extracts in an empty directory. -/
theorem extracting_run : ∃ s : State Bool, Reaches 0 (start ⟨true, none, none, none, none, false⟩) s ∧
    (s.launcher true).stage = .materialize 0 ∧ s.scratch = ⟨true, some true, some [], none, none, false⟩ := by
  have hstart : Reaches 0 (start ⟨true, none, none, none, none, false⟩)
      (start (⟨true, none, none, none, none, false⟩ : Scratch Bool)) := .refl
  have h₁ := hstart.move (i := true) (.entry rfl)
  have h₂ := (h₁.move (i := true) (.isParent rfl rfl)).move (i := true) (.list rfl rfl rfl rfl rfl)
  have h₃ := (h₂.move (i := true) (.lock rfl rfl rfl)).move (i := true) (.checkRoot rfl rfl)
  exact ⟨_, h₃.move (i := true) (.makePartial rfl rfl), rfl, rfl⟩

theorem extraction_exclusive_run : ∃ s : State Bool,
    Reaches 0 (start ⟨true, none, none, none, none, false⟩) s ∧
      ∀ j, (s.launcher j).stage.Holds → j = true := by
  obtain ⟨s, hreach, hstage, -⟩ := extracting_run
  exact ⟨s, hreach, (extraction_exclusive hreach (by rw [hstage]; trivial)).2.1⟩

omit [DecidableEq ι] in
theorem tree_injective (h : tree entries i = tree entries j) : i = j := by
  have hhead := congrArg List.head? h
  simpa [tree, written, List.range_succ_eq_map] using hhead

theorem Reaches.root {content : List (ι × ℕ)} (h : Reaches entries s s')
    (hroot : s.scratch.root = some content) (hne : content ≠ []) :
    s'.scratch.root = some content := by
  induction h with
  | refl => exact hroot
  | tail _ hstep ih =>
    obtain ⟨j, l, hmove, -⟩ := hstep
    exact hmove.root ih hne

/-- A runner was started by a launcher with a root. -/
theorem Reaches.returned (h : Reaches entries (start scratch) s) :
    ∀ j, (s.launcher j).runner = true → (s.launcher j).stage.Returned := by
  induction h with
  | refl =>
    intro j hrunner
    cases hrunner
  | @tail s s' hreach hstep ih =>
    obtain ⟨k, l, hmove, hlauncher⟩ := hstep
    intro j hrunner
    rw [hlauncher] at hrunner ⊢
    by_cases hj : j = k
    · subst hj
      rw [Function.update_self] at hrunner ⊢
      exact hmove.returned (ih j) hrunner
    · rw [Function.update_of_ne hj] at hrunner ⊢
      exact ih j hrunner

/-- Where one launcher has a root, no other has one. -/
theorem Reaches.returned_unique (h : Reaches entries (start scratch) s)
    (hroot : s.scratch.root = some (tree entries i)) (hj : (s.launcher j).stage.Returned) : j = i :=
  tree_injective (Option.some.inj (((h.relies j).root hj).symm.trans hroot))

/-- `.namespace-oldroot` stays as it was in the root of a launcher, or that launcher has a runner. -/
theorem Reaches.oldRoot (hreach : Reaches entries (start scratch) s)
    (hroot : s.scratch.root = some (tree entries i)) (h : Reaches entries s s') :
    s'.scratch.oldRoot = s.scratch.oldRoot ∨ (s'.launcher i).runner = true := by
  have hne : tree entries i ≠ [] := by simp [tree, written_succ]
  induction h with
  | refl => exact .inl rfl
  | @tail s₁ s₂ hrun hstep ih =>
    have hreach₁ : Reaches entries (start scratch) s₁ := hreach.trans hrun
    have hroot₁ : s₁.scratch.root = some (tree entries i) := Reaches.root hrun hroot hne
    obtain ⟨j, l, hmove, hlauncher⟩ := hstep
    rw [hlauncher]
    by_cases hi : i = j
    · subst hi
      rw [Function.update_self]
      rcases ih with hkept | hrunner
      · exact (hmove.oldRoot hroot₁ hne).imp (·.trans hkept) hmove.runner
      · exact .inr (hmove.runner hrunner)
    · rw [Function.update_of_ne hi]
      refine ih.imp_left fun hkept => ?_
      rcases hmove.oldRoot hroot₁ hne with hsame | hrunner
      · exact hsame.trans hkept
      · exact absurd (hreach₁.returned_unique hroot₁ (hreach₁.returned j hrunner)).symm hi

/-- **A returned root stays.**  In every run, the root that a launcher was given is the tree of its own
    extraction, complete; no other launcher is given one; and whatever the launchers do afterwards, the
    root stays as it is, but for `.namespace-oldroot` once the launcher has started its runner. -/
theorem returned_root_kept (hreach : Reaches entries (start scratch) s)
    (hi : (s.launcher i).stage.Returned) :
    s.scratch.root = some (tree entries i) ∧ (∀ j, (s.launcher j).stage.Returned → j = i) ∧
      ∀ s', Reaches entries s s' → s'.scratch.root = some (tree entries i) ∧
        (∀ j, (s'.launcher j).stage.Returned → j = i) ∧
        (s'.scratch.oldRoot = s.scratch.oldRoot ∨ (s'.launcher i).runner = true) := by
  have hroot := (hreach.relies i).root hi
  refine ⟨hroot, fun j hj => hreach.returned_unique hroot hj, fun s' hs' => ?_⟩
  have hreach' : Reaches entries (start scratch) s' := hreach.trans hs'
  have hroot' : s'.scratch.root = some (tree entries i) := hs'.root hroot (by simp [tree, written_succ])
  exact ⟨hroot', fun j hj => hreach'.returned_unique hroot' hj, hreach.oldRoot hroot hs'⟩

/-- A launcher that was given its root. -/
theorem returned_run : ∃ s : State Bool, Reaches 0 (start ⟨true, none, none, none, none, false⟩) s ∧
    (s.launcher true).stage = .returned ∧
      s.scratch = ⟨true, none, none, some (tree 0 true), none, false⟩ := by
  obtain ⟨⟨launcher, scratch⟩, hreach, hstage, rfl⟩ := extracting_run
  have h₁ := hreach.move (i := true) (.write hstage le_rfl rfl)
  have h₂ := (h₁.move (i := true) (.materialized rfl)).move (i := true)
    (@Move.replace Bool 0 true _ _ _ false rfl rfl (.inl rfl))
  have h₃ := (h₂.move (i := true) (.unlock rfl (by simp))).move (i := true) (.keepParent rfl (.inr (by simp)))
  exact ⟨_, h₃, rfl, rfl⟩

/-- The runner has made `.namespace-oldroot`. -/
theorem returned_root_kept_run : ∃ s s' : State Bool,
    Reaches 0 (start ⟨true, none, none, none, none, false⟩) s ∧ s.scratch.oldRoot = false ∧
      Reaches 0 s s' ∧ s'.scratch.oldRoot = true ∧ s'.scratch.root = some (tree 0 true) := by
  obtain ⟨⟨launcher, scratch⟩, hreach, hstage, rfl⟩ := returned_run
  have hrefl :
      Reaches 0 (⟨launcher, ⟨true, none, none, some (tree 0 true), none, false⟩⟩ : State Bool) _ :=
    .refl
  have hrun := (hrefl.move (i := true) (.makeRuntime hstage rfl)).move (i := true) (.startRunner rfl)
  have hrun' := hrun.move (i := true) (.makeOldRoot rfl)
  have hkept := (returned_root_kept (i := true) hreach (by rw [hstage]; trivial)).2.2 _ hrun'
  exact ⟨_, _, hreach, rfl, hrun', rfl, hkept.1⟩

end RulesMkosi.LauncherScratch
