/-
  Processes as the trees of their system calls.

  What a process does next depends on the results of its calls; any call may fail, and any
  process may be killed.  A run of a process is the list of its events.  A `line` is a
  process that gives up at the first call that does not go as expected: `line_run` says
  where a line can be, and before an event behind a line all of its calls have gone well
  (`line_before`).
-/
import Mathlib.Data.List.Forall2
import Mathlib.Order.WellFounded

namespace RulesMkosi

universe u v w

inductive PipeEnd where
  | reader
  | writer
  deriving Repr, DecidableEq

/-- A process with system calls `κ`, pipes `π` and messages `μ`. -/
inductive Process (κ : Type u) (π : Type v) (μ : Type w) where
  | exit (status : ℕ)
  /-- a system call, with its result -/
  | call (name : κ) (next : ℤ → Process κ π μ)
  /-- `none` at the end of the pipe and for an error -/
  | read (pipe : π) (next : Option μ → Process κ π μ)
  | write (pipe : π) (message : μ) (next : Bool → Process κ π μ)
  | close (pipe : π) (pipeEnd : PipeEnd) (next : Process κ π μ)
  /-- waits for the other process; `none` for an error -/
  | wait (next : Option ℕ → Process κ π μ)

/-- What a process has done. -/
inductive Event (κ : Type u) (π : Type v) (μ : Type w) where
  | call (name : κ) (result : ℤ)
  | read (pipe : π) (message : Option μ)
  | write (pipe : π) (message : μ) (ok : Bool)
  | close (pipe : π) (pipeEnd : PipeEnd)
  | wait (status : Option ℕ)
  | killed (signal : ℕ)
  deriving Repr, DecidableEq

/-- A write to the pipe, with any result. -/
def Event.WritesTo {κ : Type u} {π : Type v} {μ : Type w} (pipe : π) (e : Event κ π μ) : Prop :=
  ∃ message ok, e = .write pipe message ok

/-- A read from the pipe, with any result. -/
def Event.ReadsFrom {κ : Type u} {π : Type v} {μ : Type w} (pipe : π) (e : Event κ π μ) : Prop :=
  ∃ message, e = .read pipe message

/-- A message from the pipe. -/
def Event.Receives {κ : Type u} {π : Type v} {μ : Type w} (pipe : π) (e : Event κ π μ) : Prop :=
  ∃ message, e = .read pipe (some message)

namespace Process

variable {κ : Type u} {π : Type v} {μ : Type w}

/-- The process has ended. -/
def Exited : Process κ π μ → Prop
  | exit _ => True
  | _ => False

instance : ∀ p : Process κ π μ, Decidable p.Exited
  | exit _ => .isTrue trivial
  | call _ _ => .isFalse id
  | read _ _ => .isFalse id
  | write _ _ _ => .isFalse id
  | close _ _ _ => .isFalse id
  | wait _ => .isFalse id

theorem exited_iff {p : Process κ π μ} : p.Exited ↔ ∃ status, p = exit status := by
  cases p <;> simp [Exited]

variable [DecidableEq κ] [DecidableEq π] [DecidableEq μ]

/-- The process after an event, if it is one of the process. -/
def after : Process κ π μ → Event κ π μ → Option (Process κ π μ)
  | exit _, _ => none
  | _, .killed signal => some (exit (128 + signal))
  | call name next, .call name' result => if name = name' then some (next result) else none
  | read pipe next, .read pipe' message => if pipe = pipe' then some (next message) else none
  | write pipe message next, .write pipe' message' ok =>
    if pipe = pipe' ∧ message = message' then some (next ok) else none
  | close pipe pipeEnd next, .close pipe' pipeEnd' =>
    if pipe = pipe' ∧ pipeEnd = pipeEnd' then some next else none
  | wait next, .wait status => some (next status)
  | _, _ => none

/-- The process after some events. -/
def run (p : Process κ π μ) : List (Event κ π μ) → Option (Process κ π μ)
  | [] => some p
  | e :: es => (p.after e).bind fun q => q.run es

@[simp] theorem run_nil (p : Process κ π μ) : p.run [] = some p := rfl

theorem run_cons {p q : Process κ π μ} {e : Event κ π μ} {es : List (Event κ π μ)} :
    p.run (e :: es) = some q ↔ ∃ r, p.after e = some r ∧ r.run es = some q := by
  rw [run, Option.bind_eq_some_iff]

theorem run_append {q : Process κ π μ} {fs : List (Event κ π μ)} :
    ∀ {es : List (Event κ π μ)} {p : Process κ π μ},
      p.run (es ++ fs) = some q ↔ ∃ r, p.run es = some r ∧ r.run fs = some q
  | [], p => by simp
  | e :: es, p => by
    rw [List.cons_append, run_cons]
    constructor
    · rintro ⟨r, hr, hrun⟩
      obtain ⟨r', hr', hrun⟩ := run_append.1 hrun
      exact ⟨r', run_cons.2 ⟨r, hr, hr'⟩, hrun⟩
    · rintro ⟨r', hr', hrun⟩
      obtain ⟨r, hr, hr'⟩ := run_cons.1 hr'
      exact ⟨r, hr, run_append.2 ⟨r', hr', hrun⟩⟩

theorem run_concat {p q : Process κ π μ} {es : List (Event κ π μ)} {e : Event κ π μ} :
    p.run (es ++ [e]) = some q ↔ ∃ r, p.run es = some r ∧ r.after e = some q := by
  rw [run_append]
  simp [run]

@[simp] theorem after_exit (status : ℕ) (e : Event κ π μ) :
    (exit status : Process κ π μ).after e = none := by
  cases e <;> rfl

/-- An ended process does nothing more. -/
theorem run_exit {status : ℕ} {es : List (Event κ π μ)} {q : Process κ π μ}
    (h : (exit status : Process κ π μ).run es = some q) : es = [] ∧ q = exit status := by
  cases es with
  | nil =>
    rw [run_nil, Option.some.injEq] at h
    exact ⟨rfl, h.symm⟩
  | cons e es =>
    obtain ⟨r, hr, -⟩ := run_cons.1 h
    rw [after_exit] at hr
    cases hr

/-- Some event leads from `p` to `q`. -/
def Next (q p : Process κ π μ) : Prop := ∃ e, p.after e = some q

/-! What a process can do next. -/

theorem after_call_iff {name : κ} {next : ℤ → Process κ π μ} {e : Event κ π μ} {q : Process κ π μ} :
    (call name next).after e = some q ↔
      (∃ result, e = .call name result ∧ q = next result) ∨
        ∃ signal, e = .killed signal ∧ q = exit (128 + signal) := by
  cases e <;> simp [after, eq_comm, and_assoc]

theorem after_read_iff {pipe : π} {next : Option μ → Process κ π μ} {e : Event κ π μ}
    {q : Process κ π μ} :
    (read pipe next).after e = some q ↔
      (∃ message, e = .read pipe message ∧ q = next message) ∨
        ∃ signal, e = .killed signal ∧ q = exit (128 + signal) := by
  cases e <;> simp [after, eq_comm, and_assoc]

theorem after_write_iff {pipe : π} {message : μ} {next : Bool → Process κ π μ} {e : Event κ π μ}
    {q : Process κ π μ} :
    (write pipe message next).after e = some q ↔
      (∃ ok, e = .write pipe message ok ∧ q = next ok) ∨
        ∃ signal, e = .killed signal ∧ q = exit (128 + signal) := by
  cases e <;> simp [after, eq_comm, and_assoc]

theorem after_close_iff {pipe : π} {pipeEnd : PipeEnd} {next : Process κ π μ} {e : Event κ π μ}
    {q : Process κ π μ} :
    (close pipe pipeEnd next).after e = some q ↔
      e = .close pipe pipeEnd ∧ q = next ∨
        ∃ signal, e = .killed signal ∧ q = exit (128 + signal) := by
  cases e <;> simp [after, eq_comm, and_assoc]

theorem after_wait_iff {next : Option ℕ → Process κ π μ} {e : Event κ π μ} {q : Process κ π μ} :
    (wait next).after e = some q ↔
      (∃ status, e = .wait status ∧ q = next status) ∨
        ∃ signal, e = .killed signal ∧ q = exit (128 + signal) := by
  cases e <;> simp [after, eq_comm]

/-- A process that waits and then ends. -/
theorem run_wait {next : Option ℕ → ℕ} {es : List (Event κ π μ)} {q : Process κ π μ}
    (h : (wait fun status => exit (next status) : Process κ π μ).run es = some q) :
    es = [] ∧ q = wait (fun status => exit (next status)) ∨
      (∃ status, es = [.wait status] ∧ q = exit (next status)) ∨
      ∃ signal, es = [.killed signal] ∧ q = exit (128 + signal) := by
  cases es with
  | nil => exact .inl ⟨rfl, (Option.some.inj h).symm⟩
  | cons e es =>
    obtain ⟨r, hr, hrest⟩ := run_cons.1 h
    rcases after_wait_iff.1 hr with ⟨status, rfl, rfl⟩ | ⟨signal, rfl, rfl⟩ <;>
      obtain ⟨rfl, hq⟩ := run_exit hrest
    · exact .inr (.inl ⟨status, rfl, hq⟩)
    · exact .inr (.inr ⟨signal, rfl, hq⟩)

/-- A process that makes a call and then ends. -/
theorem run_call {name : κ} {next : ℤ → ℕ} {es : List (Event κ π μ)} {q : Process κ π μ}
    (h : (call name fun result => exit (next result) : Process κ π μ).run es = some q) :
    es = [] ∧ q = call name (fun result => exit (next result)) ∨
      (∃ result, es = [.call name result] ∧ q = exit (next result)) ∨
      ∃ signal, es = [.killed signal] ∧ q = exit (128 + signal) := by
  cases es with
  | nil => exact .inl ⟨rfl, (Option.some.inj h).symm⟩
  | cons e es =>
    obtain ⟨r, hr, hrest⟩ := run_cons.1 h
    rcases after_call_iff.1 hr with ⟨result, rfl, rfl⟩ | ⟨signal, rfl, rfl⟩ <;>
      obtain ⟨rfl, hq⟩ := run_exit hrest
    · exact .inr (.inl ⟨result, rfl, hq⟩)
    · exact .inr (.inr ⟨signal, rfl, hq⟩)

theorem next_acc : ∀ p : Process κ π μ, Acc (Next (κ := κ) (π := π) (μ := μ)) p := by
  have hexit : ∀ status, Acc (Next (κ := κ) (π := π) (μ := μ)) (exit status) := by
    intro status
    refine ⟨_, fun q hq => ?_⟩
    obtain ⟨e, he⟩ := hq
    rw [after_exit] at he
    cases he
  intro p
  induction p with
  | exit status => exact hexit status
  | call name next ih =>
    refine ⟨_, fun q hq => ?_⟩
    obtain ⟨e, he⟩ := hq
    rcases after_call_iff.1 he with ⟨result, -, rfl⟩ | ⟨signal, -, rfl⟩
    · exact ih result
    · exact hexit _
  | read pipe next ih =>
    refine ⟨_, fun q hq => ?_⟩
    obtain ⟨e, he⟩ := hq
    rcases after_read_iff.1 he with ⟨message, -, rfl⟩ | ⟨signal, -, rfl⟩
    · exact ih message
    · exact hexit _
  | write pipe message next ih =>
    refine ⟨_, fun q hq => ?_⟩
    obtain ⟨e, he⟩ := hq
    rcases after_write_iff.1 he with ⟨ok, -, rfl⟩ | ⟨signal, -, rfl⟩
    · exact ih ok
    · exact hexit _
  | close pipe pipeEnd next ih =>
    refine ⟨_, fun q hq => ?_⟩
    obtain ⟨e, he⟩ := hq
    rcases after_close_iff.1 he with ⟨-, rfl⟩ | ⟨signal, -, rfl⟩
    · exact ih
    · exact hexit _
  | wait next ih =>
    refine ⟨_, fun q hq => ?_⟩
    obtain ⟨e, he⟩ := hq
    rcases after_wait_iff.1 he with ⟨status, -, rfl⟩ | ⟨signal, -, rfl⟩
    · exact ih status
    · exact hexit _

theorem next_wf : WellFounded (Next (κ := κ) (π := π) (μ := μ)) := ⟨next_acc⟩

end Process

/-! ## Straight lines -/

/-- A system call that has to go well. -/
inductive Op (κ : Type u) (π : Type v) (μ : Type w) where
  | call (name : κ)
  /-- reads exactly this message -/
  | expect (pipe : π) (message : μ)
  | send (pipe : π) (message : μ)
  | close (pipe : π) (pipeEnd : PipeEnd)
  deriving Repr, DecidableEq

section
variable {κ : Type u} {π : Type v} {μ : Type w}

/-- The events of a call that goes well. -/
def Op.Succeeds : Op κ π μ → Event κ π μ → Prop
  | .call name, .call name' result => name = name' ∧ 0 ≤ result
  | .expect pipe message, .read pipe' message' => pipe = pipe' ∧ message' = some message
  | .send pipe message, .write pipe' message' ok => pipe = pipe' ∧ message = message' ∧ ok = true
  | .close pipe pipeEnd, .close pipe' pipeEnd' => pipe = pipe' ∧ pipeEnd = pipeEnd'
  | _, _ => False

/-- The events of a call, whatever its result. -/
def Op.Concerns : Op κ π μ → Event κ π μ → Prop
  | .call name, .call name' _ => name = name'
  | .expect pipe _, .read pipe' _ => pipe = pipe'
  | .send pipe message, .write pipe' message' _ => pipe = pipe' ∧ message = message'
  | .close pipe pipeEnd, .close pipe' pipeEnd' => pipe = pipe' ∧ pipeEnd = pipeEnd'
  | _, _ => False

theorem Op.Succeeds.concerns {op : Op κ π μ} {e : Event κ π μ} (h : op.Succeeds e) :
    op.Concerns e := by
  cases op with
  | call name => cases e with
    | call name' result => exact h.1
    | _ => exact h
  | expect pipe message => cases e with
    | read pipe' message' => exact h.1
    | _ => exact h
  | send pipe message => cases e with
    | write pipe' message' ok => exact ⟨h.1, h.2.1⟩
    | _ => exact h
  | close pipe pipeEnd => cases e with
    | close pipe' pipeEnd' => exact h
    | _ => exact h

theorem exists_succeeds {ops : List (Op κ π μ)} {good : List (Event κ π μ)}
    (h : List.Forall₂ Op.Succeeds ops good) {e : Event κ π μ} (he : e ∈ good) :
    ∃ op ∈ ops, op.Succeeds e := by
  induction h with
  | nil => cases he
  | cons hop _ ih =>
    rcases List.mem_cons.1 he with rfl | he
    · exact ⟨_, List.mem_cons_self, hop⟩
    · obtain ⟨op, hmem, hsucceeds⟩ := ih he
      exact ⟨op, List.mem_cons_of_mem _ hmem, hsucceeds⟩

@[simp] theorem Op.concerns_call {op : Op κ π μ} {name : κ} {result : ℤ} :
    op.Concerns (.call name result) ↔ op = .call name := by
  cases op <;> simp [Op.Concerns]

@[simp] theorem Op.concerns_read {op : Op κ π μ} {pipe : π} {message : Option μ} :
    op.Concerns (.read pipe message) ↔ ∃ expected, op = .expect pipe expected := by
  cases op <;> simp [Op.Concerns]

@[simp] theorem Op.concerns_write {op : Op κ π μ} {pipe : π} {message : μ} {ok : Bool} :
    op.Concerns (.write pipe message ok) ↔ op = .send pipe message := by
  cases op <;> simp [Op.Concerns]

@[simp] theorem Op.succeeds_call {name : κ} {e : Event κ π μ} :
    (Op.call name).Succeeds e ↔ ∃ result, 0 ≤ result ∧ e = .call name result := by
  cases e <;> simp [Op.Succeeds, and_comm, eq_comm]

@[simp] theorem Op.succeeds_expect {pipe : π} {message : μ} {e : Event κ π μ} :
    (Op.expect pipe message : Op κ π μ).Succeeds e ↔ e = .read pipe (some message) := by
  cases e <;> simp [Op.Succeeds, eq_comm]

@[simp] theorem Op.succeeds_send {pipe : π} {message : μ} {e : Event κ π μ} :
    (Op.send pipe message : Op κ π μ).Succeeds e ↔ e = .write pipe message true := by
  cases e <;> simp [Op.Succeeds, eq_comm]

@[simp] theorem Op.succeeds_close {pipe : π} {pipeEnd : PipeEnd} {e : Event κ π μ} :
    (Op.close pipe pipeEnd : Op κ π μ).Succeeds e ↔ e = .close pipe pipeEnd := by
  cases e <;> simp [Op.Succeeds, eq_comm]

theorem succeeds_append {op : Op κ π μ} {ops ops' : List (Op κ π μ)} {good : List (Event κ π μ)}
    (h : List.Forall₂ Op.Succeeds (ops ++ op :: ops') good) :
    ∃ good₁ e good₂, good = good₁ ++ e :: good₂ ∧ List.Forall₂ Op.Succeeds ops good₁ ∧
      op.Succeeds e ∧ List.Forall₂ Op.Succeeds ops' good₂ := by
  induction ops generalizing good with
  | nil =>
    cases h with
    | cons he hgood => exact ⟨[], _, _, rfl, .nil, he, hgood⟩
  | cons op' ops ih =>
    cases h with
    | cons he hgood =>
      obtain ⟨good₁, e', good₂, rfl, h₁, he', h₂⟩ := ih hgood
      exact ⟨_ :: good₁, e', good₂, rfl, .cons he h₁, he', h₂⟩

variable [DecidableEq μ]

/-- Makes the calls in turn; `fallback` follows the first one that does not go well. -/
def line (fallback : Event κ π μ → Process κ π μ) (rest : Process κ π μ) :
    List (Op κ π μ) → Process κ π μ
  | [] => rest
  | .call name :: ops => .call name fun result =>
    if 0 ≤ result then line fallback rest ops else fallback (.call name result)
  | .expect pipe message :: ops => .read pipe fun got =>
    if got = some message then line fallback rest ops else fallback (.read pipe got)
  | .send pipe message :: ops => .write pipe message fun ok =>
    if ok then line fallback rest ops else fallback (.write pipe message ok)
  | .close pipe pipeEnd :: ops => .close pipe pipeEnd (line fallback rest ops)

variable [DecidableEq κ] [DecidableEq π]

/-- One event of a line: its first call goes well or not, or the process is killed. -/
theorem line_after {fallback : Event κ π μ → Process κ π μ} {rest q : Process κ π μ}
    {op : Op κ π μ} {ops : List (Op κ π μ)}
    {e : Event κ π μ} (h : (line fallback rest (op :: ops)).after e = some q) :
    op.Succeeds e ∧ q = line fallback rest ops ∨
      op.Concerns e ∧ q = fallback e ∨ ∃ signal, e = .killed signal ∧ q = .exit (128 + signal) := by
  cases op with
  | call name =>
    cases e with
    | call name' result =>
      simp only [line, Process.after, Option.ite_none_right_eq_some, Option.some.injEq] at h
      obtain ⟨hname, hq⟩ := h
      split_ifs at hq with hresult
      · exact .inl ⟨⟨hname, hresult⟩, hq.symm⟩
      · subst hname
        exact .inr (.inl ⟨rfl, hq.symm⟩)
    | killed signal => exact .inr (.inr ⟨signal, rfl, (Option.some.inj h).symm⟩)
    | _ => cases h
  | expect pipe message =>
    cases e with
    | read pipe' got =>
      simp only [line, Process.after, Option.ite_none_right_eq_some, Option.some.injEq] at h
      obtain ⟨hpipe, hq⟩ := h
      split_ifs at hq with hgot
      · exact .inl ⟨⟨hpipe, hgot⟩, hq.symm⟩
      · subst hpipe
        exact .inr (.inl ⟨rfl, hq.symm⟩)
    | killed signal => exact .inr (.inr ⟨signal, rfl, (Option.some.inj h).symm⟩)
    | _ => cases h
  | send pipe message =>
    cases e with
    | write pipe' message' ok =>
      simp only [line, Process.after, Option.ite_none_right_eq_some, Option.some.injEq] at h
      obtain ⟨⟨hpipe, hmessage⟩, hq⟩ := h
      split_ifs at hq with hok
      · exact .inl ⟨⟨hpipe, hmessage, hok⟩, hq.symm⟩
      · subst hpipe hmessage
        exact .inr (.inl ⟨⟨rfl, rfl⟩, hq.symm⟩)
    | killed signal => exact .inr (.inr ⟨signal, rfl, (Option.some.inj h).symm⟩)
    | _ => cases h
  | close pipe pipeEnd =>
    cases e with
    | close pipe' pipeEnd' =>
      simp only [line, Process.after, Option.ite_none_right_eq_some, Option.some.injEq] at h
      exact .inl ⟨h.1, h.2.symm⟩
    | killed signal => exact .inr (.inr ⟨signal, rfl, (Option.some.inj h).symm⟩)
    | _ => cases h

/-- No run of the process has such an event. -/
def Process.Avoids (p : Process κ π μ) (bad : Event κ π μ → Prop) : Prop :=
  ∀ ⦃es q⦄, p.run es = some q → ∀ e ∈ es, ¬ bad e

theorem Process.avoids_exit (status : ℕ) (bad : Event κ π μ → Prop) :
    (Process.exit status : Process κ π μ).Avoids bad := by
  intro es q h
  rw [(Process.run_exit h).1]
  exact fun e he => absurd he List.not_mem_nil

theorem Process.avoids_of_after {p : Process κ π μ} {bad : Event κ π μ → Prop}
    (h : ∀ e q, p.after e = some q → ¬ bad e ∧ q.Avoids bad) : p.Avoids bad := by
  rintro (_ | ⟨e, es⟩) q hrun e' he'
  · cases he'
  · obtain ⟨r, hr, hrest⟩ := Process.run_cons.1 hrun
    rcases List.mem_cons.1 he' with rfl | he'
    · exact (h _ _ hr).1
    · exact (h _ _ hr).2 hrest e' he'

section
variable {bad : Event κ π μ → Prop} (hkilled : ∀ signal, ¬ bad (.killed signal))
include hkilled

theorem Process.avoids_call {name : κ} {next : ℤ → Process κ π μ}
    (hcall : ∀ result, ¬ bad (.call name result)) (hnext : ∀ result, (next result).Avoids bad) :
    (Process.call name next).Avoids bad := by
  refine avoids_of_after fun e q h => ?_
  rcases after_call_iff.1 h with ⟨result, rfl, rfl⟩ | ⟨signal, rfl, rfl⟩
  · exact ⟨hcall result, hnext result⟩
  · exact ⟨hkilled signal, avoids_exit _ _⟩

theorem Process.avoids_read {pipe : π} {next : Option μ → Process κ π μ}
    (hread : ∀ message, ¬ bad (.read pipe message)) (hnext : ∀ message, (next message).Avoids bad) :
    (Process.read pipe next).Avoids bad := by
  refine avoids_of_after fun e q h => ?_
  rcases after_read_iff.1 h with ⟨message, rfl, rfl⟩ | ⟨signal, rfl, rfl⟩
  · exact ⟨hread message, hnext message⟩
  · exact ⟨hkilled signal, avoids_exit _ _⟩

theorem Process.avoids_write {pipe : π} {message : μ} {next : Bool → Process κ π μ}
    (hwrite : ∀ ok, ¬ bad (.write pipe message ok)) (hnext : ∀ ok, (next ok).Avoids bad) :
    (Process.write pipe message next).Avoids bad := by
  refine avoids_of_after fun e q h => ?_
  rcases after_write_iff.1 h with ⟨ok, rfl, rfl⟩ | ⟨signal, rfl, rfl⟩
  · exact ⟨hwrite ok, hnext ok⟩
  · exact ⟨hkilled signal, avoids_exit _ _⟩

theorem Process.avoids_close {pipe : π} {pipeEnd : PipeEnd} {next : Process κ π μ}
    (hclose : ¬ bad (.close pipe pipeEnd)) (hnext : next.Avoids bad) :
    (Process.close pipe pipeEnd next).Avoids bad := by
  refine avoids_of_after fun e q h => ?_
  rcases after_close_iff.1 h with ⟨rfl, rfl⟩ | ⟨signal, rfl, rfl⟩
  · exact ⟨hclose, hnext⟩
  · exact ⟨hkilled signal, avoids_exit _ _⟩

theorem Process.avoids_wait {next : Option ℕ → Process κ π μ} (hwait : ∀ status, ¬ bad (.wait status))
    (hnext : ∀ status, (next status).Avoids bad) : (Process.wait next).Avoids bad := by
  refine avoids_of_after fun e q h => ?_
  rcases after_wait_iff.1 h with ⟨status, rfl, rfl⟩ | ⟨signal, rfl, rfl⟩
  · exact ⟨hwait status, hnext status⟩
  · exact ⟨hkilled signal, avoids_exit _ _⟩

end

/-- A call of a line that goes well. -/
theorem line_succeeds {fallback : Event κ π μ → Process κ π μ} {rest : Process κ π μ}
    {op : Op κ π μ} {ops : List (Op κ π μ)}
    {e : Event κ π μ} (h : op.Succeeds e) :
    (line fallback rest (op :: ops)).after e = some (line fallback rest ops) := by
  cases op with
  | call name =>
    obtain ⟨result, hresult, rfl⟩ := Op.succeeds_call.1 h
    simp [line, Process.after, hresult]
  | expect pipe message =>
    rw [Op.succeeds_expect.1 h]
    simp [line, Process.after]
  | send pipe message =>
    rw [Op.succeeds_send.1 h]
    simp [line, Process.after]
  | close pipe pipeEnd =>
    rw [Op.succeeds_close.1 h]
    simp [line, Process.after]

/-- **A line before an event.**  If neither the calls of a line nor its fallback have a bad event,
    then before a bad event all calls of the line go well. -/
theorem line_before {bad : Event κ π μ → Prop} {fallback : Event κ π μ → Process κ π μ}
    {rest q : Process κ π μ}
    (hfallback : ∀ e, (fallback e).Avoids bad) (hkilled : ∀ signal, ¬ bad (.killed signal)) :
    ∀ {ops : List (Op κ π μ)} {es : List (Event κ π μ)},
      (∀ op ∈ ops, ∀ e, op.Concerns e → ¬ bad e) → (line fallback rest ops).run es = some q →
      (∃ e ∈ es, bad e) →
      ∃ good es', es = good ++ es' ∧ List.Forall₂ Op.Succeeds ops good ∧ rest.run es' = some q
  | [], es, _, hrun, _ => ⟨[], es, rfl, .nil, hrun⟩
  | op :: ops, [], _, _, hbad => by simp at hbad
  | op :: ops, e :: es, hops, hrun, hbad => by
    obtain ⟨hop, hops⟩ := List.forall_mem_cons.1 hops
    obtain ⟨r, hr, hrest⟩ := Process.run_cons.1 hrun
    rcases line_after hr with ⟨he, hline⟩ | ⟨he, hline⟩ | ⟨signal, rfl, hline⟩ <;> rw [hline] at hrest
    · have hbad' : ∃ e ∈ es, bad e := by
        obtain ⟨e', he', hbad⟩ := hbad
        rcases List.mem_cons.1 he' with rfl | he'
        · exact absurd hbad (hop _ he.concerns)
        · exact ⟨e', he', hbad⟩
      obtain ⟨good, es', rfl, hgood, hrest⟩ := line_before hfallback hkilled hops hrest hbad'
      exact ⟨e :: good, es', rfl, .cons he hgood, hrest⟩
    · obtain ⟨e', he', hbad⟩ := hbad
      rcases List.mem_cons.1 he' with rfl | he'
      · exact absurd hbad (hop _ he)
      · exact absurd hbad (hfallback e hrest e' he')
    · obtain ⟨e', he', hbad⟩ := hbad
      rw [(Process.run_exit hrest).1, List.mem_singleton] at he'
      rw [he'] at hbad
      exact absurd hbad (hkilled signal)

/-- An element that the first part does not have lies in the second. -/
theorem append_cons_eq_append {α : Type*} {xs ys zs ws : List α} {a : α}
    (h : xs ++ a :: ys = zs ++ ws) (ha : a ∉ zs) : ∃ us, xs = zs ++ us ∧ ws = us ++ a :: ys := by
  rcases List.append_eq_append_iff.1 h with ⟨us, hzs, hus⟩ | ⟨us, hxs, hws⟩
  · cases us with
    | nil => exact ⟨[], by simpa using hzs.symm, by simpa using hus.symm⟩
    | cons b us =>
      have hb : b = a := by simpa using (congrArg List.head? hus).symm
      exact absurd (by rw [hzs, hb]; simp) ha
  · exact ⟨us, hxs, hws⟩

/-- The calls of a line go well before a bad event. -/
theorem line_before_event {bad : Event κ π μ → Prop} {fallback : Event κ π μ → Process κ π μ}
    {rest q : Process κ π μ}
    (hfallback : ∀ e, (fallback e).Avoids bad) (hkilled : ∀ signal, ¬ bad (.killed signal))
    {ops : List (Op κ π μ)} (hops : ∀ op ∈ ops, ∀ e, op.Concerns e → ¬ bad e)
    {es fs : List (Event κ π μ)} {e : Event κ π μ} (hbad : bad e)
    (hrun : (line fallback rest ops).run (es ++ e :: fs) = some q) :
    ∃ good es', es = good ++ es' ∧ List.Forall₂ Op.Succeeds ops good ∧
      rest.run (es' ++ e :: fs) = some q := by
  obtain ⟨good, es', hes, hgood, hrest⟩ := line_before hfallback hkilled hops hrun ⟨e, by simp, hbad⟩
  have hgood' : e ∉ good := by
    intro he
    obtain ⟨op, hop, hsucceeds⟩ := exists_succeeds hgood he
    exact hops op hop e hsucceeds.concerns hbad
  obtain ⟨es₁, rfl, rfl⟩ := append_cons_eq_append hes hgood'
  exact ⟨good, es₁, rfl, hgood, hrest⟩

/-- A line has no bad event when its calls, its fallback and what comes behind it have none. -/
theorem line_avoids {bad : Event κ π μ → Prop} {fallback : Event κ π μ → Process κ π μ} {rest : Process κ π μ}
    (hfallback : ∀ e, (fallback e).Avoids bad) (hrest : rest.Avoids bad)
    (hkilled : ∀ signal, ¬ bad (.killed signal)) {ops : List (Op κ π μ)}
    (hops : ∀ op ∈ ops, ∀ e, op.Concerns e → ¬ bad e) : (line fallback rest ops).Avoids bad := by
  intro es q hrun e he hbad
  obtain ⟨good, es', rfl, hgood, hrun'⟩ := line_before hfallback hkilled hops hrun ⟨e, he, hbad⟩
  rcases List.mem_append.1 he with he | he
  · obtain ⟨op, hop, hsucceeds⟩ := exists_succeeds hgood he
    exact hops op hop e hsucceeds.concerns hbad
  · exact hrest hrun' e he hbad

/-- **Where a line is:** in its calls, behind them, in its fallback, or killed in its calls. -/
theorem line_run {fallback : Event κ π μ → Process κ π μ} {rest q : Process κ π μ} :
    ∀ {ops : List (Op κ π μ)} {es : List (Event κ π μ)}, (line fallback rest ops).run es = some q →
      (∃ done todo, ops = done ++ todo ∧ List.Forall₂ Op.Succeeds done es ∧
        q = line fallback rest todo) ∨
      (∃ good es', es = good ++ es' ∧ List.Forall₂ Op.Succeeds ops good ∧ rest.run es' = some q) ∨
      (∃ done op todo good e es', ops = done ++ op :: todo ∧ es = good ++ e :: es' ∧
        List.Forall₂ Op.Succeeds done good ∧ op.Concerns e ∧ (fallback e).run es' = some q) ∨
      ∃ done todo good signal, ops = done ++ todo ∧ es = good ++ [.killed signal] ∧
        List.Forall₂ Op.Succeeds done good ∧ q = .exit (128 + signal)
  | [], es, hrun => .inr (.inl ⟨[], es, rfl, .nil, hrun⟩)
  | op :: ops, [], hrun => by
    rw [Process.run_nil, Option.some.injEq] at hrun
    exact .inl ⟨[], op :: ops, rfl, .nil, hrun.symm⟩
  | op :: ops, e :: es, hrun => by
    obtain ⟨r, hr, hrest⟩ := Process.run_cons.1 hrun
    rcases line_after hr with ⟨he, hline⟩ | ⟨he, hline⟩ | ⟨signal, rfl, hline⟩ <;> rw [hline] at hrest
    · rcases line_run hrest with ⟨done, todo, rfl, hdone, hq⟩ | ⟨good, es', rfl, hgood, hq⟩ |
        ⟨done, op', todo, good, e', es', rfl, rfl, hdone, he', hq⟩ |
        ⟨done, todo, good, signal, rfl, rfl, hdone, hq⟩
      · exact .inl ⟨op :: done, todo, rfl, .cons he hdone, hq⟩
      · exact .inr (.inl ⟨e :: good, es', rfl, .cons he hgood, hq⟩)
      · exact .inr (.inr (.inl ⟨op :: done, op', todo, e :: good, e', es', rfl, rfl,
          .cons he hdone, he', hq⟩))
      · exact .inr (.inr (.inr ⟨op :: done, todo, e :: good, signal, rfl, rfl, .cons he hdone, hq⟩))
    · exact .inr (.inr (.inl ⟨[], op, ops, [], e, es, rfl, rfl, .nil, he, hrest⟩))
    · obtain ⟨rfl, hq⟩ := Process.run_exit hrest
      exact .inr (.inr (.inr ⟨[], op :: ops, [], signal, rfl, rfl, .nil, hq⟩))

/-- A line that has ended. -/
theorem line_exit {fallback : Event κ π μ → Process κ π μ} {rest : Process κ π μ}
    {ops : List (Op κ π μ)} {es : List (Event κ π μ)}
    {status : ℕ} (hrun : (line fallback rest ops).run es = some (.exit status)) :
    (∃ good es', es = good ++ es' ∧ List.Forall₂ Op.Succeeds ops good ∧
        rest.run es' = some (.exit status)) ∨
      (∃ e es', (fallback e).run es' = some (.exit status)) ∨ ∃ signal, status = 128 + signal := by
  rcases line_run hrun with ⟨done, todo, rfl, hdone, hq⟩ | hrest |
    ⟨-, -, -, -, e, es', -, -, -, -, hfallback⟩ | ⟨-, -, -, signal, -, -, -, hsignal⟩
  · cases todo with
    | nil =>
      rw [List.append_nil]
      exact .inl ⟨es, [], (List.append_nil es).symm, hdone, by rw [Process.run_nil, hq]; rfl⟩
    | cons op todo => cases op <;> cases hq
  · exact .inl hrest
  · exact .inr (.inl ⟨e, es', hfallback⟩)
  · exact .inr (.inr ⟨signal, Process.exit.inj hsignal⟩)

/-- A line that reads, when nothing else does. -/
theorem line_read {fallback : Event κ π μ → Process κ π μ} {rest : Process κ π μ}
    {ops : List (Op κ π μ)} {es : List (Event κ π μ)}
    {pipe : π} {next : Option μ → Process κ π μ}
    (hrun : (line fallback rest ops).run es = some (.read pipe next))
    (hfallback : ∀ e es', (fallback e).run es' ≠ some (.read pipe next))
    (hrest : ∀ es', rest.run es' ≠ some (.read pipe next)) :
    ∃ done message todo, ops = done ++ .expect pipe message :: todo ∧
      List.Forall₂ Op.Succeeds done es := by
  rcases line_run hrun with ⟨done, todo, rfl, hdone, hq⟩ | ⟨-, es', -, -, hrest'⟩ |
    ⟨-, -, -, -, e, es', -, -, -, -, hfallback'⟩ | ⟨-, -, -, signal, -, -, -, hsignal⟩
  · cases todo with
    | nil => exact absurd (hq ▸ Process.run_nil rest) (hrest [])
    | cons op todo =>
      cases op with
      | expect pipe' message =>
        cases hq
        exact ⟨done, message, todo, rfl, hdone⟩
      | _ => cases hq
  · exact absurd hrest' (hrest es')
  · exact absurd hfallback' (hfallback e es')
  · cases hsignal

/-- A line that waits has made its calls. -/
theorem line_wait {fallback : Event κ π μ → Process κ π μ} {rest : Process κ π μ}
    {ops : List (Op κ π μ)} {es : List (Event κ π μ)}
    {next : Option ℕ → Process κ π μ} (hrun : (line fallback rest ops).run es = some (.wait next))
    (hfallback : ∀ e es', (fallback e).run es' ≠ some (.wait next)) :
    ∃ good es', es = good ++ es' ∧ List.Forall₂ Op.Succeeds ops good ∧
      rest.run es' = some (.wait next) := by
  rcases line_run hrun with ⟨done, todo, rfl, hdone, hq⟩ | hrest |
    ⟨-, -, -, -, e, es', -, -, -, -, hfallback'⟩ | ⟨-, -, -, signal, -, -, -, hsignal⟩
  · cases todo with
    | nil =>
      rw [List.append_nil]
      exact ⟨es, [], (List.append_nil es).symm, hdone, by rw [Process.run_nil, hq]; rfl⟩
    | cons op todo => cases op <;> cases hq
  · exact hrest
  · exact absurd hfallback' (hfallback e es')
  · cases hsignal

/-! ### Parts of a process -/

/-- Before a bad event, and before it ends with the status, the process has come to `k`. -/
def Process.Comes (p : Process κ π μ) (bad : Event κ π μ → Prop) (status : ℕ) (k : Process κ π μ) :
    Prop :=
  ∀ ⦃es q⦄, p.run es = some q → (∃ e ∈ es, bad e) ∨ q = .exit status →
    ∃ es₁ es₂, es = es₁ ++ es₂ ∧ k.run es₂ = some q ∧ ∀ e ∈ es₁, ¬ bad e

section
variable {bad : Event κ π μ → Prop} {status : ℕ} {k : Process κ π μ}

theorem Process.comes_refl : k.Comes bad status k :=
  fun es _ hrun _ => ⟨[], es, rfl, hrun, by simp⟩

theorem Process.comes_exit {status' : ℕ} (h : status' ≠ status) :
    (Process.exit status').Comes bad status k := by
  intro es q hrun hgoal
  obtain ⟨rfl, rfl⟩ := Process.run_exit hrun
  rcases hgoal with ⟨e, he, -⟩ | hexit
  · cases he
  · exact absurd (Process.exit.inj hexit) h

theorem Process.comes_of_after {p : Process κ π μ} (hp : p ≠ .exit status)
    (h : ∀ e q, p.after e = some q → ¬ bad e ∧ q.Comes bad status k) : p.Comes bad status k := by
  rintro (_ | ⟨e, es⟩) q hrun hgoal
  · rw [Process.run_nil, Option.some.injEq] at hrun
    rcases hgoal with ⟨e, he, -⟩ | hexit
    · cases he
    · exact absurd (hrun.trans hexit) hp
  · obtain ⟨r, hr, hrest⟩ := Process.run_cons.1 hrun
    obtain ⟨he, hcomes⟩ := h _ _ hr
    have hlater : (∃ e' ∈ es, bad e') ∨ q = .exit status := by
      refine hgoal.imp_left ?_
      rintro ⟨e', he', hbad⟩
      rcases List.mem_cons.1 he' with rfl | he'
      · exact absurd hbad he
      · exact ⟨e', he', hbad⟩
    obtain ⟨es₁, es₂, rfl, hk, hes₁⟩ := hcomes hrest hlater
    exact ⟨e :: es₁, es₂, rfl, hk, List.forall_mem_cons.2 ⟨he, hes₁⟩⟩

variable (hkilled : ∀ signal, ¬ bad (.killed signal)) (hstatus : status < 128)
include hkilled hstatus

theorem Process.comes_read {pipe : π} {next : Option μ → Process κ π μ}
    (hread : ∀ message, ¬ bad (.read pipe message))
    (hnext : ∀ message, (next message).Comes bad status k) :
    (Process.read pipe next).Comes bad status k := by
  refine comes_of_after (by simp) fun e q h => ?_
  rcases after_read_iff.1 h with ⟨message, rfl, rfl⟩ | ⟨signal, rfl, rfl⟩
  · exact ⟨hread message, hnext message⟩
  · exact ⟨hkilled signal, comes_exit (by omega)⟩

theorem Process.comes_write {pipe : π} {message : μ} {next : Bool → Process κ π μ}
    (hwrite : ∀ ok, ¬ bad (.write pipe message ok)) (hnext : ∀ ok, (next ok).Comes bad status k) :
    (Process.write pipe message next).Comes bad status k := by
  refine comes_of_after (by simp) fun e q h => ?_
  rcases after_write_iff.1 h with ⟨ok, rfl, rfl⟩ | ⟨signal, rfl, rfl⟩
  · exact ⟨hwrite ok, hnext ok⟩
  · exact ⟨hkilled signal, comes_exit (by omega)⟩

theorem comes_line {fallback : Event κ π μ → Process κ π μ} {rest : Process κ π μ}
    {ops : List (Op κ π μ)} (hfallback : ∀ e, (fallback e).Comes bad status k)
    (hrest : rest.Comes bad status k) (hops : ∀ op ∈ ops, ∀ e, op.Concerns e → ¬ bad e) :
    (line fallback rest ops).Comes bad status k := by
  induction ops with
  | nil => exact hrest
  | cons op ops ih =>
    obtain ⟨hop, hops⟩ := List.forall_mem_cons.1 hops
    refine Process.comes_of_after (by cases op <;> simp [line]) fun e q h => ?_
    rcases line_after h with ⟨he, rfl⟩ | ⟨he, rfl⟩ | ⟨signal, rfl, rfl⟩
    · exact ⟨hop e he.concerns, ih hops⟩
    · exact ⟨hop e he, hfallback e⟩
    · exact ⟨hkilled signal, Process.comes_exit (by omega)⟩

end

end

end RulesMkosi
