/-
  A parent and a child process that talk through pipes.

  The two run in any order; the log of a pair lists what has happened.  In every run each
  process has gone through its own events and every pipe delivers what was written in order
  (`Reaches.consistent`), and what happens in a run happens after the part of the log before
  it (`Reaches.before`).  Every run ends (`steps_wf`), and a process that cannot go on
  without a fault waits for a message or for the other process (`Blocked.waits`).
-/
import Mathlib.Logic.Relation
import Mathlib.Order.GameAdd
import RulesMkosi.Lib.Processes

namespace RulesMkosi

universe u v w

/-! ## Systems -/

inductive Party where
  | parent
  | child
  deriving Repr, DecidableEq

def Party.other : Party → Party
  | parent => child
  | child => parent

/-- Both processes, the messages in the pipes, the pipe ends that each process has closed, and what
    has happened. -/
structure ProcessPair (κ : Type u) (π : Type v) (μ : Type w) where
  process : Party → Process κ π μ
  queue : π → List μ
  closed : Party → π → PipeEnd → Bool
  log : List (Party × Event κ π μ)

namespace ProcessPair

variable {κ : Type u} {π : Type v} {μ : Type w}

/-- Right after a fork every pipe is empty and open on both sides. -/
def forked (parent child : Process κ π μ) : ProcessPair κ π μ where
  process := fun
    | .parent => parent
    | .child => child
  queue := fun _ => []
  closed := fun _ _ _ => false
  log := []

/-- An end of a pipe is open as long as a process that lives holds it. -/
def Open (s : ProcessPair κ π μ) (pipe : π) (pipeEnd : PipeEnd) : Prop :=
  ∃ party, s.closed party pipe pipeEnd = false ∧ ¬ (s.process party).Exited

/-- The events that the pipes and the other process permit.  Any call may fail. -/
def Permits (s : ProcessPair κ π μ) (party : Party) : Event κ π μ → Prop
  | .read pipe (some message) => (s.queue pipe).head? = some message
  | .write pipe _ true => s.Open pipe .reader
  | .wait (some status) => party = .parent ∧ s.process .child = .exit status
  | _ => True

/-- A permitted event that is a failure of the system, or a signal. -/
def Fault (s : ProcessPair κ π μ) : Event κ π μ → Prop
  | .read pipe none => s.queue pipe ≠ [] ∨ s.Open pipe .writer
  | .write pipe _ false => s.Open pipe .reader
  | .wait none => True
  | .killed _ => True
  | _ => False

variable [DecidableEq π]

/-- The pipes after an event. -/
def queueAfter (queue : π → List μ) : Event κ π μ → π → List μ
  | .read pipe (some _) => Function.update queue pipe (queue pipe).tail
  | .write pipe message true => Function.update queue pipe (queue pipe ++ [message])
  | _ => queue

/-- The closed ends after an event. -/
def closedAfter (closed : Party → π → PipeEnd → Bool) (party : Party) :
    Event κ π μ → Party → π → PipeEnd → Bool
  | .close pipe pipeEnd, party', pipe', pipeEnd' =>
    (party = party' ∧ pipe = pipe' ∧ pipeEnd = pipeEnd') || closed party' pipe' pipeEnd'
  | _, party', pipe', pipeEnd' => closed party' pipe' pipeEnd'

/-- The system after an event of a process that is now `p`. -/
def advance (s : ProcessPair κ π μ) (party : Party) (e : Event κ π μ) (p : Process κ π μ) :
    ProcessPair κ π μ where
  process := Function.update s.process party p
  queue := queueAfter s.queue e
  closed := closedAfter s.closed party e
  log := s.log ++ [(party, e)]

@[simp] theorem advance_self (s : ProcessPair κ π μ) (party : Party) (e : Event κ π μ)
    (p : Process κ π μ) : (s.advance party e p).process party = p :=
  Function.update_self ..

theorem advance_of_ne {party party' : Party} (h : party' ≠ party) (s : ProcessPair κ π μ)
    (e : Event κ π μ) (p : Process κ π μ) :
    (s.advance party e p).process party' = s.process party' :=
  Function.update_of_ne h ..

@[simp] theorem advance_log (s : ProcessPair κ π μ) (party : Party) (e : Event κ π μ)
    (p : Process κ π μ) : (s.advance party e p).log = s.log ++ [(party, e)] := rfl

variable [DecidableEq κ] [DecidableEq μ]

/-- One event. -/
inductive Step (s : ProcessPair κ π μ) (party : Party) (e : Event κ π μ) : ProcessPair κ π μ → Prop
  | mk {p} : (s.process party).after e = some p → s.Permits party e → Step s party e (s.advance party e p)

/-- Some event leads from `s` to `s'`. -/
def Steps (s s' : ProcessPair κ π μ) : Prop := ∃ party e, Step s party e s'

/-- The states of every run. -/
def Reaches : ProcessPair κ π μ → ProcessPair κ π μ → Prop := Relation.ReflTransGen Steps

/-! ### Every run ends -/

theorem steps_wf : WellFounded fun s' s : ProcessPair κ π μ => Steps s s' := by
  have hwf := (Process.next_wf (κ := κ) (π := π) (μ := μ)).prod_gameAdd
    (Process.next_wf (κ := κ) (π := π) (μ := μ))
  refine Subrelation.wf ?_ (InvImage.wf (fun s : ProcessPair κ π μ =>
    (s.process .parent, s.process .child)) hwf)
  rintro s' s ⟨party, e, hstep⟩
  cases hstep with
  | mk hafter hpermits =>
    cases party with
    | parent => exact .fst ⟨e, hafter⟩
    | child => exact .snd ⟨e, hafter⟩

/-! ### The log -/

/-- The events of one process. -/
def eventsOf (party : Party) (log : List (Party × Event κ π μ)) : List (Event κ π μ) :=
  log.filterMap fun entry => if entry.1 = party then some entry.2 else none

/-- The messages that were written to a pipe. -/
def sent (pipe : π) (log : List (Party × Event κ π μ)) : List μ :=
  log.filterMap fun entry =>
    match entry.2 with
    | .write pipe' message true => if pipe' = pipe then some message else none
    | _ => none

/-- The messages that were read from a pipe. -/
def received (pipe : π) (log : List (Party × Event κ π μ)) : List μ :=
  log.filterMap fun entry =>
    match entry.2 with
    | .read pipe' (some message) => if pipe' = pipe then some message else none
    | _ => none

omit [DecidableEq π] [DecidableEq κ] [DecidableEq μ] in
theorem mem_eventsOf {party : Party} {log : List (Party × Event κ π μ)} {e : Event κ π μ} :
    e ∈ eventsOf party log ↔ (party, e) ∈ log := by
  rw [eventsOf, List.mem_filterMap]
  constructor
  · rintro ⟨⟨party', e'⟩, hmem, h⟩
    simp only [Option.ite_none_right_eq_some, Option.some.injEq] at h
    rw [← h.1, ← h.2]
    exact hmem
  · exact fun h => ⟨_, h, if_pos rfl⟩

omit [DecidableEq κ] [DecidableEq μ] in
theorem mem_sent {pipe : π} {log : List (Party × Event κ π μ)} {message : μ} :
    message ∈ sent pipe log ↔ ∃ party, (party, Event.write pipe message true) ∈ log := by
  rw [sent, List.mem_filterMap]
  constructor
  · rintro ⟨⟨party, e⟩, hmem, h⟩
    cases e with
    | write pipe' message' ok =>
      cases ok with
      | true =>
        simp only [Option.ite_none_right_eq_some, Option.some.injEq] at h
        rw [← h.1, ← h.2]
        exact ⟨party, hmem⟩
      | false => cases h
    | _ => cases h
  · rintro ⟨party, hmem⟩
    exact ⟨_, hmem, if_pos rfl⟩

omit [DecidableEq κ] [DecidableEq μ] in
theorem mem_received {pipe : π} {log : List (Party × Event κ π μ)} {message : μ} :
    message ∈ received pipe log ↔ ∃ party, (party, Event.read pipe (some message)) ∈ log := by
  rw [received, List.mem_filterMap]
  constructor
  · rintro ⟨⟨party, e⟩, hmem, h⟩
    cases e with
    | read pipe' message' =>
      cases message' with
      | some message' =>
        simp only [Option.ite_none_right_eq_some, Option.some.injEq] at h
        rw [← h.1, ← h.2]
        exact ⟨party, hmem⟩
      | none => cases h
    | _ => cases h
  · rintro ⟨party, hmem⟩
    exact ⟨_, hmem, if_pos rfl⟩

/-- What every state of a run that starts with a fork has in common. -/
structure Consistent (parent child : Process κ π μ) (s : ProcessPair κ π μ) : Prop where
  parent_run : parent.run (eventsOf .parent s.log) = some (s.process .parent)
  child_run : child.run (eventsOf .child s.log) = some (s.process .child)
  fifo : ∀ pipe, received pipe s.log ++ s.queue pipe = sent pipe s.log
  closed : ∀ party pipe pipeEnd,
    s.closed party pipe pipeEnd = true ↔ (party, .close pipe pipeEnd) ∈ s.log
  waited : ∀ status, (.parent, .wait (some status)) ∈ s.log → s.process .child = .exit status

theorem consistent_forked (parent child : Process κ π μ) :
    Consistent parent child (forked parent child) where
  parent_run := rfl
  child_run := rfl
  fifo := fun _ => rfl
  closed := by simp [forked]
  waited := by simp [forked]

omit [DecidableEq κ] [DecidableEq μ] in
/-- An event that is permitted keeps what was read and what waits in a pipe together. -/
theorem fifo_advance {s : ProcessPair κ π μ} {party : Party} {e : Event κ π μ} {pipe : π}
    (h : received pipe s.log ++ s.queue pipe = sent pipe s.log) (hpermits : s.Permits party e) :
    received pipe (s.log ++ [(party, e)]) ++ queueAfter s.queue e pipe =
      sent pipe (s.log ++ [(party, e)]) := by
  simp only [received, sent, List.filterMap_append, List.filterMap_cons, List.filterMap_nil] at h ⊢
  cases e with
  | read pipe' message =>
    cases message with
    | none => simpa [queueAfter] using h
    | some message =>
      have hhead : (s.queue pipe').head? = some message := hpermits
      by_cases hpipe : pipe' = pipe
      · subst hpipe
        obtain ⟨rest, hqueue⟩ := List.head?_eq_some_iff.1 hhead
        rw [hqueue] at h
        simp only [queueAfter, Function.update_self, hqueue, if_true, List.tail_cons, List.append_nil,
          List.append_assoc]
        exact h
      · simp only [queueAfter, if_neg hpipe, Function.update_of_ne (Ne.symm hpipe), List.append_nil]
        exact h
  | write pipe' message ok =>
    cases ok with
    | false => simpa [queueAfter] using h
    | true =>
      by_cases hpipe : pipe' = pipe
      · subst hpipe
        simp only [queueAfter, Function.update_self, if_true, List.append_nil]
        rw [← List.append_assoc, h]
      · simp only [queueAfter, if_neg hpipe, Function.update_of_ne (Ne.symm hpipe), List.append_nil]
        exact h
  | call name result => simpa [queueAfter] using h
  | close pipe' pipeEnd => simpa [queueAfter] using h
  | wait status => simpa [queueAfter] using h
  | killed signal => simpa [queueAfter] using h

omit [DecidableEq κ] [DecidableEq μ] in
theorem closed_advance {s : ProcessPair κ π μ} {party : Party} {e : Event κ π μ} {party' : Party}
    {pipe : π} {pipeEnd : PipeEnd}
    (h : s.closed party' pipe pipeEnd = true ↔ (party', .close pipe pipeEnd) ∈ s.log) :
    closedAfter s.closed party e party' pipe pipeEnd = true ↔
      (party', .close pipe pipeEnd) ∈ s.log ++ [(party, e)] := by
  rw [List.mem_append, List.mem_singleton, ← h]
  cases e with
  | close pipe' pipeEnd' =>
    simp only [closedAfter, Bool.or_eq_true, decide_eq_true_eq, Prod.mk.injEq, Event.close.injEq]
    constructor
    · rintro (⟨rfl, rfl, rfl⟩ | hclosed)
      · exact .inr ⟨rfl, rfl, rfl⟩
      · exact .inl hclosed
    · rintro (hclosed | ⟨rfl, rfl, rfl⟩)
      · exact .inr hclosed
      · exact .inl ⟨rfl, rfl, rfl⟩
  | _ => simp [closedAfter]

omit [DecidableEq κ] [DecidableEq μ] [DecidableEq π] in
theorem eventsOf_concat_self (party : Party) (log : List (Party × Event κ π μ)) (e : Event κ π μ) :
    eventsOf party (log ++ [(party, e)]) = eventsOf party log ++ [e] := by
  simp [eventsOf]

omit [DecidableEq κ] [DecidableEq μ] [DecidableEq π] in
theorem eventsOf_concat_ne {party party' : Party} (h : party ≠ party')
    (log : List (Party × Event κ π μ)) (e : Event κ π μ) :
    eventsOf party' (log ++ [(party, e)]) = eventsOf party' log := by
  simp [eventsOf, h]

/-- An ended process stays as it is. -/
theorem Step.exit {s s' : ProcessPair κ π μ} {party party' : Party} {e : Event κ π μ} {status : ℕ}
    (h : Step s party e s') (hexit : s.process party' = .exit status) :
    s'.process party' = .exit status := by
  cases h with
  | mk hafter hpermits =>
    by_cases hparty : party = party'
    · rw [hparty, hexit, Process.after_exit] at hafter
      cases hafter
    · rw [advance_of_ne (Ne.symm hparty)]
      exact hexit

theorem Consistent.step {parent child : Process κ π μ} {s s' : ProcessPair κ π μ} {party : Party}
    {e : Event κ π μ} (h : Consistent parent child s) (hstep : Step s party e s') :
    Consistent parent child s' := by
  have hexit : ∀ status, s.process .child = .exit status → s'.process .child = .exit status :=
    fun _ => hstep.exit
  cases hstep with
  | @mk p hafter hpermits =>
    constructor
    · cases party with
      | parent =>
        rw [advance_log, eventsOf_concat_self, advance_self]
        exact Process.run_concat.2 ⟨_, h.parent_run, hafter⟩
      | child =>
        rw [advance_log, eventsOf_concat_ne (by simp), advance_of_ne (by simp)]
        exact h.parent_run
    · cases party with
      | parent =>
        rw [advance_log, eventsOf_concat_ne (by simp), advance_of_ne (by simp)]
        exact h.child_run
      | child =>
        rw [advance_log, eventsOf_concat_self, advance_self]
        exact Process.run_concat.2 ⟨_, h.child_run, hafter⟩
    · exact fun pipe => fifo_advance (h.fifo pipe) hpermits
    · exact fun party' pipe pipeEnd => closed_advance (h.closed party' pipe pipeEnd)
    · intro status hwait
      refine hexit status ?_
      rcases List.mem_append.1 hwait with hwait | hwait
      · exact h.waited status hwait
      · rw [List.mem_singleton] at hwait
        cases hwait
        exact hpermits.2

theorem Reaches.consistent {parent child : Process κ π μ} {s : ProcessPair κ π μ}
    (h : Reaches (forked parent child) s) : Consistent parent child s := by
  induction h with
  | refl => exact consistent_forked parent child
  | tail _ hstep ih =>
    obtain ⟨party, e, hstep⟩ := hstep
    exact ih.step hstep

theorem Reaches.step {s₀ s : ProcessPair κ π μ} (h : Reaches s₀ s) (party : Party) {e : Event κ π μ}
    {p : Process κ π μ} (hafter : (s.process party).after e = some p) (hpermits : s.Permits party e) :
    Reaches s₀ (s.advance party e p) :=
  h.tail ⟨party, e, .mk hafter hpermits⟩

section
variable {s₀ s : ProcessPair κ π μ} (h : Reaches s₀ s) (party : Party)
include h

theorem Reaches.call {name : κ} {next : ℤ → Process κ π μ} (hcall : s.process party = .call name next)
    (result : ℤ) : Reaches s₀ (s.advance party (.call name result) (next result)) :=
  h.step party (by rw [hcall]; exact if_pos rfl) trivial

theorem Reaches.read {pipe : π} {next : Option μ → Process κ π μ} {message : μ}
    (hread : s.process party = .read pipe next) (hmessage : (s.queue pipe).head? = some message) :
    Reaches s₀ (s.advance party (.read pipe (some message)) (next (some message))) :=
  h.step party (by rw [hread]; exact if_pos rfl) hmessage

theorem Reaches.write {pipe : π} {message : μ} {next : Bool → Process κ π μ}
    (hwrite : s.process party = .write pipe message next) (hopen : s.Open pipe .reader) :
    Reaches s₀ (s.advance party (.write pipe message true) (next true)) :=
  h.step party (by rw [hwrite]; exact if_pos ⟨rfl, rfl⟩) hopen

theorem Reaches.close {pipe : π} {pipeEnd : PipeEnd} {next : Process κ π μ}
    (hclose : s.process party = .close pipe pipeEnd next) :
    Reaches s₀ (s.advance party (.close pipe pipeEnd) next) :=
  h.step party (by rw [hclose]; exact if_pos ⟨rfl, rfl⟩) trivial

end

/-- A call of a line that goes well. -/
theorem Reaches.line_step {s₀ s : ProcessPair κ π μ} (h : Reaches s₀ s) (party : Party)
    {fallback : Event κ π μ → Process κ π μ} {rest : Process κ π μ} {op : Op κ π μ}
    {ops : List (Op κ π μ)} {e : Event κ π μ}
    (hline : s.process party = line fallback rest (op :: ops)) (he : op.Succeeds e)
    (hpermits : s.Permits party e) : Reaches s₀ (s.advance party e (line fallback rest ops)) :=
  h.step party (hline ▸ line_succeeds he) hpermits

/-- **A run before one of its events.** -/
theorem Reaches.before {parent child : Process κ π μ} {s : ProcessPair κ π μ}
    (h : Reaches (forked parent child) s) {before after : List (Party × Event κ π μ)} {party : Party}
    {e : Event κ π μ} (hlog : s.log = before ++ (party, e) :: after) :
    ∃ s₁, Reaches (forked parent child) s₁ ∧ s₁.log = before ∧ s₁.Permits party e := by
  induction h generalizing after with
  | refl => simp [forked] at hlog
  | @tail s s' hreach hstep ih =>
    obtain ⟨party', e', hstep⟩ := hstep
    cases hstep with
    | mk hafter hpermits =>
      rcases List.eq_nil_or_concat after with rfl | ⟨after, last, rfl⟩
      · obtain ⟨hbefore, hlast⟩ := List.append_inj' (show s.log ++ [(party', e')] = _ from hlog) rfl
        cases hlast
        exact ⟨s, hreach, hbefore, hpermits⟩
      · have hlog' : s.log ++ [(party', e')] = before ++ (party, e) :: after ++ [last] := by
          rw [List.append_assoc, List.cons_append]
          simpa [advance] using hlog
        exact ih (List.append_inj' hlog' rfl).1

/-- A message that waits in a pipe, or was read from it, was written to it. -/
theorem Consistent.mem_sent {parent child : Process κ π μ} {s : ProcessPair κ π μ}
    (h : Consistent parent child s) {pipe : π} {message : μ}
    (hmessage : (s.queue pipe).head? = some message) : message ∈ sent pipe s.log := by
  rw [← h.fifo pipe]
  exact List.mem_append_right _ (List.mem_of_head? hmessage)

/-- **A read is behind the write of its message.** -/
theorem Reaches.written_before {parent child : Process κ π μ} {s : ProcessPair κ π μ}
    (h : Reaches (forked parent child) s) {before after : List (Party × Event κ π μ)} {party : Party}
    {pipe : π} {message : μ} (hlog : s.log = before ++ (party, .read pipe (some message)) :: after) :
    ∃ party', (party', Event.write pipe message true) ∈ before := by
  obtain ⟨s₁, hreach, rfl, hpermits⟩ := h.before hlog
  exact ProcessPair.mem_sent.1 (hreach.consistent.mem_sent hpermits)

omit [DecidableEq π] [DecidableEq κ] [DecidableEq μ] in
/-- The events of one process before and behind one of them. -/
theorem eventsOf_eq_append {party : Party} {e : Event κ π μ} {fs : List (Event κ π μ)} :
    ∀ {log : List (Party × Event κ π μ)} {es : List (Event κ π μ)},
      eventsOf party log = es ++ e :: fs →
      ∃ before after, log = before ++ (party, e) :: after ∧ eventsOf party before = es ∧
        eventsOf party after = fs
  | [], es, h => by simp [eventsOf] at h
  | (party', e') :: log, es, h => by
    by_cases hparty : party' = party
    · subst hparty
      have hcons : eventsOf party' ((party', e') :: log) = e' :: eventsOf party' log := by
        simp [eventsOf]
      rw [hcons] at h
      cases es with
      | nil =>
        obtain ⟨rfl, hfs⟩ := List.cons.inj h
        exact ⟨[], log, rfl, rfl, hfs⟩
      | cons e'' es =>
        obtain ⟨rfl, hes⟩ := List.cons.inj h
        obtain ⟨before, after, rfl, hbefore, hafter⟩ := eventsOf_eq_append hes
        refine ⟨(party', e') :: before, after, rfl, ?_, hafter⟩
        rw [← hbefore]
        simp [eventsOf]
    · have hcons : ∀ log', eventsOf party ((party', e') :: log') = eventsOf party log' := by
        intro log'
        simp [eventsOf, hparty]
      rw [hcons] at h
      obtain ⟨before, after, rfl, hbefore, hafter⟩ := eventsOf_eq_append h
      exact ⟨(party', e') :: before, after, rfl, (hcons before).trans hbefore, hafter⟩

/-- Each process has gone through its own events. -/
theorem Consistent.run {parent child : Process κ π μ} {s : ProcessPair κ π μ}
    (h : Consistent parent child s) (party : Party) :
    ((forked parent child).process party).run (eventsOf party s.log) = some (s.process party) := by
  cases party with
  | parent => exact h.parent_run
  | child => exact h.child_run

/-- A process at one of its events. -/
theorem Consistent.run_at {parent child : Process κ π μ} {s : ProcessPair κ π μ}
    (h : Consistent parent child s) {before after : List (Party × Event κ π μ)} {party : Party}
    {e : Event κ π μ} (hlog : s.log = before ++ (party, e) :: after) :
    ((forked parent child).process party).run
      (eventsOf party before ++ e :: eventsOf party after) = some (s.process party) := by
  have hevents : eventsOf party s.log = eventsOf party before ++ e :: eventsOf party after := by
    simp [hlog, eventsOf]
  rw [← hevents]
  exact h.run party

/-- **A line before an event of its process.** -/
theorem Consistent.line_before {parent child : Process κ π μ} {s : ProcessPair κ π μ}
    (h : Consistent parent child s) {bad : Event κ π μ → Prop} {party : Party}
    {fallback : Event κ π μ → Process κ π μ} {rest : Process κ π μ} {ops : List (Op κ π μ)}
    (hline : (forked parent child).process party = line fallback rest ops)
    (hfallback : ∀ e, (fallback e).Avoids bad) (hkilled : ∀ signal, ¬ bad (.killed signal))
    (hops : ∀ op ∈ ops, ∀ e, op.Concerns e → ¬ bad e)
    {before after : List (Party × Event κ π μ)} {e : Event κ π μ} (hbad : bad e)
    (hlog : s.log = before ++ (party, e) :: after) :
    ∃ good es, eventsOf party before = good ++ es ∧ List.Forall₂ Op.Succeeds ops good := by
  have hrun := h.run_at hlog
  rw [hline] at hrun
  obtain ⟨good, es, hes, hgood, -⟩ := line_before_event hfallback hkilled hops hbad hrun
  exact ⟨good, es, hes, hgood⟩

/-- **A message that was read was written by the other process before,** if the reader never writes
    to the pipe. -/
theorem Reaches.sent_before {parent child : Process κ π μ} {s : ProcessPair κ π μ}
    (h : Reaches (forked parent child) s) {before after : List (Party × Event κ π μ)} {party : Party}
    {pipe : π} {message : μ} (hlog : s.log = before ++ (party, .read pipe (some message)) :: after)
    (havoids : ((forked parent child).process party).Avoids (Event.WritesTo pipe)) :
    ∃ before' after', before = before' ++ (party.other, .write pipe message true) :: after' := by
  obtain ⟨party', hwrite⟩ := h.written_before hlog
  have hparty : party' = party.other := by
    have hne : party' ≠ party := by
      rintro rfl
      have hmem : Event.write pipe message true ∈ eventsOf party' s.log := by
        rw [mem_eventsOf, hlog]
        exact List.mem_append_left _ hwrite
      exact havoids (h.consistent.run party') _ hmem ⟨message, true, rfl⟩
    cases party <;> cases party' <;> simp_all [Party.other]
  obtain ⟨before', after', hbefore⟩ := List.append_of_mem hwrite
  exact ⟨before', after', by rw [hbefore, hparty]⟩

/-! ### Calls that go well in order -/

/-- These calls of the two processes have gone well in this order. -/
def Passed (ops : List (Party × Op κ π μ)) (log : List (Party × Event κ π μ)) : Prop :=
  ∃ entries, List.Forall₂ (fun op entry => op.1 = entry.1 ∧ op.2.Succeeds entry.2) ops entries ∧
    entries.Sublist log

omit [DecidableEq π] [DecidableEq κ] [DecidableEq μ] in
theorem passed_nil (log : List (Party × Event κ π μ)) : Passed [] log :=
  ⟨[], .nil, List.nil_sublist _⟩

omit [DecidableEq π] [DecidableEq κ] [DecidableEq μ] in
theorem Passed.append {ops ops' : List (Party × Op κ π μ)} {log log' : List (Party × Event κ π μ)}
    (h : Passed ops log) (h' : Passed ops' log') : Passed (ops ++ ops') (log ++ log') := by
  obtain ⟨entries, hentries, hsublist⟩ := h
  obtain ⟨entries', hentries', hsublist'⟩ := h'
  exact ⟨entries ++ entries', List.rel_append hentries hentries', hsublist.append hsublist'⟩

omit [DecidableEq π] [DecidableEq κ] [DecidableEq μ] in
theorem Passed.cons {ops : List (Party × Op κ π μ)} {log : List (Party × Event κ π μ)} {party : Party}
    {op : Op κ π μ} {e : Event κ π μ} (he : op.Succeeds e) (h : Passed ops log) :
    Passed ((party, op) :: ops) ((party, e) :: log) := by
  obtain ⟨entries, hentries, hsublist⟩ := h
  exact ⟨(party, e) :: entries, .cons ⟨rfl, he⟩ hentries, hsublist.cons_cons _⟩

omit [DecidableEq π] [DecidableEq κ] [DecidableEq μ] in
theorem Passed.of_append {ops ops' : List (Party × Op κ π μ)} {log : List (Party × Event κ π μ)}
    (h : Passed (ops ++ ops') log) : Passed ops log := by
  obtain ⟨entries, hentries, hlog⟩ := h
  refine ⟨entries.take ops.length, ?_, (List.take_sublist _ _).trans hlog⟩
  have := List.forall₂_take ops.length hentries
  rwa [List.take_left] at this

omit [DecidableEq π] [DecidableEq κ] [DecidableEq μ] in
/-- The calls of one process, from its events. -/
theorem passed_of_eventsOf {party : Party} {ops : List (Op κ π μ)} {good : List (Event κ π μ)}
    {log : List (Party × Event κ π μ)} (hlog : good.Sublist (eventsOf party log))
    (hgood : List.Forall₂ Op.Succeeds ops good) : Passed (ops.map (Prod.mk party)) log := by
  refine ⟨good.map (Prod.mk party), ?_, ?_⟩
  · rw [List.forall₂_map_left_iff, List.forall₂_map_right_iff]
    exact hgood.imp fun _ _ h => ⟨rfl, h⟩
  · refine (hlog.map (Prod.mk party)).trans ?_
    -- the entries of one process are part of the log
    clear hlog hgood
    induction log with
    | nil => exact List.Sublist.refl _
    | cons entry log ih =>
      obtain ⟨party', e⟩ := entry
      by_cases hparty : party' = party
      · subst hparty
        simpa [eventsOf] using ih
      · have hevents : eventsOf party ((party', e) :: log) = eventsOf party log := by
          simp [eventsOf, hparty]
        rw [hevents]
        exact ih.cons _

/-- **The calls of a line before an event of its process,** split at one of them. -/
theorem Consistent.passed_before {parent child : Process κ π μ} {s : ProcessPair κ π μ}
    (h : Consistent parent child s) {bad : Event κ π μ → Prop} {party : Party}
    {fallback : Event κ π μ → Process κ π μ} {rest : Process κ π μ} {ops ops' : List (Op κ π μ)}
    {op : Op κ π μ}
    (hline : (forked parent child).process party = line fallback rest (ops ++ op :: ops'))
    (hfallback : ∀ e, (fallback e).Avoids bad) (hkilled : ∀ signal, ¬ bad (.killed signal))
    (hops : ∀ op' ∈ ops ++ op :: ops', ∀ e, op'.Concerns e → ¬ bad e)
    {before after : List (Party × Event κ π μ)} {e : Event κ π μ} (hbad : bad e)
    (hlog : s.log = before ++ (party, e) :: after) :
    ∃ before₁ e' before₂, before = before₁ ++ (party, e') :: before₂ ∧ op.Succeeds e' ∧
      Passed (ops.map (Prod.mk party)) before₁ ∧ Passed (ops'.map (Prod.mk party)) before₂ := by
  obtain ⟨good, es, hbefore, hgood⟩ := h.line_before hline hfallback hkilled hops hbad hlog
  obtain ⟨good₁, e', good₂, rfl, h₁, he', h₂⟩ := succeeds_append hgood
  rw [List.append_assoc, List.cons_append] at hbefore
  obtain ⟨before₁, before₂, rfl, hbefore₁, hbefore₂⟩ := eventsOf_eq_append hbefore
  refine ⟨before₁, e', before₂, rfl, he', ?_, ?_⟩
  · exact passed_of_eventsOf (hbefore₁ ▸ List.Sublist.refl good₁) h₁
  · exact passed_of_eventsOf (hbefore₂ ▸ List.sublist_append_left good₂ es) h₂

omit [DecidableEq π] [DecidableEq κ] [DecidableEq μ] in
theorem Passed.mono {ops : List (Party × Op κ π μ)} {log log' : List (Party × Event κ π μ)}
    (h : Passed ops log) (hsublist : log.Sublist log') : Passed ops log' := by
  obtain ⟨entries, hentries, hlog⟩ := h
  exact ⟨entries, hentries, hlog.trans hsublist⟩

/-! ### Progress -/

/-- Nothing more happens to the process without a fault. -/
def Blocked (s : ProcessPair κ π μ) (party : Party) : Prop :=
  ∀ e s', Step s party e s' → s.Fault e

/-- **What a blocked process waits for.** -/
theorem Blocked.waits {s : ProcessPair κ π μ} {party : Party} (h : s.Blocked party) :
    (∃ status, s.process party = .exit status) ∨
      (∃ pipe next, s.process party = .read pipe next ∧ s.queue pipe = [] ∧ s.Open pipe .writer) ∨
      ∃ next, s.process party = .wait next ∧
        (party = .parent → ∀ status, s.process .child ≠ .exit status) := by
  cases hprocess : s.process party with
  | exit status => exact .inl ⟨status, rfl⟩
  | call name next =>
    exact (h (.call name 0) _ (.mk (by rw [hprocess]; exact if_pos rfl) trivial)).elim
  | write pipe message next =>
    by_cases hopen : s.Open pipe .reader
    · exact (h (.write pipe message true) _
        (.mk (by rw [hprocess]; exact if_pos ⟨rfl, rfl⟩) hopen)).elim
    · exact absurd (h (.write pipe message false) _
        (.mk (by rw [hprocess]; exact if_pos ⟨rfl, rfl⟩) trivial)) hopen
  | close pipe pipeEnd next =>
    exact (h (.close pipe pipeEnd) _ (.mk (by rw [hprocess]; exact if_pos ⟨rfl, rfl⟩) trivial)).elim
  | read pipe next =>
    refine .inr (.inl ⟨pipe, next, rfl, ?_⟩)
    cases hqueue : s.queue pipe with
    | cons message rest =>
      exact (h (.read pipe (some message)) _ (.mk (by rw [hprocess]; exact if_pos rfl)
        (show (s.queue pipe).head? = some message by rw [hqueue]; rfl))).elim
    | nil =>
      refine ⟨rfl, ?_⟩
      rcases h (.read pipe none) _ (.mk (by rw [hprocess]; exact if_pos rfl) trivial) with hne | hopen
      · exact absurd hqueue hne
      · exact hopen
  | wait next =>
    refine .inr (.inr ⟨next, rfl, fun hparty status hexit => ?_⟩)
    exact h (.wait (some status)) _ (.mk (by rw [hprocess]; rfl) ⟨hparty, hexit⟩)

/-- In an empty pipe every message has been read. -/
theorem Consistent.drained {parent child : Process κ π μ} {s : ProcessPair κ π μ}
    (h : Consistent parent child s) {pipe : π} (hempty : s.queue pipe = []) {party : Party} {message : μ}
    (hsent : .write pipe message true ∈ eventsOf party s.log) :
    ∃ party', .read pipe (some message) ∈ eventsOf party' s.log := by
  have hreceived : message ∈ received pipe s.log := by
    rw [← List.append_nil (received pipe s.log), ← hempty, h.fifo]
    exact ProcessPair.mem_sent.2 ⟨party, mem_eventsOf.1 hsent⟩
  obtain ⟨party', hread⟩ := mem_received.1 hreceived
  exact ⟨party', mem_eventsOf.2 hread⟩

/-- A step without a fault. -/
def SoundSteps (s s' : ProcessPair κ π μ) : Prop := ∃ party e, Step s party e s' ∧ ¬ s.Fault e

/-- **Every run can be completed without a fault** when a run can only stop where both processes have
    ended. -/
theorem completes {s₀ : ProcessPair κ π μ}
    (hblocked : ∀ s, Reaches s₀ s → (∀ party, s.Blocked party) → ∀ party, (s.process party).Exited)
    (s : ProcessPair κ π μ) (hreach : Reaches s₀ s) :
    ∃ s', Relation.ReflTransGen SoundSteps s s' ∧ ∀ party, (s'.process party).Exited := by
  refine steps_wf.induction (C := fun s => Reaches s₀ s → ∃ s', Relation.ReflTransGen SoundSteps s s' ∧
    ∀ party, (s'.process party).Exited) s (fun s ih hreach => ?_) hreach
  by_cases hall : ∀ party, s.Blocked party
  · exact ⟨s, .refl, hblocked s hreach hall⟩
  · simp only [Blocked, not_forall] at hall
    obtain ⟨party, e, s₁, hstep, hsound⟩ := hall
    obtain ⟨s', hs', hexited⟩ := ih s₁ ⟨party, e, hstep⟩ (hreach.tail ⟨party, e, hstep⟩)
    exact ⟨s', .head ⟨party, e, hstep, hsound⟩ hs', hexited⟩

/-- An open end is held by a process that lives. -/
theorem Consistent.open_iff {parent child : Process κ π μ} {s : ProcessPair κ π μ}
    (h : Consistent parent child s) {pipe : π} {pipeEnd : PipeEnd} :
    s.Open pipe pipeEnd ↔
      ∃ party, .close pipe pipeEnd ∉ eventsOf party s.log ∧ ¬ (s.process party).Exited := by
  refine exists_congr fun party => and_congr_left fun _ => ?_
  rw [mem_eventsOf, ← h.closed party pipe pipeEnd, Bool.not_eq_true]

end ProcessPair

end RulesMkosi
