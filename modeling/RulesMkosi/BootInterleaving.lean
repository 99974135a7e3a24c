/-
  The wait for readiness while QEMU runs (`mkosi/private/boot_test.py`).

  QEMU appends to its logs and then exits; `_await_readiness` reads the serial log, reads the
  firmware log, polls the process, looks at the clock and sleeps.  The two interleave in any
  order.  What the harness decides is what `awaitReadiness` decides on the rounds it has read
  (`finished_awaitReadiness`).  An exit is reported from a log that was read before the poll,
  so a guest that becomes ready and exits between the two is reported as one that never was.
-/
import Mathlib.Logic.Relation
import RulesMkosi.BootReadiness

namespace RulesMkosi.BootTest

/-! ## The machine -/

/-- Where `_await_readiness` is in its loop. -/
inductive Phase where
  | start
  /-- in `_observe`, the serial log is read -/
  | serialRead (serial : Bytes)
  /-- before `process.poll()` -/
  | undecided (observation : SerialObservation)
  /-- before `monotonic() >= deadline` -/
  | polled (observation : SerialObservation)
  | sleeping
  | finished (outcome : Outcome)
  deriving Repr, DecidableEq

/-- The log files (`none` before QEMU creates them), the exit status of QEMU, and the harness. -/
structure State where
  serial : Option Bytes
  firmware : Option Bytes
  exitCode : Option ℤ
  phase : Phase
  deriving Repr, DecidableEq

/-- `_read_log` -/
def readLog (file : Option Bytes) : Bytes := file.getD (encode "<log unavailable>\n")

/-- What QEMU has written to its serial port. -/
def State.log (s : State) : Bytes := s.serial.getD []

inductive Event where
  | writeSerial (bytes : Bytes)
  | writeFirmware (bytes : Bytes)
  | exit (code : ℤ)
  /-- the next step of the harness, and whether its deadline is reached -/
  | harness (late : Bool)

/-- `_await_readiness` after an observation -/
def afterObserve (readiness : Readiness) (observation : SerialObservation) : Phase :=
  match decision readiness observation with
  | some outcome => .finished outcome
  | none => .undecided observation

/-- One step of `_await_readiness`. -/
def nextPhase (readiness : Readiness) (late : Bool) (s : State) : Phase :=
  match s.phase with
  | .start => .serialRead (readLog s.serial)
  | .serialRead serial => afterObserve readiness (observe readiness serial (readLog s.firmware))
  | .undecided observation =>
    match s.exitCode with
    | some _ => .finished (.exitedBeforeReadiness (classifyProcessExit readiness observation))
    | none => .polled observation
  | .polled observation =>
    if late then
      .finished (.timedOut (timeoutKind readiness observation (readLog s.firmware))
        (missingMarker readiness observation))
    else .sleeping
  | .sleeping => .start
  | .finished outcome => .finished outcome

/-- One step of QEMU or of the harness; QEMU does nothing after its exit. -/
def step (readiness : Readiness) (s : State) : Event → Option State
  | .writeSerial bytes =>
    if s.exitCode = none then some { s with serial := some (s.log ++ bytes) } else none
  | .writeFirmware bytes =>
    if s.exitCode = none then some { s with firmware := some (s.firmware.getD [] ++ bytes) } else none
  | .exit code => if s.exitCode = none then some { s with exitCode := some code } else none
  | .harness late => some { s with phase := nextPhase readiness late s }

/-- Some step of QEMU or of the harness. -/
def Step (readiness : Readiness) (s s' : State) : Prop := ∃ event, step readiness s event = some s'

/-- The states of every interleaving. -/
def Reaches (readiness : Readiness) : State → State → Prop := Relation.ReflTransGen (Step readiness)

/-- What a step can do. -/
theorem step_cases {readiness : Readiness} {s s' : State} {event : Event}
    (h : step readiness s event = some s') :
    (∃ bytes, event = .writeSerial bytes ∧ s.exitCode = none ∧
      s' = { s with serial := some (s.log ++ bytes) }) ∨
    (∃ bytes, event = .writeFirmware bytes ∧ s.exitCode = none ∧
      s' = { s with firmware := some (s.firmware.getD [] ++ bytes) }) ∨
    (∃ code, event = .exit code ∧ s.exitCode = none ∧ s' = { s with exitCode := some code }) ∨
    (∃ late, event = .harness late ∧ s' = { s with phase := nextPhase readiness late s }) := by
  cases event with
  | writeSerial bytes =>
    simp only [step] at h
    split_ifs at h with halive
    exact .inl ⟨bytes, rfl, halive, (Option.some.inj h).symm⟩
  | writeFirmware bytes =>
    simp only [step] at h
    split_ifs at h with halive
    exact .inr (.inl ⟨bytes, rfl, halive, (Option.some.inj h).symm⟩)
  | exit code =>
    simp only [step] at h
    split_ifs at h with halive
    exact .inr (.inr (.inl ⟨code, rfl, halive, (Option.some.inj h).symm⟩))
  | harness late => exact .inr (.inr (.inr ⟨late, rfl, (Option.some.inj h).symm⟩))

/-! ## The rounds of a run -/

/-- An observation that has decided nothing. -/
def Undecided (readiness : Readiness) (observation : SerialObservation) : Prop :=
  ∃ serial firmware, observation = observe readiness serial firmware ∧
    decision readiness observation = none

/-- The rounds that a run of the harness has completed, and what its phase says about the
    current one. -/
def Follows (readiness : Readiness) (rounds : List Round) (s : State) : Prop :=
  match s.phase with
  | .start | .serialRead _ | .sleeping => awaitReadiness readiness rounds = none
  | .undecided observation | .polled observation =>
    awaitReadiness readiness rounds = none ∧ Undecided readiness observation
  | .finished outcome => awaitReadiness readiness rounds = some outcome

theorem awaitReadiness_concat {readiness : Readiness} {rounds : List Round} {round : Round}
    (h : awaitReadiness readiness rounds = none) :
    awaitReadiness readiness (rounds ++ [round]) = roundOutcome readiness round := by
  unfold awaitReadiness at h ⊢
  rw [List.findSome?_append, h, Option.none_or, List.findSome?_cons]
  cases roundOutcome readiness round <;> rfl

/-- A step of the harness goes on with its round or completes it. -/
theorem Follows.harness {readiness : Readiness} {rounds : List Round} {s : State} (late : Bool)
    (h : Follows readiness rounds s) :
    ∃ rounds', Follows readiness rounds' { s with phase := nextPhase readiness late s } := by
  unfold Follows at h
  cases hphase : s.phase with
  | start => exact ⟨rounds, by rw [hphase] at h; simpa [Follows, nextPhase, hphase] using h⟩
  | sleeping => exact ⟨rounds, by rw [hphase] at h; simpa [Follows, nextPhase, hphase] using h⟩
  | finished outcome => exact ⟨rounds, by rw [hphase] at h; simpa [Follows, nextPhase, hphase] using h⟩
  | serialRead serial =>
    rw [hphase] at h
    set observation := observe readiness serial (readLog s.firmware) with hobservation
    cases hdecision : decision readiness observation with
    | none =>
      refine ⟨rounds, ?_⟩
      simp only [Follows, nextPhase, hphase, afterObserve, ← hobservation, hdecision]
      exact ⟨h, _, _, rfl, hdecision⟩
    | some outcome =>
      refine ⟨rounds ++ [⟨serial, readLog s.firmware, none, none⟩], ?_⟩
      simp only [Follows, nextPhase, hphase, afterObserve, ← hobservation, hdecision]
      rw [awaitReadiness_concat h]
      simp [roundOutcome, ← hobservation, hdecision]
  | undecided observation =>
    rw [hphase] at h
    obtain ⟨hnone, serial, firmware, hobservation, hdecision⟩ := h
    subst hobservation
    cases hexit : s.exitCode with
    | none =>
      refine ⟨rounds, ?_⟩
      simp only [Follows, nextPhase, hphase, hexit]
      exact ⟨hnone, serial, firmware, rfl, hdecision⟩
    | some code =>
      refine ⟨rounds ++ [⟨serial, firmware, some code, none⟩], ?_⟩
      simp only [Follows, nextPhase, hphase, hexit]
      rw [awaitReadiness_concat hnone]
      simp [roundOutcome, hdecision]
  | polled observation =>
    rw [hphase] at h
    obtain ⟨hnone, serial, firmware, hobservation, hdecision⟩ := h
    subst hobservation
    cases late with
    | false =>
      refine ⟨rounds ++ [⟨serial, firmware, none, none⟩], ?_⟩
      simp only [Follows, nextPhase, hphase, Bool.false_eq_true, if_false]
      rw [awaitReadiness_concat hnone]
      simp [roundOutcome, hdecision]
    | true =>
      refine ⟨rounds ++ [⟨serial, firmware, none, some (readLog s.firmware)⟩], ?_⟩
      simp only [Follows, nextPhase, hphase, if_true]
      rw [awaitReadiness_concat hnone]
      simp [roundOutcome, hdecision]

theorem Follows.step {readiness : Readiness} {rounds : List Round} {s s' : State}
    (h : Follows readiness rounds s) (hstep : Step readiness s s') :
    ∃ rounds', Follows readiness rounds' s' := by
  obtain ⟨event, hstep⟩ := hstep
  rcases step_cases hstep with ⟨_, _, _, rfl⟩ | ⟨_, _, _, rfl⟩ | ⟨_, _, _, rfl⟩ | ⟨late, _, rfl⟩
  · exact ⟨rounds, h⟩
  · exact ⟨rounds, h⟩
  · exact ⟨rounds, h⟩
  · exact h.harness late

theorem Reaches.follows {readiness : Readiness} {s s' : State} (hstart : s.phase = .start)
    (hreach : Reaches readiness s s') : ∃ rounds, Follows readiness rounds s' := by
  induction hreach with
  | refl => exact ⟨[], by simp [Follows, hstart, awaitReadiness]⟩
  | tail _ hstep ih =>
    obtain ⟨rounds, h⟩ := ih
    exact h.step hstep

/-- **The machine refines the loop.**  However QEMU and the harness interleave, the harness ends as
    `awaitReadiness` does on the rounds it has read. -/
theorem finished_awaitReadiness {readiness : Readiness} {s s' : State} {outcome : Outcome}
    (hstart : s.phase = .start) (hreach : Reaches readiness s s') (hend : s'.phase = .finished outcome) :
    ∃ rounds, awaitReadiness readiness rounds = some outcome := by
  obtain ⟨rounds, h⟩ := hreach.follows hstart
  rw [Follows, hend] at h
  exact ⟨rounds, h⟩

/-! ## Exits -/

/-- The serial log that was read and on which the next poll will report. -/
def Phase.pending : Phase → Option Bytes
  | .serialRead serial => some serial
  | .undecided observation => some observation.serial
  | .start | .polled _ | .sleeping | .finished _ => none

/-- If the guest is ready by now, the log that the harness has read says so. -/
def UpToDate (readiness : Readiness) (s : State) : Prop :=
  ∀ serial, s.phase.pending = some serial → InOrder readiness.markers s.log →
    InOrder readiness.markers serial

/-- An exit of QEMU is quiet if the guest has not become ready between the last read of the serial
    log and the poll that follows it. -/
def Quiet (readiness : Readiness) (s : State) : Event → Prop
  | .exit _ => UpToDate readiness s
  | .writeSerial _ | .writeFirmware _ | .harness _ => True

def QuietStep (readiness : Readiness) (s s' : State) : Prop :=
  ∃ event, Quiet readiness s event ∧ step readiness s event = some s'

/-- "QEMU exited before readiness", while the log has all markers. -/
def FalseExit (readiness : Readiness) (s : State) : Prop :=
  (∃ kind, s.phase = .finished (.exitedBeforeReadiness kind)) ∧ InOrder readiness.markers s.log

/-- What holds along quiet runs. -/
structure ExitInv (readiness : Readiness) (s : State) : Prop where
  upToDate : s.exitCode ≠ none → UpToDate readiness s
  observed : ∀ observation, s.phase = .undecided observation → Undecided readiness observation
  verdict : ∀ kind, s.phase = .finished (.exitedBeforeReadiness kind) →
    s.exitCode ≠ none ∧ ¬ InOrder readiness.markers s.log

section
variable {readiness : Readiness} {s s' : State}

/-- Without an expected failure, an observation that decides nothing has not seen the markers. -/
theorem Undecided.not_inOrder {observation : SerialObservation}
    (hmarker : readiness.expectedFailureMarker = "") (h : Undecided readiness observation) :
    ¬ InOrder readiness.markers observation.serial := by
  obtain ⟨serial, firmware, rfl, hdecision⟩ := h
  rw [← @readinessOffset_isSome_iff _ _ firmware]
  intro hready
  have hready : (observe readiness serial firmware).readinessOffset.isSome = true := hready
  simp [decision, hmarker, hready] at hdecision

theorem decision_ne_exited (observation : SerialObservation) (kind : String) :
    decision readiness observation ≠ some (.exitedBeforeReadiness kind) := by
  unfold decision
  split_ifs <;> simp

/-- A guest that is not even connected to its log is ready only if every log is one of a ready
    guest. -/
theorem inOrder_readLog {patterns : List Bytes} {file : Option Bytes}
    (h : InOrder patterns (file.getD [])) : InOrder patterns (readLog file) := by
  cases file with
  | some bytes => exact h
  | none =>
    have := h.append_left (encode "<log unavailable>\n")
    simpa [readLog] using this

theorem ExitInv.harness (hmarker : readiness.expectedFailureMarker = "") (late : Bool)
    (h : ExitInv readiness s) :
    ExitInv readiness { s with phase := nextPhase readiness late s } := by
  cases hphase : s.phase with
  | start =>
    have hnext : nextPhase readiness late s = .serialRead (readLog s.serial) := by
      simp [nextPhase, hphase]
    rw [hnext]
    refine ⟨fun _ serial hpending hready => ?_, by simp, by simp⟩
    obtain rfl : readLog s.serial = serial := by simpa [Phase.pending] using hpending
    exact inOrder_readLog hready
  | serialRead serial =>
    set observation := observe readiness serial (readLog s.firmware) with hobservation
    have hnext : nextPhase readiness late s = afterObserve readiness observation := by
      simp [nextPhase, hphase, hobservation]
    rw [hnext]
    unfold afterObserve
    cases hdecision : decision readiness observation with
    | some outcome =>
      refine ⟨fun _ serial hpending => by simp [Phase.pending] at hpending, by simp, ?_⟩
      rintro kind hkind
      obtain rfl : outcome = .exitedBeforeReadiness kind := by simpa using hkind
      exact absurd hdecision (decision_ne_exited observation kind)
    | none =>
      refine ⟨fun hexit serial' hpending hready => ?_, ?_, by simp⟩
      · have : UpToDate readiness s := h.upToDate hexit
        refine this serial' ?_ hready
        simpa [Phase.pending, hphase, hobservation, observe] using hpending
      · rintro observation' hobserved
        obtain rfl : observation = observation' := by simpa using hobserved
        exact ⟨serial, readLog s.firmware, rfl, hdecision⟩
  | undecided observation =>
    cases hexit : s.exitCode with
    | none =>
      have hnext : nextPhase readiness late s = .polled observation := by
        simp [nextPhase, hphase, hexit]
      rw [hnext]
      exact ⟨fun _ serial hpending => by simp [Phase.pending] at hpending, by simp, by simp⟩
    | some code =>
      have hnext : nextPhase readiness late s =
          .finished (.exitedBeforeReadiness (classifyProcessExit readiness observation)) := by
        simp [nextPhase, hphase, hexit]
      rw [hnext]
      refine ⟨fun _ serial hpending => by simp [Phase.pending] at hpending, by simp, ?_⟩
      rintro kind -
      refine ⟨by simp, fun hready => ?_⟩
      -- the log that was read has the markers, and the observation would have decided
      refine (h.observed observation hphase).not_inOrder hmarker ?_
      exact h.upToDate (by simp [hexit]) _ (by simp [hphase, Phase.pending]) hready
  | polled observation =>
    have hnext : nextPhase readiness late s = .sleeping ∨ ∃ kind marker,
        nextPhase readiness late s = .finished (.timedOut kind marker) := by
      cases late <;> simp [nextPhase, hphase]
    rcases hnext with hnext | ⟨kind, marker, hnext⟩ <;>
    · rw [hnext]
      exact ⟨fun _ serial hpending => by simp [Phase.pending] at hpending, by simp, by simp⟩
  | sleeping =>
    have hnext : nextPhase readiness late s = .start := by simp [nextPhase, hphase]
    rw [hnext]
    exact ⟨fun _ serial hpending => by simp [Phase.pending] at hpending, by simp, by simp⟩
  | finished outcome =>
    have hnext : nextPhase readiness late s = s.phase := by simp [nextPhase, hphase]
    rw [hnext]
    exact h

theorem ExitInv.step (hmarker : readiness.expectedFailureMarker = "") (h : ExitInv readiness s)
    (hstep : QuietStep readiness s s') : ExitInv readiness s' := by
  obtain ⟨event, hquiet, hstep⟩ := hstep
  rcases step_cases hstep with ⟨_, _, halive, rfl⟩ | ⟨_, _, _, rfl⟩ | ⟨code, rfl, halive, rfl⟩ |
    ⟨late, _, rfl⟩
  · -- no verdict stands while QEMU runs
    exact ⟨fun hexit => absurd halive hexit, h.observed,
      fun kind hkind => absurd halive (h.verdict kind hkind).1⟩
  · exact ⟨h.upToDate, h.observed, h.verdict⟩
  · exact ⟨fun _ => hquiet, h.observed, fun kind hkind => absurd halive (h.verdict kind hkind).1⟩
  · exact h.harness hmarker late

theorem ExitInv.of_start (hstart : s.phase = .start) : ExitInv readiness s where
  upToDate _ serial hpending := by simp [hstart, Phase.pending] at hpending
  observed := by simp [hstart]
  verdict := by simp [hstart]

theorem ExitInv.of_quiet (hmarker : readiness.expectedFailureMarker = "") (hstart : s.phase = .start)
    (hreach : Relation.ReflTransGen (QuietStep readiness) s s') : ExitInv readiness s' := by
  induction hreach with
  | refl => exact .of_start hstart
  | tail _ hstep ih => exact ih.step hmarker hstep

/-- A poll after an exit reports it. -/
theorem undecided_exit {observation : SerialObservation} (hphase : s.phase = .undecided observation)
    (hexit : s.exitCode ≠ none) (hready : InOrder readiness.markers s.log) :
    ∃ t, Reaches readiness s t ∧ FalseExit readiness t := by
  obtain ⟨code, hexit⟩ := Option.ne_none_iff_exists'.1 hexit
  refine ⟨_, .single ⟨.harness false, rfl⟩,
    ⟨classifyProcessExit readiness observation, ?_⟩, hready⟩
  simp only [nextPhase, hphase, hexit]

/-- After an exit that is not quiet, the harness reports that QEMU exited before readiness. -/
theorem falseExit_of_not_quiet (hmarker : readiness.expectedFailureMarker = "") {code : ℤ}
    (hstep : step readiness s (.exit code) = some s') (hquiet : ¬ Quiet readiness s (.exit code)) :
    ∃ t, Reaches readiness s' t ∧ FalseExit readiness t := by
  have hexit : s' = { s with exitCode := some code } := by
    rcases step_cases hstep with ⟨_, h, _⟩ | ⟨_, h, _⟩ | ⟨_, h, _, rfl⟩ | ⟨_, h, _⟩
    · cases h
    · cases h
    · cases h
      rfl
    · cases h
  subst hexit
  simp only [Quiet, UpToDate, not_forall] at hquiet
  obtain ⟨serial, hpending, hready, hold⟩ := hquiet
  cases hphase : s.phase with
  | serialRead serial' =>
    obtain rfl : serial' = serial := by simpa [hphase, Phase.pending] using hpending
    set observation := observe readiness serial' (readLog s.firmware) with hobservation
    have hdecision : decision readiness observation = none := by
      have hnone : observation.readinessOffset.isSome = false := by
        rw [Bool.eq_false_iff, hobservation, ne_eq, readinessOffset_isSome_iff]
        exact hold
      simp [decision, hmarker, hnone]
    have hundecided : nextPhase readiness false { s with exitCode := some code } =
        .undecided observation := by
      simp only [nextPhase, hphase, ← hobservation, afterObserve, hdecision]
    obtain ⟨t, hreach, hfalse⟩ := @undecided_exit readiness
      { s with exitCode := some code, phase := .undecided observation } observation rfl (by simp) hready
    rw [← hphase]
    refine ⟨t, .head ⟨.harness false, ?_⟩ hreach, hfalse⟩
    rw [step, hundecided]
  | undecided observation =>
    rw [← hphase]
    exact undecided_exit hphase (by simp) hready
  | start => simp [hphase, Phase.pending] at hpending
  | polled _ => simp [hphase, Phase.pending] at hpending
  | sleeping => simp [hphase, Phase.pending] at hpending
  | finished _ => simp [hphase, Phase.pending] at hpending

end

/-- **Exits before readiness.**  In a run whose exits are quiet, the harness reports that QEMU exited
    before readiness only if the log lacks the markers; QEMU has exited by then, and the log does not
    change any more.  After any other exit the harness reports so although the log has them. -/
theorem quiet_exits_reported (readiness : Readiness) (hmarker : readiness.expectedFailureMarker = "")
    (s : State) (hstart : s.phase = .start) :
    (∀ s' kind, Relation.ReflTransGen (QuietStep readiness) s s' →
      s'.phase = .finished (.exitedBeforeReadiness kind) →
        s'.exitCode ≠ none ∧ ¬ InOrder readiness.markers s'.log) ∧
    (∀ s' t code, Reaches readiness s s' → step readiness s' (.exit code) = some t →
      ¬ Quiet readiness s' (.exit code) → ∃ t', Reaches readiness t t' ∧ FalseExit readiness t') := by
  constructor
  · intro s' kind hreach hverdict
    exact (ExitInv.of_quiet hmarker hstart hreach).verdict kind hverdict
  · intro s' t code _ hstep hquiet
    exact falseExit_of_not_quiet hmarker hstep hquiet

/-- A boot that is ready as soon as its guest says so. -/
def plainReadiness : Readiness where
  marker := "ready"
  progressMarkers := []
  expectedFailureMarker := ""
  stopAfterReadiness := false
  firmwareKind := "ovmf"

def launched : State := ⟨none, none, none, .start⟩

/-- The states after the events. -/
def runEvents (readiness : Readiness) (s : State) (events : List Event) : Option State :=
  events.foldlM (step readiness) s

theorem reaches_of_runEvents {readiness : Readiness} : ∀ {events : List Event} {s s' : State},
    runEvents readiness s events = some s' → Reaches readiness s s'
  | [], s, s', h => by
    obtain rfl : s = s' := by simpa [runEvents] using h
    exact .refl
  | event :: events, s, s', h => by
    obtain ⟨middle, hfirst, hrest⟩ := Option.bind_eq_some_iff.1 (by
      simpa [runEvents, List.foldlM_cons] using h)
    exact .head ⟨event, hfirst⟩ (reaches_of_runEvents hrest)

/-- The guest writes before its log is read, and again before QEMU exits. -/
theorem quiet_exits_reported_example :
    plainReadiness.expectedFailureMarker = "" ∧ launched.phase = .start ∧
    ∃ s', Relation.ReflTransGen (QuietStep plainReadiness) launched s' ∧
      s'.phase = .finished (.exitedBeforeReadiness "FIRMWARE_FAILURE") ∧
      s'.log = encode "boot" ++ encode "halt" ∧
      s'.exitCode ≠ none ∧ ¬ InOrder plainReadiness.markers s'.log := by
  have hreach : Relation.ReflTransGen (QuietStep plainReadiness) launched
      ⟨some (encode "boot" ++ encode "halt"), none, some 1,
        .finished (.exitedBeforeReadiness "FIRMWARE_FAILURE")⟩ := by
    refine .head ⟨.writeSerial (encode "boot"), trivial, rfl⟩ (.head ⟨.harness false, trivial, rfl⟩
      (.head ⟨.harness false, trivial, rfl⟩ (.head ⟨.writeSerial (encode "halt"), trivial, rfl⟩
        (.head ⟨.exit 1, ?_, rfl⟩ (.single ⟨.harness false, trivial, ?_⟩)))))
    · intro serial _ hready
      rw [← @readinessOffset_isSome_iff _ _ []] at hready
      exact absurd hready (by decide)
    · decide
  exact ⟨rfl, rfl, _, hreach, rfl, rfl,
    (quiet_exits_reported plainReadiness rfl launched rfl).1 _ _ hreach rfl⟩

/-- The guest becomes ready and QEMU exits after the serial log is read and before the poll. -/
theorem reaches_false_exit : plainReadiness.expectedFailureMarker = "" ∧ launched.phase = .start ∧
    ∃ s', Reaches plainReadiness launched s' ∧ FalseExit plainReadiness s' := by
  have hrun : runEvents plainReadiness launched [.harness false, .harness false,
      .writeSerial (encode "ready"), .exit 0, .harness false] =
      some ⟨some (encode "ready"), none, some 0,
        .finished (.exitedBeforeReadiness "FIRMWARE_FAILURE")⟩ := by decide
  refine ⟨rfl, rfl, _, reaches_of_runEvents hrun, ⟨_, rfl⟩, ?_⟩
  rw [← @readinessOffset_isSome_iff _ _ []]
  decide

end RulesMkosi.BootTest
