/-
  Waiting for the readiness of a booted image (`mkosi/private/boot_test.py`).

  `_await_readiness` reads the serial log again and again and decides on what it has
  read.  A marker that is found stays where it is when the log grows, so every round
  decides as the whole log does or not at all (`decision_stable`), and the verdict does
  not depend on when the log is read (`awaitReadiness_schedule`).  What it waits for is
  found wherever it stands (`orderedProgress_optimal`).
-/
import Mathlib.Order.Bounds.Defs
import RulesMkosi.Lib.Bytes
import RulesMkosi.Lib.Search

namespace RulesMkosi.BootTest

/-- `text.encode()` -/
def encode (text : String) : Bytes := text.toList.flatMap String.utf8EncodeChar

/-- Serial markers that decide when a boot is ready, failed as expected, or timed out. -/
structure Readiness where
  marker : String
  progressMarkers : List String
  expectedFailureMarker : String
  stopAfterReadiness : Bool
  firmwareKind : String

/-- The loop of `_ordered_progress` from a marker on. -/
def orderedProgressFrom (serial : Bytes) : List String → ℕ → ℕ → ℕ × Option ℕ
  | [], _, offset => (offset, none)
  | marker :: markers, index, offset =>
    match find serial (encode marker) offset with
    | none => (offset, some index)
    | some found =>
      orderedProgressFrom serial markers (index + 1) (found + (encode marker).length)

/-- The offset after the last ordered marker and the index of the first one that is missing. -/
def orderedProgress (serial : Bytes) (markers : List String) : ℕ × Option ℕ :=
  orderedProgressFrom serial markers 0 0

structure SerialObservation where
  serial : Bytes
  firmware : Bytes
  missingProgress : Option ℕ
  readinessOffset : Option ℕ
  failureOffset : Option ℕ
  deriving Repr, DecidableEq

/-- `_observe`, of the logs that it has read -/
def observe (readiness : Readiness) (serial firmware : Bytes) : SerialObservation :=
  let progress := orderedProgress serial readiness.progressMarkers
  { serial := serial
    firmware := firmware
    missingProgress := progress.2
    readinessOffset :=
      if progress.2 = none then find serial (encode readiness.marker) progress.1 else none
    failureOffset :=
      if readiness.expectedFailureMarker ≠ "" then
        find serial (encode readiness.expectedFailureMarker) 0
      else none }

/-! ## Failures -/

/-- `part in data` -/
def contains (data : Bytes) (part : String) : Bool := (find data (encode part) 0).isSome

def guestStarted (serial : Bytes) : Bool :=
  contains serial "Linux version" || contains serial "systemd["

def classifyPreReadinessFailure (serial firmware : Bytes) (firmwareKind : String) : String :=
  let combined := serial ++ encode "\n" ++ firmware
  if guestStarted serial then "GUEST_FAILURE"
  else if firmwareKind = "seabios" ∧ (["Boot failed: not a bootable disk", "No bootable device",
      "Could not read from Boot Medium"].any fun marker => contains combined marker) = true then
    "MISSING_BOOT_SECTOR"
  else if firmwareKind = "seabios" ∧ contains combined "GRUB" = true then "GRUB_FAILURE"
  else "FIRMWARE_FAILURE"

/-- `_classify_process_exit` after the initialization of QEMU -/
def classifyProcessExit (readiness : Readiness) (observation : SerialObservation) : String :=
  classifyPreReadinessFailure observation.serial observation.firmware readiness.firmwareKind

/-- The kind of a readiness timeout; the firmware log is read again. -/
def timeoutKind (readiness : Readiness) (observation : SerialObservation) (firmware : Bytes) : String :=
  if readiness.expectedFailureMarker = "" then
    let kind := classifyPreReadinessFailure observation.serial firmware readiness.firmwareKind
    if kind = "FIRMWARE_FAILURE" then "READINESS_TIMEOUT" else kind
  else "READINESS_TIMEOUT"

/-- The marker that a timeout reports. -/
def missingMarker (readiness : Readiness) (observation : SerialObservation) : String :=
  match observation.missingProgress with
  | some index => readiness.progressMarkers.getD index readiness.marker
  | none => readiness.marker

/-- How `_await_readiness` ends. -/
inductive Outcome where
  /-- it returns, and QEMU runs on -/
  | ready
  /-- it returns after readiness, and has stopped QEMU -/
  | readyStopped
  /-- it returns after the expected failure, and has stopped QEMU -/
  | expectedFailure
  /-- "observed readiness before exact expected failure marker %r" -/
  | readinessBeforeFailure
  /-- "QEMU exited before readiness" -/
  | exitedBeforeReadiness (kind : String)
  /-- "did not observe exact serial marker %r" -/
  | timedOut (kind marker : String)
  deriving Repr, DecidableEq

/-- What `_diagnose` reports, as kind and message; `repr` is that of texts. -/
def Outcome.diagnosis (repr : String → String) (readiness : Readiness) :
    Outcome → Option (String × String)
  | ready | readyStopped | expectedFailure => none
  | readinessBeforeFailure => some ("GUEST_FAILURE",
      "observed readiness before exact expected failure marker " ++
        repr readiness.expectedFailureMarker)
  | exitedBeforeReadiness kind => some (kind, "QEMU exited before readiness")
  | timedOut kind marker => some (kind, "did not observe exact serial marker " ++ repr marker)

/-! ## The loop -/

/-- `failure_offset >= 0 and (readiness_offset < 0 or failure_offset < readiness_offset)` -/
def failureFirst (observation : SerialObservation) : Bool :=
  match observation.failureOffset, observation.readinessOffset with
  | none, _ => false
  | some _, none => true
  | some failure, some ready => failure < ready

/-- What an observation decides, before QEMU is polled. -/
def decision (readiness : Readiness) (observation : SerialObservation) : Option Outcome :=
  if readiness.expectedFailureMarker ≠ "" then
    if failureFirst observation then some .expectedFailure
    else if observation.readinessOffset.isSome then some .readinessBeforeFailure
    else none
  else if observation.readinessOffset.isSome then
    some (if readiness.stopAfterReadiness then .readyStopped else .ready)
  else none

/-- What a round of the loop reads: the logs, the exit status of QEMU, and the firmware log again if
    the deadline is reached. -/
structure Round where
  serial : Bytes
  firmware : Bytes
  exitCode : Option ℤ
  late : Option Bytes

/-- One round of `_await_readiness`; `none` where it goes on. -/
def roundOutcome (readiness : Readiness) (round : Round) : Option Outcome :=
  let observation := observe readiness round.serial round.firmware
  match decision readiness observation, round.exitCode, round.late with
  | some outcome, _, _ => some outcome
  | none, some _, _ => some (.exitedBeforeReadiness (classifyProcessExit readiness observation))
  | none, none, some firmware =>
    some (.timedOut (timeoutKind readiness observation firmware) (missingMarker readiness observation))
  | none, none, none => none

/-- `_await_readiness` over its rounds; `none` while it waits. -/
def awaitReadiness (readiness : Readiness) (rounds : List Round) : Option Outcome :=
  rounds.findSome? (roundOutcome readiness)

/-! ## What is observed -/

theorem searchInOrder_progress {serial : Bytes} : ∀ {markers : List String} {index offset : ℕ},
    searchInOrder serial (markers.map encode) offset =
      if (orderedProgressFrom serial markers index offset).2 = none then
        some (orderedProgressFrom serial markers index offset).1 else none
  | [], _, _ => by simp [orderedProgressFrom, searchInOrder]
  | marker :: markers, index, offset => by
    rw [List.map_cons, orderedProgressFrom, searchInOrder]
    cases find serial (encode marker) offset with
    | none => simp
    | some found => exact searchInOrder_progress

section
variable {readiness : Readiness} {serial firmware : Bytes}

/-- The readiness marker is looked for behind the progress markers. -/
theorem readinessOffset_eq : (observe readiness serial firmware).readinessOffset =
    (searchInOrder serial (readiness.progressMarkers.map encode) 0).bind
      (find serial (encode readiness.marker)) := by
  have hprogress : searchInOrder serial (readiness.progressMarkers.map encode) 0 =
      if (orderedProgress serial readiness.progressMarkers).2 = none then
        some (orderedProgress serial readiness.progressMarkers).1 else none := searchInOrder_progress
  rw [hprogress]
  simp only [observe]
  by_cases hmissing : (orderedProgress serial readiness.progressMarkers).2 = none
  · rw [if_pos hmissing, if_pos hmissing, Option.bind_some]
  · rw [if_neg hmissing, if_neg hmissing, Option.bind_none]

/-- The markers that a ready guest writes, in order. -/
def Readiness.markers (readiness : Readiness) : List Bytes :=
  readiness.progressMarkers.map encode ++ [encode readiness.marker]

theorem isSome_searchInOrder_concat {patterns : List Bytes} {pattern : Bytes} {s : Bytes} {start : ℕ} :
    (searchInOrder s (patterns ++ [pattern]) start).isSome =
      ((searchInOrder s patterns start).bind (find s pattern)).isSome := by
  rw [searchInOrder_append]
  cases searchInOrder s patterns start with
  | none => rfl
  | some stop =>
    simp only [Option.bind_some, searchInOrder]
    cases find s pattern stop <;> rfl

/-- Readiness is observed iff the log holds the progress markers in order, and then the readiness
    marker. -/
theorem readinessOffset_isSome_iff : (observe readiness serial firmware).readinessOffset.isSome = true ↔
    InOrder readiness.markers serial := by
  rw [readinessOffset_eq, ← isSome_searchInOrder_concat]
  exact searchInOrder_isSome_iff (Nat.zero_le _)

/-- Where the readiness marker ends, every progress marker has ended. -/
theorem readinessOffset_restrict {log : Bytes} {firmware' : Bytes} (hlog : serial <+: log) {ready : ℕ}
    (h : (observe readiness log firmware').readinessOffset = some ready)
    (hfits : ready + (encode readiness.marker).length ≤ serial.length) :
    (observe readiness serial firmware).readinessOffset = some ready := by
  rw [readinessOffset_eq] at h ⊢
  obtain ⟨stop, hsearch, hfind⟩ := Option.bind_eq_some_iff.1 h
  have hle := (find_eq_some hfind).1
  rw [searchInOrder_restrict hlog hsearch (by omega), Option.bind_some]
  exact find_restrict hlog hfind hfits

theorem readinessOffset_extend {log : Bytes} {firmware' : Bytes} (hlog : serial <+: log) {ready : ℕ}
    (h : (observe readiness serial firmware).readinessOffset = some ready) :
    (observe readiness log firmware').readinessOffset = some ready ∧
      ready + (encode readiness.marker).length ≤ serial.length := by
  rw [readinessOffset_eq] at h ⊢
  obtain ⟨stop, hsearch, hfind⟩ := Option.bind_eq_some_iff.1 h
  rw [searchInOrder_extend hlog hsearch, Option.bind_some]
  exact ⟨find_extend hlog hfind, (find_eq_some hfind).2.1.fits⟩

theorem failureOffset_restrict {log : Bytes} {firmware' : Bytes} (hlog : serial <+: log) {failure : ℕ}
    (h : (observe readiness log firmware').failureOffset = some failure)
    (hfits : failure + (encode readiness.expectedFailureMarker).length ≤ serial.length) :
    (observe readiness serial firmware).failureOffset = some failure := by
  simp only [observe] at h ⊢
  split_ifs at h ⊢ with hmarker
  exact find_restrict hlog h hfits

theorem failureOffset_extend {log : Bytes} {firmware' : Bytes} (hlog : serial <+: log) {failure : ℕ}
    (h : (observe readiness serial firmware).failureOffset = some failure) :
    (observe readiness log firmware').failureOffset = some failure ∧
      failure + (encode readiness.expectedFailureMarker).length ≤ serial.length := by
  simp only [observe] at h ⊢
  split_ifs at h ⊢ with hmarker
  exact ⟨find_extend hlog h, (find_eq_some h).2.1.fits⟩

end

/-! ## Schedules -/

/-- The first occurrence of the expected failure marker and the readiness occurrence do not overlap:
    one ends before the other starts. -/
def Apart (readiness : Readiness) (log : Bytes) : Prop :=
  ∀ failure ready, (observe readiness log []).failureOffset = some failure →
    (observe readiness log []).readinessOffset = some ready →
    failure + (encode readiness.expectedFailureMarker).length ≤ ready ∨
      ready + (encode readiness.marker).length ≤ failure

theorem encode_ne_nil {text : String} (h : text ≠ "") : 0 < (encode text).length := by
  have hne : text.toList ≠ [] := by
    intro hnil
    exact h (String.toList_eq_nil_iff.1 hnil)
  cases hlist : text.toList with
  | nil => exact absurd hlist hne
  | cons c rest =>
    rw [encode, hlist, List.flatMap_cons, List.length_append, String.length_utf8EncodeChar]
    have := c.utf8Size_pos
    omega

/-- **A decision is final.**  On the beginning of a log the harness decides as on the whole log, or
    not at all. -/
theorem decision_stable {readiness : Readiness} {serial log firmware firmware' : Bytes}
    (hlog : serial <+: log) (hapart : Apart readiness log) :
    decision readiness (observe readiness serial firmware) = none ∨
      decision readiness (observe readiness serial firmware) =
        decision readiness (observe readiness log firmware') := by
  have hrestrict := fun ready => @readinessOffset_restrict readiness serial firmware log firmware'
    hlog ready
  have hrestrict' := fun failure => @failureOffset_restrict readiness serial firmware log firmware'
    hlog failure
  have hdisjoint : ∀ failure ready, (observe readiness log firmware').failureOffset = some failure →
      (observe readiness log firmware').readinessOffset = some ready → _ := hapart
  unfold decision failureFirst
  by_cases hmarker : readiness.expectedFailureMarker = ""
  · -- only the readiness marker counts
    rw [if_neg (not_not.2 hmarker), if_neg (not_not.2 hmarker)]
    cases hready : (observe readiness serial firmware).readinessOffset with
    | none => exact .inl rfl
    | some ready =>
      rw [(readinessOffset_extend hlog hready).1]
      exact .inr rfl
  · rw [if_pos hmarker, if_pos hmarker]
    have hpos := encode_ne_nil hmarker
    cases hready : (observe readiness serial firmware).readinessOffset with
    | none =>
      cases hfailure : (observe readiness serial firmware).failureOffset with
      | none => exact .inl rfl
      | some failure =>
        right
        obtain ⟨hfailure', hfits⟩ := @failureOffset_extend _ _ _ _ firmware' hlog _ hfailure
        rw [hfailure']
        cases hready' : (observe readiness log firmware').readinessOffset with
        | none => rfl
        | some ready =>
          -- a readiness marker before the failure marker would have been read with it
          rcases hdisjoint failure ready hfailure' hready' with hbefore | hafter
          · have hfirst : failure < ready := by omega
            simp [hfirst]
          · have := hrestrict ready hready' (by omega)
            rw [hready] at this
            cases this
    | some ready =>
      obtain ⟨hready', hfits⟩ := @readinessOffset_extend _ _ _ _ firmware' hlog _ hready
      rw [hready']
      cases hfailure : (observe readiness serial firmware).failureOffset with
      | none =>
        right
        cases hfailure' : (observe readiness log firmware').failureOffset with
        | none => rfl
        | some failure =>
          rcases hdisjoint failure ready hfailure' hready' with hbefore | hafter
          · have := hrestrict' failure hfailure' (by omega)
            rw [hfailure] at this
            cases this
          · have hnot : ¬ failure < ready := by omega
            simp [hnot]
      | some failure =>
        rw [(@failureOffset_extend _ _ _ _ firmware' hlog _ hfailure).1]
        exact .inr rfl

/-- The serial logs that the rounds of a wait read: each a beginning of the next, and the last one the
    whole log. -/
structure Schedule (log : Bytes) (polls : List Bytes) : Prop where
  grows : polls.Pairwise (· <+: ·)
  whole : polls.getLast? = some log

/-- A round while QEMU runs and the deadline is not reached. -/
def aliveRound (logs : Bytes × Bytes) : Round := ⟨logs.1, logs.2, none, none⟩

theorem roundOutcome_alive (readiness : Readiness) (logs : Bytes × Bytes) :
    roundOutcome readiness (aliveRound logs) =
      decision readiness (observe readiness logs.1 logs.2) := by
  unfold roundOutcome aliveRound
  dsimp only
  cases decision readiness (observe readiness logs.1 logs.2) <;> rfl

theorem Schedule.isPrefix {log : Bytes} {polls : List Bytes} (h : Schedule log polls) :
    ∀ serial ∈ polls, serial <+: log := by
  intro serial hmem
  obtain ⟨before, hbefore⟩ := List.getLast?_eq_some_iff.1 h.whole
  have hgrows := h.grows
  rw [hbefore] at hmem hgrows
  rcases List.mem_append.1 hmem with hmem | hmem
  · exact (List.pairwise_append.1 hgrows).2.2 serial hmem log (List.mem_singleton_self _)
  · rw [List.mem_singleton.1 hmem]

/-- Where the whole log decides nothing, no round does. -/
theorem awaitReadiness_undecided {readiness : Readiness} {log : Bytes} (hapart : Apart readiness log)
    (hnone : decision readiness (observe readiness log []) = none) {polls : List (Bytes × Bytes)}
    (hbeginnings : ∀ logs ∈ polls, logs.1 <+: log) :
    awaitReadiness readiness (polls.map aliveRound) = none := by
  refine List.findSome?_eq_none_iff.2 fun round hround => ?_
  obtain ⟨logs, hlogs, rfl⟩ := List.mem_map.1 hround
  rw [roundOutcome_alive]
  rcases @decision_stable readiness logs.1 log logs.2 [] (hbeginnings logs hlogs) hapart with h | h
  · exact h
  · rw [h, hnone]

/-- The verdict of a schedule is the decision on the whole log. -/
theorem awaitReadiness_eq_decision {readiness : Readiness} {log : Bytes} (hapart : Apart readiness log)
    {polls : List (Bytes × Bytes)} (hbeginnings : ∀ logs ∈ polls, logs.1 <+: log)
    (hmem : log ∈ polls.map Prod.fst) :
    awaitReadiness readiness (polls.map aliveRound) =
      decision readiness (observe readiness log []) := by
  cases hdecision : decision readiness (observe readiness log []) with
  | none => exact awaitReadiness_undecided hapart hdecision hbeginnings
  | some outcome =>
    induction polls with
    | nil => exact absurd hmem List.not_mem_nil
    | cons logs polls ih =>
      obtain ⟨hfirst, hbeginnings⟩ := List.forall_mem_cons.1 hbeginnings
      unfold awaitReadiness
      rw [List.map_cons, List.findSome?_cons, roundOutcome_alive]
      rcases @decision_stable readiness logs.1 log logs.2 [] hfirst hapart with hnone | hsame
      · rw [hnone]
        rcases List.mem_cons.1 hmem with heq | hmem
        · -- the firmware log does not take part in a decision
          have hfirmware : decision readiness (observe readiness log logs.2) =
              decision readiness (observe readiness log []) := rfl
          rw [← heq, hfirmware, hdecision] at hnone
          cases hnone
        · exact ih hbeginnings hmem
      · rw [hsame, hdecision]

/-- **The verdict does not depend on polling.**  Whenever the logs are read, while QEMU runs and the
    deadline is not reached, the harness comes to the same verdict. -/
theorem awaitReadiness_schedule (readiness : Readiness) (log : Bytes)
    (polls polls' : List (Bytes × Bytes)) (h : Schedule log (polls.map Prod.fst))
    (h' : Schedule log (polls'.map Prod.fst)) (hapart : Apart readiness log) :
    awaitReadiness readiness (polls.map aliveRound) =
      awaitReadiness readiness (polls'.map aliveRound) := by
  have hverdict : ∀ {polls : List (Bytes × Bytes)}, Schedule log (polls.map Prod.fst) →
      awaitReadiness readiness (polls.map aliveRound) =
        decision readiness (observe readiness log []) := by
    intro polls h
    refine awaitReadiness_eq_decision hapart (fun logs hlogs => ?_) ?_
    · exact h.isPrefix _ (List.mem_map_of_mem hlogs)
    · exact List.mem_of_getLast? h.whole
  rw [hverdict h, hverdict h']

/-- A boot that is expected to panic. -/
def exampleReadiness : Readiness where
  marker := "ready"
  progressMarkers := []
  expectedFailureMarker := "panic"
  stopAfterReadiness := false
  firmwareKind := "ovmf"

theorem awaitReadiness_schedule_example :
    awaitReadiness exampleReadiness (([("boot pan", ""), ("boot panic ready", "")].map fun logs =>
        (encode logs.1, encode logs.2)).map aliveRound) =
      awaitReadiness exampleReadiness ([(encode "boot panic ready", encode "")].map aliveRound) ∧
    awaitReadiness exampleReadiness ([(encode "boot panic ready", encode "")].map aliveRound) =
      some .expectedFailure := by
  have hfailure : (observe exampleReadiness (encode "boot panic ready") []).failureOffset = some 5 := by
    decide
  have hready : (observe exampleReadiness (encode "boot panic ready") []).readinessOffset = some 11 := by
    decide
  refine ⟨awaitReadiness_schedule exampleReadiness (encode "boot panic ready") _ _ ⟨?_, rfl⟩
    ⟨List.pairwise_singleton _ _, rfl⟩ ?_, by decide⟩
  · decide
  · intro failure ready hfailure' hready'
    cases hfailure.symm.trans hfailure'
    cases hready.symm.trans hready'
    exact .inl (by decide)

/-! ## Progress -/

section
variable {serial : Bytes} {markers : List String}

theorem orderedProgress_eq_none_iff {stop : ℕ} :
    orderedProgress serial markers = (stop, none) ↔
      searchInOrder serial (markers.map encode) 0 = some stop := by
  have hprogress : searchInOrder serial (markers.map encode) 0 =
      if (orderedProgress serial markers).2 = none then some (orderedProgress serial markers).1
      else none := searchInOrder_progress
  rw [hprogress, Prod.ext_iff]
  split_ifs with h
  · simp [h]
  · simp [h]

/-- The markers before the missing one are found, and that one is not. -/
theorem orderedProgressFrom_missing : ∀ {markers : List String} {index offset i : ℕ},
    (orderedProgressFrom serial markers index offset).2 = some i →
      ∃ k, i = index + k ∧ k < markers.length ∧
        (∃ stop, searchInOrder serial ((markers.take k).map encode) offset = some stop) ∧
        searchInOrder serial ((markers.take (k + 1)).map encode) offset = none
  | [], _, _, _, h => by cases h
  | marker :: markers, index, offset, i, h => by
    rw [orderedProgressFrom] at h
    split at h
    · next hfind =>
      cases h
      refine ⟨0, rfl, Nat.zero_lt_succ _, ⟨offset, rfl⟩, ?_⟩
      simp [searchInOrder, hfind]
    · next found hfind =>
      obtain ⟨k, rfl, hk, ⟨stop, hstop⟩, hmissing⟩ := orderedProgressFrom_missing h
      refine ⟨k + 1, by omega, Nat.succ_lt_succ hk, ⟨stop, ?_⟩, ?_⟩
      · rw [List.take_succ_cons, List.map_cons, searchInOrder, hfind]
        exact hstop
      · rw [List.take_succ_cons, List.map_cons, searchInOrder, hfind]
        exact hmissing

/-- With some markers, all beginnings of them are found. -/
theorem searchInOrder_take {n k : ℕ} {stop : ℕ} (hk : k ≤ n)
    (h : searchInOrder serial ((markers.take n).map encode) 0 = some stop) :
    ∃ stop', searchInOrder serial ((markers.take k).map encode) 0 = some stop' := by
  have hsplit : markers.take n = markers.take k ++ (markers.take n).drop k := by
    have happend := List.take_append_drop k (markers.take n)
    rw [List.take_take, Nat.min_eq_left hk] at happend
    exact happend.symm
  rw [hsplit, List.map_append, searchInOrder_append] at h
  obtain ⟨stop', hstop', -⟩ := Option.bind_eq_some_iff.1 h
  exact ⟨stop', hstop'⟩

/-- The missing marker is behind the longest beginning of the markers that is found. -/
theorem orderedProgress_missing {index : ℕ} (h : (orderedProgress serial markers).2 = some index) :
    index < markers.length ∧
      (∃ stop, searchInOrder serial ((markers.take index).map encode) 0 = some stop) ∧
      ∀ n stop, searchInOrder serial ((markers.take n).map encode) 0 = some stop → n ≤ index := by
  obtain ⟨k, rfl, hk, hfound, hmissing⟩ := orderedProgressFrom_missing h
  rw [Nat.zero_add]
  refine ⟨hk, hfound, fun n stop hstop => Nat.le_of_not_lt fun hlt => ?_⟩
  obtain ⟨stop', hstop'⟩ := searchInOrder_take hlt hstop
  rw [hmissing] at hstop'
  cases hstop'

end

/-- **Ordered progress is complete and minimal.**  No marker is missing iff the markers can be placed
    in the log in order, and then no placement ends before the offset.  Otherwise the index is the
    length of the longest beginning of the markers that can be placed.  What is appended to the log
    neither moves the offset nor lowers the index. -/
theorem orderedProgress_optimal (serial : Bytes) (markers : List String) :
    ((orderedProgress serial markers).2 = none ↔
      ∃ offsets, Placed serial (markers.map encode) offsets) ∧
    ((orderedProgress serial markers).2 = none →
      IsLeast {stop | ∃ offsets, Placed serial (markers.map encode) offsets ∧
        lastEnd 0 (markers.map encode) offsets = stop} (orderedProgress serial markers).1) ∧
    (∀ index, (orderedProgress serial markers).2 = some index →
      IsGreatest {n | n ≤ markers.length ∧
        ∃ offsets, Placed serial ((markers.take n).map encode) offsets} index) ∧
    ∀ more, ((orderedProgress serial markers).2 = none →
        orderedProgress (serial ++ more) markers = orderedProgress serial markers) ∧
      ∀ index, (orderedProgress (serial ++ more) markers).2 = some index →
        ∃ index' ≤ index, (orderedProgress serial markers).2 = some index' := by
  have hnone : ∀ {serial : Bytes}, (orderedProgress serial markers).2 = none →
      searchInOrder serial (markers.map encode) 0 = some (orderedProgress serial markers).1 :=
    fun h => orderedProgress_eq_none_iff.1 (Prod.ext rfl h)
  have hextend : ∀ more, (orderedProgress serial markers).2 = none →
      orderedProgress (serial ++ more) markers = orderedProgress serial markers := by
    intro more h
    have hmore := searchInOrder_extend (List.prefix_append serial more) (hnone h)
    rw [orderedProgress_eq_none_iff.2 hmore]
    exact Prod.ext rfl h.symm
  refine ⟨?_, fun h => ⟨?_, ?_⟩, fun index h => ?_, fun more => ⟨hextend more, fun index h => ?_⟩⟩
  · rw [exists_placed_iff]
    constructor
    · exact fun h => ⟨_, hnone h⟩
    · rintro ⟨stop, h⟩
      rw [orderedProgress_eq_none_iff.2 h]
  · obtain ⟨offsets, hplaced, -, hend⟩ := placed_of_searchInOrder (hnone h)
    exact ⟨offsets, hplaced, hend⟩
  · rintro _ ⟨offsets, hplaced, rfl⟩
    obtain ⟨stop, hle, hsearch⟩ := searchInOrder_le hplaced fun o _ => Nat.zero_le o
    rw [hnone h] at hsearch
    cases hsearch
    exact hle
  · obtain ⟨hlt, hfound, hlongest⟩ := orderedProgress_missing h
    refine ⟨⟨hlt.le, exists_placed_iff.2 hfound⟩, ?_⟩
    rintro n ⟨-, hplaced⟩
    obtain ⟨stop, hstop⟩ := exists_placed_iff.1 hplaced
    exact hlongest n stop hstop
  · cases hserial : (orderedProgress serial markers).2 with
    | none =>
      rw [hextend more hserial, hserial] at h
      cases h
    | some index' =>
      obtain ⟨-, ⟨stop, hfound⟩, -⟩ := orderedProgress_missing hserial
      obtain ⟨-, -, hlongest⟩ := orderedProgress_missing h
      have hmore := searchInOrder_extend (List.prefix_append serial more) hfound
      exact ⟨index', hlongest index' stop hmore, rfl⟩

/-- A marker that overlaps itself is found twice only where it stands twice. -/
theorem orderedProgress_optimal_example :
    (orderedProgress (encode "xabaaba") ["aba", "a"]).2 = none ∧
    IsLeast {stop | ∃ offsets, Placed (encode "xabaaba") (["aba", "a"].map encode) offsets ∧
      lastEnd 0 (["aba", "a"].map encode) offsets = stop} 5 ∧
    (orderedProgress (encode "xababa") ["aba", "aba"]).2 = some 1 ∧
    ¬ ∃ offsets, Placed (encode "xababa") (["aba", "aba"].map encode) offsets := by
  have hfound : orderedProgress (encode "xabaaba") ["aba", "a"] = (5, none) := by decide
  have hmissing : orderedProgress (encode "xababa") ["aba", "aba"] = (4, some 1) := by
    decide
  have hleast := (orderedProgress_optimal (encode "xabaaba") ["aba", "a"]).2.1 (by rw [hfound])
  rw [hfound] at hleast
  refine ⟨by rw [hfound], hleast, by rw [hmissing], ?_⟩
  rw [← (orderedProgress_optimal (encode "xababa") ["aba", "aba"]).1, hmissing]
  simp

end RulesMkosi.BootTest
