/-
  The namespace setup of the kernel preflight (`mkosi/private/kernel_preflight.c`).

  The preflight forks a child that goes through the setup of mkosi's sandbox, step by step,
  maps the identity of the child when that asks for it, receives the checks that the child
  has passed and reports them.  In every order of the two processes and with any failure: a
  check is reported as passed only when every step up to its own went well, in order, the
  maps of the parent among them (`reported_passed`); the preflight succeeds only when all
  steps did (`preflight_succeeded`); and neither process is left waiting
  (`preflight_completes`).

  The steps are those of the child's table; the calls behind the capability steps, the
  clean-up of the mount fixture and the checks before the fork are not modelled.
-/
import RulesMkosi.Lib.ProcessPair

namespace RulesMkosi.KernelPreflight

open ProcessPair

/-! ## Messages and calls -/

/-- `rules_mkosi_fd_mount_operation` -/
inductive FdMountOperation where
  | none
  | setup
  | openTreeDirectory
  | fstatDirectory
  | mountSetattr
  | moveMountDirectory
  | openTreeFile
  | fstatFile
  | moveMountFile
  deriving Repr, DecidableEq

/-- `fd_mount_probe_result` -/
structure FdMountProbeResult where
  operation : FdMountOperation
  error : ℤ
  deriving Repr, DecidableEq

/-- `namespace_setup_result` -/
structure NamespaceSetupResult where
  checks : ℕ
  fdMount : FdMountProbeResult
  deriving Repr, DecidableEq

/-- A result of zeros. -/
def NamespaceSetupResult.zero : NamespaceSetupResult := ⟨0, ⟨.none, 0⟩⟩

/-- `READY_PIPE`, `ACKNOWLEDGEMENT_PIPE` and `RESULT_PIPE` -/
inductive Pipe where
  | ready
  | acknowledgement
  | result
  deriving Repr, DecidableEq

inductive Message where
  | byte (value : Char)
  | result (value : NamespaceSetupResult)
  deriving Repr, DecidableEq

inductive SystemCall where
  | unshareUser
  | unshareMount
  | setresgid
  | setresuid
  /-- `geteuid` and `getegid`, negative unless both are zero -/
  | rootIds
  /-- `configure_namespace_capabilities` -/
  | configureCapabilities
  /-- `check_capability_exec` -/
  | capabilityExec
  | mkdir (path : String)
  | mount (source target : String)
  | chdir (path : String)
  | pivotRoot (newRoot putOld : String)
  | umount (path : String)
  /-- `create_fd_mount_fixture` -/
  | fdMountFixture
  | openTree (directory : Bool)
  /-- `fstat` of the tree, negative as well (`-EAGAIN`) for another object than expected -/
  | fstat (directory : Bool)
  | mountSetattr
  | moveMount (directory : Bool)
  /-- `rules_mkosi_write_file` -/
  | writeFile (path contents : String)
  | report (status name detail : String)
  deriving Repr, DecidableEq

abbrev Call := Op SystemCall Pipe Message

abbrev Setup := Process SystemCall Pipe Message

/-! ## The child -/

def checkUserNamespace : ℕ := 1 <<< 0
def checkIdMapping : ℕ := 1 <<< 1
def checkRootTransition : ℕ := 1 <<< 2
def checkNamespaceCapabilities : ℕ := 1 <<< 3
def checkCapabilityExec : ℕ := 1 <<< 4
def checkMountNamespace : ℕ := 1 <<< 5
def checkTmpfsWorkspace : ℕ := 1 <<< 6
def checkPivotRootWorkspace : ℕ := 1 <<< 7
def checkBindMount : ℕ := 1 <<< 8
def checkFdMountApi : ℕ := 1 <<< 9
def checkPivotRoot : ℕ := 1 <<< 10
def checkOldRootDetach : ℕ := 1 <<< 11
def checkAll : ℕ := (1 <<< 12) - 1

/-- `child_setup_step`: its calls, and what it passes -/
structure ChildSetupStep where
  run : List Call
  passedChecks : ℕ

/-- `probe_fd_mount_step`, with `attach_validated_tree` -/
def probeFdMountStep (directory readonly : Bool) : List Call :=
  [.call (.openTree directory), .call (.fstat directory)] ++
    (if readonly then [.call .mountSetattr] else []) ++ [.call (.moveMount directory)]

/-- `child_setup_steps` -/
def childSetupSteps : List ChildSetupStep :=
  [⟨[.call .unshareUser], checkUserNamespace⟩,
    ⟨[.send .ready (.byte 'R'), .expect .acknowledgement (.byte 'A')], checkIdMapping⟩,
    ⟨[.call .setresgid, .call .setresuid, .call .rootIds], checkRootTransition⟩,
    ⟨[.call .configureCapabilities], checkNamespaceCapabilities⟩,
    ⟨[.call .capabilityExec], checkCapabilityExec⟩,
    ⟨[.call .unshareMount], checkMountNamespace⟩,
    ⟨[.call (.mount "tmpfs" "/tmp")], 0⟩,
    ⟨.call .fdMountFixture :: (probeFdMountStep true true ++ probeFdMountStep false false),
      checkFdMountApi⟩,
    ⟨[.call (.chdir "/tmp"), .call (.mkdir "newroot"), .call (.mkdir "oldroot"),
      .call (.mount "newroot" "newroot"), .call (.pivotRoot "." "oldroot")],
      checkTmpfsWorkspace ||| checkPivotRootWorkspace⟩,
    ⟨[.call (.mkdir "newroot/etc"), .call (.mount "/oldroot/etc" "newroot/etc")], checkBindMount⟩,
    ⟨[.call (.chdir "newroot"), .call (.pivotRoot "." ".")], checkPivotRoot⟩,
    ⟨[.call (.umount ".")], checkOldRootDetach⟩]

/-- `record_fd_mount_failure`; `EIO` is 5 -/
def recordFdMountFailure (operation : FdMountOperation) (error : ℤ) : FdMountProbeResult :=
  ⟨operation, if 0 < error then error else 5⟩

/-- The probe result behind a call that has failed. -/
def probeResult : Event SystemCall Pipe Message → FdMountProbeResult
  | .call .fdMountFixture result => recordFdMountFailure .setup (-result)
  | .call (.openTree true) result => recordFdMountFailure .openTreeDirectory (-result)
  | .call (.openTree false) result => recordFdMountFailure .openTreeFile (-result)
  | .call (.fstat true) result => recordFdMountFailure .fstatDirectory (-result)
  | .call (.fstat false) result => recordFdMountFailure .fstatFile (-result)
  | .call .mountSetattr result => recordFdMountFailure .mountSetattr (-result)
  | .call (.moveMount true) result => recordFdMountFailure .moveMountDirectory (-result)
  | .call (.moveMount false) result => recordFdMountFailure .moveMountFile (-result)
  | _ => ⟨.none, 0⟩

/-- The end of `run_setup_child_and_exit`. -/
def sendResult (result : NamespaceSetupResult) : Setup :=
  .write .result (.result result) fun _ => .exit (if result.checks = checkAll then 0 else 1)

/-- The loop of `child_namespace_setup`, and what follows it. -/
def childNamespaceSetup : List ChildSetupStep → ℕ → Setup
  | [], checks => sendResult ⟨checks, ⟨.none, 0⟩⟩
  | step :: steps, checks =>
    line (fun e => sendResult ⟨checks, probeResult e⟩)
      (childNamespaceSetup steps (checks ||| step.passedChecks)) step.run

/-- The child of `actual_namespace_setup`. -/
def runSetupChild : Setup :=
  .close .ready .reader <| .close .acknowledgement .writer <| .close .result .reader <|
    childNamespaceSetup childSetupSteps 0

/-! ## The parent -/

def writeMapping (child : ℕ) (name : String) (value : ℕ) : Call :=
  .call (.writeFile ("/proc/" ++ toString child ++ "/" ++ name ++ "_map") ("0 " ++ toString value ++ " 1\n"))

def denySetgroups (child : ℕ) : Call :=
  .call (.writeFile ("/proc/" ++ toString child ++ "/setgroups") "deny\n")

/-- The maps, as the parent writes them. -/
def maps (child uid gid : ℕ) : List Call :=
  [denySetgroups child, writeMapping child "gid" gid, writeMapping child "uid" uid]

/-- Sends a byte, whatever comes of it. -/
def acknowledge (signal : Char) (k : Setup) : Setup := .write .acknowledgement (.byte signal) fun _ => k

/-- `map_setup_child_identity` -/
def mapSetupChildIdentity (child uid gid : ℕ) (k : Setup) : Setup :=
  .read .ready fun signal =>
    if signal = some (.byte 'R') then
      line (fun _ => acknowledge 'F' k) (acknowledge 'A' k) (maps child uid gid)
    else k

/-- The result in a message, zeros for any other. -/
def setupResult : Option Message → NamespaceSetupResult
  | some (.result value) => value
  | _ => .zero

/-- `receive_setup_result` -/
def receiveSetupResult (k : NamespaceSetupResult → Setup) : Setup :=
  .read .result fun message => .close .result .reader <| k (setupResult message)

/-- `rules_mkosi_namespace_checks` -/
structure NamespaceChecks where
  userNamespace : Bool
  idMapping : Bool
  rootTransition : Bool
  namespaceCapabilities : Bool
  capabilityExec : Bool
  mountNamespace : Bool
  tmpfsWorkspace : Bool
  pivotRootWorkspace : Bool
  bindMount : Bool
  fdMountApi : Bool
  fdMountOperation : FdMountOperation
  fdMountErrno : ℤ
  pivotRoot : Bool
  oldRootDetach : Bool
  deriving Repr, DecidableEq

def hasCheck (result : NamespaceSetupResult) (check : ℕ) : Bool := result.checks &&& check ≠ 0

def copyNamespaceChecks (result : NamespaceSetupResult) : NamespaceChecks where
  userNamespace := hasCheck result checkUserNamespace
  idMapping := hasCheck result checkIdMapping
  rootTransition := hasCheck result checkRootTransition
  namespaceCapabilities := hasCheck result checkNamespaceCapabilities
  capabilityExec := hasCheck result checkCapabilityExec
  mountNamespace := hasCheck result checkMountNamespace
  tmpfsWorkspace := hasCheck result checkTmpfsWorkspace
  pivotRootWorkspace := hasCheck result checkPivotRootWorkspace
  bindMount := hasCheck result checkBindMount
  fdMountApi := hasCheck result checkFdMountApi
  fdMountOperation := result.fdMount.operation
  fdMountErrno := result.fdMount.error
  pivotRoot := hasCheck result checkPivotRoot
  oldRootDetach := hasCheck result checkOldRootDetach

def fdMountOperationName : FdMountOperation → String
  | .setup => "fixture/setup"
  | .openTreeDirectory => "open_tree(directory)"
  | .fstatDirectory => "fstat(directory)"
  | .mountSetattr => "mount_setattr(detached_fd)"
  | .moveMountDirectory => "move_mount(directory)"
  | .openTreeFile => "open_tree(file)"
  | .fstatFile => "fstat(file)"
  | .moveMountFile => "move_mount(file)"
  | .none => "unknown"

section
variable (strerror : ℤ → String)

/-- The detail of `report_fd_mount_failure`; `EPERM` is 1, `EACCES` 13, `EINVAL` 22, `ENOSYS` 38. -/
def reportFdMountFailure (checks : NamespaceChecks) : String :=
  let operation := fdMountOperationName checks.fdMountOperation
  let error := checks.fdMountErrno
  let failed := operation ++ " failed with errno " ++ toString error ++ " (" ++ strerror error ++ ")"
  if checks.fdMountOperation = .none ∨ error ≤ 0 then
    "unexpected probe/setup failure did not preserve an operation and errno from the detached-fd sequence"
  else if checks.fdMountOperation = .setup then "fixture/setup error: " ++ failed
  else if error = 38 ∨ error = 22 then
    "kernel compatibility: " ++ failed ++ "; required API or flags are unavailable; upgrade the " ++
      "kernel or select a supported Linux runner"
  else if error = 1 ∨ error = 13 then
    "seccomp/LSM/policy restriction: " ++ failed ++ "; permit the detached-fd mount API in the " ++
      "action environment"
  else "unexpected fd-mount probe error: " ++ failed

/-- `namespace_check_report` -/
structure NamespaceCheckReport where
  passed : NamespaceChecks → Bool
  name : String
  passDetail : String
  failDetail : Option String

/-- `namespace_check_reports` -/
def namespaceCheckReports : List NamespaceCheckReport :=
  [⟨(·.userNamespace), "user_namespace", "CLONE_NEWUSER succeeded for an unprivileged child",
      some "CLONE_NEWUSER failed; enable unprivileged user namespaces"⟩,
    ⟨(·.idMapping), "id_mapping", "setgroups=deny, uid_map, and gid_map completed",
      some ("setgroups=deny and UID/GID maps failed; allow the parent to write " ++
        "/proc/<pid>/\x7bsetgroups,uid_map,gid_map\x7d")⟩,
    ⟨(·.rootTransition), "root_transition",
      "mapped identity became uid=0,gid=0 inside the user namespace",
      some "could not transition to mapped root inside the user namespace"⟩,
    ⟨(·.namespaceCapabilities), "namespace_capabilities",
      "mkosi v27 capability bounding, permitted, inheritable, and ambient sets were established",
      some ("could not establish mkosi v27 capability bounding, permitted, inheritable, and " ++
        "ambient sets")⟩,
    ⟨(·.capabilityExec), "capability_exec", "required capabilities survived an execve transition",
      some "required capabilities were lost across execve"⟩,
    ⟨(·.mountNamespace), "mount_namespace",
      "CLONE_NEWNS succeeded after the user namespace transition",
      some "CLONE_NEWNS failed after the user namespace transition"⟩,
    ⟨(·.tmpfsWorkspace), "tmpfs_workspace", "mkosi v27 mounted a tmpfs workspace and entered it",
      some "tmpfs workspace setup failed; permit tmpfs mounts in the namespace"⟩,
    ⟨(·.pivotRootWorkspace), "pivot_root_workspace",
      "mkosi v27 pivot_root entered the temporary workspace",
      some "the temporary workspace could not become the namespace root"⟩,
    ⟨(·.bindMount), "bind_mount",
      "a representative recursive bind from old root into new root succeeded",
      some "a representative recursive bind from old root into new root failed"⟩,
    ⟨(·.fdMountApi), "fd_mount_api",
      "open_tree(parent_fd, name, OPEN_TREE_CLONE), fstat validation, detached-fd recursive " ++
        "mount_setattr(AT_EMPTY_PATH), and move_mount(MOVE_MOUNT_F_EMPTY_PATH) succeeded", none⟩,
    ⟨(·.pivotRoot), "pivot_root", "final pivot_root(\".\", \".\") succeeded",
      some "final pivot_root(\".\", \".\") failed; a private root is required"⟩,
    ⟨(·.oldRootDetach), "old_root_detach", "final old-root mount was detached with MNT_DETACH",
      some "final old-root mount could not be detached"⟩]

/-- The loop of `report_namespace_checks`, with the failures so far. -/
def reportNamespaceChecks (checks : NamespaceChecks) (k : ℕ → Setup) :
    List NamespaceCheckReport → ℕ → Setup
  | [], failures => k failures
  | check :: reports, failures =>
    if check.passed checks then
      .call (.report "PASS" check.name check.passDetail) fun _ =>
        reportNamespaceChecks checks k reports failures
    else
      .call (.report "FAIL" check.name (check.failDetail.getD (reportFdMountFailure strerror checks)))
        fun _ => reportNamespaceChecks checks k reports (failures + 1)

/-- The end of `rules_mkosi_kernel_preflight_with_ops`. -/
def reportResult (failures : ℕ) : Setup :=
  if failures = 0 then
    .call (.report "RESULT" "kernel_contract" "PASS (all checks passed)") fun _ => .exit 0
  else
    .call (.report "RESULT" "kernel_contract" ("FAIL (" ++ toString failures ++ " check" ++
      (if failures = 1 then "" else "s") ++ " failed)")) fun _ => .exit 1

/-- `actual_namespace_setup` behind the map, with what follows it. -/
def finishSetup (failures : ℕ) : Setup :=
  .close .ready .reader <| .close .acknowledgement .writer <| receiveSetupResult fun result =>
    .wait fun _ => reportNamespaceChecks strerror (copyNamespaceChecks result) reportResult
      namespaceCheckReports failures

/-- The parent of `actual_namespace_setup`, after `failures` earlier checks have failed. -/
def actualNamespaceSetup (child uid gid failures : ℕ) : Setup :=
  .close .ready .writer <| .close .acknowledgement .reader <| .close .result .writer <|
    mapSetupChildIdentity child uid gid (finishSetup strerror failures)

/-- Both processes after the fork. -/
def start (child uid gid failures : ℕ) : ProcessPair SystemCall Pipe Message :=
  forked (actualNamespaceSetup strerror child uid gid failures) runSetupChild

end

/-- The setup in order: the calls of a step and, when it asks for the maps, those of the parent. -/
def setupOrder (child uid gid : ℕ) (steps : List ChildSetupStep) : List (Party × Call) :=
  steps.flatMap fun step =>
    if step.passedChecks = checkIdMapping then
      [(.child, .send .ready (.byte 'R')), (.parent, .expect .ready (.byte 'R'))] ++
        (maps child uid gid).map (Prod.mk .parent) ++
        [(.parent, .send .acknowledgement (.byte 'A')), (.child, .expect .acknowledgement (.byte 'A'))]
    else step.run.map (Prod.mk .child)

variable {strerror : ℤ → String} {child uid gid failures : ℕ}
  {s : ProcessPair SystemCall Pipe Message}

/-! ## The runs of the child -/

/-- The steps write and read nothing but the bytes for the maps. -/
theorem steps_send {step : ChildSetupStep} (hstep : step ∈ childSetupSteps) {pipe : Pipe}
    {message : Message} (hop : .send pipe message ∈ step.run) : pipe = .ready := by
  simp only [childSetupSteps, List.mem_cons, List.not_mem_nil, or_false] at hstep
  rcases hstep with rfl | rfl | rfl | rfl | rfl | rfl | rfl | rfl | rfl | rfl | rfl | rfl <;>
    simp_all [probeFdMountStep]

theorem steps_expect {step : ChildSetupStep} (hstep : step ∈ childSetupSteps.drop 2) {pipe : Pipe}
    {message : Message} : .expect pipe message ∉ step.run := by
  simp only [childSetupSteps, List.drop_succ_cons, List.drop_zero, List.mem_cons, List.not_mem_nil,
    or_false] at hstep
  rcases hstep with rfl | rfl | rfl | rfl | rfl | rfl | rfl | rfl | rfl | rfl <;>
    simp [probeFdMountStep]

theorem steps_result : ∀ step ∈ childSetupSteps, ∀ op ∈ step.run, ∀ e : Event SystemCall Pipe Message,
    op.Concerns e → ¬ e.WritesTo .result := by
  rintro step hstep op hop e hconcerns ⟨message, ok, rfl⟩
  rw [Op.concerns_write] at hconcerns
  cases steps_send hstep (hconcerns ▸ hop)

/-- **What the child reports.**  The checks of its result are those of the steps that went well. -/
theorem childNamespaceSetup_written {result : NamespaceSetupResult} {ok : Bool}
    {q : Setup} {fs : List (Event SystemCall Pipe Message)} :
    ∀ {steps : List ChildSetupStep} {checks : ℕ} {es : List (Event SystemCall Pipe Message)},
      (∀ step ∈ steps, ∀ op ∈ step.run, ∀ e, op.Concerns e → ¬ e.WritesTo .result) →
      (childNamespaceSetup steps checks).run (es ++ .write .result (.result result) ok :: fs) = some q →
      ∃ done todo good es', steps = done ++ todo ∧
        result.checks = done.foldl (fun checks step => checks ||| step.passedChecks) checks ∧
        es = good ++ es' ∧ List.Forall₂ Op.Succeeds (done.flatMap ChildSetupStep.run) good := by
  have hsent : ∀ {sent : NamespaceSetupResult} {es : List (Event SystemCall Pipe Message)},
      (sendResult sent).run (es ++ .write .result (.result result) ok :: fs) = some q →
      es = [] ∧ result = sent := by
    rintro sent (_ | ⟨e, es⟩) hrun
    · obtain ⟨r, hr, -⟩ := Process.run_cons.1 hrun
      rcases Process.after_write_iff.1 hr with ⟨ok', he, -⟩ | ⟨signal, he, -⟩
      · cases he
        exact ⟨rfl, rfl⟩
      · cases he
    · obtain ⟨r, hr, hrest⟩ := Process.run_cons.1 hrun
      rcases Process.after_write_iff.1 hr with ⟨ok', -, rfl⟩ | ⟨signal, -, rfl⟩ <;>
        exact absurd (Process.run_exit hrest).1 (by simp)
  intro steps
  induction steps with
  | nil =>
    intro checks es _ hrun
    obtain ⟨rfl, rfl⟩ := hsent hrun
    exact ⟨[], [], [], [], rfl, rfl, rfl, .nil⟩
  | cons step steps ih =>
    intro checks es hsteps hrun
    obtain ⟨hstep, hsteps⟩ := List.forall_mem_cons.1 hsteps
    have hwrites : Event.WritesTo Pipe.result
        (.write .result (.result result) ok : Event SystemCall Pipe Message) := ⟨_, _, rfl⟩
    have hnot : ∀ {ops good}, (∀ op ∈ ops, op ∈ step.run) → List.Forall₂ Op.Succeeds ops good →
        .write .result (.result result) ok ∉ good := by
      intro ops good hops hgood he
      obtain ⟨op, hop, hsucceeds⟩ := exists_succeeds hgood he
      exact hstep op (hops op hop) _ hsucceeds.concerns hwrites
    rcases line_run hrun with ⟨done, todo, hops, hdone, -⟩ | ⟨good, es', hes, hgood, hrest⟩ |
      ⟨done, op, todo, good, e, es', hops, hes, hdone, he, hrest⟩ |
      ⟨done, todo, good, signal, hops, hes, hdone, -⟩
    · exact absurd (by simp) (hnot (fun op hop => by rw [hops]; exact List.mem_append_left _ hop) hdone)
    · obtain ⟨es₁, rfl, rfl⟩ := append_cons_eq_append hes (hnot (fun _ => id) hgood)
      obtain ⟨done, todo, good', es₂, rfl, hchecks, rfl, hgood'⟩ := ih hsteps hrest
      exact ⟨step :: done, todo, good ++ good', es₂, rfl, hchecks, by rw [List.append_assoc],
        List.rel_append hgood hgood'⟩
    · have he' : .write .result (.result result) ok ∉ good ++ [e] := by
        intro hmem
        rcases List.mem_append.1 hmem with hmem | hmem
        · exact hnot (fun op hop => by rw [hops]; exact List.mem_append_left _ hop) hdone hmem
        · rw [List.mem_singleton] at hmem
          exact hstep op (by simp [hops]) _ he (hmem ▸ hwrites)
      have hes' : es ++ .write .result (.result result) ok :: fs = (good ++ [e]) ++ es' := by
        rw [hes, List.append_assoc, List.singleton_append]
      obtain ⟨es₁, rfl, rfl⟩ := append_cons_eq_append hes' he'
      obtain ⟨rfl, rfl⟩ := hsent hrest
      exact ⟨[], step :: steps, [], _, rfl, rfl, rfl, .nil⟩
    · exfalso
      have hmem : .write .result (.result result) ok ∈ good ++ [.killed signal] := by
        rw [← hes]
        simp
      rcases List.mem_append.1 hmem with hmem | hmem
      · exact hnot (fun op hop => by rw [hops]; exact List.mem_append_left _ hop) hdone hmem
      · simp at hmem

/-- The ends that the child closes. -/
def childCloses : List Call :=
  [.close .ready .reader, .close .acknowledgement .writer, .close .result .reader]

/-- Of the calls of a child, at the point where it writes its result. -/
theorem runSetupChild_written {result : NamespaceSetupResult} {ok : Bool} {q : Setup}
    {es fs : List (Event SystemCall Pipe Message)}
    (hrun : runSetupChild.run (es ++ .write .result (.result result) ok :: fs) = some q) :
    ∃ done todo closes good es', childSetupSteps = done ++ todo ∧
      result.checks = done.foldl (fun checks step => checks ||| step.passedChecks) 0 ∧
      es = closes ++ good ++ es' ∧ List.Forall₂ Op.Succeeds childCloses closes ∧
      List.Forall₂ Op.Succeeds (done.flatMap ChildSetupStep.run) good := by
  have hline : runSetupChild =
      line (fun _ => .exit 1) (childNamespaceSetup childSetupSteps 0) childCloses := rfl
  rw [hline] at hrun
  obtain ⟨closes, es', rfl, hcloses, hrest⟩ := line_before_event
    (fun _ => Process.avoids_exit 1 (Event.WritesTo Pipe.result)) (by simp [Event.WritesTo])
    (by
      rintro op hop e hconcerns ⟨message, ok, rfl⟩
      rw [Op.concerns_write] at hconcerns
      simp [hconcerns, childCloses] at hop)
    ⟨_, _, rfl⟩ hrun
  obtain ⟨done, todo, good, es'', hsteps, hchecks, rfl, hgood⟩ :=
    childNamespaceSetup_written steps_result hrest
  exact ⟨done, todo, closes, good, es'', hsteps, hchecks, (List.append_assoc ..).symm, hcloses, hgood⟩

section
variable {bad : Event SystemCall Pipe Message → Prop} (hkilled : ∀ signal, ¬ bad (.killed signal))
include hkilled

theorem childNamespaceSetup_avoids (hresult : ∀ message ok, ¬ bad (.write .result message ok)) :
    ∀ {steps : List ChildSetupStep} {checks : ℕ},
      (∀ step ∈ steps, ∀ op ∈ step.run, ∀ e, op.Concerns e → ¬ bad e) →
      (childNamespaceSetup steps checks).Avoids bad
  | [], _, _ => Process.avoids_write hkilled (hresult _) fun _ => Process.avoids_exit _ _
  | _ :: _, _, hsteps =>
    line_avoids (fun _ => Process.avoids_write hkilled (hresult _) fun _ => Process.avoids_exit _ _)
      (childNamespaceSetup_avoids hresult (List.forall_mem_cons.1 hsteps).2) hkilled
      (List.forall_mem_cons.1 hsteps).1

theorem runSetupChild_avoids (hresult : ∀ message ok, ¬ bad (.write .result message ok))
    (hclose : ∀ pipe pipeEnd, ¬ bad (.close pipe pipeEnd))
    (hsteps : ∀ step ∈ childSetupSteps, ∀ op ∈ step.run, ∀ e, op.Concerns e → ¬ bad e) :
    runSetupChild.Avoids bad :=
  Process.avoids_close hkilled (hclose _ _) <| Process.avoids_close hkilled (hclose _ _) <|
    Process.avoids_close hkilled (hclose _ _) <| childNamespaceSetup_avoids hkilled hresult hsteps

end

/-- **The child at its read.**  It reads nothing but the acknowledgement, after it has its user
    namespace and has asked for the maps. -/
theorem runSetupChild_read {pipe : Pipe} {message : Option Message} {q : Setup}
    {es fs : List (Event SystemCall Pipe Message)}
    (hrun : runSetupChild.run (es ++ .read pipe message :: fs) = some q) :
    pipe = .acknowledgement ∧ ∃ closes result, List.Forall₂ Op.Succeeds childCloses closes ∧
      0 ≤ result ∧ es = closes ++ [.call .unshareUser result, .write .ready (.byte 'R') true] := by
  have hkilled : ∀ signal, ¬ Event.ReadsFrom pipe
      (.killed signal : Event SystemCall Pipe Message) := by simp [Event.ReadsFrom]
  have hsend : ∀ result, (sendResult result).Avoids (Event.ReadsFrom pipe) := fun result =>
    Process.avoids_write hkilled (by simp [Event.ReadsFrom]) fun _ => Process.avoids_exit _ _
  have hread : Event.ReadsFrom pipe (.read pipe message : Event SystemCall Pipe Message) := ⟨_, rfl⟩
  have hline : runSetupChild =
      line (fun _ => .exit 1) (childNamespaceSetup childSetupSteps 0) childCloses := rfl
  rw [hline] at hrun
  obtain ⟨closes, es', rfl, hcloses, hrun₁⟩ := line_before_event
    (fun _ => Process.avoids_exit 1 (Event.ReadsFrom pipe)) hkilled
    (by
      rintro op hop e hconcerns ⟨message, rfl⟩
      rw [Op.concerns_read] at hconcerns
      obtain ⟨expected, rfl⟩ := hconcerns
      simp [childCloses] at hop)
    hread hrun
  clear hrun
  have hfirst : childNamespaceSetup childSetupSteps 0 =
      line (fun e => sendResult ⟨0, probeResult e⟩)
        (childNamespaceSetup (childSetupSteps.drop 1) (0 ||| checkUserNamespace)) [.call .unshareUser] :=
    rfl
  rw [hfirst] at hrun₁
  obtain ⟨good, es'', rfl, hgood, hrun₂⟩ := line_before_event (fun _ => hsend _) hkilled
    (by
      rintro op hop e hconcerns ⟨message, rfl⟩
      rw [Op.concerns_read] at hconcerns
      obtain ⟨expected, rfl⟩ := hconcerns
      simp at hop)
    hread hrun₁
  clear hrun₁
  simp only [List.forall₂_cons_left_iff, List.forall₂_nil_left_iff, Op.succeeds_call] at hgood
  obtain ⟨_, _, ⟨result, hresult, rfl⟩, rfl, rfl⟩ := hgood
  have hsecond : childNamespaceSetup (childSetupSteps.drop 1) (0 ||| checkUserNamespace) =
      line (fun e => sendResult ⟨0 ||| checkUserNamespace, probeResult e⟩)
        (childNamespaceSetup (childSetupSteps.drop 2) (0 ||| checkUserNamespace ||| checkIdMapping))
        [.send .ready (.byte 'R'), .expect .acknowledgement (.byte 'A')] := rfl
  have hlater : ∀ checks, (childNamespaceSetup (childSetupSteps.drop 2) checks).Avoids
      (Event.ReadsFrom pipe) := by
    refine fun checks => childNamespaceSetup_avoids hkilled (by simp [Event.ReadsFrom]) ?_
    rintro step hstep op hop e hconcerns ⟨message, rfl⟩
    rw [Op.concerns_read] at hconcerns
    obtain ⟨expected, rfl⟩ := hconcerns
    exact steps_expect hstep hop
  rw [hsecond] at hrun₂
  rcases es'' with _ | ⟨e₁, es₁⟩
  · obtain ⟨r, hr, -⟩ := Process.run_cons.1 hrun₂
    rcases Process.after_write_iff.1 hr with ⟨_, he, -⟩ | ⟨_, he, -⟩ <;> cases he
  obtain ⟨r, hr, hrest⟩ := Process.run_cons.1 hrun₂
  rcases line_after hr with ⟨he, rfl⟩ | ⟨-, rfl⟩ | ⟨signal, rfl, rfl⟩
  · rw [Op.succeeds_send] at he
    subst he
    rcases es₁ with _ | ⟨e₂, es₂⟩
    · obtain ⟨r, hr, -⟩ := Process.run_cons.1 hrest
      rcases Process.after_read_iff.1 hr with ⟨_, he, -⟩ | ⟨_, he, -⟩
      · cases he
        exact ⟨rfl, closes, result, hcloses, hresult, rfl⟩
      · cases he
    · obtain ⟨r, hr, hrest⟩ := Process.run_cons.1 hrest
      exfalso
      rcases line_after hr with ⟨-, rfl⟩ | ⟨-, rfl⟩ | ⟨signal, rfl, rfl⟩
      · exact hlater _ hrest _ (by simp) hread
      · exact hsend _ hrest _ (by simp) hread
      · exact Process.avoids_exit _ (Event.ReadsFrom pipe) hrest _ (by simp) hread
  · exact absurd hread (hsend _ hrest _ (by simp))
  · exact absurd hread (Process.avoids_exit _ (Event.ReadsFrom pipe) hrest _ (by simp))

/-! ## The runs of the parent -/

theorem reportNamespaceChecks_avoids {bad : Event SystemCall Pipe Message → Prop}
    (hkilled : ∀ signal, ¬ bad (.killed signal)) (hcall : ∀ name result, ¬ bad (.call name result))
    {checks : NamespaceChecks} : ∀ {reports : List NamespaceCheckReport} {failures : ℕ},
      (reportNamespaceChecks strerror checks reportResult reports failures).Avoids bad
  | [], failures => by
    rw [reportNamespaceChecks, reportResult]
    split_ifs <;>
      exact Process.avoids_call hkilled (hcall _) fun _ => Process.avoids_exit _ _
  | _ :: _, failures => by
    rw [reportNamespaceChecks]
    split_ifs <;>
      exact Process.avoids_call hkilled (hcall _) fun _ => reportNamespaceChecks_avoids hkilled hcall

theorem finishSetup_avoids {bad : Event SystemCall Pipe Message → Prop}
    (hkilled : ∀ signal, ¬ bad (.killed signal)) (hcall : ∀ name result, ¬ bad (.call name result))
    (hclose : ∀ pipe pipeEnd, ¬ bad (.close pipe pipeEnd))
    (hread : ∀ message, ¬ bad (.read .result message)) (hwait : ∀ status, ¬ bad (.wait status)) :
    (finishSetup strerror failures).Avoids bad :=
  Process.avoids_close hkilled (hclose _ _) <| Process.avoids_close hkilled (hclose _ _) <|
    Process.avoids_read hkilled hread fun _ => Process.avoids_close hkilled (hclose _ _) <|
      Process.avoids_wait hkilled hwait fun _ => reportNamespaceChecks_avoids hkilled hcall

/-- What the parent does behind its first read. -/
theorem mapSetupChildIdentity_next_avoids {bad : Event SystemCall Pipe Message → Prop}
    (hkilled : ∀ signal, ¬ bad (.killed signal)) (hcall : ∀ name result, ¬ bad (.call name result))
    (hclose : ∀ pipe pipeEnd, ¬ bad (.close pipe pipeEnd))
    (hread : ∀ message, ¬ bad (.read .result message))
    (hwrite : ∀ message ok, ¬ bad (.write .acknowledgement message ok))
    (hwait : ∀ status, ¬ bad (.wait status)) (signal : Option Message) :
    (if signal = some (.byte 'R') then
      line (fun _ => acknowledge 'F' (finishSetup strerror failures))
        (acknowledge 'A' (finishSetup strerror failures)) (maps child uid gid)
    else finishSetup strerror failures).Avoids bad := by
  have hfinish : (finishSetup strerror failures).Avoids bad :=
    finishSetup_avoids hkilled hcall hclose hread hwait
  have hacknowledge : ∀ signal, (acknowledge signal (finishSetup strerror failures)).Avoids bad :=
    fun signal => Process.avoids_write hkilled (hwrite _) fun _ => hfinish
  split_ifs
  · refine line_avoids (fun _ => hacknowledge 'F') (hacknowledge 'A') hkilled ?_
    intro op hop e hconcerns
    simp only [maps, denySetgroups, writeMapping, List.mem_cons, List.not_mem_nil, or_false] at hop
    cases e with
    | call name result => exact hcall name result
    | _ => rcases hop with rfl | rfl | rfl <;> cases hconcerns
  · exact hfinish

theorem actualNamespaceSetup_avoids {bad : Event SystemCall Pipe Message → Prop}
    (hkilled : ∀ signal, ¬ bad (.killed signal)) (hcall : ∀ name result, ¬ bad (.call name result))
    (hclose : ∀ pipe pipeEnd, ¬ bad (.close pipe pipeEnd))
    (hready : ∀ message, ¬ bad (.read .ready message))
    (hread : ∀ message, ¬ bad (.read .result message))
    (hwrite : ∀ message ok, ¬ bad (.write .acknowledgement message ok))
    (hwait : ∀ status, ¬ bad (.wait status)) :
    (actualNamespaceSetup strerror child uid gid failures).Avoids bad :=
  Process.avoids_close hkilled (hclose _ _) <| Process.avoids_close hkilled (hclose _ _) <|
    Process.avoids_close hkilled (hclose _ _) <| Process.avoids_read hkilled hready <|
      mapSetupChildIdentity_next_avoids hkilled hcall hclose hread hwrite hwait

/-- The ends that the parent closes first. -/
def parentCloses : List Call :=
  [.close .ready .writer, .close .acknowledgement .reader, .close .result .writer]

/-- The acknowledgement of the maps. -/
def Acknowledges (e : Event SystemCall Pipe Message) : Prop :=
  ∃ ok, e = .write .acknowledgement (.byte 'A') ok

/-- Of the calls of a parent, at the point where it acknowledges. -/
theorem actualNamespaceSetup_acknowledged {ok : Bool} {q : Setup}
    {es fs : List (Event SystemCall Pipe Message)}
    (hrun : (actualNamespaceSetup strerror child uid gid failures).run
      (es ++ .write .acknowledgement (.byte 'A') ok :: fs) = some q) :
    ∃ closes good, es = closes ++ .read .ready (some (.byte 'R')) :: good ∧
      List.Forall₂ Op.Succeeds parentCloses closes ∧
      List.Forall₂ Op.Succeeds (maps child uid gid) good := by
  have hkilled : ∀ signal, ¬ Acknowledges (.killed signal) := by simp [Acknowledges]
  have hbad : Acknowledges (.write .acknowledgement (.byte 'A') ok) := ⟨ok, rfl⟩
  have hfinish : (finishSetup strerror failures).Avoids Acknowledges :=
    finishSetup_avoids hkilled (by simp [Acknowledges]) (by simp [Acknowledges]) (by simp [Acknowledges])
      (by simp [Acknowledges])
  have hline : actualNamespaceSetup strerror child uid gid failures =
      line (fun _ => .exit 1) (mapSetupChildIdentity child uid gid (finishSetup strerror failures))
        parentCloses := rfl
  rw [hline] at hrun
  obtain ⟨closes, es', rfl, hcloses, hrun₁⟩ := line_before_event
    (fun _ => Process.avoids_exit 1 Acknowledges) hkilled
    (by
      rintro op hop e hconcerns ⟨ok, rfl⟩
      rw [Op.concerns_write] at hconcerns
      simp [hconcerns, parentCloses] at hop)
    hbad hrun
  clear hrun
  rcases es' with _ | ⟨e₁, es₁⟩
  · obtain ⟨r, hr, -⟩ := Process.run_cons.1 hrun₁
    rcases Process.after_read_iff.1 hr with ⟨_, he, -⟩ | ⟨_, he, -⟩ <;> cases he
  obtain ⟨r, hr, hrun₂⟩ := Process.run_cons.1 hrun₁
  rcases Process.after_read_iff.1 hr with ⟨signal, rfl, rfl⟩ | ⟨signal, rfl, rfl⟩
  · split_ifs at hrun₂ with hsignal
    · rw [hsignal]
      obtain ⟨good, es₂, rfl, hgood, hrun₃⟩ := line_before_event
        (fun _ => Process.avoids_write hkilled (by simp [Acknowledges]) fun _ => hfinish) hkilled
        (by
          rintro op hop e hconcerns ⟨ok, rfl⟩
          rw [Op.concerns_write] at hconcerns
          simp [hconcerns, maps, denySetgroups, writeMapping] at hop)
        hbad hrun₂
      rcases es₂ with _ | ⟨e₃, es₃⟩
      · exact ⟨closes, good, by rw [List.append_nil], hcloses, hgood⟩
      · obtain ⟨r, hr, hrun₄⟩ := Process.run_cons.1 hrun₃
        rcases Process.after_write_iff.1 hr with ⟨_, -, rfl⟩ | ⟨_, -, rfl⟩
        · exact absurd hbad (hfinish hrun₄ _ (by simp))
        · exact absurd hbad (Process.avoids_exit _ Acknowledges hrun₄ _ (by simp))
    · exact absurd hbad (hfinish hrun₂ _ (by simp))
  · exact absurd hbad (Process.avoids_exit _ Acknowledges hrun₂ _ (by simp))

/-- A read of the result, a report or a wait. -/
def Late : Event SystemCall Pipe Message → Prop
  | .read .result _ | .wait _ | .call (.report _ _ _) _ => True
  | _ => False

/-- Before the parent reads the result, reports or waits, or ends on its own account, it has come to
    the end of the setup. -/
theorem actualNamespaceSetup_comes {status : ℕ} (hstatus : status < 128) :
    (mapSetupChildIdentity child uid gid (finishSetup strerror failures)).Comes Late status
      (finishSetup strerror failures) := by
  have hacknowledge : ∀ signal, (acknowledge signal (finishSetup strerror failures)).Comes Late status
      (finishSetup strerror failures) := fun signal =>
    Process.comes_write (fun _ => id) hstatus (fun _ => id) fun _ => Process.comes_refl
  refine Process.comes_read (fun _ => id) hstatus (fun _ => id) fun signal => ?_
  split_ifs
  · refine comes_line (fun _ => id) hstatus (fun _ => hacknowledge 'F') (hacknowledge 'A') ?_
    intro op hop e hconcerns
    simp only [maps, denySetgroups, writeMapping, List.mem_cons, List.not_mem_nil, or_false] at hop
    rcases hop with rfl | rfl | rfl <;> cases e <;> cases hconcerns <;> exact id
  · exact Process.comes_refl

/-- The ends that the parent closes behind the maps. -/
def laterCloses : List Call := [.close .ready .reader, .close .acknowledgement .writer]

theorem closes_not_late {ops : List Call} (h : ∀ op ∈ ops, ∃ pipe pipeEnd, op = .close pipe pipeEnd) :
    ∀ op ∈ ops, ∀ e, op.Concerns e → ¬ Late e := by
  intro op hop e hconcerns
  obtain ⟨pipe, pipeEnd, rfl⟩ := h op hop
  cases e <;> cases hconcerns
  exact id

/-- Of the calls of a parent, at the point where it reads the result or waits or reports. -/
theorem actualNamespaceSetup_late {e : Event SystemCall Pipe Message} (he : Late e) {q : Setup}
    {es fs : List (Event SystemCall Pipe Message)}
    (hrun : (actualNamespaceSetup strerror child uid gid failures).run (es ++ e :: fs) = some q) :
    ∃ closes es₁ later es₂, es = closes ++ es₁ ++ later ++ es₂ ∧
      List.Forall₂ Op.Succeeds parentCloses closes ∧ List.Forall₂ Op.Succeeds laterCloses later ∧
      (receiveSetupResult fun result => .wait fun _ =>
        reportNamespaceChecks strerror (copyNamespaceChecks result) reportResult
          namespaceCheckReports failures).run (es₂ ++ e :: fs) = some q := by
  have hline : actualNamespaceSetup strerror child uid gid failures =
      line (fun _ => .exit 1) (mapSetupChildIdentity child uid gid (finishSetup strerror failures))
        parentCloses := rfl
  rw [hline] at hrun
  obtain ⟨closes, es', rfl, hcloses, hrun₁⟩ := line_before_event
    (fun _ => Process.avoids_exit 1 Late) (fun _ => id) (closes_not_late (by simp [parentCloses])) he hrun
  obtain ⟨es₁, es₂, hes, hrun₂, hes₁⟩ := actualNamespaceSetup_comes (by decide : 0 < 128) hrun₁
    (.inl ⟨e, by simp, he⟩)
  obtain ⟨es₃, rfl, rfl⟩ := append_cons_eq_append hes fun hmem => hes₁ e hmem he
  have hline' : finishSetup strerror failures = line (fun _ => .exit 1)
      (receiveSetupResult fun result => .wait fun _ =>
        reportNamespaceChecks strerror (copyNamespaceChecks result) reportResult
          namespaceCheckReports failures) laterCloses := rfl
  rw [hline'] at hrun₂
  obtain ⟨later, es₄, rfl, hlater, hrun₃⟩ := line_before_event
    (fun _ => Process.avoids_exit 1 Late) (fun _ => id) (closes_not_late (by simp [laterCloses])) he hrun₂
  exact ⟨closes, es₁, later, es₄, by simp [List.append_assoc], hcloses, hlater, hrun₃⟩

/-- The report that a check has passed. -/
def Passes (name : String) (e : Event SystemCall Pipe Message) : Prop :=
  ∃ detail result, e = .call (.report "PASS" name detail) result

/-- Only a check that has passed is reported so. -/
theorem reportNamespaceChecks_passes {checks : NamespaceChecks} {name : String} :
    ∀ {reports : List NamespaceCheckReport} {failures : ℕ},
      (∀ check ∈ reports, check.name = name → check.passed checks = false) →
      (reportNamespaceChecks strerror checks reportResult reports failures).Avoids (Passes name)
  | [], failures, _ => by
    rw [reportNamespaceChecks, reportResult]
    split_ifs <;>
      exact Process.avoids_call (by simp [Passes]) (by simp [Passes]) fun _ => Process.avoids_exit _ _
  | check :: reports, failures, h => by
    obtain ⟨hcheck, hreports⟩ := List.forall_mem_cons.1 h
    rw [reportNamespaceChecks]
    split_ifs with hpassed
    · refine Process.avoids_call (by simp [Passes]) ?_ fun _ => reportNamespaceChecks_passes hreports
      rintro result ⟨detail, result', he⟩
      simp only [Event.call.injEq, SystemCall.report.injEq] at he
      rw [hcheck he.1.2.1] at hpassed
      cases hpassed
    · exact Process.avoids_call (by simp [Passes]) (by simp [Passes]) fun _ =>
        reportNamespaceChecks_passes hreports

/-- Zeros pass no check. -/
theorem zero_passed : ∀ check ∈ namespaceCheckReports,
    check.passed (copyNamespaceChecks .zero) = false := by
  simp [namespaceCheckReports, copyNamespaceChecks, hasCheck, NamespaceSetupResult.zero]

/-- The parent has received what it reports. -/
theorem actualNamespaceSetup_received {name detail : String} {result : ℤ} {q : Setup}
    {es fs : List (Event SystemCall Pipe Message)}
    (hrun : (actualNamespaceSetup strerror child uid gid failures).run
      (es ++ .call (.report "PASS" name detail) result :: fs) = some q) :
    ∃ value, .read .result (some (.result value)) ∈ es ∧ ∃ check ∈ namespaceCheckReports,
      check.name = name ∧ check.passed (copyNamespaceChecks value) = true := by
  obtain ⟨closes, es₁, later, es₂, rfl, -, -, hrun₁⟩ :=
    actualNamespaceSetup_late (e := .call (.report "PASS" name detail) result) trivial hrun
  rcases es₂ with _ | ⟨e₂, es₂⟩
  · obtain ⟨r, hr, -⟩ := Process.run_cons.1 hrun₁
    rcases Process.after_read_iff.1 hr with ⟨_, he, -⟩ | ⟨_, he, -⟩ <;> cases he
  have hpasses : Passes name (.call (.report "PASS" name detail) result) := ⟨detail, result, rfl⟩
  obtain ⟨r, hr, hrun₂⟩ := Process.run_cons.1 hrun₁
  rcases Process.after_read_iff.1 hr with ⟨message, rfl, rfl⟩ | ⟨signal, rfl, rfl⟩
  · have hchecks : ∃ check ∈ namespaceCheckReports, check.name = name ∧
        check.passed (copyNamespaceChecks (setupResult message)) = true := by
      by_contra hnone
      push Not at hnone
      refine absurd hpasses (Process.avoids_close (by simp [Passes]) (by simp [Passes])
        (Process.avoids_wait (by simp [Passes]) (by simp [Passes]) fun _ =>
          reportNamespaceChecks_passes fun check hcheck hname => ?_) hrun₂ _ (by simp))
      simpa using hnone check hcheck hname
    obtain ⟨check, hcheck, hname, hpassed⟩ := hchecks
    rcases message with _ | (value | value)
    · rw [show setupResult none = .zero from rfl, zero_passed check hcheck] at hpassed
      cases hpassed
    · rw [show setupResult (some (.byte value)) = .zero from rfl, zero_passed check hcheck] at hpassed
      cases hpassed
    · exact ⟨value, by simp, check, hcheck, hname, hpassed⟩
  · exact absurd hpasses (Process.avoids_exit _ (Passes name) hrun₂ _ (by simp))

/-! ## What is reported has happened -/

/-- The child has written no byte but that for the maps, and read none but the acknowledgement. -/
theorem runSetupChild_writes : runSetupChild.Avoids (Event.WritesTo .acknowledgement) := by
  refine runSetupChild_avoids (by simp [Event.WritesTo]) (by simp [Event.WritesTo])
    (by simp [Event.WritesTo]) ?_
  rintro step hstep op hop e hconcerns ⟨message, ok, rfl⟩
  rw [Op.concerns_write] at hconcerns
  cases steps_send hstep (hconcerns ▸ hop)

theorem actualNamespaceSetup_writes {pipe : Pipe} (hpipe : pipe ≠ .acknowledgement) :
    (actualNamespaceSetup strerror child uid gid failures).Avoids (Event.WritesTo pipe) := by
  refine actualNamespaceSetup_avoids (by simp [Event.WritesTo]) (by simp [Event.WritesTo])
    (by simp [Event.WritesTo]) (by simp [Event.WritesTo]) (by simp [Event.WritesTo]) ?_
    (by simp [Event.WritesTo])
  rintro message ok ⟨message', ok', he⟩
  exact hpipe (Event.write.inj he).1.symm

/-- The child behind its maps. -/
theorem acknowledged_order (hreach : Reaches (start strerror child uid gid failures) s)
    {before after : List (Party × Event SystemCall Pipe Message)}
    (hlog : s.log = before ++ (.child, .read .acknowledgement (some (.byte 'A'))) :: after) :
    Passed (setupOrder child uid gid (childSetupSteps.take 2))
      (before ++ [(.child, .read .acknowledgement (some (.byte 'A')))]) := by
  obtain ⟨-, closes, result, hcloses, hresult, hevents⟩ :=
    runSetupChild_read (hreach.consistent.run_at hlog)
  obtain ⟨before₁, after₁, rfl⟩ := hreach.sent_before hlog runSetupChild_writes
  rw [List.append_assoc, List.cons_append] at hlog
  obtain ⟨closes', good, hevents', -, hmaps⟩ :=
    actualNamespaceSetup_acknowledged (hreach.consistent.run_at hlog)
  obtain ⟨before₂, after₂, rfl, -, hafter₂⟩ := eventsOf_eq_append hevents'
  rw [List.append_assoc, List.cons_append] at hlog
  obtain ⟨before₃, after₃, rfl⟩ := hreach.sent_before hlog (actualNamespaceSetup_writes (by simp))
  have hunshared : Passed [(.child, .call .unshareUser)] before₃ := by
    have hsplit : eventsOf .child before₃ ++ .write .ready (.byte 'R') true ::
        eventsOf .child (after₃ ++ (.parent, .read .ready (some (.byte 'R'))) :: (after₂ ++
          (.parent, .write .acknowledgement (.byte 'A') true) :: after₁)) =
        (closes ++ [.call .unshareUser result]) ++ [.write .ready (.byte 'R') true] := by
      rw [List.append_assoc, List.singleton_append, ← hevents]
      simp [eventsOf, Party.other]
    obtain ⟨es, hes, -⟩ := append_cons_eq_append hsplit (by
      intro hmem
      rcases List.mem_append.1 hmem with hmem | hmem
      · obtain ⟨op, hop, hsucceeds⟩ := exists_succeeds hcloses hmem
        simp only [childCloses, List.mem_cons, List.not_mem_nil, or_false] at hop
        rcases hop with rfl | rfl | rfl <;> cases hsucceeds
      · simp at hmem)
    have hsublist : [.call .unshareUser result].Sublist (eventsOf .child before₃) := by
      rw [hes, List.append_assoc]
      exact (List.sublist_append_left _ es).trans (List.sublist_append_right closes _)
    exact passed_of_eventsOf hsublist (.cons (Op.succeeds_call.2 ⟨result, hresult, rfl⟩) .nil)
  simp only [List.append_assoc, List.cons_append]
  refine hunshared.append (.cons (Op.succeeds_send.2 rfl) ((passed_nil after₃).append
    (.cons (Op.succeeds_expect.2 rfl) ((passed_of_eventsOf (hafter₂ ▸ List.Sublist.refl good) hmaps).append
      (.cons (Op.succeeds_send.2 rfl) ((passed_nil after₁).append (.cons (Op.succeeds_expect.2 rfl)
        (passed_nil []))))))))

/-- The steps that went well before the child wrote its result, in order with the maps. -/
theorem written_order (hreach : Reaches (start strerror child uid gid failures) s)
    {before after : List (Party × Event SystemCall Pipe Message)} {result : NamespaceSetupResult}
    (hlog : s.log = before ++ (.child, .write .result (.result result) true) :: after) :
    ∃ done todo, childSetupSteps = done ++ todo ∧
      result.checks = done.foldl (fun checks step => checks ||| step.passedChecks) 0 ∧
      Passed (setupOrder child uid gid done) before := by
  obtain ⟨done, todo, closes, good, es, hsteps, hchecks, hevents, -, hgood⟩ :=
    runSetupChild_written (hreach.consistent.run_at hlog)
  refine ⟨done, todo, hsteps, hchecks, ?_⟩
  rcases done with _ | ⟨first, _ | ⟨second, done⟩⟩
  · exact passed_nil before
  · cases (List.cons.inj hsteps).1
    refine passed_of_eventsOf ?_ hgood
    rw [hevents, List.append_assoc]
    exact (List.sublist_append_left good es).trans (List.sublist_append_right closes _)
  · obtain ⟨hfirst, hsteps₁⟩ := List.cons.inj hsteps
    obtain ⟨hsecond, hsteps₂⟩ := List.cons.inj hsteps₁
    cases hfirst
    cases hsecond
    obtain ⟨good₁, e, good₂, rfl, -, he, hgood₂⟩ := succeeds_append
      (show List.Forall₂ Op.Succeeds ([.call .unshareUser, .send .ready (.byte 'R')] ++
        .expect .acknowledgement (.byte 'A') :: done.flatMap ChildSetupStep.run) good from hgood)
    rw [Op.succeeds_expect] at he
    subst he
    have hevents' : eventsOf .child before =
        (closes ++ good₁) ++ .read .acknowledgement (some (.byte 'A')) :: (good₂ ++ es) := by
      rw [hevents]
      simp [List.append_assoc]
    obtain ⟨before₁, before₂, rfl, -, hbefore₂⟩ := eventsOf_eq_append hevents'
    rw [List.append_assoc, List.cons_append] at hlog
    have hmapped := acknowledged_order hreach hlog
    have hsublist : good₂.Sublist (eventsOf .child before₂) :=
      hbefore₂ ▸ List.sublist_append_left good₂ es
    have horder : setupOrder child uid gid done =
        (done.flatMap ChildSetupStep.run).map (Prod.mk Party.child) := by
      rw [setupOrder, List.map_flatMap]
      refine List.flatMap_congr fun step hstep => if_neg ?_
      have hmem : step ∈ childSetupSteps.drop 2 := by
        rw [show childSetupSteps.drop 2 = done ++ todo from hsteps₂]
        exact List.mem_append_left _ hstep
      simp only [childSetupSteps, List.drop_succ_cons, List.drop_zero, List.mem_cons,
        List.not_mem_nil, or_false] at hmem
      rcases hmem with rfl | rfl | rfl | rfl | rfl | rfl | rfl | rfl | rfl | rfl <;> decide
    have happend := hmapped.append (passed_of_eventsOf hsublist hgood₂)
    rw [List.append_assoc, List.singleton_append] at happend
    rw [← horder] at happend
    exact happend

@[simp] theorem hasCheck_iff {result : NamespaceSetupResult} {check : ℕ} :
    hasCheck result check = true ↔ result.checks &&& check ≠ 0 := by
  rw [hasCheck, decide_eq_true_eq]

/-- A check that is passed is passed by one of the steps. -/
theorem checks_foldl {check : ℕ} : ∀ (done : List ChildSetupStep) (checks : ℕ),
    done.foldl (fun checks step => checks ||| step.passedChecks) checks &&& check ≠ 0 →
    checks &&& check ≠ 0 ∨ ∃ step ∈ done, step.passedChecks &&& check ≠ 0
  | [], checks, h => .inl h
  | first :: done, checks, h => by
    rcases checks_foldl done (checks ||| first.passedChecks) h with hfirst | ⟨step, hstep, hpassed⟩
    · rw [Nat.and_or_distrib_right, ne_eq, Nat.or_eq_zero_iff, not_and_or] at hfirst
      rcases hfirst with hchecks | hpassed
      · exact .inl hchecks
      · exact .inr ⟨first, List.mem_cons_self, hpassed⟩
    · exact .inr ⟨step, List.mem_cons_of_mem _ hstep, hpassed⟩

/-- Each report is about one check. -/
theorem report_check {check : NamespaceCheckReport} (hcheck : check ∈ namespaceCheckReports) :
    ∃ bit, ∀ result, check.passed (copyNamespaceChecks result) = hasCheck result bit := by
  simp only [namespaceCheckReports, List.mem_cons, List.not_mem_nil, or_false] at hcheck
  rcases hcheck with rfl | rfl | rfl | rfl | rfl | rfl | rfl | rfl | rfl | rfl | rfl | rfl <;>
    exact ⟨_, fun _ => rfl⟩

/-- A run in which all goes well. -/
theorem complete_run :
    (∃ s before detail, Reaches (start (fun _ => "") 7 1000 100 0) s ∧
      s.log = before ++ (.parent, .call (.report "PASS" "id_mapping" detail) 0) :: []) ∧
    ∃ s, Reaches (start (fun _ => "") 7 1000 100 0) s ∧ s.process .parent = .exit 0 := by
  have hstart : Reaches (start (fun _ => "") 7 1000 100 0) (start (fun _ => "") 7 1000 100 0) := .refl
  have h₁ := ((hstart.close .child rfl).close .child rfl).close .child rfl
  have h₂ := (h₁.call .child rfl 0).write .child rfl ⟨.parent, rfl, id⟩
  have h₃ := ((h₂.close .parent rfl).close .parent rfl).close .parent rfl
  have h₄ := h₃.read .parent rfl rfl
  have h₅ := ((h₄.call .parent rfl 0).call .parent rfl 0).call .parent rfl 0
  have h₆ := (h₅.write .parent rfl ⟨.child, rfl, id⟩).read .child rfl rfl
  have h₇ := ((h₆.call .child rfl 0).call .child rfl 0).call .child rfl 0
  have h₈ := (((h₇.call .child rfl 0).call .child rfl 0).call .child rfl 0).call .child rfl 0
  have h₉ := (((h₈.call .child rfl 0).call .child rfl 0).call .child rfl 0).call .child rfl 0
  have h₁₀ := (((h₉.call .child rfl 0).call .child rfl 0).call .child rfl 0).call .child rfl 0
  have h₁₁ := ((((h₁₀.call .child rfl 0).call .child rfl 0).call .child rfl 0).call .child rfl 0).call
    .child rfl 0
  have h₁₂ := (((h₁₁.call .child rfl 0).call .child rfl 0).call .child rfl 0).call .child rfl 0
  have h₁₃ := (h₁₂.call .child rfl 0).write .child rfl ⟨.parent, rfl, id⟩
  have h₁₄ := (((h₁₃.close .parent rfl).close .parent rfl).read .parent rfl rfl).close .parent rfl
  have h₁₅ := h₁₄.step .parent (e := .wait (some 0)) rfl ⟨rfl, rfl⟩
  have h₁₆ := (h₁₅.call .parent rfl 0).call .parent rfl 0
  refine ⟨⟨_, _, _, h₁₆, rfl⟩, ?_⟩
  have h₁₇ := (((h₁₆.call .parent rfl 0).call .parent rfl 0).call .parent rfl 0).call .parent rfl 0
  have h₁₈ := (((h₁₇.call .parent rfl 0).call .parent rfl 0).call .parent rfl 0).call .parent rfl 0
  have h₁₉ := ((h₁₈.call .parent rfl 0).call .parent rfl 0).call .parent rfl 0
  exact ⟨_, h₁₉, rfl⟩

/-- **What is reported as passed has happened.**  In every run, when the preflight reports a check as
    passed, a step that passes it and all steps before it went well before, in order, with the maps of
    the parent between. -/
theorem reported_passed (hreach : Reaches (start strerror child uid gid failures) s)
    {before after : List (Party × Event SystemCall Pipe Message)} {name detail : String} {result : ℤ}
    (hlog : s.log = before ++ (.parent, .call (.report "PASS" name detail) result) :: after) :
    ∃ check ∈ namespaceCheckReports, check.name = name ∧
      ∃ done step todo, childSetupSteps = done ++ step :: todo ∧
        check.passed (copyNamespaceChecks ⟨step.passedChecks, ⟨.none, 0⟩⟩) = true ∧
        Passed (setupOrder child uid gid (done ++ [step])) before := by
  obtain ⟨value, hread, check, hcheck, hname, hpassed⟩ :=
    actualNamespaceSetup_received (hreach.consistent.run_at hlog)
  obtain ⟨before₁, after₁, rfl⟩ := List.append_of_mem (mem_eventsOf.1 hread)
  rw [List.append_assoc, List.cons_append] at hlog
  obtain ⟨before₂, after₂, rfl⟩ := hreach.sent_before hlog (actualNamespaceSetup_writes (by simp))
  rw [List.append_assoc, List.cons_append] at hlog
  obtain ⟨done, todo, hsteps, hchecks, horder⟩ := written_order hreach hlog
  obtain ⟨bit, hbit⟩ := report_check hcheck
  rw [hbit, hasCheck_iff, hchecks] at hpassed
  rcases checks_foldl _ _ hpassed with hzero | ⟨step, hstep, hstepPassed⟩
  · exact absurd (Nat.zero_and bit) hzero
  obtain ⟨done₁, done₂, rfl⟩ := List.append_of_mem hstep
  refine ⟨check, hcheck, hname, done₁, step, done₂ ++ todo, by rw [hsteps]; simp,
    (hbit _).trans (hasCheck_iff.2 hstepPassed), ?_⟩
  have happend : setupOrder child uid gid (done₁ ++ step :: done₂) =
      setupOrder child uid gid (done₁ ++ [step]) ++ setupOrder child uid gid done₂ := by
    simp [setupOrder]
  rw [happend] at horder
  refine horder.of_append.mono ?_
  rw [List.append_assoc]
  exact List.sublist_append_left before₂ _

theorem reported_passed_complete : ∃ done step todo,
    ∃ before : List (Party × Event SystemCall Pipe Message),
      childSetupSteps = done ++ step :: todo ∧ Passed (setupOrder 7 1000 100 (done ++ [step])) before := by
  obtain ⟨⟨s, before, detail, hreach, hlog⟩, -⟩ := complete_run
  obtain ⟨-, -, -, done, step, todo, hsteps, -, hpassed⟩ := reported_passed hreach hlog
  exact ⟨done, step, todo, before, hsteps, hpassed⟩

/-! ## The verdict -/

/-- Without a failure every check has passed. -/
theorem reportNamespaceChecks_exit {checks : NamespaceChecks} :
    ∀ {reports : List NamespaceCheckReport} {failures : ℕ} {es : List (Event SystemCall Pipe Message)},
      (reportNamespaceChecks strerror checks reportResult reports failures).run es = some (.exit 0) →
      failures = 0 ∧ ∀ check ∈ reports, check.passed checks = true
  | [], failures, es, hrun => by
    refine ⟨?_, by simp⟩
    by_contra hfailures
    rw [reportNamespaceChecks, reportResult, if_neg hfailures] at hrun
    rcases @Process.run_call _ _ _ _ _ _ _ (fun _ => 1) _ _ hrun with ⟨-, h⟩ | ⟨_, -, h⟩ | ⟨signal, -, h⟩
    · cases h
    · cases h
    · have := Process.exit.inj h
      omega
  | check :: reports, failures, es, hrun => by
    rw [reportNamespaceChecks] at hrun
    rcases es with _ | ⟨e, es⟩
    · split_ifs at hrun <;> cases hrun
    · obtain ⟨r, hr, hrest⟩ := Process.run_cons.1 hrun
      split_ifs at hr with hpassed
      · rcases Process.after_call_iff.1 hr with ⟨_, -, rfl⟩ | ⟨signal, -, rfl⟩
        · obtain ⟨hfailures, hreports⟩ := reportNamespaceChecks_exit hrest
          exact ⟨hfailures, List.forall_mem_cons.2 ⟨hpassed, hreports⟩⟩
        · have := Process.exit.inj (Process.run_exit hrest).2
          omega
      · rcases Process.after_call_iff.1 hr with ⟨_, -, rfl⟩ | ⟨signal, -, rfl⟩
        · have := (reportNamespaceChecks_exit hrest).1
          omega
        · have := Process.exit.inj (Process.run_exit hrest).2
          omega

/-- A parent that ends well has received a result with all checks. -/
theorem actualNamespaceSetup_exit {es : List (Event SystemCall Pipe Message)}
    (hrun : (actualNamespaceSetup strerror child uid gid failures).run es = some (.exit 0)) :
    failures = 0 ∧ ∃ value, .read .result (some (.result value)) ∈ es ∧
      ∀ check ∈ namespaceCheckReports, check.passed (copyNamespaceChecks value) = true := by
  have hline : actualNamespaceSetup strerror child uid gid failures =
      line (fun _ => .exit 1) (mapSetupChildIdentity child uid gid (finishSetup strerror failures))
        parentCloses := rfl
  rw [hline] at hrun
  rcases line_exit hrun with ⟨closes, es₁, rfl, -, hrun₁⟩ | ⟨e, es₁, hfallback⟩ | ⟨signal, hkilled⟩
  · obtain ⟨es₂, es₃, rfl, hrun₂, -⟩ := actualNamespaceSetup_comes (by decide) hrun₁ (.inr rfl)
    have hline' : finishSetup strerror failures = line (fun _ => .exit 1)
        (receiveSetupResult fun result => .wait fun _ =>
          reportNamespaceChecks strerror (copyNamespaceChecks result) reportResult
            namespaceCheckReports failures) laterCloses := rfl
    rw [hline'] at hrun₂
    rcases line_exit hrun₂ with ⟨later, es₄, rfl, -, hrun₃⟩ | ⟨e, es₄, hfallback⟩ | ⟨signal, hkilled⟩
    · rcases es₄ with _ | ⟨e, es₄⟩
      · cases hrun₃
      obtain ⟨r, hr, hrun₄⟩ := Process.run_cons.1 hrun₃
      rcases Process.after_read_iff.1 hr with ⟨message, rfl, rfl⟩ | ⟨signal, -, rfl⟩
      · rcases es₄ with _ | ⟨e, es₄⟩
        · cases hrun₄
        obtain ⟨r, hr, hrun₅⟩ := Process.run_cons.1 hrun₄
        rcases Process.after_close_iff.1 hr with ⟨-, rfl⟩ | ⟨signal, -, rfl⟩
        · rcases es₄ with _ | ⟨e, es₄⟩
          · cases hrun₅
          obtain ⟨r, hr, hrun₆⟩ := Process.run_cons.1 hrun₅
          rcases Process.after_wait_iff.1 hr with ⟨_, -, rfl⟩ | ⟨signal, -, rfl⟩
          · obtain ⟨hfailures, hpassed⟩ := reportNamespaceChecks_exit hrun₆
            have hzero : setupResult message ≠ .zero := by
              intro hzero
              rw [hzero] at hpassed
              have hmem := List.getLast_mem (by simp [namespaceCheckReports] : namespaceCheckReports ≠ [])
              exact absurd ((zero_passed _ hmem).symm.trans (hpassed _ hmem)) (by simp)
            rcases message with _ | (value | value)
            · exact absurd rfl hzero
            · exact absurd rfl hzero
            · exact ⟨hfailures, value, by simp, hpassed⟩
          · have := Process.exit.inj (Process.run_exit hrun₆).2
            omega
        · have := Process.exit.inj (Process.run_exit hrun₅).2
          omega
      · have := Process.exit.inj (Process.run_exit hrun₄).2
        omega
    · cases (Process.run_exit hfallback).2
    · omega
  · cases (Process.run_exit hfallback).2
  · omega

/-- **The preflight succeeds only when all steps did,** in order and with the maps of the parent, and
    when no earlier check has failed. -/
theorem preflight_succeeded (hreach : Reaches (start strerror child uid gid failures) s)
    (hexit : s.process .parent = .exit 0) :
    failures = 0 ∧ Passed (setupOrder child uid gid childSetupSteps) s.log := by
  have hrun := hreach.consistent.parent_run
  rw [hexit] at hrun
  obtain ⟨hfailures, value, hread, hpassed⟩ := actualNamespaceSetup_exit hrun
  refine ⟨hfailures, ?_⟩
  obtain ⟨before₁, after₁, hlog⟩ := List.append_of_mem (mem_eventsOf.1 hread)
  obtain ⟨before₂, after₂, rfl⟩ := hreach.sent_before hlog (actualNamespaceSetup_writes (by simp))
  rw [List.append_assoc, List.cons_append] at hlog
  obtain ⟨done, todo, hsteps, hchecks, horder⟩ := written_order hreach hlog
  have hdetach : hasCheck value checkOldRootDetach = true :=
    hpassed _ (List.getLast_mem (by simp [namespaceCheckReports] : namespaceCheckReports ≠ []))
  rw [hasCheck_iff, hchecks] at hdetach
  have htodo : todo = [] := by
    rcases checks_foldl _ _ hdetach with hzero | ⟨step, hstep, hstepPassed⟩
    · exact absurd (Nat.zero_and _) hzero
    by_contra hne
    -- none of the steps before the last passes this check
    have hearlier : ∀ step ∈ childSetupSteps.dropLast, step.passedChecks &&& checkOldRootDetach = 0 := by
      decide
    refine hstepPassed (hearlier step ?_)
    rw [hsteps, List.dropLast_append_of_ne_nil hne]
    exact List.mem_append_left _ hstep
  rw [htodo, List.append_nil] at hsteps
  rw [hlog, hsteps]
  exact horder.mono (List.sublist_append_left before₂ _)

theorem preflight_succeeded_complete : ∃ log : List (Party × Event SystemCall Pipe Message),
    Passed (setupOrder 7 1000 100 childSetupSteps) log := by
  obtain ⟨-, s, hreach, hexit⟩ := complete_run
  exact ⟨s.log, (preflight_succeeded hreach hexit).2⟩

/-! ## Nobody is left waiting -/

/-- **The parent at its reads.** -/
theorem actualNamespaceSetup_read {pipe : Pipe} {message : Option Message} {q : Setup}
    {es fs : List (Event SystemCall Pipe Message)}
    (hrun : (actualNamespaceSetup strerror child uid gid failures).run
      (es ++ .read pipe message :: fs) = some q) :
    (pipe = .ready ∧ List.Forall₂ Op.Succeeds parentCloses es) ∨
      (pipe = .result ∧ .close .result .writer ∈ es ∧ .close .acknowledgement .writer ∈ es) := by
  cases pipe with
  | result =>
    obtain ⟨closes, es₁, later, es₂, rfl, hcloses, hlater, -⟩ :=
      actualNamespaceSetup_late (e := .read .result message) trivial hrun
    simp only [parentCloses, laterCloses, List.forall₂_cons_left_iff, List.forall₂_nil_left_iff,
      Op.succeeds_close] at hcloses hlater
    obtain ⟨_, _, rfl, ⟨_, _, rfl, ⟨_, _, rfl, rfl, rfl⟩, rfl⟩, rfl⟩ := hcloses
    obtain ⟨_, _, rfl, ⟨_, _, rfl, rfl, rfl⟩, rfl⟩ := hlater
    exact .inr ⟨rfl, by simp, by simp⟩
  | ready =>
    have hkilled : ∀ signal, ¬ Event.ReadsFrom Pipe.ready
        (.killed signal : Event SystemCall Pipe Message) := by simp [Event.ReadsFrom]
    have hread : Event.ReadsFrom Pipe.ready
        (.read .ready message : Event SystemCall Pipe Message) := ⟨_, rfl⟩
    have hline : actualNamespaceSetup strerror child uid gid failures =
        line (fun _ => .exit 1) (mapSetupChildIdentity child uid gid (finishSetup strerror failures))
          parentCloses := rfl
    rw [hline] at hrun
    obtain ⟨closes, es', rfl, hcloses, hrun₁⟩ := line_before_event
      (fun _ => Process.avoids_exit 1 (Event.ReadsFrom Pipe.ready)) hkilled
      (by
        rintro op hop e hconcerns ⟨message, rfl⟩
        rw [Op.concerns_read] at hconcerns
        obtain ⟨expected, rfl⟩ := hconcerns
        simp [parentCloses] at hop)
      hread hrun
    rcases es' with _ | ⟨e, es₁⟩
    · exact .inl ⟨rfl, by rwa [List.append_nil]⟩
    · obtain ⟨r, hr, hrun₂⟩ := Process.run_cons.1 hrun₁
      rcases Process.after_read_iff.1 hr with ⟨signal, -, rfl⟩ | ⟨signal, -, rfl⟩
      · exact absurd hread (mapSetupChildIdentity_next_avoids hkilled (by simp [Event.ReadsFrom])
          (by simp [Event.ReadsFrom]) (by simp [Event.ReadsFrom]) (by simp [Event.ReadsFrom])
          (by simp [Event.ReadsFrom]) signal hrun₂ _ (by simp))
      · exact absurd hread (Process.avoids_exit _ (Event.ReadsFrom Pipe.ready) hrun₂ _ (by simp))
  | acknowledgement =>
    have havoids : (actualNamespaceSetup strerror child uid gid failures).Avoids
        (Event.ReadsFrom .acknowledgement) :=
      actualNamespaceSetup_avoids (by simp [Event.ReadsFrom]) (by simp [Event.ReadsFrom])
        (by simp [Event.ReadsFrom]) (by simp [Event.ReadsFrom]) (by simp [Event.ReadsFrom])
        (by simp [Event.ReadsFrom]) (by simp [Event.ReadsFrom])
    exact absurd ⟨message, rfl⟩ (havoids hrun _ (by simp))

/-- A parent that waits has closed its end of the acknowledgement. -/
theorem actualNamespaceSetup_wait {status : Option ℕ} {q : Setup}
    {es fs : List (Event SystemCall Pipe Message)}
    (hrun : (actualNamespaceSetup strerror child uid gid failures).run
      (es ++ .wait status :: fs) = some q) : .close .acknowledgement .writer ∈ es := by
  obtain ⟨closes, es₁, later, es₂, rfl, -, hlater, -⟩ :=
    actualNamespaceSetup_late (e := .wait status) trivial hrun
  simp only [laterCloses, List.forall₂_cons_left_iff, List.forall₂_nil_left_iff, Op.succeeds_close]
    at hlater
  obtain ⟨_, _, rfl, ⟨_, _, rfl, rfl, rfl⟩, rfl⟩ := hlater
  simp

/-- The child waits for no process that it shares pipes with. -/
theorem runSetupChild_not_wait : runSetupChild.Avoids fun e => ∃ status, e = .wait status := by
  refine runSetupChild_avoids (by simp) (by simp) (by simp) ?_
  rintro step hstep op hop e hconcerns ⟨status, rfl⟩
  cases op <;> cases hconcerns

/-- A process that is about to make a call can make it. -/
theorem run_read {p : Setup} {es : List (Event SystemCall Pipe Message)} {pipe : Pipe}
    {next : Option Message → Setup} (hrun : p.run es = some (.read pipe next)) :
    p.run (es ++ [.read pipe none]) = some (next none) :=
  Process.run_concat.2 ⟨_, hrun, if_pos rfl⟩

theorem run_wait {p : Setup} {es : List (Event SystemCall Pipe Message)}
    {next : Option ℕ → Setup} (hrun : p.run es = some (.wait next)) :
    p.run (es ++ [.wait none]) = some (next none) :=
  Process.run_concat.2 ⟨_, hrun, rfl⟩

/-- A run stops only where both processes have ended. -/
theorem blocked_exited (hreach : Reaches (start strerror child uid gid failures) s)
    (hblocked : ∀ party, s.Blocked party) : ∀ party, (s.process party).Exited := by
  have hconsistent := hreach.consistent
  have hchild : (s.process .child).Exited := by
    rcases (hblocked .child).waits with ⟨status, hexit⟩ | ⟨pipe, next, hread, hempty, hopen⟩ |
      ⟨next, hwait, -⟩
    · exact Process.exited_iff.2 ⟨status, hexit⟩
    · exfalso
      obtain ⟨rfl, closes, result, hcloses, -, hevents⟩ :=
        runSetupChild_read (run_read (hread ▸ hconsistent.child_run))
      simp only [childCloses, List.forall₂_cons_left_iff, List.forall₂_nil_left_iff,
        Op.succeeds_close] at hcloses
      obtain ⟨_, _, rfl, ⟨_, _, rfl, ⟨_, _, rfl, rfl, rfl⟩, rfl⟩, rfl⟩ := hcloses
      obtain ⟨party, hclosed, halive⟩ := hconsistent.open_iff.1 hopen
      cases party with
      | child => simp [hevents] at hclosed
      | parent =>
        rcases (hblocked .parent).waits with ⟨status, hexit⟩ | ⟨pipe, next', hread', hempty', -⟩ |
          ⟨next', hwait, -⟩
        · exact halive (Process.exited_iff.2 ⟨status, hexit⟩)
        · rcases actualNamespaceSetup_read (run_read (hread' ▸ hconsistent.parent_run)) with
            ⟨rfl, hevents'⟩ | ⟨-, -, hclosed'⟩
          · -- the byte of the child is in the pipe
            have hsent : .write .ready (.byte 'R') true ∈ eventsOf .child s.log := by simp [hevents]
            obtain ⟨party, hreceived⟩ := hconsistent.drained hempty' hsent
            cases party with
            | parent =>
              obtain ⟨op, hop, hsucceeds⟩ := exists_succeeds hevents' hreceived
              simp only [parentCloses, List.mem_cons, List.not_mem_nil, or_false] at hop
              rcases hop with rfl | rfl | rfl <;> cases hsucceeds
            | child => simp [hevents] at hreceived
          · exact hclosed hclosed'
        · exact hclosed (actualNamespaceSetup_wait (run_wait (hwait ▸ hconsistent.parent_run)))
    · exact absurd ⟨none, rfl⟩
        (runSetupChild_not_wait (run_wait (hwait ▸ hconsistent.child_run)) _ (by simp))
  have hparent : (s.process .parent).Exited := by
    rcases (hblocked .parent).waits with ⟨status, hexit⟩ | ⟨pipe, next, hread, hempty, hopen⟩ |
      ⟨next, hwait, hstatus⟩
    · exact Process.exited_iff.2 ⟨status, hexit⟩
    · exfalso
      obtain ⟨party, hclosed, halive⟩ := hconsistent.open_iff.1 hopen
      cases party with
      | child => exact halive hchild
      | parent =>
        rcases actualNamespaceSetup_read (run_read (hread ▸ hconsistent.parent_run)) with
          ⟨rfl, hevents⟩ | ⟨rfl, hclosed', -⟩
        · simp only [parentCloses, List.forall₂_cons_left_iff, Op.succeeds_close] at hevents
          obtain ⟨_, _, rfl, -, hevents⟩ := hevents
          exact hclosed (hevents ▸ List.mem_cons_self)
        · exact hclosed hclosed'
    · obtain ⟨status, hexit⟩ := Process.exited_iff.1 hchild
      exact absurd hexit (hstatus rfl status)
  rintro (_ | _)
  · exact hparent
  · exact hchild

/-- **Neither process is left waiting.**  However far the two have come, and whatever has failed, every
    run ends, and without further faults it ends with both processes gone. -/
theorem preflight_completes (hreach : Reaches (start strerror child uid gid failures) s) :
    Acc (fun s' s => Steps s s') s ∧
      ∃ s', Relation.ReflTransGen SoundSteps s s' ∧ ∀ party, (s'.process party).Exited :=
  ⟨steps_wf.apply s, completes (fun _ => blocked_exited) s hreach⟩

/-- A child that is killed at once. -/
theorem preflight_completes_killed :
    ∃ s s', Reaches (start (fun _ => "") 7 1000 100 0) s ∧ s.process .child = .exit 137 ∧
      Relation.ReflTransGen SoundSteps s s' ∧ ∀ party, (s'.process party).Exited := by
  have hstart : Reaches (start (fun _ => "") 7 1000 100 0) (start (fun _ => "") 7 1000 100 0) := .refl
  have hkilled := hstart.step .child (e := .killed 9) rfl trivial
  obtain ⟨-, s', hs', hexited⟩ := preflight_completes hkilled
  exact ⟨_, s', hkilled, rfl, hs', hexited⟩

end RulesMkosi.KernelPreflight
