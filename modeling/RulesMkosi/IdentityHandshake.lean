/-
  The identity handshake of the namespace runner (`mkosi/debian/namespace_runner.c`).

  The original process stays outside of the new user namespace, writes the ID maps of its
  child and mirrors its exit status; the child waits for the maps, becomes root and starts
  the init process of the other namespaces.  In every order of the two processes, with any
  call failing and any signal: the child gets beyond the handshake only with both maps
  written and `setgroups` denied (`child_mapped`); the parent reports the status of the init
  process only after all of it (`parent_mirrors`); and when one side fails, the other is not
  left waiting (`handshake_completes`).

  Not modelled: calls that a signal interrupts and that are made again.
-/
import RulesMkosi.Lib.ProcessPair

namespace RulesMkosi.IdentityHandshake

open ProcessPair

/-- The pipes of `map_current_identity`. -/
inductive Pipe where
  | ready
  | acknowledgement
  deriving Repr, DecidableEq

inductive SystemCall where
  /-- `unshare(CLONE_NEWUSER)` -/
  | unshareUser
  /-- `rules_mkosi_write_file` -/
  | writeFile (path contents : String)
  /-- `setresgid(0, 0, 0)` -/
  | setresgid
  /-- `setresuid(0, 0, 0)` -/
  | setresuid
  /-- `unshare(CLONE_NEWNS | CLONE_NEWPID | CLONE_NEWIPC | CLONE_NEWUTS)` -/
  | unshareNamespaces
  /-- of the init process -/
  | fork
  /-- `wait_for_exit_status` of the init process -/
  | waitInit
  deriving Repr, DecidableEq

abbrev Call := Op SystemCall Pipe Char

/-! ## The two processes -/

def writeChildMapping (child : ℕ) (name : String) (value : ℕ) : Call :=
  .call (.writeFile ("/proc/" ++ toString child ++ "/" ++ name ++ "_map") ("0 " ++ toString value ++ " 1\n"))

def denyChildSetgroups (child : ℕ) : Call :=
  .call (.writeFile ("/proc/" ++ toString child ++ "/setgroups") "deny\n")

/-- `read_byte` -/
def readByte (pipe : Pipe) (expected : Char) : Call := .expect pipe expected

/-- `write_byte` -/
def writeByte (pipe : Pipe) (value : Char) : Call := .send pipe value

/-- What the parent does before it waits. -/
def mapChildIdentity (child uid gid : ℕ) : List Call :=
  [.close .ready .writer, .close .acknowledgement .reader, readByte .ready 'U',
    writeChildMapping child "uid" uid, denyChildSetgroups child, writeChildMapping child "gid" gid,
    writeByte .acknowledgement 'U', .close .ready .reader, .close .acknowledgement .writer]

/-- `map_child_identity_and_exit` -/
def mapChildIdentityAndExit (child uid gid : ℕ) : Process SystemCall Pipe Char :=
  line (fun _ => .exit 1) (.wait fun status => .exit (status.getD 1)) (mapChildIdentity child uid gid)

/-- `enter_mapped_user_namespace` -/
def enterMappedUserNamespace : List Call :=
  [.close .ready .reader, .close .acknowledgement .writer, .call .unshareUser, writeByte .ready 'U',
    readByte .acknowledgement 'U', .call .setresgid, .call .setresuid, .close .ready .writer,
    .close .acknowledgement .reader]

/-- The end of `run_child` in the process outside of the PID namespace. -/
def waitForExitStatus : Process SystemCall Pipe Char :=
  .call .waitInit fun status => .exit (if 0 ≤ status then status.toNat else 1)

/-- `run_child` after the fork of `map_current_identity` -/
def runChild : Process SystemCall Pipe Char :=
  line (fun _ => .exit 1) waitForExitStatus
    (enterMappedUserNamespace ++ [.call .unshareNamespaces, .call .fork])

/-- Both processes after the fork of `map_current_identity`. -/
def start (child uid gid : ℕ) : ProcessPair SystemCall Pipe Char :=
  forked (mapChildIdentityAndExit child uid gid) runChild

/-- The handshake, in order. -/
def handshake (child uid gid : ℕ) : List (Party × Call) :=
  [(.child, .call .unshareUser), (.child, writeByte .ready 'U'), (.parent, readByte .ready 'U'),
    (.parent, writeChildMapping child "uid" uid), (.parent, denyChildSetgroups child),
    (.parent, writeChildMapping child "gid" gid), (.parent, writeByte .acknowledgement 'U'),
    (.child, readByte .acknowledgement 'U')]

/-- The calls of the child behind the handshake. -/
def afterwards : List Call :=
  [.call .setresgid, .call .setresuid, .close .ready .writer, .close .acknowledgement .reader,
    .call .unshareNamespaces, .call .fork]

variable {child uid gid : ℕ} {s : ProcessPair SystemCall Pipe Char}

/-! ## The maps come first -/

/-- Neither process writes to the pipe that it reads. -/
theorem mapChildIdentityAndExit_avoids :
    (mapChildIdentityAndExit child uid gid).Avoids (Event.WritesTo .ready) := by
  refine line_avoids (fun _ => Process.avoids_exit _ _) (Process.avoids_wait (by simp [Event.WritesTo])
    (by simp [Event.WritesTo]) fun _ => Process.avoids_exit _ _) (by simp [Event.WritesTo]) ?_
  rintro op hop e hconcerns ⟨message, ok, rfl⟩
  rw [Op.concerns_write] at hconcerns
  simp [hconcerns, mapChildIdentity, writeChildMapping, denyChildSetgroups, readByte, writeByte] at hop

theorem runChild_avoids : runChild.Avoids (Event.WritesTo .acknowledgement) := by
  refine line_avoids (fun _ => Process.avoids_exit _ _) (Process.avoids_call (by simp [Event.WritesTo])
    (by simp [Event.WritesTo]) fun _ => Process.avoids_exit _ _) (by simp [Event.WritesTo]) ?_
  rintro op hop e hconcerns ⟨message, ok, rfl⟩
  rw [Op.concerns_write] at hconcerns
  simp [hconcerns, enterMappedUserNamespace, readByte, writeByte] at hop

/-- The maps, as the parent writes them. -/
def maps (child uid gid : ℕ) : List Call :=
  [writeChildMapping child "uid" uid, denyChildSetgroups child, writeChildMapping child "gid" gid]

/-- Before the parent acknowledges, it has read the byte of the child and then written the maps. -/
theorem acknowledged_mapped (hreach : Reaches (start child uid gid) s)
    {before after : List (Party × Event SystemCall Pipe Char)} {message : Char}
    (hlog : s.log = before ++ (.parent, .write .acknowledgement message true) :: after) :
    ∃ before₁ before₂, before = before₁ ++ (.parent, .read .ready (some 'U')) :: before₂ ∧
      Passed ((maps child uid gid).map (Prod.mk .parent)) before₂ := by
  have hline : (start child uid gid).process .parent =
      line (fun _ => .exit 1) (line (fun _ => .exit 1) (.wait fun status => .exit (status.getD 1))
        [writeByte .acknowledgement 'U', .close .ready .reader, .close .acknowledgement .writer])
        ([.close .ready .writer, .close .acknowledgement .reader] ++ readByte .ready 'U' ::
          maps child uid gid) := rfl
  obtain ⟨before₁, e, before₂, hbefore, he, -, hmaps⟩ := hreach.consistent.passed_before hline
    (fun _ => Process.avoids_exit 1 (Event.WritesTo Pipe.acknowledgement)) (by simp [Event.WritesTo])
    (by
      rintro op hop e hconcerns ⟨message, ok, rfl⟩
      rw [Op.concerns_write] at hconcerns
      simp [hconcerns, maps, writeChildMapping, denyChildSetgroups, readByte] at hop)
    ⟨message, true, rfl⟩ hlog
  rw [readByte, Op.succeeds_expect] at he
  exact ⟨before₁, before₂, he ▸ hbefore, hmaps⟩

/-- Before the child signals that it is ready, it has its user namespace. -/
theorem ready_unshared (hreach : Reaches (start child uid gid) s)
    {before after : List (Party × Event SystemCall Pipe Char)} {message : Char}
    (hlog : s.log = before ++ (.child, .write .ready message true) :: after) :
    Passed [(.child, .call .unshareUser)] before := by
  have hline : (start child uid gid).process .child =
      line (fun _ => .exit 1) (line (fun _ => .exit 1) waitForExitStatus
        ([writeByte .ready 'U', readByte .acknowledgement 'U', .call .setresgid, .call .setresuid,
          .close .ready .writer, .close .acknowledgement .reader] ++
          [.call .unshareNamespaces, .call .fork]))
        ([.close .ready .reader, .close .acknowledgement .writer] ++ [.call .unshareUser]) := rfl
  obtain ⟨before₁, e, before₂, rfl, he, -, hrest⟩ := hreach.consistent.passed_before hline
    (fun _ => Process.avoids_exit 1 (Event.WritesTo Pipe.ready)) (by simp [Event.WritesTo])
    (by
      rintro op hop e hconcerns ⟨message, ok, rfl⟩
      rw [Op.concerns_write] at hconcerns
      simp [hconcerns] at hop)
    ⟨message, true, rfl⟩ hlog
  exact (passed_nil before₁).append (hrest.cons he)

/-- The child behind its handshake. -/
theorem acknowledged_handshake (hreach : Reaches (start child uid gid) s)
    {before after : List (Party × Event SystemCall Pipe Char)}
    (hlog : s.log = before ++ (.child, .read .acknowledgement (some 'U')) :: after) :
    Passed (handshake child uid gid) (before ++ [(.child, .read .acknowledgement (some 'U'))]) := by
  obtain ⟨before₁, after₁, rfl⟩ := hreach.sent_before hlog runChild_avoids
  rw [List.append_assoc, List.cons_append] at hlog
  obtain ⟨before₂, after₂, rfl, hmaps⟩ := acknowledged_mapped hreach hlog
  rw [List.append_assoc, List.cons_append] at hlog
  obtain ⟨before₃, after₃, rfl⟩ := hreach.sent_before hlog mapChildIdentityAndExit_avoids
  rw [List.append_assoc, List.cons_append] at hlog
  have hunshared := ready_unshared hreach hlog
  simp only [List.append_assoc, List.cons_append]
  refine hunshared.append (.cons (Op.succeeds_send.2 rfl) ((passed_nil after₃).append
    (.cons (Op.succeeds_expect.2 rfl) (hmaps.append (.cons (Op.succeeds_send.2 rfl)
      ((passed_nil after₁).append (.cons (Op.succeeds_expect.2 rfl) (passed_nil []))))))))

/-- The calls of the child up to the end of the handshake, and those behind it. -/
theorem runChild_eq : runChild = line (fun _ => .exit 1)
    (line (fun _ => .exit 1) waitForExitStatus afterwards)
    ([.close .ready .reader, .close .acknowledgement .writer, .call .unshareUser,
      writeByte .ready 'U'] ++ [readByte .acknowledgement 'U']) := rfl

/-- **The child gets beyond the handshake only as the mapped root.**  Before it makes any call but that
    for its user namespace, in every run, the parent has written both maps and denied `setgroups`, after
    the child had its user namespace. -/
theorem child_mapped (hreach : Reaches (start child uid gid) s)
    {before after : List (Party × Event SystemCall Pipe Char)} {name : SystemCall} {result : ℤ}
    (hname : name ≠ .unshareUser) (hlog : s.log = before ++ (.child, .call name result) :: after) :
    Passed (handshake child uid gid) before := by
  have hline : (start child uid gid).process .child = _ := runChild_eq
  obtain ⟨before₁, e, before₂, rfl, he, -, -⟩ := hreach.consistent.passed_before hline
    (fun _ => Process.avoids_exit 1 fun e =>
      ∃ name result, name ≠ SystemCall.unshareUser ∧ e = .call name result)
    (by simp)
    (by
      rintro op hop e hconcerns ⟨name, result, hname, rfl⟩
      rw [Op.concerns_call] at hconcerns
      simp only [hconcerns, writeByte, readByte, List.cons_append, List.nil_append, List.mem_cons,
        reduceCtorEq, Op.call.injEq, List.not_mem_nil, or_false, false_or] at hop
      exact hname hop)
    ⟨name, result, hname, rfl⟩ hlog
  rw [readByte, Op.succeeds_expect] at he
  subst he
  rw [List.append_assoc, List.cons_append] at hlog
  refine (acknowledged_handshake hreach hlog).mono ?_
  exact (List.Sublist.refl before₁).append ((List.nil_sublist before₂).cons_cons _)

/-- A run in which all goes well. -/
theorem complete_run : ∃ s before after, Reaches (start 7 1000 100) s ∧ s.process .parent = .exit 0 ∧
    s.log = before ++ (.child, .call .setresgid 0) :: after := by
  have hstart : Reaches (start 7 1000 100) (start 7 1000 100) := .refl
  have h₁ := hstart.line_step .child rfl (Op.succeeds_close.2 rfl) trivial
  have h₂ := h₁.line_step .child rfl (Op.succeeds_close.2 rfl) trivial
  have h₃ := h₂.line_step .child rfl (Op.succeeds_call.2 ⟨0, le_rfl, rfl⟩) trivial
  have h₄ := h₃.line_step .child rfl (Op.succeeds_send.2 rfl) ⟨.parent, rfl, id⟩
  have h₅ := h₄.line_step .parent rfl (Op.succeeds_close.2 rfl) trivial
  have h₆ := h₅.line_step .parent rfl (Op.succeeds_close.2 rfl) trivial
  have h₇ := h₆.line_step .parent rfl (Op.succeeds_expect.2 rfl) rfl
  have h₈ := h₇.line_step .parent rfl (Op.succeeds_call.2 ⟨5, by decide, rfl⟩) trivial
  have h₉ := h₈.line_step .parent rfl (Op.succeeds_call.2 ⟨5, by decide, rfl⟩) trivial
  have h₁₀ := h₉.line_step .parent rfl (Op.succeeds_call.2 ⟨5, by decide, rfl⟩) trivial
  have h₁₁ := h₁₀.line_step .parent rfl (Op.succeeds_send.2 rfl) ⟨.child, rfl, id⟩
  have h₁₂ := h₁₁.line_step .child rfl (Op.succeeds_expect.2 rfl) rfl
  have h₁₃ := h₁₂.line_step .child rfl (Op.succeeds_call.2 ⟨0, le_rfl, rfl⟩) trivial
  have h₁₄ := h₁₃.line_step .child rfl (Op.succeeds_call.2 ⟨0, le_rfl, rfl⟩) trivial
  have h₁₅ := h₁₄.line_step .child rfl (Op.succeeds_close.2 rfl) trivial
  have h₁₆ := h₁₅.line_step .child rfl (Op.succeeds_close.2 rfl) trivial
  have h₁₇ := h₁₆.line_step .child rfl (Op.succeeds_call.2 ⟨0, le_rfl, rfl⟩) trivial
  have h₁₈ := h₁₇.line_step .child rfl (Op.succeeds_call.2 ⟨8, by decide, rfl⟩) trivial
  have h₁₉ := h₁₈.step .child (e := .call .waitInit 0) rfl trivial
  have h₂₀ := h₁₉.line_step .parent rfl (Op.succeeds_close.2 rfl) trivial
  have h₂₁ := h₂₀.line_step .parent rfl (Op.succeeds_close.2 rfl) trivial
  have h₂₂ := h₂₁.step .parent (e := .wait (some 0)) rfl ⟨rfl, rfl⟩
  exact ⟨_, [_, _, _, _, _, _, _, _, _, _, _, _], [_, _, _, _, _, _, _, _, _], h₂₂, rfl, rfl⟩

theorem child_mapped_complete : ∃ before, Passed (handshake 7 1000 100) before := by
  obtain ⟨s, before, after, hreach, -, hlog⟩ := complete_run
  exact ⟨before, child_mapped hreach (by simp) hlog⟩

/-! ## The parent mirrors -/

/-- The parent ends with the status of the child unless it fails or is killed. -/
theorem parent_waited (hreach : Reaches (start child uid gid) s) {status : ℕ}
    (hexit : s.process .parent = .exit status) (hfailed : status ≠ 1) (hsignal : status < 128) :
    s.process .child = .exit status := by
  have hrun := hreach.consistent.parent_run
  rw [hexit] at hrun
  rcases line_exit hrun with ⟨good, es, hevents, -, hrest⟩ | ⟨e, es, hfallback⟩ | ⟨signal, hkilled⟩
  · rcases Process.run_wait hrest with ⟨-, hwait⟩ | ⟨waited, rfl, hwaited⟩ | ⟨signal, -, hkilled⟩
    · cases hwait
    · cases waited with
      | none => exact absurd (Process.exit.inj hwaited) hfailed
      | some waited =>
        rw [Process.exit.inj hwaited]
        refine hreach.consistent.waited waited (mem_eventsOf.1 ?_)
        rw [hevents]
        exact List.mem_append_right _ List.mem_cons_self
    · have := Process.exit.inj hkilled
      omega
  · exact absurd (Process.exit.inj (Process.run_exit hfallback).2) hfailed
  · omega

/-- A child that ends on its own account has made all of its calls. -/
theorem child_finished (hreach : Reaches (start child uid gid) s) {status : ℕ}
    (hexit : s.process .child = .exit status) (hfailed : status ≠ 1) (hsignal : status < 128) :
    ∃ good, eventsOf .child s.log = good ++ [.call .waitInit status] ∧
      List.Forall₂ Op.Succeeds (enterMappedUserNamespace ++ [.call .unshareNamespaces, .call .fork])
        good := by
  have hrun := hreach.consistent.child_run
  rw [hexit] at hrun
  rcases line_exit hrun with ⟨good, es, hevents, hgood, hrest⟩ | ⟨e, es, hfallback⟩ | ⟨signal, hkilled⟩
  · rcases Process.run_call hrest with ⟨-, hcall⟩ | ⟨result, rfl, hresult⟩ | ⟨signal, -, hkilled⟩
    · cases hcall
    · have hstatus := Process.exit.inj hresult
      split_ifs at hstatus with hresult'
      · refine ⟨good, ?_, hgood⟩
        rw [hevents, hstatus, Int.toNat_of_nonneg hresult']
      · exact absurd hstatus hfailed
    · have := Process.exit.inj hkilled
      omega
  · exact absurd (Process.exit.inj (Process.run_exit hfallback).2) hfailed
  · omega

/-- **The parent mirrors the init process.**  In every run, a status of the parent that is not that of
    a failure or of a signal is the one that the init process had, and the whole handshake and all
    calls of the child went well before. -/
theorem parent_mirrors (hreach : Reaches (start child uid gid) s) {status : ℕ}
    (hexit : s.process .parent = .exit status) (hfailed : status ≠ 1) (hsignal : status < 128) :
    ∃ before after, s.log = before ++ (.child, .call .waitInit status) :: after ∧
      Passed (handshake child uid gid ++ afterwards.map (Prod.mk .child)) before := by
  have hchild := parent_waited hreach hexit hfailed hsignal
  obtain ⟨good, hevents, hgood⟩ := child_finished hreach hchild hfailed hsignal
  obtain ⟨good₁, e, good₂, rfl, -, he, hafterwards⟩ := succeeds_append
    (show List.Forall₂ Op.Succeeds ([.close .ready .reader, .close .acknowledgement .writer,
      .call .unshareUser, writeByte .ready 'U'] ++ readByte .acknowledgement 'U' :: afterwards) good from
      hgood)
  rw [readByte, Op.succeeds_expect] at he
  subst he
  obtain ⟨before, after, hlog, hbefore, -⟩ := eventsOf_eq_append hevents
  obtain ⟨before₁, before₂, rfl, -, hbefore₂⟩ := eventsOf_eq_append hbefore
  refine ⟨_, after, hlog, ?_⟩
  rw [List.append_assoc, List.cons_append] at hlog
  have hhandshake := acknowledged_handshake hreach hlog
  have hsublist : good₂.Sublist (eventsOf .child before₂) := by rw [hbefore₂]
  have := hhandshake.append (passed_of_eventsOf hsublist hafterwards)
  rwa [List.append_assoc, List.singleton_append] at this

theorem parent_mirrors_complete : ∃ before : List (Party × Event SystemCall Pipe Char),
    Passed (handshake 7 1000 100 ++ afterwards.map (Prod.mk .child)) before := by
  obtain ⟨s, -, -, hreach, hexit, -⟩ := complete_run
  obtain ⟨before, -, -, hpassed⟩ := parent_mirrors hreach hexit (by decide) (by decide)
  exact ⟨before, hpassed⟩

/-! ## Nobody is left waiting -/

/-- A parent that reads waits for the child to be ready. -/
theorem parent_reading (hreach : Reaches (start child uid gid) s) {pipe : Pipe}
    {next : Option Char → Process SystemCall Pipe Char} (hread : s.process .parent = .read pipe next) :
    pipe = .ready ∧
      eventsOf .parent s.log = [.close .ready .writer, .close .acknowledgement .reader] := by
  have hrun := hreach.consistent.parent_run
  rw [hread] at hrun
  obtain ⟨done, message, todo, hops, hdone⟩ := line_read hrun
    (fun _ es h => by cases (Process.run_exit h).2)
    (fun es h => by rcases Process.run_wait h with ⟨-, h⟩ | ⟨_, -, h⟩ | ⟨_, -, h⟩ <;> cases h)
  have hsplit : pipe = .ready ∧ done = [.close .ready .writer, .close .acknowledgement .reader] := by
    rcases done with _ | ⟨a, _ | ⟨b, _ | ⟨c, done⟩⟩⟩ <;>
      simp only [mapChildIdentity, readByte, List.cons_append, List.nil_append, List.cons.injEq,
        reduceCtorEq, false_and, and_false, Op.expect.injEq] at hops
    · obtain ⟨rfl, rfl, ⟨rfl, -⟩, -⟩ := hops
      exact ⟨rfl, rfl⟩
    · -- behind its first read the parent reads no more
      have hmem : Op.expect pipe message ∈ done ++ .expect pipe message :: todo := by simp
      rw [← hops.2.2.2] at hmem
      simp [writeChildMapping, denyChildSetgroups, writeByte] at hmem
  obtain ⟨hpipe, rfl⟩ := hsplit
  simp only [List.forall₂_cons_left_iff, List.forall₂_nil_left_iff, Op.succeeds_close] at hdone
  obtain ⟨_, _, rfl, ⟨_, _, rfl, rfl, rfl⟩, hevents⟩ := hdone
  exact ⟨hpipe, hevents⟩

/-- A child that reads waits for the acknowledgement. -/
theorem child_reading (hreach : Reaches (start child uid gid) s) {pipe : Pipe}
    {next : Option Char → Process SystemCall Pipe Char} (hread : s.process .child = .read pipe next) :
    pipe = .acknowledgement ∧ ∃ result, eventsOf .child s.log = [.close .ready .reader,
      .close .acknowledgement .writer, .call .unshareUser result, .write .ready 'U' true] := by
  have hrun := hreach.consistent.child_run
  rw [hread] at hrun
  obtain ⟨done, message, todo, hops, hdone⟩ := line_read hrun
    (fun _ es h => by cases (Process.run_exit h).2)
    (fun es h => by rcases Process.run_call h with ⟨-, h⟩ | ⟨_, -, h⟩ | ⟨_, -, h⟩ <;> cases h)
  have hsplit : pipe = .acknowledgement ∧ done = [.close .ready .reader,
      .close .acknowledgement .writer, .call .unshareUser, writeByte .ready 'U'] := by
    rcases done with _ | ⟨a, _ | ⟨b, _ | ⟨c, _ | ⟨d, _ | ⟨e, done⟩⟩⟩⟩⟩ <;>
      simp only [enterMappedUserNamespace, readByte, writeByte, List.cons_append, List.nil_append,
        List.cons.injEq, reduceCtorEq, false_and, and_false, Op.expect.injEq] at hops
    · obtain ⟨rfl, rfl, rfl, rfl, ⟨rfl, -⟩, -⟩ := hops
      exact ⟨rfl, rfl⟩
    · have hmem : Op.expect pipe message ∈ done ++ .expect pipe message :: todo := by simp
      rw [← hops.2.2.2.2.2] at hmem
      simp at hmem
  obtain ⟨hpipe, rfl⟩ := hsplit
  simp only [writeByte, List.forall₂_cons_left_iff, List.forall₂_nil_left_iff, Op.succeeds_close,
    Op.succeeds_call, Op.succeeds_send] at hdone
  obtain ⟨_, _, rfl, ⟨_, _, rfl, ⟨_, _, ⟨result, -, rfl⟩, ⟨_, _, rfl, rfl, rfl⟩, rfl⟩, rfl⟩, hevents⟩ :=
    hdone
  exact ⟨hpipe, result, hevents⟩

/-- A parent that waits has acknowledged. -/
theorem parent_waiting (hreach : Reaches (start child uid gid) s)
    {next : Option ℕ → Process SystemCall Pipe Char} (hwait : s.process .parent = .wait next) :
    .write .acknowledgement 'U' true ∈ eventsOf .parent s.log := by
  have hrun := hreach.consistent.parent_run
  rw [hwait] at hrun
  obtain ⟨good, es, hevents, hgood, -⟩ := line_wait hrun (fun _ es h => by cases (Process.run_exit h).2)
  obtain ⟨good₁, e, good₂, rfl, -, he, -⟩ := succeeds_append
    (show List.Forall₂ Op.Succeeds ([.close .ready .writer, .close .acknowledgement .reader,
      readByte .ready 'U', writeChildMapping child "uid" uid, denyChildSetgroups child,
      writeChildMapping child "gid" gid] ++ writeByte .acknowledgement 'U' ::
      [.close .ready .reader, .close .acknowledgement .writer]) good from hgood)
  rw [writeByte, Op.succeeds_send] at he
  simp [hevents, he]

/-- The child waits for no process that it shares pipes with. -/
theorem child_not_waiting (hreach : Reaches (start child uid gid) s)
    {next : Option ℕ → Process SystemCall Pipe Char} : s.process .child ≠ .wait next := by
  intro hwait
  have hrun := hreach.consistent.child_run
  rw [hwait] at hrun
  obtain ⟨good, es, -, -, hrest⟩ := line_wait hrun (fun _ es h => by cases (Process.run_exit h).2)
  rcases Process.run_call hrest with ⟨-, h⟩ | ⟨_, -, h⟩ | ⟨_, -, h⟩ <;> cases h

/-- The parent reads nothing from the pipe that it writes to. -/
theorem mapChildIdentityAndExit_receives :
    (mapChildIdentityAndExit child uid gid).Avoids (Event.Receives .acknowledgement) := by
  refine line_avoids (fun _ => Process.avoids_exit _ _) (Process.avoids_wait (by simp [Event.Receives])
    (by simp [Event.Receives]) fun _ => Process.avoids_exit _ _) (by simp [Event.Receives]) ?_
  rintro op hop e hconcerns ⟨message, rfl⟩
  rw [Op.concerns_read] at hconcerns
  obtain ⟨expected, rfl⟩ := hconcerns
  simp [mapChildIdentity, writeChildMapping, denyChildSetgroups, readByte, writeByte] at hop

/-- A run stops only where both processes have ended. -/
theorem blocked_exited (hreach : Reaches (start child uid gid) s)
    (hblocked : ∀ party, s.Blocked party) : ∀ party, (s.process party).Exited := by
  have hconsistent := hreach.consistent
  have hchild : (s.process .child).Exited := by
    rcases (hblocked .child).waits with ⟨status, hexit⟩ | ⟨pipe, next, hread, hempty, hopen⟩ |
      ⟨next, hwait, -⟩
    · exact Process.exited_iff.2 ⟨status, hexit⟩
    · exfalso
      obtain ⟨rfl, result, hevents⟩ := child_reading hreach hread
      obtain ⟨party, hclosed, halive⟩ := hconsistent.open_iff.1 hopen
      cases party with
      | child => simp [hevents] at hclosed
      | parent =>
        rcases (hblocked .parent).waits with ⟨status, hexit⟩ | ⟨pipe, next', hread', hempty', -⟩ |
          ⟨next', hwait, -⟩
        · exact halive (Process.exited_iff.2 ⟨status, hexit⟩)
        · -- the byte of the child is in the pipe
          obtain ⟨rfl, hevents'⟩ := parent_reading hreach hread'
          have hsent : .write .ready 'U' true ∈ eventsOf .child s.log := by simp [hevents]
          obtain ⟨party, hreceived⟩ := hconsistent.drained hempty' hsent
          cases party with
          | parent => simp [hevents'] at hreceived
          | child => simp [hevents] at hreceived
        · -- the acknowledgement is in the pipe
          obtain ⟨party, hreceived⟩ := hconsistent.drained hempty (parent_waiting hreach hwait)
          cases party with
          | parent =>
            exact mapChildIdentityAndExit_receives hconsistent.parent_run _ hreceived ⟨_, rfl⟩
          | child => simp [hevents] at hreceived
    · exact absurd hwait (child_not_waiting hreach)
  have hparent : (s.process .parent).Exited := by
    rcases (hblocked .parent).waits with ⟨status, hexit⟩ | ⟨pipe, next, hread, hempty, hopen⟩ |
      ⟨next, hwait, hstatus⟩
    · exact Process.exited_iff.2 ⟨status, hexit⟩
    · exfalso
      obtain ⟨rfl, hevents⟩ := parent_reading hreach hread
      obtain ⟨party, hclosed, halive⟩ := hconsistent.open_iff.1 hopen
      cases party with
      | parent => simp [hevents] at hclosed
      | child => exact halive hchild
    · obtain ⟨status, hexit⟩ := Process.exited_iff.1 hchild
      exact absurd hexit (hstatus rfl status)
  rintro (_ | _)
  · exact hparent
  · exact hchild

/-- **Nobody is left waiting.**  However far the two have come, and whatever has failed, every run ends,
    and without further faults it ends with both processes gone. -/
theorem handshake_completes (hreach : Reaches (start child uid gid) s) :
    Acc (fun s' s => Steps s s') s ∧
      ∃ s', Relation.ReflTransGen SoundSteps s s' ∧ ∀ party, (s'.process party).Exited :=
  ⟨steps_wf.apply s, completes (fun _ => blocked_exited) s hreach⟩

/-- A child that is killed before it signals. -/
theorem handshake_completes_killed :
    ∃ s s', Reaches (start 7 1000 100) s ∧ s.process .child = .exit 137 ∧
      Relation.ReflTransGen SoundSteps s s' ∧ ∀ party, (s'.process party).Exited := by
  have hstart : Reaches (start 7 1000 100) (start 7 1000 100) := .refl
  have hkilled := hstart.step .child (e := .killed 9) rfl trivial
  obtain ⟨-, s', hs', hexited⟩ := handshake_completes hkilled
  exact ⟨_, s', hkilled, rfl, hs', hexited⟩

end RulesMkosi.IdentityHandshake
