/-
  The symlink cycles that are reported.

  `_resolve_link_path` raises "symlink cycle" as soon as the expansion of a path meets a
  link for the second time.  That is a cycle if the link is met while its own target is
  expanded; a path that passes a directory link twice, one passage after the other, is
  rejected as well.
-/
import RulesMkosi.ExtractContainment

namespace RulesMkosi.ExtractTree

open FileTree

/-- `ValueError("symlink cycle involving: ...")` -/
def IsCycle (e : Exn) : Prop := ∃ p, e = .valueError ("symlink cycle involving: " ++ text p)

def escapeError (relative : Path) : Exn :=
  .valueError ("symlink escapes output root: " ++ text relative)

/-- Two messages that start differently. -/
theorem append_ne_of_not_prefix {a b x y : String} (h : ¬ a.toList <+: b.toList)
    (h' : ¬ b.toList <+: a.toList) : a ++ x ≠ b ++ y := by
  intro heq
  have hlist := congrArg String.toList heq
  rw [String.toList_append, String.toList_append] at hlist
  rcases List.prefix_or_prefix_of_prefix (List.prefix_append a.toList x.toList)
    (hlist ▸ List.prefix_append b.toList y.toList) with hp | hp
  · exact h hp
  · exact h' hp

theorem not_isCycle_escapeError (relative : Path) : ¬ IsCycle (escapeError relative) := by
  rintro ⟨p, h⟩
  exact append_ne_of_not_prefix (by decide) (by decide) (Exn.valueError.inj h)

/-! ## The number of rounds -/

section Rounds
variable {index : Dict Path Member}

theorem pendingComponents_cons (item : Path × Member) (followed : List Path) :
    pendingComponents (item :: index) followed =
      (if item.2.kind = .symlink ∧ item.1 ∉ followed then
        (rawLinkComponents item.1 item.2.linkname).length else 0) +
        pendingComponents index followed := by
  unfold pendingComponents
  rw [List.filter_cons]
  split_ifs with h₁ h₂ h₂
  · rw [List.map_cons, List.sum_cons]
  · simp at h₁; exact absurd h₁ h₂
  · simp at h₁; exact absurd (h₁ h₂.1) h₂.2
  · rw [Nat.zero_add]

theorem pendingComponents_concat_le (followed : List Path) (current : Path) :
    pendingComponents index (followed ++ [current]) ≤ pendingComponents index followed := by
  induction index with
  | nil => exact le_rfl
  | cons item index ih =>
    rw [pendingComponents_cons, pendingComponents_cons]
    refine Nat.add_le_add ?_ ih
    split_ifs with h₁ h₂ h₂
    · exact le_rfl
    · exact absurd ⟨h₁.1, fun h => h₁.2 (List.mem_append_left _ h)⟩ h₂
    · exact Nat.zero_le _
    · exact le_rfl

/-- A link that is followed is not followed again. -/
theorem pendingComponents_follow {followed : List Path} {current : Path} {linkname : Str}
    (hlink : linknameAt index current = some linkname) (hcurrent : current ∉ followed) :
    (rawLinkComponents current linkname).length + pendingComponents index (followed ++ [current]) ≤
      pendingComponents index followed := by
  induction index with
  | nil => simp [linknameAt] at hlink
  | cons item index ih =>
    rw [pendingComponents_cons, pendingComponents_cons]
    by_cases hitem : item.1 = current
    · -- the item that the lookup finds
      have hmember : item.2.kind = .symlink ∧ item.2.linkname = linkname := by
        simpa [linknameAt, Dict.get, hitem] using hlink
      have hnot : ¬ (item.2.kind = .symlink ∧ item.1 ∉ followed ++ [current]) := by
        simp [hitem]
      have hyes : item.2.kind = .symlink ∧ item.1 ∉ followed := ⟨hmember.1, hitem ▸ hcurrent⟩
      rw [if_neg hnot, if_pos hyes, Nat.zero_add, hitem, hmember.2]
      exact Nat.add_le_add_left (pendingComponents_concat_le followed current) _
    · have hrest : linknameAt index current = some linkname := by
        simpa [linknameAt, Dict.get, hitem] using hlink
      have hsame : (item.1 ∉ followed ++ [current]) ↔ item.1 ∉ followed := by
        simp [hitem]
      simp only [hsame]
      have := ih hrest
      omega

end Rounds

/-! ## The expansion of a path -/

section Expansion
variable {index : Dict Path Member} {relative : Path} {s s' : Expansion} {component : Str}
  {rest : List Str}

/-- The invariant of the loop of `_resolve_link_path`. -/
structure Expanding (index : Dict Path Member) (s : Expansion) : Prop where
  no_slash : ∀ c ∈ s.components, '/' ∉ c
  free : LinkFree (linknameAt index) s.resolved
  nodup : s.dependencies.Nodup
  links : ∀ d ∈ s.dependencies, d ∈ (ofKind .symlink index).keys
  count : s.resolutions = s.dependencies.length

/-- The rounds that are left. -/
def Expansion.measure (index : Dict Path Member) (s : Expansion) : ℕ :=
  s.components.length + pendingComponents index s.dependencies

/-- The links that the expansion from `s` on follows, after those it has followed. -/
def Expansion.Traces (index : Dict Path Member) (s : Expansion) (trace : List Path) : Prop :=
  ∃ after, Follows (linknameAt index) s.resolved s.components after ∧ trace = s.dependencies ++ after

/-- What one round does. -/
structure Round (index : Dict Path Member) (s s' : Expansion) : Prop where
  expanding : Expanding index s'
  measure : s'.measure index < s.measure index
  resolves : ∀ f, Resolves (linknameAt index) s.resolved s.components f ↔
    Resolves (linknameAt index) s'.resolved s'.components f
  trace_of : ∀ trace, s'.Traces index trace → s.Traces index trace
  trace_prefix : ∀ trace, s.Traces index trace → ∃ trace', s'.Traces index trace' ∧ trace <+: trace'

theorem length_dependencies_le (h : Expanding index s) :
    s.dependencies.length ≤ (ofKind .symlink index).length := by
  have hle := (List.subperm_of_subset h.nodup h.links).length_le
  rwa [Dict.keys, List.length_map] at hle

/-- A round that only moves the directory. -/
theorem round_of_move {resolved : Path} (hs : Expanding index s)
    (hcomponents : s.components = component :: rest)
    (hfree : LinkFree (linknameAt index) resolved)
    (hresolves : ∀ f, Resolves (linknameAt index) s.resolved (component :: rest) f ↔
      Resolves (linknameAt index) resolved rest f)
    (hfollows : ∀ trace, Follows (linknameAt index) s.resolved (component :: rest) trace ↔
      Follows (linknameAt index) resolved rest trace) :
    Round index s { s with components := rest, resolved := resolved } := by
  have htrace : ∀ trace, Expansion.Traces index { s with components := rest, resolved := resolved }
      trace ↔ s.Traces index trace := by
    intro trace
    simp only [Expansion.Traces, hcomponents, hfollows]
  refine ⟨⟨?_, hfree, hs.nodup, hs.links, hs.count⟩, ?_, ?_, fun trace => (htrace trace).1, ?_⟩
  · intro c hc
    exact hs.no_slash c (by rw [hcomponents]; exact List.mem_cons_of_mem _ hc)
  · simp [Expansion.measure, hcomponents]
  · rw [hcomponents]
    exact hresolves
  · exact fun trace h => ⟨trace, (htrace trace).2 h, List.prefix_rfl⟩

/-- The directory of a link leads to itself, so its target starts there. -/
theorem resolves_rawLinkComponents {r f : Path} {c linkname : Str} {more : List Str}
    (hfree : LinkFree (linknameAt index) r) :
    Resolves (linknameAt index) [] (rawLinkComponents (r ++ [c]) linkname ++ more) f ↔
      Resolves (linknameAt index) (linkStart r linkname) (components linkname ++ more) f := by
  unfold rawLinkComponents linkStart
  split_ifs with habsolute
  · exact Iff.rfl
  · rw [List.dropLast_concat, List.append_assoc, hfree.resolves.append_iff]

theorem follows_rawLinkComponents {r : Path} {c linkname : Str} {more : List Str}
    {trace : List Path} (hfree : LinkFree (linknameAt index) r) :
    Follows (linknameAt index) [] (rawLinkComponents (r ++ [c]) linkname ++ more) trace ↔
      Follows (linknameAt index) (linkStart r linkname) (components linkname ++ more) trace := by
  unfold rawLinkComponents linkStart
  split_ifs with habsolute
  · exact Iff.rfl
  · rw [List.dropLast_concat, List.append_assoc, hfree.follows]

/-- A round that follows a link. -/
theorem round_of_follow {linkname : Str} (hindex : Indexed index) (hs : Expanding index s)
    (hcomponents : s.components = component :: rest) (hname : IsName component)
    (hlink : linknameAt index (s.resolved ++ [component]) = some linkname)
    (hnew : s.resolved ++ [component] ∉ s.dependencies) :
    Round index s ⟨rawLinkComponents (s.resolved ++ [component]) linkname ++ rest, [],
      s.dependencies ++ [s.resolved ++ [component]], s.resolutions + 1⟩ := by
  have hslash := List.forall_mem_cons.1 (hcomponents ▸ hs.no_slash)
  refine ⟨⟨?_, linkFree_nil, ?_, ?_, ?_⟩, ?_, ?_, ?_, ?_⟩
  · intro c hc
    rcases List.mem_append.1 hc with hc | hc
    · refine no_slash_rawLinkComponents (fun d hd => ?_) c hc
      rcases List.mem_append.1 hd with hd | hd
      · exact (hs.free.names d hd).no_slash
      · rw [List.mem_singleton.1 hd]
        exact hname.no_slash
    · exact hslash.2 c hc
  · exact List.nodup_append.2 ⟨hs.nodup, List.nodup_singleton _, by
      intro a ha b hb hab
      rw [List.mem_singleton.1 hb] at hab
      exact hnew (hab ▸ ha)⟩
  · intro d hd
    rcases List.mem_append.1 hd with hd | hd
    · exact hs.links d hd
    · rw [List.mem_singleton.1 hd]
      obtain ⟨member, hmember, -⟩ := (linknameAt_eq_some hindex).1 hlink
      exact Dict.mem_keys_of_get hmember
  · simp [hs.count]
  · have hpending := pendingComponents_follow hlink hnew
    simp only [Expansion.measure, hcomponents, List.length_append, List.length_cons]
    omega
  · intro f
    rw [hcomponents, resolves_follow hname hlink, resolves_rawLinkComponents hs.free]
  · rintro trace ⟨after, hafter, rfl⟩
    refine ⟨(s.resolved ++ [component]) :: after, ?_, by simp⟩
    rw [hcomponents]
    exact .follow hname hlink ((follows_rawLinkComponents hs.free).1 hafter)
  · rintro trace ⟨after, hafter, rfl⟩
    rw [hcomponents, follows_follow hname hlink] at hafter
    rcases hafter with rfl | ⟨after', rfl, hafter'⟩
    · exact ⟨_, ⟨[], .stop, rfl⟩, by simp⟩
    · refine ⟨_, ⟨after', (follows_rawLinkComponents hs.free).2 hafter', rfl⟩, by simp⟩

/-- **One round of `_resolve_link_path`.**  It goes on, or stops at the root, or at a link
    that is met again. -/
theorem expandComponent_cases (relative : Path) (hindex : Indexed index) (hs : Expanding index s)
    (hcomponents : s.components = component :: rest) :
    (∃ s', expandComponent (ofKind .symlink index) index relative s component rest = .ok s' ∧
      Round index s s') ∨
    (expandComponent (ofKind .symlink index) index relative s component rest =
        .error (escapeError relative) ∧ component = dotDot ∧ s.resolved = []) ∨
    ∃ e, expandComponent (ofKind .symlink index) index relative s component rest = .error e ∧
      IsCycle e ∧ ∃ trace, s.Traces index trace ∧ ¬ trace.Nodup := by
  unfold expandComponent
  have hslash := List.forall_mem_cons.1 (hcomponents ▸ hs.no_slash)
  by_cases hskip : component = [] ∨ component = dot
  · rw [if_pos hskip]
    exact .inl ⟨_, rfl, round_of_move hs hcomponents hs.free (fun f => resolves_skip hskip)
      fun trace => follows_skip hskip⟩
  rw [if_neg hskip]
  by_cases hdots : component = dotDot
  · subst hdots
    by_cases hroot : s.resolved = []
    · rw [if_pos rfl, if_pos hroot]
      exact .inr (.inl ⟨rfl, rfl, hroot⟩)
    · rw [if_pos rfl, if_neg hroot]
      refine .inl ⟨_, rfl, round_of_move hs hcomponents hs.free.dropLast (fun f => ?_)
        fun trace => follows_up hroot⟩
      rw [resolves_up, and_iff_right hroot]
  rw [if_neg hdots]
  have hname : IsName component := ⟨fun h => hskip (.inl h), fun h => hskip (.inr h), hdots, hslash.1⟩
  cases hlink : linknameAt index (s.resolved ++ [component]) with
  | none =>
    exact .inl ⟨_, rfl, round_of_move hs hcomponents (hs.free.concat hname hlink)
      (fun f => resolves_step hname hlink) fun trace => follows_step hname hlink⟩
  | some linkname =>
    dsimp only
    unfold expandLink
    by_cases hseen : s.resolved ++ [component] ∈ s.dependencies
    · refine .inr (.inr ⟨.valueError ("symlink cycle involving: " ++ text (s.resolved ++ [component])),
        by simp [raiseIf, hseen], ⟨_, rfl⟩, _, ⟨[s.resolved ++ [component]], ?_, rfl⟩, ?_⟩)
      · rw [hcomponents]
        exact .follow hname hlink .stop
      · intro hnodup
        exact (List.nodup_append.1 hnodup).2.2 _ hseen _ (List.mem_singleton.2 rfl) rfl
    · refine .inl ⟨_, ?_, round_of_follow hindex hs hcomponents hname hlink hseen⟩
      have hbound : ¬ (ofKind .symlink index).length + (rawLinkComponents
          (s.resolved ++ [component]) linkname ++ rest).length + 1 < s.resolutions + 1 := by
        have := length_dependencies_le hs
        have := hs.count
        omega
      simp only [raiseIf, if_neg hseen, if_neg hbound, ok_bind]
      rfl

/-- What the loop returns. -/
theorem resolveLoop_ok (hindex : Indexed index) {f : Path} {direct : List Path} :
    ∀ {rounds : ℕ} {s : Expansion}, Expanding index s →
      resolveLoop (ofKind .symlink index) index relative rounds s = .ok (f, direct) →
      direct.Nodup ∧ s.Traces index direct ∧ ∀ trace, s.Traces index trace → trace <+: direct
  | rounds, s, hs, h => by
    unfold resolveLoop at h
    split at h
    · next hnil =>
      cases h
      refine ⟨hs.nodup, ⟨[], .stop, by simp⟩, ?_⟩
      rintro trace ⟨after, hafter, rfl⟩
      rw [hnil] at hafter
      rw [follows_nil hafter]
      simp
    · cases h
    · next component rest rounds hcons =>
      obtain ⟨s', hs', h⟩ := bind_eq_ok.1 h
      rcases expandComponent_cases relative hindex hs hcons with
        ⟨s'', hs'', hround⟩ | ⟨herror, -⟩ | ⟨e, herror, -⟩
      · obtain rfl : s'' = s' := Except.ok.inj (hs''.symm.trans hs')
        obtain ⟨hnodup, htrace, hmax⟩ := resolveLoop_ok hindex hround.expanding h
        refine ⟨hnodup, hround.trace_of _ htrace, fun trace ht => ?_⟩
        obtain ⟨trace', ht', hp⟩ := hround.trace_prefix trace ht
        exact hp.trans (hmax trace' ht')
      · rw [herror] at hs'
        cases hs'
      · rw [herror] at hs'
        cases hs'

/-- **What the loop raises.**  It does not run out of rounds: it raises at the root, before
    any link is met again, or at a link that is met again. -/
theorem resolveLoop_error (hindex : Indexed index) {e : Exn} :
    ∀ {rounds : ℕ} {s : Expansion}, Expanding index s → s.measure index ≤ rounds →
      resolveLoop (ofKind .symlink index) index relative rounds s = .error e →
      (e = escapeError relative ∧ (∀ trace, s.Traces index trace → trace.Nodup) ∧
        ∀ f, ¬ Resolves (linknameAt index) s.resolved s.components f) ∨
      (IsCycle e ∧ ∃ trace, s.Traces index trace ∧ ¬ trace.Nodup)
  | rounds, s, hs, hrounds, h => by
    unfold resolveLoop at h
    split at h
    · cases h
    · next component rest hcons =>
      rw [Expansion.measure, hcons, List.length_cons] at hrounds
      omega
    · next component rest rounds hcons =>
      rcases expandComponent_cases relative hindex hs hcons with
        ⟨s', hs', hround⟩ | ⟨herror, hdots, hroot⟩ | ⟨e', herror, hcycle, hrepeat⟩
      · rw [hs', ok_bind] at h
        have hmeasure := hround.measure
        rcases resolveLoop_error hindex hround.expanding (by omega) h with
          ⟨he, hnodup, hend⟩ | ⟨hcycle, trace, htrace, hrepeat⟩
        · refine .inl ⟨he, fun trace ht => ?_, fun f => by rw [hround.resolves]; exact hend f⟩
          obtain ⟨trace', ht', hp⟩ := hround.trace_prefix trace ht
          exact (hnodup trace' ht').sublist hp.sublist
        · exact .inr ⟨hcycle, trace, hround.trace_of trace htrace, hrepeat⟩
      · rw [herror, error_bind] at h
        cases h
        subst hdots
        refine .inl ⟨rfl, ?_, fun f => ?_⟩
        · rintro trace ⟨after, hafter, rfl⟩
          rw [hcons, hroot] at hafter
          rw [follows_root hafter, List.append_nil]
          exact hs.nodup
        · rw [hcons, hroot, resolves_up]
          exact fun h => h.1 rfl
      · rw [herror, error_bind] at h
        cases h
        exact .inr ⟨hcycle, hrepeat⟩

end Expansion

/-! ## The resolution of a link -/

section Link
variable {index : Dict Path Member} {p : Path} {linkname : Str}

theorem names_of_linknameAt (hindex : Indexed index) (hlink : linknameAt index p = some linkname) :
    Names p ∧ p ≠ [] := by
  obtain ⟨member, hmember, -⟩ := (linknameAt_eq_some hindex).1 hlink
  exact hindex.names p (Dict.mem_keys_of_get ((get_ofKind hindex).1 hmember).1)

/-- The loop starts with the components of the link and rounds enough. -/
theorem resolveLinkPath_eq (hindex : Indexed index) (hlink : linknameAt index p = some linkname) :
    Expanding index ⟨rawLinkComponents p linkname, [], [], 0⟩ ∧
      resolveLinkPath (ofKind .symlink index) index p =
        resolveLoop (ofKind .symlink index) index p
          (Expansion.measure index ⟨rawLinkComponents p linkname, [], [], 0⟩)
          ⟨rawLinkComponents p linkname, [], [], 0⟩ := by
  obtain ⟨member, hmember, rfl⟩ := (linknameAt_eq_some hindex).1 hlink
  have hnames := (names_of_linknameAt hindex hlink).1
  refine ⟨⟨?_, linkFree_nil, List.nodup_nil, fun d hd => absurd hd List.not_mem_nil, rfl⟩, ?_⟩
  · exact no_slash_rawLinkComponents fun c hc => (hnames c hc).no_slash
  · rw [resolveLinkPath, lookup_eq_ok.2 hmember, ok_bind]
    rfl

theorem traces_start {trace : List Path} :
    Expansion.Traces index ⟨rawLinkComponents p linkname, [], [], 0⟩ trace ↔
      Follows (linknameAt index) [] (rawLinkComponents p linkname) trace := by
  simp [Expansion.Traces]

theorem resolveLinkPath_ok (hindex : Indexed index) (hlink : linknameAt index p = some linkname)
    {f : Path} {direct : List Path}
    (h : resolveLinkPath (ofKind .symlink index) index p = .ok (f, direct)) :
    Resolves (linknameAt index) [] (rawLinkComponents p linkname) f ∧ direct.Nodup ∧
      Follows (linknameAt index) [] (rawLinkComponents p linkname) direct ∧
      ∀ trace, Follows (linknameAt index) [] (rawLinkComponents p linkname) trace →
        trace <+: direct := by
  obtain ⟨hexpanding, heq⟩ := resolveLinkPath_eq hindex hlink
  rw [heq] at h
  obtain ⟨hnodup, htrace, hmax⟩ := resolveLoop_ok hindex hexpanding h
  refine ⟨?_, hnodup, traces_start.1 htrace, fun trace ht => hmax trace (traces_start.2 ht)⟩
  exact resolves_of_resolveLoop hexpanding.no_slash linkFree_nil h

theorem resolveLinkPath_error (hindex : Indexed index) (hlink : linknameAt index p = some linkname)
    {e : Exn} (h : resolveLinkPath (ofKind .symlink index) index p = .error e) :
    (e = escapeError p ∧
      (∀ trace, Follows (linknameAt index) [] (rawLinkComponents p linkname) trace → trace.Nodup) ∧
      ∀ f, ¬ Resolves (linknameAt index) [] (rawLinkComponents p linkname) f) ∨
    (IsCycle e ∧ ∃ trace, Follows (linknameAt index) [] (rawLinkComponents p linkname) trace ∧
      ¬ trace.Nodup) := by
  obtain ⟨hexpanding, heq⟩ := resolveLinkPath_eq hindex hlink
  rw [heq] at h
  rcases resolveLoop_error hindex hexpanding le_rfl h with
    ⟨he, hnodup, hend⟩ | ⟨hcycle, trace, htrace, hrepeat⟩
  · exact .inl ⟨he, fun trace ht => hnodup trace (traces_start.2 ht), hend⟩
  · exact .inr ⟨hcycle, trace, traces_start.1 htrace, hrepeat⟩

/-- **When a cycle is reported.**  Exactly if the expansion of the link meets a link twice. -/
theorem resolveLinkPath_cycle_iff (hindex : Indexed index)
    (hlink : linknameAt index p = some linkname) :
    (∃ e, resolveLinkPath (ofKind .symlink index) index p = .error e ∧ IsCycle e) ↔
      ∃ trace, Follows (linknameAt index) [] (rawLinkComponents p linkname) trace ∧
        ¬ trace.Nodup := by
  constructor
  · rintro ⟨e, he, hcycle⟩
    rcases resolveLinkPath_error hindex hlink he with ⟨rfl, -⟩ | ⟨-, hrepeat⟩
    · exact absurd hcycle (not_isCycle_escapeError p)
    · exact hrepeat
  · rintro ⟨trace, htrace, hrepeat⟩
    cases h : resolveLinkPath (ofKind .symlink index) index p with
    | ok result =>
      obtain ⟨-, hnodup, -, hmax⟩ := resolveLinkPath_ok hindex hlink h
      exact absurd (hnodup.sublist (hmax trace htrace).sublist) hrepeat
    | error e =>
      rcases resolveLinkPath_error hindex hlink h with ⟨-, hnodup, -⟩ | ⟨hcycle, -⟩
      · exact absurd (hnodup trace htrace) hrepeat
      · exact ⟨e, rfl, hcycle⟩

/-- The target of a link that is met has fewer dependencies. -/
theorem length_direct_lt (hindex : Indexed index) (hlink : linknameAt index p = some linkname)
    {f g d : Path} {direct direct' : List Path}
    (h : resolveLinkPath (ofKind .symlink index) index p = .ok (f, direct)) (hd : d ∈ direct)
    (h' : resolveLinkPath (ofKind .symlink index) index d = .ok (g, direct')) :
    direct'.length < direct.length := by
  obtain ⟨-, -, hfollows, hmax⟩ := resolveLinkPath_ok hindex hlink h
  obtain ⟨before, after, rfl⟩ := List.append_of_mem hd
  obtain ⟨target, hdlink, hfree, htarget⟩ := hfollows.of_target linkFree_nil
  obtain ⟨-, -, hdirect', -⟩ := resolveLinkPath_ok hindex hdlink h'
  obtain ⟨q, c, rfl⟩ := (List.eq_nil_or_concat' d).resolve_left (names_of_linknameAt hindex hdlink).2
  rw [List.dropLast_concat] at hfree htarget
  rw [← List.append_nil (rawLinkComponents _ _), follows_rawLinkComponents hfree,
    List.append_nil] at hdirect'
  have hlength := (hmax _ (htarget direct' hdirect')).length_le
  simp only [List.length_append, List.length_cons] at hlength ⊢
  omega

end Link

/-! ## The search over the links -/

section Search
variable {index : Dict Path Member} {t : Tree}

/-- The links whose visit is under way. -/
def SymlinkGraph.Visiting (graph : SymlinkGraph) (p : Path) : Prop :=
  graph.state.get p = some .visiting

/-- A visit that returns leaves no other link under way. -/
theorem visiting_visitSymlink {symlinks : Dict Path Member} :
    ∀ {frames : ℕ} {graph graph' : SymlinkGraph} {p : Path},
      visitSymlink symlinks index t frames graph p = .ok graph' →
      ∀ q, graph'.Visiting q ↔ graph.Visiting q
  | 0, _, _, _, h => by cases h
  | frames + 1, graph, graph', p, h => by
    rw [visitSymlink] at h
    split at h
    · cases h
    · cases h
      exact fun q => Iff.rfl
    · next hnone =>
      simp only [bind_eq_ok, pure_eq_ok] at h
      obtain ⟨⟨target, direct⟩, -, graph₁, hfold, -, -, rfl⟩ := h
      intro q
      have hfold' : graph₁.Visiting q ↔ ({ graph with state := graph.state.set p .visiting } :
          SymlinkGraph).Visiting q :=
        foldlM_mem_inv (fun g => SymlinkGraph.Visiting g q ↔ _)
          (fun _ _ _ _ ih hvisit => (visiting_visitSymlink hvisit q).trans ih) Iff.rfl hfold
      simp only [SymlinkGraph.Visiting, Dict.get_set] at hfold' ⊢
      split_ifs at hfold' ⊢ with hpq
      · rw [← hpq, hnone]
        simp
      · exact hfold'

theorem not_isCycle_dangling {symlinks : Dict Path Member} {p : Path} :
    ¬ IsCycle (danglingError symlinks p) := by
  rintro ⟨q, h⟩
  rw [danglingError, Exn.valueError.injEq, String.append_assoc, String.append_assoc] at h
  exact append_ne_of_not_prefix (by decide) (by decide) h

theorem not_isCycle_recursionError : ¬ IsCycle recursionError := by
  rintro ⟨q, h⟩
  cases h

/-- The links under way lead to `p`: each has more dependencies. -/
def Leads (index : Dict Path Member) (graph : SymlinkGraph) (p : Path) : Prop :=
  ∀ q, graph.Visiting q → ∃ target direct,
    resolveLinkPath (ofKind .symlink index) index q = .ok (target, direct) ∧
      ∀ f direct', resolveLinkPath (ofKind .symlink index) index p = .ok (f, direct') →
        direct'.length < direct.length

/-- No visit meets a link that is under way. -/
theorem not_isCycle_visitSymlink (hindex : Indexed index)
    (hlinks : ∀ p e, p ∈ (ofKind .symlink index).keys →
      resolveLinkPath (ofKind .symlink index) index p = .error e → ¬ IsCycle e) :
    ∀ {frames : ℕ} {graph : SymlinkGraph} {p : Path} {e : Exn}, p ∈ (ofKind .symlink index).keys →
      Leads index graph p →
      visitSymlink (ofKind .symlink index) index t frames graph p = .error e → ¬ IsCycle e
  | 0, _, _, _, _, _, h => by
    cases h
    exact not_isCycle_recursionError
  | frames + 1, graph, p, e, hp, hleads, h => by
    rw [visitSymlink] at h
    split at h
    · next hvisiting =>
      obtain ⟨target, direct, hresult, hlt⟩ := hleads p hvisiting
      exact absurd (hlt _ _ hresult) (lt_irrefl _)
    · cases h
    · rcases bind_eq_error.1 h with h | ⟨⟨target, direct⟩, hresult, h⟩
      · exact hlinks p e hp h
      rcases bind_eq_error.1 h with h | ⟨graph₁, -, h⟩
      · -- the links that are met have fewer dependencies than `p`, and `p` than those under way
        obtain ⟨member, hmember⟩ := Dict.exists_get_of_mem_keys hp
        have hlink := (linknameAt_eq_some hindex).2 ⟨member, hmember, rfl⟩
        obtain ⟨-, -, hfollows, -⟩ := resolveLinkPath_ok hindex hlink hresult
        obtain ⟨graph', d, hd, hvisiting, hraise⟩ := foldlM_eq_error
          (fun g : SymlinkGraph => ∀ q, g.Visiting q → q = p ∨ graph.Visiting q)
          (fun _ _ _ _ ih hvisit q hq => ih q ((visiting_visitSymlink hvisit q).1 hq)) (by
            intro q hq
            simp only [SymlinkGraph.Visiting, Dict.get_set] at hq ⊢
            split_ifs at hq with hpq
            · exact .inl hpq.symm
            · exact .inr hq) h
        have hdirect : d ∈ direct := (List.mem_filter.1 hd).1
        refine not_isCycle_visitSymlink hindex hlinks ?_ ?_ hraise
        · obtain ⟨before, after, hsplit⟩ := List.append_of_mem hdirect
          rw [hsplit] at hfollows
          obtain ⟨dtarget, hdlink, -⟩ := hfollows.of_target linkFree_nil
          obtain ⟨dmember, hdmember, -⟩ := (linknameAt_eq_some hindex).1 hdlink
          exact Dict.mem_keys_of_get hdmember
        · intro q hq
          rcases hvisiting q hq with rfl | hq
          · exact ⟨target, direct, hresult, fun f direct' h' =>
              length_direct_lt hindex hlink hresult hdirect h'⟩
          · obtain ⟨qtarget, qdirect, hqresult, hqlt⟩ := hleads q hq
            refine ⟨qtarget, qdirect, hqresult, fun f direct' h' => ?_⟩
            exact (length_direct_lt hindex hlink hresult hdirect h').trans (hqlt _ _ hresult)
      rcases bind_eq_error.1 h with h | ⟨-, -, h⟩
      · rw [← (raiseIf_eq_error.1 h).2]
        exact not_isCycle_dangling
      · cases h

/-- The search raises no cycle of its own. -/
theorem not_isCycle_validateSymlinkGraph (hindex : Indexed index)
    (hlinks : ∀ p e, p ∈ (ofKind .symlink index).keys →
      resolveLinkPath (ofKind .symlink index) index p = .error e → ¬ IsCycle e) {frames : ℕ}
    {e : Exn} (h : validateSymlinkGraph (ofKind .symlink index) index frames t = .error e) :
    ¬ IsCycle e := by
  rcases bind_eq_error.1 h with h | ⟨graph, -, h⟩
  · obtain ⟨graph, p, hp, hvisiting, hraise⟩ := foldlM_eq_error
      (fun g : SymlinkGraph => ∀ q, ¬ g.Visiting q)
      (fun _ _ _ _ ih hvisit q hq => ih q ((visiting_visitSymlink hvisit q).1 hq))
      (fun q hq => by cases hq) h
    exact not_isCycle_visitSymlink hindex hlinks (mem_sortBy.1 hp)
      (fun q hq => absurd hq (hvisiting q)) hraise
  · cases h

end Search

/-! ## Cycles and lookups -/

/-- A tree whose links are the symbolic links of the members, below real directories. -/
structure Carries (t : Tree) (index : Dict Path Member) : Prop where
  link : ∀ p target, t.node p = some (.link target) ↔ linknameAt index p = some target
  dirs : ∀ p target, t.node p = some (.link target) → FileTree.Tree.AllDirs t p.dropLast

/-- The lookup of the path ends. -/
def Terminates (t : Tree) (p : Path) : Prop := ∃ outcome, Lookup t [] p outcome

/-- The expansion of a link whose lookup ends meets no link twice. -/
def MeetsOnce (t : Tree) (index : Dict Path Member) : Prop :=
  ∀ p linkname, linknameAt index p = some linkname → Terminates t p →
    ∀ trace, Follows (linknameAt index) [] (rawLinkComponents p linkname) trace → trace.Nodup

/-- Where the lookup of a link succeeds, the expansion of the link leads. -/
theorem resolves_of_lookup {t : Tree} {index : Dict Path Member} (hindex : Indexed index)
    (ht : Carries t index) {p f : Path} {linkname : Str}
    (hlink : linknameAt index p = some linkname) (h : Lookup t [] p (.found f)) :
    Resolves (linknameAt index) [] (rawLinkComponents p linkname) f := by
  obtain ⟨hnames, hne⟩ := names_of_linknameAt hindex hlink
  have hdirs := ht.dirs p linkname ((ht.link p linkname).2 hlink)
  obtain ⟨q, c, rfl⟩ := (List.eq_nil_or_concat' p).resolve_left hne
  rw [List.dropLast_concat] at hdirs
  have hfree : LinkFree (linknameAt index) q := by
    refine ⟨fun d hd => hnames d (by simp [hd]), fun r hr _ => ?_⟩
    by_contra hsome
    obtain ⟨target, htarget⟩ := Option.ne_none_iff_exists'.1 hsome
    rw [← ht.link, hdirs r hr] at htarget
    cases htarget
  have hresolves := h.resolves ht.link rfl
  rw [hfree.resolves.append_iff, resolves_follow (hnames c (by simp)) hlink, List.append_nil]
    at hresolves
  rw [← List.append_nil (rawLinkComponents _ _), resolves_rawLinkComponents hfree, List.append_nil]
  exact hresolves

/-- **Cycles are reported exactly where no link is met twice.**  For the members of any archive
    and a tree with their links below real directories: `_resolve_link_path` reports a cycle
    only for links whose lookup does not end, and returns the place that the lookup of a link
    finds, if and only if no link whose lookup ends meets a link twice.  Then a cycle that
    `_validate_symlink_graph` raises means that the lookup of some link does not end. -/
theorem symlinkCycle_exact_iff {source : List Member} {index : Dict Path Member} {t : Tree}
    (hsource : indexMembers source = .ok index) (ht : Carries t index) :
    (MeetsOnce t index ↔ ∀ p ∈ (ofKind .symlink index).keys,
      (∀ e, resolveLinkPath (ofKind .symlink index) index p = .error e → IsCycle e →
        ¬ Terminates t p) ∧
      ∀ f, Lookup t [] p (.found f) →
        ∃ direct, resolveLinkPath (ofKind .symlink index) index p = .ok (f, direct)) ∧
    (MeetsOnce t index → ∀ frames t₀ e,
      validateSymlinkGraph (ofKind .symlink index) index frames t₀ = .error e → IsCycle e →
      ∃ p ∈ (ofKind .symlink index).keys, ¬ Terminates t p) := by
  have hindex := indexed_indexMembers hsource
  have hcycle : MeetsOnce t index → ∀ p e, p ∈ (ofKind .symlink index).keys →
      resolveLinkPath (ofKind .symlink index) index p = .error e → IsCycle e →
      ¬ Terminates t p := by
    intro honce p e hp he hcycle hends
    obtain ⟨member, hmember⟩ := Dict.exists_get_of_mem_keys hp
    have hlink := (linknameAt_eq_some hindex).2 ⟨member, hmember, rfl⟩
    obtain ⟨trace, htrace, hrepeat⟩ := (resolveLinkPath_cycle_iff hindex hlink).1 ⟨e, he, hcycle⟩
    exact hrepeat (honce p _ hlink hends trace htrace)
  refine ⟨⟨fun honce p hp => ⟨fun e => hcycle honce p e hp, fun f hf => ?_⟩, ?_⟩, ?_⟩
  · obtain ⟨member, hmember⟩ := Dict.exists_get_of_mem_keys hp
    have hlink := (linknameAt_eq_some hindex).2 ⟨member, hmember, rfl⟩
    have hresolves := resolves_of_lookup hindex ht hlink hf
    cases h : resolveLinkPath (ofKind .symlink index) index p with
    | ok result =>
      obtain ⟨f', direct⟩ := result
      obtain ⟨hresolves', -⟩ := resolveLinkPath_ok hindex hlink h
      rw [hresolves'.unique hresolves]
      exact ⟨direct, rfl⟩
    | error e =>
      rcases resolveLinkPath_error hindex hlink h with ⟨-, -, hend⟩ | ⟨hc, -⟩
      · exact absurd hresolves (hend f)
      · exact absurd ⟨_, hf⟩ (hcycle honce p e hp h hc)
  · intro h p linkname hlink hends trace htrace
    by_contra hrepeat
    obtain ⟨e, he, hc⟩ := (resolveLinkPath_cycle_iff hindex hlink).2 ⟨trace, htrace, hrepeat⟩
    obtain ⟨member, hmember, -⟩ := (linknameAt_eq_some hindex).1 hlink
    exact (h p (Dict.mem_keys_of_get hmember)).1 e he hc hends
  · intro honce frames t₀ e he hc
    by_contra hall
    push Not at hall
    refine not_isCycle_validateSymlinkGraph hindex ?_ he hc
    intro p e' hp he' hc'
    exact hcycle honce p e' hp he' hc' (hall p hp)

/-- The link `alias` to a directory, and the link `x` with the given target. -/
def aliasMembers (x : Str) : List Member :=
  [⟨"realdir/file".toList, .file, [], [1]⟩,
    ⟨"alias".toList, .symlink, "realdir".toList, []⟩,
    ⟨"x".toList, .symlink, x, []⟩]

def aliasIndex (x : Str) : Dict Path Member :=
  [(path "realdir/file", ⟨"realdir/file".toList, .file, [], [1]⟩),
    (path "alias", ⟨"alias".toList, .symlink, "realdir".toList, []⟩),
    (path "x", ⟨"x".toList, .symlink, x, []⟩)]

def aliasTree (x : Str) : Tree :=
  [(path "realdir", .dir), (path "realdir/file", .file [1]), (path "alias", .link "realdir".toList),
    (path "x", .link x)]

/-! The target of `x` passes `alias` twice, or once. -/

abbrev twiceMembers : List Member := aliasMembers "alias/../alias/file".toList

abbrev twiceIndex : Dict Path Member := aliasIndex "alias/../alias/file".toList

abbrev twiceTree : Tree := aliasTree "alias/../alias/file".toList

abbrev onceMembers : List Member := aliasMembers "alias/file".toList

abbrev onceIndex : Dict Path Member := aliasIndex "alias/file".toList

abbrev onceTree : Tree := aliasTree "alias/file".toList

theorem indexMembers_twice : indexMembers twiceMembers = .ok twiceIndex := by decide +kernel

theorem indexMembers_once : indexMembers onceMembers = .ok onceIndex := by decide

section
variable {x : Str} {p : Path} {target : Str}

theorem nodup_aliasTree : (Dict.keys (aliasTree x)).Nodup := by
  show [path "realdir", path "realdir/file", path "alias", path "x"].Nodup
  decide

theorem nodup_aliasIndex : (aliasIndex x).keys.Nodup := by
  show [path "realdir/file", path "alias", path "x"].Nodup
  decide

/-- The links of the two tables. -/
theorem node_alias : FileTree.Tree.node (aliasTree x) p = some (.link target) ↔
    (p = path "alias" ∧ target = "realdir".toList) ∨ (p = path "x" ∧ target = x) := by
  constructor
  · intro h
    have hne : p ≠ [] := FileTree.Tree.ne_nil_of_node (t := aliasTree x) (by rw [h]; simp)
    rw [FileTree.Tree.node_of_ne hne] at h
    simpa [aliasTree] using Dict.mem_of_get h
  · rintro (⟨rfl, rfl⟩ | ⟨rfl, rfl⟩)
    · rw [FileTree.Tree.node_of_ne (by decide)]
      exact Dict.get_of_mem nodup_aliasTree (by simp [aliasTree])
    · rw [FileTree.Tree.node_of_ne (by decide)]
      exact Dict.get_of_mem nodup_aliasTree (by simp [aliasTree])

theorem linkname_alias : linknameAt (aliasIndex x) p = some target ↔
    (p = path "alias" ∧ target = "realdir".toList) ∨ (p = path "x" ∧ target = x) := by
  constructor
  · intro h
    obtain ⟨member, hmember, h⟩ := Option.bind_eq_some_iff.1 h
    have hmem := Dict.mem_of_get hmember
    simp only [aliasIndex, List.mem_cons, Prod.mk.injEq, List.not_mem_nil, or_false] at hmem
    rcases hmem with ⟨rfl, rfl⟩ | ⟨rfl, rfl⟩ | ⟨rfl, rfl⟩
    · cases h
    · cases h; exact .inl ⟨rfl, rfl⟩
    · cases h; exact .inr ⟨rfl, rfl⟩
  · rintro (⟨rfl, rfl⟩ | ⟨rfl, rfl⟩)
    · exact Option.bind_eq_some_iff.2
        ⟨_, Dict.get_of_mem nodup_aliasIndex (List.mem_cons_of_mem _ List.mem_cons_self), rfl⟩
    · exact Option.bind_eq_some_iff.2 ⟨_, Dict.get_of_mem nodup_aliasIndex
        (List.mem_cons_of_mem _ (List.mem_cons_of_mem _ List.mem_cons_self)), rfl⟩

theorem carries_alias : Carries (aliasTree x) (aliasIndex x) := by
  refine ⟨fun p target => node_alias.trans linkname_alias.symm, fun p target h => ?_⟩
  have hroot : p.dropLast = [] := by
    rcases node_alias.1 h with ⟨rfl, -⟩ | ⟨rfl, -⟩ <;> rfl
  rw [hroot]
  exact FileTree.Tree.allDirs_nil

end

theorem isName_of_decide {c : Str} (h : c ≠ [] ∧ c ≠ dot ∧ c ≠ dotDot ∧ '/' ∉ c) : IsName c :=
  ⟨h.1, h.2.1, h.2.2.1, h.2.2.2⟩

theorem lookup_alias {rest : List Str} {outcome : Outcome}
    (h : Lookup twiceTree (path "realdir") rest outcome) :
    Lookup twiceTree [] ("alias".toList :: rest) outcome := by
  refine .follow FileTree.Tree.node_nil (isName_of_decide (by decide))
    (node_alias.2 (.inl ⟨rfl, rfl⟩)) (by decide) ?_
  have hnode : FileTree.Tree.node twiceTree ([] ++ ["realdir".toList]) = some .dir := by decide
  exact .step FileTree.Tree.node_nil (isName_of_decide (by decide)) hnode (by simp) h

theorem lookup_twice : Lookup twiceTree [] (path "x") (.found (path "realdir/file")) := by
  refine .follow FileTree.Tree.node_nil (isName_of_decide (by decide))
    (node_alias.2 (.inr ⟨rfl, rfl⟩)) (by decide) ?_
  refine lookup_alias (.up (by decide) (by decide) ?_)
  refine lookup_alias ?_
  have hnode : FileTree.Tree.node twiceTree (path "realdir" ++ ["file".toList]) = some (.file [1]) := by
    decide
  exact .step (by decide) (isName_of_decide (by decide)) hnode (by simp) .done

theorem terminates_twice {p : Path} (hp : p ∈ (ofKind .symlink twiceIndex).keys) :
    Terminates twiceTree p := by
  have hkeys : (ofKind .symlink twiceIndex).keys = [path "alias", path "x"] := by decide
  rw [hkeys, List.mem_cons, List.mem_singleton] at hp
  rcases hp with rfl | rfl
  · exact ⟨_, lookup_alias .done⟩
  · exact ⟨_, lookup_twice⟩

theorem resolveLinkPath_twice : resolveLinkPath (ofKind .symlink twiceIndex) twiceIndex (path "x") =
    .error (.valueError "symlink cycle involving: alias") := by
  decide

/-- The lookup of every link ends, and yet a cycle is reported. -/
theorem symlinkCycle_false :
    indexMembers twiceMembers = .ok twiceIndex ∧ Carries twiceTree twiceIndex ∧
      (∀ p ∈ (ofKind .symlink twiceIndex).keys, Terminates twiceTree p) ∧
      (∃ e, validateSymlinkGraph (ofKind .symlink twiceIndex) twiceIndex 8 twiceTree = .error e ∧
        IsCycle e) ∧
      Lookup twiceTree [] (path "x") (.found (path "realdir/file")) ∧
      resolveLinkPath (ofKind .symlink twiceIndex) twiceIndex (path "x") =
        .error (.valueError "symlink cycle involving: alias") := by
  refine ⟨indexMembers_twice, carries_alias, fun _ => terminates_twice, ?_, lookup_twice,
    resolveLinkPath_twice⟩
  have h : ((validateSymlinkGraph (ofKind .symlink twiceIndex) twiceIndex 8 twiceTree).map
      fun _ => ()) = .error (.valueError "symlink cycle involving: alias") := by
    decide +kernel
  cases hv : validateSymlinkGraph (ofKind .symlink twiceIndex) twiceIndex 8 twiceTree with
  | ok result =>
    rw [hv] at h
    cases h
  | error e =>
    rw [hv] at h
    exact ⟨e, rfl, path "alias", Except.error.inj h⟩

theorem resolveLinkPath_once {p : Path} (hp : p ∈ (ofKind .symlink onceIndex).keys) :
    ∃ result, resolveLinkPath (ofKind .symlink onceIndex) onceIndex p = .ok result := by
  have hkeys : (ofKind .symlink onceIndex).keys = [path "alias", path "x"] := by
    decide +kernel
  have hfirst : resolveLinkPath (ofKind .symlink onceIndex) onceIndex (path "alias") =
      .ok (path "realdir", []) := by
    decide +kernel
  have hsecond : resolveLinkPath (ofKind .symlink onceIndex) onceIndex (path "x") =
      .ok (path "realdir/file", [path "alias"]) := by
    decide
  rw [hkeys, List.mem_cons, List.mem_singleton] at hp
  rcases hp with rfl | rfl
  · exact ⟨_, hfirst⟩
  · exact ⟨_, hsecond⟩

/-- The condition fails for the one target of `x` and holds for the other. -/
theorem symlinkCycle_exact_example :
    (indexMembers twiceMembers = .ok twiceIndex ∧ Carries twiceTree twiceIndex ∧
      ¬ MeetsOnce twiceTree twiceIndex) ∧
    indexMembers onceMembers = .ok onceIndex ∧ Carries onceTree onceIndex ∧
      MeetsOnce onceTree onceIndex := by
  refine ⟨⟨indexMembers_twice, carries_alias, fun honce => ?_⟩, indexMembers_once, carries_alias, ?_⟩
  · have hx : path "x" ∈ (ofKind .symlink twiceIndex).keys := by decide
    have hlinks := (symlinkCycle_exact_iff indexMembers_twice carries_alias).1.1 honce _ hx
    obtain ⟨direct, hresult⟩ := hlinks.2 _ lookup_twice
    rw [resolveLinkPath_twice] at hresult
    cases hresult
  · refine (symlinkCycle_exact_iff indexMembers_once carries_alias).1.2 fun p hp => ?_
    obtain ⟨⟨f, direct⟩, hresult⟩ := resolveLinkPath_once hp
    refine ⟨fun e he => (by cases hresult.symm.trans he), fun f' hf => ⟨direct, ?_⟩⟩
    have hindex := indexed_indexMembers indexMembers_once
    obtain ⟨member, hmember⟩ := Dict.exists_get_of_mem_keys hp
    have hlink := (linknameAt_eq_some hindex).2 ⟨member, hmember, rfl⟩
    have hresolves := (resolveLinkPath_ok hindex hlink hresult).1
    rw [hresult, hresolves.unique (resolves_of_lookup hindex carries_alias hlink hf)]

end RulesMkosi.ExtractTree
