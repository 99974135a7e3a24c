/-
  Hard links of the Debian tools archive: `extract_tree._resolve_hardlink_graph`.

  The search marks the links that it visits and remembers where they lead.  A link under
  way leads to the one that is visited, so meeting it again is a cycle; every link that
  is done has the end of its chain.  The search raises exactly on broken chains, in
  whatever order the links are visited (`visitHardlinks_exact`).
-/
import Mathlib.Data.Finset.Card
import Mathlib.Data.Finset.Filter
import RulesMkosi.ExtractContainment
import RulesMkosi.Lib.Chain

namespace RulesMkosi.ExtractTree

open FileTree

/-! ## Chains of hard links -/

/-- Why a hard link has no target. -/
inductive Fault where
  | invalidName
  | notMember
  | notFile
  /-- a hard link that is not one of the given ones -/
  | notListed
  deriving Repr, DecidableEq

section
variable (hardlinks index : Dict Path Member)

/-- Where a member leads as the target of a hard link. -/
def targetHop (target : Path) : Hop Path Path Fault :=
  match index.get target with
  | none => .fault .notMember
  | some member =>
    match member.kind with
    | .hardlink => .link target
    | .file => .stop target
    | _ => .fault .notFile

/-- Where a hard link leads. -/
def hardlinkHop (relative : Path) : Hop Path Path Fault :=
  match hardlinks.get relative with
  | none => .fault .notListed
  | some member =>
    match hardlinkTarget member.linkname with
    | .error _ => .fault .invalidName
    | .ok target => targetHop index target

/-- The graph after a visit. -/
def visitNext (frames : ℕ) (graph : HardlinkGraph) (relative : Path) : Except Exn HardlinkGraph := do
  let (graph, _) ← visitHardlink hardlinks index frames graph relative
  return graph

/-- The visits of `_resolve_hardlink_graph`, in some order. -/
def visitHardlinks (frames : ℕ) (order : List Path) : Except Exn HardlinkGraph :=
  order.foldlM (visitNext hardlinks index frames) ⟨[], []⟩

/-- Every member that is a hard link is one of the hard links. -/
def AllHardlinks : Prop :=
  ∀ p member, index.get p = some member → member.kind = .hardlink → p ∈ hardlinks.keys

/-- The exceptions of a visit. -/
def IsVisitError (e : Exn) : Prop :=
  (∃ message, e = .valueError message) ∨
    (∃ key, e = .keyError key) ∧ ¬ AllHardlinks hardlinks index

end

/-- The hard links that `_extract_members` passes are those of the members. -/
theorem allHardlinks_ofKind {index : Dict Path Member} (hindex : Indexed index) :
    AllHardlinks (ofKind .hardlink index) index := by
  intro p member hmember hkind
  exact Dict.mem_keys_of_get ((get_ofKind hindex).2 ⟨hmember, hkind⟩)

/-! ## One visit -/

theorem hardlinkTarget_eq_error {linkname : Str} {e : Exn}
    (h : hardlinkTarget linkname = .error e) : ∃ message, e = .valueError message := by
  unfold hardlinkTarget at h
  rcases bind_eq_error.1 h with h | ⟨-, -, h⟩
  · exact ⟨_, (raiseIf_eq_error.1 h).2.symm⟩
  · unfold memberPath at h
    dsimp only at h
    split_ifs at h
    · cases h
      exact ⟨_, rfl⟩
    · cases h
      exact ⟨_, rfl⟩

section
variable {hardlinks index : Dict Path Member}

/-- The graph with a link under way. -/
def HardlinkGraph.enter (graph : HardlinkGraph) (p : Path) : HardlinkGraph :=
  { graph with state := graph.state.set p .visiting }

/-- The graph with a link done. -/
def HardlinkGraph.leave (graph : HardlinkGraph) (p target : Path) : HardlinkGraph :=
  ⟨graph.state.set p .done, graph.targets.set p target⟩

/-- The links that are done have the ends of their chains. -/
def HardlinkGraph.Sound (hardlinks index : Dict Path Member) (graph : HardlinkGraph) : Prop :=
  ∀ p, graph.state.get p = some .done → ∃ target, graph.targets.get p = some target ∧
    Hop.EndsAt (hardlinkHop hardlinks index) p target

/-- The links under way lead to `p`. -/
def HardlinkGraph.LeadsTo (hardlinks index : Dict Path Member) (graph : HardlinkGraph) (p : Path) :
    Prop :=
  ∀ q, graph.state.get q = some .visiting →
    Relation.TransGen (Hop.Next (hardlinkHop hardlinks index)) q p

/-- The number of links without a mark. -/
def HardlinkGraph.unmarked (hardlinks : Dict Path Member) (graph : HardlinkGraph) : ℕ :=
  (hardlinks.keys.toFinset.filter fun p => graph.state.get p = none).card

/-- What a visit leaves of the marks: those under way stay, and those that are done. -/
structure HardlinkGraph.Grows (graph graph' : HardlinkGraph) : Prop where
  visiting : ∀ p, graph'.state.get p = some .visiting ↔ graph.state.get p = some .visiting
  done : ∀ p, graph.state.get p = some .done → graph'.state.get p = some .done

theorem HardlinkGraph.unmarked_le (graph : HardlinkGraph) :
    graph.unmarked hardlinks ≤ hardlinks.length := by
  calc graph.unmarked hardlinks ≤ hardlinks.keys.toFinset.card := Finset.card_filter_le _ _
    _ ≤ hardlinks.keys.length := List.toFinset_card_le _
    _ = hardlinks.length := List.length_map _

/-- A mark makes the links without one fewer. -/
theorem HardlinkGraph.unmarked_lt {graph : HardlinkGraph} {p : Path} (hp : p ∈ hardlinks.keys)
    (hnone : graph.state.get p = none) :
    (graph.enter p).unmarked hardlinks < graph.unmarked hardlinks := by
  refine Finset.card_lt_card (Finset.ssubset_iff_of_subset ?_ |>.2 ⟨p, ?_, ?_⟩)
  · intro q hq
    rw [Finset.mem_filter] at hq ⊢
    refine ⟨hq.1, ?_⟩
    have hget := hq.2
    rw [HardlinkGraph.enter, Dict.get_set] at hget
    split_ifs at hget
    exact hget
  · rw [Finset.mem_filter]
    exact ⟨List.mem_toFinset.2 hp, hnone⟩
  · rw [Finset.mem_filter]
    rintro ⟨-, hget⟩
    rw [HardlinkGraph.enter, Dict.get_set_self] at hget
    cases hget

theorem HardlinkGraph.Sound.enter {graph : HardlinkGraph} (h : graph.Sound hardlinks index) (p : Path) :
    (graph.enter p).Sound hardlinks index := by
  intro q hq
  rw [HardlinkGraph.enter, Dict.get_set] at hq
  split_ifs at hq
  · cases hq
  · exact h q hq

theorem HardlinkGraph.Sound.leave {graph : HardlinkGraph} (h : graph.Sound hardlinks index)
    {p target : Path} (hend : Hop.EndsAt (hardlinkHop hardlinks index) p target) :
    (graph.leave p target).Sound hardlinks index := by
  intro q hq
  by_cases hpq : p = q
  · rw [← hpq]
    exact ⟨target, Dict.get_set_self _ _ _, hend⟩
  · rw [HardlinkGraph.leave, Dict.get_set_ne _ _ hpq] at hq
    obtain ⟨target', htarget', hend'⟩ := h q hq
    exact ⟨target', (Dict.get_set_ne _ _ hpq).trans htarget', hend'⟩

/-- Between entering and leaving a link, the other marks only grow. -/
theorem HardlinkGraph.Grows.leave {graph graph' : HardlinkGraph} {p : Path} (target : Path)
    (hnone : graph.state.get p = none) (h : (graph.enter p).Grows graph') :
    graph.Grows (graph'.leave p target) := by
  have hother : ∀ {q}, p ≠ q → (graph.enter p).state.get q = graph.state.get q :=
    fun hpq => Dict.get_set_ne _ _ hpq
  constructor
  · intro q
    by_cases hpq : p = q
    · rw [← hpq, hnone, HardlinkGraph.leave, Dict.get_set_self]
      simp
    · rw [HardlinkGraph.leave, Dict.get_set_ne _ _ hpq, h.visiting, hother hpq]
  · intro q hq
    by_cases hpq : p = q
    · rw [← hpq, hnone] at hq
      cases hq
    · rw [HardlinkGraph.leave, Dict.get_set_ne _ _ hpq]
      exact h.done q ((hother hpq).trans hq)

theorem HardlinkGraph.LeadsTo.enter {graph : HardlinkGraph} {p q : Path}
    (h : graph.LeadsTo hardlinks index p) (hnext : Hop.Next (hardlinkHop hardlinks index) p q) :
    (graph.enter p).LeadsTo hardlinks index q := by
  intro r hr
  rw [HardlinkGraph.enter, Dict.get_set] at hr
  split_ifs at hr with hpr
  · rw [← hpr]
    exact .single hnext
  · exact .tail (h r hr) hnext

theorem visitHardlink_enter {frames : ℕ} {graph : HardlinkGraph} {p : Path} {member : Member}
    (hstate : graph.state.get p = none) (hmember : hardlinks.get p = some member) :
    visitHardlink hardlinks index (frames + 1) graph p = (do
      let target ← hardlinkTarget member.linkname
      let (graph, target) ←
        hardlinkEnd index (visitHardlink hardlinks index frames) p (graph.enter p) target
      return (graph.leave p target, target)) := by
  rw [visitHardlink, hstate]
  dsimp only
  rw [lookup_eq_ok.2 hmember, ok_bind]
  rfl

variable (hardlinks index) in
/-- What a visit of `p` comes to: the end of the chain, or an error on a broken one. -/
def Visited (graph : HardlinkGraph) (p : Path) (result : Except Exn (HardlinkGraph × Path)) : Prop :=
  (∃ graph' target, result = .ok (graph', target) ∧
    Hop.EndsAt (hardlinkHop hardlinks index) p target ∧ graph'.Sound hardlinks index ∧
    graph.Grows graph' ∧ graph'.state.get p = some .done) ∨
  ∃ e, result = .error e ∧ IsVisitError hardlinks index e ∧
    Hop.Broken (hardlinkHop hardlinks index) p

/-- `hardlinks[relative]` raises for a link that is not listed. -/
theorem visitHardlink_unlisted {frames : ℕ} {graph : HardlinkGraph} {p : Path}
    (hstate : graph.state.get p = none) (hmember : hardlinks.get p = none) :
    visitHardlink hardlinks index (frames + 1) graph p = .error (.keyError (text p)) := by
  rw [visitHardlink, hstate]
  dsimp only
  rw [lookup, hmember]
  rfl

/-- A link that leads to `target` is visited, if the links behind it are. -/
theorem hardlinkEnd_visited {graph : HardlinkGraph} {p target : Path}
    {visit : HardlinkGraph → Path → Except Exn (HardlinkGraph × Path)}
    (hstate : graph.state.get p = none) (hsound : graph.Sound hardlinks index)
    (hhop : hardlinkHop hardlinks index p = targetHop index target)
    (hvisit : ∀ found, index.get target = some found → found.kind = .hardlink →
      Hop.Next (hardlinkHop hardlinks index) p target →
      Visited hardlinks index (graph.enter p) target (visit (graph.enter p) target)) :
    Visited hardlinks index graph p (do
      let (graph, target) ← hardlinkEnd index visit p (graph.enter p) target
      return (graph.leave p target, target)) := by
  rw [hardlinkEnd]
  unfold targetHop at hhop
  cases hfound : index.get target with
  | none =>
    rw [hfound] at hhop
    exact .inr ⟨_, rfl, .inl ⟨_, rfl⟩, .fault hhop⟩
  | some found =>
    rw [hfound] at hhop
    dsimp only at hhop ⊢
    cases hkind : found.kind with
    | hardlink =>
      rw [hkind] at hhop
      dsimp only
      rcases hvisit found hfound hkind hhop with ⟨graph', last, hresult, hend, hsound', hgrows, -⟩ |
        ⟨e, hresult, herror, hbroken⟩
      · rw [hresult, ok_bind]
        have hend' := Hop.EndsAt.link hhop hend
        exact .inl ⟨_, last, rfl, hend', hsound'.leave hend', hgrows.leave last hstate,
          Dict.get_set_self _ _ _⟩
      · rw [hresult, error_bind]
        exact .inr ⟨e, rfl, herror, hbroken.of_next hhop⟩
    | file =>
      rw [hkind] at hhop
      have hend := Hop.EndsAt.stop hhop
      exact .inl ⟨_, target, rfl, hend, (hsound.enter p).leave hend,
        HardlinkGraph.Grows.leave target hstate ⟨fun _ => Iff.rfl, fun _ h => h⟩,
        Dict.get_set_self _ _ _⟩
    | directory | symlink | other =>
      rw [hkind] at hhop
      exact .inr ⟨_, rfl, .inl ⟨_, rfl⟩, .fault hhop⟩

/-- **A visit finds the end of the chain,** or raises on a broken one, with more frames than links
    without a mark. -/
theorem visitHardlink_visited : ∀ {frames : ℕ} {graph : HardlinkGraph} {p : Path},
    (AllHardlinks hardlinks index → p ∈ hardlinks.keys) → graph.Sound hardlinks index →
      graph.LeadsTo hardlinks index p → graph.unmarked hardlinks < frames →
      Visited hardlinks index graph p (visitHardlink hardlinks index frames graph p)
  | 0, _, _, _, _, _, hframes => absurd hframes (Nat.not_lt_zero _)
  | frames + 1, graph, p, hlisted, hsound, hleads, hframes => by
    cases hstate : graph.state.get p with
    | some mark =>
      rw [visitHardlink, hstate]
      cases mark with
      | visiting => exact .inr ⟨_, rfl, .inl ⟨_, rfl⟩, .cycle (hleads p hstate)⟩
      | done =>
        obtain ⟨target, htarget, hend⟩ := hsound p hstate
        dsimp only
        rw [lookup_eq_ok.2 htarget, ok_bind]
        exact .inl ⟨graph, target, rfl, hend, hsound, ⟨fun _ => Iff.rfl, fun _ h => h⟩, hstate⟩
    | none =>
      cases hmember : hardlinks.get p with
      | none =>
        have hp : p ∉ hardlinks.keys := by
          intro hp
          obtain ⟨member, hget⟩ := Dict.exists_get_of_mem_keys hp
          rw [hmember] at hget
          cases hget
        have hhop : hardlinkHop hardlinks index p = .fault .notListed := by
          simp only [hardlinkHop, hmember]
        exact .inr ⟨_, visitHardlink_unlisted hstate hmember,
          .inr ⟨⟨_, rfl⟩, fun hall => hp (hlisted hall)⟩, .fault hhop⟩
      | some member =>
        rw [visitHardlink_enter hstate hmember]
        cases htarget : hardlinkTarget member.linkname with
        | error e =>
          obtain ⟨message, rfl⟩ := hardlinkTarget_eq_error htarget
          have hhop : hardlinkHop hardlinks index p = .fault .invalidName := by
            simp only [hardlinkHop, hmember, htarget]
          exact .inr ⟨_, rfl, .inl ⟨message, rfl⟩, .fault hhop⟩
        | ok target =>
          have hhop : hardlinkHop hardlinks index p = targetHop index target := by
            simp only [hardlinkHop, hmember, htarget]
          -- the mark of `p` pays for the frame of the next visit
          have hframes' : (graph.enter p).unmarked hardlinks < frames := by
            have hlt := HardlinkGraph.unmarked_lt (Dict.mem_keys_of_get hmember) hstate
            exact Nat.lt_of_lt_of_le hlt (Nat.le_of_lt_succ hframes)
          rw [ok_bind]
          exact hardlinkEnd_visited hstate hsound hhop fun found hfound hkind hnext =>
            visitHardlink_visited (fun hall => hall target found hfound hkind) (hsound.enter p)
              (hleads.enter hnext) hframes'

/-! ## All visits -/

/-- The visits of some links come to the ends of their chains, or raise on a broken one. -/
theorem foldlM_visitNext {frames : ℕ} (hframes : hardlinks.length < frames) :
    ∀ {order : List Path} {graph : HardlinkGraph}, (∀ p ∈ order, p ∈ hardlinks.keys) →
      graph.Sound hardlinks index → (∀ p, graph.state.get p ≠ some .visiting) →
      (∃ graph', order.foldlM (visitNext hardlinks index frames) graph = .ok graph' ∧
        graph'.Sound hardlinks index ∧ graph.Grows graph' ∧
        ∀ p ∈ order, graph'.state.get p = some .done) ∨
      ∃ e, order.foldlM (visitNext hardlinks index frames) graph = .error e ∧
        IsVisitError hardlinks index e ∧ ∃ p ∈ order, Hop.Broken (hardlinkHop hardlinks index) p
  | [], graph, _, hsound, _ =>
    .inl ⟨graph, rfl, hsound, ⟨fun _ => Iff.rfl, fun _ h => h⟩, by simp⟩
  | p :: order, graph, horder, hsound, hvisiting => by
    obtain ⟨hp, horder⟩ := List.forall_mem_cons.1 horder
    have hvisit := visitHardlink_visited (fun _ => hp) hsound
      (fun q hq => absurd hq (hvisiting q)) (Nat.lt_of_le_of_lt graph.unmarked_le hframes)
    rw [List.foldlM_cons, visitNext]
    rcases hvisit with ⟨graph', target, hresult, -, hsound', hgrows, hdone⟩ |
      ⟨e, hresult, herror, hbroken⟩
    · have hvisiting' : ∀ q, graph'.state.get q ≠ some .visiting :=
        fun q hq => hvisiting q ((hgrows.visiting q).1 hq)
      have hrest := foldlM_visitNext hframes horder hsound' hvisiting'
      rw [hresult, ok_bind]
      dsimp only
      rcases hrest with ⟨last, hlast, hsoundLast, hgrowsLast, hdoneLast⟩ |
        ⟨e, hlast, herror, q, hq, hbroken⟩
      · refine .inl ⟨last, hlast, hsoundLast, ⟨?_, ?_⟩, ?_⟩
        · exact fun q => (hgrowsLast.visiting q).trans (hgrows.visiting q)
        · exact fun q hq => hgrowsLast.done q (hgrows.done q hq)
        · exact List.forall_mem_cons.2 ⟨hgrowsLast.done p hdone, hdoneLast⟩
      · exact .inr ⟨e, hlast, herror, q, List.mem_cons_of_mem _ hq, hbroken⟩
    · rw [hresult, error_bind]
      exact .inr ⟨e, rfl, herror, p, List.mem_cons_self, hbroken⟩

/-- With all hard links at hand, chains stay among them. -/
theorem mem_keys_of_next (hlinks : AllHardlinks hardlinks index) {p q : Path}
    (hnext : Hop.Next (hardlinkHop hardlinks index) p q) : q ∈ hardlinks.keys := by
  unfold Hop.Next hardlinkHop targetHop at hnext
  split at hnext
  · cases hnext
  · split at hnext
    · cases hnext
    · split at hnext
      · cases hnext
      · next member hmember =>
        split at hnext
        · next hkind =>
          cases hnext
          exact hlinks q member hmember hkind
        · cases hnext
        · cases hnext

theorem listed_of_reachable (hlinks : AllHardlinks hardlinks index) {p q : Path}
    (hp : p ∈ hardlinks.keys)
    (hreach : Relation.ReflTransGen (Hop.Next (hardlinkHop hardlinks index)) p q) :
    hardlinkHop hardlinks index q ≠ .fault .notListed := by
  have hq : q ∈ hardlinks.keys := by
    rcases Relation.ReflTransGen.cases_tail hreach with rfl | ⟨r, -, hnext⟩
    · exact hp
    · exact mem_keys_of_next hlinks hnext
  obtain ⟨member, hmember⟩ := Dict.exists_get_of_mem_keys hq
  unfold hardlinkHop targetHop
  rw [hmember]
  dsimp only
  split
  · exact fun h => by cases h
  · split
    · exact fun h => by cases h
    · split <;> exact fun h => by cases h

theorem exists_file_of_endsAt {p target : Path}
    (h : Hop.EndsAt (hardlinkHop hardlinks index) p target) :
    ∃ member, index.get target = some member ∧ member.kind = .file := by
  induction h with
  | @stop p target hstop =>
    unfold hardlinkHop targetHop at hstop
    split at hstop
    · cases hstop
    · split at hstop
      · cases hstop
      · split at hstop
        · cases hstop
        · next member hmember =>
          split at hstop
          · cases hstop
          · next hkind =>
            cases hstop
            exact ⟨member, hmember, hkind⟩
          · cases hstop
  | link _ _ ih => exact ih

/-- A tree is made only where all visits return. -/
theorem visitHardlinks_of_resolve {frames : ℕ} {t t' : Tree}
    (h : resolveHardlinkGraph hardlinks index frames t = .ok t') :
    ∃ graph, visitHardlinks hardlinks index frames (sortPaths hardlinks.keys) = .ok graph := by
  have hfold : ∀ {order : List Path} {s s' : HardlinkGraph × Tree},
      order.foldlM (createHardlink hardlinks index frames) s = .ok s' →
        order.foldlM (visitNext hardlinks index frames) s.1 = .ok s'.1 := by
    intro order
    induction order with
    | nil =>
      intro s s' h
      cases h
      rfl
    | cons p order ih =>
      intro s s' h
      rw [List.foldlM_cons] at h ⊢
      obtain ⟨next, hcreate, hrest⟩ := bind_eq_ok.1 h
      simp only [createHardlink, bind_eq_ok, Prod.exists, pure_eq_ok] at hcreate
      obtain ⟨graph, target, hvisit, _, -, _, -, t₁, -, rfl⟩ := hcreate
      rw [visitNext, hvisit]
      exact ih hrest
  obtain ⟨s, hs, -⟩ := bind_eq_ok.1 h
  exact ⟨s.1, hfold hs⟩

/-- What the visits of all hard links come to, in any order. -/
theorem visitHardlinks_cases {frames : ℕ} (hframes : hardlinks.length < frames) {order : List Path}
    (horder : ∀ p, p ∈ order ↔ p ∈ hardlinks.keys) :
    (∃ graph, visitHardlinks hardlinks index frames order = .ok graph ∧
      ∀ p ∈ hardlinks.keys, ∃ target, graph.targets.get p = some target ∧
        Hop.EndsAt (hardlinkHop hardlinks index) p target) ∨
    ∃ e, visitHardlinks hardlinks index frames order = .error e ∧ IsVisitError hardlinks index e ∧
      ∃ p ∈ hardlinks.keys, Hop.Broken (hardlinkHop hardlinks index) p := by
  have hsound : HardlinkGraph.Sound hardlinks index ⟨[], []⟩ := by
    intro p hp
    cases hp
  have hrun := foldlM_visitNext hframes (fun p hp => (horder p).1 hp) hsound
    (fun p hp => by cases hp)
  rcases hrun with ⟨graph, hgraph, hsound, -, hdone⟩ | ⟨e, hraise, herror, p, hp, hbroken⟩
  · exact .inl ⟨graph, hgraph, fun p hp => hsound p (hdone p ((horder p).2 hp))⟩
  · exact .inr ⟨e, hraise, herror, p, (horder p).1 hp, hbroken⟩

/-- **Hard links are resolved exactly where their chains have ends.**  With more frames than hard
    links, the visits end; they raise iff following the targets of some link reaches a cycle, a name
    that is not a member or not valid, or a member that is neither a hard link nor a file.  Otherwise
    every link has the file at the end of its chain, in whatever order the links are visited.  A hard
    link that is not listed ends a chain as well; there is none if all hard links are given.  Links are
    made in a tree only where all of them have an end. -/
theorem visitHardlinks_exact (hardlinks index : Dict Path Member) {frames : ℕ}
    (hframes : hardlinks.length < frames) {order : List Path}
    (horder : ∀ p, p ∈ order ↔ p ∈ hardlinks.keys) :
    (∀ e, visitHardlinks hardlinks index frames order = .error e → IsVisitError hardlinks index e) ∧
    ((∃ e, visitHardlinks hardlinks index frames order = .error e) ↔
      ∃ p ∈ hardlinks.keys, Hop.Broken (hardlinkHop hardlinks index) p) ∧
    (AllHardlinks hardlinks index → ∀ p ∈ hardlinks.keys, ∀ q,
      Relation.ReflTransGen (Hop.Next (hardlinkHop hardlinks index)) p q →
        hardlinkHop hardlinks index q ≠ .fault .notListed) ∧
    (∀ graph, visitHardlinks hardlinks index frames order = .ok graph →
      ∀ p ∈ hardlinks.keys, ∃ target member, graph.targets.get p = some target ∧
        Hop.EndsAt (hardlinkHop hardlinks index) p target ∧
        index.get target = some member ∧ member.kind = .file) ∧
    (∀ order', (∀ p, p ∈ order' ↔ p ∈ hardlinks.keys) →
      ∀ graph, visitHardlinks hardlinks index frames order = .ok graph →
        ∃ graph', visitHardlinks hardlinks index frames order' = .ok graph' ∧
          ∀ p ∈ hardlinks.keys, graph'.targets.get p = graph.targets.get p) ∧
    ∀ t t', resolveHardlinkGraph hardlinks index frames t = .ok t' →
      ∃ graph, visitHardlinks hardlinks index frames order = .ok graph := by
  have hends : ∀ {graph : HardlinkGraph},
      visitHardlinks hardlinks index frames order = .ok graph →
      ∀ p ∈ hardlinks.keys, ∃ target, graph.targets.get p = some target ∧
        Hop.EndsAt (hardlinkHop hardlinks index) p target := by
    intro graph hgraph
    rcases visitHardlinks_cases hframes horder with ⟨graph', hgraph', hend⟩ | ⟨e, hraise, -⟩
    · cases hgraph.symm.trans hgraph'
      exact hend
    · cases hgraph.symm.trans hraise
  refine ⟨fun e he => ?_, ⟨?_, ?_⟩, fun hlinks p hp q => listed_of_reachable hlinks hp,
    fun graph hgraph p hp => ?_, fun order' horder' graph hgraph => ?_, fun t t' htree => ?_⟩
  · rcases visitHardlinks_cases hframes horder with ⟨graph, hgraph, -⟩ | ⟨e', hraise, herror, -⟩
    · cases hgraph.symm.trans he
    · cases hraise.symm.trans he
      exact herror
  · rintro ⟨e, he⟩
    rcases visitHardlinks_cases hframes horder with ⟨graph, hgraph, -⟩ | ⟨e', -, -, hbroken⟩
    · cases hgraph.symm.trans he
    · exact hbroken
  · rintro ⟨p, hp, hbroken⟩
    rcases visitHardlinks_cases hframes horder with ⟨graph, -, hend⟩ | ⟨e, hraise, -⟩
    · obtain ⟨target, -, hend⟩ := hend p hp
      exact absurd hbroken hend.not_broken
    · exact ⟨_, hraise⟩
  · obtain ⟨target, htarget, hend⟩ := hends hgraph p hp
    obtain ⟨member, hmember, hkind⟩ := exists_file_of_endsAt hend
    exact ⟨target, member, htarget, hend, hmember, hkind⟩
  · rcases visitHardlinks_cases hframes horder' with ⟨graph', hgraph', hend'⟩ | ⟨e, -, -, p, hp, hbroken⟩
    · refine ⟨graph', hgraph', fun p hp => ?_⟩
      obtain ⟨target, htarget, hend⟩ := hends hgraph p hp
      obtain ⟨target', htarget', hend'⟩ := hend' p hp
      rw [htarget, htarget', hend.unique hend']
    · obtain ⟨target, -, hend⟩ := hends hgraph p hp
      exact absurd hbroken hend.not_broken
  · have hkeys : ∀ p, p ∈ sortPaths hardlinks.keys ↔ p ∈ hardlinks.keys := fun p => mem_sortBy
    obtain ⟨sorted, hsorted⟩ := visitHardlinks_of_resolve htree
    rcases visitHardlinks_cases hframes horder with ⟨graph, hgraph, -⟩ | ⟨e, -, -, p, hp, hbroken⟩
    · exact ⟨graph, hgraph⟩
    · rcases visitHardlinks_cases hframes hkeys with ⟨_, -, hend⟩ | ⟨e, hraise, -⟩
      · obtain ⟨target, -, hend⟩ := hend p hp
        exact absurd hbroken hend.not_broken
      · cases hsorted.symm.trans hraise

end

/-- Two links that share the link `b`. -/
def sharedMembers : List Member :=
  [⟨"a".toList, .hardlink, "b".toList, []⟩, ⟨"b".toList, .hardlink, "./f".toList, []⟩,
    ⟨"c".toList, .hardlink, "b".toList, []⟩, ⟨"f".toList, .file, [], [1]⟩]

def sharedIndex : Dict Path Member :=
  [(path "a", ⟨"a".toList, .hardlink, "b".toList, []⟩),
    (path "b", ⟨"b".toList, .hardlink, "./f".toList, []⟩),
    (path "c", ⟨"c".toList, .hardlink, "b".toList, []⟩), (path "f", ⟨"f".toList, .file, [], [1]⟩)]

/-- The links of the shared chain have one target, whichever is visited first. -/
theorem visitHardlinks_exact_example : indexMembers sharedMembers = .ok sharedIndex ∧
    AllHardlinks (ofKind .hardlink sharedIndex) sharedIndex ∧ ∃ graph graph',
      visitHardlinks (ofKind .hardlink sharedIndex) sharedIndex 4 [path "a", path "b", path "c"] =
        .ok graph ∧
      visitHardlinks (ofKind .hardlink sharedIndex) sharedIndex 4 [path "c", path "b", path "a"] =
        .ok graph' ∧
      graph.targets.get (path "a") = some (path "f") ∧
      graph'.targets.get (path "a") = some (path "f") := by
  have hsource : indexMembers sharedMembers = .ok sharedIndex := by decide
  have hkeys : (ofKind .hardlink sharedIndex).keys = [path "a", path "b", path "c"] := by
    decide
  have hrun : (visitHardlinks (ofKind .hardlink sharedIndex) sharedIndex 4
      [path "a", path "b", path "c"]).map (·.targets.get (path "a")) = .ok (some (path "f")) := by
    decide
  obtain ⟨graph, hgraph, htarget⟩ : ∃ graph, visitHardlinks (ofKind .hardlink sharedIndex)
      sharedIndex 4 [path "a", path "b", path "c"] = .ok graph ∧
      graph.targets.get (path "a") = some (path "f") := by
    cases hgraph : visitHardlinks (ofKind .hardlink sharedIndex) sharedIndex 4
        [path "a", path "b", path "c"] with
    | ok graph =>
      rw [hgraph] at hrun
      exact ⟨graph, rfl, Except.ok.inj hrun⟩
    | error e =>
      rw [hgraph] at hrun
      cases hrun
  have hexact := visitHardlinks_exact (ofKind .hardlink sharedIndex) sharedIndex
    (by decide : _ < 4) (fun p => by rw [hkeys])
  obtain ⟨graph', hgraph', hsame⟩ := hexact.2.2.2.2.1 [path "c", path "b", path "a"]
    (fun p => by rw [hkeys]; simp only [List.mem_cons, List.not_mem_nil]; tauto) graph hgraph
  refine ⟨hsource, allHardlinks_ofKind (indexed_indexMembers hsource), graph, graph', hgraph, hgraph',
    htarget, ?_⟩
  rw [hsame _ (by rw [hkeys]; exact List.mem_cons_self), htarget]

end RulesMkosi.ExtractTree
