/-
  Symbolic links below a root.

  `Resolves` is the meaning of a table of links in a tree whose root is `/`: an
  absolute link starts again at the root.  A tree `Realizes` the table if its links
  are those of the table, with every absolute one written as the relative path to the
  place it resolves to.  Then a walk in the tree, wherever the tree is, stays below
  the root and ends where `Resolves` says.
-/
import RulesMkosi.Lib.FileTree
import Mathlib.Data.List.Induction

namespace RulesMkosi.FileTree

theorem no_slash_of_mem_components {text c : Str} (h : c ∈ components text) : '/' ∉ c := by
  induction text generalizing c with
  | nil =>
    rw [components, List.splitOn_nil, List.mem_singleton] at h
    simp [h]
  | cons a text ih =>
    rw [components, List.splitOn_cons_eq_if_modifyHead] at h
    split_ifs at h with ha
    · rcases List.mem_cons.1 h with rfl | h
      · simp
      · exact ih h
    · cases hsplit : text.splitOn '/' with
      | nil => exact absurd hsplit (List.splitOn_ne_nil _ _)
      | cons b rest =>
        rw [hsplit, List.modifyHead_cons] at h
        rcases List.mem_cons.1 h with rfl | h
        · have hb : '/' ∉ b := ih (by rw [components, hsplit]; exact List.mem_cons_self)
          have : a ≠ '/' := by simpa using ha
          simp [hb, this.symm]
        · exact ih (by rw [components, hsplit]; exact List.mem_cons_of_mem _ h)

theorem components_pathText {p : Path} (hne : p ≠ []) (h : ∀ c ∈ p, '/' ∉ c) :
    components (pathText p) = p :=
  List.splitOn_intercalate '/' h hne

/-! ## Relative paths -/

/-- The length of the common prefix. -/
def commonLength : Path → Path → ℕ
  | a :: p, b :: q => if a = b then commonLength p q + 1 else 0
  | _, _ => 0

/-- The components of `os.path.relpath(path, start)` -/
def relpathParts (path start : Path) : List Str :=
  List.replicate (start.length - commonLength start path) dotDot ++
    path.drop (commonLength start path)

/-- `os.path.relpath(path, start)` -/
def relpath (path start : Path) : Str :=
  if relpathParts path start = [] then dot else pathText (relpathParts path start)

/-- A relative path climbs to the common prefix and descends from there. -/
theorem relpathParts_eq : ∀ start path : Path, ∃ base up down, start = base ++ up ∧
    path = base ++ down ∧ relpathParts path start = List.replicate up.length dotDot ++ down
  | [], path => ⟨[], [], path, rfl, rfl, by simp [relpathParts, commonLength]⟩
  | a :: start, [] => ⟨[], a :: start, [], rfl, rfl, by simp [relpathParts, commonLength]⟩
  | a :: start, b :: path => by
    by_cases hab : a = b
    · subst hab
      obtain ⟨base, up, down, hstart, hpath, hparts⟩ := relpathParts_eq start path
      refine ⟨a :: base, up, down, by rw [hstart]; rfl, by rw [hpath]; rfl, ?_⟩
      rw [← hparts]
      simp [relpathParts, commonLength]
    · exact ⟨[], a :: start, b :: path, rfl, rfl, by simp [relpathParts, commonLength, hab]⟩

theorem no_slash_of_mem_relpathParts {path start : Path} (h : ∀ c ∈ path, '/' ∉ c) :
    ∀ c ∈ relpathParts path start, '/' ∉ c := by
  intro c hc
  rcases List.mem_append.1 hc with hc | hc
  · rw [List.eq_of_mem_replicate hc]
    simp [dotDot]
  · exact h c (List.mem_of_mem_drop hc)

theorem components_relpath {path : Path} (h : ∀ c ∈ path, '/' ∉ c) (start : Path) :
    components (relpath path start) = relpathParts path start ∨
      relpathParts path start = [] ∧ components (relpath path start) = [dot] := by
  unfold relpath
  split_ifs with hnil
  · exact .inr ⟨hnil, rfl⟩
  · exact .inl (components_pathText hnil (no_slash_of_mem_relpathParts h))

/-! ## The meaning of a table of links -/

/-- Where the target of a link in the directory `r` starts. -/
def linkStart (r : Path) (target : Str) : Path := if isAbsolute target then [] else r

/-- From the directory `r`, the components lead to `f`. -/
inductive Resolves (links : Path → Option Str) : Path → List Str → Path → Prop
  | done {r} : Resolves links r [] r
  | skip {r c rest f} : c = [] ∨ c = dot → Resolves links r rest f → Resolves links r (c :: rest) f
  | up {r rest f} : r ≠ [] → Resolves links r.dropLast rest f → Resolves links r (dotDot :: rest) f
  | step {r c rest f} : IsName c → links (r ++ [c]) = none → Resolves links (r ++ [c]) rest f →
      Resolves links r (c :: rest) f
  | follow {r c rest f target} : IsName c → links (r ++ [c]) = some target →
      Resolves links (linkStart r target) (components target ++ rest) f →
      Resolves links r (c :: rest) f

section
variable {links : Path → Option Str} {r f m : Path} {c target : Str} {rest : List Str}

theorem resolves_nil : Resolves links r [] f ↔ f = r := by
  constructor
  · rintro ⟨⟩; rfl
  · rintro rfl; exact .done

theorem resolves_skip (hc : c = [] ∨ c = dot) :
    Resolves links r (c :: rest) f ↔ Resolves links r rest f := by
  constructor
  · intro h
    cases h with
    | skip _ h => exact h
    | up => simp [dot, dotDot] at hc
    | step hname => exact absurd hc (not_or.2 ⟨hname.not_nil, hname.not_dot⟩)
    | follow hname => exact absurd hc (not_or.2 ⟨hname.not_nil, hname.not_dot⟩)
  · exact .skip hc

theorem resolves_up :
    Resolves links r (dotDot :: rest) f ↔ r ≠ [] ∧ Resolves links r.dropLast rest f := by
  constructor
  · intro h
    cases h with
    | skip hc => simp [dot, dotDot] at hc
    | up hr h => exact ⟨hr, h⟩
    | step hname => exact absurd rfl hname.not_dotDot
    | follow hname => exact absurd rfl hname.not_dotDot
  · rintro ⟨hr, h⟩
    exact .up hr h

theorem resolves_step (hc : IsName c) (hlink : links (r ++ [c]) = none) :
    Resolves links r (c :: rest) f ↔ Resolves links (r ++ [c]) rest f := by
  constructor
  · intro h
    cases h with
    | skip hskip => exact absurd hskip (not_or.2 ⟨hc.not_nil, hc.not_dot⟩)
    | up => exact absurd rfl hc.not_dotDot
    | step _ _ h => exact h
    | follow _ hsome => rw [hlink] at hsome; cases hsome
  · exact .step hc hlink

theorem resolves_follow (hc : IsName c) (hlink : links (r ++ [c]) = some target) :
    Resolves links r (c :: rest) f ↔
      Resolves links (linkStart r target) (components target ++ rest) f := by
  constructor
  · intro h
    cases h with
    | skip hskip => exact absurd hskip (not_or.2 ⟨hc.not_nil, hc.not_dot⟩)
    | up => exact absurd rfl hc.not_dotDot
    | step _ hnone => rw [hlink] at hnone; cases hnone
    | follow _ hsome h =>
      rw [hlink] at hsome
      cases hsome
      exact h
  · exact .follow hc hlink

/-- **Resolution in two stages.**  Where the first components lead to `m`, the others
    continue from there. -/
theorem Resolves.append_iff {cs : List Str} (h : Resolves links r cs m) :
    Resolves links r (cs ++ rest) f ↔ Resolves links m rest f := by
  induction h with
  | done => exact Iff.rfl
  | skip hc _ ih => rw [List.cons_append, resolves_skip hc, ih]
  | up hr _ ih => rw [List.cons_append, resolves_up, ih, and_iff_right hr]
  | step hc hlink _ ih => rw [List.cons_append, resolves_step hc hlink, ih]
  | follow hc hlink _ ih => rw [List.cons_append, resolves_follow hc hlink, ← List.append_assoc, ih]

/-- The components lead to one place. -/
theorem Resolves.unique {cs : List Str} (h : Resolves links r cs m) (h' : Resolves links r cs f) :
    f = m := by
  rw [← List.append_nil cs, h.append_iff] at h'
  exact resolves_nil.1 h'

/-! ## Paths without links -/

/-- A path of names on which no link is. -/
structure LinkFree (links : Path → Option Str) (p : Path) : Prop where
  names : Names p
  free : ∀ q, q <+: p → q ≠ [] → links q = none

theorem linkFree_nil : LinkFree links [] :=
  ⟨fun _ h => absurd h List.not_mem_nil, fun _ hq hne => absurd (List.prefix_nil.1 hq) hne⟩

theorem LinkFree.concat (h : LinkFree links r) (hc : IsName c) (hlink : links (r ++ [c]) = none) :
    LinkFree links (r ++ [c]) := by
  constructor
  · intro d hd
    rcases List.mem_append.1 hd with hd | hd
    · exact h.names d hd
    · rw [List.mem_singleton.1 hd]; exact hc
  · intro q hq hne
    rcases List.prefix_concat_iff.1 hq with rfl | hq
    · exact hlink
    · exact h.free q hq hne

theorem LinkFree.of_prefix (h : LinkFree links r) (hm : m <+: r) : LinkFree links m :=
  ⟨fun d hd => h.names d (hm.subset hd), fun q hq => h.free q (hq.trans hm)⟩

theorem LinkFree.dropLast (h : LinkFree links r) : LinkFree links r.dropLast :=
  h.of_prefix r.dropLast_prefix

theorem LinkFree.linkStart (h : LinkFree links r) : LinkFree links (linkStart r target) := by
  unfold FileTree.linkStart
  split_ifs
  · exact linkFree_nil
  · exact h

/-- Resolution ends on a path without links. -/
theorem Resolves.linkFree {cs : List Str} (h : Resolves links r cs f) (hr : LinkFree links r) :
    LinkFree links f := by
  induction h with
  | done => exact hr
  | skip _ _ ih => exact ih hr
  | up _ _ ih => exact ih hr.dropLast
  | step hc hlink _ ih => exact ih (hr.concat hc hlink)
  | follow _ _ _ ih => exact ih hr.linkStart

theorem LinkFree.resolves_append : ∀ {cs : List Str} {r : Path}, LinkFree links (r ++ cs) →
    Resolves links r cs (r ++ cs)
  | [], r, _ => by rw [List.append_nil]; exact .done
  | c :: cs, r, h => by
    rw [List.append_cons] at h ⊢
    have hrc := h.of_prefix (List.prefix_append (r ++ [c]) cs)
    have hc : IsName c := hrc.names c (by simp)
    exact .step hc (hrc.free _ List.prefix_rfl (by simp)) h.resolves_append

/-- A path without links leads to itself. -/
theorem LinkFree.resolves (h : LinkFree links f) : Resolves links [] f f :=
  LinkFree.resolves_append (r := []) h

end

/-! ## The links that are followed -/

/-- From the directory `r`, the components lead over the links of `trace`, in this order. -/
inductive Follows (links : Path → Option Str) : Path → List Str → List Path → Prop
  | stop {r cs} : Follows links r cs []
  | skip {r c rest trace} : c = [] ∨ c = dot → Follows links r rest trace →
      Follows links r (c :: rest) trace
  | up {r rest trace} : r ≠ [] → Follows links r.dropLast rest trace →
      Follows links r (dotDot :: rest) trace
  | step {r c rest trace} : IsName c → links (r ++ [c]) = none → Follows links (r ++ [c]) rest trace →
      Follows links r (c :: rest) trace
  | follow {r c rest target trace} : IsName c → links (r ++ [c]) = some target →
      Follows links (linkStart r target) (components target ++ rest) trace →
      Follows links r (c :: rest) ((r ++ [c]) :: trace)

section
variable {links : Path → Option Str} {r m : Path} {c target : Str} {rest : List Str}
  {trace : List Path}

theorem follows_nil (h : Follows links r [] trace) : trace = [] := by
  cases h
  rfl

theorem follows_skip (hc : c = [] ∨ c = dot) :
    Follows links r (c :: rest) trace ↔ Follows links r rest trace := by
  constructor
  · intro h
    cases h with
    | stop => exact .stop
    | skip _ h => exact h
    | up => simp [dot, dotDot] at hc
    | step hname => exact absurd hc (not_or.2 ⟨hname.not_nil, hname.not_dot⟩)
    | follow hname => exact absurd hc (not_or.2 ⟨hname.not_nil, hname.not_dot⟩)
  · exact .skip hc

theorem follows_up (hr : r ≠ []) :
    Follows links r (dotDot :: rest) trace ↔ Follows links r.dropLast rest trace := by
  constructor
  · intro h
    cases h with
    | stop => exact .stop
    | skip hc => simp [dot, dotDot] at hc
    | up _ h => exact h
    | step hname => exact absurd rfl hname.not_dotDot
    | follow hname => exact absurd rfl hname.not_dotDot
  · exact .up hr

/-- Above the root no link is followed. -/
theorem follows_root (h : Follows links [] (dotDot :: rest) trace) : trace = [] := by
  cases h with
  | stop => rfl
  | skip hc => simp [dot, dotDot] at hc
  | up hr => exact absurd rfl hr
  | step hname => exact absurd rfl hname.not_dotDot
  | follow hname => exact absurd rfl hname.not_dotDot

theorem follows_step (hc : IsName c) (hlink : links (r ++ [c]) = none) :
    Follows links r (c :: rest) trace ↔ Follows links (r ++ [c]) rest trace := by
  constructor
  · intro h
    cases h with
    | stop => exact .stop
    | skip hskip => exact absurd hskip (not_or.2 ⟨hc.not_nil, hc.not_dot⟩)
    | up => exact absurd rfl hc.not_dotDot
    | step _ _ h => exact h
    | follow _ hsome => rw [hlink] at hsome; cases hsome
  · exact .step hc hlink

theorem follows_follow (hc : IsName c) (hlink : links (r ++ [c]) = some target) :
    Follows links r (c :: rest) trace ↔ trace = [] ∨ ∃ trace', trace = (r ++ [c]) :: trace' ∧
      Follows links (linkStart r target) (components target ++ rest) trace' := by
  constructor
  · intro h
    cases h with
    | stop => exact .inl rfl
    | skip hskip => exact absurd hskip (not_or.2 ⟨hc.not_nil, hc.not_dot⟩)
    | up => exact absurd rfl hc.not_dotDot
    | step _ hnone => rw [hlink] at hnone; cases hnone
    | follow _ hsome h =>
      rw [hlink] at hsome
      cases hsome
      exact .inr ⟨_, rfl, h⟩
  · rintro (rfl | ⟨trace', rfl, h⟩)
    · exact .stop
    · exact .follow hc hlink h

/-- More components at the end change nothing at the start. -/
theorem Follows.append {cs : List Str} (h : Follows links r cs trace) (more : List Str) :
    Follows links r (cs ++ more) trace := by
  induction h with
  | stop => exact .stop
  | skip hc _ ih => exact .skip hc ih
  | up hr _ ih => exact .up hr ih
  | step hc hlink _ ih => exact .step hc hlink ih
  | follow hc hlink _ ih => exact .follow hc hlink (by rwa [List.append_assoc] at ih)

theorem LinkFree.follows_append : ∀ {cs : List Str} {r : Path}, LinkFree links (r ++ cs) →
    (Follows links r (cs ++ rest) trace ↔ Follows links (r ++ cs) rest trace)
  | [], r, _ => by rw [List.append_nil, List.nil_append]
  | c :: cs, r, h => by
    rw [List.append_cons] at h ⊢
    have hrc := h.of_prefix (List.prefix_append (r ++ [c]) cs)
    rw [List.cons_append, follows_step (hrc.names c (by simp))
      (hrc.free _ List.prefix_rfl (by simp)), h.follows_append]

/-- A path without links, and what comes after it. -/
theorem LinkFree.follows (h : LinkFree links m) :
    Follows links [] (m ++ rest) trace ↔ Follows links m rest trace :=
  LinkFree.follows_append (r := []) h

/-- Where the link `q` is followed, the links of its target are followed. -/
theorem Follows.of_target {q : Path} {after before : List Path} {cs : List Str}
    (h : Follows links r cs (before ++ q :: after)) (hr : LinkFree links r) :
    ∃ target, links q = some target ∧ LinkFree links q.dropLast ∧
      ∀ trace, Follows links (linkStart q.dropLast target) (components target) trace →
        Follows links r cs (before ++ q :: trace) := by
  generalize hall : before ++ q :: after = all at h
  induction h generalizing before with
  | stop => simp at hall
  | skip hc _ ih =>
    obtain ⟨target, hq, hfree, htarget⟩ := ih hr hall
    exact ⟨target, hq, hfree, fun trace ht => .skip hc (htarget trace ht)⟩
  | up hne _ ih =>
    obtain ⟨target, hq, hfree, htarget⟩ := ih hr.dropLast hall
    exact ⟨target, hq, hfree, fun trace ht => .up hne (htarget trace ht)⟩
  | step hc hlink _ ih =>
    obtain ⟨target, hq, hfree, htarget⟩ := ih (hr.concat hc hlink) hall
    exact ⟨target, hq, hfree, fun trace ht => .step hc hlink (htarget trace ht)⟩
  | @follow r c rest target _ hc hlink _ ih =>
    cases before with
    | nil =>
      obtain ⟨rfl, -⟩ := List.cons_eq_cons.1 hall
      rw [List.dropLast_concat]
      exact ⟨target, hlink, hr, fun trace ht => .follow hc hlink (ht.append rest)⟩
    | cons d before =>
      rw [List.cons_append, List.cons.injEq] at hall
      obtain ⟨rfl, hall⟩ := hall
      obtain ⟨target', hq, hfree, htarget⟩ := ih hr.linkStart hall
      exact ⟨target', hq, hfree, fun trace ht => .follow hc hlink (htarget trace ht)⟩

end

/-! ## Walks in a tree -/

/-- The walk stays below the root, and if it finds something then at `f`. -/
def Reaches (f : Path) : Outcome → Prop
  | .found q => q = f
  | .escaped => False
  | .absent _ _ | .failed => True

/-- The text of the link `p` in a tree, for its target in the table. -/
inductive LinkText (links : Path → Option Str) (p : Path) (target : Str) : Str → Prop
  | verbatim : isAbsolute target = false → LinkText links p target target
  | rooted {m} : isAbsolute target = true → Resolves links [] (components target) m →
      LinkText links p target (relpath m p.dropLast)

/-- The links of the tree are those of the table. -/
structure Realizes (links : Path → Option Str) (t : Tree) : Prop where
  node_of_link : ∀ p target, links p = some target → ∃ text, t.node p = some (.link text)
  link_of_node : ∀ p text, t.node p = some (.link text) →
    ∃ target, links p = some target ∧ LinkText links p target text

theorem isAbsolute_relpath {p r : Path} (h : Names p) : isAbsolute (relpath p r) = false := by
  unfold relpath
  split_ifs with hnil
  · rfl
  · obtain ⟨c, parts, hparts⟩ := List.exists_cons_of_ne_nil hnil
    have hc : c = dotDot ∨ IsName c := by
      have hmem : c ∈ relpathParts p r := by rw [hparts]; exact List.mem_cons_self
      rcases List.mem_append.1 hmem with hmem | hmem
      · exact .inl (List.eq_of_mem_replicate hmem)
      · exact .inr (h c (List.mem_of_mem_drop hmem))
    have hslash : '/' ∉ c := by
      rcases hc with rfl | hc
      · simp [dotDot]
      · exact hc.no_slash
    obtain ⟨a, c', rfl⟩ : ∃ a c', c = a :: c' := by
      rcases hc with rfl | hc
      · exact ⟨_, _, rfl⟩
      · exact List.exists_cons_of_ne_nil hc.not_nil
    have ha : a ≠ '/' := fun he => hslash (he ▸ List.mem_cons_self)
    rw [hparts]
    cases parts with
    | nil => simp [isAbsolute, pathText, List.intercalate, ha]
    | cons d parts => simp [isAbsolute, pathText, List.intercalate, ha]

namespace Tree

variable {t : Tree} {follow : Path → List Str → Outcome} {f m : Path} {rest : List Str}

/-- Climbing. -/
theorem reaches_up {base : Path} (h : Reaches f (walkWith t follow base rest)) (up : Path) :
    Reaches f (walkWith t follow (base ++ up) (List.replicate up.length dotDot ++ rest)) := by
  induction up using List.reverseRecOn with
  | nil => simpa using h
  | append_singleton up c ih =>
    rw [List.length_append, List.length_singleton, List.replicate_succ, List.cons_append]
    by_cases hdir : t.node (base ++ (up ++ [c])) = some .dir
    · rw [walkWith_up hdir (by simp), ← List.append_assoc, List.dropLast_concat]
      exact ih
    · rw [walkWith_notDir hdir]
      trivial

/-- Descending where no link is. -/
theorem reaches_down : ∀ {down base : Path}, Names down →
    (∀ q text, q <+: base ++ down → t.node q ≠ some (.link text)) →
    Reaches f (walkWith t follow (base ++ down) rest) →
    Reaches f (walkWith t follow base (down ++ rest))
  | [], base, _, _, h => by simpa using h
  | c :: down, base, hnames, hfree, h => by
    obtain ⟨hc, hdown⟩ := List.forall_mem_cons.1 hnames
    rw [List.append_cons] at h hfree
    rw [List.cons_append]
    by_cases hdir : t.node base = some .dir
    · rw [walkWith_name hdir hc]
      split
      · trivial
      · next text hnode => exact absurd hnode (hfree _ text (List.prefix_append _ down))
      · exact reaches_down hdown hfree h
    · rw [walkWith_notDir hdir]
      trivial

/-- **A relative path leads to its end.** -/
theorem reaches_relpath (hnames : Names m)
    (hfree : ∀ q text, q <+: m → t.node q ≠ some (.link text))
    (h : Reaches f (walkWith t follow m rest)) (r : Path) :
    Reaches f (walkWith t follow r (components (relpath m r) ++ rest)) := by
  have hparts : Reaches f (walkWith t follow r (relpathParts m r ++ rest)) := by
    obtain ⟨base, up, down, rfl, rfl, hparts⟩ := relpathParts_eq r m
    rw [hparts, List.append_assoc]
    refine reaches_up (reaches_down ?_ hfree h) up
    exact fun c hc => hnames c (List.mem_append_right base hc)
  rcases components_relpath (fun c hc => (hnames c hc).no_slash) r with hc | ⟨hnil, hc⟩
  · rwa [hc]
  · rw [hnil, List.nil_append] at hparts
    rw [hc, List.cons_append, List.nil_append]
    by_cases hdir : t.node r = some .dir
    · rw [walkWith_skip hdir (.inr rfl)]
      exact hparts
    · rw [walkWith_notDir hdir]
      trivial

section
variable {links : Path → Option Str}

theorem node_ne_link (ht : Realizes links t) (hm : LinkFree links m) :
    ∀ q text, q <+: m → t.node q ≠ some (.link text) := by
  intro q text hq hnode
  obtain ⟨target, htarget, -⟩ := ht.link_of_node q text hnode
  have hne : q ≠ [] := ne_nil_of_node (t := t) (by rw [hnode]; simp)
  rw [hm.free q hq hne] at htarget
  cases htarget

theorem not_isAbsolute_of_linkText {p : Path} {target text : Str}
    (h : LinkText links p target text) : isAbsolute text = false := by
  cases h with
  | verbatim hrelative => exact hrelative
  | rooted _ hm => exact isAbsolute_relpath (hm.linkFree linkFree_nil).names

/-- Up to its first link the walk takes the steps of the resolution. -/
theorem reaches_walkWith (ht : Realizes links t)
    (hfollow : ∀ {r rest f target text} {c : Str}, LinkText links (r ++ [c]) target text →
      Resolves links (linkStart r target) (components target ++ rest) f →
      Reaches f (follow r (components text ++ rest)))
    {r : Path} {cs : List Str} (h : Resolves links r cs f) : Reaches f (walkWith t follow r cs) := by
  induction h with
  | done => rfl
  | @skip r c rest f hc _ ih =>
    by_cases hdir : t.node r = some .dir
    · rw [walkWith_skip hdir hc]
      exact ih
    · rw [walkWith_notDir hdir]
      trivial
  | @up r rest f hr _ ih =>
    by_cases hdir : t.node r = some .dir
    · rw [walkWith_up hdir hr]
      exact ih
    · rw [walkWith_notDir hdir]
      trivial
  | @step r c rest f hc hlink _ ih =>
    by_cases hdir : t.node r = some .dir
    · rw [walkWith_name hdir hc]
      split
      · trivial
      · next text hnode =>
        obtain ⟨target, htarget, -⟩ := ht.link_of_node _ _ hnode
        rw [hlink] at htarget
        cases htarget
      · exact ih
    · rw [walkWith_notDir hdir]
      trivial
  | @follow r c rest f target hc hlink hrest _ =>
    by_cases hdir : t.node r = some .dir
    · obtain ⟨text, hnode⟩ := ht.node_of_link _ _ hlink
      obtain ⟨target', htarget', htext⟩ := ht.link_of_node _ _ hnode
      obtain rfl : target = target' := Option.some.inj (hlink.symm.trans htarget')
      rw [walkWith_name hdir hc, hnode]
      dsimp only
      rw [not_isAbsolute_of_linkText htext]
      split_ifs with hnil habsolute
      · trivial
      · cases habsolute
      · exact hfollow htext hrest
    · rw [walkWith_notDir hdir]
      trivial

/-- **Links are followed as the table says.**  From wherever the resolution starts, a walk
    in a tree that realizes the table stays below the root, and what it finds is at the end
    of the resolution. -/
theorem reaches_walk (ht : Realizes links t) : ∀ (n : ℕ) {r cs f}, Resolves links r cs f →
    Reaches f (t.walk n r cs)
  | 0, r, cs, f, h => by
    show Reaches f (walkWith t (fun _ _ => .failed) r cs)
    refine reaches_walkWith ht ?_ h
    intros
    trivial
  | n + 1, _, _, _, h => by
    refine reaches_walkWith ht ?_ h
    intro r rest f target text c htext hrest
    cases htext with
    | verbatim hrelative =>
      rw [linkStart, hrelative] at hrest
      exact reaches_walk ht n hrest
    | @rooted m habsolute hm =>
      -- the rest of the path starts where the target of the link is
      rw [linkStart, if_pos habsolute, hm.append_iff] at hrest
      have hfree := hm.linkFree linkFree_nil
      have hwalk := reaches_walk ht n hrest
      obtain ⟨follow, hn⟩ := walk_eq_walkWith (t := t) n
      rw [List.dropLast_concat]
      rw [hn] at hwalk ⊢
      exact reaches_relpath hfree.names (node_ne_link ht hfree) hwalk r

end

end Tree

/-! ## Lookups below a root -/

/-- The lookup of a path in a tree whose root is `/` ends with `outcome`. -/
inductive Lookup (t : Tree) : Path → List Str → Outcome → Prop
  | done {r} : Lookup t r [] (.found r)
  | notDir {r c rest} : t.node r ≠ some .dir → Lookup t r (c :: rest) .failed
  | skip {r c rest outcome} : t.node r = some .dir → c = [] ∨ c = dot → Lookup t r rest outcome →
      Lookup t r (c :: rest) outcome
  | root {rest} : Lookup t [] (dotDot :: rest) .escaped
  | up {r rest outcome} : t.node r = some .dir → r ≠ [] → Lookup t r.dropLast rest outcome →
      Lookup t r (dotDot :: rest) outcome
  | absent {r c rest} : t.node r = some .dir → IsName c → t.node (r ++ [c]) = none →
      Lookup t r (c :: rest) (.absent (r ++ [c]) rest)
  | empty {r c rest} : t.node r = some .dir → IsName c → t.node (r ++ [c]) = some (.link []) →
      Lookup t r (c :: rest) .failed
  | follow {r c rest target outcome} : t.node r = some .dir → IsName c →
      t.node (r ++ [c]) = some (.link target) → target ≠ [] →
      Lookup t (linkStart r target) (components target ++ rest) outcome →
      Lookup t r (c :: rest) outcome
  | step {r c rest node outcome} : t.node r = some .dir → IsName c → t.node (r ++ [c]) = some node →
      (∀ target, node ≠ .link target) → Lookup t (r ++ [c]) rest outcome →
      Lookup t r (c :: rest) outcome

/-- A lookup that succeeds resolves its path over the links of the tree. -/
theorem Lookup.resolves {t : Tree} {links : Path → Option Str}
    (ht : ∀ p target, t.node p = some (.link target) ↔ links p = some target) {r f : Path}
    {cs : List Str} {outcome : Outcome} (h : Lookup t r cs outcome) (hfound : outcome = .found f) :
    Resolves links r cs f := by
  induction h with
  | done =>
    cases hfound
    exact .done
  | notDir => cases hfound
  | skip _ hc _ ih => exact .skip hc (ih hfound)
  | root => cases hfound
  | up _ hr _ ih => exact .up hr (ih hfound)
  | absent => cases hfound
  | empty => cases hfound
  | follow _ hc hnode _ _ ih => exact .follow hc ((ht _ _).1 hnode) (ih hfound)
  | step _ hc hnode hlink _ ih =>
    refine .step hc ?_ (ih hfound)
    by_contra hsome
    obtain ⟨target, htarget⟩ := Option.ne_none_iff_exists'.1 hsome
    rw [← ht, hnode] at htarget
    exact hlink target (Option.some.inj htarget)

end RulesMkosi.FileTree
