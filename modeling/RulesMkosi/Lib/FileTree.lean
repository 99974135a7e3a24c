/-
  Directory trees and path resolution.

  A tree is a dictionary from paths below its root to nodes; the root itself is a
  directory.  `walk` resolves a path the way a kernel does: component by component,
  following symbolic links relative to the directory that they are in, with a bound
  on the links that are followed.  A walk that would leave the root is `escaped`.
-/
import RulesMkosi.Lib.Result
import RulesMkosi.Lib.Dict
import RulesMkosi.Lib.Bytes
import RulesMkosi.Lib.Text
import Mathlib.Logic.Relation

namespace RulesMkosi.FileTree

/-- The components of a path below the root. -/
abbrev Path := List Str

inductive Node where
  | dir
  | file (content : Bytes)
  | link (target : Str)
  deriving Repr, DecidableEq

abbrev Tree := Dict Path Node

/-- The end of a walk. -/
inductive Outcome where
  | found (location : Path)
  /-- The next component does not exist; `rest` follows it. -/
  | absent (location : Path) (rest : List Str)
  /-- A component is not a directory, a link is empty, or too many links are followed. -/
  | failed
  /-- The walk leaves the root. -/
  | escaped
  deriving Repr, DecidableEq

/-- `text.split("/")` -/
def components (text : Str) : List Str := text.splitOn '/'

/-- `"/".join(path)` -/
def pathText (path : Path) : Str := ['/'].intercalate path

/-- `text.startswith("/")` -/
def isAbsolute (text : Str) : Bool := text.head? = some '/'

def dot : Str := ['.']

def dotDot : Str := ['.', '.']

/-- A component that names a directory entry. -/
structure IsName (c : Str) : Prop where
  not_nil : c ≠ []
  not_dot : c ≠ dot
  not_dotDot : c ≠ dotDot
  no_slash : '/' ∉ c

/-- Every component names an entry. -/
def Names (p : Path) : Prop := ∀ c ∈ p, IsName c

namespace Tree

def node (t : Tree) (p : Path) : Option Node := if p = [] then some .dir else t.get p

/-- A walk up to the first link; `follow` continues there with the components of the link. -/
def walkWith (t : Tree) (follow : Path → List Str → Outcome) : Path → List Str → Outcome
  | location, [] => .found location
  | location, c :: rest =>
    if t.node location ≠ some .dir then .failed
    else if c = [] ∨ c = dot then walkWith t follow location rest
    else if c = dotDot then
      if location = [] then .escaped else walkWith t follow location.dropLast rest
    else
      match t.node (location ++ [c]) with
      | none => .absent (location ++ [c]) rest
      | some (.link target) =>
        if target = [] then .failed
        else if isAbsolute target then .escaped
        else follow location (components target ++ rest)
      | some _ => walkWith t follow (location ++ [c]) rest

/-- The walk that follows at most `links` links. -/
def walk (t : Tree) : ℕ → Path → List Str → Outcome
  | 0 => walkWith t fun _ _ => .failed
  | links + 1 => walkWith t (walk t links)

section
variable {t : Tree} {follow : Path → List Str → Outcome} {r : Path} {c : Str} {rest : List Str}

theorem walkWith_notDir (hdir : t.node r ≠ some .dir) :
    walkWith t follow r (c :: rest) = .failed := by
  rw [walkWith, if_pos hdir]

theorem walkWith_skip (hdir : t.node r = some .dir) (hc : c = [] ∨ c = dot) :
    walkWith t follow r (c :: rest) = walkWith t follow r rest := by
  rw [walkWith, if_neg (not_not.2 hdir), if_pos hc]

theorem walkWith_up (hdir : t.node r = some .dir) (hr : r ≠ []) :
    walkWith t follow r (dotDot :: rest) = walkWith t follow r.dropLast rest := by
  rw [walkWith, if_neg (not_not.2 hdir), if_neg (by simp [dot, dotDot]), if_pos rfl, if_neg hr]

theorem walkWith_entry (hdir : t.node r = some .dir) (hskip : ¬ (c = [] ∨ c = dot))
    (hdots : c ≠ dotDot) :
    walkWith t follow r (c :: rest) =
      match t.node (r ++ [c]) with
      | none => .absent (r ++ [c]) rest
      | some (.link target) =>
        if target = [] then .failed
        else if isAbsolute target then .escaped
        else follow r (components target ++ rest)
      | some _ => walkWith t follow (r ++ [c]) rest := by
  rw [walkWith, if_neg (not_not.2 hdir), if_neg hskip, if_neg hdots]

theorem walkWith_name (hdir : t.node r = some .dir) (hc : IsName c) :
    walkWith t follow r (c :: rest) =
      match t.node (r ++ [c]) with
      | none => .absent (r ++ [c]) rest
      | some (.link target) =>
        if target = [] then .failed
        else if isAbsolute target then .escaped
        else follow r (components target ++ rest)
      | some _ => walkWith t follow (r ++ [c]) rest :=
  walkWith_entry hdir (not_or.2 ⟨hc.not_nil, hc.not_dot⟩) hc.not_dotDot

end

/-! ## System calls -/

/-- The links that a path lookup may follow. -/
def maxLinks : ℕ := 40

def resolve (t : Tree) (p : Path) : Outcome := walk t maxLinks [] p

/-- The place of a path's last component, which is not followed. -/
def entry (t : Tree) (p : Path) : Option Path :=
  match p.getLast? with
  | none => some []
  | some name =>
    match t.resolve p.dropLast with
    | .found location => if t.node location = some .dir then some (location ++ [name]) else none
    | _ => none

/-- `os.lstat(path)` -/
def lstat (t : Tree) (p : Path) : Option Node := (t.entry p).bind t.node

/-- `os.stat(path)` -/
def stat (t : Tree) (p : Path) : Option Node :=
  match t.resolve p with
  | .found location => t.node location
  | _ => none

/-- `os.listdir(path)`; nothing if it is not a directory. -/
def listdir (t : Tree) (p : Path) : List Str :=
  match t.resolve p with
  | .found location =>
    t.keys.filterMap fun q => if q.dropLast = location then q.getLast? else none
  | _ => []

/-- A new entry in a directory that is there. -/
def addEntry (t : Tree) (p : Path) (n : Node) : Except Exn Tree :=
  match t.entry p with
  | none => .error (.osError "No such file or directory")
  | some q => if t.node q = none then .ok (t.set q n) else .error (.osError "File exists")

/-- `os.mkdir(path)` -/
def mkdir (t : Tree) (p : Path) : Except Exn Tree := t.addEntry p .dir

/-- `os.symlink(target, path)` -/
def symlink (t : Tree) (target : Str) (p : Path) : Except Exn Tree :=
  if target = [] then .error (.osError "No such file or directory") else t.addEntry p (.link target)

/-- `open(path, "wb")` and the bytes that are written -/
def writeFile (t : Tree) (p : Path) (content : Bytes) : Except Exn Tree :=
  match t.resolve p with
  | .found location =>
    match t.node location with
    | some (.file _) => .ok (t.set location (.file content))
    | _ => .error (.osError "Is a directory")
  | .absent location [] => .ok (t.set location (.file content))
  | _ => .error (.osError "No such file or directory")

/-- `os.link(source, path)` -/
def hardlink (t : Tree) (source p : Path) : Except Exn Tree :=
  match t.stat source with
  | some (.file content) => t.addEntry p (.file content)
  | some _ => .error (.osError "Operation not permitted")
  | none => .error (.osError "No such file or directory")

/-- `os.unlink(path)` -/
def unlink (t : Tree) (p : Path) : Except Exn Tree :=
  match t.entry p with
  | none => .error (.osError "No such file or directory")
  | some q =>
    match t.node q with
    | none => .error (.osError "No such file or directory")
    | some .dir => .error (.osError "Is a directory")
    | some _ => .ok (t.erase q)

/-- `os.rmdir(path)` -/
def rmdir (t : Tree) (p : Path) : Except Exn Tree :=
  match t.entry p with
  | none => .error (.osError "No such file or directory")
  | some q =>
    if t.node q ≠ some .dir then .error (.osError "Not a directory")
    else if q = [] then .error (.osError "Device or resource busy")
    else if t.keys.any (fun k => k.dropLast = q) then .error (.osError "Directory not empty")
    else .ok (t.erase q)

/-! ## Nodes -/

variable {t t' : Tree} {p q : Path} {n : Node}

theorem node_nil : t.node [] = some .dir := if_pos rfl

theorem node_of_ne (h : p ≠ []) : t.node p = t.get p := if_neg h

theorem ne_nil_of_node (h : t.node p ≠ some .dir) : p ≠ [] := by
  rintro rfl
  exact h node_nil

theorem node_set (h : q ≠ []) (p : Path) :
    Tree.node (t.set q n) p = if q = p then some n else t.node p := by
  by_cases hp : p = []
  · subst hp
    rw [node_nil, node_nil, if_neg h]
  · rw [node_of_ne hp, node_of_ne hp, Dict.get_set]

theorem node_erase (h : q ≠ []) (p : Path) :
    Tree.node (t.erase q) p = if q = p then none else t.node p := by
  by_cases hp : p = []
  · subst hp
    rw [node_nil, node_nil, if_neg h]
  · rw [node_of_ne hp, node_of_ne hp, Dict.get_erase]

/-- Directories and links stay, and no link is added. -/
structure Keeps (t t' : Tree) : Prop where
  dir : ∀ p, t.node p = some .dir → t'.node p = some .dir
  link : ∀ p target, t'.node p = some (.link target) ↔ t.node p = some (.link target)

theorem Keeps.refl (t : Tree) : Keeps t t := ⟨fun _ h => h, fun _ _ => Iff.rfl⟩

theorem Keeps.trans {t'' : Tree} (h : Keeps t t') (h' : Keeps t' t'') : Keeps t t'' :=
  ⟨fun p hp => h'.dir p (h.dir p hp), fun p target => (h'.link p target).trans (h.link p target)⟩

instance : Trans Keeps Keeps Keeps := ⟨Keeps.trans⟩

theorem addEntry_eq_ok (h : t.addEntry p n = .ok t') :
    ∃ q, t.entry p = some q ∧ t.node q = none ∧ q ≠ [] ∧ t' = t.set q n := by
  unfold addEntry at h
  split at h
  · cases h
  · next q hq =>
    split_ifs at h with hnode
    cases h
    exact ⟨q, hq, hnode, ne_nil_of_node (by rw [hnode]; simp), rfl⟩

theorem keeps_set (hq : q ≠ []) (hdir : t.node q ≠ some .dir)
    (hold : ∀ target, t.node q ≠ some (.link target)) (hnew : ∀ target, n ≠ .link target) :
    Keeps t (t.set q n) := by
  constructor
  · intro p hp
    rw [node_set hq, if_neg (by rintro rfl; exact hdir hp), hp]
  · intro p target
    rw [node_set hq]
    split_ifs with heq
    · subst heq
      constructor
      · intro h; exact absurd (Option.some.inj h) (hnew target)
      · intro h; exact absurd h (hold target)
    · exact Iff.rfl

theorem keeps_addEntry (hnew : ∀ target, n ≠ .link target) (h : t.addEntry p n = .ok t') :
    Keeps t t' := by
  obtain ⟨q, -, hnode, hq, rfl⟩ := addEntry_eq_ok h
  exact keeps_set hq (by rw [hnode]; simp) (by rw [hnode]; simp) hnew

theorem keeps_mkdir (h : t.mkdir p = .ok t') : Keeps t t' := keeps_addEntry (by simp) h

theorem keeps_hardlink {source : Path} (h : t.hardlink source p = .ok t') : Keeps t t' := by
  unfold hardlink at h
  split at h
  · exact keeps_addEntry (by simp) h
  · cases h
  · cases h

/-- The component at which a walk stops is not there. -/
theorem node_of_walkWith_absent {follow : Path → List Str → Outcome} {rest : List Str}
    (hfollow : ∀ r cs, follow r cs = .absent p rest → t.node p = none) :
    ∀ {cs : List Str} {r : Path}, walkWith t follow r cs = .absent p rest → t.node p = none
  | [], _, h => by cases h
  | c :: cs, r, h => by
    rw [walkWith] at h
    split_ifs at h
    · exact node_of_walkWith_absent hfollow h
    · exact node_of_walkWith_absent hfollow h
    · split at h
      · next hnone =>
        cases h
        exact hnone
      · split_ifs at h
        exact hfollow _ _ h
      · exact node_of_walkWith_absent hfollow h

theorem node_of_walk_absent {rest : List Str} : ∀ {links : ℕ} {cs : List Str} {r : Path},
    t.walk links r cs = .absent p rest → t.node p = none
  | 0, _, _, h => node_of_walkWith_absent (fun _ _ h => by cases h) h
  | _ + 1, _, _, h => node_of_walkWith_absent (fun _ _ h => node_of_walk_absent h) h

theorem keeps_writeFile {content : Bytes} (h : t.writeFile p content = .ok t') : Keeps t t' := by
  unfold writeFile at h
  split at h
  · next location _ =>
    split at h
    · next old hnode =>
      cases h
      have hdir : t.node location ≠ some .dir := by rw [hnode]; simp
      exact keeps_set (ne_nil_of_node hdir) hdir (by rw [hnode]; simp) (by simp)
    · cases h
  · next location hwalk =>
    cases h
    have hnode := node_of_walk_absent hwalk
    have hdir : t.node location ≠ some .dir := by rw [hnode]; simp
    exact keeps_set (ne_nil_of_node hdir) hdir (by rw [hnode]; simp) (by simp)
  · cases h

/-! ## Paths of directories -/

/-- The path and every path above it are directories. -/
def AllDirs (t : Tree) (p : Path) : Prop := ∀ q, q <+: p → t.node q = some .dir

theorem allDirs_nil : AllDirs t [] := by
  intro q hq
  rw [List.prefix_nil.1 hq, node_nil]

theorem allDirs_concat {c : Str} (h : AllDirs t p) (hc : t.node (p ++ [c]) = some .dir) :
    AllDirs t (p ++ [c]) := by
  intro q hq
  rcases List.prefix_concat_iff.1 hq with rfl | hq
  · exact hc
  · exact h q hq

theorem AllDirs.mono (h : AllDirs t p) (hdir : ∀ q, t.node q = some .dir → t'.node q = some .dir) :
    AllDirs t' p := fun q hq => hdir q (h q hq)

/-- A walk over directories. -/
theorem walkWith_of_allDirs {follow : Path → List Str → Outcome} : ∀ {cs : List Str} {r : Path},
    Names cs → AllDirs t (r ++ cs) → walkWith t follow r cs = .found (r ++ cs)
  | [], r, _, _ => by rw [walkWith, List.append_nil]
  | c :: cs, r, hcs, h => by
    obtain ⟨hc, hcs⟩ := List.forall_mem_cons.1 hcs
    rw [List.append_cons] at h ⊢
    have hr : t.node r = some .dir := h r ((List.prefix_append r [c]).trans (List.prefix_append _ cs))
    have hrc : t.node (r ++ [c]) = some .dir := h _ (List.prefix_append _ cs)
    rw [walkWith_name hr hc, hrc]
    exact walkWith_of_allDirs hcs h

theorem resolve_of_allDirs (hp : Names p) (h : AllDirs t p) : t.resolve p = .found p :=
  walkWith_of_allDirs (r := []) hp h

/-- An entry of a directory that is reached without links. -/
theorem entry_of_allDirs {c : Str} (hp : Names p) (h : AllDirs t p) :
    t.entry (p ++ [c]) = some (p ++ [c]) := by
  rw [entry, List.getLast?_concat, List.dropLast_concat]
  simp only [resolve_of_allDirs hp h]
  rw [if_pos (h p List.prefix_rfl)]

theorem lstat_of_allDirs {c : Str} (hp : Names p) (h : AllDirs t p) :
    t.lstat (p ++ [c]) = t.node (p ++ [c]) := by
  rw [lstat, entry_of_allDirs hp h, Option.bind_some]

/-- A new link in a directory that is reached without links. -/
theorem symlink_of_allDirs {c target : Str} (hp : Names p) (hdirs : AllDirs t p)
    (h : t.symlink target (p ++ [c]) = .ok t') :
    t.node (p ++ [c]) = none ∧ t' = t.set (p ++ [c]) (.link target) := by
  unfold symlink at h
  split_ifs at h
  obtain ⟨q, hq, hnode, -, rfl⟩ := addEntry_eq_ok h
  rw [entry_of_allDirs hp hdirs] at hq
  cases hq
  exact ⟨hnode, rfl⟩

/-! ## Lookups step by step -/

/-- The directory that is reached and the components that are left. -/
abbrev State := Path × List Str

/-- One step of a walk below the root. -/
inductive Step (t : Tree) : State → State → Prop
  | skip {r c rest} : t.node r = some .dir → c = [] ∨ c = dot → Step t (r, c :: rest) (r, rest)
  | up {r rest} : t.node r = some .dir → r ≠ [] → Step t (r, dotDot :: rest) (r.dropLast, rest)
  | follow {r c rest target} : t.node r = some .dir → ¬ (c = [] ∨ c = dot) → c ≠ dotDot →
      t.node (r ++ [c]) = some (.link target) → target ≠ [] →
      Step t (r, c :: rest) (r, components target ++ rest)
  | enter {r c rest n} : t.node r = some .dir → ¬ (c = [] ∨ c = dot) → c ≠ dotDot →
      t.node (r ++ [c]) = some n → (∀ target, n ≠ .link target) →
      Step t (r, c :: rest) (r ++ [c], rest)

/-- Some number of steps. -/
def Steps (t : Tree) : State → State → Prop := Relation.ReflTransGen (Step t)

section
variable (t : Tree)

/-- The links of the tree are relative. -/
def Relative : Prop := ∀ p target, t.node p = some (.link target) → isAbsolute target = false

variable {t} (ht : Relative t)

theorem walk_eq_walkWith (n : ℕ) : ∃ follow, t.walk n = walkWith t follow := by
  cases n with
  | zero => exact ⟨_, rfl⟩
  | succ n => exact ⟨_, rfl⟩

include ht

theorem walk_of_step {s s' : State} (hstep : Step t s s') {n : ℕ}
    (h : t.walk n s'.1 s'.2 = .escaped) : ∃ m, t.walk m s.1 s.2 = .escaped := by
  obtain ⟨follow, hn⟩ := walk_eq_walkWith (t := t) n
  cases hstep with
  | skip hdir hc =>
    refine ⟨n, ?_⟩
    rw [hn] at h ⊢
    rw [walkWith_skip hdir hc]
    exact h
  | up hdir hr =>
    refine ⟨n, ?_⟩
    rw [hn] at h ⊢
    rw [walkWith_up hdir hr]
    exact h
  | follow hdir hskip hdots hnode htarget =>
    refine ⟨n + 1, ?_⟩
    rw [walk, walkWith_entry hdir hskip hdots, hnode]
    dsimp only
    rw [if_neg htarget, ht _ _ hnode]
    exact h
  | @enter r c rest node hdir hskip hdots hnode hlink =>
    refine ⟨n, ?_⟩
    rw [hn] at h ⊢
    rw [walkWith_entry hdir hskip hdots, hnode]
    cases node with
    | link target => exact absurd rfl (hlink target)
    | dir => exact h
    | file => exact h

/-- Up to the first link, a walk that leaves the root takes steps to the root. -/
theorem steps_of_walkWith {follow : Path → List Str → Outcome}
    (hfollow : ∀ {r cs}, follow r cs = .escaped → ∃ rest, Steps t (r, cs) ([], dotDot :: rest)) :
    ∀ {cs : List Str} {r : Path}, walkWith t follow r cs = .escaped →
      ∃ rest, Steps t (r, cs) ([], dotDot :: rest)
  | [], r, h => by cases h
  | c :: cs, r, h => by
    by_cases hdir : t.node r = some .dir
    case neg =>
      rw [walkWith_notDir hdir] at h
      cases h
    by_cases hskip : c = [] ∨ c = dot
    · rw [walkWith_skip hdir hskip] at h
      obtain ⟨rest, hsteps⟩ := steps_of_walkWith hfollow h
      exact ⟨rest, hsteps.head (.skip hdir hskip)⟩
    by_cases hdots : c = dotDot
    · subst hdots
      by_cases hroot : r = []
      · subst hroot
        exact ⟨cs, .refl⟩
      · rw [walkWith_up hdir hroot] at h
        obtain ⟨rest, hsteps⟩ := steps_of_walkWith hfollow h
        exact ⟨rest, hsteps.head (.up hdir hroot)⟩
    rw [walkWith_entry hdir hskip hdots] at h
    split at h
    · cases h
    · next target hnode =>
      rw [ht _ _ hnode] at h
      by_cases hempty : target = []
      · rw [if_pos hempty] at h
        cases h
      · rw [if_neg hempty] at h
        obtain ⟨rest, hsteps⟩ := hfollow h
        exact ⟨rest, hsteps.head (.follow hdir hskip hdots hnode hempty)⟩
    · next n hlink hnode =>
      obtain ⟨rest, hsteps⟩ := steps_of_walkWith hfollow h
      exact ⟨rest, hsteps.head (.enter hdir hskip hdots hnode hlink)⟩

theorem steps_of_walk : ∀ {n : ℕ} {r : Path} {cs : List Str}, t.walk n r cs = .escaped →
    ∃ rest, Steps t (r, cs) ([], dotDot :: rest)
  | 0, _, _, h => steps_of_walkWith ht (fun h => by cases h) h
  | _ + 1, _, _, h => steps_of_walkWith ht (fun h => steps_of_walk h) h

/-- **Walks that leave the root.**  They are those that come to `..` at the root. -/
theorem walk_escaped_iff {r : Path} {cs : List Str} :
    (∃ n, t.walk n r cs = .escaped) ↔ ∃ rest, Steps t (r, cs) ([], dotDot :: rest) := by
  constructor
  · rintro ⟨n, h⟩
    exact steps_of_walk ht h
  · rintro ⟨rest, hsteps⟩
    show ∃ n, t.walk n (r, cs).1 (r, cs).2 = .escaped
    generalize (r, cs) = s at hsteps
    induction hsteps using Relation.ReflTransGen.head_induction_on with
    | refl => exact ⟨0, by rw [walk, walkWith, if_neg (not_not.2 node_nil)]; simp [dot, dotDot]⟩
    | head hstep _ ih =>
      obtain ⟨n, hn⟩ := ih
      exact walk_of_step ht hstep hn

omit ht in
/-- Where a walk finds something, it finds the same from the next step on. -/
theorem found_of_step {s s' : State} (hstep : Step t s s') {n : ℕ} {f : Path}
    (h : t.walk n s.1 s.2 = .found f) : ∃ m, t.walk m s'.1 s'.2 = .found f := by
  obtain ⟨follow, hn⟩ := walk_eq_walkWith (t := t) n
  cases hstep with
  | skip hdir hc =>
    refine ⟨n, ?_⟩
    rw [hn] at h ⊢
    rwa [walkWith_skip hdir hc] at h
  | up hdir hr =>
    refine ⟨n, ?_⟩
    rw [hn] at h ⊢
    rwa [walkWith_up hdir hr] at h
  | follow hdir hskip hdots hnode htarget =>
    cases n with
    | zero =>
      rw [walk, walkWith_entry hdir hskip hdots, hnode] at h
      dsimp only at h
      split_ifs at h
    | succ n =>
      rw [walk, walkWith_entry hdir hskip hdots, hnode] at h
      dsimp only at h
      split_ifs at h
      exact ⟨n, h⟩
  | @enter r c rest node hdir hskip hdots hnode hlink =>
    refine ⟨n, ?_⟩
    rw [hn] at h ⊢
    rw [walkWith_entry hdir hskip hdots, hnode] at h
    cases node with
    | link target => exact absurd rfl (hlink target)
    | dir => exact h
    | file => exact h

/-- A walk that finds something leaves the root with no number of links. -/
theorem not_escaped_of_found {r : Path} {cs : List Str} {n : ℕ} {f : Path}
    (h : t.walk n r cs = .found f) (m : ℕ) : t.walk m r cs ≠ .escaped := by
  intro hescaped
  obtain ⟨rest, hsteps⟩ := (walk_escaped_iff ht).1 ⟨m, hescaped⟩
  have hfound : ∃ n, t.walk n (r, cs).1 (r, cs).2 = .found f := ⟨n, h⟩
  generalize (r, cs) = s at hsteps hfound
  induction hsteps using Relation.ReflTransGen.head_induction_on with
  | refl =>
    obtain ⟨n, hn⟩ := hfound
    obtain ⟨follow, hwalk⟩ := walk_eq_walkWith (t := t) n
    rw [hwalk, walkWith, if_neg (not_not.2 node_nil)] at hn
    simp [dot, dotDot] at hn
  | head hstep _ ih =>
    obtain ⟨n, hn⟩ := hfound
    exact ih (found_of_step hstep hn)

end

end Tree

end RulesMkosi.FileTree
