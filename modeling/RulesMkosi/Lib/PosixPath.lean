/-
  POSIX paths as Python's `posixpath` and `pathlib` read them.
-/
import Mathlib.Data.String.Basic

namespace RulesMkosi

/-- `s.split("/")` -/
def splitSlash (s : String) : List String := (s.toList.splitOn '/').map String.ofList

/-- `"/".join(parts)` -/
def joinSlash : List String → String
  | [] => ""
  | [a] => a
  | a :: l => a ++ "/" ++ joinSlash l

/-- `s.startswith(t)` -/
def startsWith (s t : String) : Bool := t.toList.isPrefixOf s.toList

/-- `s.endswith(t)` -/
def endsWith (s t : String) : Bool := t.toList.isSuffixOf s.toList

/-- `q` is a descendant of `p`: `q.startswith(p + "/")`. -/
def isBelow (q p : String) : Bool := startsWith q (p ++ "/")

theorem startsWith_iff {s t : String} : startsWith s t ↔ ∃ u, s = t ++ u := by
  unfold startsWith
  rw [List.isPrefixOf_iff_prefix]
  constructor
  · rintro ⟨u, hu⟩
    exact ⟨String.ofList u, by rw [← String.toList_inj, String.toList_append, String.toList_ofList, hu]⟩
  · rintro ⟨u, rfl⟩
    exact ⟨u.toList, String.toList_append.symm⟩

theorem isBelow_iff {q p : String} : isBelow q p ↔ ∃ u, q = p ++ "/" ++ u := startsWith_iff

theorem isBelow_trans {p q r : String} (hq : isBelow q p) (hr : isBelow r q) : isBelow r p := by
  obtain ⟨u, rfl⟩ := isBelow_iff.1 hq
  obtain ⟨w, rfl⟩ := isBelow_iff.1 hr
  exact isBelow_iff.2 ⟨u ++ "/" ++ w, by simp only [String.append_assoc]⟩

theorem joinSlash_cons (a b : String) (l : List String) :
    joinSlash (a :: b :: l) = a ++ "/" ++ joinSlash (b :: l) := rfl

theorem joinSlash_toList : ∀ l : List String,
    (joinSlash l).toList = ['/'].intercalate (l.map String.toList)
  | [] => rfl
  | [a] => by simp [joinSlash]
  | a :: b :: l => by
    rw [joinSlash_cons, String.toList_append, String.toList_append, joinSlash_toList (b :: l)]
    simp [List.intercalate]

theorem joinSlash_splitSlash (s : String) : joinSlash (splitSlash s) = s := by
  rw [← String.toList_inj, joinSlash_toList, splitSlash, List.map_map]
  have : String.toList ∘ String.ofList = id := funext fun l => String.toList_ofList
  rw [this, List.map_id, List.intercalate_splitOn]

theorem splitSlash_joinSlash {parts : List String} (hne : parts ≠ [])
    (h : ∀ part ∈ parts, '/' ∉ part.toList) : splitSlash (joinSlash parts) = parts := by
  have hsplit := List.splitOn_intercalate '/' (by simpa using h) (List.map_eq_nil_iff.not.2 hne)
  rw [splitSlash, joinSlash_toList, hsplit, List.map_map]
  have hid : String.ofList ∘ String.toList = id := funext fun s => String.ofList_toList
  rw [hid, List.map_id]

theorem joinSlash_append : ∀ {l₁ l₂ : List String}, l₁ ≠ [] → l₂ ≠ [] →
    joinSlash (l₁ ++ l₂) = joinSlash l₁ ++ "/" ++ joinSlash l₂
  | [], _, h, _ => absurd rfl h
  | [a], [], _, h => absurd rfl h
  | [a], b :: l, _, _ => rfl
  | a :: b :: l, l₂, _, h => by
    have ih := joinSlash_append (List.cons_ne_nil b l) h
    rw [joinSlash_cons, List.cons_append, List.cons_append, joinSlash_cons, ← List.cons_append, ih]
    simp only [String.append_assoc]

/-- A path is below the join of its first components. -/
theorem isBelow_take {s : String} {n : ℕ} (h₀ : 0 < n) (h : n < (splitSlash s).length) :
    isBelow s (joinSlash ((splitSlash s).take n)) := by
  refine isBelow_iff.2 ⟨joinSlash ((splitSlash s).drop n), ?_⟩
  have h₁ : (splitSlash s).take n ≠ [] := List.ne_nil_of_length_pos (by simp; omega)
  have h₂ : (splitSlash s).drop n ≠ [] := List.ne_nil_of_length_pos (by simp; omega)
  rw [← joinSlash_append h₁ h₂, List.take_append_drop, joinSlash_splitSlash]

/-- A `PurePosixPath`: its root and the components after it. -/
structure PosixPath where
  /-- `""`, `"/"` or `"//"` -/
  root : String
  tail : List String
  deriving Repr, DecidableEq

namespace PosixPath

/-- The root of a path: exactly two leading slashes are kept apart. -/
def rootOf : List Char → String
  | '/' :: '/' :: '/' :: _ => "/"
  | '/' :: '/' :: _ => "//"
  | '/' :: _ => "/"
  | _ => ""

/-- `PurePosixPath(s)`: empty and `.` components are dropped. -/
def parse (s : String) : PosixPath where
  root := rootOf s.toList
  tail := (splitSlash s).filter fun part => part ≠ "" ∧ part ≠ "."

/-- `path.parts` -/
def parts (p : PosixPath) : List String := if p.root = "" then p.tail else p.root :: p.tail

def isAbsolute (p : PosixPath) : Bool := p.root ≠ ""

/-- `str(path)` -/
def str (p : PosixPath) : String :=
  if p.root = "" ∧ p.tail = [] then "." else p.root ++ joinSlash p.tail

/-- `path.parent` -/
def parent (p : PosixPath) : PosixPath := { p with tail := p.tail.dropLast }

/-- `path / other` -/
def join (p : PosixPath) (other : String) : PosixPath :=
  let q := parse other
  if q.isAbsolute then q else { p with tail := p.tail ++ q.tail }

/-- `path.is_relative_to(other)` -/
def isRelativeTo (p other : PosixPath) : Bool := other.parts.isPrefixOf p.parts

end PosixPath

/-- The component loop of `normpath`, with the components so far reversed. -/
def normComponents (absolute : Bool) : List String → List String → List String
  | done, [] => done.reverse
  | done, comp :: rest =>
    if comp = "" ∨ comp = "." then normComponents absolute done rest
    else if comp ≠ ".." then normComponents absolute (comp :: done) rest
    else match done with
      | [] => normComponents absolute (if absolute then [] else [".."]) rest
      | ".." :: done => normComponents absolute (".." :: ".." :: done) rest
      | _ :: done => normComponents absolute done rest

/-- `posixpath.normpath(path)` -/
def normpath (path : String) : String :=
  let root := PosixPath.rootOf path.toList
  let result := root ++ joinSlash (normComponents (root ≠ "") [] (splitSlash path))
  if result = "" then "." else result

end RulesMkosi
