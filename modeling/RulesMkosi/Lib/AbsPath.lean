/-
  Absolute paths as Python's `posixpath.abspath` makes them.

  The components of a normalised absolute path are names: none is empty, `.` or `..`.
  Normalising such a path again changes nothing.
-/
import RulesMkosi.Lib.PosixPath
import RulesMkosi.Lib.Text

namespace RulesMkosi

/-- `posixpath.join(a, b)` -/
def joinPath (a b : String) : String :=
  if startsWith b "/" then b
  else if a = "" ∨ endsWith a "/" then a ++ b
  else a ++ "/" ++ b

/-- `posixpath.abspath(path)` in the working directory `cwd` -/
def abspath (cwd path : String) : String :=
  normpath (if startsWith path "/" then path else joinPath cwd path)

/-- A component that `normpath` keeps. -/
def IsPlain (component : String) : Prop := component ≠ "" ∧ component ≠ "." ∧ component ≠ ".."

/-! ## Components -/

theorem normComponents_names : ∀ {comps done : List String}, (∀ c ∈ done, IsPlain c) →
    ∀ c ∈ normComponents true done comps, IsPlain c ∧ (c ∈ done ∨ c ∈ comps)
  | [], done, h, c, hc => by
    rw [normComponents, List.mem_reverse] at hc
    exact ⟨h c hc, .inl hc⟩
  | comp :: comps, done, h, c, hc => by
    rw [normComponents.eq_def] at hc
    simp only [if_true] at hc
    split_ifs at hc with hskip hparent
    · obtain ⟨hname, hmem⟩ := normComponents_names h c hc
      exact ⟨hname, hmem.imp_right (List.mem_cons_of_mem _)⟩
    · have hcomp : IsPlain comp := ⟨fun h => hskip (.inl h), fun h => hskip (.inr h), hparent⟩
      obtain ⟨hname, hmem⟩ := normComponents_names (List.forall_mem_cons.2 ⟨hcomp, h⟩) c hc
      refine ⟨hname, ?_⟩
      rcases hmem with hmem | hmem
      · rcases List.mem_cons.1 hmem with rfl | hmem
        · exact .inr List.mem_cons_self
        · exact .inl hmem
      · exact .inr (List.mem_cons_of_mem _ hmem)
    · -- `..` takes the last name away
      split at hc
      · obtain ⟨hname, hmem⟩ := normComponents_names (by simp) c hc
        exact ⟨hname, .inr (List.mem_cons_of_mem _ (hmem.resolve_left (by simp)))⟩
      · exact absurd rfl (h ".." List.mem_cons_self).2.2
      · next last done _ =>
        obtain ⟨hname, hmem⟩ := normComponents_names (List.forall_mem_cons.1 h).2 c hc
        refine ⟨hname, ?_⟩
        rcases hmem with hmem | hmem
        · exact .inl (List.mem_cons_of_mem _ hmem)
        · exact .inr (List.mem_cons_of_mem _ hmem)

theorem normComponents_of_names : ∀ {comps done : List String}, (∀ c ∈ comps, IsPlain c) →
    normComponents true done comps = done.reverse ++ comps
  | [], done, _ => by rw [normComponents, List.append_nil]
  | comp :: comps, done, h => by
    obtain ⟨hcomp, hcomps⟩ := List.forall_mem_cons.1 h
    have hskip : ¬ (comp = "" ∨ comp = ".") := fun hskip => hskip.elim hcomp.1 hcomp.2.1
    rw [normComponents.eq_def]
    dsimp only
    rw [if_neg hskip, if_pos hcomp.2.2, normComponents_of_names hcomps]
    simp

theorem normComponents_skip (done comps : List String) :
    normComponents true done ("" :: comps) = normComponents true done comps := by
  rw [normComponents.eq_def]
  exact if_pos (.inl rfl)

/-! ## Normalised absolute paths -/

/-- The roots of absolute paths. -/
theorem rootOf_absolute {path : String} (h : startsWith path "/" = true) :
    PosixPath.rootOf path.toList = "/" ∨ PosixPath.rootOf path.toList = "//" := by
  obtain ⟨rest, rfl⟩ := startsWith_iff.1 h
  rw [String.toList_append]
  show PosixPath.rootOf ('/' :: rest.toList) = _ ∨ PosixPath.rootOf ('/' :: rest.toList) = _
  unfold PosixPath.rootOf
  split
  · exact .inl rfl
  · exact .inr rfl
  · exact .inl rfl
  · next hnot => exact absurd rfl (hnot _)

theorem not_slash_of_mem_splitSlash {path part : String} (h : part ∈ splitSlash path) :
    '/' ∉ part.toList := by
  obtain ⟨piece, hpiece, rfl⟩ := List.mem_map.1 h
  rw [String.toList_ofList]
  exact fun hmem => (mem_of_mem_splitOn hpiece _ hmem).2 rfl

/-- Names that can stand in a path. -/
def AreNames (names : List String) : Prop := ∀ c ∈ names, IsPlain c ∧ '/' ∉ c.toList

/-- A path of a root and names. -/
def Normal (path : String) : Prop :=
  ∃ root names, (root = "/" ∨ root = "//") ∧ AreNames names ∧ path = root ++ joinSlash names

theorem root_ne_empty {root : String} (h : root = "/" ∨ root = "//") : root ≠ "" := by
  rcases h with rfl | rfl
  · decide
  · decide

/-- `normpath` of a path with a root. -/
theorem normpath_eq {path : String} (h : PosixPath.rootOf path.toList ≠ "") :
    normpath path = PosixPath.rootOf path.toList ++
      joinSlash (normComponents true [] (splitSlash path)) := by
  have hresult : PosixPath.rootOf path.toList ++ joinSlash (normComponents true [] (splitSlash path)) ≠
      "" := fun hempty => h (String.append_eq_empty_iff.1 hempty).1
  rw [normpath]
  simp only [h, ne_eq, not_false_eq_true, decide_true, if_neg hresult]

theorem normpath_normal {path : String} (h : startsWith path "/" = true) : Normal (normpath path) := by
  have hroot := rootOf_absolute h
  refine ⟨_, _, hroot, fun c hc => ?_, normpath_eq (root_ne_empty hroot)⟩
  obtain ⟨hname, hmem⟩ := normComponents_names (by simp) c hc
  exact ⟨hname, not_slash_of_mem_splitSlash (hmem.resolve_left (by simp))⟩

theorem Normal.startsWith {path : String} (h : Normal path) : startsWith path "/" = true := by
  obtain ⟨root, names, rfl | rfl, -, rfl⟩ := h
  · exact startsWith_iff.2 ⟨joinSlash names, rfl⟩
  · exact startsWith_iff.2 ⟨"/" ++ joinSlash names, by rw [← String.append_assoc]; rfl⟩

/-- Names do not start with a slash. -/
theorem head_joinSlash {names : List String} (h : AreNames names) :
    (joinSlash names).toList.head? ≠ some '/' := by
  rw [joinSlash_toList]
  cases names with
  | nil => simp
  | cons name names =>
    obtain ⟨hname, hslash⟩ := h name List.mem_cons_self
    have hne : name.toList ≠ [] := fun hnil => hname.1 (String.toList_eq_nil_iff.1 hnil)
    obtain ⟨c, rest, hcons⟩ := List.exists_cons_of_ne_nil hne
    have hc : c ≠ '/' := by
      rintro rfl
      exact hslash (by rw [hcons]; exact List.mem_cons_self)
    cases names with
    | nil => simpa [hcons] using hc
    | cons next names => simpa [List.intercalate_cons_cons, hcons] using hc

theorem rootOf_append {root : String} (hroot : root = "/" ∨ root = "//") {rest : Str}
    (hhead : rest.head? ≠ some '/') : PosixPath.rootOf (root.toList ++ rest) = root := by
  rcases hroot with rfl | rfl
  · cases rest with
    | nil => rfl
    | cons c rest =>
      have hc : c ≠ '/' := by simpa using hhead
      show PosixPath.rootOf ('/' :: c :: rest) = "/"
      unfold PosixPath.rootOf
      split
      · next heq => cases heq; exact absurd rfl hc
      · next heq => cases heq; exact absurd rfl hc
      · rfl
      · next hnot => exact absurd rfl (hnot _)
  · cases rest with
    | nil => rfl
    | cons c rest =>
      have hc : c ≠ '/' := by simpa using hhead
      show PosixPath.rootOf ('/' :: '/' :: c :: rest) = "//"
      unfold PosixPath.rootOf
      split
      · next heq => cases heq; exact absurd rfl hc
      · rfl
      · next hnot heq => cases heq; exact absurd rfl (hnot _)
      · next hnot => exact absurd rfl (hnot _)

theorem normComponents_normal {root : String} (hroot : root = "/" ∨ root = "//") {names : List String}
    (h : AreNames names) : normComponents true [] (splitSlash (root ++ joinSlash names)) = names := by
  have hslash : ∀ c ∈ names, '/' ∉ c.toList := fun c hc => (h c hc).2
  have hnames : normComponents true [] names = names :=
    (normComponents_of_names fun c hc => (h c hc).1).trans (List.nil_append _)
  cases names with
  | nil =>
    rcases hroot with rfl | rfl
    · decide
    · decide
  | cons name names =>
    rcases hroot with rfl | rfl
    · have hjoin : "/" ++ joinSlash (name :: names) = joinSlash ("" :: name :: names) := by
        rw [joinSlash_cons]; simp
      rw [hjoin, splitSlash_joinSlash (by simp) (List.forall_mem_cons.2 ⟨by simp, hslash⟩),
        normComponents_skip, hnames]
    · have hjoin : "//" ++ joinSlash (name :: names) = joinSlash ("" :: "" :: name :: names) := by
        rw [joinSlash_cons, joinSlash_cons, String.empty_append, ← String.append_assoc]
        rfl
      rw [hjoin, splitSlash_joinSlash (by simp)
        (List.forall_mem_cons.2 ⟨by simp, List.forall_mem_cons.2 ⟨by simp, hslash⟩⟩),
        normComponents_skip, normComponents_skip, hnames]

/-- **A normalised absolute path** is left as it is. -/
theorem Normal.normpath_eq {path : String} (h : Normal path) : normpath path = path := by
  obtain ⟨root, names, hroot, hnames, rfl⟩ := h
  have hrootOf : PosixPath.rootOf (root ++ joinSlash names).toList = root := by
    rw [String.toList_append]
    exact rootOf_append hroot (head_joinSlash hnames)
  rw [RulesMkosi.normpath_eq (by rw [hrootOf]; exact root_ne_empty hroot), hrootOf,
    normComponents_normal hroot hnames]

/-! ## `abspath` -/

section
variable {cwd : String} (hcwd : startsWith cwd "/" = true)
include hcwd

theorem joinPath_absolute (path : String) :
    startsWith (if startsWith path "/" then path else joinPath cwd path) "/" = true := by
  obtain ⟨rest, hrest⟩ := startsWith_iff.1 hcwd
  split_ifs with h
  · exact h
  · unfold joinPath
    rw [if_neg h]
    split_ifs
    · exact startsWith_iff.2 ⟨rest ++ path, by rw [hrest, String.append_assoc]⟩
    · exact startsWith_iff.2 ⟨rest ++ "/" ++ path, by rw [hrest]; simp only [String.append_assoc]⟩

theorem abspath_normal (path : String) : Normal (abspath cwd path) :=
  normpath_normal (joinPath_absolute hcwd path)

theorem abspath_absolute (path : String) : startsWith (abspath cwd path) "/" = true :=
  (abspath_normal hcwd path).startsWith

theorem abspath_abspath (path : String) : abspath cwd (abspath cwd path) = abspath cwd path := by
  have h := abspath_normal hcwd path
  rw [abspath, if_pos h.startsWith, h.normpath_eq]

/-- An absolute path has only slashes and characters of the path and the directory. -/
theorem mem_abspath {path : String} {c : Char} (h : c ∈ (abspath cwd path).toList) :
    c = '/' ∨ c ∈ cwd.toList ∨ c ∈ path.toList := by
  have hroot := rootOf_absolute (joinPath_absolute hcwd path)
  have hjoined : ∀ c ∈ (if startsWith path "/" then path else joinPath cwd path).toList,
      c = '/' ∨ c ∈ cwd.toList ∨ c ∈ path.toList := by
    intro c hc
    split_ifs at hc with habsolute
    · exact .inr (.inr hc)
    · rw [joinPath, if_neg habsolute] at hc
      split_ifs at hc
      · rw [String.toList_append] at hc
        exact .inr (List.mem_append.1 hc)
      · rw [String.toList_append, String.toList_append] at hc
        rcases List.mem_append.1 hc with hc | hc
        · rcases List.mem_append.1 hc with hc | hc
          · exact .inr (.inl hc)
          · exact .inl (by simpa using hc)
        · exact .inr (.inr hc)
  rw [abspath, RulesMkosi.normpath_eq (root_ne_empty hroot), String.toList_append, joinSlash_toList] at h
  rcases List.mem_append.1 h with h | h
  · left
    rcases hroot with hroot | hroot
    · rw [hroot] at h
      simpa using h
    · rw [hroot] at h
      simpa using h
  · rcases mem_intercalate h with h | ⟨text, htext, h⟩
    · exact .inl (by simpa using h)
    · obtain ⟨part, hpart, rfl⟩ := List.mem_map.1 htext
      obtain ⟨-, hmem⟩ := normComponents_names (by simp) part hpart
      obtain ⟨piece, hpiece, rfl⟩ := List.mem_map.1 (hmem.resolve_left (by simp))
      rw [String.toList_ofList] at h
      exact hjoined c (mem_of_mem_splitOn hpiece c h).1

end

end RulesMkosi
