/-
  The SHA256 list of a Release file, read twice.

  `generate_lock.release_checksums` reads the file as a deb822 paragraph;
  `debian_snapshot._sha256_entries` scans its lines for the heading `SHA256:`.  The
  scanner takes every line up to the next heading as an entry, also lines that belong
  to other fields.
-/
import RulesMkosi.DebianControl
import RulesMkosi.DebianVersion
import RulesMkosi.Lib.Bytes

namespace RulesMkosi.DebianRelease

open DebianControl
open Debian (Failure)

/-- The library functions under the two parsers. -/
structure Platform where
  /-- `data.decode("utf-8")`; `none` where it raises -/
  decodeUtf8 : Bytes → Option Str
  /-- `s.lower()` -/
  lower : Str → Str

def isLowerHexDigit (c : Char) : Bool := ('0' ≤ c ∧ c ≤ '9') ∨ ('a' ≤ c ∧ c ≤ 'f')

def isHexDigit (c : Char) : Bool := isLowerHexDigit c ∨ ('A' ≤ c ∧ c ≤ 'F')

/-- `re.fullmatch` of 64 characters of a class -/
def isDigest (isCharacter : Char → Bool) (s : Str) : Bool := s.length = 64 ∧ s.all isCharacter

def sha256Field : Str := "SHA256".toList

/-! ## The generator's parser -/

section Generator

/-- What `generate_lock.paragraphs` raises for an error of the parser. -/
def asFailure : Exn → Failure
  | .valueError message | .unicodeError message => .lockError message
  | .keyError key => .keyError key
  | .structError message | .osError message | .indexError message | .runtimeError message
  | .typeError message => .valueError message

def lockParagraphs (text : Str) : Except Failure (List Paragraph) :=
  match paragraphs text with
  | .ok result => .ok result
  | .error e => .error (asFailure e)

def malformedEntry (line : Str) : Failure :=
  .lockError ("malformed Release SHA256 entry: " ++ String.ofList line)

/-- `int(size)` -/
def parseSize (size : Str) : Except Failure ℕ :=
  match toInt size with
  | some n => .ok n
  | none => .error (.valueError ("invalid literal for int() with base 10: " ++ String.ofList size))

/-- The loop body of `release_checksums`. -/
def addChecksum (checksums : Dict Str (Str × ℕ)) (line : Str) :
    Except Failure (Dict Str (Str × ℕ)) :=
  if isBlank line then .ok checksums
  else
    match splitWords line with
    | [digest, size, path] => do
      raiseIf (isDigest isLowerHexDigit digest = false ∨ isDigit size = false) (malformedEntry line)
      raiseIf ((checksums.get path).isSome = true)
        (.lockError ("duplicate Release SHA256 entry: " ++ String.ofList path))
      let size ← parseSize size
      return checksums.set path (digest, size)
    | _ => .error (malformedEntry line)

def paragraphChecksums (fields : Paragraph) :
    Except Failure (Paragraph × Dict Str (Str × ℕ)) := do
  let checksums ← (splitLines ((fields.get sha256Field).getD [])).foldlM addChecksum []
  return (fields, checksums)

/-- `release_checksums` of the decoded text -/
def textChecksums (text : Str) : Except Failure (Paragraph × Dict Str (Str × ℕ)) := do
  let fields ← lockParagraphs text
  match fields with
  | [paragraph] => paragraphChecksums paragraph
  | _ => .error (.lockError "Release must contain exactly one paragraph")

def releaseChecksums (P : Platform) (release : Bytes) :
    Except Failure (Paragraph × Dict Str (Str × ℕ)) :=
  match P.decodeUtf8 release with
  | some text => textChecksums text
  | none => .error (.valueError "'utf-8' codec can't decode")

end Generator

/-! ## The scanner -/

structure Entry where
  digest : Str
  size : ℕ
  path : Str
  deriving Repr, DecidableEq

/-- The state of the loop over the lines; the entries hold the paths that are seen. -/
structure Scan where
  inSha256 : Bool
  entries : List Entry

def heading : Str := "SHA256:".toList

/-- `not line[0].isspace() and line.endswith(":")`, for a line that is not empty -/
def isHeading (line : Str) : Bool := ¬ isIndented line ∧ line.getLast? = some ':'

def scanSize (size : Str) : Except Exn ℕ :=
  match toInt size with
  | some n => .ok n
  | none => .error (.valueError ("invalid literal for int() with base 10: " ++ String.ofList size))

def scanEntry (scan : Scan) (line : Str) : Except Exn Scan :=
  match splitWords line with
  | [digest, size, path] => do
    raiseIf (isDigest isHexDigit digest = false) (.valueError "malformed SHA256 checksum digest")
    raiseIf (isDigit size = false) (.valueError "malformed SHA256 checksum size")
    raiseIf (path ∈ scan.entries.map Entry.path) (.valueError "duplicate SHA256 checksum entry")
    let size ← scanSize size
    return ⟨scan.inSha256, scan.entries ++ [⟨digest, size, path⟩]⟩
  | _ => .error (.valueError "malformed SHA256 checksum entry")

/-- The loop body of `_sha256_entries`. -/
def scanLine (scan : Scan) (line : Str) : Except Exn Scan :=
  if line = [] then .ok scan
  else if isHeading line then .ok ⟨line = heading, scan.entries⟩
  else if scan.inSha256 then scanEntry scan line
  else .ok scan

def scanLines (lines : List Str) : Except Exn (List Entry) := do
  let scan ← lines.foldlM scanLine ⟨false, []⟩
  return scan.entries

section Snapshot
variable (P : Platform)

def sha256Entries (release : Bytes) : Except Exn (List Entry) :=
  match P.decodeUtf8 release with
  | some text => scanLines (splitLines text)
  | none => .error (.unicodeError "'utf-8' codec can't decode")

/-- The text after the first slash; `none` if there is none. -/
def afterSlash (path : Str) : Option Str :=
  if '/' ∈ path then some (path.dropWhile (· ≠ '/')).tail else none

/-- `path.split("/", 2)[2]` for a path below `dists/` -/
def indexPath (relativePath : Str) : Except Exn Str :=
  if "dists/".toList.isPrefixOf relativePath then
    match (afterSlash relativePath).bind afterSlash with
    | some path => .ok path
    | none => .error (.indexError "list index out of range")
  else .ok relativePath

def checkEntry (entry : Entry) (expectedSize : ℕ) (expectedDigest : Str) : Except Exn Unit := do
  raiseIf (entry.size ≠ expectedSize) (.valueError "Release metadata size disagrees with the lock")
  raiseIf (P.lower entry.digest ≠ P.lower expectedDigest)
    (.valueError "Release metadata digest disagrees with the lock")

def releaseHash (release : Bytes) (relativePath : Str) (expectedSize : ℕ) (expectedDigest : Str) :
    Except Exn Unit := do
  let path ← indexPath relativePath
  let entries ← sha256Entries P release
  match entries.filter fun entry => entry.path = path with
  | [entry] => checkEntry P entry expectedSize expectedDigest
  | _ => .error (.valueError "Packages metadata must have exactly one SHA256 entry")

end Snapshot

/-! ## What the scanner takes as entries -/

/-- The entry that a line states. -/
def entryOf (line : Str) : Option Entry :=
  match splitWords line with
  | [digest, size, path] =>
    if isDigest isHexDigit digest = true ∧ isDigit size = true then
      (toInt size).map fun n => ⟨digest, n, path⟩
    else none
  | _ => none

theorem scanEntry_eq_ok {scan scan' : Scan} {line : Str} :
    scanEntry scan line = .ok scan' ↔
      ∃ entry, entryOf line = some entry ∧ entry.path ∉ scan.entries.map Entry.path ∧
        scan' = ⟨scan.inSha256, scan.entries ++ [entry]⟩ := by
  unfold scanEntry entryOf scanSize
  split
  · next digest size path hwords =>
    simp only [bind_eq_ok, exists_unit, raiseIf_eq_ok, pure_eq_ok, Bool.not_eq_false]
    constructor
    · rintro ⟨hdigest, hsize, hfresh, n, hn, rfl⟩
      split at hn
      · next hm =>
        cases hn
        exact ⟨⟨digest, n, path⟩, by simp [hdigest, hsize, hm], hfresh, rfl⟩
      · cases hn
    · rintro ⟨entry, hentry, hfresh, rfl⟩
      split_ifs at hentry with hform
      obtain ⟨n, hn, rfl⟩ := Option.map_eq_some_iff.1 hentry
      exact ⟨hform.1, hform.2, hfresh, n, by simp [hn], rfl⟩
  · simp

theorem entryOf_nil : entryOf [] = none := rfl

/-- Without the heading nothing is an entry. -/
theorem scanLines_outside {entries : List Entry} : ∀ {lines : List Str}, heading ∉ lines →
    lines.foldlM scanLine ⟨false, entries⟩ = .ok ⟨false, entries⟩
  | [], _ => rfl
  | line :: lines, h => by
    rw [List.mem_cons, not_or] at h
    have hline : scanLine ⟨false, entries⟩ line = .ok ⟨false, entries⟩ := by
      have hne : line ≠ heading := fun heq => h.1 heq.symm
      simp [scanLine, hne]
    rw [List.foldlM_cons, hline, ok_bind, scanLines_outside h.2]

/-- The lines up to the next heading. -/
def listed (lines : List Str) : List Str := lines.takeWhile fun line => !isHeading line

/-- Every line that is not empty is an entry, and no path comes twice. -/
def OnlyEntries (lines : List Str) : Prop :=
  (∀ line ∈ lines, line ≠ [] → (entryOf line).isSome = true) ∧
    ((lines.filterMap entryOf).map Entry.path).Nodup

instance (lines : List Str) : Decidable (OnlyEntries lines) := inferInstanceAs (Decidable (_ ∧ _))

/-- After the heading the scanner reads entries up to the next heading. -/
theorem scanLines_inside : ∀ {lines : List Str} {entries : List Entry} {result : List Entry},
    heading ∉ lines → (entries.map Entry.path).Nodup →
    ((∃ inside, lines.foldlM scanLine ⟨true, entries⟩ = .ok ⟨inside, result⟩) ↔
      (∀ line ∈ listed lines, line ≠ [] → (entryOf line).isSome = true) ∧
        ((entries ++ (listed lines).filterMap entryOf).map Entry.path).Nodup ∧
        result = entries ++ (listed lines).filterMap entryOf)
  | [], entries, result, _, hnodup => by
    simp only [List.foldlM_nil, pure_eq_ok, Scan.mk.injEq, listed, List.takeWhile_nil,
      List.filterMap_nil, List.append_nil]
    constructor
    · rintro ⟨inside, -, rfl⟩
      exact ⟨by simp, hnodup, rfl⟩
    · rintro ⟨-, -, rfl⟩
      exact ⟨true, rfl, rfl⟩
  | line :: lines, entries, result, h, hnodup => by
    rw [List.mem_cons, not_or] at h
    rw [List.foldlM_cons]
    by_cases hempty : line = []
    · have hline : scanLine ⟨true, entries⟩ line = .ok ⟨true, entries⟩ := by
        rw [scanLine, if_pos hempty]
      have hlisted : listed (line :: lines) = line :: listed lines := by
        subst hempty; rfl
      have hfilter : (line :: listed lines).filterMap entryOf = (listed lines).filterMap entryOf := by
        subst hempty; rfl
      rw [hline, ok_bind, scanLines_inside h.2 hnodup, hlisted, hfilter]
      simp [hempty]
    by_cases hheading : isHeading line = true
    · have hne : line ≠ heading := fun heq => h.1 heq.symm
      have hline : scanLine ⟨true, entries⟩ line = .ok ⟨false, entries⟩ := by
        simp [scanLine, hempty, hheading, hne]
      have hlisted : listed (line :: lines) = [] := by
        rw [listed, List.takeWhile_cons_of_neg (by simp [hheading])]
      rw [hline, ok_bind, scanLines_outside h.2, hlisted]
      simp only [Except.ok.injEq, Scan.mk.injEq, List.filterMap_nil, List.append_nil]
      constructor
      · rintro ⟨inside, -, rfl⟩
        exact ⟨by simp, hnodup, rfl⟩
      · rintro ⟨-, -, rfl⟩
        exact ⟨false, rfl, rfl⟩
    · have hline : scanLine ⟨true, entries⟩ line = scanEntry ⟨true, entries⟩ line := by
        simp [scanLine, hempty, hheading]
      have hlisted : listed (line :: lines) = line :: listed lines := by
        rw [listed, List.takeWhile_cons_of_pos (by simpa using hheading)]; rfl
      rw [hline, hlisted]
      cases hentry : entryOf line with
      | none =>
        have hfail : ∀ scan, scanEntry ⟨true, entries⟩ line ≠ .ok scan := by
          intro scan hscan
          obtain ⟨entry, hsome, -⟩ := scanEntry_eq_ok.1 hscan
          rw [hentry] at hsome
          cases hsome
        constructor
        · rintro ⟨inside, hrun⟩
          rw [bind_eq_ok] at hrun
          obtain ⟨scan, hscan, -⟩ := hrun
          exact absurd hscan (hfail scan)
        · rintro ⟨hall, -⟩
          have := hall line List.mem_cons_self hempty
          rw [hentry] at this
          cases this
      | some entry =>
        have hfilter : entries ++ (line :: listed lines).filterMap entryOf =
            entries ++ [entry] ++ (listed lines).filterMap entryOf := by
          rw [List.filterMap_cons_some hentry]; simp
        rw [hfilter]
        by_cases hfresh : entry.path ∈ entries.map Entry.path
        · constructor
          · rintro ⟨inside, hrun⟩
            rw [bind_eq_ok] at hrun
            obtain ⟨scan, hscan, -⟩ := hrun
            obtain ⟨entry', hsome, hnew, -⟩ := scanEntry_eq_ok.1 hscan
            rw [hentry] at hsome
            cases hsome
            exact absurd hfresh hnew
          · rintro ⟨-, htwice, -⟩
            rw [List.map_append, List.map_append] at htwice
            have := (List.nodup_append.1 (List.nodup_append.1 htwice).1).2.2 _ hfresh _
              (List.mem_singleton_self _)
            exact absurd rfl this
        · have hscan : scanEntry ⟨true, entries⟩ line = .ok ⟨true, entries ++ [entry]⟩ :=
            scanEntry_eq_ok.2 ⟨entry, hentry, hfresh, rfl⟩
          have hnodup' : ((entries ++ [entry]).map Entry.path).Nodup := by
            rw [List.map_append]
            exact hnodup.append (List.nodup_singleton _) (by simpa using hfresh)
          rw [hscan, ok_bind, scanLines_inside h.2 hnodup', List.forall_mem_cons]
          simp [hentry]

/-- **The entries of the scanner:** the lines from the heading to the next one, if they are all
    entries. -/
theorem scanLines_eq_ok {before after : List Str} {entries : List Entry} (hbefore : heading ∉ before)
    (hafter : heading ∉ after) :
    scanLines (before ++ heading :: after) = .ok entries ↔
      OnlyEntries (listed after) ∧ entries = (listed after).filterMap entryOf := by
  have hheading : scanLine ⟨false, []⟩ heading = .ok ⟨true, []⟩ := rfl
  have hinside : (∃ inside, after.foldlM scanLine ⟨true, []⟩ = .ok ⟨inside, entries⟩) ↔ _ :=
    scanLines_inside hafter List.nodup_nil
  rw [scanLines, List.foldlM_append, scanLines_outside hbefore, ok_bind, List.foldlM_cons, hheading,
    ok_bind, bind_eq_ok, OnlyEntries, and_assoc]
  rw [List.nil_append] at hinside
  rw [← hinside]
  constructor
  · rintro ⟨⟨inside, result⟩, hrun, hresult⟩
    rw [pure_eq_ok] at hresult
    exact ⟨inside, by rw [hrun, ← hresult]⟩
  · rintro ⟨inside, hrun⟩
    exact ⟨_, hrun, rfl⟩

/-! ## What the generator lists -/

theorem isDigest_mono {p q : Char → Bool} (hpq : ∀ c, p c = true → q c = true) {s : Str}
    (h : isDigest p s = true) : isDigest q s = true := by
  simp only [isDigest, decide_eq_true_eq, List.all_eq_true] at h ⊢
  exact ⟨h.1, fun c hc => hpq c (h.2 c hc)⟩

theorem addChecksum_cases {checksums checksums' : Dict Str (Str × ℕ)} {line : Str}
    (h : addChecksum checksums line = .ok checksums') :
    checksums' = checksums ∨ ∃ entry, entryOf line = some entry ∧
      checksums' = checksums.set entry.path (entry.digest, entry.size) := by
  unfold addChecksum parseSize at h
  split_ifs at h
  · exact .inl (Except.ok.inj h).symm
  split at h
  · next digest size path hwords =>
    simp only [bind_eq_ok, exists_unit, raiseIf_eq_ok, pure_eq_ok, not_or, Bool.not_eq_false] at h
    obtain ⟨⟨hdigest, hsize⟩, -, n, hn, rfl⟩ := h
    split at hn
    · next hm =>
      cases hn
      have hhex : isDigest isHexDigit digest = true :=
        isDigest_mono (fun c hc => by simp [isHexDigit, hc]) hdigest
      exact .inr ⟨⟨digest, n, path⟩, by simp [entryOf, hwords, hhex, hsize, hm], rfl⟩
    · cases hn
  · cases h

/-- A listed path comes from a line of the field. -/
theorem mem_of_checksums {lines : List Str} {checksums : Dict Str (Str × ℕ)}
    (h : lines.foldlM addChecksum [] = .ok checksums) {path digest : Str} {size : ℕ}
    (hget : checksums.get path = some (digest, size)) :
    ∃ line ∈ lines, entryOf line = some ⟨digest, size, path⟩ := by
  refine foldlM_inv (fun done (d : Dict Str (Str × ℕ)) => ∀ path digest size,
    d.get path = some (digest, size) → ∃ line ∈ done, entryOf line = some ⟨digest, size, path⟩)
    ?_ ?_ h path digest size hget
  · intro done d line d' ih hline path digest size hget
    have hold : d.get path = some (digest, size) →
        ∃ l ∈ done ++ [line], entryOf l = some ⟨digest, size, path⟩ := fun hd => by
      obtain ⟨l, hl, hentry⟩ := ih path digest size hd
      exact ⟨l, List.mem_append_left _ hl, hentry⟩
    obtain rfl | ⟨entry, hentry, rfl⟩ := addChecksum_cases hline
    · exact hold hget
    · rw [Dict.get_set] at hget
      split_ifs at hget with hpath
      · cases hget
        subst hpath
        exact ⟨line, by simp, hentry⟩
      · exact hold hget
  · intro path digest size hget
    cases hget

theorem heading_not_indented : isIndented heading = false := rfl

theorem heading_not_blank : isBlank heading = false := rfl

theorem heading_name : fieldName heading = sha256Field := rfl

theorem heading_value : strip (fieldValue heading) = [] := rfl

/-- What the generator has read when it accepts a text. -/
theorem textChecksums_eq_ok {text : Str} {fields : Paragraph} {checksums : Dict Str (Str × ℕ)}
    (h : textChecksums text = .ok (fields, checksums)) :
    (∃ pre body post field, splitLines text = pre ++ body ++ post ∧
      (∀ line ∈ pre, isBlank line = true) ∧ (∀ line ∈ body, isBlank line = false) ∧
      (∀ line ∈ post, isBlank line = true) ∧
      body.foldlM parseLine ⟨[], [], none⟩ = .ok ⟨[], fields, field⟩) ∧
    (splitLines ((fields.get sha256Field).getD [])).foldlM addChecksum [] = .ok checksums := by
  simp only [textChecksums, lockParagraphs, bind_eq_ok] at h
  obtain ⟨all, hall, h⟩ := h
  split at hall
  · next result hparse =>
    cases hall
    split at h
    · next paragraph =>
      simp only [paragraphChecksums, bind_eq_ok, pure_eq_ok, Prod.mk.injEq] at h
      obtain ⟨result, hchecksums, rfl, rfl⟩ := h
      simp only [paragraphs, bind_eq_ok, pure_eq_ok] at hparse
      obtain ⟨q, hrun, hone⟩ := hparse
      exact ⟨one_paragraph hrun hone, hchecksums⟩
    · cases h
  · cases hall

theorem mem_takeWhile_append {p q : Str → Bool} (hpq : ∀ line, p line = true → q line = true)
    {line : Str} {rest : List Str} : ∀ {lines : List Str}, line ∈ lines.takeWhile p →
      line ∈ (lines ++ rest).takeWhile q
  | first :: lines, h => by
    by_cases hfirst : p first = true
    · rw [List.takeWhile_cons_of_pos hfirst] at h
      rw [List.cons_append, List.takeWhile_cons_of_pos (hpq first hfirst)]
      rcases List.mem_cons.1 h with rfl | h
      · exact List.mem_cons_self
      · exact List.mem_cons_of_mem _ (mem_takeWhile_append hpq h)
    · rw [List.takeWhile_cons_of_neg hfirst] at h
      exact absurd h List.not_mem_nil

theorem entryOf_strip (line : Str) : entryOf (strip line) = entryOf line := by
  rw [entryOf, entryOf, splitWords_strip]

/-- In an accepted text the heading comes once, and the listed paths come from the lines after
    it, up to the next heading. -/
theorem heading_of_accepted {text : Str} {fields : Paragraph} {checksums : Dict Str (Str × ℕ)}
    (h : textChecksums text = .ok (fields, checksums)) (hheading : heading ∈ splitLines text) :
    ∃ before after, splitLines text = before ++ heading :: after ∧ heading ∉ before ∧
      heading ∉ after ∧
      ∀ path digest size, checksums.get path = some (digest, size) →
        ⟨digest, size, path⟩ ∈ (listed after).filterMap entryOf := by
  obtain ⟨⟨pre, body, post, field, hlines, hpre, hbody, hpost, hrun⟩, hchecksums⟩ :=
    textChecksums_eq_ok h
  have hblank : ∀ lines : List Str, (∀ line ∈ lines, isBlank line = true) → heading ∉ lines := by
    intro lines hall hmem
    have := hall heading hmem
    rw [heading_not_blank] at this
    cases this
  -- the heading is a line of the block
  have hmem : heading ∈ body := by
    rw [hlines, List.mem_append, List.mem_append] at hheading
    rcases hheading with (hin | hin) | hin
    · exact absurd hin (hblank pre hpre)
    · exact hin
    · exact absurd hin (hblank post hpost)
  obtain ⟨b₁, b₂, rfl⟩ := List.append_of_mem hmem
  obtain ⟨mid, -, hafter⟩ := foldlM_append_eq_ok.1 hrun
  have hbody₂ : ∀ l ∈ heading :: b₂, isBlank l = false :=
    fun l hl => hbody l (List.mem_append_right _ hl)
  have hb₂ : heading ∉ b₂ := fun hin =>
    fieldName_ne_after hbody₂ heading_not_indented hafter heading hin heading_not_indented rfl
  have hb₁ : heading ∉ b₁ := by
    intro hin
    obtain ⟨c₁, c₂, rfl⟩ := List.append_of_mem hin
    rw [List.append_assoc] at hrun
    obtain ⟨mid', -, hrun'⟩ := foldlM_append_eq_ok.1 hrun
    refine fieldName_ne_after (fun l hl => hbody l ?_) heading_not_indented hrun' heading (by simp)
      heading_not_indented rfl
    rw [List.append_assoc]
    exact List.mem_append_right _ hl
  refine ⟨pre ++ b₁, b₂ ++ post, by rw [hlines]; simp, ?_, ?_, ?_⟩
  · rw [List.mem_append, not_or]
    exact ⟨hblank pre hpre, hb₁⟩
  · rw [List.mem_append, not_or]
    exact ⟨hb₂, hblank post hpost⟩
  · intro path digest size hget
    have hvalue : fields.get sha256Field = some ((b₂.takeWhile isIndented).flatMap
        fun l => '\n' :: strip l) := by
      have := get_field hbody₂ heading_not_indented hafter
      rwa [heading_name, heading_value, List.nil_append] at this
    rw [hvalue, Option.getD_some] at hchecksums
    obtain ⟨line, hline, hentry⟩ := mem_of_checksums hchecksums hget
    -- a line of the value is a continuation line without its white space
    have hbreaks : ∀ piece ∈ (b₂.takeWhile isIndented).map strip, ∀ c ∈ piece,
        isLineBreak c = false := by
      intro piece hpiece c hc
      obtain ⟨l, hl, rfl⟩ := List.mem_map.1 hpiece
      refine no_break_of_splitLinesFrom [] text (by simp) l ?_ c (mem_of_mem_strip hc)
      show l ∈ splitLines text
      rw [hlines]
      have := (List.takeWhile_prefix isIndented).subset hl
      simp [this]
    have hpieces : line ∈ splitLinesFrom [] (((b₂.takeWhile isIndented).map strip).flatMap
        fun piece => '\n' :: piece) → _ := mem_splitLinesFrom_flatMap hbreaks line
    rw [List.flatMap_map] at hpieces
    rcases hpieces hline with rfl | hpiece
    · rw [List.reverse_nil, entryOf_nil] at hentry
      cases hentry
    · obtain ⟨l, hl, rfl⟩ := List.mem_map.1 hpiece
      rw [entryOf_strip] at hentry
      refine List.mem_filterMap.2 ⟨l, mem_takeWhile_append (fun line hline => ?_) hl, hentry⟩
      simp [isHeading, hline]

/-! ## Agreement -/

/-- The two parsers agree on the listed paths. -/
def Agree (P : Platform) (release : Bytes) (checksums : Dict Str (Str × ℕ)) : Prop :=
  ∀ path digest size, checksums.get path = some (digest, size) → ∀ suite, '/' ∉ suite →
    ∀ expectedSize expectedDigest,
      releaseHash P release ("dists/".toList ++ suite ++ '/' :: path) expectedSize expectedDigest =
        .ok () ↔ expectedSize = size ∧ P.lower expectedDigest = P.lower digest

/-- The heading `SHA256:` is a line of its own, and every line after it up to the next heading is
    empty or an entry of another path. -/
def ListedAlone (lines : List Str) : Prop :=
  heading ∈ lines ∧ OnlyEntries (listed (lines.dropWhile (· ≠ heading)).tail)

instance (lines : List Str) : Decidable (ListedAlone lines) := inferInstanceAs (Decidable (_ ∧ _))

theorem indexPath_dists {suite path : Str} (hsuite : '/' ∉ suite) :
    indexPath ("dists/".toList ++ suite ++ '/' :: path) = .ok path := by
  have hpre : "dists/".toList.isPrefixOf ("dists/".toList ++ suite ++ '/' :: path) = true := by
    rw [List.isPrefixOf_iff_prefix, List.append_assoc]
    exact List.prefix_append _ _
  have hfirst : afterSlash ("dists/".toList ++ suite ++ '/' :: path) = some (suite ++ '/' :: path) := by
    simp [afterSlash]
  have hsecond : afterSlash (suite ++ '/' :: path) = some path := by
    have hall : ∀ c ∈ suite, decide (c ≠ '/') = true := fun c hc => by
      simp only [decide_eq_true_eq]
      rintro rfl
      exact hsuite hc
    rw [afterSlash, if_pos (by simp), List.dropWhile_append_of_pos hall]
    simp
  rw [indexPath, if_pos hpre, hfirst, Option.bind_some, hsecond]

theorem filter_path {entries : List Entry} (hnodup : (entries.map Entry.path).Nodup) {entry : Entry}
    (hmem : entry ∈ entries) : (entries.filter fun e => e.path = entry.path) = [entry] := by
  induction entries with
  | nil => exact absurd hmem List.not_mem_nil
  | cons first entries ih =>
    rw [List.map_cons, List.nodup_cons] at hnodup
    rcases List.mem_cons.1 hmem with rfl | hmem
    · have hrest : (entries.filter fun e => e.path = entry.path) = [] := by
        rw [List.filter_eq_nil_iff]
        intro e he heq
        exact hnodup.1 (List.mem_map.2 ⟨e, he, by simpa using heq⟩)
      rw [List.filter_cons_of_pos (by simp), hrest]
    · have hne : first.path ≠ entry.path := fun heq =>
        hnodup.1 (List.mem_map.2 ⟨entry, hmem, heq.symm⟩)
      rw [List.filter_cons_of_neg (by simpa using hne), ih hnodup.2 hmem]

/-- What `_release_hash` checks, when the scanner's entries are known. -/
theorem releaseHash_eq_ok {P : Platform} {release : Bytes} {suite path expectedDigest : Str}
    {expectedSize : ℕ} (hsuite : '/' ∉ suite) :
    releaseHash P release ("dists/".toList ++ suite ++ '/' :: path) expectedSize expectedDigest =
        .ok () ↔
      ∃ entries entry, sha256Entries P release = .ok entries ∧
        (entries.filter fun e => e.path = path) = [entry] ∧ entry.size = expectedSize ∧
        P.lower entry.digest = P.lower expectedDigest := by
  rw [releaseHash, indexPath_dists hsuite, ok_bind, bind_eq_ok]
  constructor
  · rintro ⟨entries, hentries, h⟩
    split at h
    · next entry hfilter =>
      simp only [checkEntry, bind_eq_ok, exists_unit, raiseIf_eq_ok, ne_eq, not_not] at h
      exact ⟨entries, entry, hentries, hfilter, h.1, h.2⟩
    · cases h
  · rintro ⟨entries, entry, hentries, hfilter, hsize, hdigest⟩
    refine ⟨entries, hentries, ?_⟩
    simp only [hfilter, checkEntry, bind_eq_ok, exists_unit, raiseIf_eq_ok, ne_eq, not_not]
    exact ⟨hsize, hdigest⟩

theorem listedAlone_iff {before after : List Str} (hbefore : heading ∉ before) :
    ListedAlone (before ++ heading :: after) ↔ OnlyEntries (listed after) := by
  have hall : ∀ line ∈ before, decide (line ≠ heading) = true := fun line hline => by
    simp only [decide_eq_true_eq]
    rintro rfl
    exact hbefore hline
  rw [ListedAlone, List.dropWhile_append_of_pos hall, List.dropWhile_cons_of_neg (by simp),
    List.tail_cons]
  simp

/-- **Where the two parsers agree.**  For a Release file that the generator accepts, the scanner
    confirms every listed path, with its size and digest and no others, iff nothing is listed or
    the list stands alone between its heading and the next one. -/
theorem releaseHash_agrees_iff {P : Platform} {release : Bytes} {text : Str} {fields : Paragraph}
    {checksums : Dict Str (Str × ℕ)} (htext : P.decodeUtf8 release = some text)
    (h : releaseChecksums P release = .ok (fields, checksums)) :
    Agree P release checksums ↔ checksums = [] ∨ ListedAlone (splitLines text) := by
  rw [releaseChecksums, htext] at h
  have hscan : sha256Entries P release = scanLines (splitLines text) := by
    rw [sha256Entries, htext]
  constructor
  · intro hagree
    rcases checksums with _ | ⟨⟨path, digest, size⟩, rest⟩
    · exact .inl rfl
    · right
      -- a listed path is confirmed, so the scanner succeeds and finds it
      have hget : Dict.get ((path, (digest, size)) :: rest) path = some (digest, size) := by
        simp [Dict.get]
      have hok := (hagree path digest size hget [] List.not_mem_nil size digest).2 ⟨rfl, rfl⟩
      obtain ⟨entries, entry, hentries, hfilter, -, -⟩ :=
        (releaseHash_eq_ok List.not_mem_nil).1 hok
      rw [hscan] at hentries
      by_cases hheading : heading ∈ splitLines text
      · obtain ⟨before, after, hlines, hbefore, hafter, -⟩ := heading_of_accepted h hheading
        rw [hlines] at hentries ⊢
        rw [listedAlone_iff hbefore]
        exact ((scanLines_eq_ok hbefore hafter).1 hentries).1
      · rw [scanLines, scanLines_outside hheading, ok_bind, pure_eq_ok] at hentries
        subst hentries
        cases hfilter
  · rintro (rfl | halone) path digest size hget suite hsuite expectedSize expectedDigest
    · cases hget
    · obtain ⟨before, after, hlines, hbefore, hafter, hlisted⟩ := heading_of_accepted h halone.1
      rw [hlines, listedAlone_iff hbefore] at halone
      have hentries : sha256Entries P release = .ok ((listed after).filterMap entryOf) := by
        rw [hscan, hlines, scanLines_eq_ok hbefore hafter]
        exact ⟨halone, rfl⟩
      have hfilter := filter_path halone.2 (hlisted path digest size hget)
      rw [releaseHash_eq_ok hsuite]
      constructor
      · rintro ⟨entries, entry, hentries', hfilter', hsize, hdigest⟩
        rw [hentries, Except.ok.injEq] at hentries'
        subst hentries'
        rw [hfilter, List.cons.injEq] at hfilter'
        obtain ⟨rfl, -⟩ := hfilter'
        exact ⟨hsize.symm, hdigest.symm⟩
      · rintro ⟨rfl, hdigest⟩
        exact ⟨_, _, hentries, hfilter, rfl, hdigest.symm⟩

/-! Release files with one listed path, without and with a field after the list. -/

/-- The decoder for ASCII texts. -/
def examplePlatform : Platform where
  decodeUtf8 data :=
    if data.all (fun b => b.toNat < 0x80) then some (data.map fun b => Char.ofNat b.toNat) else none
  lower := List.map Char.toLower

def exampleDigest : Str := List.replicate 64 'a'

def examplePath : Str := "main/binary-amd64/Packages.xz".toList

def exampleText : Str :=
  "Origin: Debian\nSHA256:\n ".toList ++ exampleDigest ++ " 1 ".toList ++ examplePath ++ "\n".toList

def exampleRelease : Bytes := exampleText.map fun c => UInt8.ofNat c.toNat

/-- A field of one line follows the list. -/
def followedText : Str := exampleText ++ "Acquire-By-Hash: yes\n".toList

def followedRelease : Bytes := followedText.map fun c => UInt8.ofNat c.toNat

/-- The generator lists the path, but the scanner takes the next field for an entry and raises. -/
theorem releaseHash_rejects_field :
    (∃ fields, releaseChecksums examplePlatform followedRelease =
        .ok (fields, [(examplePath, (exampleDigest, 1))])) ∧
      releaseHash examplePlatform followedRelease
        ("dists/".toList ++ "trixie".toList ++ '/' :: examplePath) 1 exampleDigest =
          .error (.valueError "malformed SHA256 checksum entry") ∧
      ¬ Agree examplePlatform followedRelease [(examplePath, (exampleDigest, 1))] := by
  have haccepts : releaseChecksums examplePlatform followedRelease =
      .ok ([("Origin".toList, "Debian".toList),
        (sha256Field, '\n' :: exampleDigest ++ " 1 ".toList ++ examplePath),
        ("Acquire-By-Hash".toList, "yes".toList)], [(examplePath, (exampleDigest, 1))]) := by
    decide +kernel
  have hraises : releaseHash examplePlatform followedRelease
      ("dists/".toList ++ "trixie".toList ++ '/' :: examplePath) 1 exampleDigest =
        .error (.valueError "malformed SHA256 checksum entry") := by
    decide +kernel
  refine ⟨⟨_, haccepts⟩, hraises, fun hagree => ?_⟩
  have hget : Dict.get [(examplePath, (exampleDigest, 1))] examplePath = some (exampleDigest, 1) := by
    simp [Dict.get]
  have hok := (hagree examplePath exampleDigest 1 hget "trixie".toList (by decide) 1 exampleDigest).2
    ⟨rfl, rfl⟩
  rw [hraises] at hok
  cases hok

theorem releaseHash_agrees_example :
    Agree examplePlatform exampleRelease [(examplePath, (exampleDigest, 1))] := by
  have htext : examplePlatform.decodeUtf8 exampleRelease = some exampleText := by decide +kernel
  have haccepts : releaseChecksums examplePlatform exampleRelease =
      .ok ([("Origin".toList, "Debian".toList),
        (sha256Field, '\n' :: exampleDigest ++ " 1 ".toList ++ examplePath)],
        [(examplePath, (exampleDigest, 1))]) := by
    decide +kernel
  exact (releaseHash_agrees_iff htext haccepts).2 (.inr (by decide +kernel))

end RulesMkosi.DebianRelease
