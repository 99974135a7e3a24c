/-
  Assigning signed binaries to the files of an ESP
  (`mkosi/private/secure_boot_image.py`).

  `assign` records which ESP files a signed binary replaces and fails if an
  unsigned PE binary would remain.  A PE file that no replacement names counts
  as unsigned only if `parse_pe` accepts it; every other PE file counts as
  signed, also when it has no certificate table.
-/
import RulesMkosi.SecureBootEquivalence
import RulesMkosi.Lib.Dict
import RulesMkosi.Lib.PosixPath
import RulesMkosi.Lib.Text
import Mathlib.Data.List.Induction

namespace RulesMkosi.SecureBootImage

open SecureBoot

/-- The library functions that `_assign` and `_startable` call. -/
structure Platform where
  /-- `hashlib.sha256(data).hexdigest()` -/
  sha256 : Bytes → String
  /-- `data.decode("utf-8", errors="replace")` -/
  decode : Bytes → Str
  /-- `s.lower()` -/
  lower : Str → Str

/-- A file tree: the bytes of its regular files. -/
structure EspTree where
  files : Dict String Bytes
  nodup : files.keys.Nodup

/-- The files in the order of `esp_files.tree_files`. -/
def EspTree.sorted (tree : EspTree) : List (String × Bytes) :=
  tree.files.insertionSort fun a b => a.1 ≤ b.1

structure Replacement where
  certificate : Bytes
  name : String
  paths : List String
  signed : String
  deriving Repr, DecidableEq

/-- The table of `_replacements`, keyed by the SHA-256 of the unsigned binaries. -/
structure ReplacementTable where
  items : Dict String Replacement
  nodup : items.keys.Nodup
  fresh : ∀ item ∈ items, item.2.paths = []

def isUnsignedPe (data : Bytes) : Bool :=
  match parsePe data false with
  | .ok _ => true
  | .error _ => false

/-! ## Startable files -/

/-- `line.split(None, 1)` -/
def splitOnce (line : Str) : List Str :=
  let line := lstrip line
  let word := line.takeWhile (! isSpace ·)
  let rest := lstrip (line.dropWhile (! isSpace ·))
  if word = [] then [] else if rest = [] then [word] else [word, rest]

/-- Strips one pair of surrounding double quotes. -/
def unquote (value : Str) : Str :=
  if 2 ≤ value.length ∧ value.head? = some '"' ∧ value.getLast? = some '"' then
    (value.drop 1).dropLast
  else value

/-- The lowercase ESP paths of the linux and efi keys of a boot loader entry. -/
def entryBinaries (P : Platform) (text : Str) : List Str :=
  (splitLines text).filterMap fun line =>
    match splitOnce line with
    | [key, value] =>
      if key = "linux".toList ∨ key = "efi".toList then
        let value := (unquote (strip value)).map fun c => if c = '\\' then '/' else c
        some (P.lower (value.dropWhile (· = '/')))
      else none
    | _ => none

/-- The `espPaths` that the firmware or systemd-boot can start. -/
def startable (P : Platform) (tree : EspTree) (espPaths : List String) : List String :=
  let isEntry (path : String) :=
    "loader/entries/".toList.isPrefixOf (P.lower path.toList) ∧
      ".conf".toList.isSuffixOf (P.lower path.toList)
  let referenced := tree.sorted.flatMap fun (path, data) =>
    if isEntry path then entryBinaries P (P.decode data) else []
  espPaths.filter fun path =>
    ".efi".toList.isSuffixOf (P.lower path.toList) ∨ P.lower path.toList ∈ referenced

/-! ## Assignment -/

/-- The tables that the loop of `_assign` fills. -/
structure Assignment where
  replacements : Dict String Replacement
  unsigned : List String
  signed : List String
  deriving Repr, DecidableEq

/-- One file of the tree. -/
def assignFile (P : Platform) (st : Assignment) (file : String × Bytes) : Assignment :=
  let (espPath, data) := file
  match st.replacements.get (P.sha256 data) with
  | some replacement =>
    let updated := { replacement with paths := replacement.paths ++ [espPath] }
    { st with replacements := st.replacements.set (P.sha256 data) updated }
  | none =>
    if isPe data then
      if isUnsignedPe data then { st with unsigned := st.unsigned ++ [espPath] }
      else { st with signed := st.signed ++ [espPath] }
    else st

/-- The loop of `_assign`. -/
def assignFiles (P : Platform) (table : ReplacementTable) (files : List (String × Bytes)) :
    Assignment :=
  files.foldl (assignFile P) ⟨table.items, [], []⟩

/-- `", ".join(items)` -/
def joinComma (items : List String) : String := ", ".intercalate items

/-- Records the ESP paths of each replacement and returns the startable, already signed, PE
    binaries. -/
def assign (P : Platform) (tree : EspTree) (table : ReplacementTable) :
    Except Exn (Dict String Replacement × List String) := do
  let st := assignFiles P table tree.sorted
  let unused := ((st.replacements.filter (·.2.paths = [])).map (·.2.name)).insertionSort (· ≤ ·)
  raiseIf (unused ≠ [])
    (.valueError ("the ESP holds no unsigned copy of the signed binaries for " ++ joinComma unused))
  raiseIf (st.unsigned ≠ [])
    (.valueError ("the ESP would keep unsigned PE/COFF binaries that Secure Boot firmware refuses " ++
      "to load: " ++ joinComma st.unsigned ++
      "; sign them with secure_boot_signing_request(esp_path = ...)"))
  return (st.replacements, startable P tree st.signed)

/-! ## The property -/

/-- The certificate table entry of the data directories, if the optional header has one. -/
def certificateDirectory (data : Bytes) : Option (ℕ × ℕ) :=
  match peOptionalHeader data with
  | .error _ => none
  | .ok h =>
    let entry := h.optional + h.fixedSize + 32
    if field data (h.optional + h.fixedSize - 4) 4 < 5 ∨ h.optional + h.optionalSize < entry + 8 then
      none
    else some (field data entry 4, field data (entry + 4) 4)

/-- The image carries no certificate table: its data directory entry is absent or zero. -/
def NoCertificate (data : Bytes) : Prop :=
  certificateDirectory data = none ∨ certificateDirectory data = some (0, 0)

instance (data : Bytes) : Decidable (NoCertificate data) := inferInstanceAs (Decidable (_ ∨ _))

/-- Every PE file without a certificate table is among the paths of a replacement. -/
def AllReplaced (tree : EspTree) (replacements : Dict String Replacement) : Prop :=
  ∀ file ∈ tree.files, isPe file.2 → NoCertificate file.2 →
    ∃ digest r, replacements.get digest = some r ∧ file.1 ∈ r.paths

/-- No PE file without a certificate table is classified as signed. -/
def NoneMisclassified (tree : EspTree) (st : Assignment) : Prop :=
  ∀ file ∈ tree.files, isPe file.2 → NoCertificate file.2 → file.1 ∉ st.signed

/-- `parse_pe` accepts every PE file without a certificate table that no request names. -/
def Recognised (P : Platform) (tree : EspTree) (table : ReplacementTable) : Prop :=
  ∀ file ∈ tree.files, isPe file.2 → NoCertificate file.2 →
    table.items.get (P.sha256 file.2) = none → isUnsignedPe file.2

/-! ## What the loop records -/

/-- The tables after the files `done`. -/
structure Assigned (P : Platform) (table : ReplacementTable) (done : List (String × Bytes))
    (st : Assignment) : Prop where
  keys : ∀ digest, (st.replacements.get digest).isSome ↔ (table.items.get digest).isSome
  paths : ∀ digest r, st.replacements.get digest = some r →
    ∀ p, p ∈ r.paths ↔ ∃ data, (p, data) ∈ done ∧ P.sha256 data = digest
  unsigned : ∀ p, p ∈ st.unsigned ↔ ∃ data, (p, data) ∈ done ∧
    table.items.get (P.sha256 data) = none ∧ isPe data ∧ isUnsignedPe data
  signed : ∀ p, p ∈ st.signed ↔ ∃ data, (p, data) ∈ done ∧
    table.items.get (P.sha256 data) = none ∧ isPe data ∧ ¬ isUnsignedPe data

section
variable {P : Platform} {table : ReplacementTable}

theorem Assigned.nil : Assigned P table [] ⟨table.items, [], []⟩ where
  keys _ := Iff.rfl
  paths digest r h p := by
    rw [table.fresh _ (Dict.mem_of_get h)]; simp
  unsigned p := by simp
  signed p := by simp

/-- A file that changes none of the tables' properties. -/
theorem exists_mem_concat {done : List (String × Bytes)} {p q : String} {data : Bytes}
    {Q : Bytes → Prop} : (∃ d, (p, d) ∈ done ++ [(q, data)] ∧ Q d) ↔
      (∃ d, (p, d) ∈ done ∧ Q d) ∨ p = q ∧ Q data := by
  simp only [List.mem_append, List.mem_singleton, Prod.mk.injEq]
  constructor
  · rintro ⟨d, h | ⟨rfl, rfl⟩, hd⟩
    · exact Or.inl ⟨d, h, hd⟩
    · exact Or.inr ⟨rfl, hd⟩
  · rintro (⟨d, h, hd⟩ | ⟨rfl, hd⟩)
    · exact ⟨d, Or.inl h, hd⟩
    · exact ⟨data, Or.inr ⟨rfl, rfl⟩, hd⟩

theorem Assigned.step {done : List (String × Bytes)} {st : Assignment} (A : Assigned P table done st)
    (file : String × Bytes) : Assigned P table (done ++ [file]) (assignFile P st file) := by
  obtain ⟨path, data⟩ := file
  cases hr : st.replacements.get (P.sha256 data) with
  | some replacement =>
    have hsome : table.items.get (P.sha256 data) ≠ none := by
      have := (A.keys (P.sha256 data)).1 (by rw [hr]; rfl)
      exact Option.isSome_iff_ne_none.1 this
    simp only [assignFile, hr]
    refine ⟨fun digest => ?_, fun digest r h p => ?_, fun p => ?_, fun p => ?_⟩
    · simp only [Dict.get_set]
      split_ifs with hd
      · rw [← A.keys digest, ← hd, hr]; simp
      · exact A.keys digest
    · simp only [Dict.get_set] at h
      rw [exists_mem_concat]
      split_ifs at h with hd
      · cases h
        rw [List.mem_append, List.mem_singleton, A.paths _ _ hr p, hd]
        simp
      · rw [A.paths digest r h p]
        simp [hd]
    · rw [exists_mem_concat, A.unsigned p]
      simp [hsome]
    · rw [exists_mem_concat, A.signed p]
      simp [hsome]
  | none =>
    have hnone : table.items.get (P.sha256 data) = none := by
      by_contra h
      have := (A.keys (P.sha256 data)).2 (Option.isSome_iff_ne_none.2 h)
      rw [hr] at this
      exact absurd this (by simp)
    -- the digest names no replacement, so no recorded path changes
    have hpaths : ∀ digest r, st.replacements.get digest = some r →
        ∀ p, p ∈ r.paths ↔ ∃ d, (p, d) ∈ done ++ [(path, data)] ∧ P.sha256 d = digest := by
      intro digest r h p
      rw [exists_mem_concat, A.paths digest r h p]
      have hne : P.sha256 data ≠ digest := by
        rintro rfl; rw [hr] at h; cases h
      simp [hne]
    simp only [assignFile, hr]
    split_ifs with hpe hun
    · refine ⟨A.keys, hpaths, fun p => ?_, fun p => ?_⟩
      · rw [exists_mem_concat, List.mem_append, List.mem_singleton, A.unsigned p]
        simp [hnone, hpe, hun]
      · rw [exists_mem_concat, A.signed p]
        simp [hun]
    · refine ⟨A.keys, hpaths, fun p => ?_, fun p => ?_⟩
      · rw [exists_mem_concat, A.unsigned p]
        simp [hun]
      · rw [exists_mem_concat, List.mem_append, List.mem_singleton, A.signed p]
        simp [hnone, hpe, hun]
    · refine ⟨A.keys, hpaths, fun p => ?_, fun p => ?_⟩
      · rw [exists_mem_concat, A.unsigned p]
        simp [hpe]
      · rw [exists_mem_concat, A.signed p]
        simp [hpe]

theorem assignFiles_assigned (P : Platform) (table : ReplacementTable)
    (files : List (String × Bytes)) : Assigned P table files (assignFiles P table files) := by
  induction files using List.reverseRecOn with
  | nil => exact Assigned.nil
  | append_singleton files file ih =>
    rw [assignFiles, List.foldl_append]
    exact ih.step file

end

theorem EspTree.mem_sorted (tree : EspTree) {file : String × Bytes} :
    file ∈ tree.sorted ↔ file ∈ tree.files :=
  (List.perm_insertionSort _ tree.files).mem_iff

/-- A path has one content. -/
theorem EspTree.unique (tree : EspTree) {p : String} {d d' : Bytes} (h : (p, d) ∈ tree.files)
    (h' : (p, d') ∈ tree.files) : d = d' :=
  Option.some.inj ((Dict.get_of_mem tree.nodup h).symm.trans (Dict.get_of_mem tree.nodup h'))

/-- **When no unsigned binary remains.**  If `assign` returns, every PE file without a certificate
    table has been replaced and none was taken for a signed one, iff `parse_pe` accepts every such
    file that no signing request names. -/
theorem assign_complete {P : Platform} {tree : EspTree} {table : ReplacementTable}
    {replacements : Dict String Replacement} {started : List String}
    (h : assign P tree table = .ok (replacements, started)) :
    (AllReplaced tree replacements ∧
        NoneMisclassified tree (assignFiles P table tree.sorted)) ↔ Recognised P tree table := by
  unfold assign at h
  simp only [bind_eq_ok, exists_unit, raiseIf_eq_ok, not_not, pure_eq_ok, Prod.mk.injEq] at h
  obtain ⟨-, hunsigned, rfl, -⟩ := h
  have A := assignFiles_assigned P table tree.sorted
  constructor
  · rintro ⟨-, hmis⟩ ⟨p, data⟩ hfile hpe hcert hnone
    by_contra hun
    exact hmis _ hfile hpe hcert ((A.signed p).2 ⟨data, tree.mem_sorted.2 hfile, hnone, hpe, hun⟩)
  · intro hrec
    -- a file that no request names would be on the unsigned list, which is empty
    have hnamed : ∀ file ∈ tree.files, isPe file.2 → NoCertificate file.2 →
        table.items.get (P.sha256 file.2) ≠ none := by
      rintro ⟨p, data⟩ hfile hpe hcert hnone
      have hmem := (A.unsigned p).2 ⟨data, tree.mem_sorted.2 hfile, hnone, hpe,
        hrec _ hfile hpe hcert hnone⟩
      rw [hunsigned] at hmem
      exact absurd hmem (by simp)
    refine ⟨?_, ?_⟩
    · rintro ⟨p, data⟩ hfile hpe hcert
      have hsome := (A.keys (P.sha256 data)).2
        (Option.isSome_iff_ne_none.2 (hnamed _ hfile hpe hcert))
      obtain ⟨r, hr⟩ := Option.isSome_iff_exists.1 hsome
      exact ⟨_, r, hr, (A.paths _ r hr p).2 ⟨data, tree.mem_sorted.2 hfile, rfl⟩⟩
    · rintro ⟨p, data⟩ hfile hpe hcert hsigned
      obtain ⟨data', hmem, hnone, -⟩ := (A.signed p).1 hsigned
      rw [tree.unique (tree.mem_sorted.1 hmem) hfile] at hnone
      exact hnamed _ hfile hpe hcert hnone

/-- An unsigned image with FileAlignment 0x20, as EDK II emits it. -/
def misalignedUki : Bytes := overwrite exampleUki 124 (leBytes 4 0x20)

/-- An ESP whose only file is the boot loader `data`. -/
def bootTree (data : Bytes) : EspTree := ⟨[("EFI/BOOT/BOOTX64.EFI", data)], by simp [Dict.keys]⟩

def emptyTable : ReplacementTable := ⟨[], by simp [Dict.keys], by simp⟩

/-- The misaligned image has PE headers and no certificate table, but `parse_pe` rejects its
    alignment: it is taken for a signed binary, and `assign` returns with nothing replaced. -/
theorem assign_keeps_misaligned :
    (∀ P : Platform, assign P (bootTree misalignedUki) emptyTable =
        .ok ([], startable P (bootTree misalignedUki) ["EFI/BOOT/BOOTX64.EFI"])) ∧
      isPe misalignedUki ∧ NoCertificate misalignedUki ∧
      ¬ AllReplaced (bootTree misalignedUki) [] := by
  have hpe : isPe misalignedUki = true := by decide +kernel
  have hun : isUnsignedPe misalignedUki = false := by decide +kernel
  have hcert : NoCertificate misalignedUki := by decide +kernel
  refine ⟨fun P => ?_, hpe, hcert, fun h => ?_⟩
  · simp [assign, assignFiles, assignFile, EspTree.sorted, bootTree, emptyTable, hpe, hun]
    rfl
  · obtain ⟨digest, r, hr, -⟩ := h ("EFI/BOOT/BOOTX64.EFI", misalignedUki) (by simp [bootTree]) hpe hcert
    simp at hr

/-- The functions of the platform on ASCII text and on the example image. -/
def examplePlatform : Platform where
  sha256 _ := "9bae371184cc331e12286f184f1c8d11fcd57eaba60de81ca86d387f6ae80121"
  decode data := data.map fun b => Char.ofNat b.toNat
  lower s := s.map Char.toLower

def exampleTable : ReplacementTable where
  items := [("9bae371184cc331e12286f184f1c8d11fcd57eaba60de81ca86d387f6ae80121",
    ⟨[0x30, 0], "the UKI", [], "signed.efi"⟩)]
  nodup := by simp [Dict.keys]
  fresh := by simp

theorem assign_complete_example :
    assign examplePlatform (bootTree exampleUki) exampleTable =
        .ok ([("9bae371184cc331e12286f184f1c8d11fcd57eaba60de81ca86d387f6ae80121",
          ⟨[0x30, 0], "the UKI", ["EFI/BOOT/BOOTX64.EFI"], "signed.efi"⟩)], []) ∧
      AllReplaced (bootTree exampleUki)
        [("9bae371184cc331e12286f184f1c8d11fcd57eaba60de81ca86d387f6ae80121",
          ⟨[0x30, 0], "the UKI", ["EFI/BOOT/BOOTX64.EFI"], "signed.efi"⟩)] := by
  have h : assign examplePlatform (bootTree exampleUki) exampleTable =
      .ok ([("9bae371184cc331e12286f184f1c8d11fcd57eaba60de81ca86d387f6ae80121",
        ⟨[0x30, 0], "the UKI", ["EFI/BOOT/BOOTX64.EFI"], "signed.efi"⟩)], []) := by decide
  refine ⟨h, ((assign_complete h).2 ?_).1⟩
  intro file _ _ _ hnone
  exact absurd hnone (by simp [exampleTable, examplePlatform, Dict.get])

end RulesMkosi.SecureBootImage
