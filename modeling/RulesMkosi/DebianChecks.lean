/-
  The checks of a lock (`debian_snapshot_repo.bzl` and `debian_snapshot.py`) on what the
  generator records.

  For each check there is a lemma that says what passes it: the repository metadata, the
  packages, the records of the packages, and the indexes that the staging action reads
  again.
-/
import RulesMkosi.DebianLock
import RulesMkosi.DebianSnapshot
import RulesMkosi.DebianSnapshotRepo

namespace RulesMkosi.DebianPipeline

open Debian (Specification Lock LockedPackage MetadataEntry Repository Library Package)
open DebianSnapshotRepo (RuleError)
open DebianSnapshot (LockedFile PackageKey)

/-! ## Characters -/

theorem stripChars_eq_nil {characters : String} {value : Str}
    (h : ∀ c ∈ value, c ∈ characters.toList) : DebianSnapshotRepo.stripChars characters value = [] := by
  have hdrop : value.dropWhile (· ∈ characters.toList) = [] := by
    rw [List.dropWhile_eq_nil_iff]
    exact fun c hc => decide_eq_true (h c hc)
  rw [DebianSnapshotRepo.stripChars, hdrop]
  rfl

theorem toNat_lt_of_isLowerHexDigit {c : Char} (h : DebianRelease.isLowerHexDigit c = true) :
    c.toNat < 128 := by
  simp only [DebianRelease.isLowerHexDigit, decide_eq_true_eq, Bool.decide_or, Bool.or_eq_true] at h
  rcases h with ⟨-, h⟩ | ⟨-, h⟩
  · exact Nat.lt_of_le_of_lt (UInt32.le_iff_toNat_le.1 h) (by decide)
  · exact Nat.lt_of_le_of_lt (UInt32.le_iff_toNat_le.1 h) (by decide)

theorem toNat_lt_of_isIdentifierChar {c : Char} (h : Debian.isIdentifierChar c = true) :
    c.toNat < 128 := by
  simp only [Debian.isIdentifierChar, Debian.isLowerAlnum, decide_eq_true_eq] at h
  rcases h with (⟨-, h⟩ | ⟨-, h⟩) | rfl
  · exact Nat.lt_of_le_of_lt (UInt32.le_iff_toNat_le.1 h) (by decide)
  · exact Nat.lt_of_le_of_lt (UInt32.le_iff_toNat_le.1 h) (by decide)
  · decide

theorem isSha256_of_isDigest {value : String}
    (h : DebianRelease.isDigest DebianRelease.isLowerHexDigit value.toList = true) :
    DebianSnapshotRepo.isSha256 value = true := by
  simp only [DebianRelease.isDigest, decide_eq_true_eq, List.all_eq_true] at h
  have hmem : ∀ c ∈ value.toList, c ∈ "0123456789abcdef".toList := by
    intro c hc
    have hdigit := h.2 c hc
    revert hdigit
    refine forall_ascii (P := fun c => DebianRelease.isLowerHexDigit c = true → _) ?_
      (toNat_lt_of_isLowerHexDigit (h.2 c hc))
    decide
  simp only [DebianSnapshotRepo.isSha256, stripChars_eq_nil hmem, decide_eq_true_eq, and_true]
  exact h.1

/-- The characters of an identifier. -/
theorem isIdentifier_chars {value : Str} (h : Debian.isIdentifier value = true) :
    value ≠ [] ∧ value.head? ≠ some '-' ∧ ∀ c ∈ value, Debian.isIdentifierChar c = true := by
  cases value with
  | nil => cases h
  | cons c rest =>
    simp only [Debian.isIdentifier, decide_eq_true_eq, List.all_eq_true] at h
    refine ⟨List.cons_ne_nil _ _, ?_, List.forall_mem_cons.2 ⟨?_, h.2⟩⟩
    · rw [List.head?_cons, ne_eq, Option.some.injEq]
      rintro rfl
      exact absurd h.1 (by decide)
    · rw [Debian.isIdentifierChar, h.1]
      simp

theorem isIdentifier_accepted {value : String} (h : Debian.isIdentifier value.toList = true) :
    DebianSnapshotRepo.isIdentifier value = true := by
  obtain ⟨hne, hhead, hchars⟩ := isIdentifier_chars h
  have hmem : ∀ c ∈ value.toList, c ∈ "abcdefghijklmnopqrstuvwxyz0123456789-".toList := by
    intro c hc
    have hchar := hchars c hc
    revert hchar
    refine forall_ascii (P := fun c => Debian.isIdentifierChar c = true → _) ?_
      (toNat_lt_of_isIdentifierChar (hchars c hc))
    decide +kernel
  have hempty : value ≠ "" := by
    rintro rfl
    exact hne rfl
  simp only [DebianSnapshotRepo.isIdentifier, stripChars_eq_nil hmem, decide_eq_true_eq, and_true]
  exact ⟨hempty, hhead⟩

/-- A path of identifiers has no separator and no dot in a component. -/
theorem notMem_of_isIdentifier {value : Str} (h : Debian.isIdentifier value = true) {c : Char}
    (hc : Debian.isIdentifierChar c = false) : c ∉ value := by
  intro hmem
  rw [(isIdentifier_chars h).2.2 c hmem] at hc
  cases hc

/-! ## The repository of a lock -/

section
variable {specification : Specification} {repository : Repository}

theorem validateSnapshot_accepts (h : specification.Valid)
    (hsnapshot : repository.snapshot = specification.snapshot)
    (hurl : repository.snapshotUrl = specification.snapshotUrl) :
    DebianSnapshotRepo.validateSnapshot repository.toFields =
      .ok (specification.snapshot, specification.snapshotUrl) := by
  have htime := h.snapshot
  simp only [Debian.isSnapshot, decide_eq_true_eq] at htime
  obtain ⟨hlength, -, hT, -, hZ⟩ := htime
  have hlast : specification.snapshot.toList.getLast? = some 'Z' := by
    rw [List.getLast?_eq_getElem?, hlength]
    exact hZ
  have hmem : 'T' ∈ specification.snapshot.toList := List.mem_of_getElem? hT
  have hne : specification.snapshot ≠ "" := by
    intro hempty
    rw [hempty] at hlength
    cases hlength
  have hlen : specification.snapshot.length = 16 := hlength
  have hurlText : DebianSnapshotRepo.getText repository.toFields "snapshot_url" "" =
      .ok repository.snapshotUrl := rfl
  have hsnapshotText : DebianSnapshotRepo.getText repository.toFields "snapshot" "" =
      .ok repository.snapshot := rfl
  rw [DebianSnapshotRepo.validateSnapshot, hurlText, ok_bind, hsnapshotText, ok_bind, hurl, hsnapshot,
    raiseIf_of_not (by simp [hne, hlen, hlast, hmem]), ok_bind,
    raiseIf_of_not (by simp [h.https, h.pinned]), ok_bind]
  rfl

/-- The only check that a generated lock may fail. -/
theorem validateRelease_eq_ok (hdistribution : repository.distribution = "debian")
    (harchitecture : repository.architecture = "amd64")
    (hcodename : Debian.isIdentifier repository.codename.toList = true) {result : String × String} :
    DebianSnapshotRepo.validateRelease repository.toFields = .ok result ↔
      DebianSnapshotRepo.isStarlarkDigit repository.release = true ∧
        result = (repository.codename, repository.release) := by
  have hdistributionText : DebianSnapshotRepo.getText repository.toFields "distribution" "debian" =
      .ok repository.distribution := rfl
  have harchitectureText : DebianSnapshotRepo.getText repository.toFields "architecture" "amd64" =
      .ok repository.architecture := rfl
  have hcodenameText : DebianSnapshotRepo.getText repository.toFields "codename" "trixie" =
      .ok repository.codename := rfl
  have hreleaseText : DebianSnapshotRepo.getText repository.toFields "release" "13" =
      .ok repository.release := rfl
  rw [DebianSnapshotRepo.validateRelease, hdistributionText, ok_bind, hdistribution,
    raiseIf_of_not (by simp), ok_bind, harchitectureText, ok_bind, harchitecture,
    raiseIf_of_not (by simp), ok_bind, hcodenameText, ok_bind,
    raiseIf_of_not (by simp [isIdentifier_accepted hcodename]), ok_bind, hreleaseText, ok_bind,
    bind_eq_ok, exists_unit, raiseIf_eq_ok, Bool.not_eq_false, pure_eq_ok]
  exact and_congr_right fun _ => eq_comm

theorem filterMap_text (values : List String) :
    (values.map Json.string).filterMap Json.text? = values := by
  rw [List.filterMap_map]
  exact List.filterMap_some

theorem validateComponents_accepts (h : specification.Valid) (str : Json → String)
    (hcomponents : repository.components = specification.components) :
    DebianSnapshotRepo.validateComponents str repository.toFields = .ok specification.components := by
  obtain ⟨others, hothers⟩ : ∃ others, specification.components = "main" :: others := by
    have hmain := h.main
    cases hlist : specification.components with
    | nil => rw [hlist] at hmain; cases hmain
    | cons first others =>
      rw [hlist, List.head?_cons, Option.some.injEq] at hmain
      exact ⟨others, by rw [hmain]⟩
  have hnodup := h.nodup
  have hfield : (Dict.get repository.toFields "components").getD (.list [.string "main"]) =
      .list (specification.components.map Json.string) := by
    rw [← hcomponents]
    rfl
  have hcheck : (specification.components.map Json.string).forM
      (DebianSnapshotRepo.checkComponent str) = .ok () := by
    refine forM_eq_ok.2 fun component hcomponent => ?_
    obtain ⟨name, hname, rfl⟩ := List.mem_map.1 hcomponent
    refine raiseIf_of_not ?_ _
    simp [isIdentifier_accepted (h.components name hname)]
  have hfilter : others.filter (· ≠ "main") = others := by
    rw [hothers, List.nodup_cons] at hnodup
    refine List.filter_eq_self.2 fun component hcomponent => ?_
    rw [decide_eq_true_eq]
    rintro rfl
    exact hnodup.1 hcomponent
  rw [DebianSnapshotRepo.validateComponents, hfield]
  dsimp only
  rw [filterMap_text, hcheck, raiseIf_of_not (by rw [hothers]; simp), ok_bind, ok_bind,
    raiseIf_of_not (by rw [List.toFinset_card_of_nodup hnodup]; simp), ok_bind, hothers,
    List.filter_cons_of_neg (by simp), hfilter]
  rfl

end

/-! ## The metadata of a lock -/

/-- What comes before and after the first underscore of a name. -/
def halves (name : String) : Str × Str :=
  (name.toList.takeWhile (· ≠ '_'), name.toList.dropWhile (· ≠ '_'))

theorem halves_of_notMem {front back : Str} (h : '_' ∉ front) :
    (front ++ '_' :: back).takeWhile (· ≠ '_') = front ∧
      (front ++ '_' :: back).dropWhile (· ≠ '_') = '_' :: back := by
  have hfront : ∀ c ∈ front, decide (c ≠ '_') = true := by
    intro c hc
    rw [decide_eq_true_eq]
    rintro rfl
    exact h hc
  constructor
  · rw [List.takeWhile_append_of_pos hfront]
    simp
  · rw [List.dropWhile_append_of_pos hfront]
    simp

theorem halves_indexName {component architecture : String}
    (h : Debian.isIdentifier component.toList = true) (hmain : component ≠ "main") :
    halves (DebianSnapshotRepo.indexName component architecture) = (component.toList,
      if architecture = "amd64" then "_packages_xz".toList else "_packages_all_xz".toList) := by
  have hno : '_' ∉ component.toList := notMem_of_isIdentifier h (by decide)
  unfold halves DebianSnapshotRepo.indexName
  rw [if_neg hmain]
  split_ifs
  · have hname : (component ++ "_" ++ "packages_xz").toList =
        component.toList ++ '_' :: "packages_xz".toList := by simp
    rw [hname, (halves_of_notMem hno).1, (halves_of_notMem hno).2]
    rfl
  · have hname : (component ++ "_" ++ "packages_all_xz").toList =
        component.toList ++ '_' :: "packages_all_xz".toList := by simp
    rw [hname, (halves_of_notMem hno).1, (halves_of_notMem hno).2]
    rfl

theorem halves_indexName_main (architecture : String) :
    halves (DebianSnapshotRepo.indexName "main" architecture) = ("packages".toList,
      if architecture = "amd64" then "_xz".toList else "_all_xz".toList) := by
  unfold halves DebianSnapshotRepo.indexName
  rw [if_pos rfl]
  split_ifs
  · decide
  · decide

/-- A component with an architecture. -/
def IsIndex (index : String × String) : Prop :=
  Debian.isIdentifier index.1.toList = true ∧ index.2 ∈ DebianSnapshotRepo.indexArchitectures

theorem indexName_inj {i j : String × String} (hi : IsIndex i) (hj : IsIndex j)
    (h : DebianSnapshotRepo.indexName i.1 i.2 = DebianSnapshotRepo.indexName j.1 j.2) : i = j := by
  obtain ⟨component, architecture⟩ := i
  obtain ⟨component', architecture'⟩ := j
  obtain ⟨hcomponent, harch⟩ := hi
  obtain ⟨hcomponent', harch'⟩ := hj
  have hhalves := congrArg halves h
  simp only [DebianSnapshotRepo.indexArchitectures, List.mem_cons, List.not_mem_nil, or_false]
    at harch harch'
  by_cases hmain : component = "main" <;> by_cases hmain' : component' = "main"
  · subst hmain hmain'
    rw [halves_indexName_main, halves_indexName_main, Prod.mk.injEq] at hhalves
    rcases harch with rfl | rfl <;> rcases harch' with rfl | rfl <;> simp_all
  · subst hmain
    rw [halves_indexName_main, halves_indexName hcomponent' hmain', Prod.mk.injEq] at hhalves
    rcases harch with rfl | rfl <;> rcases harch' with rfl | rfl <;> simp_all
  · subst hmain'
    rw [halves_indexName_main, halves_indexName hcomponent hmain, Prod.mk.injEq] at hhalves
    rcases harch with rfl | rfl <;> rcases harch' with rfl | rfl <;> simp_all
  · rw [halves_indexName hcomponent hmain, halves_indexName hcomponent' hmain', Prod.mk.injEq,
      String.toList_inj] at hhalves
    rcases harch with rfl | rfl <;> rcases harch' with rfl | rfl <;> simp_all

/-- The names of the release files are not those of an index. -/
theorem indexName_ne {index : String × String} (h : IsIndex index) :
    DebianSnapshotRepo.indexName index.1 index.2 ∉ ["inrelease", "release", "release_gpg"] := by
  obtain ⟨component, architecture⟩ := index
  obtain ⟨hcomponent, harch⟩ := h
  have hback : (halves (DebianSnapshotRepo.indexName component architecture)).2 ∈
      ["_xz".toList, "_all_xz".toList, "_packages_xz".toList, "_packages_all_xz".toList] := by
    by_cases hmain : component = "main"
    · rw [hmain, halves_indexName_main]
      split_ifs <;> simp
    · rw [halves_indexName hcomponent hmain]
      split_ifs <;> simp
  intro hmem
  simp only [List.mem_cons, List.not_mem_nil, or_false] at hmem
  rcases hmem with hmem | hmem | hmem
  · rw [hmem] at hback
    exact absurd hback (by decide)
  · rw [hmem] at hback
    exact absurd hback (by decide)
  · rw [hmem] at hback
    exact absurd hback (by decide)

section
variable {codename : String} {components : List String}

theorem isIndex_of_mem (h : ∀ component ∈ components, Debian.isIdentifier component.toList = true)
    {index : String × String} (hindex : index ∈ DebianSnapshotRepo.indexesOf components) :
    IsIndex index := by
  simp only [DebianSnapshotRepo.indexesOf, List.mem_flatMap, List.mem_map] at hindex
  obtain ⟨component, hcomponent, architecture, harch, rfl⟩ := hindex
  exact ⟨h component hcomponent, harch⟩

theorem nodup_indexesOf (h : components.Nodup) :
    (DebianSnapshotRepo.indexesOf components).Nodup := by
  unfold DebianSnapshotRepo.indexesOf
  rw [List.nodup_flatMap]
  refine ⟨fun component _ => ?_, ?_⟩
  · exact (by decide : DebianSnapshotRepo.indexArchitectures.Nodup).map fun a b hab =>
      (Prod.mk.inj hab).2
  · refine h.imp fun {a b} hab index ha hb => ?_
    obtain ⟨_, -, rfl⟩ := List.mem_map.1 ha
    obtain ⟨_, -, heq⟩ := List.mem_map.1 hb
    exact hab (Prod.mk.inj heq).1.symm

/-- The names of all metadata entries. -/
def metadataNames (components : List String) : List String :=
  ["inrelease", "release", "release_gpg"] ++
    (DebianSnapshotRepo.indexesOf components).map fun index =>
      DebianSnapshotRepo.indexName index.1 index.2

theorem nodup_metadataNames (hnodup : components.Nodup)
    (h : ∀ component ∈ components, Debian.isIdentifier component.toList = true) :
    (metadataNames components).Nodup := by
  refine List.Nodup.append (by decide) ?_ ?_
  · refine (nodup_indexesOf hnodup).map_on fun i hi j hj hij => ?_
    exact indexName_inj (isIndex_of_mem h hi) (isIndex_of_mem h hj) hij
  · intro name hbase hname
    obtain ⟨index, hindex, rfl⟩ := List.mem_map.1 hname
    exact indexName_ne (isIndex_of_mem h hindex) hbase

theorem keys_expectedMetadata (hnodup : components.Nodup)
    (h : ∀ component ∈ components, Debian.isIdentifier component.toList = true) :
    (DebianSnapshotRepo.expectedMetadata codename components).keys = metadataNames components :=
  Dict.keys_foldl_set _ _ (nodup_metadataNames hnodup h)

/-- The path of an index in the snapshot. -/
def indexPath (codename : String) (index : String × String) : String :=
  "dists/" ++ codename ++ "/" ++ index.1 ++ "/binary-" ++ index.2 ++ "/Packages.xz"

theorem get_expectedMetadata_index (hnodup : components.Nodup)
    (h : ∀ component ∈ components, Debian.isIdentifier component.toList = true)
    {index : String × String} (hindex : index ∈ DebianSnapshotRepo.indexesOf components) :
    (DebianSnapshotRepo.expectedMetadata codename components).get
        (DebianSnapshotRepo.indexName index.1 index.2) =
      some ⟨indexPath codename index, some index.1, some index.2⟩ :=
  Dict.get_foldl_set_of_mem _ _ (List.Nodup.of_append_right (nodup_metadataNames hnodup h)) hindex

theorem get_expectedMetadata_base
    (h : ∀ component ∈ components, Debian.isIdentifier component.toList = true) {name : String}
    (hname : name ∈ ["inrelease", "release", "release_gpg"]) :
    (DebianSnapshotRepo.expectedMetadata codename components).get name =
      Dict.get [("inrelease", (⟨"dists/" ++ codename ++ "/InRelease", none, none⟩ :
          DebianSnapshotRepo.Expected)),
        ("release", ⟨"dists/" ++ codename ++ "/Release", none, none⟩),
        ("release_gpg", ⟨"dists/" ++ codename ++ "/Release.gpg", none, none⟩)] name := by
  refine Dict.get_foldl_set_of_notMem _ _ fun hmem => ?_
  obtain ⟨index, hindex, rfl⟩ := List.mem_map.1 hmem
  exact indexName_ne (isIndex_of_mem h hindex) hname

end

/-- What the rule asks of a metadata entry. -/
structure EntryAccepted (expected : Dict String DebianSnapshotRepo.Expected) (url : String)
    (entry : MetadataEntry) : Prop where
  name : entry.name ≠ ""
  get : expected.get entry.name = some ⟨entry.path, entry.component, entry.architecture⟩
  path : startsWith entry.path "dists/" = true
  below : ".." ∉ splitSlash entry.path
  url : entry.url = url ++ "/" ++ entry.path
  sha256 : DebianSnapshotRepo.isSha256 entry.sha256 = true

theorem validateMetadataEntry_accepts {expected : Dict String DebianSnapshotRepo.Expected}
    {url : String} {entry : MetadataEntry} (h : EntryAccepted expected url entry)
    {fields : DebianSnapshotRepo.Fields} (hfields : entry.toJson = .object fields) :
    DebianSnapshotRepo.getText fields "name" "" = .ok entry.name ∧
      DebianSnapshotRepo.validateMetadataEntry fields expected url = .ok () := by
  cases hfields
  generalize hall : ([("name", Json.string entry.name), ("path", .string entry.path),
    ("sha256", .string entry.sha256), ("url", .string entry.url)] ++
    Debian.optionalField "architecture" entry.architecture ++
    Debian.optionalField "component" entry.component : DebianSnapshotRepo.Fields) = fields
  have hname : DebianSnapshotRepo.getText fields "name" "" = .ok entry.name := hall ▸ rfl
  have hpath : DebianSnapshotRepo.getText fields "path" "" = .ok entry.path := hall ▸ rfl
  have hsha : DebianSnapshotRepo.getText fields "sha256" "" = .ok entry.sha256 := hall ▸ rfl
  have hurl : DebianSnapshotRepo.getText fields "url" "" = .ok entry.url := hall ▸ rfl
  have hcomponent : DebianSnapshotRepo.agrees fields "component" entry.component = true := by
    subst hall
    cases harch : entry.architecture <;> cases hcomp : entry.component <;>
      simp [DebianSnapshotRepo.agrees, Debian.optionalField, Dict.get]
  have harchitecture : DebianSnapshotRepo.agrees fields "architecture" entry.architecture = true := by
    subst hall
    cases harch : entry.architecture <;> cases hcomp : entry.component <;>
      simp [DebianSnapshotRepo.agrees, Debian.optionalField, Dict.get]
  obtain ⟨rest, hrest⟩ := startsWith_iff.1 h.path
  have hsafe : ¬ (entry.path = "" ∨ startsWith entry.path "/" = true ∨ ".." ∈ splitSlash entry.path) := by
    rintro (hempty | hslash | hparent)
    · rw [hempty] at hrest
      have := congrArg String.toList hrest
      simp at this
    · rw [hrest, startsWith, String.toList_append] at hslash
      cases hslash
    · exact h.below hparent
  refine ⟨hname, ?_⟩
  rw [DebianSnapshotRepo.validateMetadataEntry, hname, ok_bind, hpath, ok_bind, h.get]
  dsimp only
  rw [raiseIf_of_not hsafe, ok_bind, raiseIf_of_not (by simp), ok_bind,
    raiseIf_of_not (by simp [hcomponent, harchitecture]), ok_bind, hurl, ok_bind,
    raiseIf_of_not (by simp [h.url]), ok_bind, hsha, ok_bind]
  exact raiseIf_of_not (by simp [h.sha256]) _

theorem foldlM_validateEntry {expected : Dict String DebianSnapshotRepo.Expected} {url : String} :
    ∀ {entries : List MetadataEntry} {names : List String},
      (∀ entry ∈ entries, EntryAccepted expected url entry) →
      (names ++ entries.map MetadataEntry.name).Nodup →
      (entries.map MetadataEntry.toJson).foldlM (DebianSnapshotRepo.validateEntry expected url) names =
        .ok (names ++ entries.map MetadataEntry.name)
  | [], names, _, _ => by simp [pure, Except.pure]
  | entry :: entries, names, hentries, hnodup => by
    obtain ⟨hentry, hentries⟩ := List.forall_mem_cons.1 hentries
    obtain ⟨hname, haccepts⟩ := validateMetadataEntry_accepts hentry rfl
    have hnew : entry.name ∉ names := fun hmem =>
      (List.nodup_append.1 hnodup).2.2 _ hmem _ List.mem_cons_self rfl
    have hstep : DebianSnapshotRepo.validateEntry expected url names entry.toJson =
        .ok (names ++ [entry.name]) := by
      have hobject : DebianSnapshotRepo.asObject entry.toJson = .ok _ := rfl
      rw [DebianSnapshotRepo.validateEntry, hobject, ok_bind, hname, ok_bind,
        raiseIf_of_not (by simp [hentry.name, hnew]), ok_bind, haccepts, ok_bind]
      rfl
    rw [List.map_cons, List.foldlM_cons, hstep, ok_bind,
      foldlM_validateEntry hentries (by simpa using hnodup)]
    simp

theorem validateMetadata_accepts {repository : Repository}
    {expected : Dict String DebianSnapshotRepo.Expected} {url : String}
    (hentries : ∀ entry ∈ repository.metadata, EntryAccepted expected url entry)
    (hnames : repository.metadata.map MetadataEntry.name = expected.keys)
    (hnodup : expected.keys.Nodup) (hne : repository.metadata ≠ []) :
    DebianSnapshotRepo.validateMetadata repository.toFields expected url =
      .ok (repository.metadata.map MetadataEntry.toJson) := by
  have hlist : DebianSnapshotRepo.getList repository.toFields "metadata" =
      .ok (repository.metadata.map MetadataEntry.toJson) := rfl
  have hfold := @foldlM_validateEntry _ _ _ [] hentries (by rw [List.nil_append, hnames]; exact hnodup)
  rw [DebianSnapshotRepo.validateMetadata, hlist, ok_bind, raiseIf_of_not (by simpa using hne),
    ok_bind, hfold, ok_bind, List.nil_append, hnames, raiseIf_of_not (by simp), ok_bind]
  rfl

/-! ## The packages of a lock -/

/-- A normalized path of a package below `pool`. -/
def IsPoolFile (filename : String) : Prop :=
  startsWith filename "pool/" = true ∧ endsWith filename ".deb" = true ∧
    ∀ part ∈ splitSlash filename, part ≠ "" ∧ part ≠ "." ∧ part ≠ ".."

/-- Name, version and architecture. -/
def identity (package : LockedPackage) : PackageKey := (package.name, package.version, package.arch)

/-- What the rule and the staging action ask of a package. -/
structure PackageAccepted (url : String) (components : List String) (package : LockedPackage) :
    Prop where
  name : package.name ≠ ""
  version : package.version ≠ ""
  arch : package.arch ∈ DebianSnapshotRepo.indexArchitectures
  filename : IsPoolFile package.filename
  urls : package.urls = [url ++ "/" ++ package.filename]
  sha256 : DebianRelease.isDigest DebianRelease.isLowerHexDigit package.sha256.toList = true
  size : package.size < 10 ^ maxIntDigits
  key : package.key ≠ ""
  component : package.component ∈ components
  no_bar : '|' ∉ package.name.toList ∧ '|' ∉ package.version.toList ∧
    '|' ∉ package.filename.toList

theorem validatePackageFile_accepts {url : String} {components : List String}
    {package : LockedPackage} (h : PackageAccepted url components package) :
    DebianSnapshotRepo.validatePackageFile package.toFields url = .ok () := by
  have hfilename : DebianSnapshotRepo.getText package.toFields "filename" "" =
      .ok package.filename := rfl
  have hurls : ((Dict.get package.toFields "urls").getD (.list [])).texts? =
      some [url ++ "/" ++ package.filename] := by
    rw [← h.urls, ← Json.texts?_list]
    rfl
  have hsha : DebianSnapshotRepo.getText package.toFields "sha256" "" = .ok package.sha256 := rfl
  have hsize : DebianSnapshotRepo.isSize (Dict.get package.toFields "size") = true :=
    decide_eq_true (Int.natCast_nonneg package.size)
  have hsafe : ¬ (startsWith package.filename "pool/" = false ∨
      ".." ∈ splitSlash package.filename ∨ "." ∈ splitSlash package.filename ∨
      "" ∈ splitSlash package.filename) := by
    rintro (hpool | hpart | hpart | hpart)
    · rw [h.filename.1] at hpool
      cases hpool
    · exact (h.filename.2.2 _ hpart).2.2 rfl
    · exact (h.filename.2.2 _ hpart).2.1 rfl
    · exact (h.filename.2.2 _ hpart).1 rfl
  rw [DebianSnapshotRepo.validatePackageFile, hfilename, ok_bind]
  dsimp only
  rw [raiseIf_of_not hsafe, ok_bind, raiseIf_of_not (by simp [h.filename.2.1]), ok_bind,
    raiseIf_of_not (by simp [hurls]), ok_bind, hsha, ok_bind]
  exact raiseIf_of_not (by simp [hsize, isSha256_of_isDigest h.sha256]) _

theorem foldlM_validatePackage {url : String} {components : List String} :
    ∀ {packages : List LockedPackage} {seen : DebianSnapshotRepo.Seen},
      (∀ package ∈ packages, PackageAccepted url components package) →
      (seen.packageKeys ++ packages.map identity).Nodup →
      (seen.lockKeys ++ packages.map LockedPackage.key).Nodup →
      ∃ seen', (packages.map fun package => Json.object package.toFields).foldlM
        (DebianSnapshotRepo.validatePackage url components) seen = .ok seen'
  | [], seen, _, _, _ => ⟨seen, rfl⟩
  | package :: packages, seen, hpackages, hidentities, hkeys => by
    obtain ⟨hpackage, hpackages⟩ := List.forall_mem_cons.1 hpackages
    have hnewKey : package.key ∉ seen.lockKeys := fun hmem =>
      (List.nodup_append.1 hkeys).2.2 _ hmem _ List.mem_cons_self rfl
    have hnewIdentity : (package.name, package.version, package.arch) ∉ seen.packageKeys := fun hmem =>
      (List.nodup_append.1 hidentities).2.2 _ hmem _ List.mem_cons_self rfl
    have hstep : DebianSnapshotRepo.validatePackage url components seen (.object package.toFields) =
        .ok ⟨seen.packageKeys ++ [identity package], seen.lockKeys ++ [package.key]⟩ := by
      have hobject : DebianSnapshotRepo.asObject (.object package.toFields) =
          .ok package.toFields := rfl
      have hname : DebianSnapshotRepo.getText package.toFields "name" "" = .ok package.name := rfl
      have harch : DebianSnapshotRepo.getText package.toFields "arch" "" = .ok package.arch := rfl
      have hversion : DebianSnapshotRepo.getText package.toFields "version" "" =
          .ok package.version := rfl
      have hkey : DebianSnapshotRepo.getText package.toFields "key" "" = .ok package.key := rfl
      have hfilename : DebianSnapshotRepo.getText package.toFields "filename" "" =
          .ok package.filename := rfl
      have hcomponent : DebianSnapshotRepo.getText package.toFields "component" "main" =
          .ok package.component := rfl
      rw [DebianSnapshotRepo.validatePackage, hobject, ok_bind, hname, ok_bind, harch, ok_bind,
        hversion, ok_bind,
        raiseIf_of_not (by simp [hpackage.name, hpackage.version, hpackage.arch]), ok_bind,
        validatePackageFile_accepts hpackage, ok_bind, hkey, ok_bind, hfilename, ok_bind,
        raiseIf_of_not (by simp [hpackage.key, hnewKey]), ok_bind, hcomponent, ok_bind,
        raiseIf_of_not (by simp [hpackage.component]), ok_bind, raiseIf_of_not hnewIdentity, ok_bind]
      rfl
    obtain ⟨seen', hseen'⟩ := @foldlM_validatePackage url components packages
      ⟨seen.packageKeys ++ [identity package], seen.lockKeys ++ [package.key]⟩ hpackages
      (by simpa using hidentities) (by simpa using hkeys)
    exact ⟨seen', by rw [List.map_cons, List.foldlM_cons, hstep, ok_bind, hseen']⟩

/-! ## Local names -/

/-- The digits of a local name. -/
def localDigits (index : ℕ) : String :=
  if index < 10 then "00" ++ toString index
  else if index < 100 then "0" ++ toString index else toString index

/-- Zeros in front do not change the number. -/
theorem ofDigitChars_localDigits (index : ℕ) :
    Nat.ofDigitChars 10 (localDigits index).toList 0 = index := by
  unfold localDigits
  split_ifs
  · rw [String.toList_append, Nat.toString_eq_repr, Nat.toList_repr]
    simp [Nat.ofDigitChars_cons]
  · rw [String.toList_append, Nat.toString_eq_repr, Nat.toList_repr]
    simp [Nat.ofDigitChars_cons]
  · rw [Nat.toString_eq_repr, Nat.toList_repr, Nat.ofDigitChars_ten_toDigits]

theorem localPackageName_injective :
    Function.Injective DebianSnapshotRepo.localPackageName := by
  intro i j h
  have hdigits : (localDigits i).toList = (localDigits j).toList := by
    have hlist : "pkg_".toList ++ (localDigits i).toList ++ ".deb".toList =
        "pkg_".toList ++ (localDigits j).toList ++ ".deb".toList := by
      have := congrArg String.toList h
      simpa only [DebianSnapshotRepo.localPackageName, localDigits, String.toList_append] using this
    exact List.append_cancel_left (List.append_cancel_right hlist)
  rw [← ofDigitChars_localDigits i, hdigits, ofDigitChars_localDigits]

theorem bar_notMem_repr (n : ℕ) : '|' ∉ n.repr.toList := by
  intro hmem
  rw [Nat.toList_repr] at hmem
  exact absurd (Nat.isDigit_of_mem_toDigits (by decide) (by decide) hmem) (by decide)

theorem bar_notMem_localPackageName (index : ℕ) :
    '|' ∉ (DebianSnapshotRepo.localPackageName index).toList := by
  have hdigits : '|' ∉ (localDigits index).toList := by
    have := bar_notMem_repr index
    unfold localDigits
    split_ifs <;> simpa using this
  have hname : DebianSnapshotRepo.localPackageName index = "pkg_" ++ localDigits index ++ ".deb" := rfl
  rw [hname]
  simpa using hdigits

/-! ## Package records -/

/-- The fields of a record. -/
def recordFields (item : LockedPackage × ℕ) : List String :=
  [item.1.name, item.1.version, item.1.arch, item.1.filename, item.1.size.repr, item.1.sha256,
    DebianSnapshotRepo.localPackageName item.2]

def recordOf (item : LockedPackage × ℕ) : String := "|".intercalate (recordFields item)

/-- The entry of the staging action's table. -/
def lockedFile (item : LockedPackage × ℕ) : PackageKey × LockedFile :=
  (identity item.1, ⟨item.1.filename, item.1.size, item.1.sha256,
    DebianSnapshotRepo.localPackageName item.2⟩)

/-- A generated lock is sorted by its keys, so sorting it again changes nothing. -/
theorem packageRecords_eq (str : Json → String) {lock : Lock}
    (hsorted : lock.packages.Pairwise fun a b => a.key ≤ b.key) :
    DebianSnapshotRepo.packageRecords str lock.toJson =
      .ok (lock.packages.zipIdx.map fun item => DebianSnapshotRepo.localPackageName item.2,
        lock.packages.zipIdx.map recordOf) := by
  have hkeyed : (lock.packages.map fun package => Json.object package.toFields).mapM
      DebianSnapshotRepo.withKey =
        .ok (lock.packages.map fun package => (package.key, package.toFields)) := by
    refine mapM_eq_ok.2 (List.forall₂_map_left_iff.2 (List.forall₂_map_right_iff.2 ?_))
    exact List.forall₂_same.2 fun package _ => rfl
  have hsame : (lock.packages.map fun package => (package.key, package.toFields)).insertionSort
      (fun a b => a.1 ≤ b.1) = lock.packages.map fun package => (package.key, package.toFields) := by
    refine List.Pairwise.insertionSort_eq ?_
    rw [List.pairwise_map]
    exact hsorted
  have hlocked : DebianSnapshotRepo.lockedPackages
      [("packages", .list (lock.packages.map fun package => .object package.toFields)),
        ("repository", .object lock.repository.toFields)] =
      .ok (lock.packages.map LockedPackage.toFields) := by
    have hindex : DebianSnapshotRepo.index
        [("packages", .list (lock.packages.map fun package => .object package.toFields)),
          ("repository", .object lock.repository.toFields)] "packages" =
        .ok (.list (lock.packages.map fun package => .object package.toFields)) := rfl
    rw [DebianSnapshotRepo.lockedPackages, hindex, ok_bind]
    dsimp only
    rw [hkeyed, ok_bind, hsame, List.map_map]
    rfl
  have hrecords : (lock.packages.map LockedPackage.toFields).zipIdx.mapM
      (DebianSnapshotRepo.packageRecord str) =
        .ok (lock.packages.zipIdx.map fun item =>
          (DebianSnapshotRepo.localPackageName item.2, recordOf item)) := by
    rw [List.zipIdx_map]
    refine mapM_eq_ok.2 (List.forall₂_map_left_iff.2 (List.forall₂_map_right_iff.2 ?_))
    exact List.forall₂_same.2 fun item _ => rfl
  have hobject : DebianSnapshotRepo.asObject lock.toJson = .ok _ := rfl
  rw [DebianSnapshotRepo.packageRecords, hobject, ok_bind, hlocked, ok_bind, hrecords, ok_bind,
    List.map_map, List.map_map]
  rfl

theorem splitBar_recordOf {url : String} {components : List String} {item : LockedPackage × ℕ}
    (h : PackageAccepted url components item.1) :
    DebianSnapshot.splitBar (recordOf item) = recordFields item := by
  have harch : '|' ∉ item.1.arch.toList := by
    have := h.arch
    simp only [DebianSnapshotRepo.indexArchitectures, List.mem_cons, List.not_mem_nil, or_false] at this
    rcases this with harch | harch
    · rw [harch]; decide
    · rw [harch]; decide
  have hsha : '|' ∉ item.1.sha256.toList := by
    have := h.sha256
    simp only [DebianRelease.isDigest, decide_eq_true_eq, List.all_eq_true] at this
    exact fun hmem => absurd (this.2 _ hmem) (by decide)
  have hfields : ∀ field ∈ (recordFields item).map String.toList, '|' ∉ field := by
    obtain ⟨hname, hversion, hfilename⟩ := h.no_bar
    simp only [recordFields, List.map_cons, List.map_nil, List.forall_mem_cons]
    exact ⟨hname, hversion, harch, hfilename, bar_notMem_repr _, hsha,
      bar_notMem_localPackageName _, fun _ hmem => absurd hmem List.not_mem_nil⟩
  rw [DebianSnapshot.splitBar, recordOf, String.toList_intercalate]
  have hsplit := List.splitOn_intercalate '|' hfields (by simp [recordFields])
  have hbar : "|".toList = ['|'] := rfl
  rw [hbar, hsplit, List.map_map]
  have hid : String.ofList ∘ String.toList = id := funext fun text => String.ofList_toList
  rw [hid, List.map_id]

theorem safePackagePath_accepts {filename : String} (h : IsPoolFile filename) :
    DebianSnapshot.safePackagePath filename = .ok filename := by
  obtain ⟨hpool, -, hparts⟩ := h
  have htail : (PosixPath.parse filename).tail = splitSlash filename := by
    refine List.filter_eq_self.2 fun part hpart => ?_
    simp [(hparts part hpart).1, (hparts part hpart).2.1]
  have hroot : (PosixPath.parse filename).root = "" := by
    obtain ⟨rest, rfl⟩ := startsWith_iff.1 hpool
    unfold PosixPath.parse
    dsimp only
    rw [String.toList_append]
    rfl
  have hne : splitSlash filename ≠ [] := by
    simp [splitSlash, List.splitOn_ne_nil]
  have hstr : (PosixPath.parse filename).str = filename := by
    rw [PosixPath.str, hroot, htail, if_neg (fun hboth => hne hboth.2), joinSlash_splitSlash]
    simp
  have hsafe : ¬ ((PosixPath.parse filename).isAbsolute = true ∨
      ".." ∈ (PosixPath.parse filename).parts ∨ (PosixPath.parse filename).str ≠ filename ∨
      startsWith (PosixPath.parse filename).str "pool/" = false) := by
    rintro (habsolute | hparent | hother | hstart)
    · simp [PosixPath.isAbsolute, hroot] at habsolute
    · rw [PosixPath.parts, if_pos hroot, htail] at hparent
      exact (hparts _ hparent).2.2 rfl
    · exact hother hstr
    · rw [hstr, hpool] at hstart
      cases hstart
  rw [DebianSnapshot.safePackagePath, raiseIf_of_not hsafe, ok_bind, hstr]
  rfl

/-- The table after some of the records. -/
theorem foldlM_addLocked {url : String} {components : List String} :
    ∀ {items done : List (LockedPackage × ℕ)},
      (∀ item ∈ items, PackageAccepted url components item.1) →
      ((done ++ items).map fun item => identity item.1).Nodup →
      ((done ++ items).map fun item => item.1.filename).Nodup →
      ((done ++ items).map Prod.snd).Nodup →
      (items.map recordOf).foldlM DebianSnapshot.addLocked (done.map lockedFile) =
        .ok ((done ++ items).map lockedFile)
  | [], done, _, _, _, _ => by simp [pure, Except.pure]
  | item :: items, done, hitems, hidentities, hfilenames, hindexes => by
    obtain ⟨hitem, hitems⟩ := List.forall_mem_cons.1 hitems
    have hsplit := splitBar_recordOf hitem
    have hnew : ∀ {α : Type} (f : LockedPackage × ℕ → α), ((done ++ item :: items).map f).Nodup →
        f item ∉ done.map f := by
      intro α f hnodup hmem
      rw [List.map_append] at hnodup
      exact (List.nodup_append.1 hnodup).2.2 _ hmem _ List.mem_cons_self rfl
    have hkey : identity item.1 ∉ Dict.keys (done.map lockedFile) := by
      have := hnew _ hidentities
      simpa [Dict.keys, List.map_map, Function.comp_def, lockedFile] using this
    have hget : Dict.get (done.map lockedFile) (identity item.1) = none := by
      rw [← Option.not_isSome_iff_eq_none, Dict.get_isSome]
      exact hkey
    have hfilename : item.1.filename ∉ (done.map lockedFile).map fun entry => entry.2.filename := by
      have := hnew _ hfilenames
      simpa [List.map_map, Function.comp_def, lockedFile] using this
    have hlocal : DebianSnapshotRepo.localPackageName item.2 ∉
        (done.map lockedFile).map fun entry => entry.2.localName := by
      have := hnew _ hindexes
      rw [List.map_map]
      intro hmem
      obtain ⟨other, hother, heq⟩ := List.mem_map.1 hmem
      exact this (List.mem_map.2 ⟨other, hother, localPackageName_injective heq⟩)
    have hstep : DebianSnapshot.addLocked (done.map lockedFile) (recordOf item) =
        .ok ((done ++ [item]).map lockedFile) := by
      have hsize : DebianSnapshot.parseSize item.1.size.repr.toList = .ok item.1.size := by
        rw [DebianSnapshot.parseSize, toInt_repr hitem.size]
      have hidentity : (item.1.name, item.1.version, item.1.arch) = identity item.1 := rfl
      rw [DebianSnapshot.addLocked, hsplit, recordFields]
      dsimp only
      rw [raiseIf_of_not (by rw [isDigit_repr]; decide), ok_bind, safePackagePath_accepts hitem.filename,
        ok_bind, hidentity, raiseIf_of_not (by simp [hget]), ok_bind, raiseIf_of_not hfilename, ok_bind,
        raiseIf_of_not hlocal, ok_bind, hsize, ok_bind, Dict.set_of_notMem hkey]
      simp [lockedFile, pure, Except.pure]
    have hmore : done ++ item :: items = (done ++ [item]) ++ items := by simp
    rw [hmore] at hidentities hfilenames hindexes ⊢
    rw [List.map_cons, List.foldlM_cons, hstep, ok_bind,
      foldlM_addLocked hitems hidentities hfilenames hindexes]

/-! ## Reading the indexes again -/

def packageIdentity (package : Package) : PackageKey :=
  (package.name, package.version, package.architecture)

def indexRecord (package : Package) : DebianSnapshot.IndexRecord :=
  (package.filename, package.size, package.sha256)

/-- Packages of one identity have one file. -/
def Consistent (packages : List Package) : Prop :=
  ∀ p ∈ packages, ∀ q ∈ packages, packageIdentity p = packageIdentity q →
    indexRecord p = indexRecord q

section
variable {expected : Dict PackageKey LockedFile}

/-- What the staging action has read after the records of some packages. -/
structure Reads (expected : Dict PackageKey LockedFile) (seen : List Package)
    (actual : Dict PackageKey DebianSnapshot.IndexRecord) : Prop where
  sound : ∀ key record, actual.get key = some record → key ∈ expected.keys ∧
    ∃ package ∈ seen, packageIdentity package = key ∧ indexRecord package = record
  complete : ∀ package ∈ seen, packageIdentity package ∈ expected.keys →
    packageIdentity package ∈ actual.keys

theorem Reads.nil : Reads expected [] [] :=
  ⟨fun _ _ h => (by cases h), fun _ h => absurd h List.not_mem_nil⟩

theorem paragraphRecord_of_states {paragraph : DebianControl.Paragraph}
    {component indexArchitecture : String} {package : Package}
    (h : Debian.States paragraph component indexArchitecture package) :
    DebianSnapshot.paragraphRecord paragraph = .ok (indexRecord package) := by
  obtain ⟨text, hsize, hdigit, hvalue⟩ := h.size
  have hfilename : package.filename.toList ≠ [] := by
    intro hempty
    have := h.below
    rw [hempty] at this
    cases this
  have hdigest : package.sha256.toList ≠ [] := by
    intro hempty
    have := h.digest
    rw [hempty] at this
    cases this
  rw [DebianSnapshot.paragraphRecord, h.filename, hsize, h.sha256]
  dsimp only
  rw [raiseIf_of_not (by simp [hfilename, hdigest, hdigit]), ok_bind, DebianSnapshot.parseSize, hvalue]
  dsimp only
  rw [ok_bind, String.ofList_toList, String.ofList_toList]
  rfl

theorem paragraphKey_of_states {paragraph : DebianControl.Paragraph}
    {component indexArchitecture : String} {package : Package}
    (h : Debian.States paragraph component indexArchitecture package) :
    DebianSnapshot.paragraphKey paragraph = some (packageIdentity package) := by
  rw [DebianSnapshot.paragraphKey, h.name, h.version, h.architecture]
  dsimp only
  rw [String.ofList_toList, String.ofList_toList, String.ofList_toList]
  rfl

/-- A record that the generator accepts is read again. -/
theorem Reads.add {packages seen : List Package} {package : Package}
    {actual : Dict PackageKey DebianSnapshot.IndexRecord} {paragraph : DebianControl.Paragraph}
    {component indexArchitecture : String} (h : Reads expected seen actual)
    (hconsistent : Consistent packages) (hseen : ∀ p ∈ seen, p ∈ packages) (hpackage : package ∈ packages)
    (hstates : Debian.States paragraph component indexArchitecture package) :
    ∃ actual', DebianSnapshot.addParagraph expected indexArchitecture actual paragraph = .ok actual' ∧
      Reads expected (seen ++ [package]) actual' := by
  have hknown : ¬ (Debian.getField paragraph "Architecture" ≠ some "amd64".toList ∧
      Debian.getField paragraph "Architecture" ≠ some "all".toList) := by
    rw [hstates.architecture]
    have := hstates.known
    simp only [Debian.indexArchitectures, List.mem_cons, List.not_mem_nil, or_false] at this
    rintro ⟨hamd64, hall⟩
    rcases this with harch | harch
    · exact hamd64 (by rw [harch]; rfl)
    · exact hall (by rw [harch])
  have hall : ¬ (indexArchitecture = "all" ∧
      Debian.getField paragraph "Architecture" ≠ some "all".toList) := by
    rintro ⟨hindex, hother⟩
    exact hother (by rw [hstates.architecture, hstates.all hindex])
  have hsame : ¬ ((actual.get (packageIdentity package)).any (· ≠ indexRecord package) = true) := by
    cases hget : actual.get (packageIdentity package) with
    | none => simp
    | some record =>
      obtain ⟨-, p, hp, hidentity, rfl⟩ := h.sound _ _ hget
      have := hconsistent p (hseen p hp) package hpackage hidentity
      simp [this]
  refine ⟨if (expected.get (packageIdentity package)).isSome
    then actual.set (packageIdentity package) (indexRecord package) else actual, ?_, ?_⟩
  · rw [DebianSnapshot.addParagraph, raiseIf_of_not hknown, ok_bind, raiseIf_of_not hall, ok_bind,
      paragraphRecord_of_states hstates, ok_bind, paragraphKey_of_states hstates]
    dsimp only
    rw [raiseIf_of_not hsame, ok_bind]
    rfl
  · split_ifs with hexpected
    · rw [Dict.get_isSome] at hexpected
      refine ⟨fun key record hget => ?_, fun p hp hkey => Dict.mem_keys_set.2 ?_⟩
      · rw [Dict.get_set] at hget
        split_ifs at hget with hkey
        · cases hget
          exact ⟨hkey ▸ hexpected, package, by simp, hkey, rfl⟩
        · obtain ⟨hmem, p, hp, hidentity⟩ := h.sound key record hget
          exact ⟨hmem, p, List.mem_append_left _ hp, hidentity⟩
      · rcases List.mem_append.1 hp with hp | hp
        · exact .inr (h.complete p hp hkey)
        · rw [List.mem_singleton.1 hp]
          exact .inl rfl
    · rw [Dict.get_isSome] at hexpected
      refine ⟨fun key record hget => ?_, fun p hp hkey => ?_⟩
      · obtain ⟨hmem, p, hp, hidentity⟩ := h.sound key record hget
        exact ⟨hmem, p, List.mem_append_left _ hp, hidentity⟩
      · rcases List.mem_append.1 hp with hp | hp
        · exact h.complete p hp hkey
        · rw [List.mem_singleton.1 hp] at hkey
          exact absurd hkey hexpected

/-- All records of an index are read again. -/
theorem Reads.addAll {packages : List Package} {component indexArchitecture : String}
    (hconsistent : Consistent packages) : ∀ {records : List DebianControl.Paragraph}
      {indexed seen : List Package} {actual : Dict PackageKey DebianSnapshot.IndexRecord},
      List.Forall₂ (fun paragraph package =>
        Debian.packageRecord paragraph component indexArchitecture = .ok package) records indexed →
      (∀ p ∈ seen ++ indexed, p ∈ packages) → Reads expected seen actual →
      ∃ actual', records.foldlM (DebianSnapshot.addParagraph expected indexArchitecture) actual =
        .ok actual' ∧ Reads expected (seen ++ indexed) actual'
  | [], _, seen, actual, .nil, _, h => ⟨actual, rfl, by rwa [List.append_nil]⟩
  | paragraph :: records, package :: indexed, seen, actual, .cons hrecord hrest, hmem, h => by
    obtain ⟨actual₁, hstep, h₁⟩ := h.add hconsistent (fun p hp => hmem p (by simp [hp]))
      (hmem package (by simp)) (Debian.packageRecord_states hrecord)
    obtain ⟨actual', hrun, h'⟩ := addAll hconsistent hrest (by simpa using hmem) h₁
    exact ⟨actual', by rw [List.foldlM_cons, hstep, ok_bind, hrun], by simpa using h'⟩

/-- An index that the generator and the staging action read. -/
structure SameIndex (L : Library) (index : String × String) (staged : Bytes × String)
    (packages : List Package) : Prop where
  architecture : staged.2 = index.2
  parsed : ∃ text, L.decodeUtf8 staged.1 = some text ∧
    Debian.parsePackages text index.1 index.2 = .ok packages

theorem lockParagraphs_eq_ok {text : Str} {records : List DebianControl.Paragraph}
    (h : DebianRelease.lockParagraphs text = .ok records) :
    DebianControl.paragraphs text = .ok records := by
  unfold DebianRelease.lockParagraphs at h
  split at h
  · next result hresult =>
    cases h
    exact hresult
  · cases h

/-- All indexes are read again. -/
theorem Reads.addIndexes {L : Library} {packages : List Package} (hconsistent : Consistent packages) :
    ∀ {indexes : List (String × String)} {staged : List (Bytes × String)}
      {parsed : List (List Package)} {seen : List Package}
      {actual : Dict PackageKey DebianSnapshot.IndexRecord},
      List.Forall₂ (fun index item => SameIndex L index item.1 item.2) indexes (staged.zip parsed) →
      staged.length = parsed.length →
      (∀ p ∈ seen ++ parsed.flatten, p ∈ packages) → Reads expected seen actual →
      ∃ actual', staged.foldlM (DebianSnapshot.addIndex expected L.decodeUtf8) actual = .ok actual' ∧
        Reads expected (seen ++ parsed.flatten) actual'
  | _, [], [], seen, actual, _, _, _, h => ⟨actual, rfl, by simpa using h⟩
  | _, file :: staged, first :: parsed, seen, actual, hall, hlength, hmem, h => by
    rw [List.zip_cons_cons] at hall
    cases hall with
    | cons hsame hrest =>
      obtain ⟨harch, text, hdecode, hparse⟩ := hsame
      simp only [Debian.parsePackages, bind_eq_ok] at hparse
      obtain ⟨records, hrecords, hpackages⟩ := hparse
      rw [← harch] at hpackages
      obtain ⟨actual₁, hstep, h₁⟩ := Reads.addAll hconsistent (mapM_eq_ok.1 hpackages)
        (fun p hp => hmem p (by
          rw [List.flatten_cons, ← List.append_assoc]
          exact List.mem_append_left _ hp)) h
      have hindex : DebianSnapshot.addIndex expected L.decodeUtf8 actual file = .ok actual₁ := by
        rw [DebianSnapshot.addIndex, hdecode]
        dsimp only
        rw [lockParagraphs_eq_ok hrecords, ok_bind, hstep]
      obtain ⟨actual', hrun, h'⟩ := addIndexes hconsistent hrest (by simpa using hlength)
        (by simpa using hmem) h₁
      exact ⟨actual', by rw [List.foldlM_cons, hindex, ok_bind, hrun], by simpa using h'⟩

theorem verifyPackageMetadata_accepts {decodeUtf8 : Bytes → Option Str} {packages : List Package}
    {indexes : List (Bytes × String)} {actual : Dict PackageKey DebianSnapshot.IndexRecord}
    (hread : DebianSnapshot.readPackageMetadata expected decodeUtf8 indexes = .ok actual)
    (h : Reads expected packages actual) (hconsistent : Consistent packages)
    (hlisted : ∀ key file, expected.get key = some file → ∃ package ∈ packages,
      packageIdentity package = key ∧ indexRecord package = (file.filename, file.size, file.digest)) :
    DebianSnapshot.verifyPackageMetadata expected decodeUtf8 indexes = .ok () := by
  have hkeys : actual.keys.toFinset = expected.keys.toFinset := by
    ext key
    rw [List.mem_toFinset, List.mem_toFinset]
    constructor
    · intro hkey
      obtain ⟨record, hget⟩ := Dict.exists_get_of_mem_keys hkey
      exact (h.sound key record hget).1
    · intro hkey
      obtain ⟨file, hget⟩ := Dict.exists_get_of_mem_keys hkey
      obtain ⟨package, hpackage, rfl, -⟩ := hlisted key file hget
      exact h.complete package hpackage hkey
  rw [DebianSnapshot.verifyPackageMetadata, hread, ok_bind, raiseIf_of_not (by simp [hkeys]), ok_bind]
  refine forM_eq_ok.2 fun key hkey => raiseIf_of_not ?_ _
  rw [List.mem_insertionSort] at hkey
  obtain ⟨file, hget⟩ := Dict.exists_get_of_mem_keys hkey
  obtain ⟨package, hpackage, rfl, hrecord⟩ := hlisted key file hget
  obtain ⟨record, hactual⟩ := Dict.exists_get_of_mem_keys (h.complete package hpackage hkey)
  obtain ⟨-, p, hp, hidentity, rfl⟩ := h.sound _ _ hactual
  rw [hactual, hget, hconsistent p hp package hpackage hidentity, hrecord]
  simp

end

end RulesMkosi.DebianPipeline
