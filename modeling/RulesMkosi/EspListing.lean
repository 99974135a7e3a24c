/-
  Listing and extraction agree.

  `walk` follows the stored names of the directories, `lookup` matches the
  components of a path with long and short names regardless of case.  Both are
  compared with the trails of the volume: the ways from the root directory
  through subdirectories to an entry.  A walk lists the files at the ends of all
  trails, and a lookup follows the first trail that its components match.
-/
import RulesMkosi.EspVolume
import Mathlib.Data.List.Nodup

namespace RulesMkosi.EspManifest

open ReadProgram

deriving instance DecidableEq for WalkLimits

section
variable {C : CaseMapping} {volume : FatVolume} {data : Bytes}

/-! ## Directories -/

theorem chainLoop_what {what : String} (what' : String) : ∀ {fuel : ℕ} {done chain : List ℕ}
    {cluster : ℕ}, volume.chainLoop what fuel done cluster = .ok chain →
    volume.chainLoop what' fuel done cluster = .ok chain
  | 0, _, _, _, h => by cases h
  | fuel + 1, done, chain, cluster, h => by
    simp only [FatVolume.chainLoop, bind_eq_ok, exists_unit, raiseIf_eq_ok] at h ⊢
    obtain ⟨hrange, hnew, next, hnext, h⟩ := h
    refine ⟨hrange, hnew, next, hnext, ?_⟩
    split_ifs at h ⊢ with hend
    · exact h
    · exact chainLoop_what what' h

theorem readChain_what {what : String} (what' : String) : ∀ {chain : List ℕ} {bytes : Bytes},
    (volume.readChain what chain data).1 = .ok bytes →
    (volume.readChain what' chain data).1 = .ok bytes
  | [], _, h => h
  | cluster :: rest, bytes, h => by
    simp only [FatVolume.readChain, run_bind_eq_ok, run_pure_eq_ok, read_eq_ok] at h ⊢
    obtain ⟨_, hread, more, hmore, rfl⟩ := h
    exact ⟨_, hread, more, readChain_what what' hmore, rfl⟩

variable (C volume data) in
/-- The entries of a directory, whatever it is called in messages. -/
def Lists (cluster : Option ℕ) (found : List Entry) : Prop :=
  ∀ what, (volume.directory C cluster what none data).1 = .ok (found, none)

theorem Lists.unique {cluster : Option ℕ} {found found' : List Entry}
    (h : Lists C volume data cluster found) (hother : Lists C volume data cluster found') :
    found = found' := by
  have heq := (h "").symm.trans (hother "")
  exact (Prod.mk.inj (Except.ok.inj heq)).1

theorem chainedDirectory_lists {cluster : ℕ} {what : String} {limits limits' : Option WalkLimits}
    {found : List Entry}
    (h : (volume.chainedDirectory C cluster what limits data).1 = .ok (found, limits'))
    (what' : String) :
    (volume.chainedDirectory C cluster what' none data).1 = .ok (found, none) := by
  simp only [FatVolume.chainedDirectory, run_bind_eq_ok, run_ofExcept, exists_unit,
    run_failIf_eq_ok, run_pure_eq_ok] at h ⊢
  obtain ⟨chain, hchain, hsize, _, -, bytes, hbytes, _, hfound, heq⟩ := h
  refine ⟨chain, chainLoop_what what' hchain, hsize, none, rfl, bytes,
    readChain_what what' hbytes, found, ?_, rfl⟩
  rw [hfound, (Prod.mk.inj heq).1]

theorem fixedRoot_lists {what : String} {limits limits' : Option WalkLimits} {found : List Entry}
    (h : (volume.fixedRoot C what limits data).1 = .ok (found, limits')) (what' : String) :
    (volume.fixedRoot C what' none data).1 = .ok (found, none) := by
  simp only [FatVolume.fixedRoot, run_bind_eq_ok, run_ofExcept, run_pure_eq_ok, read_eq_ok] at h ⊢
  obtain ⟨_, -, bytes, hbytes, _, hfound, heq⟩ := h
  refine ⟨none, rfl, bytes, hbytes, found, ?_, rfl⟩
  rw [hfound, (Prod.mk.inj heq).1]

/-- The entries that a walk finds are those that a lookup finds. -/
theorem directory_lists {cluster : Option ℕ} {what : String} {limits limits' : Option WalkLimits}
    {found : List Entry}
    (h : (volume.directory C cluster what limits data).1 = .ok (found, limits')) :
    Lists C volume data cluster found := by
  intro what'
  unfold FatVolume.directory at h ⊢
  cases cluster with
  | some first => exact chainedDirectory_lists h what'
  | none =>
    dsimp only at h ⊢
    split_ifs at h ⊢
    · exact chainedDirectory_lists h what'
    · exact fixedRoot_lists h what'

/-! ## Trails -/

variable (C volume data) in
/-- A way from a directory through subdirectories to an entry. -/
inductive Trail : Option ℕ → List Entry → Entry → Prop
  | here {cluster : Option ℕ} {found : List Entry} {entry : Entry} :
    Lists C volume data cluster found → entry ∈ found → Trail cluster [] entry
  | down {cluster : Option ℕ} {found : List Entry} {sub : Entry} {subs : List Entry}
    {entry : Entry} : Lists C volume data cluster found → sub ∈ found → sub.isDirectory = true →
    Trail (some sub.cluster) subs entry → Trail cluster (sub :: subs) entry

variable (C volume data) in
/-- The directories that a trail from the root directory enters. -/
inductive Reach : Option ℕ → Prop
  | root : Reach none
  | down {cluster : Option ℕ} {found : List Entry} {sub : Entry} : Reach cluster →
    Lists C volume data cluster found → sub ∈ found → sub.isDirectory = true →
    Reach (some sub.cluster)

/-- The path of the directory behind the subdirectories `subs`, with a slash at its end. -/
def subPath (subs : List Entry) : Str := subs.flatMap fun sub => sub.name ++ ['/']

/-- The file at the end of a trail. -/
def trailFile (subs : List Entry) (entry : Entry) : EspFile := ⟨subPath subs ++ entry.name, entry.size⟩

/-- The long and the short name of an entry as lookups compare them. -/
def folded (C : CaseMapping) (entry : Entry) : List Str := [C.upper entry.name, C.upper entry.shortName]

/-- Names that can stand in a path, and none that matches two entries. -/
structure WellNamed (C : CaseMapping) (found : List Entry) : Prop where
  nonempty : ∀ entry ∈ found, entry.name ≠ []
  noSlash : ∀ entry ∈ found, '/' ∉ entry.name
  disjoint : found.Pairwise fun a b => (folded C a).Disjoint (folded C b)

/-! ## The walk -/

variable (C volume data) in
/-- The file is at the end of a trail from one of the pending directories. -/
def Pending (pending : List (Str × Option ℕ)) (f : EspFile) : Prop :=
  ∃ item ∈ pending, ∃ subs entry, Trail C volume data item.2 subs entry ∧
    entry.isDirectory = false ∧ f = ⟨item.1 ++ subPath subs ++ entry.name, entry.size⟩

theorem mem_regularFiles {path : Str} {found : List Entry} {f : EspFile} :
    f ∈ regularFiles path found ↔
      ∃ entry ∈ found, entry.isDirectory = false ∧ f = ⟨path ++ entry.name, entry.size⟩ := by
  simp [regularFiles, eq_comm (a := f), and_assoc]

theorem mem_subdirectories {path : Str} {found : List Entry} {item : Str × Option ℕ} :
    item ∈ subdirectories path found ↔ ∃ sub ∈ found, sub.isDirectory = true ∧
      item = (path ++ sub.name ++ ['/'], some sub.cluster) := by
  simp [subdirectories, eq_comm (a := item), and_assoc]

/-- The trails of a directory: its files, and the trails of its subdirectories. -/
theorem pending_singleton {path : Str} {cluster : Option ℕ} {found : List Entry}
    (hlists : Lists C volume data cluster found) (f : EspFile) :
    Pending C volume data [(path, cluster)] f ↔
      f ∈ regularFiles path found ∨ Pending C volume data (subdirectories path found) f := by
  rw [mem_regularFiles]
  constructor
  · rintro ⟨item, hitem, subs, entry, htrail, hfile, rfl⟩
    obtain rfl := List.mem_singleton.1 hitem
    cases htrail with
    | here hlists' hmem =>
      obtain rfl := hlists.unique hlists'
      exact .inl ⟨entry, hmem, hfile, by simp [subPath]⟩
    | @down _ found' sub subs' _ hlists' hmem hdir hrest =>
      obtain rfl := hlists.unique hlists'
      refine .inr ⟨_, mem_subdirectories.2 ⟨sub, hmem, hdir, rfl⟩, subs', entry, hrest, hfile, ?_⟩
      simp [subPath]
  · rintro (⟨entry, hmem, hfile, rfl⟩ | ⟨item, hitem, subs, entry, htrail, hfile, rfl⟩)
    · exact ⟨_, List.mem_singleton_self _, [], entry, .here hlists hmem, hfile, by simp [subPath]⟩
    · obtain ⟨sub, hmem, hdir, rfl⟩ := mem_subdirectories.1 hitem
      refine ⟨_, List.mem_singleton_self _, sub :: subs, entry, .down hlists hmem hdir htrail,
        hfile, ?_⟩
      simp [subPath]

theorem pending_append {pending pending' : List (Str × Option ℕ)} {f : EspFile} :
    Pending C volume data (pending ++ pending') f ↔
      Pending C volume data pending f ∨ Pending C volume data pending' f := by
  simp only [Pending, List.mem_append, or_and_right, exists_or]

/-- **A walk lists the ends of all trails.** -/
theorem mem_walkLoop : ∀ {fuel : ℕ} {limits : Option WalkLimits}
    {pending : List (Str × Option ℕ)} {files result : List EspFile},
    (volume.walkLoop C fuel limits pending files data).1 = .ok result →
    ∀ f, f ∈ result ↔ f ∈ files ∨ Pending C volume data pending f
  | fuel, limits, [], files, result, h => by
    intro f
    rw [FatVolume.walkLoop, run_pure_eq_ok] at h
    rw [← h, List.mem_insertionSort]
    simp [Pending]
  | 0, limits, item :: pending, files, result, h => by cases h
  | fuel + 1, limits, (path, cluster) :: pending, files, result, h => by
    intro f
    rw [FatVolume.walkLoop, run_bind_eq_ok] at h
    obtain ⟨⟨found, limits'⟩, hdirectory, h⟩ := h
    have hlists := directory_lists hdirectory
    have hcons : Pending C volume data ((path, cluster) :: pending) f ↔
        Pending C volume data [(path, cluster)] f ∨ Pending C volume data pending f := by
      rw [← pending_append, List.singleton_append]
    rw [mem_walkLoop h f, List.mem_append, pending_append, hcons, pending_singleton hlists f]
    tauto

theorem mem_walk {files : List EspFile} (h : (volume.walk C data).1 = .ok files) (f : EspFile) :
    f ∈ files ↔ ∃ subs entry, Trail C volume data none subs entry ∧ entry.isDirectory = false ∧
      f = trailFile subs entry := by
  rw [mem_walkLoop h f]
  simp [Pending, trailFile]

/-! ## Different paths -/

/-- Neither path is a start of the other. -/
def Apart (p q : Str) : Prop := ¬ p <+: q ∧ ¬ q <+: p

theorem Apart.symm {p q : Str} (h : Apart p q) : Apart q p := ⟨h.2, h.1⟩

theorem Apart.append {p q : Str} (h : Apart p q) (tail : Str) : Apart (p ++ tail) q := by
  refine ⟨fun hle => h.1 ((List.prefix_append p tail).trans hle), fun hle => ?_⟩
  rcases List.prefix_or_prefix_of_prefix hle (List.prefix_append p tail) with hq | hp
  · exact h.2 hq
  · exact h.1 hp

/-- Different names without a slash lead to different subdirectories. -/
theorem apart_of_ne {p a b : Str} (ha : '/' ∉ a) (hb : '/' ∉ b) (hne : a ≠ b) :
    Apart (p ++ a ++ ['/']) (p ++ b ++ ['/']) := by
  have hstart : ∀ {a b : Str}, '/' ∉ a → '/' ∉ b → a ++ ['/'] <+: b ++ ['/'] → a = b := by
    rintro a b ha hb ⟨tail, htail⟩
    have hsplit := congrArg (List.splitOn '/') htail
    rw [List.append_assoc, List.singleton_append, List.splitOn_append_cons_self_of_not_mem ha,
      List.splitOn_append_cons_self_of_not_mem hb] at hsplit
    exact (List.cons.inj hsplit).1
  rw [Apart, List.append_assoc, List.append_assoc, List.prefix_append_right_inj,
    List.prefix_append_right_inj]
  exact ⟨fun h => hne (hstart ha hb h), fun h => hne (hstart hb ha h).symm⟩

theorem WellNamed.names_ne {found : List Entry} (h : WellNamed C found) :
    found.Pairwise fun a b => a.name ≠ b.name := by
  refine h.disjoint.imp fun {a b} hdisjoint heq => ?_
  have hmem : C.upper a.name ∈ folded C b := by simp [folded, heq]
  exact hdisjoint List.mem_cons_self hmem

/-- The listed files and the pending directories of a walk have different paths. -/
structure Distinct (pending : List (Str × Option ℕ)) (files : List EspFile) : Prop where
  paths : (files.map EspFile.path).Nodup
  apart : pending.Pairwise fun a b => Apart a.1 b.1
  outside : ∀ f ∈ files, ∀ item ∈ pending, ¬ item.1 <+: f.path

theorem subdirectories_apart {found : List Entry} (h : WellNamed C found) (path : Str) :
    (subdirectories path found).Pairwise fun a b => Apart a.1 b.1 := by
  rw [subdirectories, List.pairwise_reverse, List.pairwise_map]
  refine List.Pairwise.filter _ (List.Pairwise.imp_of_mem (fun {a b} ha hb hne => ?_) h.names_ne)
  exact (apart_of_ne (h.noSlash a ha) (h.noSlash b hb) hne).symm

theorem regularFiles_nodup {found : List Entry} (h : WellNamed C found) (path : Str) :
    ((regularFiles path found).map EspFile.path).Nodup := by
  rw [regularFiles, List.map_map, List.Nodup, List.pairwise_map]
  refine List.Pairwise.filter _ (h.names_ne.imp fun {a b} hne heq => hne ?_)
  exact List.append_cancel_left heq

/-- One round of the walk keeps the paths apart. -/
theorem Distinct.step {path : Str} {cluster : Option ℕ} {pending : List (Str × Option ℕ)}
    {files : List EspFile} {found : List Entry} (h : Distinct ((path, cluster) :: pending) files)
    (hnames : WellNamed C found) :
    Distinct (subdirectories path found ++ pending) (files ++ regularFiles path found) := by
  obtain ⟨hapart, hpending⟩ := List.pairwise_cons.1 h.apart
  refine ⟨?_, ?_, ?_⟩
  · rw [List.map_append]
    refine List.Nodup.append h.paths (regularFiles_nodup hnames path) fun p hp hp' => ?_
    -- a new file lies below the directory, an old one does not
    obtain ⟨f, hf, rfl⟩ := List.mem_map.1 hp
    obtain ⟨f', hf', heq⟩ := List.mem_map.1 hp'
    obtain ⟨entry, -, -, rfl⟩ := mem_regularFiles.1 hf'
    exact h.outside f hf _ List.mem_cons_self (heq ▸ List.prefix_append path entry.name)
  · refine List.pairwise_append.2 ⟨subdirectories_apart hnames path, hpending, ?_⟩
    intro item hitem other hother
    obtain ⟨sub, -, -, rfl⟩ := mem_subdirectories.1 hitem
    exact ((hapart other hother).append sub.name).append ['/']
  · intro f hf item hitem hle
    rcases List.mem_append.1 hf with hf | hf
    · rcases List.mem_append.1 hitem with hitem | hitem
      · obtain ⟨sub, -, -, rfl⟩ := mem_subdirectories.1 hitem
        rw [List.append_assoc] at hle
        exact h.outside f hf _ List.mem_cons_self ((List.prefix_append path _).trans hle)
      · exact h.outside f hf item (List.mem_cons_of_mem _ hitem) hle
    · obtain ⟨entry, hentry, -, rfl⟩ := mem_regularFiles.1 hf
      rcases List.mem_append.1 hitem with hitem | hitem
      · obtain ⟨sub, -, -, rfl⟩ := mem_subdirectories.1 hitem
        rw [List.append_assoc, List.prefix_append_right_inj] at hle
        exact hnames.noSlash entry hentry (hle.subset (by simp))
      · exact ((hapart item hitem).append entry.name).2 hle

/-- **No path is listed twice.** -/
theorem walkLoop_nodup
    (hnames : ∀ cluster found, Reach C volume data cluster → Lists C volume data cluster found →
      WellNamed C found) : ∀ {fuel : ℕ} {limits : Option WalkLimits}
    {pending : List (Str × Option ℕ)} {files result : List EspFile},
    (volume.walkLoop C fuel limits pending files data).1 = .ok result →
    (∀ item ∈ pending, Reach C volume data item.2) → Distinct pending files →
    (result.map EspFile.path).Nodup
  | fuel, limits, [], files, result, h, _, hdistinct => by
    rw [FatVolume.walkLoop, run_pure_eq_ok] at h
    rw [← h]
    exact ((List.perm_insertionSort EspFile.le files).map EspFile.path).nodup_iff.2 hdistinct.paths
  | 0, limits, item :: pending, files, result, h, _, _ => by cases h
  | fuel + 1, limits, (path, cluster) :: pending, files, result, h, hreach, hdistinct => by
    rw [FatVolume.walkLoop, run_bind_eq_ok] at h
    obtain ⟨⟨found, limits'⟩, hdirectory, h⟩ := h
    have hlists := directory_lists hdirectory
    have hcluster := hreach _ List.mem_cons_self
    refine walkLoop_nodup hnames h (fun item hitem => ?_)
      (hdistinct.step (hnames cluster found hcluster hlists))
    rcases List.mem_append.1 hitem with hitem | hitem
    · obtain ⟨sub, hmem, hdir, rfl⟩ := mem_subdirectories.1 hitem
      exact .down hcluster hlists hmem hdir
    · exact hreach item (List.mem_cons_of_mem _ hitem)

/-! ## Lookups -/

/-- The rounds of a lookup from a directory on, of which there is at least one. -/
def FatVolume.lookupFrom (volume : FatVolume) (C : CaseMapping) (espPath : Str) (done : List Str)
    (entry : Option Entry) (component : Str) (rest : List Str) : Program Entry := do
  let entry ← volume.lookupStep C espPath done entry component
  volume.lookupLoop C espPath (done ++ [component]) entry rest

variable (C) in
/-- A component matches the long or the short name of an entry. -/
def Matches (component : Str) (entry : Entry) : Prop := C.upper component ∈ folded C entry

/-- One round of a lookup: the first entry of the directory that matches. -/
theorem lookupStep_eq_ok {espPath : Str} {done : List Str} {parent : Option Entry}
    {component : Str} {entry : Entry} :
    (volume.lookupStep C espPath done parent component data).1 = .ok entry ↔
      (∀ e ∈ parent, e.isDirectory = true) ∧ ∃ found,
        Lists C volume data (parent.map Entry.cluster) found ∧
        (found.filter fun e => C.upper component ∈ folded C e).head? = some entry := by
  unfold FatVolume.lookupStep folded
  rw [run_bind_eq_ok, exists_unit, run_failIf_eq_ok, run_bind_eq_ok]
  refine and_congr (by simp) ?_
  constructor
  · rintro ⟨⟨found, limits⟩, hdirectory, h⟩
    refine ⟨found, directory_lists hdirectory, ?_⟩
    dsimp only at h
    cases hmatches : found.filter fun e => C.upper component ∈ [C.upper e.name, C.upper e.shortName] with
    | nil =>
      rw [hmatches] at h
      simp [raise] at h
    | cons first rest =>
      rw [hmatches] at h
      simpa [run_pure_eq_ok] using h
  · rintro ⟨found, hlists, h⟩
    refine ⟨(found, none), hlists _, ?_⟩
    obtain ⟨rest, hmatches⟩ := List.head?_eq_some_iff.1 h
    dsimp only
    rw [hmatches]
    rfl

/-- Only one entry of a directory matches. -/
theorem filter_matches {found : List Entry} (h : WellNamed C found) {component : Str}
    {entry : Entry} (hmem : entry ∈ found) (hmatch : Matches C component entry) :
    (found.filter fun e => C.upper component ∈ folded C e).head? = some entry := by
  have hpairwise := h.disjoint
  clear h
  unfold Matches at hmatch
  induction found with
  | nil => exact absurd hmem List.not_mem_nil
  | cons first rest ih =>
    obtain ⟨hfirst, hrest⟩ := List.pairwise_cons.1 hpairwise
    rcases List.mem_cons.1 hmem with rfl | hmem
    · rw [List.filter_cons_of_pos (by simpa using hmatch)]
      rfl
    · have hno : C.upper component ∉ folded C first := fun h => hfirst entry hmem h hmatch
      rw [List.filter_cons_of_neg (by simpa using hno)]
      exact ih hmem hrest

/-- **A lookup follows a trail** that its components match. -/
theorem lookupFrom_of_trail
    (hnames : ∀ cluster found, Reach C volume data cluster → Lists C volume data cluster found →
      WellNamed C found) {espPath : Str} {cluster : Option ℕ} {subs : List Entry} {entry : Entry}
    (htrail : Trail C volume data cluster subs entry) : ∀ {done : List Str} {parent : Option Entry}
    {component : Str} {rest : List Str}, Reach C volume data cluster →
    parent.map Entry.cluster = cluster → (∀ e ∈ parent, e.isDirectory = true) →
    List.Forall₂ (Matches C) (component :: rest) (subs ++ [entry]) →
    (volume.lookupFrom C espPath done parent component rest data).1 = .ok entry := by
  induction htrail with
  | @here cluster found entry hlists hmem =>
    intro done parent component rest hreach hparent hdirectory hmatches
    obtain ⟨hmatch, hrest⟩ := List.forall₂_cons.1 hmatches
    obtain rfl := List.forall₂_nil_right_iff.1 hrest
    have hstep : (volume.lookupStep C espPath done parent component data).1 = .ok entry :=
      lookupStep_eq_ok.2 ⟨hdirectory, found, hparent ▸ hlists,
        filter_matches (hnames cluster found hreach hlists) hmem hmatch⟩
    rw [FatVolume.lookupFrom, run_bind hstep]
    rfl
  | @down cluster found sub subs entry hlists hmem hdir _ ih =>
    intro done parent component rest hreach hparent hdirectory hmatches
    obtain ⟨hmatch, hrest⟩ := List.forall₂_cons.1 hmatches
    have hstep : (volume.lookupStep C espPath done parent component data).1 = .ok sub :=
      lookupStep_eq_ok.2 ⟨hdirectory, found, hparent ▸ hlists,
        filter_matches (hnames cluster found hreach hlists) hmem hmatch⟩
    rw [FatVolume.lookupFrom, run_bind hstep]
    cases rest with
    | nil => simp at hrest
    | cons component' rest' =>
      have hsub : ∀ e ∈ some sub, e.isDirectory = true := by
        rintro e ⟨⟩
        exact hdir
      exact ih (.down hreach hlists hmem hdir) rfl hsub hrest

/-- What a lookup finds is at the end of a trail that the components match. -/
theorem trail_of_lookupFrom {espPath : Str} {entry : Entry} : ∀ {rest done : List Str}
    {parent : Option Entry} {component : Str},
    (volume.lookupFrom C espPath done parent component rest data).1 = .ok entry →
    ∃ subs, Trail C volume data (parent.map Entry.cluster) subs entry ∧
      List.Forall₂ (Matches C) (component :: rest) (subs ++ [entry])
  | rest, done, parent, component, h => by
    rw [FatVolume.lookupFrom, run_bind_eq_ok] at h
    obtain ⟨first, hstep, h⟩ := h
    obtain ⟨-, found, hlists, hhead⟩ := lookupStep_eq_ok.1 hstep
    have hfirst := List.mem_of_head? hhead
    rw [List.mem_filter, decide_eq_true_iff] at hfirst
    obtain ⟨hmem, hmatch⟩ := hfirst
    cases rest with
    | nil =>
      rw [FatVolume.lookupLoop, run_pure_eq_ok] at h
      subst h
      exact ⟨[], .here hlists hmem, .cons hmatch .nil⟩
    | cons component' rest' =>
      have hnext : (volume.lookupFrom C espPath (done ++ [component]) (some first) component' rest'
        data).1 = .ok entry := h
      have hdir : first.isDirectory = true := by
        rw [FatVolume.lookupFrom, run_bind_eq_ok] at hnext
        obtain ⟨next, hnextStep, -⟩ := hnext
        exact (lookupStep_eq_ok.1 hnextStep).1 first rfl
      obtain ⟨subs, htrail, hmatches⟩ := trail_of_lookupFrom hnext
      exact ⟨first :: subs, .down hlists hmem hdir htrail, .cons hmatch hmatches⟩

section
variable (hnames : ∀ cluster found, Reach C volume data cluster →
  Lists C volume data cluster found → WellNamed C found)
include hnames

/-- Components match one trail at most. -/
theorem Trail.unique {cluster : Option ℕ} {subs : List Entry} {entry : Entry}
    (htrail : Trail C volume data cluster subs entry) : ∀ {components : List Str}
    {subs' : List Entry} {entry' : Entry}, Reach C volume data cluster →
    Trail C volume data cluster subs' entry' →
    List.Forall₂ (Matches C) components (subs ++ [entry]) →
    List.Forall₂ (Matches C) components (subs' ++ [entry']) → subs = subs' ∧ entry = entry' := by
  have hone : ∀ {cluster found found'} {component : Str} {a b : Entry},
      Reach C volume data cluster → Lists C volume data cluster found →
      Lists C volume data cluster found' → a ∈ found → b ∈ found' → Matches C component a →
      Matches C component b → a = b := by
    intro cluster found found' component a b hreach hlists hlists' ha hb hmatch hmatch'
    obtain rfl := hlists.unique hlists'
    have hwell := hnames cluster found hreach hlists
    have heq := (filter_matches hwell ha hmatch).symm.trans (filter_matches hwell hb hmatch')
    exact Option.some.inj heq
  induction htrail with
  | @here cluster found entry hlists hmem =>
    intro components subs' entry' hreach htrail' hmatches hmatches'
    obtain ⟨component, rest, hmatch, hrest, rfl⟩ := List.forall₂_cons_right_iff.1 hmatches
    obtain rfl := List.forall₂_nil_right_iff.1 hrest
    cases htrail' with
    | here hlists' hmem' =>
      obtain ⟨hmatch', -⟩ := List.forall₂_cons.1 hmatches'
      exact ⟨rfl, hone hreach hlists hlists' hmem hmem' hmatch hmatch'⟩
    | down => simp at hmatches'
  | @down cluster found sub subs entry hlists hmem hdir hrest ih =>
    intro components subs' entry' hreach htrail' hmatches hmatches'
    obtain ⟨component, rest, hmatch, hsubs, rfl⟩ := List.forall₂_cons_right_iff.1 hmatches
    cases htrail' with
    | here hlists' hmem' =>
      obtain ⟨-, hnil⟩ := List.forall₂_cons.1 hmatches'
      obtain rfl := List.forall₂_nil_right_iff.1 hnil
      simp at hsubs
    | @down _ found' sub' subs' _ hlists' hmem' hdir' hrest' =>
      obtain ⟨hmatch', hsubs'⟩ := List.forall₂_cons.1 hmatches'
      obtain rfl := hone hreach hlists hlists' hmem hmem' hmatch hmatch'
      obtain ⟨rfl, rfl⟩ := ih (.down hreach hlists hmem hdir) hrest' hsubs hsubs'
      exact ⟨rfl, rfl⟩

theorem Trail.names {cluster : Option ℕ} {subs : List Entry} {entry : Entry}
    (htrail : Trail C volume data cluster subs entry) : Reach C volume data cluster →
    ∀ e ∈ subs ++ [entry], e.name ≠ [] ∧ '/' ∉ e.name := by
  induction htrail with
  | @here cluster found entry hlists hmem =>
    intro hreach e he
    have hwell := hnames cluster found hreach hlists
    obtain rfl := List.mem_singleton.1 he
    exact ⟨hwell.nonempty e hmem, hwell.noSlash e hmem⟩
  | @down cluster found sub subs entry hlists hmem hdir _ ih =>
    intro hreach e he
    have hwell := hnames cluster found hreach hlists
    rcases List.mem_cons.1 he with rfl | he
    · exact ⟨hwell.nonempty e hmem, hwell.noSlash e hmem⟩
    · exact ih (.down hreach hlists hmem hdir) e he

end

/-- The components of a path, as `lookup` takes them. -/
def pathComponents (path : Str) : List Str := (path.splitOn '/').filter (· ≠ [])

theorem pathComponents_trail : ∀ {subs : List Entry} {entry : Entry},
    (∀ e ∈ subs ++ [entry], e.name ≠ [] ∧ '/' ∉ e.name) →
    pathComponents (subPath subs ++ entry.name) = (subs ++ [entry]).map Entry.name
  | [], entry, h => by
    obtain ⟨hne, hslash⟩ := h entry (by simp)
    simp [pathComponents, subPath, List.splitOn_eq_singleton hslash, hne]
  | sub :: subs, entry, h => by
    obtain ⟨hne, hslash⟩ := h sub (by simp)
    have ih : pathComponents (subPath subs ++ entry.name) = (subs ++ [entry]).map Entry.name :=
      pathComponents_trail fun e he => h e (List.mem_cons_of_mem _ he)
    have hpath : subPath (sub :: subs) ++ entry.name =
        sub.name ++ '/' :: (subPath subs ++ entry.name) := by simp [subPath]
    rw [hpath, pathComponents, List.splitOn_append_cons_self_of_not_mem hslash,
      List.filter_cons_of_pos (by simpa using hne), ← pathComponents, ih]
    rfl

theorem lookup_eq_ok {path : Str} {entry : Entry} :
    (volume.lookup C path data).1 = .ok entry ↔ ∃ component rest,
      pathComponents path = component :: rest ∧
      (volume.lookupFrom C path [] none component rest data).1 = .ok entry := by
  unfold FatVolume.lookup
  rw [← pathComponents]
  cases pathComponents path with
  | nil => simp [raise]
  | cons component rest => simp [FatVolume.lookupFrom]

/-- The stored names of a trail lead to its end. -/
theorem lookup_trail (hnames : ∀ cluster found, Reach C volume data cluster →
      Lists C volume data cluster found → WellNamed C found) {subs : List Entry} {entry : Entry}
    (htrail : Trail C volume data none subs entry) :
    (volume.lookup C (trailFile subs entry).path data).1 = .ok entry := by
  have hcomponents := pathComponents_trail (htrail.names hnames .root)
  have hmatches : List.Forall₂ (Matches C) ((subs ++ [entry]).map Entry.name)
      (subs ++ [entry]) := by
    rw [List.forall₂_map_left_iff, List.forall₂_same]
    exact fun e _ => List.mem_cons_self
  rw [← hcomponents] at hmatches
  cases hpath : pathComponents (subPath subs ++ entry.name) with
  | nil =>
    rw [hpath] at hmatches
    simp at hmatches
  | cons component rest =>
    rw [hpath] at hmatches
    refine lookup_eq_ok.2 ⟨component, rest, hpath, ?_⟩
    exact lookupFrom_of_trail hnames htrail .root rfl nofun hmatches

/-! ## Reading files -/

/-- `InvalidImageError` -/
def Invalid (e : Failure) : Prop := ∃ message, e = .invalidImage message

theorem read_invalid {offset size : ℕ} {what : String} :
    Meets data Invalid anywhere (read offset size what) fun bytes => bytes.length = size := by
  refine ⟨?_, fun _ _ => trivial⟩
  rw [read_run]
  split_ifs with h
  · exact (length_slice h).trans (Nat.add_sub_cancel_left _ _)
  · exact ⟨_, rfl⟩

theorem readChain_invalid {what : String} : ∀ {chain : List ℕ},
    Meets data Invalid anywhere (volume.readChain what chain)
      fun bytes => bytes.length = chain.length * volume.geometry.clusterSize
  | [] => meets_pure (by simp)
  | cluster :: rest => by
    unfold FatVolume.readChain
    refine meets_bind read_invalid fun bytes hbytes => ?_
    refine meets_bind readChain_invalid fun more hmore => ?_
    refine meets_pure ?_
    rw [List.length_append, hbytes, hmore, List.length_cons, Nat.succ_mul, Nat.add_comm]

/-- A file has the size of its entry, or its chain does not fit. -/
theorem readFile_invalid {esp : Partition} (hsound : Sound esp volume)
    (hsize : 0 < volume.geometry.clusterSize) {entry : Entry} {what : String} :
    Meets data Invalid anywhere (volume.readFile entry what)
      fun bytes => bytes.length = entry.size := by
  unfold FatVolume.readFile
  split_ifs with hempty
  · exact meets_pure hempty.symm
  · refine meets_bind (meets_ofExcept (chain_yields hsound fun _ => ⟨_, rfl⟩)) fun chain _ => ?_
    refine meets_bind (meets_failIf fun _ => ⟨_, rfl⟩) fun _ hchain => ?_
    refine meets_bind readChain_invalid fun bytes hbytes => ?_
    refine meets_pure ?_
    have hfits : entry.size ≤ chain.length * volume.geometry.clusterSize := by
      rw [not_not.1 hchain]
      exact le_ceil_mul hsize
    rw [List.length_take, hbytes]
    omega

end

/-! ## Agreement -/

section
variable (C : CaseMapping) (volume : FatVolume) (data : Bytes)

/-- The path denotes the file: its components match the long or short names on the way to it. -/
def Denotes (path : Str) (f : EspFile) : Prop :=
  ∃ subs entry, Trail C volume data none subs entry ∧ entry.isDirectory = false ∧
    f = trailFile subs entry ∧ List.Forall₂ (Matches C) (pathComponents path) (subs ++ [entry])

/-- What listing the files and extracting one of them have in common. -/
structure Agrees (files : List EspFile) : Prop where
  /-- a listed path leads to a file of the listed size -/
  listed : ∀ f ∈ files, ∃ entry, (volume.lookup C f.path data).1 = .ok entry ∧
    entry.isDirectory = false ∧ entry.size = f.size ∧ ∀ what,
      (∃ bytes, (volume.readFile entry what data).1 = .ok bytes ∧ bytes.length = f.size) ∨
        ∃ message, (volume.readFile entry what data).1 = .error (.invalidImage message)
  /-- a path that leads to a file denotes one listed file, of that size -/
  found : ∀ path entry, (volume.lookup C path data).1 = .ok entry → entry.isDirectory = false →
    ∃ f ∈ files, f.size = entry.size ∧ Denotes C volume data path f ∧
      ∀ f' ∈ files, Denotes C volume data path f' → f' = f
  /-- no path is listed twice -/
  once : (files.map EspFile.path).Nodup

end

/-- **Listing and extraction agree** on every volume whose names can stand in paths and do not
    clash. -/
theorem walk_agrees {C : CaseMapping} {partition : Partition} {volume : FatVolume} {data : Bytes}
    {files : List EspFile} (hvolume : (FatVolume.init partition data).1 = .ok volume)
    (hwalk : (volume.walk C data).1 = .ok files)
    (hnames : ∀ cluster found, Reach C volume data cluster → Lists C volume data cluster found →
      WellNamed C found) : Agrees C volume data files := by
  obtain ⟨b, -, haccepted⟩ := init_accepted hvolume
  have hsize : 0 < volume.geometry.clusterSize := by
    rw [haccepted.geometry_eq]
    exact haccepted.clusterSize_pos
  refine ⟨?_, ?_, ?_⟩
  · intro f hf
    obtain ⟨subs, entry, htrail, hfile, rfl⟩ := (mem_walk hwalk f).1 hf
    refine ⟨entry, lookup_trail hnames htrail, hfile, rfl, fun what => ?_⟩
    have hread : Meets data Invalid anywhere (volume.readFile entry what)
        fun bytes => bytes.length = entry.size := readFile_invalid haccepted.toSound hsize
    have hresult := hread.1
    cases hrun : (volume.readFile entry what data).1 with
    | ok bytes =>
      rw [hrun] at hresult
      exact .inl ⟨bytes, rfl, hresult⟩
    | error e =>
      rw [hrun] at hresult
      obtain ⟨message, rfl⟩ := hresult
      exact .inr ⟨message, rfl⟩
  · intro path entry hlookup hfile
    obtain ⟨component, rest, hpath, hfrom⟩ := lookup_eq_ok.1 hlookup
    obtain ⟨subs, htrail, hmatches⟩ := trail_of_lookupFrom hfrom
    rw [← hpath] at hmatches
    refine ⟨trailFile subs entry, (mem_walk hwalk _).2 ⟨subs, entry, htrail, hfile, rfl⟩, rfl,
      ⟨subs, entry, htrail, hfile, rfl, hmatches⟩, ?_⟩
    rintro f' - ⟨subs', entry', htrail', -, rfl, hmatches'⟩
    obtain ⟨rfl, rfl⟩ := htrail.unique hnames .root htrail' hmatches hmatches'
    rfl
  · refine walkLoop_nodup hnames hwalk ?_ ⟨List.nodup_nil, List.pairwise_singleton _ _, nofun⟩
    intro item hitem
    rw [List.mem_singleton.1 hitem]
    exact .root

/-! The volume with the directory `EFI`. -/

def treeEntry : Entry := ⟨"EFI".toList, "EFI".toList, 0x10, 2, 0⟩

def leafEntry : Entry := ⟨"A.TXT".toList, "A.TXT".toList, 0x20, 3, 5⟩

theorem lists_tree_root : Lists asciiCase treeVolume treeDisk none [treeEntry] := by
  have hrun : (treeVolume.directory asciiCase none "" none treeDisk).1 =
      .ok ([treeEntry], none) := by decide +kernel
  exact directory_lists hrun

theorem lists_tree_efi : Lists asciiCase treeVolume treeDisk (some 2) [leafEntry] := by
  have hrun : (treeVolume.directory asciiCase (some 2) "" none treeDisk).1 =
      .ok ([leafEntry], none) := by decide +kernel
  exact directory_lists hrun

theorem reach_tree {cluster : Option ℕ} (h : Reach asciiCase treeVolume treeDisk cluster) :
    cluster = none ∨ cluster = some 2 := by
  induction h with
  | root => exact .inl rfl
  | down _ hlists hmem hdir ih =>
    rcases ih with rfl | rfl
    · obtain rfl := lists_tree_root.unique hlists
      rw [List.mem_singleton.1 hmem]
      exact .inr rfl
    · obtain rfl := lists_tree_efi.unique hlists
      rw [List.mem_singleton.1 hmem] at hdir
      exact absurd hdir (by decide)

theorem wellNamed_tree {cluster : Option ℕ} {found : List Entry}
    (hreach : Reach asciiCase treeVolume treeDisk cluster)
    (hlists : Lists asciiCase treeVolume treeDisk cluster found) : WellNamed asciiCase found := by
  rcases reach_tree hreach with rfl | rfl
  · obtain rfl := lists_tree_root.unique hlists
    exact ⟨by decide, by decide, List.pairwise_singleton _ _⟩
  · obtain rfl := lists_tree_efi.unique hlists
    exact ⟨by decide, by decide, List.pairwise_singleton _ _⟩

theorem walk_agrees_tree : (FatVolume.init treeEsp treeDisk).1 = .ok treeVolume ∧
    (treeVolume.walk asciiCase treeDisk).1 = .ok [⟨"EFI/A.TXT".toList, 5⟩] ∧
    (treeVolume.lookup asciiCase "efi/a.txt".toList treeDisk).1 = .ok leafEntry ∧
    Agrees asciiCase treeVolume treeDisk [⟨"EFI/A.TXT".toList, 5⟩] := by
  have hwalk : (treeVolume.walk asciiCase treeDisk).1 = .ok [⟨"EFI/A.TXT".toList, 5⟩] := by
    decide +kernel
  refine ⟨init_treeDisk, hwalk, by decide +kernel, ?_⟩
  exact walk_agrees init_treeDisk hwalk fun _ _ => wellNamed_tree

end RulesMkosi.EspManifest
