/-
  What `_check_layout` guarantees.

  `checkLayout` scans the sorted paths after each path and stops at the first
  one that is not below it.  A path such as `a-b` sorts between `a` and `a/c`,
  so the scan after `a` can stop before it sees `a/c`.  `manifest_layout` says
  exactly when: an accepted table has a non-directory with a staged descendant
  iff the mappings also declare a path that continues the non-directory's path
  with a character below `/`.
-/
import RulesMkosi.StageInputs
import RulesMkosi.Lib.LexOrder

namespace RulesMkosi.StageInputs

/-! ## The property -/

/-- No file or symlink of the table has a staged descendant. -/
def NoDescendants (entries : Dict String Entry) : Prop :=
  ∀ p e, entries.get p = some e → e.kind ≠ .directory → ∀ q, p ++ "/" ++ q ∉ entries.keys

/-- The call writes below a staged file or through a staged symlink. -/
def WritesBelow (entries : Dict String Entry) (op : Op) : Prop :=
  ∃ p e, entries.get p = some e ∧ e.kind ≠ .directory ∧ isBelow op.path p

/-! ## What the mappings declare -/

/-- The entries that one mapping declares, whatever the other mappings do. -/
def ownEntries (host : Host) (m : Mapping) : Except Exn (Dict String Entry) := do
  let (destination, owner) ← destinationOf m
  mappingEntries host (PosixPath.parse m.source).str destination owner m.role

/-- All declared entries, in order; a path may occur several times. -/
def declared (host : Host) (mappings : List Mapping) : List (String × Entry) :=
  mappings.flatMap fun m => match ownEntries host m with
    | .ok items => items
    | .error _ => []

/-- The kind that the last declaration of a path gives it. -/
def declaredKind (host : Host) (mappings : List Mapping) (path : String) : Option Kind :=
  (Dict.get (declared host mappings).reverse path).map Entry.kind

/-- Some declared non-directory has a declared descendant, and a declared path
    continues the non-directory's path with a character that sorts before `/`. -/
def Shadowed (host : Host) (mappings : List Mapping) : Prop :=
  ∃ (p q : String) (kind : Kind) (c : Char) (t : List Char),
    declaredKind host mappings p = some kind ∧ kind ≠ .directory ∧
    (declaredKind host mappings (p ++ "/" ++ q)).isSome ∧
    (declaredKind host mappings (String.ofList (p.toList ++ c :: t))).isSome ∧ c < '/'

theorem declared_concat (host : Host) (done : List Mapping) (m : Mapping) {items : Dict String Entry}
    (h : ownEntries host m = .ok items) :
    declared host (done ++ [m]) = declared host done ++ items := by
  simp [declared, h]

/-! ## The table agrees with the declarations -/

/-- The table holds the declared paths with their declared kinds. -/
structure Agrees (decl : List (String × Entry)) (entries : Dict String Entry) : Prop where
  nodup : entries.keys.Nodup
  kinds : ∀ p, (entries.get p).map Entry.kind = (Dict.get decl.reverse p).map Entry.kind

theorem Agrees.nil : Agrees [] [] := ⟨List.nodup_nil, fun _ => rfl⟩

theorem addEntry_agrees {merge : Bool} {owner : String} {decl : List (String × Entry)}
    {st st' : Staging} {item : String × Entry} (hA : Agrees decl st.entries)
    (h : addEntry merge owner st item = .ok st') : Agrees (decl ++ [item]) st'.entries := by
  obtain ⟨path, entry⟩ := item
  -- a new or replaced entry becomes the last declaration of its path
  have hset : Agrees (decl ++ [(path, entry)]) (st.entries.set path entry) := by
    refine ⟨Dict.nodup_keys_set hA.nodup, fun p => ?_⟩
    rw [Dict.get_set, List.reverse_append, List.reverse_singleton, List.singleton_append, Dict.get]
    split_ifs
    · rfl
    · exact hA.kinds p
  unfold addEntry at h
  cases hp : st.entries.get path with
  | none =>
    simp only [hp, pure_eq_ok] at h
    rw [← h]; exact hset
  | some prior =>
    simp only [hp] at h
    split_ifs at h with hm
    · rw [pure_eq_ok] at h
      rw [← h]
      refine ⟨hA.nodup, fun p => ?_⟩
      rw [List.reverse_append, List.reverse_singleton, List.singleton_append, Dict.get]
      split_ifs with hpath
      · subst hpath
        simp [hp, hm.2.1, hm.2.2]
      · exact hA.kinds p
    · simp only [bind_eq_ok, pure_eq_ok, exists_unit] at h
      obtain ⟨-, h⟩ := h
      rw [← h]; exact hset

theorem addMapping_agrees {host : Host} {merge : Bool} {done : List Mapping} {m : Mapping}
    {st st' : Staging} (hA : Agrees (declared host done) st.entries)
    (h : addMapping host merge st m = .ok st') :
    Agrees (declared host (done ++ [m])) st'.entries := by
  unfold addMapping at h
  simp only [bind_eq_ok, pure_eq_ok, exists_unit] at h
  obtain ⟨-, canonicalSources, -, ⟨destination, owner⟩, hdest, items, hitems, st₁, hfold, -, rfl⟩ := h
  have hown : ownEntries host m = .ok items := by
    simp only [ownEntries, bind_eq_ok]
    exact ⟨_, hdest, hitems⟩
  rw [declared_concat host done m hown]
  have := foldlM_inv (fun l (s : Staging) => Agrees (declared host done ++ l) s.entries)
    (fun l s c s' hs hc => by rw [← List.append_assoc]; exact addEntry_agrees hs hc)
    (b := { st with canonicalSources }) (by simpa using hA) hfold
  exact this

/-- The table of an accepted manifest holds exactly what the mappings declare. -/
theorem manifest_agrees {host : Host} {mappings : List Mapping} {merge : Bool}
    {entries : Dict String Entry} (h : manifest host mappings merge = .ok entries) :
    Agrees (declared host mappings) entries ∧
      ∃ sharedOwners, checkLayout entries sharedOwners = .ok () := by
  unfold manifest at h
  simp only [bind_eq_ok, pure_eq_ok, exists_unit] at h
  obtain ⟨st, hst, hlayout, rfl⟩ := h
  have := foldlM_inv (fun l (s : Staging) => Agrees (declared host l) s.entries)
    (fun l s c s' hs hc => addMapping_agrees hs hc) (b := ⟨[], [], []⟩) Agrees.nil hst
  exact ⟨this, _, hlayout⟩

/-! ## The scan of `_check_layout` -/

theorem lt_append_slash (p q : String) : p < p ++ "/" ++ q := by
  rw [String.lt_iff_toList_lt]
  simpa [String.toList_append] using lt_append_cons p.toList '/' q.toList

/-- A path between a path and its descendant that is no descendant itself continues the path
    with a character below `/`. -/
theorem between_slash {p q r : String} (h₁ : p < r) (h₂ : r < p ++ "/" ++ q)
    (hn : ¬ isBelow r p) : ∃ c t, r = String.ofList (p.toList ++ c :: t) ∧ c < '/' := by
  rw [String.lt_iff_toList_lt] at h₁ h₂
  have h₂' : r.toList < p.toList ++ '/' :: q.toList := by simpa [String.toList_append] using h₂
  have hn' : ¬ (p.toList ++ ['/']) <+: r.toList := by
    intro hpre
    refine hn ?_
    unfold isBelow startsWith
    rw [List.isPrefixOf_iff_prefix, String.toList_append]
    exact hpre
  obtain ⟨c, t, hr, hc⟩ := lex_between h₁ h₂' hn'
  exact ⟨c, t, by rw [← hr, String.ofList_toList], hc⟩

/-- After a non-directory the scan sees no descendant first. -/
theorem checkBelow_head {path r : String} {kind : Kind} {rest : List String}
    (h : checkBelow path kind (r :: rest) = .ok ()) (hk : kind ≠ .directory) : ¬ isBelow r path := by
  intro hb
  simp [checkBelow, hb, hk] at h

/-- **What a successful scan says.**  If a non-directory of a sorted list of paths has a
    descendant in the list, then the list also has a path that continues the non-directory's path
    with a character below `/`. -/
theorem checkPaths_shadow {entries : Dict String Entry} {sharedOwners : Dict String (List String)}
    {p q : String} {e : Entry} (he : entries.get p = some e) (hk : e.kind ≠ .directory) :
    ∀ {paths : List String}, paths.Pairwise (· ≤ ·) → paths.Nodup →
      checkPaths entries sharedOwners paths = .ok () → p ∈ paths → p ++ "/" ++ q ∈ paths →
      ∃ c t, String.ofList (p.toList ++ c :: t) ∈ paths ∧ c < '/'
  | [], _, _, _, hp, _ => by simp at hp
  | path :: rest, hs, hnd, h, hp, hq => by
    rw [List.pairwise_cons] at hs
    rw [List.nodup_cons] at hnd
    have hlt := lt_append_slash p q
    unfold checkPaths at h
    rcases List.mem_cons.1 hp with rfl | hp
    · -- `p` is scanned: the next path is no descendant, so it lies strictly between
      have hq : p ++ "/" ++ q ∈ rest := (List.mem_cons.1 hq).resolve_left (ne_of_gt hlt)
      simp only [he, bind_eq_ok, exists_unit] at h
      obtain ⟨hbelow, -⟩ := h
      cases rest with
      | nil => simp at hq
      | cons r rest =>
        have hnb := checkBelow_head hbelow hk
        have hpr : p < r := lt_of_le_of_ne (hs.1 r (by simp)) fun heq => hnd.1 (by simp [heq])
        have hrq : r < p ++ "/" ++ q := by
          rcases List.mem_cons.1 hq with rfl | hq
          · exact absurd (isBelow_iff.2 ⟨q, rfl⟩) hnb
          · refine lt_of_le_of_ne ((List.pairwise_cons.1 hs.2).1 _ hq) fun heq => hnb ?_
            exact isBelow_iff.2 ⟨q, heq⟩
        obtain ⟨c, t, hr, hc⟩ := between_slash hpr hrq hnb
        exact ⟨c, t, by simp [← hr], hc⟩
    · have hq : p ++ "/" ++ q ∈ rest := by
        refine (List.mem_cons.1 hq).resolve_left fun heq => ?_
        exact absurd (hs.1 p hp) (not_le.2 (heq ▸ hlt))
      cases hpath : entries.get path with
      | none => simp [hpath] at h
      | some entry =>
        simp only [hpath, bind_eq_ok, exists_unit] at h
        obtain ⟨-, -, h⟩ := h
        obtain ⟨c, t, hr, hc⟩ := checkPaths_shadow he hk hs.2 hnd.2 h hp hq
        exact ⟨c, t, List.mem_cons_of_mem _ hr, hc⟩

theorem checkLayout_shadow {entries : Dict String Entry} {sharedOwners : Dict String (List String)}
    (hnd : entries.keys.Nodup) (h : checkLayout entries sharedOwners = .ok ()) {p q : String}
    {e : Entry} (he : entries.get p = some e) (hk : e.kind ≠ .directory)
    (hq : p ++ "/" ++ q ∈ entries.keys) :
    ∃ c t, String.ofList (p.toList ++ c :: t) ∈ entries.keys ∧ c < '/' := by
  have hperm := List.perm_insertionSort (· ≤ ·) entries.keys
  obtain ⟨c, t, hr, hc⟩ := checkPaths_shadow he hk (List.pairwise_insertionSort (· ≤ ·) _)
    (hperm.nodup_iff.2 hnd) h (hperm.mem_iff.2 (Dict.mem_keys_of_get he)) (hperm.mem_iff.2 hq)
  exact ⟨c, t, hperm.mem_iff.1 hr, hc⟩

/-! ## What `_copy_manifest` writes -/

theorem mem_sortedItems {entries : Dict String Entry} {item : String × Entry} :
    item ∈ sortedItems entries ↔ item ∈ entries :=
  (List.perm_insertionSort _ entries).mem_iff

theorem mem_ancestors {path a : String} (h : a ∈ ancestors path) : a = "" ∨ isBelow path a := by
  simp only [ancestors, List.mem_map, List.mem_range] at h
  obtain ⟨n, hn, rfl⟩ := h
  rcases Nat.eq_zero_or_pos n with rfl | h₀
  · exact Or.inl rfl
  · exact Or.inr (isBelow_take h₀ hn)

theorem dropLast_below (path : String) : joinSlash (splitSlash path).dropLast = "" ∨
    isBelow path (joinSlash (splitSlash path).dropLast) := by
  rw [List.dropLast_eq_take]
  rcases Nat.eq_zero_or_pos ((splitSlash path).length - 1) with h | h
  · rw [h]; exact Or.inl rfl
  · exact Or.inr (isBelow_take h (by omega))

/-- Every call is for the output, a staged path or an ancestor of one. -/
theorem copyManifest_paths {entries : Dict String Entry} {executablePaths : List String} {op : Op}
    (h : op ∈ copyManifest entries executablePaths) :
    op.path = "" ∨ ∃ p ∈ entries.keys, op.path = p ∨ isBelow p op.path := by
  have hkey : ∀ item ∈ entries, item.1 ∈ entries.keys := fun item hi => List.mem_map.2 ⟨item, hi, rfl⟩
  simp only [copyManifest, List.mem_append, List.mem_map, List.mem_filter, List.mem_flatMap] at h
  rcases h with (⟨item, ⟨hi, -⟩, rfl⟩ | ⟨item, hi, hop⟩) | ⟨d, hd, rfl⟩
  · exact Or.inr ⟨_, hkey item (mem_sortedItems.1 hi), Or.inl rfl⟩
  · have hi := hkey item (mem_sortedItems.1 hi)
    unfold writeEntry at hop
    rcases hk : item.2.kind <;> simp only [hk, List.mem_cons, List.not_mem_nil, or_false] at hop
    all_goals
      rcases hop with rfl | rfl
      · exact (dropLast_below item.1).imp id fun hb => ⟨_, hi, Or.inr hb⟩
      · exact Or.inr ⟨_, hi, Or.inl rfl⟩
  · rw [(List.perm_insertionSort _ _).mem_iff, List.mem_dedup, List.mem_cons, List.mem_flatMap] at hd
    rcases hd with rfl | ⟨item, hi, hd⟩
    · exact Or.inl rfl
    · rcases List.mem_append.1 hd with hd | hd
      · exact (mem_ancestors hd).imp id fun hb => ⟨_, hkey item hi, Or.inr hb⟩
      · split_ifs at hd
        · rw [List.mem_singleton] at hd
          exact Or.inr ⟨_, hkey item hi, Or.inl hd⟩
        · simp at hd

/-- Every staged path is written. -/
theorem copyManifest_writes {entries : Dict String Entry} (executablePaths : List String) {p : String}
    (h : p ∈ entries.keys) : ∃ op ∈ copyManifest entries executablePaths, op.path = p := by
  obtain ⟨item, hi, rfl⟩ := List.mem_map.1 h
  have hi := mem_sortedItems.2 hi
  simp only [copyManifest, List.mem_append, List.mem_map, List.mem_filter, List.mem_flatMap]
  rcases hk : item.2.kind
  · exact ⟨_, Or.inl (Or.inr ⟨item, hi, by simp [writeEntry, hk]; exact Or.inr rfl⟩), rfl⟩
  · exact ⟨_, Or.inl (Or.inl ⟨item, ⟨hi, by simp [hk]⟩, rfl⟩), rfl⟩
  · exact ⟨_, Or.inl (Or.inr ⟨item, hi, by simp [writeEntry, hk]; exact Or.inr rfl⟩), rfl⟩

theorem not_isBelow_empty (p : String) : ¬ isBelow "" p := by
  intro h
  obtain ⟨u, hu⟩ := isBelow_iff.1 h
  have := congrArg String.length hu
  simp only [String.length_append, String.length_empty, show "/".length = 1 from rfl] at this
  omega

/-- The calls stay clear of staged files and symlinks iff none of them has a descendant. -/
theorem copyManifest_safe (entries : Dict String Entry) (executablePaths : List String) :
    (∀ op ∈ copyManifest entries executablePaths, ¬ WritesBelow entries op) ↔
      NoDescendants entries := by
  constructor
  · intro h p e he hk q hq
    obtain ⟨op, hop, hpath⟩ := copyManifest_writes executablePaths hq
    exact h op hop ⟨p, e, he, hk, by rw [hpath]; exact isBelow_iff.2 ⟨q, rfl⟩⟩
  · rintro h op hop ⟨p, e, he, hk, hb⟩
    have hdesc : ∀ r ∈ entries.keys, ¬ isBelow r p := by
      intro r hr hrp
      obtain ⟨q, rfl⟩ := isBelow_iff.1 hrp
      exact h p e he hk q hr
    rcases copyManifest_paths hop with h₀ | ⟨r, hr, rfl | hrop⟩
    · rw [h₀] at hb; exact not_isBelow_empty p hb
    · exact hdesc _ hr hb
    · exact hdesc r hr (isBelow_trans hb hrop)

/-! ## The guarantee -/

/-- **When the layout check is complete.**  In an accepted table no file or symlink has a staged
    descendant, and the calls that write it stay clear of staged files and symlinks, iff the
    mappings do not shadow such a descendant from the scan of `_check_layout`. -/
theorem manifest_layout {host : Host} {mappings : List Mapping} {merge : Bool}
    {entries : Dict String Entry} (executablePaths : List String)
    (h : manifest host mappings merge = .ok entries) :
    (NoDescendants entries ∧ ∀ op ∈ copyManifest entries executablePaths, ¬ WritesBelow entries op) ↔
      ¬ Shadowed host mappings := by
  rw [copyManifest_safe, and_self]
  obtain ⟨hA, sharedOwners, hlayout⟩ := manifest_agrees h
  have hmem : ∀ p, p ∈ entries.keys ↔ (declaredKind host mappings p).isSome := by
    intro p
    rw [← Dict.get_isSome, declaredKind, ← hA.kinds p, Option.isSome_map]
  constructor
  · rintro hno ⟨p, q, kind, c, t, hp, hk, hq, -, -⟩
    rw [declaredKind, ← hA.kinds p, Option.map_eq_some_iff] at hp
    obtain ⟨e, he, rfl⟩ := hp
    exact hno p e he hk q ((hmem _).2 hq)
  · intro hsh p e he hk q hq
    obtain ⟨c, t, hr, hc⟩ := checkLayout_shadow hA.nodup hlayout he hk hq
    refine hsh ⟨p, q, e.kind, c, t, ?_, hk, (hmem _).1 hq, (hmem _).1 hr, hc⟩
    rw [declaredKind, ← hA.kinds p, he]; rfl

/-- A host with the file `x` and the configuration directory `cfg`, which holds the directory `d`,
    the link `a -> d` and the file `a-b`. -/
def configHost : Host where
  node
    | "x" | "/w/x" => some .file
    | "cfg" | "/w/cfg" => some (.directory [("d", .directory []), ("a-b", .file), ("a", .symlink "d")])
    | "/w/cfg/a" | "/w/cfg/d" => some (.directory [])
    | "/w/cfg/a-b" => some .file
    | _ => none
  resolve
    | "x" => "/w/x"
    | "cfg" => "/w/cfg"
    | "/w/cfg/a" => "/w/cfg/d"
    | path => path

def configMappings : List Mapping := [⟨"x", "a/c", .file⟩, ⟨"cfg", ".", .tree⟩]

def configTable : Dict String Entry :=
  [("a/c", ⟨"x -> a/c", .file, "x", none⟩),
   ("a", ⟨"cfg -> .", .symlink, "/w/cfg/a", some "d"⟩),
   ("a-b", ⟨"cfg -> .", .file, "/w/cfg/a-b", none⟩),
   ("d", ⟨"cfg -> .", .directory, "/w/cfg/d", none⟩)]

/-- In both modes the file `a/c` is staged below the link `a`, and written through it into `d`:
    the scan after `a` stops at `a-b`. -/
theorem manifest_stages_below_symlink :
    manifest configHost configMappings true = .ok configTable ∧
      manifest configHost configMappings false = .ok configTable ∧
      ¬ NoDescendants configTable ∧
      Op.copyfile "a/c" "x" 0o644 ∈ copyManifest configTable [] ∧
      WritesBelow configTable (.copyfile "a/c" "x" 0o644) := by
  refine ⟨by decide +kernel, by decide +kernel, fun h => ?_, by decide +kernel, ?_⟩
  · exact h "a" ⟨"cfg -> .", .symlink, "/w/cfg/a", some "d"⟩ (by decide +kernel) (by decide) "c"
      (by decide +kernel)
  · exact ⟨"a", ⟨"cfg -> .", .symlink, "/w/cfg/a", some "d"⟩, by decide +kernel, by decide,
      by decide +kernel⟩

/-- The file goes into the directory `d` of the configuration. -/
def nestedMappings : List Mapping := [⟨"x", "d/c", .file⟩, ⟨"cfg", ".", .tree⟩]

def nestedTable : Dict String Entry :=
  ("d/c", ⟨"x -> d/c", .file, "x", none⟩) :: configTable.drop 1

/-- A file below a directory is accepted and clean. -/
theorem manifest_layout_config :
    manifest configHost nestedMappings true = .ok nestedTable ∧ NoDescendants nestedTable := by
  have h : manifest configHost nestedMappings true = .ok nestedTable := by decide +kernel
  refine ⟨h, ((manifest_layout [] h).2 ?_).1⟩
  rintro ⟨p, q, kind, c, t, hp, hk, hq, -, -⟩
  have hdecl : declared configHost nestedMappings = nestedTable := by decide +kernel
  rw [declaredKind, Option.isSome_map, Dict.get_isSome, hdecl] at hq
  rw [declaredKind, hdecl] at hp
  -- what stands before a slash of a declared path is a directory
  have hslash : ∀ s ∈ Dict.keys nestedTable.reverse, ∀ i < s.toList.length,
      s.toList[i]? = some '/' → (Dict.get nestedTable.reverse (String.ofList (s.toList.take i))).map
        Entry.kind = some .directory := by
    decide +kernel
  have htext : (p ++ "/" ++ q).toList = p.toList ++ '/' :: q.toList := by simp [String.toList_append]
  have hdirectory := hslash _ hq p.toList.length (by rw [htext]; simp) (by rw [htext]; simp)
  rw [htext, List.take_left, String.ofList_toList, hp] at hdirectory
  exact hk (Option.some.inj hdirectory)

end RulesMkosi.StageInputs
