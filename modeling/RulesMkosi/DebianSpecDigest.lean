/-
  The digest of a specification (`spec_sha256` and `check_spec` of
  `mkosi/debian/generate_lock.py`).

  A lock records the hash of a canonical document of its specification.  The document
  determines the specification (`document_inj`), and spellings that mean the same load
  as the same specification (`Respells.load_iff`), so the recorded digest matches iff
  the lock was generated from the specification that is loaded.
-/
import RulesMkosi.DebianPipeline
import RulesMkosi.Lib.JsonText
import RulesMkosi.Lib.StableSort
import Mathlib.Logic.Relation

namespace RulesMkosi.Debian

/-! ## The digest -/

section
-- `float.__repr__`
variable (floatText : ℚ → Str)

/-- What `spec_sha256` writes: everything that the resolution depends on. -/
def canonicalDocument (specification : Specification) : Json :=
  .object [("archs", .list [.string architecture]),
    ("components", .list (specification.components.map Json.string)),
    ("packages", .list (specification.packages.map Json.string)),
    ("snapshot_url", .string specification.snapshotUrl), ("suite", .string specification.suite),
    ("version", .int 1)]

/-- The bytes that `spec_sha256` hashes. -/
def document (specification : Specification) : Bytes :=
  utf8Encode (Json.dumps floatText (canonicalDocument specification))

def specSha256 (sha256 : Bytes → String) (specification : Specification) : String :=
  sha256 (document floatText specification)

/-- The dictionary that `generate` returns. -/
def Lock.record (lock : Lock) (digest : String) : Json :=
  .object [("packages", .list (lock.packages.map fun package => .object package.toFields)),
    ("repository", .object lock.repository.toFields), ("spec_sha256", .string digest),
    ("version", .int 1)]

/-- `generate`, with the digest that the lock records -/
def generateLock (L : Library) (specification : Specification) (fetcher : Fetcher)
    (release : Option String) : Except Failure Json := do
  let lock ← generate L specification fetcher release
  return lock.record (specSha256 floatText L.sha256 specification)

/-- The files that `check_spec` reads. -/
structure Reader where
  /-- `path.read_text(encoding="utf-8")` -/
  readText : String → Except Failure Str
  /-- `json.loads(text)`, or the message of its `JSONDecodeError` -/
  loads : Str → Except String Json

/-- The file holds the text of the value. -/
def Reader.Holds (reader : Reader) (path : String) (value : Json) : Prop :=
  ∃ text, reader.readText path = .ok text ∧ reader.loads text = .ok value

def readSpecification (repr : Json → String) (reader : Reader) (path : String) :
    Except Failure Specification := do
  let text ← reader.readText path
  match reader.loads text with
  | .error message => .error (.lockError ("specification is not valid JSON: " ++ message))
  | .ok data => loadSpecification repr data

/-- `lock.get("spec_sha256") if isinstance(lock, dict) else None` -/
def recordedDigest : Json → Option Json
  | .object fields => (Dict.get fields "spec_sha256").bind fun
    | .null => none
    | value => some value
  | _ => none

def checkSpec (repr : Json → String) (sha256 : Bytes → String) (reader : Reader)
    (specPath lockPath : String) : Except Failure Unit := do
  let specification ← readSpecification repr reader specPath
  let expected := specSha256 floatText sha256 specification
  let text ← reader.readText lockPath
  match reader.loads text with
  | .error message => .error (.lockError ("the lock is not valid JSON: " ++ message))
  | .ok lock =>
    match recordedDigest lock with
    | none => .error (.lockError "the lock does not record the digest of its specification")
    | some recorded =>
      raiseIf (recorded.text? ≠ some expected)
        (.lockError "the lock was generated from a different specification")

/-! ## The document determines the specification -/

/-- The text of the canonical document. -/
theorem dumps_canonicalDocument (specification : Specification) :
    Json.dumps floatText (canonicalDocument specification) =
      "\x7b\"archs\":[\"amd64\"],\"components\":".toList ++
      (Json.encodeStrings (specification.components.map String.toList) ++
      (",\"packages\":".toList ++
      (Json.encodeStrings (specification.packages.map String.toList) ++
      (",\"snapshot_url\":".toList ++ (Json.encodeString specification.snapshotUrl.toList ++
      (",\"suite\":".toList ++ (Json.encodeString specification.suite.toList ++
      ",\"version\":1\x7d".toList))))))) := by
  have hstrings : ∀ values : List String, Json.dumps floatText (.list (values.map Json.string)) =
      Json.encodeStrings (values.map String.toList) := by
    intro values
    rw [Json.dumps, Json.itemTexts_strings, Json.encodeStrings, List.map_map]
    rfl
  have hfields : Json.fieldTexts floatText [("archs", .list [.string architecture]),
      ("components", .list (specification.components.map Json.string)),
      ("packages", .list (specification.packages.map Json.string)),
      ("snapshot_url", .string specification.snapshotUrl), ("suite", .string specification.suite),
      ("version", .int 1)] =
      [("archs", "[\"amd64\"]".toList),
        ("components", Json.encodeStrings (specification.components.map String.toList)),
        ("packages", Json.encodeStrings (specification.packages.map String.toList)),
        ("snapshot_url", Json.encodeString specification.snapshotUrl.toList),
        ("suite", Json.encodeString specification.suite.toList), ("version", ['1'])] := by
    have harchs : Json.dumps floatText (.list [.string architecture]) = "[\"amd64\"]".toList := by
      rw [Json.dumps, Json.itemTexts, Json.itemTexts, Json.dumps]
      decide
    have hone : Json.dumps floatText (.int 1) = ['1'] := by
      rw [Json.dumps]
      decide
    have hstring : ∀ value : String, Json.dumps floatText (.string value) =
        Json.encodeString value.toList := fun value => by rw [Json.dumps]
    simp only [Json.fieldTexts, harchs, hone, hstrings, hstring]
  rw [canonicalDocument, Json.dumps, hfields, List.Pairwise.insertionSort_eq]
  · have hkeys : Json.encodeString "archs".toList = "\"archs\"".toList ∧
        Json.encodeString "components".toList = "\"components\"".toList ∧
        Json.encodeString "packages".toList = "\"packages\"".toList ∧
        Json.encodeString "snapshot_url".toList = "\"snapshot_url\"".toList ∧
        Json.encodeString "suite".toList = "\"suite\"".toList ∧
        Json.encodeString "version".toList = "\"version\"".toList := by decide
    obtain ⟨harchs, hcomponents, hpackages, hurl, hsuite, hversion⟩ := hkeys
    simp only [List.map_cons, List.map_nil, harchs, hcomponents, hpackages, hurl, hsuite, hversion]
    simp [Json.enclose, List.intercalate_cons_cons]
  · simp only [List.pairwise_cons, List.forall_mem_cons, List.not_mem_nil, false_implies,
      implies_true, List.Pairwise.nil, and_true]
    decide

theorem document_inj {specification specification' : Specification}
    (h : document floatText specification = document floatText specification') :
    specification.components = specification'.components ∧
      specification.packages = specification'.packages ∧
      specification.snapshotUrl = specification'.snapshotUrl ∧
      specification.suite = specification'.suite := by
  have htext := congrArg utf8Decode h
  rw [document, document, utf8Decode_utf8Encode, utf8Decode_utf8Encode, Option.some.injEq,
    dumps_canonicalDocument, dumps_canonicalDocument, List.append_cancel_left_eq] at htext
  obtain ⟨hcomponents, htext⟩ := Json.encodeStrings_append_inj htext
  obtain ⟨hpackages, htext⟩ := Json.encodeStrings_append_inj (List.append_cancel_left htext)
  obtain ⟨hurl, htext⟩ := Json.encodeString_append_inj (List.append_cancel_left htext)
  obtain ⟨hsuite, -⟩ := Json.encodeString_append_inj (List.append_cancel_left htext)
  have htoList : Function.Injective (List.map String.toList) :=
    List.map_injective_iff.2 fun _ _ => String.toList_inj.1
  exact ⟨htoList hcomponents, htoList hpackages, String.toList_inj.1 hurl, String.toList_inj.1 hsuite⟩

end

/-! ## Spellings of one specification -/

/-- One change of the input that does not change its meaning. -/
inductive Respells : Json → Json → Prop
  /-- slashes at the end of the URL -/
  | url {fields source : Dict String Json} {url : String} {slashes : Str} :
    fields.get "sources" = some (.list [.object source]) → source.get "url" = some (.string url) →
      (∀ c ∈ slashes, c = '/') →
      Respells (.object fields) (.object (fields.set "sources"
        (.list [.object (source.set "url" (.string (url ++ String.ofList slashes)))])))
  /-- the components in another order -/
  | channel {fields source : Dict String Json} {channel channel' : String} {suite : Str}
      {components components' : List Str} :
    fields.get "sources" = some (.list [.object source]) →
      source.get "channel" = some (.string channel) →
      splitWords channel.toList = suite :: components →
      splitWords channel'.toList = suite :: components' → components.Perm components' →
      Respells (.object fields) (.object (fields.set "sources"
        (.list [.object (source.set "channel" (.string channel'))])))
  /-- a package that was requested before -/
  | package {fields : Dict String Json} {before after : List Json} {package : Json} :
    fields.get "packages" = some (.list (before ++ after)) → package ∈ before →
      Respells (.object fields) (.object (fields.set "packages" (.list (before ++ package :: after))))

/-- What a source contributes to the specification. -/
structure LoadsSource (source : Dict String Json) (specification : Specification) : Prop where
  https : startsWith (((source.get "url").bind Json.text?).getD "") "https://" = true
  url : specification.snapshotUrl.toList =
    rstripSlash (((source.get "url").bind Json.text?).getD "").toList
  snapshot : specification.snapshot.toList = lastSegment specification.snapshotUrl.toList
  timestamp : isSnapshot specification.snapshot.toList = true
  channel : ∃ components, channel source = .ok (specification.suite, components) ∧
    specification.components = "main" :: otherComponents components

/-- What the other fields contribute. -/
structure LoadsFields (repr : Json → String) (fields : Dict String Json)
    (specification : Specification) : Prop where
  known : ((Dict.keys fields).filter (· ∉ knownFields)).dedup = []
  version : isOne (fields.get "version") = true
  archs : (fields.get "archs").bind Json.texts? = some [architecture]
  packages : requestedPackages repr fields = .ok specification.packages

theorem onlySource_eq_ok {fields source : Dict String Json} :
    onlySource fields = .ok source ↔ fields.get "sources" = some (.list [.object source]) := by
  unfold onlySource
  split
  · next other heq => rw [heq]; simp
  · next hnot =>
    constructor
    · intro h
      cases h
    · intro h
      exact absurd h (hnot source)

theorem loadSpecification_iff {repr : Json → String} {fields : Dict String Json}
    {specification : Specification} : loadSpecification repr (.object fields) = .ok specification ↔
      ∃ source, fields.get "sources" = some (.list [.object source]) ∧
        LoadsFields repr fields specification ∧ LoadsSource source specification := by
  simp only [loadSpecification, snapshotSource, bind_eq_ok, raiseIf_eq_ok, exists_unit, pure_eq_ok,
    Prod.exists, Prod.mk.injEq, onlySource_eq_ok, Bool.not_eq_false, ne_eq, not_not]
  constructor
  · rintro ⟨hknown, hversion, source, url, snapshot, ⟨source, hsource, hhttps, hstamp, rfl, rfl, rfl⟩,
      suite, components, hchannel, harchs, packages, hpackages, rfl⟩
    refine ⟨source, hsource, ⟨hknown, hversion, harchs, hpackages⟩, hhttps, ?_, ?_, ?_, components,
      hchannel, rfl⟩
    · rw [String.toList_ofList]
    · rw [String.toList_ofList, String.toList_ofList]
    · rw [String.toList_ofList]
      exact hstamp
  · rintro ⟨source, hsource, hfields, hloads⟩
    obtain ⟨components, hchannel, hcomponents⟩ := hloads.channel
    have hsnapshot := hloads.snapshot
    have hstamp := hloads.timestamp
    rw [hloads.url] at hsnapshot
    rw [hsnapshot] at hstamp
    refine ⟨hfields.known, hfields.version, source, _, _, ⟨source, hsource, hloads.https, hstamp, rfl,
      rfl, rfl⟩, _, components, hchannel, hfields.archs, _, hfields.packages, ?_⟩
    rw [← hsnapshot, ← hloads.url, String.ofList_toList, String.ofList_toList, ← hcomponents]

/-! The source -/

theorem rstripSlash_append_slashes {url slashes : Str} (h : ∀ c ∈ slashes, c = '/') :
    rstripSlash (url ++ slashes) = rstripSlash url := by
  rw [rstripSlash, List.reverse_append, List.dropWhile_append_of_pos]
  · rfl
  · intro c hc
    simpa using h c (List.mem_reverse.1 hc)

theorem loadsSource_url {source : Dict String Json} {url : String} {slashes : Str}
    (hurl : source.get "url" = some (.string url)) (hslashes : ∀ c ∈ slashes, c = '/')
    {specification : Specification} :
    LoadsSource (source.set "url" (.string (url ++ String.ofList slashes))) specification ↔
      LoadsSource source specification := by
  have hchannel : channel (source.set "url" (.string (url ++ String.ofList slashes))) = channel source := by
    rw [channel, channel, Dict.get_set_ne _ _ (by decide)]
  have hold : ((source.get "url").bind Json.text?).getD "" = url := by rw [hurl]; rfl
  have hnew : (((source.set "url" (.string (url ++ String.ofList slashes))).get "url").bind
      Json.text?).getD "" = url ++ String.ofList slashes := by
    rw [Dict.get_set_self]
    rfl
  have hstrip : rstripSlash (url ++ String.ofList slashes).toList = rstripSlash url.toList := by
    rw [String.toList_append, String.toList_ofList, rstripSlash_append_slashes hslashes]
  constructor
  · rintro ⟨hhttps, hurl', hsnapshot, hstamp, hchannel'⟩
    rw [hnew] at hhttps hurl'
    rw [hchannel] at hchannel'
    refine ⟨?_, by rw [hold, hurl', hstrip], hsnapshot, hstamp, hchannel'⟩
    -- the slashes are not part of `https://`, as the URL ends with a timestamp
    rw [hsnapshot, hurl', hstrip, ← hstrip] at hstamp
    have hpinned := (snapshotUrl_pinned (List.isPrefixOf_iff_prefix.1 hhttps) hstamp).1
    obtain ⟨rest, hrest, -⟩ := rstripSlash_append url.toList
    rw [hold]
    refine List.isPrefixOf_iff_prefix.2 ?_
    rw [hrest]
    exact (hstrip ▸ hpinned).trans (List.prefix_append _ _)
  · rintro ⟨hhttps, hurl', hsnapshot, hstamp, hchannel'⟩
    rw [hold] at hhttps hurl'
    refine ⟨?_, by rw [hnew, hstrip, hurl'], hsnapshot, hstamp, by rwa [hchannel]⟩
    rw [hnew]
    refine List.isPrefixOf_iff_prefix.2 ?_
    rw [String.toList_append]
    exact (List.isPrefixOf_iff_prefix.1 hhttps).trans (List.prefix_append _ _)

theorem channel_eq_ok {source : Dict String Json} {text suite : String} {components : List String}
    (htext : source.get "channel" = some (.string text)) :
    channel source = .ok (suite, components) ↔ ∃ first words, splitWords text.toList = first :: words ∧
      words ≠ [] ∧ (∀ name ∈ first :: words, isIdentifier name = true) ∧ words.Nodup ∧
      "main".toList ∈ words ∧ suite = String.ofList first ∧ components = words.map String.ofList := by
  have hwords : (((source.get "channel").bind Json.text?).getD "").toList = text.toList := by
    rw [htext]
    rfl
  unfold channel
  rw [hwords]
  split
  · next first component others heq =>
    simp only [bind_eq_ok, raiseIf_eq_ok, exists_unit, pure_eq_ok, Prod.mk.injEq, forM_eq_ok,
      checkIdentifier, Bool.not_eq_false, not_not]
    constructor
    · rintro ⟨hnames, hnodup, hmain, rfl, rfl⟩
      exact ⟨first, component :: others, heq, by simp, hnames, hnodup, hmain, rfl, rfl⟩
    · rintro ⟨first', words, hsplit, -, hnames, hnodup, hmain, rfl, rfl⟩
      rw [heq, List.cons.injEq] at hsplit
      obtain ⟨rfl, rfl⟩ := hsplit
      exact ⟨hnames, hnodup, hmain, rfl, rfl⟩
  · next hnot =>
    constructor
    · intro h
      cases h
    · rintro ⟨first, words, hsplit, hne, -⟩
      obtain ⟨component, others, rfl⟩ := List.exists_cons_of_ne_nil hne
      exact absurd hsplit (hnot first component others)

theorem otherComponents_perm {components components' : List String} (h : components.Perm components') :
    otherComponents components = otherComponents components' :=
  insertionSort_perm (h.filter _).dedup fun _ _ _ _ => le_antisymm

/-- Components in another order give the same source. -/
theorem loadsSource_reorder {source source' : Dict String Json} {text text' : String} {suite : Str}
    {components components' : List Str} (hurl : source'.get "url" = source.get "url")
    (htext : source.get "channel" = some (.string text))
    (htext' : source'.get "channel" = some (.string text'))
    (hwords : splitWords text.toList = suite :: components)
    (hwords' : splitWords text'.toList = suite :: components') (hperm : components.Perm components')
    {specification : Specification} (h : LoadsSource source specification) :
    LoadsSource source' specification := by
  obtain ⟨names, hchannel, hnames⟩ := h.channel
  refine ⟨by rw [hurl]; exact h.https, by rw [hurl]; exact h.url, h.snapshot, h.timestamp,
    components'.map String.ofList, ?_, ?_⟩
  · obtain ⟨first, words, hsplit, hne, hall, hnodup, hmain, hsuite, -⟩ := (channel_eq_ok htext).1 hchannel
    rw [hwords, List.cons.injEq] at hsplit
    obtain ⟨rfl, rfl⟩ := hsplit
    refine (channel_eq_ok htext').2 ⟨suite, components', hwords', ?_, ?_, hperm.nodup_iff.1 hnodup,
      hperm.mem_iff.1 hmain, hsuite, rfl⟩
    · exact fun hnil => hne (List.perm_nil.1 (hnil ▸ hperm))
    · intro name hname
      exact hall name ((hperm.cons suite).mem_iff.2 hname)
  · obtain ⟨first, words, hsplit, -, -, -, -, -, rfl⟩ := (channel_eq_ok htext).1 hchannel
    rw [hwords, List.cons.injEq] at hsplit
    obtain ⟨rfl, rfl⟩ := hsplit
    rw [hnames, otherComponents_perm (hperm.map _)]

/-! The packages -/

/-- `tuple(dict.fromkeys(names))` -/
def fromKeys (names : List String) : List String :=
  Dict.keys (names.foldl (fun d name => d.set name ()) [])

theorem mem_keys_foldl_set {name : String} : ∀ {names : List String} {d : Dict String Unit},
    name ∈ names ∨ name ∈ d.keys → name ∈ Dict.keys (names.foldl (fun d name => d.set name ()) d)
  | [], _, h => h.resolve_left List.not_mem_nil
  | first :: names, d, h => by
    rw [List.foldl_cons]
    refine mem_keys_foldl_set ?_
    rcases h with h | h
    · rcases List.mem_cons.1 h with rfl | h
      · exact .inr (Dict.mem_keys_set.2 (.inl rfl))
      · exact .inl h
    · exact .inr (Dict.mem_keys_set.2 (.inr h))

/-- A name that is repeated later changes nothing. -/
theorem fromKeys_repeat {before after : List String} {name : String} (h : name ∈ before) :
    fromKeys (before ++ name :: after) = fromKeys (before ++ after) := by
  obtain ⟨value, hvalue⟩ := Dict.exists_get_of_mem_keys
    (@mem_keys_foldl_set name before [] (.inl h))
  rw [fromKeys, fromKeys, List.foldl_append, List.foldl_append, List.foldl_cons,
    Dict.set_of_get hvalue]

theorem requestedPackages_eq_ok {repr : Json → String} {fields : Dict String Json}
    {packages : List Json} (hpackages : fields.get "packages" = some (.list packages))
    (hne : packages ≠ []) {names : List String} : requestedPackages repr fields = .ok names ↔
      ∃ texts, packages.mapM (requestedName repr) = .ok texts ∧ names = fromKeys texts := by
  obtain ⟨package, rest, rfl⟩ := List.exists_cons_of_ne_nil hne
  unfold requestedPackages
  rw [hpackages]
  simp only [bind_eq_ok, pure_eq_ok]
  exact exists_congr fun texts => and_congr_right fun _ => eq_comm

theorem requestedPackages_repeat {repr : Json → String} {fields fields' : Dict String Json}
    {before after : List Json} {package : Json}
    (hpackages : fields.get "packages" = some (.list (before ++ after)))
    (hpackages' : fields'.get "packages" = some (.list (before ++ package :: after)))
    (hmem : package ∈ before) {names : List String} :
    requestedPackages repr fields' = .ok names ↔ requestedPackages repr fields = .ok names := by
  have hbefore : ∀ {texts : List String}, before.mapM (requestedName repr) = .ok texts →
      ∃ name ∈ texts, requestedName repr package = .ok name := by
    intro texts htexts
    exact forall₂_mem_right (mapM_eq_ok.1 htexts).flip hmem
  rw [requestedPackages_eq_ok hpackages (by simp [List.ne_nil_of_mem hmem]),
    requestedPackages_eq_ok hpackages' (by simp)]
  simp only [List.mapM_append, List.mapM_cons, bind_eq_ok, pure_eq_ok]
  constructor
  · rintro ⟨_, ⟨first, hfirst, _, ⟨name, hname, rest, hrest, rfl⟩, rfl⟩, rfl⟩
    obtain ⟨name', hname', hsame⟩ := hbefore hfirst
    obtain rfl : name' = name := Except.ok.inj (hsame.symm.trans hname)
    exact ⟨_, ⟨first, hfirst, rest, hrest, rfl⟩, fromKeys_repeat hname'⟩
  · rintro ⟨_, ⟨first, hfirst, rest, hrest, rfl⟩, rfl⟩
    obtain ⟨name, hmem', hname⟩ := hbefore hfirst
    exact ⟨_, ⟨first, hfirst, _, ⟨name, hname, rest, hrest, rfl⟩, rfl⟩, (fromKeys_repeat hmem').symm⟩

/-! The whole input -/

theorem loadsFields_congr {repr : Json → String} {fields fields' : Dict String Json}
    {specification : Specification} (hkeys : fields'.keys = fields.keys)
    (hversion : fields'.get "version" = fields.get "version")
    (harchs : fields'.get "archs" = fields.get "archs")
    (hpackages : requestedPackages repr fields' = .ok specification.packages ↔
      requestedPackages repr fields = .ok specification.packages) :
    LoadsFields repr fields' specification ↔ LoadsFields repr fields specification := by
  constructor
  · intro h
    exact ⟨by rw [← hkeys]; exact h.known, by rw [← hversion]; exact h.version,
      by rw [← harchs]; exact h.archs, hpackages.1 h.packages⟩
  · intro h
    exact ⟨by rw [hkeys]; exact h.known, by rw [hversion]; exact h.version,
      by rw [harchs]; exact h.archs, hpackages.2 h.packages⟩

/-- Another source leaves the other fields as they are. -/
theorem loadsFields_set_sources {repr : Json → String} {fields : Dict String Json} {value value' : Json}
    (h : fields.get "sources" = some value) {specification : Specification} :
    LoadsFields repr (fields.set "sources" value') specification ↔
      LoadsFields repr fields specification := by
  refine loadsFields_congr (Dict.keys_set_of_mem (Dict.mem_keys_of_get h))
    (Dict.get_set_ne _ _ (by decide)) (Dict.get_set_ne _ _ (by decide)) ?_
  rw [requestedPackages, requestedPackages, Dict.get_set_ne _ _ (by decide)]

/-- **Spellings of one specification** load alike. -/
theorem Respells.load_iff {repr : Json → String} {data data' : Json} (h : Respells data data')
    {specification : Specification} :
    loadSpecification repr data = .ok specification ↔ loadSpecification repr data' = .ok specification := by
  -- the only source of a changed input, and that of the input
  have hsource : ∀ {fields source source' : Dict String Json},
      fields.get "sources" = some (.list [.object source]) →
      (LoadsSource source specification ↔ LoadsSource source' specification) →
      (loadSpecification repr (.object fields) = .ok specification ↔
        loadSpecification repr (.object (fields.set "sources" (.list [.object source']))) =
          .ok specification) := by
    intro fields source source' hget hsame
    rw [loadSpecification_iff, loadSpecification_iff]
    simp only [hget, Dict.get_set_self, Option.some.injEq, Json.list.injEq, List.cons.injEq, and_true,
      Json.object.injEq, exists_eq_left', loadsFields_set_sources hget, hsame]
  cases h with
  | url hget hurl hslashes => exact hsource hget (loadsSource_url hurl hslashes).symm
  | channel hget htext hwords hwords' hperm =>
    refine hsource hget ⟨fun hloads => ?_, fun hloads => ?_⟩
    · exact loadsSource_reorder (Dict.get_set_ne _ _ (by decide)) htext (Dict.get_set_self _ _ _) hwords
        hwords' hperm hloads
    · exact loadsSource_reorder (Dict.get_set_ne _ _ (by decide)).symm (Dict.get_set_self _ _ _) htext
        hwords' hwords hperm.symm hloads
  | package hget hmem =>
    rw [loadSpecification_iff, loadSpecification_iff, Dict.get_set_ne _ _ (by decide)]
    refine exists_congr fun source => and_congr_right fun _ => and_congr_left fun _ => ?_
    refine (loadsFields_congr (Dict.keys_set_of_mem (Dict.mem_keys_of_get hget))
      (Dict.get_set_ne _ _ (by decide)) (Dict.get_set_ne _ _ (by decide)) ?_).symm
    exact requestedPackages_repeat hget (Dict.get_set_self _ _ _) hmem

theorem load_iff_of_eqvGen {repr : Json → String} {data data' : Json}
    (h : Relation.EqvGen Respells data data') {specification : Specification} :
    loadSpecification repr data = .ok specification ↔ loadSpecification repr data' = .ok specification := by
  induction h with
  | rel data data' h => exact h.load_iff
  | refl data => exact Iff.rfl
  | symm data data' _ ih => exact ih.symm
  | trans data mid data' _ _ ih₁ ih₂ => exact ih₁.trans ih₂

/-! ## The recorded digest -/

/-- The timestamp is part of the URL, so that the document need not repeat it. -/
theorem loadSpecification_snapshot {repr : Json → String} {data : Json} {specification : Specification}
    (h : loadSpecification repr data = .ok specification) :
    specification.snapshot.toList = lastSegment specification.snapshotUrl.toList := by
  cases data with
  | object fields =>
    obtain ⟨source, -, -, hloads⟩ := loadSpecification_iff.1 h
    exact hloads.snapshot
  | null => cases h
  | bool value => cases h
  | int value => cases h
  | float value => cases h
  | string value => cases h
  | list items => cases h

theorem checkSpec_record {floatText : ℚ → Str} {repr : Json → String} {sha256 : Bytes → String}
    {reader : Reader} {specPath lockPath : String} {data : Json} {specification : Specification}
    {lock : Lock} {digest : String} (hspec : reader.Holds specPath data)
    (hload : loadSpecification repr data = .ok specification)
    (hlock : reader.Holds lockPath (lock.record digest)) :
    checkSpec floatText repr sha256 reader specPath lockPath = .ok () ↔
      digest = specSha256 floatText sha256 specification := by
  obtain ⟨text, hread, hdecode⟩ := hspec
  obtain ⟨lockText, hreadLock, hdecodeLock⟩ := hlock
  have hrecorded : recordedDigest (lock.record digest) = some (.string digest) := rfl
  have hread' : readSpecification repr reader specPath = .ok specification := by
    rw [readSpecification, hread, ok_bind, hdecode]
    exact hload
  rw [checkSpec, hread', ok_bind, hreadLock, ok_bind, hdecodeLock]
  dsimp only
  rw [hrecorded]
  dsimp only
  rw [raiseIf_eq_ok, not_not, Json.text?_string, Option.some.injEq]

/-- **The digest of a specification.**  Two loaded specifications have the same document iff they
    are equal, so spellings of one input share their document; and a lock passes the check of a
    specification iff it was generated from it, unless the hash of the two documents collides. -/
theorem specSha256_faithful (floatText : ℚ → Str) (repr : Json → String) {data data' : Json}
    {specification specification' : Specification}
    (h : loadSpecification repr data = .ok specification)
    (h' : loadSpecification repr data' = .ok specification') :
    (document floatText specification = document floatText specification' ↔
      specification = specification') ∧
    (Relation.EqvGen Respells data data' →
      document floatText specification = document floatText specification') ∧
    ∀ (L : Library) (fetcher : Fetcher) (release : Option String) (lock : Json) (reader : Reader)
      (specPath lockPath : String),
      generateLock floatText L specification' fetcher release = .ok lock →
      reader.Holds specPath data → reader.Holds lockPath lock →
      (L.sha256 (document floatText specification) = L.sha256 (document floatText specification') →
        document floatText specification = document floatText specification') →
      (checkSpec floatText repr L.sha256 reader specPath lockPath = .ok () ↔
        specification' = specification) := by
  have hinj : document floatText specification = document floatText specification' →
      specification = specification' := by
    intro hdocument
    obtain ⟨hcomponents, hpackages, hurl, hsuite⟩ := document_inj floatText hdocument
    have hsnapshot : specification.snapshot = specification'.snapshot := by
      rw [← String.toList_inj, loadSpecification_snapshot h, loadSpecification_snapshot h', hurl]
    cases specification
    cases specification'
    simp only at hcomponents hpackages hurl hsuite hsnapshot
    rw [hcomponents, hpackages, hurl, hsuite, hsnapshot]
  refine ⟨⟨hinj, fun heq => by rw [heq]⟩, fun hrespells => ?_, ?_⟩
  · have hsame := (load_iff_of_eqvGen hrespells).1 h
    rw [h', Except.ok.injEq] at hsame
    rw [hsame]
  · intro L fetcher release lock reader specPath lockPath hgenerate hspec hlock hcollision
    simp only [generateLock, bind_eq_ok, pure_eq_ok] at hgenerate
    obtain ⟨locked, -, rfl⟩ := hgenerate
    rw [checkSpec_record hspec h hlock]
    constructor
    · intro hdigest
      exact (hinj (hcollision hdigest.symm)).symm
    · intro hsame
      rw [hsame]

/-- The example with its package requested twice and without the slash at the end of the URL. -/
def respelledData : Json :=
  .object [("version", .int 1), ("archs", .list [.string "amd64"]),
    ("packages", .list [.string "lib1", .string "lib1"]),
    ("sources", .list [.object [("channel", .string "trixie main"),
      ("url", .string "https://snapshot.debian.org/archive/debian/20250814T000000Z")]])]

/-- The lock of the example passes the check of the other spelling. -/
theorem specSha256_faithful_example : ∃ lock,
    generateLock (fun _ => []) DebianPipeline.exampleLibrary DebianPipeline.exampleSpecification
      (DebianPipeline.exampleFetcher "13.1") none = .ok lock ∧
    ∀ (reader : Reader) (specPath lockPath : String), reader.Holds specPath respelledData →
      reader.Holds lockPath lock →
      checkSpec (fun _ => []) (fun _ => "") DebianPipeline.exampleLibrary.sha256 reader specPath
        lockPath = .ok () := by
  have hrespelled : loadSpecification (fun _ => "") respelledData =
      .ok DebianPipeline.exampleSpecification := by decide +kernel
  obtain ⟨locked, hrun, -⟩ := @DebianPipeline.exampleLock "13.1" "13" DebianPipeline.summary_example
  have hlock : generateLock (fun _ => []) DebianPipeline.exampleLibrary
      DebianPipeline.exampleSpecification (DebianPipeline.exampleFetcher "13.1") none =
      .ok (locked.record (specSha256 (fun _ => []) DebianPipeline.exampleLibrary.sha256
        DebianPipeline.exampleSpecification)) := by
    rw [generateLock, hrun]
    rfl
  refine ⟨_, hlock, fun reader specPath lockPath hspec hheld => ?_⟩
  have h := specSha256_faithful (fun _ => []) (fun _ => "") hrespelled
    DebianPipeline.loadSpecification_example
  exact (h.2.2 DebianPipeline.exampleLibrary (DebianPipeline.exampleFetcher "13.1") none _ reader
    specPath lockPath hlock hspec hheld fun _ => rfl).2 rfl

end RulesMkosi.Debian
