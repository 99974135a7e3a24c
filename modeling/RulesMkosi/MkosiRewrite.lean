/-
  Absolute paths in mkosi arguments (`mkosi/private/mkosi_runner/command_line.py`).

  mkosi changes its working directory before it reads its path options, so
  `absolute_paths` replaces the values of these options by absolute paths.  The new
  argument list is read as the old one was, except where a rewritten value starts with
  what the parser takes for something else.
-/
import RulesMkosi.Lib.AbsPath
import RulesMkosi.Lib.Result
import RulesMkosi.MkosiOptions

namespace RulesMkosi.MkosiOptions

/-- `os.path.abspath` in the working directory `cwd` -/
def absolute (cwd : String) (path : Str) : Str := (abspath cwd (String.ofList path)).toList

/-- `Occurrence.replace` -/
def Occurrence.replace (o : Occurrence) (arguments : List Str) (value : Str) : List Str :=
  arguments.set o.index (o.prefix_ ++ value)

section
variable (table : Dict Str MkosiOption) (isNegativeNumber : Str → Bool) (cwd : String)

def pathOccurrences (arguments : List Str) : Except String (List Occurrence) := do
  let found := (occurrences table isNegativeNumber arguments).filter fun o => o.option.path.isSome
  raiseIf (found.any fun o => o.value.isNone) "mkosi path option is missing its value"
  return found

def absolutePaths (arguments : List Str) : Except String (List Str) := do
  let found ← pathOccurrences table isNegativeNumber arguments
  return found.foldl
    (fun result o => o.replace result (o.option.mapPaths (o.value.getD []) (absolute cwd))) arguments

def declaredPaths (arguments : List Str) : Except String (List Str) := do
  let found ← pathOccurrences table isNegativeNumber arguments
  return found.flatMap fun o => o.option.declaredPaths (o.value.getD [])

end

/-! ## Rewritten occurrences -/

section
variable (f : Str → Str)

def Occurrence.mappedValue (o : Occurrence) : Option Str :=
  if o.option.path.isSome then o.value.map fun value => o.option.mapPaths value f else o.value

/-- The occurrence with the function applied to the paths of its value. -/
def Occurrence.mapped (o : Occurrence) : Occurrence := { o with value := o.mappedValue f }

/-- The arguments from `index` on, with the paths of an occurrence rewritten. -/
def Occurrence.rewrite (index : ℕ) (arguments : List Str) (o : Occurrence) : List Str :=
  if o.option.path.isSome ∧ o.value.isSome then
    arguments.set (o.index - index) (o.prefix_ ++ o.option.mapPaths (o.value.getD []) f)
  else arguments

/-- The arguments from `index` on, with the paths of all occurrences rewritten. -/
def rewriteFrom (index : ℕ) (arguments : List Str) (found : List Occurrence) : List Str :=
  found.foldl (Occurrence.rewrite f index) arguments

theorem Occurrence.mappedValue_of_path {o : Occurrence} {value : Str}
    (hpath : o.option.path.isSome = true) (hvalue : o.value = some value) :
    o.mappedValue f = some (o.option.mapPaths value f) := by
  rw [Occurrence.mappedValue, if_pos hpath, hvalue]
  rfl

theorem rewriteFrom_found {index : ℕ} {arguments : List Str} {o : Occurrence}
    {found : List Occurrence} :
    rewriteFrom f index arguments (o :: found) =
      rewriteFrom f index (o.rewrite f index arguments) found := rfl

theorem Occurrence.rewrite_cons {index : ℕ} {o : Occurrence} (h : index + 1 ≤ o.index)
    (argument : Str) (rest : List Str) :
    o.rewrite f index (argument :: rest) = argument :: o.rewrite f (index + 1) rest := by
  unfold Occurrence.rewrite
  split_ifs
  · rw [show o.index - index = o.index - (index + 1) + 1 by omega, List.set_cons_succ]
  · rfl

/-- Occurrences behind an argument leave it as it is. -/
theorem rewriteFrom_cons {index : ℕ} : ∀ {found : List Occurrence},
    (∀ o ∈ found, index + 1 ≤ o.index) → ∀ (argument : Str) (rest : List Str),
      rewriteFrom f index (argument :: rest) found =
        argument :: rewriteFrom f (index + 1) rest found
  | [], _, _, _ => rfl
  | o :: found, h, argument, rest => by
    obtain ⟨ho, hfound⟩ := List.forall_mem_cons.1 h
    rw [rewriteFrom_found, o.rewrite_cons f ho]
    exact rewriteFrom_cons hfound argument _

theorem Occurrence.length_rewrite (o : Occurrence) (index : ℕ) (arguments : List Str) :
    (o.rewrite f index arguments).length = arguments.length := by
  unfold Occurrence.rewrite
  split_ifs
  · exact List.length_set
  · rfl

theorem length_rewriteFrom {index : ℕ} : ∀ {found : List Occurrence} (arguments : List Str),
    (rewriteFrom f index arguments found).length = arguments.length
  | [], _ => rfl
  | o :: found, arguments => by
    have ih : (rewriteFrom f index (o.rewrite f index arguments) found).length = _ :=
      length_rewriteFrom (o.rewrite f index arguments)
    exact ih.trans (o.length_rewrite f index arguments)

/-- Arguments without a path value are left as they are. -/
theorem getElem?_rewriteFrom {i : ℕ} : ∀ {found : List Occurrence} (arguments : List Str),
    (∀ o ∈ found, o.option.path.isSome = true → o.value.isSome = true → o.index ≠ i) →
      (rewriteFrom f 0 arguments found)[i]? = arguments[i]?
  | [], _, _ => rfl
  | o :: found, arguments, h => by
    obtain ⟨ho, hfound⟩ := List.forall_mem_cons.1 h
    have hrewrite : (o.rewrite f 0 arguments)[i]? = arguments[i]? := by
      unfold Occurrence.rewrite
      split_ifs with hpath
      · exact List.getElem?_set_ne (ho hpath.1 hpath.2)
      · rfl
    have ih : (rewriteFrom f 0 (o.rewrite f 0 arguments) found)[i]? = _ :=
      getElem?_rewriteFrom (o.rewrite f 0 arguments) hfound
    exact ih.trans hrewrite

/-- Occurrences whose values stay leave the arguments as they are. -/
theorem rewriteFrom_of_fixed {arguments : List Str} : ∀ {found : List Occurrence},
    (∀ o ∈ found, o.rewrite f 0 arguments = arguments) → rewriteFrom f 0 arguments found = arguments
  | [], _ => rfl
  | o :: found, h => by
    obtain ⟨ho, hfound⟩ := List.forall_mem_cons.1 h
    rw [rewriteFrom_found, ho]
    exact rewriteFrom_of_fixed hfound

end

/-! ## Reading the rewritten arguments -/

theorem MkosiOption.mapPaths_nil (option : MkosiOption) (f : Str → Str) :
    option.mapPaths [] f = [] := by
  have hitems : option.items [] = [] := by simp [MkosiOption.items, splitWords, splitWordsFrom]
  unfold MkosiOption.mapPaths MkosiOption.mapItems
  rw [hitems]
  split_ifs
  · rfl
  · rfl

section
variable (table : Dict Str MkosiOption) (isNegativeNumber : Str → Bool) (f : Str → Str)

/-- The rewritten value of an occurrence can be read where it stands. -/
def Occurrence.Keeps (o : Occurrence) : Prop :=
  o.option.path.isSome = true → ∀ value, o.value = some value →
    o.WellRead table isNegativeNumber (o.option.mapPaths value f)

end

section
variable {table : Dict Str MkosiOption} {isNegativeNumber : Str → Bool} {f : Str → Str}

/-- An option with an attached value is read with its new value. -/
theorem rewrite_here (htable : ValidTable table) {index : ℕ} {argument spelling prefix_ : Str}
    {explicit : Option Str} {current : MkosiOption}
    (hread : readOption table argument = some (spelling, prefix_, explicit))
    (hkeeps : (Occurrence.mk current spelling index prefix_ explicit).Keeps table isNegativeNumber f)
    (rest : List Str) :
    ∃ text, (Occurrence.mk current spelling index prefix_ explicit).rewrite f index
        (argument :: rest) = text :: rest ∧
      readOption table text = some (spelling, prefix_,
        (Occurrence.mk current spelling index prefix_ explicit).mappedValue f) := by
  obtain ⟨happend, hne, -⟩ := readOption_spec htable hread
  by_cases hpath : current.path.isSome = true
  · cases explicit with
    | none =>
      refine ⟨argument, if_neg (by simp), hread.trans ?_⟩
      rw [Occurrence.mappedValue, if_pos hpath]
      rfl
    | some value =>
      refine ⟨prefix_ ++ current.mapPaths value f, ?_, ?_⟩
      · rw [Occurrence.rewrite, if_pos ⟨hpath, rfl⟩, Nat.sub_self]
        rfl
      · rw [Occurrence.mappedValue, if_pos hpath]
        by_cases hflag : takesNone table spelling = true
        · -- a flag has only an empty value, which stays empty
          have hvalue := readOption_flag_value hread hflag
          have hargument : prefix_ ++ value = argument := happend
          rw [hvalue] at hargument hread ⊢
          rw [MkosiOption.mapPaths_nil, hargument, hread, Option.map_some, MkosiOption.mapPaths_nil]
        · have hwell := hkeeps hpath value rfl
          rw [Occurrence.WellRead, if_neg hne] at hwell
          exact readOption_replace htable hread (Bool.eq_false_iff.2 hflag) hwell
  · refine ⟨argument, if_neg fun h => hpath h.1, hread.trans ?_⟩
    rw [Occurrence.mappedValue, if_neg hpath]

/-- An option without a value in front of a value is read with the new value. -/
theorem rewrite_next {index : ℕ} {spelling value : Str} {current : MkosiOption}
    (hvalue : isValue table isNegativeNumber value = true)
    (hkeeps : (Occurrence.mk current spelling (index + 1) [] (some value)).Keeps table
      isNegativeNumber f) (argument : Str) (rest : List Str) :
    ∃ text, (Occurrence.mk current spelling (index + 1) [] (some value)).rewrite f index
        (argument :: value :: rest) = argument :: text :: rest ∧
      isValue table isNegativeNumber text = true ∧
      (Occurrence.mk current spelling (index + 1) [] (some value)).mappedValue f = some text := by
  by_cases hpath : current.path.isSome = true
  · refine ⟨current.mapPaths value f, ?_, ?_, ?_⟩
    · rw [Occurrence.rewrite, if_pos ⟨hpath, rfl⟩, Nat.add_sub_cancel_left]
      rfl
    · have hwell := hkeeps hpath value rfl
      rwa [Occurrence.WellRead, if_pos rfl] at hwell
    · rw [Occurrence.mappedValue, if_pos hpath]
      rfl
  · refine ⟨value, if_neg fun h => hpath h.1, hvalue, ?_⟩
    rw [Occurrence.mappedValue, if_neg hpath]

theorem rewrite_missing {index : ℕ} {prefix_ spelling : Str} {current : MkosiOption}
    (arguments : List Str) :
    (Occurrence.mk current spelling index prefix_ none).rewrite f index arguments = arguments ∧
      (Occurrence.mk current spelling index prefix_ none).mappedValue f = none := by
  refine ⟨if_neg (by simp), ?_⟩
  unfold Occurrence.mappedValue
  split_ifs
  · rfl
  · rfl

/-- An argument that is not a value does not become one. -/
theorem Reading.head_rewritten (htable : ValidTable table) {index : ℕ} {arguments : List Str}
    {found : List Occurrence} (h : Reading table isNegativeNumber index arguments found)
    (hkeeps : ∀ o ∈ found, o.Keeps table isNegativeNumber f)
    (hvalue : ∀ value ∈ arguments.head?, isValue table isNegativeNumber value = false) :
    ∀ value ∈ (rewriteFrom f index arguments found).head?,
      isValue table isNegativeNumber value = false := by
  cases h with
  | nil => exact hvalue
  | stop => exact hvalue
  | skip hargument hread hrest =>
    rw [rewriteFrom_cons f hrest.le_index]
    exact hvalue
  | here hread hcurrent hdone hrest =>
    obtain ⟨text, hrewrite, htext⟩ := rewrite_here htable hread (hkeeps _ List.mem_cons_self) _
    rw [rewriteFrom_found, hrewrite, rewriteFrom_cons f hrest.le_index]
    rintro value hhead
    cases hhead
    exact isValue_of_readOption htable htext
  | next hread hcurrent htakes hnext hrest =>
    obtain ⟨text, hrewrite, -, -⟩ := rewrite_next hnext (hkeeps _ List.mem_cons_self) _ _
    rw [rewriteFrom_found, hrewrite,
      rewriteFrom_cons f fun o ho => Nat.le_of_succ_le (hrest.le_index o ho)]
    exact hvalue
  | missing hread hcurrent htakes hmissing hrest =>
    rw [rewriteFrom_found, (rewrite_missing _).1, rewriteFrom_cons f hrest.le_index]
    exact hvalue

/-- **Rewritten arguments are read as before,** with the new values, where each of these can be read
    in its place. -/
theorem Reading.rewritten (htable : ValidTable table) {index : ℕ} {arguments : List Str}
    {found : List Occurrence} (h : Reading table isNegativeNumber index arguments found)
    (hkeeps : ∀ o ∈ found, o.Keeps table isNegativeNumber f) :
    Reading table isNegativeNumber index (rewriteFrom f index arguments found)
      (found.map (Occurrence.mapped f)) := by
  induction h with
  | nil index => exact .nil index
  | stop index rest => exact .stop index rest
  | skip hargument hread hrest ih =>
    rw [rewriteFrom_cons f hrest.le_index]
    exact .skip hargument hread (ih hkeeps)
  | here hread hcurrent hdone hrest ih =>
    obtain ⟨ho, hfound⟩ := List.forall_mem_cons.1 hkeeps
    obtain ⟨text, hrewrite, htext⟩ := rewrite_here htable hread ho _
    rw [rewriteFrom_found, hrewrite, rewriteFrom_cons f hrest.le_index]
    refine .here htext hcurrent ?_ (ih hfound)
    refine hdone.imp_right fun hsome => ?_
    unfold Occurrence.mappedValue
    split_ifs
    · simpa using hsome
    · exact hsome
  | next hread hcurrent htakes hvalue hrest ih =>
    obtain ⟨ho, hfound⟩ := List.forall_mem_cons.1 hkeeps
    obtain ⟨text, hrewrite, htext, hmapped⟩ := rewrite_next hvalue ho _ _
    rw [rewriteFrom_found, hrewrite,
      rewriteFrom_cons f fun o ho => Nat.le_of_succ_le (hrest.le_index o ho),
      rewriteFrom_cons f hrest.le_index, List.map_cons, Occurrence.mapped, hmapped]
    exact .next hread hcurrent htakes htext (ih hfound)
  | missing hread hcurrent htakes hvalue hrest ih =>
    obtain ⟨-, hfound⟩ := List.forall_mem_cons.1 hkeeps
    rw [rewriteFrom_found, (rewrite_missing _).1, rewriteFrom_cons f hrest.le_index, List.map_cons,
      Occurrence.mapped, (rewrite_missing []).2]
    exact .missing hread hcurrent htakes (hrest.head_rewritten htable hfound hvalue) (ih hfound)

end

/-! ## Values with absolute paths -/

/-- A character that does not end an item or a path in it. -/
def IsPathChar (c : Char) : Prop := c ≠ ',' ∧ c ≠ ':' ∧ isSpace c = false

/-- A function that makes paths absolute. -/
structure MakesAbsolute (f : Str → Str) : Prop where
  head : ∀ path, (f path).head? = some '/'
  idempotent : ∀ path, f (f path) = f path
  chars : ∀ path, ∀ c ∈ f path, c ∈ path ∨ IsPathChar c

/-- An absolute working directory without commas, white space and colons. -/
def WorkingDirectory (cwd : String) : Prop :=
  startsWith cwd "/" = true ∧ ∀ c ∈ cwd.toList, IsPathChar c

theorem WorkingDirectory.makesAbsolute {cwd : String} (h : WorkingDirectory cwd) :
    MakesAbsolute (absolute cwd) where
  head path := by
    obtain ⟨rest, hrest⟩ := startsWith_iff.1 (abspath_absolute h.1 (String.ofList path))
    rw [absolute, hrest, String.toList_append]
    rfl
  idempotent path := by
    simp only [absolute, String.ofList_toList]
    rw [abspath_abspath h.1]
  chars path c hc := by
    rcases mem_abspath h.1 hc with rfl | hc | hc
    · exact .inr ⟨by decide, by decide, by decide⟩
    · exact .inr (h.2 c hc)
    · rw [String.toList_ofList] at hc
      exact .inl hc

namespace MkosiOption

variable {option : MkosiOption} {f : Str → Str} (hf : MakesAbsolute f)

/-- The parts of an item: a path, and the target of a tree. -/
theorem source_cases (option : MkosiOption) (item : Str) :
    (option.path ≠ some .tree ∧ option.source item = (item, [], [])) ∨
    (option.path = some .tree ∧ ':' ∉ item ∧ option.source item = (item, [], [])) ∨
    ∃ path target, option.path = some .tree ∧ ':' ∉ path ∧ item = path ++ ':' :: target ∧
      option.source item = (path, [':'], target) := by
  unfold source
  split_ifs with htree
  · rcases partition_cases ':' item with ⟨hno, hpartition⟩ | ⟨path, target, hno, hitem, hpartition⟩
    · exact .inr (.inl ⟨htree, hno, hpartition⟩)
    · exact .inr (.inr ⟨path, target, htree, hno, hitem, hpartition⟩)
  · exact .inl ⟨htree, rfl⟩

theorem source_append (option : MkosiOption) (item : Str) :
    item = (option.source item).1 ++ (option.source item).2.1 ++ (option.source item).2.2 := by
  rcases option.source_cases item with ⟨-, h⟩ | ⟨-, -, h⟩ | ⟨path, target, -, -, hitem, h⟩
  · simp [h]
  · simp [h]
  · rw [h]
    simpa using hitem

include hf

/-- The parts of a rewritten item. -/
theorem source_mapItem (item : Str) : option.source (option.mapItem item f) =
    (f (option.source item).1, (option.source item).2.1, (option.source item).2.2) := by
  have hcolon : ∀ path, ':' ∉ path → ':' ∉ f path := by
    intro path hpath hmem
    rcases hf.chars path ':' hmem with hmem | hchar
    · exact hpath hmem
    · exact hchar.2.1 rfl
  rcases option.source_cases item with ⟨htree, h⟩ | ⟨htree, hno, h⟩ | ⟨path, target, htree, hno, -, h⟩
  · rw [mapItem, h, source, if_neg htree]
    simp
  · rw [mapItem, h, source, if_pos htree, List.append_nil, List.append_nil]
    exact partition_of_notMem (hcolon item hno)
  · rw [mapItem, h, source, if_pos htree]
    simpa using partition_append (hcolon path hno) target

theorem mapItem_mapItem (item : Str) :
    option.mapItem (option.mapItem item f) f = option.mapItem item f := by
  rw [mapItem, source_mapItem hf, hf.idempotent]
  rfl

theorem head_mapItem (item : Str) : (option.mapItem item f).head? = some '/' := by
  rw [mapItem, List.append_assoc, List.head?_append, hf.head]
  rfl

theorem mem_mapItem {item : Str} {c : Char} (hc : c ∈ option.mapItem item f) :
    c ∈ item ∨ IsPathChar c := by
  have hitem : ∀ d, d ∈ (option.source item).1 ∨ d ∈ (option.source item).2.1 ∨
      d ∈ (option.source item).2.2 → d ∈ item := by
    intro d hd
    rw [option.source_append item, List.mem_append, List.mem_append, or_assoc]
    exact hd
  rw [mapItem, List.mem_append, List.mem_append, or_assoc] at hc
  rcases hc with hc | hc
  · exact (hf.chars _ c hc).imp_left fun hc => hitem c (.inl hc)
  · exact .inl (hitem c (.inr hc))

omit hf

/-- An item of a list is a word without commas. -/
theorem isWord_of_mem_items (hlist : option.pathList = true) {value item : Str}
    (h : item ∈ option.items value) : IsWord item ∧ ',' ∉ item := by
  rw [items, if_pos hlist] at h
  obtain ⟨hword, hmem⟩ := isWord_of_mem_splitWords h
  refine ⟨hword, fun hcomma => ?_⟩
  obtain ⟨c, -, hc⟩ := List.mem_map.1 (hmem ',' hcomma)
  split_ifs at hc with hne
  · cases hc
  · exact hne hc

include hf

/-- The mapped item, which is a word again. -/
theorem isWord_of_mem_mapItems (hlist : option.pathList = true) {value item : Str}
    (h : item ∈ option.mapItems value f) : IsWord item ∧ ',' ∉ item := by
  obtain ⟨old, hold, rfl⟩ := List.mem_map.1 h
  obtain ⟨⟨hne, hspace⟩, hcomma⟩ := isWord_of_mem_items hlist hold
  split_ifs
  · exact ⟨⟨hne, hspace⟩, hcomma⟩
  · refine ⟨⟨fun hnil => ?_, fun c hc => ?_⟩, fun hc => ?_⟩
    · have hhead : (option.mapItem old f).head? = some '/' := head_mapItem hf old
      rw [hnil] at hhead
      cases hhead
    · exact (mem_mapItem hf hc).elim (hspace c) fun hchar => hchar.2.2
    · exact (mem_mapItem hf hc).elim hcomma fun hchar => hchar.1 rfl

omit hf

/-- The commas between words are read as blanks. -/
theorem map_join : ∀ {words : List Str}, (∀ word ∈ words, ',' ∉ word) →
    ([','].intercalate words).map (fun c => if c = ',' then ' ' else c) = [' '].intercalate words
  | [], _ => rfl
  | word :: words, h => by
    obtain ⟨hword, hwords⟩ := List.forall_mem_cons.1 h
    have hmap : word.map (fun c => if c = ',' then ' ' else c) = word := by
      refine (List.map_congr_left fun c hc => if_neg ?_).trans (List.map_id' word)
      rintro rfl
      exact hword hc
    cases words with
    | nil => rw [List.intercalate_singleton, List.intercalate_singleton, hmap]
    | cons next rest =>
      have ih := map_join hwords
      rw [List.intercalate_cons_cons, List.intercalate_cons_cons, List.map_append, List.map_append,
        hmap, ih]
      rfl

/-- Words that are joined by commas are split again. -/
theorem items_join (hlist : option.pathList = true) {words : List Str}
    (h : ∀ word ∈ words, IsWord word ∧ ',' ∉ word) : option.items ([','].intercalate words) = words := by
  rw [items, if_pos hlist, map_join fun word hword => (h word hword).2]
  exact splitWords_intercalate fun word hword => (h word hword).1

theorem items_of_not_list (hlist : option.pathList = false) {value : Str} (hvalue : value ≠ []) :
    option.items value = [value] := by
  rw [items, if_neg (by simp [hlist]), if_neg hvalue]

include hf

/-- **The items of a rewritten value** are the rewritten items. -/
theorem items_mapPaths (value : Str) :
    option.items (option.mapPaths value f) = option.mapItems value f := by
  by_cases hlist : option.pathList = true
  · rw [mapPaths, if_pos hlist]
    exact items_join hlist fun item hitem => isWord_of_mem_mapItems hf hlist hitem
  · have hnot : option.pathList = false := Bool.eq_false_iff.2 hlist
    by_cases hvalue : value = []
    · rw [hvalue, mapPaths_nil, mapItems]
      simp [items, hnot]
    · rw [mapPaths, if_neg hlist, mapItems, items_of_not_list hnot hvalue, List.map_singleton,
        List.flatten_singleton]
      refine items_of_not_list hnot ?_
      split_ifs
      · exact hvalue
      · intro hnil
        have hhead : (option.mapItem value f).head? = some '/' := head_mapItem hf value
        rw [hnil] at hhead
        cases hhead

section
variable (hconstants : ∀ constant ∈ option.constants, constant.head? ≠ some '/')
include hconstants

/-- A rewritten path is not a constant. -/
theorem mapItem_not_constant (item : Str) : option.mapItem item f ∉ option.constants :=
  fun hmem => hconstants _ hmem (head_mapItem hf item)

theorem mapItems_mapPaths (value : Str) :
    option.mapItems (option.mapPaths value f) f = option.mapItems value f := by
  rw [mapItems, items_mapPaths hf, mapItems, List.map_map]
  refine List.map_congr_left fun item _ => ?_
  rw [Function.comp_apply]
  split_ifs with hconstant hmapped
  · rfl
  · exact absurd hmapped (mapItem_not_constant hf hconstants item)
  · exact mapItem_mapItem hf item

/-- **Absolute paths stay** when they are made absolute again. -/
theorem mapPaths_mapPaths (value : Str) :
    option.mapPaths (option.mapPaths value f) f = option.mapPaths value f := by
  have h := mapItems_mapPaths hf hconstants value
  rw [mapPaths, h]
  rfl

/-- **The declared paths of a rewritten value** are absolute. -/
theorem declaredPaths_mapPaths (value : Str) :
    option.declaredPaths (option.mapPaths value f) = (option.declaredPaths value).map f := by
  rw [declaredPaths, items_mapPaths hf, declaredPaths, mapItems]
  induction option.items value with
  | nil => rfl
  | cons item rest ih =>
    by_cases hitem : item ∈ option.constants
    · rw [List.map_cons, if_pos hitem, List.filter_cons_of_neg (by simpa using hitem),
        List.filter_cons_of_neg (by simpa using hitem), ih]
    · have hnot := mapItem_not_constant hf hconstants item
      rw [List.map_cons, if_neg hitem, List.filter_cons_of_pos (by simpa using hnot),
        List.filter_cons_of_pos (by simpa using hitem), List.map_cons, source_mapItem hf, ih]
      rfl

end

omit hf

theorem ne_nil_of_mem_items {value item : Str} (h : item ∈ option.items value) : item ≠ [] := by
  by_cases hlist : option.pathList = true
  · exact (isWord_of_mem_items hlist h).1.1
  · rw [items, if_neg hlist] at h
    split_ifs at h with hvalue
    · cases h
    · rwa [List.mem_singleton.1 h]

/-- A rewritten value starts with its first item. -/
theorem mapPaths_cons {value item : Str} {rest : List Str} (h : option.items value = item :: rest)
    (f : Str → Str) :
    ∃ tail, option.mapPaths value f =
      (if item ∈ option.constants then item else option.mapItem item f) ++ tail ∧
      (rest = [] → tail = []) ∧
      (rest ≠ [] → option.pathList = true ∧ ∃ more, tail = ',' :: more) := by
  by_cases hlist : option.pathList = true
  · rw [mapPaths, if_pos hlist, mapItems, h, List.map_cons]
    cases rest with
    | nil => exact ⟨[], by simp, fun _ => rfl, fun hne => absurd rfl hne⟩
    | cons next rest =>
      rw [List.map_cons, List.intercalate_cons_cons, List.append_assoc]
      exact ⟨_, rfl, fun hnil => absurd hnil (by simp), fun _ => ⟨hlist, _, rfl⟩⟩
  · rw [mapPaths, if_neg hlist, mapItems, h]
    rw [items, if_neg hlist] at h
    split_ifs at h with hvalue
    cases h
    exact ⟨[], by simp, fun _ => rfl, fun hne => absurd rfl hne⟩

theorem mapPaths_eq_nil {value : Str} (h : option.items value = []) (f : Str → Str) :
    option.mapPaths value f = [] := by
  unfold mapPaths mapItems
  rw [h]
  split_ifs
  · rfl
  · rfl

include hf

/-- How a rewritten value starts. -/
theorem head_mapPaths {value item : Str} {rest : List Str} (h : option.items value = item :: rest) :
    (option.mapPaths value f).head? = if item ∈ option.constants then item.head? else some '/' := by
  obtain ⟨tail, hmap, -, -⟩ := mapPaths_cons h f
  have hne : item ≠ [] := ne_nil_of_mem_items (h ▸ List.mem_cons_self)
  rw [hmap, List.head?_append]
  split_ifs
  · obtain ⟨c, text, rfl⟩ := List.exists_cons_of_ne_nil hne
    rfl
  · rw [head_mapItem hf]
    rfl

/-- A rewritten list has no blanks. -/
theorem no_blank_mapPaths (hlist : option.pathList = true) (value : Str) :
    ' ' ∉ option.mapPaths value f := by
  intro hblank
  rw [mapPaths, if_pos hlist] at hblank
  rcases mem_intercalate hblank with hblank | ⟨item, hitem, hblank⟩
  · simp at hblank
  · have hspace := (isWord_of_mem_mapItems hf hlist hitem).1.2 ' ' hblank
    cases hspace

end MkosiOption

/-! ## Values that can be read again -/

section
variable (table : Dict Str MkosiOption) (isNegativeNumber : Str → Bool)

/-- The rewritten value is not taken for something else.  Attached to its option without an equals sign,
    it has a first item, which is not a constant with an equals sign in front.  As an argument of its
    own, it does not start with a constant that looks like an option. -/
def Occurrence.Rereadable (o : Occurrence) (value : Str) : Prop :=
  if o.prefix_ = [] then
    ∀ item ∈ (o.option.items value).head?, item ∈ o.option.constants → item.head? = some '-' →
      (o.option.items value).tail = [] ∧ isValue table isNegativeNumber item = true
  else
    o.prefix_.getLast? = some '=' ∨ (o.option.items value ≠ [] ∧
      ∀ item ∈ (o.option.items value).head?, item ∈ o.option.constants → item.head? ≠ some '=')

end

section
variable {table : Dict Str MkosiOption} {isNegativeNumber : Str → Bool} {f : Str → Str}
  (hf : MakesAbsolute f)

/-- A text with a comma and no blank is an option, if it starts with a dash and is no number. -/
theorem isValue_comma {text : Str} (hnumber : isNegativeNumber text = false)
    (hdash : text.head? = some '-') (hcomma : ',' ∈ text) (hblank : ' ' ∉ text) :
    isValue table isNegativeNumber text = false := by
  have hlength : ¬ (text.head? ≠ some '-' ∨ text.length = 1) := by
    rintro (hne | hone)
    · exact hne hdash
    · obtain ⟨c, rfl⟩ := List.length_eq_one_iff.1 hone
      cases hdash
      simp at hcomma
  have hoption : isOption table isNegativeNumber text = true := by
    rw [isOption, if_neg hlength, hnumber]
    split_ifs
    · rfl
    · simpa using hblank
  simp [isValue, hoption]

include hf

/-- An argument of its own is still a value, if it does not start with a constant that looks like an
    option. -/
theorem isValue_mapPaths {option : MkosiOption} {value : Str}
    (h : ∀ item ∈ (option.items value).head?, item ∈ option.constants → item.head? = some '-' →
      (option.items value).tail = [] ∧ isValue table isNegativeNumber item = true) :
    isValue table isNegativeNumber (option.mapPaths value f) = true := by
  cases hitems : option.items value with
  | nil =>
    rw [MkosiOption.mapPaths_eq_nil hitems]
    exact isValue_of_head (by simp)
  | cons item rest =>
    rw [hitems] at h
    by_cases hspecial : item ∈ option.constants ∧ item.head? = some '-'
    · obtain ⟨hrest, hvalue⟩ := h item rfl hspecial.1 hspecial.2
      obtain ⟨tail, hmap, hsingle, -⟩ := MkosiOption.mapPaths_cons hitems f
      rwa [hmap, hsingle hrest, if_pos hspecial.1, List.append_nil]
    · refine isValue_of_head ?_
      rw [MkosiOption.head_mapPaths hf hitems]
      split_ifs with hconstant
      · exact fun hdash => hspecial ⟨hconstant, hdash⟩
      · simp

/-- A constant that looks like an option makes the items joined by commas an option. -/
theorem items_of_isValue_mapPaths {option : MkosiOption} {value : Str}
    (hnumber : ∀ constant ∈ option.constants, constant.head? = some '-' → ∀ rest,
      isNegativeNumber (constant ++ ',' :: rest) = false)
    (h : isValue table isNegativeNumber (option.mapPaths value f) = true) :
    ∀ item ∈ (option.items value).head?, item ∈ option.constants → item.head? = some '-' →
      (option.items value).tail = [] ∧ isValue table isNegativeNumber item = true := by
  intro item hitem hconstant hdash
  obtain ⟨rest, hitems⟩ : ∃ rest, option.items value = item :: rest :=
    ⟨_, (List.cons_head?_tail hitem).symm⟩
  obtain ⟨tail, hmap, hsingle, hmany⟩ := MkosiOption.mapPaths_cons hitems f
  rw [if_pos hconstant] at hmap
  rw [hitems]
  by_cases hrest : rest = []
  · rw [hmap, hsingle hrest, List.append_nil] at h
    exact ⟨hrest, h⟩
  · have hhead := MkosiOption.head_mapPaths hf hitems
    rw [if_pos hconstant, hdash] at hhead
    obtain ⟨hlist, more, rfl⟩ := hmany hrest
    have hblank := MkosiOption.no_blank_mapPaths hf hlist value
    rw [hmap] at hhead hblank h
    rw [isValue_comma (hnumber item hconstant hdash more) hhead (by simp) hblank] at h
    cases h

/-- A value behind its option's letter is still read there, iff it has a first item that does not start
    with an equals sign. -/
theorem attachedTo_mapPaths_iff (prefix_ : Str) (option : MkosiOption) (value : Str) :
    AttachedTo prefix_ (option.mapPaths value f) ↔
      prefix_.getLast? = some '=' ∨ (option.items value ≠ [] ∧
        ∀ item ∈ (option.items value).head?, item ∈ option.constants → item.head? ≠ some '=') := by
  unfold AttachedTo
  refine or_congr_right ?_
  cases hitems : option.items value with
  | nil => simp [MkosiOption.mapPaths_eq_nil hitems]
  | cons item rest =>
    have hhead := MkosiOption.head_mapPaths hf hitems
    have hne : item ≠ [] := MkosiOption.ne_nil_of_mem_items (hitems ▸ List.mem_cons_self)
    have hmap : option.mapPaths value f ≠ [] := by
      intro hnil
      rw [hnil] at hhead
      split_ifs at hhead
      · exact hne (List.head?_eq_none_iff.1 hhead.symm)
      · cases hhead
    rw [hhead]
    by_cases hconstant : item ∈ option.constants
    · simp [hmap, hconstant]
    · simp [hmap, hconstant]

/-- **A rewritten value is read in its place** if it is rereadable. -/
theorem Occurrence.Rereadable.wellRead {o : Occurrence} {value : Str}
    (h : o.Rereadable table isNegativeNumber value) :
    o.WellRead table isNegativeNumber (o.option.mapPaths value f) := by
  unfold Occurrence.Rereadable at h
  unfold Occurrence.WellRead
  split_ifs at h ⊢
  · exact isValue_mapPaths hf h
  · exact (attachedTo_mapPaths_iff hf o.prefix_ o.option value).2 h

/-- **Only a rereadable value** is read in its place. -/
theorem Occurrence.WellRead.rereadable {o : Occurrence} {value : Str}
    (hnumber : ∀ constant ∈ o.option.constants, constant.head? = some '-' → ∀ rest,
      isNegativeNumber (constant ++ ',' :: rest) = false)
    (h : o.WellRead table isNegativeNumber (o.option.mapPaths value f)) :
    o.Rereadable table isNegativeNumber value := by
  unfold Occurrence.WellRead at h
  unfold Occurrence.Rereadable
  split_ifs at h ⊢
  · exact items_of_isValue_mapPaths hf hnumber h
  · exact (attachedTo_mapPaths_iff hf o.prefix_ o.option value).1 h

end

/-! ## Absolute paths in an argument list -/

/-- No path option is missing its value. -/
def PathsGiven (found : List Occurrence) : Prop :=
  ∀ o ∈ found, o.option.path.isSome = true → o.value.isSome = true

theorem PathsGiven.mapped {found : List Occurrence} (h : PathsGiven found) (f : Str → Str) :
    PathsGiven (found.map (Occurrence.mapped f)) := by
  intro o ho hpath
  obtain ⟨old, hold, rfl⟩ := List.mem_map.1 ho
  obtain ⟨value, hvalue⟩ := Option.isSome_iff_exists.1 (h old hold hpath)
  have hmapped : (old.mapped f).value = _ := Occurrence.mappedValue_of_path f hpath hvalue
  rw [hmapped]
  rfl

section
variable {table : Dict Str MkosiOption} {isNegativeNumber : Str → Bool} {cwd : String}
  {arguments result : List Str}

/-- Path options are read where each of them has a value. -/
theorem pathOccurrences_eq_ok {found : List Occurrence} :
    pathOccurrences table isNegativeNumber arguments = .ok found ↔
      PathsGiven (occurrences table isNegativeNumber arguments) ∧
      found = (occurrences table isNegativeNumber arguments).filter fun o => o.option.path.isSome := by
  unfold pathOccurrences
  simp only [bind_eq_ok, raiseIf_eq_ok, pure_eq_ok, List.any_eq_true, List.mem_filter, not_exists,
    exists_unit]
  constructor
  · rintro ⟨hvalues, rfl⟩
    refine ⟨fun o ho hpath => ?_, rfl⟩
    by_contra hnone
    exact hvalues o ⟨⟨ho, hpath⟩, by simpa using hnone⟩
  · rintro ⟨hvalues, rfl⟩
    refine ⟨?_, rfl⟩
    rintro o ⟨⟨ho, hpath⟩, hnone⟩
    have hsome := hvalues o ho hpath
    simp [Option.isNone_iff_eq_none.1 hnone] at hsome

/-- Replacing the values of the path options in turn. -/
theorem foldl_replace (f : Str → Str) : ∀ {found : List Occurrence} (start : List Str),
    PathsGiven found →
      (found.filter fun o => o.option.path.isSome).foldl
        (fun result o => o.replace result (o.option.mapPaths (o.value.getD []) f)) start =
      rewriteFrom f 0 start found
  | [], _, _ => rfl
  | o :: found, start, h => by
    obtain ⟨ho, hfound⟩ := List.forall_mem_cons.1 h
    rw [rewriteFrom_found, Occurrence.rewrite, List.filter_cons]
    by_cases hpath : o.option.path.isSome = true
    · rw [if_pos hpath, List.foldl_cons, foldl_replace f _ hfound, if_pos ⟨hpath, ho hpath⟩]
      rfl
    · rw [if_neg hpath, foldl_replace f _ hfound, if_neg fun h => hpath h.1]

/-- Absolute paths are the rewritten values of all occurrences. -/
theorem absolutePaths_eq_ok :
    absolutePaths table isNegativeNumber cwd arguments = .ok result ↔
      PathsGiven (occurrences table isNegativeNumber arguments) ∧
      result = rewriteFrom (absolute cwd) 0 arguments
        (occurrences table isNegativeNumber arguments) := by
  unfold absolutePaths
  simp only [bind_eq_ok, pathOccurrences_eq_ok, pure_eq_ok]
  constructor
  · rintro ⟨found, ⟨hvalues, rfl⟩, rfl⟩
    exact ⟨hvalues, foldl_replace _ _ hvalues⟩
  · rintro ⟨hvalues, rfl⟩
    exact ⟨_, ⟨hvalues, rfl⟩, foldl_replace _ _ hvalues⟩

/-- The rewritten argument of a path option. -/
theorem getElem?_rewriteFrom_self (f : Str → Str) {o : Occurrence} {value : Str}
    (hpath : o.option.path.isSome = true) (hvalue : o.value = some value) :
    ∀ {found : List Occurrence} {start : List Str}, (found.Pairwise fun o o' => o.index < o'.index) →
      o ∈ found → o.index < start.length →
      (rewriteFrom f 0 start found)[o.index]? = some (o.prefix_ ++ o.option.mapPaths value f)
  | [], _, _, ho, _ => by cases ho
  | first :: found, start, hpairwise, ho, hlength => by
    obtain ⟨hfirst, hfound⟩ := List.pairwise_cons.1 hpairwise
    rw [rewriteFrom_found]
    rcases List.mem_cons.1 ho with rfl | ho
    · rw [getElem?_rewriteFrom f _ fun o' ho' _ _ => (hfirst o' ho').ne', Occurrence.rewrite,
        if_pos ⟨hpath, by rw [hvalue]; rfl⟩, hvalue, Nat.sub_zero, List.getElem?_set_self hlength]
      rfl
    · refine getElem?_rewriteFrom_self f hpath hvalue hfound ho ?_
      rwa [first.length_rewrite]

end

/-! ## What `absolute_paths` promises -/

/-- What is read of an option, wherever its value stands. -/
def Occurrence.reading (o : Occurrence) : MkosiOption × Str × ℕ × Option Str :=
  (o.option, o.spelling, o.index, o.value)

section
variable (table : Dict Str MkosiOption) (isNegativeNumber : Str → Bool) (cwd : String)

/-- The values of an argument list stand in it in order, and its paths can be made absolute without a
    change to anything else. -/
structure Resolves (arguments : List Str) : Prop where
  value : ∀ o ∈ occurrences table isNegativeNumber arguments, ∀ value, o.value = some value →
    arguments[o.index]? = some (o.prefix_ ++ value)
  increasing : (occurrences table isNegativeNumber arguments).Pairwise fun o o' => o.index < o'.index
  unchanged : ∀ result, absolutePaths table isNegativeNumber cwd arguments = .ok result →
    result.length = arguments.length ∧
      ∀ i, (∀ o ∈ occurrences table isNegativeNumber arguments, o.option.path.isSome = true →
        o.value.isSome = true → o.index ≠ i) → result[i]? = arguments[i]?
  reread : ∀ result, absolutePaths table isNegativeNumber cwd arguments = .ok result →
    (occurrences table isNegativeNumber result).map Occurrence.reading =
      (occurrences table isNegativeNumber arguments).map fun o => (o.mapped (absolute cwd)).reading
  declared : ∀ result, absolutePaths table isNegativeNumber cwd arguments = .ok result →
    declaredPaths table isNegativeNumber result =
      (declaredPaths table isNegativeNumber arguments).map (List.map (absolute cwd))
  idempotent : ∀ result, absolutePaths table isNegativeNumber cwd arguments = .ok result →
    absolutePaths table isNegativeNumber cwd result = .ok result

/-- Every path value can be read again, where none is missing. -/
def Rereadable (arguments : List Str) : Prop :=
  PathsGiven (occurrences table isNegativeNumber arguments) →
  ∀ o ∈ occurrences table isNegativeNumber arguments, o.option.path.isSome = true →
    ∀ value ∈ o.value, o.Rereadable table isNegativeNumber value

end

/-- No constant looks like an absolute path. -/
def RelativeConstants (table : Dict Str MkosiOption) : Prop :=
  ∀ item ∈ table, ∀ constant ∈ item.2.constants, constant.head? ≠ some '/'

/-- A constant that starts with a dash, with a comma behind it, is not read as a negative number.  A
    pattern for whole arguments, such as `-\d+` or `-\d*\.\d+`, never does so; one for the front of an
    argument, such as `-\.?\d`, does not if no constant is a negative number itself. -/
def NoNumbers (table : Dict Str MkosiOption) (isNegativeNumber : Str → Bool) : Prop :=
  ∀ item ∈ table, ∀ constant ∈ item.2.constants, constant.head? = some '-' → ∀ rest,
    isNegativeNumber (constant ++ ',' :: rest) = false

section
variable {table : Dict Str MkosiOption} {isNegativeNumber : Str → Bool} {cwd : String}
  {arguments result : List Str}

theorem declaredPaths_eq (hvalues : PathsGiven (occurrences table isNegativeNumber arguments)) :
    declaredPaths table isNegativeNumber arguments =
      .ok (((occurrences table isNegativeNumber arguments).filter fun o => o.option.path.isSome).flatMap
        fun o => o.option.declaredPaths (o.value.getD [])) := by
  rw [declaredPaths, pathOccurrences_eq_ok.2 ⟨hvalues, rfl⟩]
  rfl

section
variable (htable : ValidTable table) (hconstants : RelativeConstants table)
  (hcwd : WorkingDirectory cwd)
include htable

/-- The occurrences in the rewritten arguments, where each value can be read in its place. -/
theorem occurrences_rewritten (f : Str → Str)
    (hkeeps : ∀ o ∈ occurrences table isNegativeNumber arguments, o.Keeps table isNegativeNumber f) :
    occurrences table isNegativeNumber
        (rewriteFrom f 0 arguments (occurrences table isNegativeNumber arguments)) =
      (occurrences table isNegativeNumber arguments).map (Occurrence.mapped f) :=
  ((reading_occurrencesFrom htable 0 arguments).rewritten htable hkeeps).eq htable

include hconstants

theorem constants_of_mem {o : Occurrence} (ho : o ∈ occurrences table isNegativeNumber arguments) :
    ∀ constant ∈ o.option.constants, constant.head? ≠ some '/' :=
  hconstants (o.spelling, o.option)
    (Dict.mem_of_get ((reading_occurrencesFrom htable 0 arguments).known o ho))

include hcwd

/-- The declared paths of the rewritten arguments are absolute. -/
theorem declaredPaths_of_mapped
    (hvalues : PathsGiven (occurrences table isNegativeNumber arguments))
    (hread : occurrences table isNegativeNumber result =
      (occurrences table isNegativeNumber arguments).map (Occurrence.mapped (absolute cwd))) :
    declaredPaths table isNegativeNumber result =
      (declaredPaths table isNegativeNumber arguments).map (List.map (absolute cwd)) := by
  have hvalues' : PathsGiven (occurrences table isNegativeNumber result) := by
    rw [hread]
    exact hvalues.mapped _
  rw [declaredPaths_eq hvalues, declaredPaths_eq hvalues', hread, List.filter_map, List.flatMap_map]
  show Except.ok _ = Except.ok _
  rw [List.map_flatMap]
  refine congrArg Except.ok (List.flatMap_congr fun o ho => ?_)
  obtain ⟨hmem, hpath⟩ := List.mem_filter.1 ho
  obtain ⟨value, hvalue⟩ := Option.isSome_iff_exists.1 (hvalues o hmem hpath)
  have hmapped : (o.mapped (absolute cwd)).value = _ :=
    Occurrence.mappedValue_of_path (absolute cwd) hpath hvalue
  rw [hmapped, hvalue]
  exact MkosiOption.declaredPaths_mapPaths hcwd.makesAbsolute (constants_of_mem htable hconstants hmem)
    value

/-- Absolute paths are left as they are. -/
theorem absolutePaths_of_mapped
    (hvalues : PathsGiven (occurrences table isNegativeNumber arguments))
    (hread : occurrences table isNegativeNumber result =
      (occurrences table isNegativeNumber arguments).map (Occurrence.mapped (absolute cwd))) :
    absolutePaths table isNegativeNumber cwd result = .ok result := by
  refine absolutePaths_eq_ok.2 ⟨?_, (rewriteFrom_of_fixed _ fun o ho => ?_).symm⟩
  · rw [hread]
    exact hvalues.mapped _
  · unfold Occurrence.rewrite
    split_ifs with hpath
    · obtain ⟨old, hold, rfl⟩ := List.mem_map.1 (hread ▸ ho)
      obtain ⟨value, hvalue⟩ := Option.isSome_iff_exists.1 (hvalues old hold hpath.1)
      have hmapped : (old.mapped (absolute cwd)).value = _ :=
        Occurrence.mappedValue_of_path (absolute cwd) hpath.1 hvalue
      obtain ⟨hindex, hget⟩ := List.getElem?_eq_some_iff.1 (occurrences_value htable ho hmapped).1
      have hfixed : old.option.mapPaths (old.option.mapPaths value (absolute cwd)) (absolute cwd) = _ :=
        MkosiOption.mapPaths_mapPaths hcwd.makesAbsolute (constants_of_mem htable hconstants hold) value
      rw [hmapped, Option.getD_some, Nat.sub_zero]
      show result.set (old.mapped (absolute cwd)).index (old.prefix_ ++ old.option.mapPaths
        (old.option.mapPaths value (absolute cwd)) (absolute cwd)) = result
      rw [hfixed]
      have hsame : old.prefix_ ++ old.option.mapPaths value (absolute cwd) = _ := hget.symm
      rw [hsame, List.set_getElem_self hindex]
    · rfl

theorem resolves_of_rereadable (h : Rereadable table isNegativeNumber arguments) :
    Resolves table isNegativeNumber cwd arguments := by
  -- the reading of the rewritten arguments, which the other parts follow from
  have hread : ∀ result, absolutePaths table isNegativeNumber cwd arguments = .ok result →
      PathsGiven (occurrences table isNegativeNumber arguments) ∧
        occurrences table isNegativeNumber result =
          (occurrences table isNegativeNumber arguments).map (Occurrence.mapped (absolute cwd)) := by
    intro result hresult
    obtain ⟨hvalues, rfl⟩ := absolutePaths_eq_ok.1 hresult
    refine ⟨hvalues, occurrences_rewritten htable _ fun o ho hpath value hvalue => ?_⟩
    exact (h hvalues o ho hpath value hvalue).wellRead hcwd.makesAbsolute
  exact {
    value := fun o ho value hvalue => (occurrences_value htable ho hvalue).1
    increasing := occurrences_pairwise htable arguments
    unchanged := by
      intro result hresult
      obtain ⟨-, rfl⟩ := absolutePaths_eq_ok.1 hresult
      exact ⟨length_rewriteFrom _ _, fun i hi => getElem?_rewriteFrom _ _ hi⟩
    reread := by
      intro result hresult
      rw [(hread result hresult).2, List.map_map]
      rfl
    declared := by
      intro result hresult
      obtain ⟨hvalues, hmapped⟩ := hread result hresult
      exact declaredPaths_of_mapped htable hconstants hcwd hvalues hmapped
    idempotent := by
      intro result hresult
      obtain ⟨hvalues, hmapped⟩ := hread result hresult
      exact absolutePaths_of_mapped htable hconstants hcwd hvalues hmapped }

omit hconstants

/-- Values that are read again are rereadable. -/
theorem Resolves.rereadable (hnumber : NoNumbers table isNegativeNumber)
    (h : Resolves table isNegativeNumber cwd arguments) :
    Rereadable table isNegativeNumber arguments := by
  intro hvalues o ho hpath value hvalue
  have hresult : absolutePaths table isNegativeNumber cwd arguments = .ok _ :=
    absolutePaths_eq_ok.2 ⟨hvalues, rfl⟩
  -- the occurrence in the new arguments that has the mapped value
  obtain ⟨new, hnew, hreading⟩ : ∃ new ∈ occurrences table isNegativeNumber
      (rewriteFrom (absolute cwd) 0 arguments (occurrences table isNegativeNumber arguments)),
      new.reading = (o.mapped (absolute cwd)).reading := by
    rw [← List.mem_map, h.reread _ hresult]
    exact List.mem_map.2 ⟨o, ho, rfl⟩
  have hmapped : new.value = some (o.option.mapPaths value (absolute cwd)) :=
    (congrArg (fun r => r.2.2.2) hreading).trans
      (Occurrence.mappedValue_of_path (absolute cwd) hpath hvalue)
  have hindex : new.index = o.index := congrArg (fun r => r.2.2.1) hreading
  obtain ⟨hget, hwell⟩ := occurrences_value htable hnew hmapped
  -- it has the prefix of the old one, since the argument is known
  obtain ⟨hlength, -⟩ := List.getElem?_eq_some_iff.1 (h.value o ho value hvalue)
  rw [hindex, getElem?_rewriteFrom_self _ hpath hvalue h.increasing ho hlength] at hget
  have hfront : o.prefix_ = new.prefix_ := List.append_cancel_right (Option.some.inj hget)
  unfold Occurrence.WellRead at hwell
  rw [← hfront] at hwell
  have hknown := Dict.mem_of_get ((reading_occurrencesFrom htable 0 arguments).known o ho)
  exact Occurrence.WellRead.rereadable hcwd.makesAbsolute (hnumber _ hknown) hwell

end

/-- **`absolute_paths` rewrites the values of path options and nothing else,** in every argument list
    whose path values can be read again: the new list has the same options in the same places, with
    absolute paths, and is left as it is.  Where no constant with a comma behind it is a number, only
    these lists are rewritten so. -/
theorem absolutePaths_resolves (htable : ValidTable table) (hconstants : RelativeConstants table)
    (hcwd : WorkingDirectory cwd) (arguments : List Str) :
    (Rereadable table isNegativeNumber arguments → Resolves table isNegativeNumber cwd arguments) ∧
      (NoNumbers table isNegativeNumber →
        Resolves table isNegativeNumber cwd arguments → Rereadable table isNegativeNumber arguments) :=
  ⟨resolves_of_rereadable htable hconstants hcwd, fun hnumber h => h.rereadable htable hcwd hnumber⟩

end

/-- Some options of mkosi. -/
def someOptions : Dict Str MkosiOption :=
  let include_ : MkosiOption :=
    ⟨"include", .one, some .path, true, ["mkosi-initrd".toList, "mkosi-vm".toList]⟩
  [("-f".toList, ⟨"force", .none, none, false, []⟩), ("-I".toList, include_),
    ("--include".toList, include_),
    ("--extra-tree".toList, ⟨"extra_trees", .one, some .tree, true, []⟩)]

theorem validTable_someOptions : ValidTable someOptions := by
  intro spelling h
  have hmem : spelling = "-f".toList ∨ spelling = "-I".toList ∨ spelling = "--include".toList ∨
      spelling = "--extra-tree".toList := by
    simpa [someOptions, Dict.keys] using h
  rcases hmem with rfl | rfl | rfl | rfl
  · exact .inl ⟨'f', by decide⟩
  · exact .inl ⟨'I', by decide⟩
  · exact .inr ⟨"include".toList, by decide⟩
  · exact .inr ⟨"extra-tree".toList, by decide⟩

theorem relativeConstants_someOptions : RelativeConstants someOptions := by
  unfold RelativeConstants
  decide

theorem workingDirectory_w : WorkingDirectory "/w" := by
  refine ⟨by decide, fun c hc => ?_⟩
  have hmem : c = '/' ∨ c = 'w' := by simpa using hc
  rcases hmem with rfl | rfl
  · exact ⟨by decide, by decide, by decide⟩
  · exact ⟨by decide, by decide, by decide⟩

theorem absolutePaths_resolves_example :
    Resolves someOptions (fun _ => false) "/w" ["-fI,a,b".toList, "-I".toList, "mkosi-vm".toList,
      "--include=".toList, "--extra-tree=t:/u".toList, "build".toList] := by
  refine (absolutePaths_resolves validTable_someOptions relativeConstants_someOptions
    workingDirectory_w _).1 ?_
  unfold Rereadable PathsGiven Occurrence.Rereadable
  decide

/-- A list without items, attached to its letter: the option takes the next argument for its value. -/
theorem absolutePaths_empty_list :
    ValidTable someOptions ∧ RelativeConstants someOptions ∧ WorkingDirectory "/w" ∧
      ¬ Resolves someOptions (fun _ => false) "/w" ["-I,".toList, "build".toList] := by
  refine ⟨validTable_someOptions, relativeConstants_someOptions, workingDirectory_w, fun h => ?_⟩
  have hresult : absolutePaths someOptions (fun _ => false) "/w" ["-I,".toList, "build".toList] =
      .ok ["-I".toList, "build".toList] := by decide
  have hread := h.reread _ hresult
  revert hread
  decide

example : absolutePaths someOptions (fun _ => false) "/w" ["-fI,a,b".toList, "-I".toList,
      "mkosi-vm".toList, "--include=".toList, "--extra-tree=t:/u".toList, "build".toList] =
    .ok ["-fI/w/a,/w/b".toList, "-I".toList, "mkosi-vm".toList, "--include=".toList,
      "--extra-tree=/w/t:/u".toList, "build".toList] := by decide

end RulesMkosi.MkosiOptions
