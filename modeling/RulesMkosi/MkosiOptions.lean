/-
  mkosi options in an argument list (`mkosi/private/mkosi_runner/mkosi_options.py`).

  `occurrences` reads an argument list as mkosi's parser does: an option's value is
  the next argument, or is attached to the option as `--option=value`, `-Ovalue` or
  `-O=value`, also behind single-letter flags.  What the parser takes for a negative
  number is a parameter.
-/
import RulesMkosi.Lib.Dict
import RulesMkosi.Lib.Text

namespace RulesMkosi.MkosiOptions

/-- The number of values that an option takes. -/
inductive Arguments where
  | none
  | one
  | optional
  deriving Repr, DecidableEq

inductive PathKind where
  | path
  /-- `source[:target]` -/
  | tree
  deriving Repr, DecidableEq

/-- An mkosi command-line option. -/
structure MkosiOption where
  dest : String
  arguments : Arguments
  path : Option PathKind
  pathList : Bool
  constants : List Str
  deriving Repr, DecidableEq

/-- `text.partition(separator)` -/
def partition (separator : Char) (text : Str) : Str × Str × Str :=
  match text.dropWhile (· ≠ separator) with
  | [] => (text, [], [])
  | _ :: rest => (text.takeWhile (· ≠ separator), [separator], rest)

namespace MkosiOption

variable (option : MkosiOption)

/-- `_items` -/
def items (value : Str) : List Str :=
  if option.pathList then splitWords (value.map fun c => if c = ',' then ' ' else c)
  else if value = [] then [] else [value]

/-- `_source` -/
def source (item : Str) : Str × Str × Str :=
  if option.path = some .tree then partition ':' item else (item, [], [])

/-- `_map_item` -/
def mapItem (item : Str) (function : Str → Str) : Str :=
  function (option.source item).1 ++ (option.source item).2.1 ++ (option.source item).2.2

/-- The paths in a value, without constants and without the targets of trees. -/
def declaredPaths (value : Str) : List Str :=
  ((option.items value).filter (· ∉ option.constants)).map fun item => (option.source item).1

/-- The items of a value, with the function applied to each path. -/
def mapItems (value : Str) (function : Str → Str) : List Str :=
  (option.items value).map fun item =>
    if item ∈ option.constants then item else option.mapItem item function

def mapPaths (value : Str) (function : Str → Str) : Str :=
  if option.pathList then [','].intercalate (option.mapItems value function)
  else (option.mapItems value function).flatten

end MkosiOption

/-- An option in an argument list; its value is the argument at `index` without the prefix. -/
structure Occurrence where
  option : MkosiOption
  spelling : Str
  index : ℕ
  prefix_ : Str
  value : Option Str
  deriving Repr, DecidableEq

section
-- the options by spelling, and `_is_negative_number`
variable (table : Dict Str MkosiOption) (isNegativeNumber : Str → Bool)

/-- A spelling, the prefix of an attached value, and the attached value. -/
abbrev Parsed := Str × Str × Option Str

def parseOption (argument : Str) : Option Parsed :=
  if (table.get argument).isSome then some (argument, argument, none)
  else if argument.head? ≠ some '-' ∨ argument.length = 1 then none
  else if (partition '=' argument).2.1 ≠ [] ∧ (table.get (partition '=' argument).1).isSome then
    some ((partition '=' argument).1, (partition '=' argument).1 ++ ['='],
      some (partition '=' argument).2.2)
  else if argument[1]? ≠ some '-' ∧ (table.get (argument.take 2)).isSome then
    some (argument.take 2, argument.take 2, some (argument.drop 2))
  else none

/-- `table[spelling].arguments == "none"` -/
def takesNone (spelling : Str) : Bool := (table.get spelling).any (·.arguments = .none)

/-- The loop of `_scan` over the single-letter flags in front of an attached text; `none` where the
    argument is given up. -/
def readFlags : Str → Str → Str → Option Parsed
  | spelling, prefix_, [] => some (spelling, prefix_, some [])
  | spelling, prefix_, c :: '=' :: rest =>
    if takesNone table spelling then
      if prefix_.getLast? = some '=' ∨ (table.get ['-', c]).isSome = false then none
      else readFlags ['-', c] (prefix_ ++ [c, '=']) rest
    else some (spelling, prefix_, some (c :: '=' :: rest))
  | spelling, prefix_, [c] =>
    if takesNone table spelling then
      if prefix_.getLast? = some '=' ∨ (table.get ['-', c]).isSome = false then none
      else some (['-', c], prefix_ ++ [c], none)
    else some (spelling, prefix_, some [c])
  | spelling, prefix_, c :: d :: rest =>
    if takesNone table spelling then
      if prefix_.getLast? = some '=' ∨ (table.get ['-', c]).isSome = false then none
      else readFlags ['-', c] (prefix_ ++ [c]) (d :: rest)
    else some (spelling, prefix_, some (c :: d :: rest))

/-- The option that an argument gives a value or a flag of, with what is attached to it. -/
def readOption (argument : Str) : Option Parsed :=
  match parseOption table argument with
  | none => none
  | some (spelling, prefix_, none) => some (spelling, prefix_, none)
  | some (spelling, prefix_, some explicit) => readFlags table spelling prefix_ explicit

/-- Whether mkosi's parser reads the argument as an option rather than as a value. -/
def isOption (argument : Str) : Bool :=
  if argument.head? ≠ some '-' ∨ argument.length = 1 then false
  else if (parseOption table argument).isSome then true
  else !isNegativeNumber argument && !decide (' ' ∈ argument)

def separator : Str := ['-', '-']

/-- The argument can be the value of the option in front of it. -/
def isValue (argument : Str) : Bool := argument ≠ separator ∧ isOption table isNegativeNumber argument = false

/-- `_scan`: what is found in an argument, and whether the next argument is its value -/
def scan (index : ℕ) (argument : Str) (next : Option Str) : Option Occurrence × Bool :=
  match readOption table argument with
  | none => (none, false)
  | some (spelling, prefix_, explicit) =>
    match table.get spelling with
    | none => (none, false)
    | some current =>
      if current.arguments = .none ∨ explicit.isSome then
        (some ⟨current, spelling, index, prefix_, explicit⟩, false)
      else
        match next with
        | none => (some ⟨current, spelling, index, prefix_, none⟩, false)
        | some following =>
          if isValue table isNegativeNumber following then
            (some ⟨current, spelling, index + 1, [], some following⟩, true)
          else (some ⟨current, spelling, index, prefix_, none⟩, false)

/-- The loop of `occurrences` from the argument at `index` on. -/
def occurrencesFrom : ℕ → List Str → List Occurrence
  | _, [] => []
  | index, [argument] =>
    if argument = separator then []
    else (scan table isNegativeNumber index argument none).1.toList
  | index, argument :: next :: rest =>
    if argument = separator then []
    else
      (scan table isNegativeNumber index argument (some next)).1.toList ++
        if (scan table isNegativeNumber index argument (some next)).2 then occurrencesFrom (index + 2) rest
        else occurrencesFrom (index + 1) (next :: rest)

def occurrences (arguments : List Str) : List Occurrence :=
  occurrencesFrom table isNegativeNumber 0 arguments

end

/-! ## Spellings -/

/-- `-x` or `--name`, without an equals sign. -/
def IsSpelling (spelling : Str) : Prop :=
  (∃ c, spelling = ['-', c] ∧ c ≠ '-' ∧ c ≠ '=') ∨
    ∃ name, spelling = '-' :: '-' :: name ∧ name ≠ [] ∧ '=' ∉ name

def ValidTable (table : Dict Str MkosiOption) : Prop := ∀ spelling ∈ table.keys, IsSpelling spelling

theorem IsSpelling.no_equals {spelling : Str} (h : IsSpelling spelling) : '=' ∉ spelling := by
  rcases h with ⟨c, rfl, -, hc⟩ | ⟨name, rfl, -, hname⟩
  · simpa using hc.symm
  · simpa using hname

theorem IsSpelling.head {spelling : Str} (h : IsSpelling spelling) :
    spelling.head? = some '-' ∧ 2 ≤ spelling.length := by
  rcases h with ⟨c, rfl, -, -⟩ | ⟨name, rfl, -, -⟩
  · simp
  · simp

/-- A text behind a single letter is not part of a spelling. -/
theorem IsSpelling.short {c d : Char} {rest : Str} (hc : c ≠ '-') :
    ¬ IsSpelling ('-' :: c :: d :: rest) := by
  rintro (⟨c', heq, -⟩ | ⟨name, heq, -⟩)
  · cases heq
  · cases heq
    exact hc rfl

theorem partition_append {separator : Char} {before : Str} (h : separator ∉ before) (after : Str) :
    partition separator (before ++ separator :: after) = (before, [separator], after) := by
  have hbefore : ∀ c ∈ before, decide (c ≠ separator) = true := by
    intro c hc
    refine decide_eq_true ?_
    rintro rfl
    exact h hc
  rw [partition, List.dropWhile_append_of_pos hbefore, List.takeWhile_append_of_pos hbefore]
  simp

theorem partition_of_notMem {separator : Char} {text : Str} (h : separator ∉ text) :
    partition separator text = (text, [], []) := by
  have htext : ∀ c ∈ text, decide (c ≠ separator) = true := by
    intro c hc
    refine decide_eq_true ?_
    rintro rfl
    exact h hc
  rw [partition, List.dropWhile_eq_nil_iff.2 htext]

/-- A text is its part before the first separator, or has none. -/
theorem partition_cases (separator : Char) (text : Str) :
    (separator ∉ text ∧ partition separator text = (text, [], [])) ∨
    ∃ before after, separator ∉ before ∧ text = before ++ separator :: after ∧
      partition separator text = (before, [separator], after) := by
  by_cases h : separator ∈ text
  · obtain ⟨before, after, rfl, hbefore⟩ := List.eq_append_cons_of_mem h
    exact .inr ⟨before, after, hbefore, rfl, partition_append hbefore after⟩
  · exact .inl ⟨h, partition_of_notMem h⟩

section
variable {table : Dict Str MkosiOption}

theorem isSpelling_of_get {spelling : Str} (htable : ValidTable table)
    (h : (table.get spelling).isSome = true) : IsSpelling spelling :=
  htable spelling (Dict.get_isSome.1 h)

/-! ## Attached values -/

/-- An attached value does not look like another spelling of the option. -/
def AttachedTo (prefix_ value : Str) : Prop :=
  prefix_.getLast? = some '=' ∨ (value ≠ [] ∧ value.head? ≠ some '=')

theorem readFlags_of_takes {spelling prefix_ : Str} (h : takesNone table spelling = false)
    (explicit : Str) :
    readFlags table spelling prefix_ explicit = some (spelling, prefix_, some explicit) := by
  unfold readFlags
  split
  · rfl
  · simp [h]
  · simp [h]
  · simp [h]

/-- What the flags leave is the rest of the text. -/
theorem readFlags_spec {spelling prefix_ explicit : Str} {result : Parsed}
    (hstart : AttachedTo prefix_ explicit)
    (h : readFlags table spelling prefix_ explicit = some result) :
    result.2.1 ++ result.2.2.getD [] = prefix_ ++ explicit ∧ (prefix_ ≠ [] → result.2.1 ≠ []) ∧
      ∀ value, result.2.2 = some value → AttachedTo result.2.1 value := by
  fun_induction readFlags table spelling prefix_ explicit with
  | case1 spelling prefix_ =>
    cases h
    exact ⟨rfl, id, fun value hvalue => by cases hvalue; exact hstart⟩
  | case2 => cases h
  | case3 spelling prefix_ c rest hflag hgo ih =>
    obtain ⟨happend, hne, hattached⟩ := ih (.inl (by simp)) h
    exact ⟨by rw [happend]; simp, fun _ => hne (by simp), hattached⟩
  | case4 spelling prefix_ c rest hflag =>
    cases h
    exact ⟨rfl, id, fun value hvalue => by cases hvalue; exact hstart⟩
  | case5 => cases h
  | case6 spelling prefix_ c hflag hgo =>
    cases h
    exact ⟨by simp, fun _ => by simp, fun value hvalue => by cases hvalue⟩
  | case7 spelling prefix_ c hflag =>
    cases h
    exact ⟨rfl, id, fun value hvalue => by cases hvalue; exact hstart⟩
  | case8 => cases h
  | case9 spelling prefix_ c d rest hd hflag hgo ih =>
    obtain ⟨happend, hne, hattached⟩ := ih (.inr ⟨by simp, by simpa using hd⟩) h
    exact ⟨by rw [happend]; simp, fun _ => hne (by simp), hattached⟩
  | case10 spelling prefix_ c d rest hd hflag =>
    cases h
    exact ⟨rfl, id, fun value hvalue => by cases hvalue; exact hstart⟩

/-- A flag with another text behind it. -/
theorem readFlags_flag {spelling prefix_ : Str} {c : Char} {text : Str}
    (hflag : takesNone table spelling = true)
    (hgo : ¬ (prefix_.getLast? = some '=' ∨ (table.get ['-', c]).isSome = false))
    (htext : text ≠ []) (hhead : text.head? ≠ some '=') :
    readFlags table spelling prefix_ (c :: text) = readFlags table ['-', c] (prefix_ ++ [c]) text := by
  obtain ⟨d, rest, rfl⟩ := List.exists_cons_of_ne_nil htext
  have hd : d ≠ '=' := by simpa using hhead
  rw [readFlags]
  · rw [if_pos hflag, if_neg hgo]
  · exact hd

/-- **Another value** is read in the place of the one that was attached. -/
theorem readFlags_replace {spelling prefix_ explicit : Str} {result : Parsed} {value other : Str}
    (htable : ValidTable table) (hvalue : result.2.2 = some value)
    (htakes : takesNone table result.1 = false) (hother : AttachedTo result.2.1 other)
    (h : readFlags table spelling prefix_ explicit = some result) :
    ∃ flags, explicit = flags ++ value ∧ result.2.1 = prefix_ ++ flags ∧
      readFlags table spelling prefix_ (flags ++ other) = some (result.1, result.2.1, some other) := by
  fun_induction readFlags table spelling prefix_ explicit with
  | case1 spelling prefix_ =>
    cases h
    cases hvalue
    exact ⟨[], rfl, (List.append_nil _).symm, readFlags_of_takes htakes other⟩
  | case2 => cases h
  | case3 spelling prefix_ c rest hflag hgo ih =>
    obtain ⟨flags, rfl, hfront, hread⟩ := ih h
    refine ⟨c :: '=' :: flags, rfl, by rw [hfront]; simp, ?_⟩
    rw [List.cons_append, List.cons_append, readFlags, if_pos hflag, if_neg hgo, hread]
  | case4 spelling prefix_ c rest hflag =>
    cases h
    cases hvalue
    exact ⟨[], rfl, (List.append_nil _).symm, readFlags_of_takes htakes other⟩
  | case5 => cases h
  | case6 spelling prefix_ c hflag hgo =>
    cases h
    cases hvalue
  | case7 spelling prefix_ c hflag =>
    cases h
    cases hvalue
    exact ⟨[], rfl, (List.append_nil _).symm, readFlags_of_takes htakes other⟩
  | case8 => cases h
  | case9 spelling prefix_ c d rest hd hflag hgo ih =>
    obtain ⟨flags, hrest, hfront, hread⟩ := ih h
    refine ⟨c :: flags, by rw [hrest]; rfl, by rw [hfront]; simp, ?_⟩
    -- the text behind the flag starts with another flag, or with the new value
    have hc : c ≠ '=' := by
      rintro rfl
      have hsome : (table.get ['-', '=']).isSome = true := eq_true_of_ne_false (not_or.1 hgo).2
      exact (isSpelling_of_get htable hsome).no_equals (by simp)
    have htext : flags ++ other ≠ [] ∧ (flags ++ other).head? ≠ some '=' := by
      cases flags with
      | nil =>
        rw [List.append_nil] at hfront
        rw [hfront] at hother
        refine hother.resolve_left ?_
        simpa using hc
      | cons e flags =>
        obtain ⟨rfl, -⟩ := List.cons.inj hrest
        exact ⟨by simp, by simpa using hd⟩
    rw [List.cons_append, readFlags_flag hflag hgo htext.1 htext.2, hread]
  | case10 spelling prefix_ c d rest hd hflag =>
    cases h
    cases hvalue
    exact ⟨[], rfl, (List.append_nil _).symm, readFlags_of_takes htakes other⟩

/-! ## Single arguments -/

theorem parseOption_equals (htable : ValidTable table) {name : Str} (hname : (table.get name).isSome = true)
    (value : Str) : parseOption table (name ++ '=' :: value) = some (name, name ++ ['='], some value) := by
  have hspelling := isSpelling_of_get htable hname
  have hnot : (table.get (name ++ '=' :: value)).isSome = false := by
    rw [Bool.eq_false_iff]
    exact fun hsome => (isSpelling_of_get htable hsome).no_equals (by simp)
  obtain ⟨hhead, hlength⟩ := hspelling.head
  have hdash : ¬ ((name ++ '=' :: value).head? ≠ some '-' ∨ (name ++ '=' :: value).length = 1) := by
    rw [List.head?_append, hhead, List.length_append, List.length_cons]
    rintro (hne | hone)
    · exact hne rfl
    · omega
  rw [parseOption, hnot, if_neg Bool.false_ne_true, if_neg hdash, partition_append hspelling.no_equals,
    if_pos ⟨by simp, hname⟩]

theorem parseOption_letter (htable : ValidTable table) {c : Char} {text : Str} (hc : c ≠ '-')
    (hletter : (table.get ['-', c]).isSome = true) (htext : text ≠ []) (hhead : text.head? ≠ some '=') :
    parseOption table ('-' :: c :: text) = some (['-', c], ['-', c], some text) := by
  obtain ⟨d, rest, rfl⟩ := List.exists_cons_of_ne_nil htext
  have hlong : ∀ {text : Str}, (table.get ('-' :: c :: d :: text)).isSome = false := by
    intro text
    rw [Bool.eq_false_iff]
    exact fun hsome => IsSpelling.short hc (isSpelling_of_get htable hsome)
  have hdash : ¬ (('-' :: c :: d :: rest).head? ≠ some '-' ∨ ('-' :: c :: d :: rest).length = 1) := by
    simp
  have hnoname : ¬ ((partition '=' ('-' :: c :: d :: rest)).2.1 ≠ [] ∧
      (table.get (partition '=' ('-' :: c :: d :: rest)).1).isSome = true) := by
    have hce : c ≠ '=' := by
      rintro rfl
      exact (isSpelling_of_get htable hletter).no_equals (by simp)
    have hde : d ≠ '=' := by simpa using hhead
    rcases partition_cases '=' rest with ⟨hrest, -⟩ | ⟨before, after, hbefore, rfl, -⟩
    · rw [partition_of_notMem (by simp [hce.symm, hde.symm, hrest])]
      simp
    · have hno : '=' ∉ '-' :: c :: d :: before := by simp [hce.symm, hde.symm, hbefore]
      have hpartition : partition '=' ('-' :: c :: d :: (before ++ '=' :: after)) =
          ('-' :: c :: d :: before, ['='], after) := partition_append hno after
      rw [hpartition, hlong]
      simp
  rw [parseOption, hlong, if_neg Bool.false_ne_true, if_neg hdash, if_neg hnoname]
  exact if_pos ⟨by simpa using hc, hletter⟩

/-- The ways to spell an option with a value attached. -/
theorem parseOption_cases (htable : ValidTable table) {argument : Str} {parsed : Parsed}
    (h : parseOption table argument = some parsed) :
    ((table.get argument).isSome = true ∧ parsed = (argument, argument, none)) ∨
    (∃ name value, (table.get name).isSome = true ∧ argument = name ++ '=' :: value ∧
      parsed = (name, name ++ ['='], some value)) ∨
    ∃ c text, c ≠ '-' ∧ (table.get ['-', c]).isSome = true ∧ text ≠ [] ∧ text.head? ≠ some '=' ∧
      argument = '-' :: c :: text ∧ parsed = (['-', c], ['-', c], some text) := by
  unfold parseOption at h
  split_ifs at h with hsome hdash hname hletter
  · cases h
    exact .inl ⟨hsome, rfl⟩
  · right; left
    cases h
    rcases partition_cases '=' argument with ⟨-, hpartition⟩ | ⟨before, after, -, hargument, hpartition⟩
    · rw [hpartition] at hname
      exact absurd rfl hname.1
    · rw [hpartition] at hname ⊢
      exact ⟨before, after, hname.2, hargument, rfl⟩
  · right; right
    cases h
    simp only [not_or, not_not] at hdash
    obtain ⟨c, text, rfl⟩ : ∃ c text, argument = '-' :: c :: text := by
      cases argument with
      | nil => cases hdash.1
      | cons first rest =>
        cases rest with
        | nil => exact absurd rfl hdash.2
        | cons c text =>
          cases hdash.1
          exact ⟨c, text, rfl⟩
    have hc : c ≠ '-' := by simpa using hletter.1
    have hspelling : (table.get ['-', c]).isSome = true := hletter.2
    refine ⟨c, text, hc, hspelling, ?_, ?_, rfl, rfl⟩
    · rintro rfl
      exact hsome hspelling
    · intro hhead
      obtain ⟨rest, rfl⟩ : ∃ rest, text = '=' :: rest := by
        cases text with
        | nil => cases hhead
        | cons d rest =>
          cases hhead
          exact ⟨rest, rfl⟩
      have hpartition : partition '=' ('-' :: c :: '=' :: rest) = (['-', c], ['='], rest) :=
        partition_append (isSpelling_of_get htable hspelling).no_equals rest
      rw [hpartition] at hname
      exact hname ⟨by simp, hspelling⟩

/-- What `_scan` reads of an argument is the whole argument. -/
theorem readOption_spec (htable : ValidTable table) {argument : Str} {result : Parsed}
    (h : readOption table argument = some result) :
    result.2.1 ++ result.2.2.getD [] = argument ∧ result.2.1 ≠ [] ∧
      ∀ value, result.2.2 = some value → AttachedTo result.2.1 value := by
  unfold readOption at h
  split at h
  · cases h
  · next spelling prefix_ hparse =>
    cases h
    rcases parseOption_cases htable hparse with ⟨hsome, heq⟩ | ⟨_, _, _, _, heq⟩ | ⟨_, _, _, _, _, _, _, heq⟩
    · cases heq
      refine ⟨List.append_nil _, fun hnil => ?_, fun value hvalue => by cases hvalue⟩
      have hlength := (isSpelling_of_get htable hsome).head.2
      have hempty : argument = [] := hnil
      rw [hempty] at hlength
      simp at hlength
    · cases heq
    · cases heq
  · next spelling prefix_ explicit hparse =>
    rcases parseOption_cases htable hparse with ⟨_, heq⟩ | ⟨name, value, hname, rfl, heq⟩ |
      ⟨c, text, hc, hletter, htext, hhead, rfl, heq⟩
    · cases heq
    · cases heq
      obtain ⟨happend, hne, hattached⟩ := readFlags_spec (.inl (by simp)) h
      exact ⟨by rw [happend]; simp, hne (by simp), hattached⟩
    · cases heq
      obtain ⟨happend, hne, hattached⟩ := readFlags_spec (.inr ⟨htext, hhead⟩) h
      exact ⟨by rw [happend]; rfl, hne (by simp), hattached⟩

/-- **Another value** in the place of the attached one is read by the same option. -/
theorem readOption_replace (htable : ValidTable table) {argument spelling prefix_ value other : Str}
    (h : readOption table argument = some (spelling, prefix_, some value))
    (htakes : takesNone table spelling = false) (hother : AttachedTo prefix_ other) :
    readOption table (prefix_ ++ other) = some (spelling, prefix_, some other) := by
  unfold readOption at h
  split at h
  · cases h
  · cases h
  · next first start explicit hparse =>
    rcases parseOption_cases htable hparse with ⟨_, heq⟩ | ⟨name, text, hname, rfl, heq⟩ |
      ⟨c, text, hc, hletter, htext, hhead, rfl, heq⟩
    · cases heq
    · obtain ⟨rfl, hrest⟩ := Prod.mk.inj heq
      obtain ⟨rfl, hexplicit⟩ := Prod.mk.inj hrest
      cases hexplicit
      obtain ⟨flags, -, hfront, hread⟩ := readFlags_replace htable rfl htakes hother h
      have hargument : prefix_ ++ other = first ++ '=' :: (flags ++ other) := by
        rw [show prefix_ = first ++ ['='] ++ flags from hfront]
        simp
      have hparsed := parseOption_equals htable hname (flags ++ other)
      rw [hargument, readOption, hparsed]
      exact hread
    · obtain ⟨rfl, hrest⟩ := Prod.mk.inj heq
      obtain ⟨rfl, hexplicit⟩ := Prod.mk.inj hrest
      cases hexplicit
      obtain ⟨flags, htext', hfront, hread⟩ := readFlags_replace htable rfl htakes hother h
      have hfront' : prefix_ = ['-', c] ++ flags := hfront
      have hargument : prefix_ ++ other = '-' :: c :: (flags ++ other) := by
        rw [hfront']
        rfl
      have hstart : flags ++ other ≠ [] ∧ (flags ++ other).head? ≠ some '=' := by
        cases flags with
        | nil =>
          rw [List.append_nil] at hfront'
          rw [hfront'] at hother
          refine hother.resolve_left fun hlast => ?_
          have hce : c = '=' := by simpa using hlast
          rw [hce] at hletter
          exact (isSpelling_of_get htable hletter).no_equals (by simp)
        | cons e flags =>
          rw [htext'] at hhead
          exact ⟨by simp, by simpa using hhead⟩
      have hparsed := parseOption_letter htable hc hletter hstart.1 hstart.2
      rw [hargument, readOption, hparsed]
      exact hread

/-- A flag has no value, or an empty one. -/
theorem readFlags_flag_value {spelling prefix_ explicit : Str} {result : Parsed}
    (h : readFlags table spelling prefix_ explicit = some result)
    (hflag : takesNone table result.1 = true) {value : Str} (hvalue : result.2.2 = some value) :
    value = [] := by
  fun_induction readFlags table spelling prefix_ explicit with
  | case1 =>
    cases h
    cases hvalue
    rfl
  | case2 => cases h
  | case3 spelling prefix_ c rest hflag' hgo ih => exact ih h
  | case4 spelling prefix_ c rest hnot =>
    cases h
    exact absurd hflag hnot
  | case5 => cases h
  | case6 =>
    cases h
    cases hvalue
  | case7 spelling prefix_ c hnot =>
    cases h
    exact absurd hflag hnot
  | case8 => cases h
  | case9 spelling prefix_ c d rest hd hflag' hgo ih => exact ih h
  | case10 spelling prefix_ c d rest hd hnot =>
    cases h
    exact absurd hflag hnot

theorem readOption_flag_value {argument spelling prefix_ value : Str}
    (h : readOption table argument = some (spelling, prefix_, some value))
    (hflag : takesNone table spelling = true) : value = [] := by
  unfold readOption at h
  split at h
  · cases h
  · cases h
  · exact readFlags_flag_value h hflag rfl

/-- The spelling that is read is one of the table. -/
theorem readFlags_known {spelling prefix_ explicit : Str} {result : Parsed}
    (hspelling : (table.get spelling).isSome = true)
    (h : readFlags table spelling prefix_ explicit = some result) :
    (table.get result.1).isSome = true := by
  fun_induction readFlags table spelling prefix_ explicit with
  | case1 => cases h; exact hspelling
  | case2 => cases h
  | case3 spelling prefix_ c rest hflag hgo ih => exact ih (eq_true_of_ne_false (not_or.1 hgo).2) h
  | case4 => cases h; exact hspelling
  | case5 => cases h
  | case6 spelling prefix_ c hflag hgo => cases h; exact eq_true_of_ne_false (not_or.1 hgo).2
  | case7 => cases h; exact hspelling
  | case8 => cases h
  | case9 spelling prefix_ c d rest hd hflag hgo ih => exact ih (eq_true_of_ne_false (not_or.1 hgo).2) h
  | case10 => cases h; exact hspelling

theorem parseOption_known (htable : ValidTable table) {argument : Str} {parsed : Parsed}
    (h : parseOption table argument = some parsed) : (table.get parsed.1).isSome = true := by
  rcases parseOption_cases htable h with ⟨hsome, rfl⟩ | ⟨name, value, hname, -, rfl⟩ |
    ⟨c, text, -, hletter, -, -, -, rfl⟩
  · exact hsome
  · exact hname
  · exact hletter

theorem readOption_known (htable : ValidTable table) {argument : Str} {result : Parsed}
    (h : readOption table argument = some result) : ∃ current, table.get result.1 = some current := by
  refine Option.isSome_iff_exists.1 ?_
  unfold readOption at h
  split at h
  · cases h
  · next hparse =>
    cases h
    exact parseOption_known htable hparse
  · next hparse => exact readFlags_known (parseOption_known htable hparse) h

/-- An argument that names an option starts with a dash. -/
theorem parseOption_dash (htable : ValidTable table) {argument : Str}
    (h : (parseOption table argument).isSome = true) :
    argument.head? = some '-' ∧ 2 ≤ argument.length := by
  obtain ⟨parsed, hparsed⟩ := Option.isSome_iff_exists.1 h
  rcases parseOption_cases htable hparsed with ⟨hsome, -⟩ | ⟨name, value, hname, rfl, -⟩ |
    ⟨c, text, -, -, -, -, rfl, -⟩
  · exact (isSpelling_of_get htable hsome).head
  · obtain ⟨hhead, hlength⟩ := (isSpelling_of_get htable hname).head
    rw [List.head?_append, hhead, List.length_append]
    exact ⟨rfl, by omega⟩
  · simp

theorem parseOption_separator (htable : ValidTable table) : parseOption table separator = none := by
  have hnot : (table.get separator).isSome = false := by
    rw [Bool.eq_false_iff]
    intro hsome
    rcases isSpelling_of_get htable hsome with ⟨c, heq, hc, -⟩ | ⟨name, heq, hname, -⟩
    · cases heq
      exact hc rfl
    · cases heq
      exact hname rfl
  rw [parseOption, hnot]
  rfl

theorem readOption_separator (htable : ValidTable table) : readOption table separator = none := by
  rw [readOption, parseOption_separator htable]

/-! ## Values -/

section
variable {isNegativeNumber : Str → Bool}

/-- A text that does not start with a dash is a value. -/
theorem isValue_of_head {text : Str} (h : text.head? ≠ some '-') :
    isValue table isNegativeNumber text = true := by
  have hseparator : text ≠ separator := by
    rintro rfl
    exact h rfl
  have hoption : isOption table isNegativeNumber text = false := if_pos (.inl h)
  exact decide_eq_true ⟨hseparator, hoption⟩

/-- An argument that is read as an option is not a value. -/
theorem isValue_of_readOption (htable : ValidTable table) {argument : Str} {parsed : Parsed}
    (hread : readOption table argument = some parsed) :
    isValue table isNegativeNumber argument = false := by
  have h : (parseOption table argument).isSome = true := by
    cases hparse : parseOption table argument with
    | none =>
      rw [readOption, hparse] at hread
      cases hread
    | some parsed => rfl
  obtain ⟨hhead, hlength⟩ := parseOption_dash htable h
  have hdash : ¬ (argument.head? ≠ some '-' ∨ argument.length = 1) := by
    rintro (hne | hone)
    · exact hne hhead
    · omega
  have hoption : isOption table isNegativeNumber argument = true := by
    rw [isOption, if_neg hdash, if_pos h]
  simp [isValue, hoption]

end

/-! ## Whole argument lists -/

section
variable (table) (isNegativeNumber : Str → Bool)

/-- The reading of the arguments from `index` on: each constructor is a way for the parser to go on. -/
inductive Reading : ℕ → List Str → List Occurrence → Prop where
  | nil (index : ℕ) : Reading index [] []
  | stop (index : ℕ) (rest : List Str) : Reading index (separator :: rest) []
  | skip {index : ℕ} {argument : Str} {rest : List Str} {found : List Occurrence} :
    argument ≠ separator → readOption table argument = none → Reading (index + 1) rest found →
      Reading index (argument :: rest) found
  | here {index : ℕ} {argument : Str} {rest : List Str} {found : List Occurrence}
      {current : MkosiOption} {spelling prefix_ : Str} {explicit : Option Str} :
    readOption table argument = some (spelling, prefix_, explicit) →
      table.get spelling = some current → (current.arguments = .none ∨ explicit.isSome) →
      Reading (index + 1) rest found →
      Reading index (argument :: rest) (⟨current, spelling, index, prefix_, explicit⟩ :: found)
  | next {index : ℕ} {argument value : Str} {rest : List Str} {found : List Occurrence}
      {current : MkosiOption} {spelling prefix_ : Str} :
    readOption table argument = some (spelling, prefix_, none) →
      table.get spelling = some current → current.arguments ≠ .none →
      isValue table isNegativeNumber value = true → Reading (index + 2) rest found →
      Reading index (argument :: value :: rest)
        (⟨current, spelling, index + 1, [], some value⟩ :: found)
  | missing {index : ℕ} {argument : Str} {rest : List Str} {found : List Occurrence}
      {current : MkosiOption} {spelling prefix_ : Str} :
    readOption table argument = some (spelling, prefix_, none) →
      table.get spelling = some current → current.arguments ≠ .none →
      (∀ value ∈ rest.head?, isValue table isNegativeNumber value = false) →
      Reading (index + 1) rest found →
      Reading index (argument :: rest) (⟨current, spelling, index, prefix_, none⟩ :: found)

end

section
variable {isNegativeNumber : Str → Bool}

/-- `occurrences` at an argument, with or without one behind it. -/
theorem occurrencesFrom_cons {index : ℕ} {argument : Str} (hargument : argument ≠ separator)
    (rest : List Str) :
    occurrencesFrom table isNegativeNumber index (argument :: rest) =
      (scan table isNegativeNumber index argument rest.head?).1.toList ++
        if (scan table isNegativeNumber index argument rest.head?).2 then
          occurrencesFrom table isNegativeNumber (index + 2) rest.tail
        else occurrencesFrom table isNegativeNumber (index + 1) rest := by
  cases rest with
  | nil => simp [occurrencesFrom, hargument]
  | cons following rest =>
    rw [occurrencesFrom, if_neg hargument]
    rfl

theorem scan_skip {index : ℕ} {argument : Str} (h : readOption table argument = none)
    (following : Option Str) :
    scan table isNegativeNumber index argument following = (none, false) := by
  rw [scan, h]

theorem scan_here {index : ℕ} {argument spelling prefix_ : Str} {explicit : Option Str}
    {current : MkosiOption} (h : readOption table argument = some (spelling, prefix_, explicit))
    (hcurrent : table.get spelling = some current)
    (hdone : current.arguments = .none ∨ explicit.isSome) (following : Option Str) :
    scan table isNegativeNumber index argument following =
      (some ⟨current, spelling, index, prefix_, explicit⟩, false) := by
  rw [scan, h]
  dsimp only
  rw [hcurrent]
  exact if_pos hdone

section
variable {index : ℕ} {argument spelling prefix_ : Str} {current : MkosiOption}
  (h : readOption table argument = some (spelling, prefix_, none))
  (hcurrent : table.get spelling = some current) (htakes : current.arguments ≠ .none)
include h hcurrent htakes

theorem scan_next {value : Str} (hvalue : isValue table isNegativeNumber value = true) :
    scan table isNegativeNumber index argument (some value) =
      (some ⟨current, spelling, index + 1, [], some value⟩, true) := by
  rw [scan, h]
  dsimp only
  rw [hcurrent]
  dsimp only
  rw [if_neg (by simpa using htakes), if_pos hvalue]

theorem scan_missing {following : Option Str}
    (hvalue : ∀ value ∈ following, isValue table isNegativeNumber value = false) :
    scan table isNegativeNumber index argument following =
      (some ⟨current, spelling, index, prefix_, none⟩, false) := by
  rw [scan, h]
  dsimp only
  rw [hcurrent]
  dsimp only
  rw [if_neg (by simpa using htakes)]
  cases following with
  | none => rfl
  | some value =>
    dsimp only
    rw [if_neg (by rw [hvalue value rfl]; exact Bool.false_ne_true)]

end

theorem Reading.eq (htable : ValidTable table) {index : ℕ} {arguments : List Str}
    {found : List Occurrence} (h : Reading table isNegativeNumber index arguments found) :
    occurrencesFrom table isNegativeNumber index arguments = found := by
  have hnot : ∀ {argument : Str} {parsed : Parsed}, readOption table argument = some parsed →
      argument ≠ separator := by
    rintro argument parsed hread rfl
    rw [readOption_separator htable] at hread
    cases hread
  induction h with
  | nil index => rfl
  | stop index rest => cases rest <;> exact if_pos rfl
  | skip hargument hread hrest ih =>
    rw [occurrencesFrom_cons hargument, scan_skip hread]
    exact ih
  | here hread hcurrent hdone hrest ih =>
    rw [occurrencesFrom_cons (hnot hread), scan_here hread hcurrent hdone]
    exact congrArg _ ih
  | next hread hcurrent htakes hvalue hrest ih =>
    rw [occurrencesFrom_cons (hnot hread), List.head?_cons, scan_next hread hcurrent htakes hvalue]
    exact congrArg _ ih
  | missing hread hcurrent htakes hvalue hrest ih =>
    rw [occurrencesFrom_cons (hnot hread), scan_missing hread hcurrent htakes hvalue]
    exact congrArg _ ih

theorem exists_reading_cons (htable : ValidTable table) {index : ℕ} {rest : List Str}
    (hrest : ∃ found, Reading table isNegativeNumber (index + 1) rest found)
    (hnext : ∃ found, Reading table isNegativeNumber (index + 2) rest.tail found) (argument : Str) :
    ∃ found, Reading table isNegativeNumber index (argument :: rest) found := by
  obtain ⟨found, hrest⟩ := hrest
  by_cases hargument : argument = separator
  · rw [hargument]
    exact ⟨[], .stop index rest⟩
  cases hread : readOption table argument with
  | none => exact ⟨found, .skip hargument hread hrest⟩
  | some parsed =>
    obtain ⟨spelling, prefix_, explicit⟩ := parsed
    obtain ⟨current, hcurrent⟩ := readOption_known htable hread
    by_cases hdone : current.arguments = .none ∨ explicit.isSome
    · exact ⟨_, .here hread hcurrent hdone hrest⟩
    obtain ⟨htakes, hexplicit⟩ := not_or.1 hdone
    rw [Option.not_isSome_iff_eq_none.1 hexplicit] at hread
    by_cases hvalue : ∃ value ∈ rest.head?, isValue table isNegativeNumber value = true
    · obtain ⟨value, hhead, hvalue⟩ := hvalue
      obtain ⟨found, hnext⟩ := hnext
      rw [← List.cons_head?_tail hhead]
      exact ⟨_, .next hread hcurrent htakes hvalue hnext⟩
    · exact ⟨_, .missing hread hcurrent htakes (by simpa using hvalue) hrest⟩

/-- Every argument list has a reading. -/
theorem exists_reading (htable : ValidTable table) : ∀ (index : ℕ) (arguments : List Str),
    ∃ found, Reading table isNegativeNumber index arguments found
  | index, [] => ⟨[], .nil index⟩
  | index, [argument] =>
    exists_reading_cons htable ⟨[], .nil (index + 1)⟩ ⟨[], .nil (index + 2)⟩ argument
  | index, argument :: following :: rest =>
    exists_reading_cons htable (exists_reading htable (index + 1) (following :: rest))
      (exists_reading htable (index + 2) rest) argument

/-- **The loop reads the arguments** as the relation says. -/
theorem reading_occurrencesFrom (htable : ValidTable table) (index : ℕ) (arguments : List Str) :
    Reading table isNegativeNumber index arguments
      (occurrencesFrom table isNegativeNumber index arguments) := by
  obtain ⟨found, hfound⟩ := exists_reading htable index arguments
  rwa [hfound.eq htable]

/-- The value of an occurrence can be read where it stands. -/
def Occurrence.WellRead (table : Dict Str MkosiOption) (isNegativeNumber : Str → Bool)
    (o : Occurrence) (value : Str) : Prop :=
  if o.prefix_ = [] then isValue table isNegativeNumber value = true else AttachedTo o.prefix_ value

/-- An occurrence has the option of its spelling. -/
theorem Reading.known {index : ℕ} {arguments : List Str} {found : List Occurrence}
    (h : Reading table isNegativeNumber index arguments found) :
    ∀ o ∈ found, table.get o.spelling = some o.option := by
  induction h with
  | nil index => simp
  | stop index rest => simp
  | skip _ _ _ ih => exact ih
  | here _ hcurrent _ _ ih => exact List.forall_mem_cons.2 ⟨hcurrent, ih⟩
  | next _ hcurrent _ _ _ ih => exact List.forall_mem_cons.2 ⟨hcurrent, ih⟩
  | missing _ hcurrent _ _ _ ih => exact List.forall_mem_cons.2 ⟨hcurrent, ih⟩

/-- The occurrences of later arguments have later indexes. -/
theorem Reading.le_index {index : ℕ} {arguments : List Str} {found : List Occurrence}
    (h : Reading table isNegativeNumber index arguments found) : ∀ o ∈ found, index ≤ o.index := by
  induction h with
  | nil index => simp
  | stop index rest => simp
  | skip _ _ _ ih => exact fun o ho => Nat.le_of_succ_le (ih o ho)
  | here _ _ _ _ ih =>
    exact List.forall_mem_cons.2 ⟨Nat.le_refl _, fun o ho => Nat.le_of_succ_le (ih o ho)⟩
  | next _ _ _ _ _ ih =>
    refine List.forall_mem_cons.2 ⟨Nat.le_succ _, fun o ho => ?_⟩
    have hle := ih o ho
    omega
  | missing _ _ _ _ _ ih =>
    exact List.forall_mem_cons.2 ⟨Nat.le_refl _, fun o ho => Nat.le_of_succ_le (ih o ho)⟩

theorem Reading.pairwise {index : ℕ} {arguments : List Str} {found : List Occurrence}
    (h : Reading table isNegativeNumber index arguments found) :
    found.Pairwise fun o o' => o.index < o'.index := by
  induction h with
  | nil index => exact .nil
  | stop index rest => exact .nil
  | skip _ _ _ ih => exact ih
  | here _ _ _ hrest ih => exact .cons hrest.le_index ih
  | next _ _ _ _ hrest ih => exact .cons hrest.le_index ih
  | missing _ _ _ _ hrest ih => exact .cons hrest.le_index ih

/-- A value is an argument without the prefix, and can be read there. -/
theorem Reading.value (htable : ValidTable table) {index : ℕ} {arguments : List Str}
    {found : List Occurrence} (h : Reading table isNegativeNumber index arguments found) :
    ∀ o ∈ found, ∀ value, o.value = some value →
      arguments[o.index - index]? = some (o.prefix_ ++ value) ∧
        o.WellRead table isNegativeNumber value := by
  -- the facts about the rest, at the indexes of the whole list
  have hlater : ∀ {index index' : ℕ} {rest arguments : List Str} {o : Occurrence} {value : Str},
      arguments.drop (index' - index) = rest → index ≤ index' → index' ≤ o.index →
      rest[o.index - index']? = some (o.prefix_ ++ value) →
      arguments[o.index - index]? = some (o.prefix_ ++ value) := by
    rintro index index' rest arguments o value rfl hle hindex hget
    rw [List.getElem?_drop] at hget
    rwa [show o.index - index = index' - index + (o.index - index') by omega]
  induction h with
  | nil index => simp
  | stop index rest => simp
  | @skip index argument rest found _ _ hrest ih =>
    intro o ho value hvalue
    obtain ⟨hget, hwell⟩ := ih o ho value hvalue
    exact ⟨hlater (by simp) (Nat.le_succ index) (hrest.le_index o ho) hget, hwell⟩
  | @here index argument rest found current spelling prefix_ explicit hread _ _ hrest ih =>
    intro o ho value hvalue
    rcases List.mem_cons.1 ho with rfl | ho
    · obtain ⟨happend, hne, hattached⟩ := readOption_spec htable hread
      cases hvalue
      refine ⟨?_, ?_⟩
      · rw [Nat.sub_self, List.getElem?_cons_zero]
        exact congrArg some happend.symm
      · rw [Occurrence.WellRead, if_neg hne]
        exact hattached value rfl
    · obtain ⟨hget, hwell⟩ := ih o ho value hvalue
      exact ⟨hlater (by simp) (Nat.le_succ index) (hrest.le_index o ho) hget, hwell⟩
  | @next index argument text rest found current spelling prefix_ _ _ _ htext hrest ih =>
    intro o ho value hvalue
    rcases List.mem_cons.1 ho with rfl | ho
    · cases hvalue
      refine ⟨?_, ?_⟩
      · rw [Nat.add_sub_cancel_left]
        rfl
      · rw [Occurrence.WellRead, if_pos rfl]
        exact htext
    · obtain ⟨hget, hwell⟩ := ih o ho value hvalue
      exact ⟨hlater (by simp) (Nat.le_add_right index 2) (hrest.le_index o ho) hget, hwell⟩
  | @missing index argument rest found current spelling prefix_ _ _ _ _ hrest ih =>
    intro o ho value hvalue
    rcases List.mem_cons.1 ho with rfl | ho
    · cases hvalue
    · obtain ⟨hget, hwell⟩ := ih o ho value hvalue
      exact ⟨hlater (by simp) (Nat.le_succ index) (hrest.le_index o ho) hget, hwell⟩

/-- **Values stand in the argument list** at increasing indexes. -/
theorem occurrences_pairwise (htable : ValidTable table) (arguments : List Str) :
    (occurrences table isNegativeNumber arguments).Pairwise fun o o' => o.index < o'.index :=
  (reading_occurrencesFrom htable 0 arguments).pairwise

theorem occurrences_value (htable : ValidTable table) {arguments : List Str} {o : Occurrence}
    (ho : o ∈ occurrences table isNegativeNumber arguments) {value : Str}
    (hvalue : o.value = some value) :
    arguments[o.index]? = some (o.prefix_ ++ value) ∧ o.WellRead table isNegativeNumber value :=
  (reading_occurrencesFrom htable 0 arguments).value htable o ho value hvalue

end

end

end RulesMkosi.MkosiOptions
