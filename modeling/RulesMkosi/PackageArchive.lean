/-
  The members of a Debian package (`mkosi/debian/package_archive.py`).

  `_ar_members` is a generator that advances by the size that a member's header
  states.  The size is read with Python's `int`, which accepts a sign, so the
  offset is an integer: a negative size moves it back, and a negative offset
  counts from the end of the data.  `arMembers` runs the generator for a number
  of rounds.
-/
import RulesMkosi.Lib.Codec
import RulesMkosi.Lib.Text
import RulesMkosi.Lib.Extent
import Mathlib.Data.List.DropRight

namespace RulesMkosi.PackageArchive

/-! ## Python's integers and slices -/

/-- The digits of a number: single underscores may stand between them.  `value` is the number read
    so far, and `digit` says whether a digit was read last. -/
def readDigits : ℕ → Bool → Str → Option ℕ
  | value, digit, [] => if digit then some value else none
  | value, digit, c :: rest =>
    if c = '_' then if digit then readDigits value false rest else none
    else match decimalValue c with
      | some d => readDigits (10 * value + d) true rest
      | none => none

/-- `int(s)`; `none` where it raises.  (The limit on the number of digits is out of reach of the
    ten characters of a size.) -/
def parseInt (s : Str) : Option ℤ :=
  match strip s with
  | '-' :: digits => (readDigits 0 false digits).map fun n => -(n : ℤ)
  | '+' :: digits => (readDigits 0 false digits).map fun n => (n : ℤ)
  | digits => (readDigits 0 false digits).map fun n => (n : ℤ)

/-- A bound of a slice: a negative one counts from the end. -/
def sliceBound (length : ℕ) (i : ℤ) : ℕ := if i < 0 then (i + length).toNat else i.toNat

/-- `data[a:b]` for integers `a` and `b` -/
def pySlice (data : Bytes) (a b : ℤ) : Bytes :=
  slice data (sliceBound data.length a) (sliceBound data.length b)

/-! ## Members -/

/-- ``b"!<arch>\n"`` -/
def arMagic : Bytes := [0x21, 0x3C, 0x61, 0x72, 0x63, 0x68, 0x3E, 0x0A]

/-- The two bytes at the end of a header. -/
def headerEnd : Bytes := [0x60, 0x0A]

/-- A yielded member, with the offset of its header and the range of its content. -/
structure ArMember where
  header : ℤ
  name : Str
  start : ℤ
  stop : ℤ
  content : Bytes
  deriving Repr, DecidableEq

/-- The size that a header states. -/
def headerSize (header : Bytes) : Except Exn ℤ := do
  let text ← decodeAscii (slice header 48 58)
  match parseInt (strip text) with
  | some size => .ok size
  | none => .error (.valueError "invalid literal for int() with base 10")

/-- The loop body up to the `yield`. -/
def arMember (data : Bytes) (offset : ℤ) : Except Exn ArMember := do
  raiseIf ((data.length : ℤ) < offset + 60) (.valueError "truncated Debian ar header")
  let header := pySlice data offset (offset + 60)
  raiseIf (slice header 58 60 ≠ headerEnd) (.valueError "invalid Debian ar header")
  let name ← decodeAscii (header.take 16)
  let size ← headerSize header
  let start := offset + 60
  let stop := start + size
  raiseIf ((data.length : ℤ) < stop) (.valueError "truncated Debian ar member")
  return ⟨offset, (strip name).rdropWhile (· = '/'), start, stop, pySlice data start stop⟩

/-- The offset of the header after a member; `end & 1` is the remainder also of a negative end. -/
def ArMember.next (member : ArMember) : ℤ := member.stop + member.stop % 2

/-- The generator from `offset` on, for a number of rounds: the members that it yields and how it
    ends, `none` if it goes on. -/
def arLoop (data : Bytes) : ℕ → ℤ → List ArMember × Option (Except Exn Unit)
  | 0, _ => ([], none)
  | rounds + 1, offset =>
    if offset < data.length then
      match arMember data offset with
      | .error e => ([], some (.error e))
      | .ok member =>
        let rest := arLoop data rounds member.next
        (member :: rest.1, rest.2)
    else ([], some (.ok ()))

def arMembers (data : Bytes) (rounds : ℕ) : List ArMember × Option (Except Exn Unit) :=
  if data.take 8 = arMagic then arLoop data rounds 8
  else ([], some (.error (.valueError "not a Debian ar archive")))

/-- `_package_data`, which stops at the first data archive; `none` if no round gets there. -/
def packageData (data : Bytes) (rounds : ℕ) : Option (Except Exn Bytes) :=
  let run := arMembers data rounds
  match run.1.find? fun member => "data.tar".toList.isPrefixOf member.name with
  | some member => some (.ok member.content)
  | none => run.2.map fun outcome =>
    outcome.bind fun _ => .error (.valueError "Debian package has no data archive")

/-! ## Ranges -/

/-- The exceptions that are a `ValueError`. -/
def IsValueError : Exn → Prop
  | .valueError _ => True
  | .unicodeError _ => True
  | _ => False

/-- The content of a member is a range of the data, right after the member's header. -/
structure ArMember.Inside (data : Bytes) (member : ArMember) : Prop where
  header : 8 ≤ member.header
  start : member.start = member.header + 60
  range : member.start ≤ member.stop
  stop : member.stop ≤ data.length
  content : member.content = slice data member.start.toNat member.stop.toNat

/-- The generator ends, and the members that it yields are ranges of the data in increasing order. -/
structure Parses (data : Bytes) : Prop where
  ends : ∃ rounds outcome, (arMembers data rounds).2 = some outcome ∧
    ∀ e, outcome = .error e → IsValueError e
  inside : ∀ rounds, ∀ member ∈ (arMembers data rounds).1, member.Inside data
  order : ∀ rounds, (arMembers data rounds).1.Pairwise fun m m' => m.stop ≤ m'.header
  disjoint : ∀ rounds, (arMembers data rounds).1.Pairwise fun m m' =>
    Disjoint (Set.Ico m.start m.stop) (Set.Ico m'.start m'.stop)

/-- The size that the header at `offset` states; `none` if there is no well-formed header. -/
def sizeAt (data : Bytes) (offset : ℕ) : Option ℤ :=
  let header := slice data offset (offset + 60)
  if offset + 60 ≤ data.length ∧ slice header 58 60 = headerEnd ∧
      (header.take 16).all (·.toNat < 0x80) ∧ (slice header 48 58).all (·.toNat < 0x80) then
    parseInt (strip ((slice header 48 58).map fun b => Char.ofNat b.toNat))
  else none

/-- The offsets of the headers, found by following the sizes from the first one. -/
inductive HeaderAt (data : Bytes) : ℕ → Prop
  | first (h : data.take 8 = arMagic) : HeaderAt data 8
  | next {offset size : ℕ} (h : HeaderAt data offset) (hsize : sizeAt data offset = some (size : ℤ))
      (hfits : offset + 60 + size ≤ data.length) :
      HeaderAt data (offset + 60 + size + (offset + 60 + size) % 2)

/-- No header states a negative size. -/
def NoNegativeSize (data : Bytes) : Prop :=
  ∀ offset size, HeaderAt data offset → sizeAt data offset = some size → 0 ≤ size

theorem HeaderAt.ge {data : Bytes} {offset : ℕ} (h : HeaderAt data offset) : 8 ≤ offset := by
  induction h with
  | first _ => exact le_rfl
  | next _ _ _ ih => omega

/-! ## One round -/

theorem pySlice_ofNat (data : Bytes) (a b : ℕ) : pySlice data a b = slice data a b := by
  have hbound : ∀ i : ℕ, sliceBound data.length (i : ℤ) = i := fun i => by
    rw [sliceBound, if_neg (by omega), Int.toNat_natCast]
  rw [pySlice, hbound, hbound]

theorem headerSize_eq_ok {header : Bytes} {size : ℤ} : headerSize header = .ok size ↔
    (∀ b ∈ slice header 48 58, b.toNat < 0x80) ∧
      parseInt (strip ((slice header 48 58).map fun b => Char.ofNat b.toNat)) = some size := by
  simp only [headerSize, bind_eq_ok, decodeAscii_eq_ok]
  constructor
  · rintro ⟨text, ⟨hascii, rfl⟩, h⟩
    refine ⟨hascii, ?_⟩
    split at h
    · next hparse => rw [hparse, Except.ok.inj h]
    · cases h
  · rintro ⟨hascii, hparse⟩
    refine ⟨_, ⟨hascii, rfl⟩, ?_⟩
    rw [hparse]

section
variable {data : Bytes}

/-- A member is yielded for a header with a size that fits the data. -/
theorem arMember_eq_ok {offset : ℕ} {member : ArMember} (h : arMember data offset = .ok member) :
    ∃ size, sizeAt data offset = some size ∧ offset + 60 + size ≤ data.length ∧
      member.header = offset ∧ member.start = offset + 60 ∧ member.stop = offset + 60 + size ∧
      member.content = pySlice data (offset + 60) (offset + 60 + size) := by
  have hslice : pySlice data offset (offset + 60) = slice data offset (offset + 60) := by
    exact_mod_cast pySlice_ofNat data offset (offset + 60)
  simp only [arMember, hslice, bind_eq_ok, exists_unit, raiseIf_eq_ok, pure_eq_ok, not_lt, not_not,
    decodeAscii_eq_ok, headerSize_eq_ok] at h
  obtain ⟨hheader, hend, name, ⟨hname, -⟩, size, ⟨hascii, hparse⟩, hfits, rfl⟩ := h
  refine ⟨size, ?_, hfits, rfl, rfl, rfl, rfl⟩
  simp only [sizeAt, List.all_eq_true, decide_eq_true_eq]
  exact (if_pos ⟨by omega, hend, hname, hascii⟩).trans hparse

theorem exists_arMember {offset : ℕ} {size : ℤ} (hsize : sizeAt data offset = some size)
    (hfits : offset + 60 + size ≤ data.length) : ∃ member, arMember data offset = .ok member := by
  have hslice : pySlice data offset (offset + 60) = slice data offset (offset + 60) := by
    exact_mod_cast pySlice_ofNat data offset (offset + 60)
  simp only [sizeAt, List.all_eq_true, decide_eq_true_eq] at hsize
  split_ifs at hsize with hheader
  obtain ⟨hinside, hend, hname, hascii⟩ := hheader
  simp only [arMember, hslice, bind_eq_ok, exists_unit, raiseIf_eq_ok, pure_eq_ok, not_lt, not_not,
    decodeAscii_eq_ok, headerSize_eq_ok]
  exact ⟨_, by omega, hend, _, ⟨hname, rfl⟩, size, ⟨hascii, hsize⟩, hfits, rfl⟩

theorem decodeAscii_yields (text : Bytes) : Yields IsValueError (decodeAscii text) fun _ => True := by
  unfold decodeAscii
  exact yields_bind (yields_raiseIf fun _ => trivial) fun _ _ => trivial

theorem headerSize_yields (header : Bytes) :
    Yields IsValueError (headerSize header) fun _ => True := by
  unfold headerSize
  refine yields_bind (decodeAscii_yields _) fun text _ => ?_
  split
  · trivial
  · trivial

/-- A round raises a `ValueError` or nothing. -/
theorem arMember_yields (offset : ℤ) : Yields IsValueError (arMember data offset) fun _ => True := by
  unfold arMember
  refine yields_bind (yields_raiseIf fun _ => trivial) fun _ _ => ?_
  refine yields_bind (yields_raiseIf fun _ => trivial) fun _ _ => ?_
  refine yields_bind (decodeAscii_yields _) fun name _ => ?_
  refine yields_bind (headerSize_yields _) fun size _ => ?_
  exact yields_bind (yields_raiseIf fun _ => trivial) fun _ _ => trivial

theorem arMember_eq_error {offset : ℤ} {e : Exn} (h : arMember data offset = .error e) :
    IsValueError e := by
  have hyields := @arMember_yields data offset
  rwa [h] at hyields

end

/-! ## Whole runs -/

section
variable {data : Bytes}

/-- One round that yields a member. -/
theorem arLoop_member {offset : ℤ} {member : ArMember} (hmore : offset < data.length)
    (hmember : arMember data offset = .ok member) (rounds : ℕ) :
    arLoop data (rounds + 1) offset =
      (member :: (arLoop data rounds member.next).1, (arLoop data rounds member.next).2) := by
  rw [arLoop, if_pos hmore, hmember]

/-- The members before a header do not depend on what follows it. -/
theorem HeaderAt.run {offset : ℕ} (h : HeaderAt data offset) : ∃ rounds before, ∀ more,
    (arMembers data (rounds + more)).1 = before ++ (arLoop data more offset).1 ∧
      (arMembers data (rounds + more)).2 = (arLoop data more offset).2 := by
  induction h with
  | first hmagic =>
    refine ⟨0, [], fun more => ?_⟩
    rw [Nat.zero_add, arMembers, if_pos hmagic]
    exact ⟨rfl, rfl⟩
  | @next offset size _ hsize hfits ih =>
    obtain ⟨rounds, before, hrun⟩ := ih
    obtain ⟨member, hmember⟩ := exists_arMember hsize (by omega)
    obtain ⟨size', hsize', -, -, -, hstop, -⟩ := arMember_eq_ok hmember
    obtain rfl : size' = size := Option.some.inj (hsize'.symm.trans hsize)
    have hnext : member.next = (offset + 60 + size + (offset + 60 + size) % 2 : ℕ) := by
      rw [ArMember.next, hstop]
      push_cast
      rfl
    have hloop : ∀ more, arLoop data (1 + more) offset =
        (member :: (arLoop data more (offset + 60 + size + (offset + 60 + size) % 2 : ℕ)).1,
          (arLoop data more (offset + 60 + size + (offset + 60 + size) % 2 : ℕ)).2) := by
      intro more
      rw [Nat.add_comm 1, arLoop_member (by omega) hmember, hnext]
    refine ⟨rounds + 1, before ++ [member], fun more => ?_⟩
    obtain ⟨hmembers, houtcome⟩ := hrun (1 + more)
    rw [Nat.add_assoc, hmembers, houtcome, hloop]
    exact ⟨by simp, rfl⟩

variable (hsizes : NoNegativeSize data)
include hsizes

/-- A yielded member ends before the next header. -/
theorem NoNegativeSize.member {offset : ℕ} (h : HeaderAt data offset) {member : ArMember}
    (hmember : arMember data offset = .ok member) :
    member.Inside data ∧ member.header = offset ∧ ∃ next : ℕ, member.next = next ∧
      HeaderAt data next ∧ member.stop ≤ next ∧ offset + 60 ≤ next := by
  obtain ⟨size, hsize, hfits, hheader, hstart, hstop, hcontent⟩ := arMember_eq_ok hmember
  obtain ⟨size, rfl⟩ := Int.eq_ofNat_of_zero_le (hsizes offset size h hsize)
  have hfits' : offset + 60 + size ≤ data.length := by omega
  refine ⟨⟨?_, ?_, ?_, ?_, ?_⟩, hheader, offset + 60 + size + (offset + 60 + size) % 2, ?_,
    .next h hsize hfits', ?_, by omega⟩
  · rw [hheader]
    exact_mod_cast h.ge
  · rw [hstart, hheader]
  · rw [hstart, hstop]
    omega
  · rw [hstop]
    exact hfits
  · rw [hcontent, hstart, hstop]
    exact_mod_cast pySlice_ofNat data (offset + 60) (offset + 60 + size)
  · rw [ArMember.next, hstop]
    push_cast
    rfl
  · rw [hstop]
    omega

/-- The members of a run from a header on. -/
theorem NoNegativeSize.loop : ∀ {rounds offset : ℕ}, HeaderAt data offset →
    (∀ member ∈ (arLoop data rounds offset).1, member.Inside data ∧ offset ≤ member.header) ∧
      (arLoop data rounds offset).1.Pairwise fun m m' => m.stop ≤ m'.header
  | 0, offset, _ => by simp [arLoop]
  | rounds + 1, offset, h => by
    by_cases hmore : (offset : ℤ) < data.length
    · cases hmember : arMember data offset with
      | error e => simp [arLoop, hmore, hmember]
      | ok member =>
        obtain ⟨hinside, hheader, next, hnext, hat, hstop, hle⟩ := hsizes.member h hmember
        obtain ⟨hmembers, hpairs⟩ := NoNegativeSize.loop hat
        rw [arLoop_member hmore hmember, hnext]
        constructor
        · intro m hm
          rcases List.mem_cons.1 hm with rfl | hm
          · exact ⟨hinside, hheader.ge⟩
          · obtain ⟨hm, hafter⟩ := hmembers m hm
            exact ⟨hm, by omega⟩
        · exact .cons (fun m hm => hstop.trans (hmembers m hm).2) hpairs
    · simp [arLoop, hmore]

/-- The loop advances by at least a header in every round, so it ends. -/
theorem NoNegativeSize.ends : ∀ {rounds offset : ℕ}, HeaderAt data offset →
    data.length ≤ offset + rounds → ∃ outcome, (arLoop data (rounds + 1) offset).2 = some outcome ∧
      ∀ e, outcome = .error e → IsValueError e
  | 0, offset, _, hrounds => by
    have hdone : ¬ (offset : ℤ) < data.length := by omega
    exact ⟨.ok (), by rw [arLoop, if_neg hdone], fun e he => by cases he⟩
  | rounds + 1, offset, h, hrounds => by
    by_cases hmore : (offset : ℤ) < data.length
    · cases hmember : arMember data offset with
      | error e =>
        refine ⟨.error e, by simp [arLoop, hmore, hmember], fun e' he => ?_⟩
        exact Except.error.inj he ▸ arMember_eq_error hmember
      | ok member =>
        obtain ⟨-, -, next, hnext, hat, -, hle⟩ := hsizes.member h hmember
        rw [arLoop_member hmore hmember, hnext]
        exact NoNegativeSize.ends hat (by omega)
    · exact ⟨.ok (), by simp [arLoop, hmore], fun e he => by cases he⟩

end

/-- **Iterating over an ar archive.**  The generator ends and yields ranges of the data in increasing
    order, each right after its header, if and only if no header states a negative size. -/
theorem arMembers_iff (data : Bytes) : Parses data ↔ NoNegativeSize data := by
  constructor
  · intro h offset size hat hsize
    by_contra hnegative
    obtain ⟨rounds, before, hrun⟩ := hat.run
    have hinside : offset + 60 ≤ data.length := by
      rw [sizeAt] at hsize
      split_ifs at hsize with hheader
      exact hheader.1
    obtain ⟨member, hmember⟩ := exists_arMember hsize (by omega)
    obtain ⟨size', hsize', -, -, hstart, hstop, -⟩ := arMember_eq_ok hmember
    obtain rfl : size' = size := Option.some.inj (hsize'.symm.trans hsize)
    -- the member is yielded, with an end before its start
    have hyielded : member ∈ (arMembers data (rounds + 1)).1 := by
      rw [(hrun 1).1, arLoop_member (by omega) hmember]
      simp
    have hrange := (h.inside (rounds + 1) member hyielded).range
    omega
  · intro hsizes
    by_cases hmagic : data.take 8 = arMagic
    · have hmembers : ∀ rounds, arMembers data rounds = arLoop data rounds (8 : ℕ) := fun rounds => by
        rw [arMembers, if_pos hmagic]
        rfl
      have hfirst : HeaderAt data 8 := .first hmagic
      have hloop := fun rounds => @NoNegativeSize.loop _ hsizes rounds _ hfirst
      refine ⟨?_, ?_, ?_, ?_⟩
      · obtain ⟨outcome, houtcome, hvalue⟩ := @NoNegativeSize.ends _ hsizes data.length _ hfirst (by omega)
        exact ⟨_, outcome, by rw [hmembers, houtcome], hvalue⟩
      · intro rounds member hmember
        rw [hmembers] at hmember
        exact ((hloop rounds).1 member hmember).1
      · intro rounds
        rw [hmembers]
        exact (hloop rounds).2
      · intro rounds
        rw [hmembers]
        refine (hloop rounds).2.imp_of_mem fun {m m'} _ hm' hle => ?_
        have hstart := ((hloop rounds).1 m' hm').1.start
        exact Set.disjoint_left.2 fun i hi hi' => absurd (hi.2.trans_le hle) (by
          have := hi'.1
          omega)
    · have hmembers : ∀ rounds, arMembers data rounds =
          ([], some (.error (.valueError "not a Debian ar archive"))) := fun rounds => by
        rw [arMembers, if_neg hmagic]
      refine ⟨⟨0, _, by rw [hmembers], fun e he => ?_⟩, ?_, ?_, ?_⟩
      · cases he
        trivial
      · intro rounds
        simp [hmembers]
      · intro rounds
        simp [hmembers]
      · intro rounds
        simp [hmembers]

/-! ## A header that states its own negative length -/

/-- An archive with one header, whose size is `-60`. -/
def loopingArchive : Bytes :=
  arMagic ++ ("debian-binary   0           0     0     100644  -60       ".toList.map fun c =>
    UInt8.ofNat c.toNat) ++ headerEnd

/-- The generator yields the same empty member for ever. -/
theorem arMembers_loops : ¬ ∀ data, Parses data := by
  intro h
  obtain ⟨rounds, outcome, houtcome, -⟩ := (h loopingArchive).ends
  have hstep : ∃ member, arMember loopingArchive 8 = .ok member ∧ member.next = 8 :=
    ⟨⟨8, "debian-binary".toList, 68, 8, []⟩, by decide, by decide⟩
  obtain ⟨member, hmember, hnext⟩ := hstep
  have hloop : ∀ rounds, (arLoop loopingArchive rounds 8).2 = none := by
    intro rounds
    induction rounds with
    | zero => rfl
    | succ rounds ih =>
      rw [arLoop_member (by decide) hmember, hnext]
      exact ih
  have hmembers : arMembers loopingArchive rounds = arLoop loopingArchive rounds 8 := by
    rw [arMembers, if_pos (by decide)]
  rw [hmembers, hloop] at houtcome
  cases houtcome

end RulesMkosi.PackageArchive
