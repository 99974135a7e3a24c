/-
  Directories of a FAT volume, as they are written.

  A directory is a list of records of 32 bytes.  A short record has an 8.3 name;
  slots directly before it may hold a long name in pieces of 13 UTF-16 units, the
  last piece first.  The definitions of this module write such directories, with
  deleted records and stray slots between the records; the theorem is that
  `_entries` reads back what was written.
-/
import RulesMkosi.EspSafety

namespace RulesMkosi.EspManifest

/-! ## Short records -/

/-- The checksum of the eleven stored bytes of a short name: the sum so far is rotated by one bit
    before every byte is added. -/
def nameChecksum (stored : Bytes) : UInt8 :=
  stored.foldl (fun sum byte => (sum >>> 1 ||| sum <<< 7) + byte) 0

/-- A part of a short name, filled up with spaces. -/
def padded (size : ℕ) (text : Bytes) : Bytes := text ++ List.replicate (size - text.length) 0x20

/-- A first byte 0xE5 is stored as 0x05, since it would mark a deleted record. -/
def storedFirst : Bytes → Bytes
  | [] => []
  | first :: rest => (if first = 0xE5 then 0x05 else first) :: rest

/-- A record with an 8.3 name. -/
structure ShortRecord where
  base : Bytes
  extension : Bytes
  attributes : UInt8
  caseFlags : UInt8
  creation : Bytes
  high : ℕ
  modification : Bytes
  low : ℕ
  size : ℕ
  base_length : base.length ≤ 8
  base_trimmed : base.getLast? ≠ some 0x20
  base_first : base.head? ≠ some 0x00 ∧ base.head? ≠ some 0x05
  extension_length : extension.length ≤ 3
  extension_trimmed : extension.getLast? ≠ some 0x20
  noSlot : attributes.toNat.land 0x3F ≠ 0x0F
  creation_length : creation.length = 7
  modification_length : modification.length = 4
  high_lt : high < 2 ^ 16
  low_lt : low < 2 ^ 16
  size_lt : size < 2 ^ 32

namespace ShortRecord

variable (r : ShortRecord)

/-- The eleven bytes of the name. -/
def stored : Bytes := padded 8 (storedFirst r.base) ++ padded 3 r.extension

def encode : Bytes :=
  r.stored ++ ([r.attributes, r.caseFlags] ++ (r.creation ++ (leBytes 2 r.high ++
    (r.modification ++ (leBytes 2 r.low ++ leBytes 4 r.size)))))

variable (C : CaseMapping)

/-- The base of the name in lower case if the case flags say so. -/
def baseText : Str :=
  if r.caseFlags.toNat.land 0x08 ≠ 0 then C.lower (decodeCp437 r.base) else decodeCp437 r.base

def extensionText : Str :=
  if r.caseFlags.toNat.land 0x10 ≠ 0 then C.lower (decodeCp437 r.extension)
  else decodeCp437 r.extension

/-- The 8.3 name. -/
def name : Str :=
  if r.extensionText C ≠ [] then r.baseText C ++ ['.'] ++ r.extensionText C else r.baseText C

/-- Volume labels, `.` and `..` are no entries. -/
def skipped : Prop :=
  r.attributes.toNat.land attributeVolumeLabel ≠ 0 ∨ r.name C = ['.'] ∨ r.name C = ['.', '.']

instance : Decidable (r.skipped C) := inferInstanceAs (Decidable (_ ∨ _))

/-- The entry of the record with a long name, if it has one.  Only FAT32 uses the upper half of the
    cluster number. -/
def entries (fat32 : Bool) (long : Option Str) : List Entry :=
  if r.skipped C then []
  else [⟨long.getD (r.name C), r.name C, r.attributes.toNat,
    (if fat32 then r.high else 0) * 2 ^ 16 + r.low, r.size⟩]

end ShortRecord

/-! ## Slots -/

/-- The bytes of a slot that carry nothing of the name. -/
structure SlotFill where
  attributes : UInt8
  type : UInt8
  cluster : UInt8 × UInt8
  slot : attributes.toNat.land 0x3F = 0x0F

/-- A slot with 13 units. -/
def encodeSlot (fill : SlotFill) (number : ℕ) (checksum : UInt8) (units : List ℕ) : Bytes :=
  [UInt8.ofNat number] ++ (unitBytes (units.take 5) ++ ([fill.attributes, fill.type, checksum] ++
    (unitBytes ((units.drop 5).take 6) ++ ([fill.cluster.1, fill.cluster.2] ++
      unitBytes (units.drop 11)))))

/-- A long name. -/
structure LongName where
  text : Str
  fill : ℕ → SlotFill
  nonempty : text ≠ []
  noNul : Char.ofNat 0 ∉ text
  length_le : (textUnits text).length ≤ 255

namespace LongName

variable (long : LongName)

def units : List ℕ := textUnits long.text

/-- A terminator and fill units, unless the name fills its last slot. -/
def terminator : List ℕ :=
  if long.units.length % 13 = 0 then []
  else 0x0000 :: List.replicate (12 - long.units.length % 13) 0xFFFF

/-- The number of slots. -/
def count : ℕ := (long.units.length + 12) / 13

/-- The units of a slot. -/
def piece (i : ℕ) : List ℕ := ((long.units ++ long.terminator).drop (13 * i)).take 13

/-- The slots count from 1; the last one has a mark. -/
def number (i : ℕ) : ℕ := if i + 1 = long.count then i + 1 + 0x40 else i + 1

def slot (checksum : UInt8) (i : ℕ) : Bytes :=
  encodeSlot (long.fill i) (long.number i) checksum (long.piece i)

/-- The slots of the name, the last one first. -/
def encode (checksum : UInt8) : List Bytes :=
  ((List.range long.count).map (long.slot checksum)).reverse

end LongName

/-! ## Directories -/

/-- A deleted record. -/
structure DeletedRecord where
  raw : Bytes
  length_eq : raw.length = 32
  mark : raw[0]? = some 0xE5

/-- A slot that belongs to no record. -/
structure StraySlot where
  raw : Bytes
  length_eq : raw.length = 32
  first : raw[0]? ≠ some 0x00 ∧ raw[0]? ≠ some 0xE5
  slot : ∃ byte, raw[11]? = some byte ∧ byte.toNat.land 0x3F = 0x0F

/-- A part of a directory.  Stray slots end at a deleted record or at the first slot of a long
    name. -/
inductive Item where
  | deleted (stray : List StraySlot) (record : DeletedRecord)
  | named (stray : List StraySlot) (long : LongName) (record : ShortRecord)
  | plain (record : ShortRecord)

namespace Item

/-- The records of an item. -/
def encode : Item → List Bytes
  | deleted stray record => stray.map StraySlot.raw ++ [record.raw]
  | named stray long record =>
    stray.map StraySlot.raw ++ (long.encode (nameChecksum record.stored) ++ [record.encode])
  | plain record => [record.encode]

/-- The entries of an item. -/
def entries (C : CaseMapping) (fat32 : Bool) : Item → List Entry
  | deleted _ _ => []
  | named _ long record => record.entries C fat32 (some long.text)
  | plain record => record.entries C fat32 none

end Item

/-- A directory ends at a zero byte or with the data. -/
def Ends (tail : Bytes) : Prop := tail.length < directoryEntry ∨ tail.head? = some 0

/-! ## Reading a record -/

theorem nameChecksum_step (sum byte : UInt8) :
    ((sum >>> 1 ||| sum <<< 7) + byte).toNat =
      (sum.toNat % 2 * 2 ^ 7 + sum.toNat / 2 + byte.toNat) % 2 ^ 8 := by
  have hrotate : (sum >>> 1 ||| sum <<< 7).toNat = sum.toNat % 2 * 2 ^ 7 + sum.toNat / 2 := by
    revert sum
    refine forall_byte ?_
    decide +kernel
  rw [UInt8.toNat_add, hrotate]

/-- The checksum of the code is the one of the format. -/
theorem shortNameChecksum_eq (stored : Bytes) :
    shortNameChecksum stored = (nameChecksum stored).toNat := by
  have hfold : ∀ (stored : Bytes) (sum : UInt8),
      stored.foldl (fun checksum byte =>
        (checksum % 2 * 2 ^ 7 + checksum / 2 + byte.toNat) % 2 ^ 8) sum.toNat =
      (stored.foldl (fun (sum : UInt8) byte => (sum >>> 1 ||| sum <<< 7) + byte) sum).toNat := by
    intro stored
    induction stored with
    | nil => exact fun _ => rfl
    | cons byte stored ih =>
      intro sum
      rw [List.foldl_cons, List.foldl_cons, ← nameChecksum_step, ih]
  exact hfold stored 0

theorem length_padded {size : ℕ} {text : Bytes} (h : text.length ≤ size) :
    (padded size text).length = size := by
  rw [padded, List.length_append, List.length_replicate]
  omega

/-- The spaces behind a part of a name are stripped. -/
theorem rstripSpace_padded {size : ℕ} {text : Bytes} (h : text.getLast? ≠ some 0x20) :
    rstripSpace (padded size text) = text := by
  have hdrop : ∀ n : ℕ, (List.replicate n (0x20 : UInt8) ++ text.reverse).dropWhile (· = 0x20) =
      text.reverse := by
    intro n
    induction n with
    | zero =>
      cases hrev : text.reverse with
      | nil => rfl
      | cons last rest =>
        have hlast : last ≠ 0x20 := by
          rintro rfl
          apply h
          rw [← List.head?_reverse, hrev]
          rfl
        simp [hlast]
    | succ n ih =>
      rw [List.replicate_succ, List.cons_append, List.dropWhile_cons_of_pos (by decide), ih]
  rw [rstripSpace, padded, List.reverse_append, List.reverse_replicate, hdrop, List.reverse_reverse]

theorem byteAt_eq {data : Bytes} {index : ℕ} {byte : UInt8} (h : data[index]? = some byte) :
    byteAt data index = .ok byte.toNat := by
  rw [byteAt, h]

theorem unpack_middle {d e : Bytes} {off n k : ℕ} (hoff : d.length = off) (h : k < 256 ^ n) :
    unpack n (d ++ (leBytes n k ++ e)) off = .ok k := by
  have hfits : off + n ≤ (d ++ (leBytes n k ++ e)).length := by
    rw [List.length_append, List.length_append, length_leBytes, hoff]
    omega
  rw [unpack, unpackFrom_eq_ok.2 ⟨hfits, (field_middle hoff h).symm⟩]

namespace ShortRecord

variable (r : ShortRecord)

theorem length_storedFirst (base : Bytes) : (storedFirst base).length = base.length := by
  cases base with
  | nil => rfl
  | cons first rest => rfl

theorem length_paddedBase : (padded 8 (storedFirst r.base)).length = 8 :=
  length_padded (by rw [length_storedFirst]; exact r.base_length)

theorem length_stored : r.stored.length = 11 := by
  rw [stored, List.length_append, r.length_paddedBase, length_padded r.extension_length]

theorem length_encode : r.encode.length = 32 := by
  simp [encode, length_stored, length_leBytes, r.creation_length, r.modification_length]

theorem slice_stored : slice r.encode 0 11 = r.stored := by
  have := slice_middle (d := []) (m := r.stored) (e := [r.attributes, r.caseFlags] ++
    (r.creation ++ (leBytes 2 r.high ++ (r.modification ++ (leBytes 2 r.low ++
      leBytes 4 r.size))))) rfl (Nat.zero_add _)
  rwa [length_stored] at this

theorem attributes_at : r.encode[11]? = some r.attributes := by
  rw [encode, List.getElem?_append_right (by rw [length_stored]), length_stored]
  rfl

theorem caseFlags_at : r.encode[12]? = some r.caseFlags := by
  rw [encode, List.getElem?_append_right (by rw [length_stored]; omega), length_stored]
  rfl

theorem slice_base : slice r.encode 0 8 = padded 8 (storedFirst r.base) := by
  rw [encode, stored, List.append_assoc]
  exact slice_middle (d := []) rfl (by rw [r.length_paddedBase])

theorem slice_extension : slice r.encode 8 11 = padded 3 r.extension := by
  rw [encode, stored, List.append_assoc]
  exact slice_middle r.length_paddedBase (by rw [length_padded r.extension_length])

/-- The first byte marks neither the end nor a deleted record; if it is 0x05, it stands for 0xE5. -/
theorem first_at : ∃ first, r.encode[0]? = some first ∧ first ≠ 0x00 ∧ first ≠ 0xE5 ∧
    (if first.toNat = 0x05 then [0xE5] ++ slice r.encode 1 8 else slice r.encode 0 8) =
      padded 8 r.base := by
  have hslice := r.slice_base
  have hhead : r.encode[0]? = (padded 8 (storedFirst r.base))[0]? := by
    rw [← hslice, getElem?_slice, if_pos (by omega)]
  have htail : slice r.encode 1 8 = (padded 8 (storedFirst r.base)).drop 1 := by
    rw [← hslice, slice, slice, List.drop_zero, List.drop_take]
  have hfirst := r.base_first
  rw [hhead, htail, hslice]
  cases hbase : r.base with
  | nil => exact ⟨0x20, rfl, by decide, by decide, rfl⟩
  | cons first rest =>
    rw [hbase] at hfirst
    obtain ⟨hzero, hfive⟩ := hfirst
    have hzero : first ≠ 0x00 := fun h => hzero (by rw [h]; rfl)
    have hfive : first ≠ 0x05 := fun h => hfive (by rw [h]; rfl)
    by_cases hmark : first = 0xE5
    · subst hmark
      exact ⟨0x05, rfl, by decide, by decide, rfl⟩
    · rw [storedFirst, if_neg hmark]
      have hother : ¬ first.toNat = 0x05 := fun h => hfive (UInt8.toNat_inj.1 h)
      refine ⟨first, rfl, hzero, hmark, ?_⟩
      rw [if_neg hother]

theorem shortName_encode (C : CaseMapping) : shortName C r.encode = .ok (r.name C) := by
  obtain ⟨first, hfirst, -, -, hbase⟩ := r.first_at
  rw [shortName, byteAt_eq hfirst, ok_bind, byteAt_eq r.caseFlags_at, ok_bind, hbase,
    r.slice_extension, rstripSpace_padded r.base_trimmed, rstripSpace_padded r.extension_trimmed]
  rfl

theorem unpack_high : unpack 2 r.encode 20 = .ok r.high := by
  have hencode : r.encode = (r.stored ++ [r.attributes, r.caseFlags] ++ r.creation) ++
      (leBytes 2 r.high ++ (r.modification ++ (leBytes 2 r.low ++ leBytes 4 r.size))) := by
    simp [encode]
  rw [hencode]
  exact unpack_middle (by simp [length_stored, r.creation_length]) r.high_lt

theorem unpack_low : unpack 2 r.encode 26 = .ok r.low := by
  have hencode : r.encode = (r.stored ++ [r.attributes, r.caseFlags] ++ r.creation ++
      leBytes 2 r.high ++ r.modification) ++ (leBytes 2 r.low ++ leBytes 4 r.size) := by
    simp [encode]
  rw [hencode]
  exact unpack_middle (by simp [length_stored, r.creation_length, r.modification_length,
    length_leBytes]) r.low_lt

theorem unpack_size : unpack 4 r.encode 28 = .ok r.size := by
  have hencode : r.encode = (r.stored ++ [r.attributes, r.caseFlags] ++ r.creation ++
      leBytes 2 r.high ++ r.modification ++ leBytes 2 r.low) ++ (leBytes 4 r.size ++ []) := by
    simp [encode]
  rw [hencode]
  exact unpack_middle (by simp [length_stored, r.creation_length, r.modification_length,
    length_leBytes]) r.size_lt

theorem highCluster_encode (fat32 : Bool) :
    highCluster fat32 r.encode = .ok (if fat32 then r.high else 0) := by
  unfold highCluster
  split_ifs
  · exact r.unpack_high
  · rfl

/-- The entry of a record behind slots that give it a long name or none. -/
theorem shortEntry_encode {C : CaseMapping} {fat32 : Bool} {slots : List Bytes} {long : Option Str}
    (hlong : longName slots r.encode = .ok long) :
    ∃ entry, shortEntry C fat32 slots r.encode = .ok entry ∧
      entry.toList = r.entries C fat32 long := by
  rw [shortEntry, hlong, ok_bind, r.shortName_encode, ok_bind, byteAt_eq r.attributes_at, ok_bind]
  by_cases hskipped : r.skipped C
  · rw [entries, if_pos hskipped]
    unfold skipped at hskipped
    rw [if_pos hskipped]
    exact ⟨none, rfl, rfl⟩
  · rw [entries, if_neg hskipped]
    unfold skipped at hskipped
    rw [if_neg hskipped, r.highCluster_encode, ok_bind, r.unpack_low, ok_bind, r.unpack_size,
      ok_bind]
    exact ⟨_, rfl, rfl⟩

end ShortRecord

/-! ## Reading slots -/

theorem length_unitBytes (units : List ℕ) : (unitBytes units).length = 2 * units.length := by
  induction units with
  | nil => rfl
  | cons unit units ih =>
    have hcons : unitBytes (unit :: units) = leBytes 2 unit ++ unitBytes units := rfl
    rw [hcons, List.length_append, length_leBytes, ih, List.length_cons]
    omega

theorem unitBytes_append (units units' : List ℕ) :
    unitBytes (units ++ units') = unitBytes units ++ unitBytes units' := List.flatMap_append

section
variable {fill : SlotFill} {number : ℕ} {checksum : UInt8} {units : List ℕ}

theorem length_encodeSlot (h : units.length = 13) :
    (encodeSlot fill number checksum units).length = 32 := by
  simp [encodeSlot, length_unitBytes, h]

theorem slot_first : (encodeSlot fill number checksum units)[0]? = some (UInt8.ofNat number) := rfl

theorem slot_attributes (h : units.length = 13) :
    (encodeSlot fill number checksum units)[11]? = some fill.attributes := by
  have hlen : ([UInt8.ofNat number] ++ unitBytes (units.take 5)).length = 11 := by
    simp [length_unitBytes, h]
  rw [encodeSlot, ← List.append_assoc, List.getElem?_append_right hlen.le, hlen]
  rfl

theorem slot_checksum (h : units.length = 13) :
    (encodeSlot fill number checksum units)[13]? = some checksum := by
  have hlen : ([UInt8.ofNat number] ++ unitBytes (units.take 5)).length = 11 := by
    simp [length_unitBytes, h]
  rw [encodeSlot, ← List.append_assoc, List.getElem?_append_right (by omega), hlen]
  rfl

/-- The three parts of a slot hold its units. -/
theorem slotUnits_encodeSlot (h : units.length = 13) :
    slotUnits (encodeSlot fill number checksum units) = unitBytes units := by
  have htake : (unitBytes (units.take 5)).length = 10 := by simp [length_unitBytes, h]
  have hmiddle : (unitBytes ((units.drop 5).take 6)).length = 12 := by simp [length_unitBytes, h]
  have hrest : (unitBytes (units.drop 11)).length = 4 := by simp [length_unitBytes, h]
  have hfirst : slice (encodeSlot fill number checksum units) 1 11 = unitBytes (units.take 5) :=
    slice_middle rfl (by rw [htake])
  have hsecond : slice (encodeSlot fill number checksum units) 14 26 =
      unitBytes ((units.drop 5).take 6) := by
    have hslot : encodeSlot fill number checksum units =
        ([UInt8.ofNat number] ++ unitBytes (units.take 5) ++
          [fill.attributes, fill.type, checksum]) ++ (unitBytes ((units.drop 5).take 6) ++
          ([fill.cluster.1, fill.cluster.2] ++ unitBytes (units.drop 11))) := by simp [encodeSlot]
    rw [hslot]
    exact slice_middle (by simp [htake]) (by rw [hmiddle])
  have hthird : slice (encodeSlot fill number checksum units) 28 32 = unitBytes (units.drop 11) := by
    have hslot : encodeSlot fill number checksum units =
        ([UInt8.ofNat number] ++ unitBytes (units.take 5) ++
          [fill.attributes, fill.type, checksum] ++ unitBytes ((units.drop 5).take 6) ++
          [fill.cluster.1, fill.cluster.2]) ++ (unitBytes (units.drop 11) ++ []) := by
      simp [encodeSlot]
    rw [hslot]
    exact slice_middle (by simp [htake, hmiddle]) (by rw [hrest])
  rw [slotUnits, hfirst, hsecond, hthird, ← unitBytes_append, ← unitBytes_append]
  congr 1
  have hdrop : units.drop 11 = (units.drop 5).drop 6 := by rw [List.drop_drop]
  rw [hdrop, List.append_assoc, List.take_append_drop, List.take_append_drop]

end

namespace LongName

variable (long : LongName)

theorem count_pos : 0 < long.count := by
  have hne : long.units ≠ [] := by
    intro hnil
    cases htext : long.text with
    | nil => exact long.nonempty htext
    | cons c rest =>
      have hc : charUnits c ≠ [] := by
        unfold charUnits
        split_ifs <;> simp
      have happend : long.units = charUnits c ++ textUnits rest := by
        rw [units, htext]
        rfl
      rw [happend] at hnil
      exact hc (List.append_eq_nil_iff.1 hnil).1
  have := List.length_pos_iff.2 hne
  unfold count
  omega

theorem count_le : long.count ≤ 20 := by
  have : long.units.length ≤ 255 := long.length_le
  unfold count
  omega

theorem length_terminated : (long.units ++ long.terminator).length = 13 * long.count := by
  rw [List.length_append, terminator, count]
  split_ifs with h
  · rw [List.length_nil]
    omega
  · rw [List.length_cons, List.length_replicate]
    omega

theorem length_piece {i : ℕ} (h : i < long.count) : (long.piece i).length = 13 := by
  rw [piece, List.length_take, List.length_drop, long.length_terminated]
  omega

/-- Pieces of one length, one after the other. -/
theorem flatMap_pieces {α : Type} (l : List α) (n : ℕ) : ∀ count : ℕ,
    ((List.range count).flatMap fun i => (l.drop (n * i)).take n) = l.take (n * count)
  | 0 => by simp
  | count + 1 => by
    rw [List.range_succ, List.flatMap_append, flatMap_pieces l n count, Nat.mul_succ, List.take_add]
    simp

theorem flatten_pieces :
    ((List.range long.count).map fun i => unitBytes (long.piece i)).flatten =
      unitBytes (long.units ++ long.terminator) := by
  have hpieces : (List.range long.count).flatMap long.piece = long.units ++ long.terminator := by
    have := flatMap_pieces (long.units ++ long.terminator) 13 long.count
    rwa [← long.length_terminated, List.take_length] at this
  rw [← hpieces, unitBytes, List.flatMap_assoc, List.flatMap_def]
  rfl

theorem number_lt {i : ℕ} (h : i < long.count) : long.number i < 256 := by
  have := long.count_le
  unfold number
  split_ifs <;> omega

/-- The last slot comes first. -/
theorem encode_eq_cons (checksum : UInt8) {k : ℕ} (hk : long.count = k + 1) :
    long.encode checksum =
      long.slot checksum k :: ((List.range k).map (long.slot checksum)).reverse := by
  rw [encode, hk, List.range_succ, List.map_append, List.reverse_append]
  rfl

theorem mem_encode {checksum : UInt8} {raw : Bytes} (h : raw ∈ long.encode checksum) :
    ∃ i < long.count, raw = long.slot checksum i := by
  rw [encode, List.mem_reverse, List.mem_map] at h
  obtain ⟨i, hi, rfl⟩ := h
  exact ⟨i, List.mem_range.1 hi, rfl⟩

/-- The bytes of a slot that `_long_name` compares. -/
theorem mapM_byteAt {checksum : UInt8} {index : ℕ} {value : ℕ → ℕ}
    (h : ∀ i < long.count, byteAt (long.slot checksum i) index = .ok (value i)) :
    (long.encode checksum).mapM (byteAt · index) =
      .ok ((List.range long.count).map value).reverse := by
  rw [mapM_eq_ok, encode, List.forall₂_reverse_iff, List.forall₂_map_left_iff,
    List.forall₂_map_right_iff, List.forall₂_same]
  exact fun i hi => h i (List.mem_range.1 hi)

theorem byteAt_number (checksum : UInt8) {i : ℕ} (h : i < long.count) :
    byteAt (long.slot checksum i) 0 = .ok (long.number i) := by
  rw [slot, byteAt_eq slot_first, UInt8.toNat_ofNat', Nat.mod_eq_of_lt (long.number_lt h)]

theorem byteAt_checksum (checksum : UInt8) {i : ℕ} (h : i < long.count) :
    byteAt (long.slot checksum i) 13 = .ok checksum.toNat :=
  byteAt_eq (slot_checksum (long.length_piece h))

/-- The numbers are those that `_long_name` expects. -/
theorem numbers_eq : ((List.range long.count).map long.number).reverse =
    expectedSlots long.count := by
  have hpos := long.count_pos
  obtain ⟨k, hk⟩ : ∃ k, long.count = k + 1 := ⟨long.count - 1, by omega⟩
  have hmark : ∀ n ≤ 20, n + 0x40 = n.lor lastLongNameSlot := by decide
  have hlast : long.number k = long.count.lor lastLongNameSlot := by
    rw [number, if_pos hk.symm, ← hk, hmark _ long.count_le]
  have hothers : (List.range k).map long.number = (List.range k).map (· + 1) := by
    refine List.map_congr_left fun i hi => ?_
    rw [List.mem_range] at hi
    rw [number, if_neg (by omega)]
  rw [expectedSlots, ← hlast, hk, Nat.add_sub_cancel, ← hothers, List.range_succ, List.map_append,
    List.reverse_append]
  rfl

/-- What follows the name in its slots starts with a NUL. -/
theorem untilNul_units :
    untilNul (decodeUtf16Replace (unitBytes (long.units ++ long.terminator))) = some long.text := by
  have hterminator : ∀ unit ∈ long.terminator, unit < 2 ^ 16 := by
    intro unit hunit
    unfold terminator at hunit
    split_ifs at hunit
    · exact absurd hunit List.not_mem_nil
    · rcases List.mem_cons.1 hunit with rfl | hunit
      · decide
      · rw [List.eq_of_mem_replicate hunit]
        decide
  have hstop : ∃ tail, decodeUtf16Replace (unitBytes long.terminator) = tail ∧
      (tail = [] ∨ tail.head? = some (Char.ofNat 0)) := by
    refine ⟨_, rfl, ?_⟩
    unfold terminator at hterminator ⊢
    split_ifs at hterminator ⊢
    · exact .inl rfl
    · have hnul := decodeUtf16Replace_text [Char.ofNat 0]
        fun unit hunit => hterminator unit (List.mem_cons_of_mem _ hunit)
      exact .inr (congrArg List.head? hnul)
  obtain ⟨tail, htail, hhead⟩ := hstop
  have htake : (long.text ++ tail).takeWhile (· ≠ Char.ofNat 0) = long.text := by
    rw [List.takeWhile_append_of_pos fun c hc => by
      simpa using fun h : c = Char.ofNat 0 => long.noNul (h ▸ hc)]
    rcases hhead with rfl | hhead
    · simp
    · obtain ⟨rest, rfl⟩ := List.head?_eq_some_iff.1 hhead
      simp
  rw [units, decodeUtf16Replace_text long.text hterminator, htail, untilNul, htake,
    if_neg long.nonempty]

/-- **Slots give a record its long name** if they have the checksum of its short name. -/
theorem longName_encode (raw : Bytes) :
    longName (long.encode (nameChecksum (slice raw 0 11))) raw = .ok (some long.text) := by
  have hpos := long.count_pos
  obtain ⟨k, hk⟩ : ∃ k, long.count = k + 1 := ⟨long.count - 1, by omega⟩
  generalize hsum : nameChecksum (slice raw 0 11) = checksum
  have hcount : long.number k - (long.number k).land lastLongNameSlot = long.count := by
    have hmark : ∀ n ≤ 20, n + 0x40 - (n + 0x40).land lastLongNameSlot = n := by decide
    rw [number, if_pos hk.symm, ← hk, hmark _ long.count_le]
  have hunits : ((long.encode checksum).reverse.map slotUnits).flatten =
      unitBytes (long.units ++ long.terminator) := by
    rw [encode, List.reverse_reverse, List.map_map, ← flatten_pieces]
    congr 1
    refine List.map_congr_left fun i hi => ?_
    exact slotUnits_encodeSlot (long.length_piece (List.mem_range.1 hi))
  have hnumbers := long.mapM_byteAt fun i hi => long.byteAt_number checksum hi
  have hchecksums := long.mapM_byteAt fun i hi => long.byteAt_checksum checksum hi
  have haccept : ¬ (((List.range long.count).map long.number).reverse ≠ expectedSlots long.count ∨
      ∃ c ∈ ((List.range long.count).map fun _ => checksum.toNat).reverse,
        c ≠ shortNameChecksum (slice raw 0 11)) := by
    rw [not_or, not_not, shortNameChecksum_eq, hsum]
    refine ⟨long.numbers_eq, ?_⟩
    rintro ⟨c, hc, hne⟩
    rw [List.mem_reverse, List.mem_map] at hc
    obtain ⟨i, -, rfl⟩ := hc
    exact hne rfl
  rw [long.encode_eq_cons checksum hk] at hnumbers hchecksums hunits ⊢
  rw [longName, long.byteAt_number checksum (by omega), ok_bind]
  simp only [hcount]
  rw [if_neg (not_not.2 ⟨hpos, long.count_le⟩), hnumbers, ok_bind, hchecksums, ok_bind,
    if_neg haccept, hunits, long.untilNul_units]
  rfl

end LongName

/-! ## Reading a directory -/

section
variable {C : CaseMapping} {fat32 : Bool} {slots rest : List Bytes} {found : List Entry}

theorem toNat_ne {byte other : UInt8} (h : byte ≠ other) : byte.toNat ≠ other.toNat :=
  fun heq => h (UInt8.toNat_inj.1 heq)

theorem entriesLoop_deleted {raw : Bytes} (h : raw[0]? = some 0xE5) :
    entriesLoop C fat32 (raw :: rest) slots found = entriesLoop C fat32 rest [] found := by
  rw [entriesLoop, byteAt_eq h]
  rfl

/-- A slot goes to the slots before it, as `_add_slot` decides. -/
theorem entriesLoop_slot {raw : Bytes} {first byte : UInt8} {next : List Bytes}
    (hfirst : raw[0]? = some first) (hzero : first ≠ 0x00) (hmark : first ≠ 0xE5)
    (hbyte : raw[11]? = some byte) (hslot : byte.toNat.land 0x3F = 0x0F)
    (hadd : addSlot slots raw = .ok next) :
    entriesLoop C fat32 (raw :: rest) slots found = entriesLoop C fat32 rest next found := by
  have hzero : ¬ first.toNat = 0 := toNat_ne hzero
  have hmark : ¬ first.toNat = deletedMark := toNat_ne hmark
  have hslot : byte.toNat.land 0x3F = attributeLongName := hslot
  rw [entriesLoop, byteAt_eq hfirst, ok_bind, if_neg hzero, if_neg hmark, byteAt_eq hbyte, ok_bind,
    if_pos hslot, hadd, ok_bind]

theorem entriesLoop_record (r : ShortRecord) {long : Option Str}
    (hlong : longName slots r.encode = .ok long) :
    entriesLoop C fat32 (r.encode :: rest) slots found =
      entriesLoop C fat32 rest [] (found ++ r.entries C fat32 long) := by
  obtain ⟨first, hfirst, hzero, hmark, -⟩ := r.first_at
  obtain ⟨entry, hentry, hlist⟩ := r.shortEntry_encode hlong
  have hzero : ¬ first.toNat = 0 := toNat_ne hzero
  have hmark : ¬ first.toNat = deletedMark := toNat_ne hmark
  have hslot : ¬ r.attributes.toNat.land 0x3F = attributeLongName := r.noSlot
  rw [entriesLoop, byteAt_eq hfirst, ok_bind, if_neg hzero, if_neg hmark,
    byteAt_eq r.attributes_at, ok_bind, if_neg hslot, hentry, ok_bind, hlist]

/-- Stray slots leave no entries. -/
theorem entriesLoop_stray : ∀ (stray : List StraySlot) (slots : List Bytes), ∃ slots',
    entriesLoop C fat32 (stray.map StraySlot.raw ++ rest) slots found =
      entriesLoop C fat32 rest slots' found
  | [], slots => ⟨slots, rfl⟩
  | s :: stray, slots => by
    have hlength : 0 < s.raw.length := by
      rw [s.length_eq]
      omega
    obtain ⟨first, hfirst⟩ : ∃ first, s.raw[0]? = some first := ⟨_, List.getElem?_eq_getElem hlength⟩
    obtain ⟨byte, hbyte, hslot⟩ := s.slot
    obtain ⟨hzero, hmark⟩ := s.first
    rw [hfirst] at hzero hmark
    obtain ⟨next, hadd⟩ : ∃ next, addSlot slots s.raw = .ok next := by
      rw [addSlot, byteAt_eq hfirst, ok_bind]
      split_ifs
      · exact ⟨_, rfl⟩
      · exact ⟨_, rfl⟩
      · exact ⟨_, rfl⟩
    obtain ⟨slots', ih⟩ := entriesLoop_stray stray next
    refine ⟨slots', ?_⟩
    rw [List.map_cons, List.cons_append, entriesLoop_slot hfirst (fun h => hzero (by rw [h]))
      (fun h => hmark (by rw [h])) hbyte hslot hadd, ih]

end

namespace LongName

variable (long : LongName) {C : CaseMapping} {fat32 : Bool} {rest : List Bytes} {found : List Entry}

theorem entriesLoop_slot_at (checksum : UInt8) {i : ℕ} (hi : i < long.count)
    {slots next : List Bytes} (hadd : addSlot slots (long.slot checksum i) = .ok next) :
    entriesLoop C fat32 (long.slot checksum i :: rest) slots found =
      entriesLoop C fat32 rest next found := by
  have hbyte : ∀ n, 0 < n → n < 0xE5 → UInt8.ofNat n ≠ 0x00 ∧ UInt8.ofNat n ≠ 0xE5 := by
    intro n hpos hlt
    constructor
    · intro h
      have := congrArg UInt8.toNat h
      simp at this
      omega
    · intro h
      have := congrArg UInt8.toNat h
      simp at this
      omega
  have hnumber : 0 < long.number i ∧ long.number i < 0xE5 := by
    have := long.count_le
    unfold number
    split_ifs
    · omega
    · omega
  obtain ⟨hzero, hmark⟩ := hbyte _ hnumber.1 hnumber.2
  exact entriesLoop_slot slot_first hzero hmark (slot_attributes (long.length_piece hi))
    (long.fill i).slot hadd

/-- A first slot starts a new name. -/
theorem addSlot_last (checksum : UInt8) {k : ℕ} (hk : long.count = k + 1) (slots : List Bytes) :
    addSlot slots (long.slot checksum k) = .ok [long.slot checksum k] := by
  have hmark : ∀ n ≤ 20, (n + 0x40).land lastLongNameSlot ≠ 0 := by decide
  have hnumber : long.number k = long.count + 0x40 := by rw [number, if_pos hk.symm, ← hk]
  rw [addSlot, long.byteAt_number checksum (by omega), ok_bind, hnumber,
    if_pos (hmark _ long.count_le)]
  rfl

theorem addSlot_next (checksum : UInt8) {i : ℕ} (hi : i + 1 < long.count) {slots : List Bytes}
    (hslots : slots.length < maxLongNameSlots) :
    addSlot slots (long.slot checksum i) = .ok (slots ++ [long.slot checksum i]) := by
  have hmark : ∀ n ≤ 20, ¬ n.land lastLongNameSlot ≠ 0 := by decide
  have hnumber : long.number i = i + 1 := by rw [number, if_neg (by omega)]
  have hcount := long.count_le
  rw [addSlot, long.byteAt_number checksum (by omega), ok_bind, hnumber,
    if_neg (hmark _ (by omega)), if_neg (by omega)]
  rfl

/-- The slots below the first one are collected behind it. -/
theorem entriesLoop_slots (checksum : UInt8) : ∀ {k : ℕ} {slots : List Bytes}, k < long.count →
    slots.length + k ≤ maxLongNameSlots →
    entriesLoop C fat32 (((List.range k).map (long.slot checksum)).reverse ++ rest) slots found =
      entriesLoop C fat32 rest (slots ++ ((List.range k).map (long.slot checksum)).reverse) found
  | 0, slots, _, _ => by simp
  | k + 1, slots, hk, hlength => by
    have hreverse : ((List.range (k + 1)).map (long.slot checksum)).reverse =
        long.slot checksum k :: ((List.range k).map (long.slot checksum)).reverse := by
      rw [List.range_succ, List.map_append, List.reverse_append]
      rfl
    rw [hreverse, List.cons_append, long.entriesLoop_slot_at checksum (by omega)
      (long.addSlot_next checksum hk (by omega)), entriesLoop_slots checksum (by omega)
      (by rw [List.length_append, List.length_singleton]; omega), List.append_assoc]
    rfl

/-- Whatever slots came before, the slots of a name are all that its record is given. -/
theorem entriesLoop_encode (checksum : UInt8) (slots : List Bytes) :
    entriesLoop C fat32 (long.encode checksum ++ rest) slots found =
      entriesLoop C fat32 rest (long.encode checksum) found := by
  have hpos := long.count_pos
  obtain ⟨k, hk⟩ : ∃ k, long.count = k + 1 := ⟨long.count - 1, by omega⟩
  have hcount : k + 1 ≤ maxLongNameSlots := hk ▸ long.count_le
  rw [long.encode_eq_cons checksum hk, List.cons_append,
    long.entriesLoop_slot_at checksum (by omega) (long.addSlot_last checksum hk slots),
    long.entriesLoop_slots checksum (by omega) (by rw [List.length_singleton]; omega)]
  rfl

end LongName

/-- **One part of a directory**: its entries are added, and no slots are left. -/
theorem entriesLoop_item {C : CaseMapping} {fat32 : Bool} {rest : List Bytes} {found : List Entry}
    (item : Item) : entriesLoop C fat32 (item.encode ++ rest) [] found =
      entriesLoop C fat32 rest [] (found ++ item.entries C fat32) := by
  cases item with
  | deleted stray record =>
    rw [Item.encode, List.append_assoc]
    obtain ⟨slots, hstray⟩ := entriesLoop_stray stray []
    rw [hstray, List.singleton_append, entriesLoop_deleted record.mark, Item.entries,
      List.append_nil]
  | named stray long record =>
    rw [Item.encode, List.append_assoc, List.append_assoc]
    obtain ⟨slots, hstray⟩ := entriesLoop_stray stray []
    have hlong := long.longName_encode record.encode
    rw [record.slice_stored] at hlong
    rw [hstray, long.entriesLoop_encode, List.singleton_append, entriesLoop_record record hlong]
    rfl
  | plain record =>
    rw [Item.encode, List.singleton_append, entriesLoop_record record rfl]
    rfl

theorem records_cons {raw data : Bytes} (h : raw.length = directoryEntry) :
    records (raw ++ data) = raw :: records data := by
  have hlength : (raw ++ data).length / directoryEntry = data.length / directoryEntry + 1 := by
    rw [List.length_append, h, Nat.add_comm, Nat.add_div_right _ (by decide)]
  rw [records, hlength, List.range_succ_eq_map, List.map_cons, List.map_map]
  congr 1
  · rw [Nat.zero_mul, Nat.zero_add, slice_append_left h.ge, ← h, slice_zero, List.take_length]
  · refine List.map_congr_left fun i _ => ?_
    have hshift := slice_append_right raw data (i * directoryEntry) (i * directoryEntry + directoryEntry)
    rw [h] at hshift
    show slice (raw ++ data) ((i + 1) * directoryEntry)
      ((i + 1) * directoryEntry + directoryEntry) = _
    rw [← hshift, Nat.succ_mul]
    congr 1
    · omega
    · omega

theorem records_flatten {tail : Bytes} : ∀ {raws : List Bytes}, Records raws →
    records (raws.flatten ++ tail) = raws ++ records tail
  | [], _ => rfl
  | raw :: raws, h => by
    rw [List.flatten_cons, List.append_assoc, records_cons (h raw List.mem_cons_self),
      records_flatten fun r hr => h r (List.mem_cons_of_mem _ hr)]
    rfl

theorem Item.records_encode (item : Item) : Records item.encode := by
  have hstray : ∀ stray : List StraySlot, Records (stray.map StraySlot.raw) := by
    intro stray raw hraw
    obtain ⟨s, -, rfl⟩ := List.mem_map.1 hraw
    exact s.length_eq
  intro raw hraw
  cases item with
  | deleted stray record =>
    rcases List.mem_append.1 hraw with hraw | hraw
    · exact hstray stray raw hraw
    · rw [List.mem_singleton.1 hraw]
      exact record.length_eq
  | named stray long record =>
    rcases List.mem_append.1 hraw with hraw | hraw
    · exact hstray stray raw hraw
    · rcases List.mem_append.1 hraw with hraw | hraw
      · obtain ⟨i, hi, rfl⟩ := long.mem_encode hraw
        exact length_encodeSlot (long.length_piece hi)
      · rw [List.mem_singleton.1 hraw]
        exact record.length_encode
  | plain record =>
    rw [List.mem_singleton.1 hraw]
    exact record.length_encode

/-- The end of a directory. -/
theorem entriesLoop_end {C : CaseMapping} {fat32 : Bool} {tail : Bytes} {found : List Entry}
    (h : Ends tail) : entriesLoop C fat32 (records tail) [] found = .ok found := by
  by_cases hshort : tail.length < directoryEntry
  · rw [records, Nat.div_eq_of_lt hshort]
    rfl
  · have hzero := h.resolve_left hshort
    have hlength : (tail.take directoryEntry).length = directoryEntry :=
      List.length_take_of_le (not_lt.1 hshort)
    have hfirst : (tail.take directoryEntry)[0]? = some 0 := by
      rw [List.getElem?_take_of_lt (by decide), ← List.head?_eq_getElem?, hzero]
    rw [← List.take_append_drop directoryEntry tail, records_cons hlength, entriesLoop,
      byteAt_eq hfirst]
    rfl

theorem entriesLoop_items {C : CaseMapping} {fat32 : Bool} {tail : Bytes} (htail : Ends tail) :
    ∀ {items : List Item} {found : List Entry},
      entriesLoop C fat32 (items.flatMap Item.encode ++ records tail) [] found =
        .ok (found ++ items.flatMap (Item.entries C fat32))
  | [], found => by
    rw [List.flatMap_nil, List.nil_append, List.flatMap_nil, List.append_nil]
    exact entriesLoop_end htail
  | item :: items, found => by
    rw [List.flatMap_cons, List.append_assoc, entriesLoop_item, entriesLoop_items htail,
      List.append_assoc, List.flatMap_cons]

/-- **A written directory is read back**: its files and subdirectories in order, with their long
    names where they have one. -/
theorem entries_encode (C : CaseMapping) (fat32 : Bool) (items : List Item) (tail : Bytes)
    (htail : Ends tail) :
    entries C fat32 ((items.flatMap Item.encode).flatten ++ tail) =
      .ok (items.flatMap (Item.entries C fat32)) := by
  have hrecords : Records (items.flatMap Item.encode) := by
    intro raw hraw
    obtain ⟨item, -, hraw⟩ := List.mem_flatMap.1 hraw
    exact item.records_encode raw hraw
  rw [entries, records_flatten hrecords, entriesLoop_items htail, List.nil_append]

/-! A volume label, a stray slot before a deleted record, and a file whose long name has a surrogate
    pair across its two slots, behind another stray slot. -/

def exampleFill : SlotFill := ⟨0x0F, 0, (0, 0), by decide⟩

/-- A slot of another name. -/
def exampleStray : StraySlot where
  raw := [0x41] ++ zeros 10 ++ [0x0F] ++ zeros 20
  length_eq := rfl
  first := by decide
  slot := ⟨0x0F, rfl, by decide⟩

def exampleDeleted : DeletedRecord := ⟨[0xE5] ++ zeros 31, rfl, rfl⟩

/-- The short record with this name, attributes, cluster and size. -/
def exampleShort (base extension : Bytes) (attributes : UInt8) (cluster size : ℕ)
    (hbase : base.length ≤ 8 ∧ base.getLast? ≠ some 0x20 ∧ base.head? ≠ some 0x00 ∧
      base.head? ≠ some 0x05)
    (hextension : extension.length ≤ 3 ∧ extension.getLast? ≠ some 0x20)
    (hattributes : attributes.toNat.land 0x3F ≠ 0x0F) (hcluster : cluster < 2 ^ 16)
    (hsize : size < 2 ^ 32) : ShortRecord where
  base := base
  extension := extension
  attributes := attributes
  caseFlags := 0
  creation := zeros 7
  high := 0
  modification := zeros 4
  low := cluster
  size := size
  base_length := hbase.1
  base_trimmed := hbase.2.1
  base_first := hbase.2.2
  extension_length := hextension.1
  extension_trimmed := hextension.2
  noSlot := hattributes
  creation_length := rfl
  modification_length := rfl
  high_lt := by decide
  low_lt := hcluster
  size_lt := hsize

def exampleLabel : ShortRecord :=
  exampleShort [0x45, 0x53, 0x50] [] 0x08 0 0 (by decide) (by decide) (by decide) (by decide)
    (by decide)

def exampleKernel : ShortRecord :=
  exampleShort [0x54, 0x57, 0x45, 0x4C, 0x56, 0x45, 0x7E, 0x31] [0x45, 0x46, 0x49] 0x20 5 7
    (by decide) (by decide) (by decide) (by decide) (by decide)

def exampleLong : LongName where
  text := "twelve-chars".toList ++ [Char.ofNat 0x1D11E] ++ ".efi".toList
  fill := fun _ => exampleFill
  nonempty := by decide
  noNul := by decide
  length_le := by decide

def exampleItems : List Item :=
  [.plain exampleLabel, .deleted [exampleStray] exampleDeleted,
    .named [exampleStray] exampleLong exampleKernel, .plain exampleKernel]

theorem entries_encode_example :
    entries asciiCase false ((exampleItems.flatMap Item.encode).flatten ++ zeros 32) =
      .ok [⟨"twelve-chars".toList ++ [Char.ofNat 0x1D11E] ++ ".efi".toList, "TWELVE~1.EFI".toList,
        0x20, 5, 7⟩, ⟨"TWELVE~1.EFI".toList, "TWELVE~1.EFI".toList, 0x20, 5, 7⟩] := by
  rw [entries_encode asciiCase false exampleItems (zeros 32) (.inr rfl)]
  decide

end RulesMkosi.EspManifest
