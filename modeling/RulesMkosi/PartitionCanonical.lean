/-
  The canonical image.

  An accepted image and its canonical stream differ only in the identities and
  checksums of the two GPT copies, and the stream is an accepted image of the same
  layout.  So the canonical stream is a normal form: two accepted images have the
  same one iff they agree outside those fields.
-/
import RulesMkosi.PartitionMetadata

namespace RulesMkosi.PartitionMetadata

/-! ## Canonical headers -/

/-- The bytes of a header that are normalized: its checksum, the disk GUID and the
    checksum of the array. -/
def HeaderMask (i : ℕ) : Prop := (16 ≤ i ∧ i < 20) ∨ (56 ≤ i ∧ i < 72) ∨ (88 ≤ i ∧ i < 92)

instance (i : ℕ) : Decidable (HeaderMask i) := inferInstanceAs (Decidable (_ ∨ _ ∨ _))

/-- The header before its own checksum is put in. -/
def uncheckedHeader (raw : Bytes) (arrayCrc : ℕ) : Bytes :=
  packInto (splice (splice raw 16 20 (zeros 4)) 56 72 (zeros 16)) 88 arrayCrc

theorem canonicalHeader_eq (raw : Bytes) (headerSize arrayCrc : ℕ) :
    canonicalHeader raw headerSize arrayCrc =
      packInto (uncheckedHeader raw arrayCrc) 16
        (crc32 ((uncheckedHeader raw arrayCrc).take headerSize)) := rfl

theorem length_packInto {data : Bytes} {off : ℕ} (value : ℕ) (h : off + 4 ≤ data.length) :
    (packInto data off value).length = data.length :=
  length_splice (by rw [length_leBytes]) h

theorem getElem?_packInto {data : Bytes} {off : ℕ} (value : ℕ) (h : off + 4 ≤ data.length)
    (i : ℕ) : (packInto data off value)[i]? =
      if off ≤ i ∧ i < off + 4 then (leBytes 4 value)[i - off]? else data[i]? :=
  getElem?_splice (by rw [length_leBytes]) h i

/-- A packed value is read back. -/
theorem field_packInto {data : Bytes} {off value : ℕ} (h : off + 4 ≤ data.length)
    (hvalue : value < 256 ^ 4) : field (packInto data off value) off 4 = value := by
  have hslice : slice (packInto data off value) off (off + 4) = leBytes 4 value := by
    refine List.ext_getElem? fun i => ?_
    rw [getElem?_slice]
    split_ifs with hi
    · rw [getElem?_packInto value h, if_pos (by omega), Nat.add_sub_cancel_left]
    · rw [List.getElem?_eq_none (by rw [length_leBytes]; omega)]
  rw [field, hslice, leNat_leBytes hvalue]

section
variable {raw : Bytes} (arrayCrc : ℕ) (hraw : 92 ≤ raw.length)
include hraw

theorem length_clearedHeader :
    (splice (splice raw 16 20 (zeros 4)) 56 72 (zeros 16)).length = raw.length := by
  have hcrc : (splice raw 16 20 (zeros 4)).length = raw.length :=
    length_splice (by rw [length_zeros]) (by omega)
  rw [length_splice (by rw [length_zeros]) (by omega), hcrc]

theorem length_uncheckedHeader : (uncheckedHeader raw arrayCrc).length = raw.length := by
  have hcleared := length_clearedHeader hraw
  rw [uncheckedHeader, length_packInto _ (by omega), hcleared]

theorem getElem?_uncheckedHeader (i : ℕ) : (uncheckedHeader raw arrayCrc)[i]? =
    if 88 ≤ i ∧ i < 92 then (leBytes 4 arrayCrc)[i - 88]?
    else if (16 ≤ i ∧ i < 20) ∨ (56 ≤ i ∧ i < 72) then some 0 else raw[i]? := by
  have hcleared := length_clearedHeader hraw
  have hcrc : (splice raw 16 20 (zeros 4)).length = raw.length :=
    length_splice (by rw [length_zeros]) (by omega)
  rw [uncheckedHeader, getElem?_packInto _ (by omega),
    getElem?_splice (by rw [length_zeros]) (by omega),
    getElem?_splice (by rw [length_zeros]) (by omega)]
  split_ifs <;> first | rfl | omega | exact getElem?_zeros (by omega)

theorem length_canonicalHeader (headerSize : ℕ) :
    (canonicalHeader raw headerSize arrayCrc).length = raw.length := by
  have hlen := length_uncheckedHeader arrayCrc hraw
  rw [canonicalHeader_eq, length_packInto _ (by omega), hlen]

theorem getElem?_canonicalHeader (headerSize : ℕ) {i : ℕ} (hi : ¬ HeaderMask i) :
    (canonicalHeader raw headerSize arrayCrc)[i]? = raw[i]? := by
  have hlen := length_uncheckedHeader arrayCrc hraw
  unfold HeaderMask at hi
  rw [canonicalHeader_eq, getElem?_packInto _ (by omega), if_neg (by omega),
    getElem?_uncheckedHeader _ hraw, if_neg (by omega), if_neg (by omega)]

theorem field_canonicalHeader (headerSize : ℕ) {off n : ℕ}
    (h : ∀ i, off ≤ i → i < off + n → ¬ HeaderMask i) :
    field (canonicalHeader raw headerSize arrayCrc) off n = field raw off n :=
  field_congr fun i hi hi' => getElem?_canonicalHeader arrayCrc hraw headerSize (h i hi hi')

theorem canonicalHeader_diskGuid (headerSize : ℕ) :
    slice (canonicalHeader raw headerSize arrayCrc) 56 72 = zeros 16 := by
  have hlen := length_uncheckedHeader arrayCrc hraw
  refine List.ext_getElem? fun i => ?_
  rw [getElem?_slice]
  split_ifs with hi
  · rw [canonicalHeader_eq, getElem?_packInto _ (by omega), if_neg (by omega),
      getElem?_uncheckedHeader _ hraw, if_neg (by omega), if_pos (by omega),
      getElem?_zeros (by omega)]
  · rw [List.getElem?_eq_none (by rw [length_zeros]; omega)]

theorem canonicalHeader_arrayCrc (headerSize : ℕ) (harray : arrayCrc < 256 ^ 4) :
    field (canonicalHeader raw headerSize arrayCrc) 88 4 = arrayCrc := by
  have hlen := length_uncheckedHeader arrayCrc hraw
  have hcleared := length_clearedHeader hraw
  have hkept : field (canonicalHeader raw headerSize arrayCrc) 88 4 =
      field (uncheckedHeader raw arrayCrc) 88 4 :=
    field_congr fun i hi hi' => by
      rw [canonicalHeader_eq, getElem?_packInto _ (by omega), if_neg (by omega)]
  rw [hkept, uncheckedHeader, field_packInto (by omega) harray]

/-- The checksum that is put in is the one that `checkHeaderBytes` expects. -/
theorem canonicalHeader_crc {headerSize : ℕ} (hsize : 92 ≤ headerSize) :
    crc32 (splice ((canonicalHeader raw headerSize arrayCrc).take headerSize) 16 20 (zeros 4)) =
      field (canonicalHeader raw headerSize arrayCrc) 16 4 := by
  have hlen := length_uncheckedHeader arrayCrc hraw
  have hcleared : splice ((canonicalHeader raw headerSize arrayCrc).take headerSize) 16 20
      (zeros 4) = (uncheckedHeader raw arrayCrc).take headerSize := by
    refine List.ext_getElem? fun i => ?_
    have hcanon := length_canonicalHeader arrayCrc hraw headerSize
    rw [getElem?_splice (by rw [length_zeros]) (by rw [List.length_take]; omega)]
    by_cases hi : i < headerSize
    · rw [List.getElem?_take_of_lt hi, List.getElem?_take_of_lt hi]
      split_ifs with hcrc
      · rw [getElem?_uncheckedHeader _ hraw, if_neg (by omega), if_pos (by omega),
          getElem?_zeros (by omega)]
      · rw [canonicalHeader_eq, getElem?_packInto _ (by omega), if_neg (by omega)]
    · rw [if_neg (by omega), List.getElem?_take_eq_none (not_lt.1 hi),
        List.getElem?_take_eq_none (not_lt.1 hi)]
  rw [hcleared, canonicalHeader_eq, field_packInto (by omega) (crc32_lt _)]

end

/-- The canonical header depends only on the bytes outside the mask. -/
theorem canonicalHeader_congr {raw raw' : Bytes} (hraw : 92 ≤ raw.length)
    (hlen : raw.length = raw'.length) (h : ∀ i, ¬ HeaderMask i → raw[i]? = raw'[i]?)
    (headerSize arrayCrc : ℕ) :
    canonicalHeader raw headerSize arrayCrc = canonicalHeader raw' headerSize arrayCrc := by
  have hunchecked : uncheckedHeader raw arrayCrc = uncheckedHeader raw' arrayCrc := by
    refine List.ext_getElem? fun i => ?_
    rw [getElem?_uncheckedHeader _ hraw, getElem?_uncheckedHeader _ (by omega)]
    split_ifs with h₁ h₂
    · rfl
    · rfl
    · exact h i (by unfold HeaderMask; omega)
  rw [canonicalHeader_eq, canonicalHeader_eq, hunchecked]

/-! ## Canonical arrays -/

/-- The unique GUIDs of the entries of an array. -/
def ArrayMask (entrySize count i : ℕ) : Prop :=
  ∃ slot < count, slot * entrySize + 16 ≤ i ∧ i < slot * entrySize + 32

theorem ArrayMask.lt {entrySize count i : ℕ} (hentry : 32 ≤ entrySize)
    (h : ArrayMask entrySize count i) : i < count * entrySize := by
  obtain ⟨slot, hslot, hi⟩ := h
  have hmul := Nat.mul_le_mul_right entrySize hslot
  rw [Nat.succ_mul] at hmul
  omega

section
variable (array : Bytes) {entrySize : ℕ} (hentry : 32 ≤ entrySize)
include hentry

theorem canonicalArray_spec : ∀ {count : ℕ}, count * entrySize ≤ array.length →
    (canonicalArray array entrySize count).length = array.length ∧
      (∀ i, ArrayMask entrySize count i → (canonicalArray array entrySize count)[i]? = some 0) ∧
      ∀ i, ¬ ArrayMask entrySize count i →
        (canonicalArray array entrySize count)[i]? = array[i]?
  | 0, _ => ⟨rfl, fun _ ⟨_, h, _⟩ => absurd h (Nat.not_lt_zero _), fun _ _ => rfl⟩
  | slot + 1, h => by
    rw [Nat.succ_mul] at h
    have hfits : slot * entrySize ≤ array.length := by omega
    obtain ⟨hlen, hzero, hkept⟩ := canonicalArray_spec hfits
    have hb : slot * entrySize + 32 = slot * entrySize + 16 + (zeros 16).length := by
      rw [length_zeros]
    have hget : ∀ i, (splice (canonicalArray array entrySize slot) (slot * entrySize + 16)
        (slot * entrySize + 32) (zeros 16))[i]? = _ := getElem?_splice hb (by omega)
    refine ⟨?_, ?_, ?_⟩
    · rw [canonicalArray, length_splice hb (by omega), hlen]
    · rintro i ⟨slot', hslot', hi⟩
      rw [canonicalArray, hget]
      split_ifs with hin
      · exact getElem?_zeros (by omega)
      · refine hzero i ⟨slot', ?_, hi⟩
        rcases Nat.lt_succ_iff_lt_or_eq.1 hslot' with hlt | rfl
        · exact hlt
        · exact absurd hi hin
    · intro i hi
      have hout : ¬ (slot * entrySize + 16 ≤ i ∧ i < slot * entrySize + 32) :=
        fun hin => hi ⟨slot, Nat.lt_succ_self _, hin⟩
      have hbefore : ¬ ArrayMask entrySize slot i :=
        fun ⟨slot', hslot', hin⟩ => hi ⟨slot', hslot'.trans (Nat.lt_succ_self _), hin⟩
      rw [canonicalArray, hget, if_neg hout, hkept i hbefore]

variable {array} in
/-- The canonical array depends only on the bytes outside the mask. -/
theorem canonicalArray_congr {array' : Bytes} {count : ℕ} (h : count * entrySize ≤ array.length)
    (hlen : array.length = array'.length)
    (hagree : ∀ i, ¬ ArrayMask entrySize count i → array[i]? = array'[i]?) :
    canonicalArray array entrySize count = canonicalArray array' entrySize count := by
  obtain ⟨-, hzero, hkept⟩ := canonicalArray_spec array hentry h
  obtain ⟨-, hzero', hkept'⟩ := canonicalArray_spec array' hentry (hlen ▸ h)
  refine List.ext_getElem? fun i => ?_
  by_cases hi : ArrayMask entrySize count i
  · rw [hzero i hi, hzero' i hi]
  · rw [hkept i hi, hkept' i hi, hagree i hi]

end

/-! ## Validated headers -/

/-- What `header` accepts and returns. -/
structure HeaderOk (image : Bytes) (sectorSize lba expectedBackup : ℕ) (h : Header) : Prop where
  inside : lba * sectorSize + sectorSize ≤ image.length
  raw : h.rawHeader = slice image (lba * sectorSize) (lba * sectorSize + sectorSize)
  offset : h.headerOffset = lba * sectorSize
  signature : h.rawHeader.take 8 = efiPart
  revision : field h.rawHeader 8 4 = 0x00010000
  size : h.headerSize = field h.rawHeader 12 4
  size_le : headerMin ≤ h.headerSize ∧ h.headerSize ≤ sectorSize
  crc : crc32 (splice (h.rawHeader.take h.headerSize) 16 20 (zeros 4)) = field h.rawHeader 16 4
  reserved : slice h.rawHeader 20 24 = zeros 4
  current : field h.rawHeader 24 8 = lba
  backup : field h.rawHeader 32 8 = expectedBackup
  location : lba = 1 ∨ lba = image.length / sectorSize - 1
  firstUsable : h.firstUsable = field h.rawHeader 40 8
  lastUsable : h.lastUsable = field h.rawHeader 48 8
  usable : h.firstUsable ≤ h.lastUsable ∧ h.lastUsable < image.length / sectorSize - 1
  diskGuid : h.diskGuid = slice h.rawHeader 56 72
  entriesLba : h.entriesLba = field h.rawHeader 72 8
  arrayOffset : h.arrayOffset = h.entriesLba * sectorSize
  count : h.count = field h.rawHeader 80 4
  count_le : 0 < h.count ∧ h.count ≤ maxEntries
  entrySize : h.entrySize = field h.rawHeader 84 4
  entrySize_le : (128 ≤ h.entrySize ∧ h.entrySize ≤ 4096) ∧ h.entrySize % 8 = 0
  arraySize_le : h.count * h.entrySize ≤ maxArrayBytes
  arrayInside : h.arrayOffset + h.count * h.entrySize ≤ image.length
  array : h.array = slice image h.arrayOffset (h.arrayOffset + h.count * h.entrySize)
  arrayLba : 2 ≤ h.entriesLba ∧
    h.entriesLba + (h.count * h.entrySize + sectorSize - 1) / sectorSize - 1 <
      image.length / sectorSize - 1
  beforeUsable : lba ≠ 1 ∨
    h.entriesLba + (h.count * h.entrySize + sectorSize - 1) / sectorSize - 1 < h.firstUsable
  afterUsable : lba ≠ image.length / sectorSize - 1 ∨ h.lastUsable < h.entriesLba
  arrayCrc : crc32 h.array = field h.rawHeader 88 4

theorem readExact_eq_ok {image : Bytes} {offset size : ℕ} {description : String} {value : Bytes} :
    readExact image offset size description = .ok value ↔
      offset + size ≤ image.length ∧ slice image offset (offset + size) = value := by
  simp only [readExact, bind_eq_ok, exists_unit, raiseIf_eq_ok, pure_eq_ok]
  refine and_congr ?_ Iff.rfl
  omega

theorem checkHeaderBytes_eq_ok {raw : Bytes} {sectorSize n : ℕ} {description : String}
    (hraw : 92 ≤ raw.length) :
    checkHeaderBytes raw sectorSize description = .ok n ↔
      n = field raw 12 4 ∧ raw.take 8 = efiPart ∧ field raw 8 4 = 0x00010000 ∧
        (headerMin ≤ n ∧ n ≤ sectorSize) ∧
        crc32 (splice (raw.take n) 16 20 (zeros 4)) = field raw 16 4 ∧
        slice raw 20 24 = zeros 4 := by
  have h₁ : 8 + 4 ≤ raw.length := by omega
  have h₂ : 12 + 4 ≤ raw.length := by omega
  have h₃ : 16 + 4 ≤ raw.length := by omega
  simp only [checkHeaderBytes, bind_eq_ok, exists_unit, raiseIf_eq_ok, pure_eq_ok,
    unpackFrom_eq_ok, h₁, h₂, h₃, true_and, exists_eq_left, not_not, ne_eq]
  constructor
  · rintro ⟨hsig, hrev, hsize, hcrc, hres, rfl⟩
    exact ⟨rfl, hsig, hrev, hsize, hcrc, hres⟩
  · rintro ⟨rfl, hsig, hrev, hsize, hcrc, hres⟩
    exact ⟨hsig, hrev, hsize, hcrc, hres, rfl⟩

theorem headerFields_eq_ok {raw : Bytes} {fields : HeaderFields} (hraw : 92 ≤ raw.length) :
    headerFields raw = .ok fields ↔
      fields = ⟨field raw 88 4, field raw 32 8, field raw 80 4, field raw 24 8, field raw 72 8,
        field raw 84 4, field raw 40 8, field raw 48 8⟩ := by
  have h : ∀ {off n : ℕ}, off + n ≤ 92 → unpackFrom n raw off = .ok (field raw off n) :=
    fun {off n} h => unpackFrom_eq_ok.2 ⟨by omega, rfl⟩
  rw [headerFields, h (by omega), ok_bind, h (by omega), ok_bind, h (by omega), ok_bind,
    h (by omega), ok_bind, h (by omega), ok_bind, h (by omega), ok_bind, h (by omega), ok_bind,
    h (by omega), ok_bind, pure_eq_ok, eq_comm]

theorem header_eq_ok {image : Bytes} {sectorSize lba expectedBackup : ℕ} {description : String}
    {h : Header} (hsector : 92 ≤ sectorSize) :
    header image sectorSize lba expectedBackup description = .ok h ↔
      HeaderOk image sectorSize lba expectedBackup h := by
  unfold header
  simp only [bind_eq_ok, readExact_eq_ok, pure_eq_ok]
  constructor
  · rintro ⟨raw, ⟨hinside, rfl⟩, n, hbytes, fields, hfields, ⟨⟩, hgeometry, array,
      ⟨harrayInside, rfl⟩, ⟨⟩, hlocation, ⟨⟩, hcrc, rfl⟩
    have hraw : 92 ≤ (slice image (lba * sectorSize) (lba * sectorSize + sectorSize)).length := by
      rw [length_slice hinside]; omega
    rw [checkHeaderBytes_eq_ok hraw] at hbytes
    rw [headerFields_eq_ok hraw] at hfields
    obtain ⟨rfl, hsig, hrev, hsize, hheaderCrc, hres⟩ := hbytes
    subst hfields
    simp only [checkHeaderGeometry, checkArrayLocation, bind_eq_ok, exists_unit, raiseIf_eq_ok,
      not_not, ne_eq] at hgeometry hlocation hcrc
    obtain ⟨⟨hcurrent, hbackup⟩, hlba, husable, hcount, hentry, hsizeLe⟩ := hgeometry
    obtain ⟨hlba', hbefore, hafter⟩ := hlocation
    exact ⟨hinside, rfl, rfl, hsig, hrev, rfl, hsize, hheaderCrc, hres, hcurrent, hbackup, hlba,
      rfl, rfl, husable, rfl, rfl, rfl, rfl, hcount, rfl, hentry, hsizeLe, harrayInside, rfl, hlba',
      hbefore, hafter, hcrc⟩
  · intro ok
    have hraw : 92 ≤ (slice image (lba * sectorSize) (lba * sectorSize + sectorSize)).length := by
      rw [length_slice ok.inside]; omega
    have hrawEq := ok.raw
    refine ⟨_, ⟨ok.inside, rfl⟩, h.headerSize, ?_, _, (headerFields_eq_ok hraw).2 rfl, (), ?_, _,
      ⟨?_, rfl⟩, (), ?_, (), ?_, ?_⟩
    · rw [checkHeaderBytes_eq_ok hraw, ← hrawEq]
      exact ⟨ok.size, ok.signature, ok.revision, ok.size_le, ok.crc, ok.reserved⟩
    all_goals rw [← hrawEq]
    · simp only [checkHeaderGeometry, bind_eq_ok, exists_unit, raiseIf_eq_ok, not_not,
        ← ok.firstUsable, ← ok.lastUsable, ← ok.count, ← ok.entrySize]
      exact ⟨⟨ok.current, ok.backup⟩, ok.location, ok.usable, ok.count_le, ok.entrySize_le,
        ok.arraySize_le⟩
    · rw [← ok.entriesLba, ← ok.count, ← ok.entrySize, ← ok.arrayOffset]
      exact ok.arrayInside
    · simp only [checkArrayLocation, bind_eq_ok, exists_unit, raiseIf_eq_ok, not_not,
        ← ok.firstUsable, ← ok.lastUsable, ← ok.count, ← ok.entrySize, ← ok.entriesLba]
      exact ⟨ok.arrayLba, ok.beforeUsable, ok.afterUsable⟩
    · simp only [raiseIf_eq_ok, not_not, ne_eq, ← ok.entriesLba, ← ok.count, ← ok.entrySize,
        ← ok.arrayOffset, ← ok.array]
      exact ok.arrayCrc
    · obtain ⟨array, arrayOffset, count, diskGuid, entrySize, entriesLba, firstUsable,
        headerOffset, headerSize, lastUsable, rawHeader⟩ := h
      simp only [Header.mk.injEq]
      have harray := ok.array
      have harrayOffset := ok.arrayOffset
      simp only at harray harrayOffset
      refine ⟨?_, ?_, ok.count.symm, ok.diskGuid.symm, ok.entrySize.symm, ok.entriesLba.symm,
        ok.firstUsable.symm, ok.offset.symm, trivial, ok.lastUsable.symm, trivial⟩
      · rw [harray, harrayOffset, ← ok.entriesLba, ← ok.count, ← ok.entrySize]
      · rw [harrayOffset, ← ok.entriesLba]

/-! ## Validated images -/

/-- A sector size that `sectorSize` counts. -/
def Candidate (image : Bytes) (size : ℕ) : Prop :=
  image.length % size = 0 ∧ size * 3 ≤ image.length ∧ slice image size (size + 8) = efiPart

theorem sectorSize_eq_ok {image : Bytes} {size : ℕ} :
    sectorSize image = .ok size ↔
      size = 512 ∧ Candidate image 512 ∧ ¬ Candidate image 4096 ∨
        size = 4096 ∧ Candidate image 4096 ∧ ¬ Candidate image 512 := by
  unfold sectorSize sectorSizes
  by_cases h₁ : Candidate image 512 <;> by_cases h₂ : Candidate image 4096
  all_goals
    unfold Candidate at h₁ h₂
    simp only [List.filter_cons, List.filter_nil, h₁, h₂, Candidate]
    simp [eq_comm]

/-- What `validatedGpt` accepts and returns. -/
structure Validated (image : Bytes) (gpt : ValidatedGpt) : Prop where
  sectorSize : sectorSize image = .ok gpt.sectorSize
  primary : HeaderOk image gpt.sectorSize 1 (image.length / gpt.sectorSize - 1) gpt.primary
  backup : HeaderOk image gpt.sectorSize (image.length / gpt.sectorSize - 1) 1 gpt.backup
  diskGuid : gpt.primary.diskGuid = gpt.backup.diskGuid
  firstUsable : gpt.primary.firstUsable = gpt.backup.firstUsable
  lastUsable : gpt.primary.lastUsable = gpt.backup.lastUsable
  count : gpt.primary.count = gpt.backup.count
  entrySize : gpt.primary.entrySize = gpt.backup.entrySize
  array : gpt.primary.array = gpt.backup.array

theorem le_sectorSize {image : Bytes} {size : ℕ} (h : sectorSize image = .ok size) :
    92 ≤ size := by
  rcases sectorSize_eq_ok.1 h with ⟨rfl, -⟩ | ⟨rfl, -⟩ <;> omega

theorem validatedGpt_eq_ok {image : Bytes} {gpt : ValidatedGpt} :
    validatedGpt image = .ok gpt ↔ Validated image gpt := by
  unfold validatedGpt
  simp only [bind_eq_ok, exists_unit, raiseIf_eq_ok, pure_eq_ok, not_not, ne_eq]
  constructor
  · rintro ⟨size, hsize, primary, hprimary, backup, hbackup, hguid, hfirst, hlast, hcount, hentry,
      harray, rfl⟩
    rw [header_eq_ok (le_sectorSize hsize)] at hprimary hbackup
    exact ⟨hsize, hprimary, hbackup, hguid, hfirst, hlast, hcount, hentry, harray⟩
  · intro ok
    have hsize := le_sectorSize ok.sectorSize
    exact ⟨gpt.sectorSize, ok.sectorSize, gpt.primary, (header_eq_ok hsize).2 ok.primary,
      gpt.backup, (header_eq_ok hsize).2 ok.backup, ok.diskGuid, ok.firstUsable, ok.lastUsable,
      ok.count, ok.entrySize, ok.array, rfl⟩

/-! ## The patches -/

/-- The array of both copies with the unique GUIDs cleared. -/
def ValidatedGpt.canonicalEntries (gpt : ValidatedGpt) : Bytes :=
  canonicalArray gpt.primary.array gpt.primary.entrySize gpt.primary.count

/-- A header with its bytes replaced by the canonical ones. -/
def Header.canonical (h : Header) (array : Bytes) : Header :=
  { h with
    array := array
    diskGuid := zeros 16
    rawHeader := canonicalHeader h.rawHeader h.headerSize (crc32 array) }

/-- The result of `validatedGpt` on the canonical image. -/
def ValidatedGpt.canonical (gpt : ValidatedGpt) : ValidatedGpt :=
  ⟨gpt.sectorSize, gpt.primary.canonical gpt.canonicalEntries, gpt.backup.canonical gpt.canonicalEntries⟩

section
variable {image : Bytes} {sectorSize lba expectedBackup : ℕ} {h : Header}
  (ok : HeaderOk image sectorSize lba expectedBackup h)
include ok

theorem HeaderOk.length_raw : h.rawHeader.length = sectorSize := by
  rw [ok.raw, length_slice ok.inside]; omega

theorem HeaderOk.le_raw : 92 ≤ h.rawHeader.length := by
  have := ok.length_raw
  have := ok.size_le
  unfold headerMin at this
  omega

theorem HeaderOk.length_array : h.array.length = h.count * h.entrySize := by
  rw [ok.array, length_slice ok.arrayInside]; omega

/-- The array ends before the sector after its last one. -/
theorem HeaderOk.arrayEnd {lba' : ℕ}
    (hlast : h.entriesLba + (h.count * h.entrySize + sectorSize - 1) / sectorSize - 1 < lba') :
    h.arrayOffset + h.count * h.entrySize ≤ lba' * sectorSize := by
  have hsector : 0 < sectorSize := by
    have := ok.length_raw
    have := ok.le_raw
    omega
  have hceil : h.count * h.entrySize ≤
      (h.count * h.entrySize + sectorSize - 1) / sectorSize * sectorSize := le_ceil_mul hsector
  have hmul : (h.entriesLba + (h.count * h.entrySize + sectorSize - 1) / sectorSize) * sectorSize ≤
      lba' * sectorSize := Nat.mul_le_mul_right _ (by omega)
  rw [Nat.add_mul] at hmul
  rw [ok.arrayOffset]
  omega

end

theorem patchLe_of_le {p q : ℕ × Bytes} (h : p.1 + p.2.length ≤ q.1) : patchLe p q := by
  rcases (Nat.le_of_add_right_le h).lt_or_eq with hlt | heq
  · exact .inl hlt
  · have hnil : p.2 = [] := List.length_eq_zero_iff.1 (by omega)
    exact .inr ⟨heq, by rw [hnil]; exact List.nil_le _⟩

theorem hashBytes_eq {image : Bytes} {position size : ℕ} (h : position + size ≤ image.length) :
    hashBytes image position size = .ok (slice image position (position + size)) := by
  have hlen : (slice image position (position + size)).length = size := by
    rw [length_slice h]; omega
  simp [hashBytes, raiseIf, hlen, pure, Except.pure]

theorem hashPatches_eq {image : Bytes} : ∀ {patches : List (ℕ × Bytes)} {cursor : ℕ},
    Ordered image.length cursor patches →
      hashPatches image cursor patches = .ok (patched image cursor patches)
  | [], cursor, h => by
    have hcursor : cursor ≤ image.length := h
    rw [hashPatches, hashBytes_eq (by omega), patched, Nat.add_sub_cancel' hcursor, slice_length]
  | (offset, replacement) :: rest, cursor, h => by
    have hend := h.2.le_size
    have hoffset := h.1
    rw [hashPatches, raiseIf, if_neg (by omega), ok_bind, hashBytes_eq (by omega), ok_bind,
      hashPatches_eq h.2, ok_bind, patched, Nat.add_sub_cancel' hoffset]
    rfl

section
variable {image : Bytes} {gpt : ValidatedGpt} (ok : Validated image gpt)
include ok

theorem Validated.size : gpt.sectorSize = 512 ∨ gpt.sectorSize = 4096 := by
  rcases sectorSize_eq_ok.1 ok.sectorSize with ⟨h, -⟩ | ⟨h, -⟩
  · exact .inl h
  · exact .inr h

theorem Validated.candidate : Candidate image gpt.sectorSize := by
  rcases sectorSize_eq_ok.1 ok.sectorSize with ⟨h, hc, -⟩ | ⟨h, hc, -⟩
  · rw [h]; exact hc
  · rw [h]; exact hc

theorem Validated.length_canonicalEntries :
    gpt.canonicalEntries.length = gpt.primary.count * gpt.primary.entrySize := by
  have hentry : 32 ≤ gpt.primary.entrySize := by have := ok.primary.entrySize_le; omega
  have hlen := ok.primary.length_array
  rw [ValidatedGpt.canonicalEntries, (canonicalArray_spec _ hentry hlen.ge).1, hlen]

/-- Each copy's header and array follow each other around the usable range, and the
    backup header is the last sector. -/
theorem Validated.regions :
    gpt.primary.headerOffset + gpt.sectorSize ≤ gpt.primary.arrayOffset ∧
      gpt.primary.arrayOffset + gpt.primary.count * gpt.primary.entrySize ≤
        gpt.backup.arrayOffset ∧
      gpt.backup.arrayOffset + gpt.backup.count * gpt.backup.entrySize ≤
        gpt.backup.headerOffset ∧
      gpt.backup.headerOffset + gpt.sectorSize = image.length := by
  have hpos : 0 < gpt.sectorSize := by rcases ok.size with h | h <;> omega
  obtain ⟨hmod, hthree, -⟩ := ok.candidate
  refine ⟨?_, ?_, ?_, ?_⟩
  · have hstart := Nat.mul_le_mul_right gpt.sectorSize ok.primary.arrayLba.1
    rw [ok.primary.arrayOffset, ok.primary.offset]
    omega
  · have hprimary := ok.primary.arrayEnd (ok.primary.beforeUsable.resolve_left (by omega))
    have hbackup : (gpt.backup.lastUsable + 1) * gpt.sectorSize ≤ gpt.backup.arrayOffset := by
      rw [ok.backup.arrayOffset]
      exact Nat.mul_le_mul_right _ (ok.backup.afterUsable.resolve_left (by omega))
    have husable : gpt.primary.firstUsable * gpt.sectorSize ≤
        (gpt.backup.lastUsable + 1) * gpt.sectorSize := by
      have := ok.primary.usable
      have := ok.lastUsable
      exact Nat.mul_le_mul_right _ (by omega)
    omega
  · rw [ok.backup.offset]
    exact ok.backup.arrayEnd ok.backup.arrayLba.2
  · have hdiv := Nat.div_mul_cancel (Nat.dvd_of_mod_eq_zero hmod)
    have hone : 1 ≤ image.length / gpt.sectorSize := (Nat.le_div_iff_mul_le hpos).2 (by omega)
    rw [ok.backup.offset, ← Nat.succ_mul, Nat.succ_eq_add_one, Nat.sub_add_cancel hone, hdiv]

/-- **The patches do not overlap.** -/
theorem Validated.ordered : Ordered image.length 0 (canonicalPatches gpt) := by
  obtain ⟨h₁, h₂, h₃, h₄⟩ := ok.regions
  have harray := ok.length_canonicalEntries
  have hprimary := length_canonicalHeader (crc32 gpt.canonicalEntries) ok.primary.le_raw
    gpt.primary.headerSize
  have hbackup := length_canonicalHeader (crc32 gpt.canonicalEntries) ok.backup.le_raw
    gpt.backup.headerSize
  rw [ok.primary.length_raw] at hprimary
  rw [ok.backup.length_raw] at hbackup
  rw [← ok.count, ← ok.entrySize] at h₃
  unfold ValidatedGpt.canonicalEntries at harray hprimary hbackup
  simp only [canonicalPatches, Ordered]
  omega

/-- Sorting the patches leaves them in order, and the loop copies the file around them. -/
theorem Validated.hashPatches_ok :
    hashPatches image 0 ((canonicalPatches gpt).insertionSort patchLe) =
      .ok (patched image 0 (canonicalPatches gpt)) := by
  have hsorted : (canonicalPatches gpt).insertionSort patchLe = canonicalPatches gpt :=
    (ok.ordered.pairwise.imp patchLe_of_le).insertionSort_eq
  rw [hsorted]
  exact hashPatches_eq ok.ordered

end

/-- The stream of an accepted image is the image with the patches in place. -/
theorem canonicalStream_eq_ok {P : Platform} {image s : Bytes} {slotLabel : Option Str} :
    canonicalStream P image slotLabel = .ok s ↔
      ∃ metadata gpt, projectImage P image "uefi" slotLabel = .ok metadata ∧ Validated image gpt ∧
        s = patched image 0 (canonicalPatches gpt) := by
  simp only [canonicalStream, bind_eq_ok, validatedGpt_eq_ok]
  constructor
  · rintro ⟨metadata, hproject, gpt, ok, hs⟩
    rw [ok.hashPatches_ok, Except.ok.injEq] at hs
    exact ⟨metadata, gpt, hproject, ok, hs.symm⟩
  · rintro ⟨metadata, gpt, hproject, ok, rfl⟩
    exact ⟨metadata, hproject, gpt, ok, ok.hashPatches_ok⟩

/-! ## What the patches change -/

/-- The normalized bytes of one GPT copy. -/
def Header.Masked (h : Header) (i : ℕ) : Prop :=
  (h.headerOffset ≤ i ∧ HeaderMask (i - h.headerOffset)) ∨
    (h.arrayOffset ≤ i ∧ ArrayMask h.entrySize h.count (i - h.arrayOffset))

/-- The identities and checksums of an image: in the two headers the header checksum
    (bytes 16 to 20), the disk GUID (56 to 72) and the array checksum (88 to 92), and in
    each entry of the two arrays the unique GUID (16 to 32). -/
def ValidatedGpt.Masked (gpt : ValidatedGpt) (i : ℕ) : Prop :=
  gpt.primary.Masked i ∨ gpt.backup.Masked i

/-- Two files of one size that agree outside the normalized bytes of the first. -/
def ValidatedGpt.Agree (gpt : ValidatedGpt) (image image' : Bytes) : Prop :=
  image.length = image'.length ∧ ∀ i, ¬ gpt.Masked i → image[i]? = image'[i]?

/-- The layout of a copy, which the patches keep. -/
structure Header.SameLayout (h h' : Header) : Prop where
  headerOffset : h.headerOffset = h'.headerOffset
  headerSize : h.headerSize = h'.headerSize
  arrayOffset : h.arrayOffset = h'.arrayOffset
  count : h.count = h'.count
  entrySize : h.entrySize = h'.entrySize

section
variable {image image' : Bytes} {sectorSize lba expectedBackup expectedBackup' : ℕ}
  {h h' : Header} (ok : HeaderOk image sectorSize lba expectedBackup h)
  (ok' : HeaderOk image' sectorSize lba expectedBackup' h')
include ok

/-- A byte of the header, at its place in the image. -/
theorem HeaderOk.getElem?_raw {i : ℕ} (hi : i < sectorSize) :
    h.rawHeader[i]? = image[h.headerOffset + i]? := by
  rw [ok.raw, getElem?_slice, if_pos (by omega), ok.offset]

theorem HeaderOk.getElem?_array {i : ℕ} (hi : i < h.count * h.entrySize) :
    h.array[i]? = image[h.arrayOffset + i]? := by
  rw [ok.array, getElem?_slice, if_pos (by omega)]

include ok'

/-- The headers of images that agree outside the mask do so too. -/
theorem HeaderOk.agree_raw (hagree : ∀ i < sectorSize, ¬ HeaderMask i →
    image[h.headerOffset + i]? = image'[h.headerOffset + i]?) (i : ℕ) (hi : ¬ HeaderMask i) :
    h.rawHeader[i]? = h'.rawHeader[i]? := by
  have hlen := ok.length_raw
  have hlen' := ok'.length_raw
  by_cases hlt : i < sectorSize
  · have hoffset : h.headerOffset = h'.headerOffset := by rw [ok.offset, ok'.offset]
    rw [ok.getElem?_raw hlt, ok'.getElem?_raw hlt, ← hoffset, hagree i hlt hi]
  · rw [List.getElem?_eq_none (by omega), List.getElem?_eq_none (by omega)]

/-- Headers that agree outside the mask have one layout. -/
theorem HeaderOk.sameLayout (hagree : ∀ i, ¬ HeaderMask i → h.rawHeader[i]? = h'.rawHeader[i]?) :
    h.SameLayout h' := by
  have hfield : ∀ off n, (∀ i, off ≤ i → i < off + n → ¬ HeaderMask i) →
      field h.rawHeader off n = field h'.rawHeader off n :=
    fun off n hout => field_congr fun i hi hi' => hagree i (hout i hi hi')
  refine ⟨?_, ?_, ?_, ?_, ?_⟩
  · rw [ok.offset, ok'.offset]
  · rw [ok.size, ok'.size, hfield 12 4 (by unfold HeaderMask; omega)]
  · rw [ok.arrayOffset, ok'.arrayOffset, ok.entriesLba, ok'.entriesLba,
      hfield 72 8 (by unfold HeaderMask; omega)]
  · rw [ok.count, ok'.count, hfield 80 4 (by unfold HeaderMask; omega)]
  · rw [ok.entrySize, ok'.entrySize, hfield 84 4 (by unfold HeaderMask; omega)]

end

/-! ## The canonical image is accepted -/

theorem Header.Masked.region {h : Header} {i : ℕ} (hentry : 32 ≤ h.entrySize) (hi : h.Masked i) :
    (h.headerOffset ≤ i ∧ i < h.headerOffset + 92) ∨
      (h.arrayOffset ≤ i ∧ i < h.arrayOffset + h.count * h.entrySize) := by
  rcases hi with ⟨hle, hmask⟩ | ⟨hle, hmask⟩
  · unfold HeaderMask at hmask
    exact .inl (by omega)
  · have := hmask.lt hentry
    exact .inr (by omega)

section
variable {image : Bytes} {gpt : ValidatedGpt} (ok : Validated image gpt)
include ok

theorem Validated.le_entrySize : 32 ≤ gpt.primary.entrySize ∧ 32 ≤ gpt.backup.entrySize := by
  have := ok.primary.entrySize_le
  have := ok.backup.entrySize_le
  omega

/-- The bytes of the headers outside their masks are not normalized. -/
theorem Validated.not_masked_header {i : ℕ} (hi : i < gpt.sectorSize) (hmask : ¬ HeaderMask i) :
    ¬ gpt.Masked (gpt.primary.headerOffset + i) ∧ ¬ gpt.Masked (gpt.backup.headerOffset + i) := by
  obtain ⟨h₁, h₂, h₃, h₄⟩ := ok.regions
  obtain ⟨hentry, hentry'⟩ := ok.le_entrySize
  have hsector := le_sectorSize ok.sectorSize
  constructor
  · rintro ((⟨-, hin⟩ | hin) | hin)
    · exact hmask (by rwa [Nat.add_sub_cancel_left] at hin)
    · omega
    · have := hin.region hentry'
      omega
  · rintro (hin | (⟨-, hin⟩ | hin))
    · have := hin.region hentry
      omega
    · exact hmask (by rwa [Nat.add_sub_cancel_left] at hin)
    · have := hin.2.lt hentry'
      omega

/-- The bytes of the primary array outside its mask are not normalized. -/
theorem Validated.not_masked_array {i : ℕ} (hi : i < gpt.primary.count * gpt.primary.entrySize)
    (hmask : ¬ ArrayMask gpt.primary.entrySize gpt.primary.count i) :
    ¬ gpt.Masked (gpt.primary.arrayOffset + i) := by
  obtain ⟨h₁, h₂, h₃, h₄⟩ := ok.regions
  obtain ⟨hentry, hentry'⟩ := ok.le_entrySize
  have hsector := le_sectorSize ok.sectorSize
  rintro ((⟨hle, hin⟩ | ⟨-, hin⟩) | hin)
  · unfold HeaderMask at hin
    omega
  · exact hmask (by rwa [Nat.add_sub_cancel_left] at hin)
  · have := hin.region hentry'
    omega

/-- The normalized bytes lie inside the patches. -/
theorem Validated.not_masked_of_untouched {i : ℕ} (hi : Untouched (canonicalPatches gpt) i) :
    ¬ gpt.Masked i := by
  obtain ⟨hentry, hentry'⟩ := ok.le_entrySize
  have harray := ok.length_canonicalEntries
  have hprimary := length_canonicalHeader (crc32 gpt.canonicalEntries) ok.primary.le_raw
    gpt.primary.headerSize
  have hbackup := length_canonicalHeader (crc32 gpt.canonicalEntries) ok.backup.le_raw
    gpt.backup.headerSize
  have hraw := ok.primary.le_raw
  have hraw' := ok.backup.le_raw
  have hcount := ok.count
  have hsize := ok.entrySize
  unfold ValidatedGpt.canonicalEntries at harray hprimary hbackup
  simp only [Untouched, canonicalPatches, List.forall_mem_cons, List.not_mem_nil, IsEmpty.forall_iff,
    implies_true, and_true] at hi
  obtain ⟨h₁, h₂, h₃, h₄⟩ := hi
  rintro (hin | hin)
  · have := hin.region hentry
    omega
  · have := hin.region hentry'
    rw [← hcount, ← hsize] at this
    omega

/-- The stream keeps the bytes that are not normalized. -/
theorem Validated.agree : gpt.Agree image (patched image 0 (canonicalPatches gpt)) := by
  refine ⟨by rw [length_patched ok.ordered, Nat.sub_zero], fun i hi => ?_⟩
  by_cases hin : Untouched (canonicalPatches gpt) i
  · have := getElem?_patched_untouched ok.ordered (Nat.zero_le i) hin
    rw [Nat.sub_zero] at this
    exact this.symm
  · simp only [Untouched, not_forall, not_not] at hin
    obtain ⟨p, hp, hin⟩ := hin
    rw [getElem?_patched_mem ok.ordered hp hin]
    obtain ⟨hentry, -⟩ := ok.le_entrySize
    have harray := ok.length_canonicalEntries
    -- each patch changes only the masked bytes of its own range
    obtain ⟨-, -, hkept⟩ := canonicalArray_spec _ hentry ok.primary.length_array.ge
    have hheader : ∀ {h : Header} {lba backup : ℕ}, HeaderOk image gpt.sectorSize lba backup h →
        ¬ h.Masked i → h.headerOffset ≤ i → i < h.headerOffset + gpt.sectorSize →
        image[i]? = (canonicalHeader h.rawHeader h.headerSize (crc32 gpt.canonicalEntries))[i -
          h.headerOffset]? := by
      intro h lba backup okHeader hmask hle hlt
      have hout : ¬ HeaderMask (i - h.headerOffset) := fun hm => hmask (.inl ⟨hle, hm⟩)
      rw [getElem?_canonicalHeader _ okHeader.le_raw _ hout, okHeader.getElem?_raw (by omega),
        Nat.add_sub_cancel' hle]
    simp only [canonicalPatches, List.mem_cons, List.not_mem_nil, or_false] at hp
    rcases hp with rfl | rfl | rfl | rfl
    · refine hheader ok.primary (fun hm => hi (.inl hm)) hin.1 ?_
      rw [length_canonicalHeader _ ok.primary.le_raw, ok.primary.length_raw] at hin
      exact hin.2
    · have hout : ¬ ArrayMask gpt.primary.entrySize gpt.primary.count
          (i - gpt.primary.arrayOffset) := fun hm => hi (.inl (.inr ⟨hin.1, hm⟩))
      unfold ValidatedGpt.canonicalEntries at harray
      simp only at hin
      rw [hkept _ hout, ok.primary.getElem?_array (by omega), Nat.add_sub_cancel' hin.1]
    · have hout : ¬ ArrayMask gpt.primary.entrySize gpt.primary.count
          (i - gpt.backup.arrayOffset) := by
        rw [ok.entrySize, ok.count]
        exact fun hm => hi (.inr (.inr ⟨hin.1, hm⟩))
      unfold ValidatedGpt.canonicalEntries at harray
      simp only at hin
      have hlt : i - gpt.backup.arrayOffset < gpt.backup.count * gpt.backup.entrySize := by
        rw [← ok.count, ← ok.entrySize]; omega
      rw [hkept _ hout, ok.array, ok.backup.getElem?_array hlt, Nat.add_sub_cancel' hin.1]
    · refine hheader ok.backup (fun hm => hi (.inr hm)) hin.1 ?_
      rw [length_canonicalHeader _ ok.backup.le_raw, ok.backup.length_raw] at hin
      exact hin.2

end

/-- A header of the stream passes the checks that the header of the image passed. -/
theorem HeaderOk.canonical {image stream array : Bytes} {sectorSize lba expectedBackup : ℕ}
    {h : Header} (ok : HeaderOk image sectorSize lba expectedBackup h)
    (hlen : image.length = stream.length)
    (hraw : slice stream h.headerOffset (h.headerOffset + sectorSize) =
      canonicalHeader h.rawHeader h.headerSize (crc32 array))
    (harray : slice stream h.arrayOffset (h.arrayOffset + h.count * h.entrySize) = array) :
    HeaderOk stream sectorSize lba expectedBackup (h.canonical array) := by
  have hle := ok.le_raw
  have hfield : ∀ off n, (∀ i, off ≤ i → i < off + n → ¬ HeaderMask i) →
      field h.rawHeader off n =
        field (canonicalHeader h.rawHeader h.headerSize (crc32 array)) off n :=
    fun off n hout => (field_canonicalHeader _ hle _ hout).symm
  have hslice : ∀ a b, (∀ i, a ≤ i → i < b → ¬ HeaderMask i) →
      slice h.rawHeader a b = slice (canonicalHeader h.rawHeader h.headerSize (crc32 array)) a b :=
    fun a b hout => slice_congr fun i hi hi' => (getElem?_canonicalHeader _ hle _ (hout i hi hi')).symm
  have hcrc : crc32 array < 256 ^ 4 := crc32_lt array
  constructor
  case inside => rw [← hlen]; exact ok.inside
  case raw => rw [← ok.offset]; exact hraw.symm
  case offset => exact ok.offset
  case signature =>
    rw [← slice_zero, ← ok.signature, ← slice_zero]
    exact (hslice 0 8 (by unfold HeaderMask; omega)).symm
  case revision => rw [← ok.revision]; exact (hfield 8 4 (by unfold HeaderMask; omega)).symm
  case size => exact ok.size.trans (hfield 12 4 (by unfold HeaderMask; omega))
  case size_le => exact ok.size_le
  case crc => exact canonicalHeader_crc _ hle ok.size_le.1
  case reserved => rw [← ok.reserved]; exact (hslice 20 24 (by unfold HeaderMask; omega)).symm
  case current => rw [← ok.current]; exact (hfield 24 8 (by unfold HeaderMask; omega)).symm
  case backup => rw [← ok.backup]; exact (hfield 32 8 (by unfold HeaderMask; omega)).symm
  case location => rw [← hlen]; exact ok.location
  case firstUsable => exact ok.firstUsable.trans (hfield 40 8 (by unfold HeaderMask; omega))
  case lastUsable => exact ok.lastUsable.trans (hfield 48 8 (by unfold HeaderMask; omega))
  case usable => rw [← hlen]; exact ok.usable
  case diskGuid => exact (canonicalHeader_diskGuid _ hle _).symm
  case entriesLba => exact ok.entriesLba.trans (hfield 72 8 (by unfold HeaderMask; omega))
  case arrayOffset => exact ok.arrayOffset
  case count => exact ok.count.trans (hfield 80 4 (by unfold HeaderMask; omega))
  case count_le => exact ok.count_le
  case entrySize => exact ok.entrySize.trans (hfield 84 4 (by unfold HeaderMask; omega))
  case entrySize_le => exact ok.entrySize_le
  case arraySize_le => exact ok.arraySize_le
  case arrayInside => rw [← hlen]; exact ok.arrayInside
  case array => exact harray.symm
  case arrayLba => rw [← hlen]; exact ok.arrayLba
  case beforeUsable => exact ok.beforeUsable
  case afterUsable => rw [← hlen]; exact ok.afterUsable
  case arrayCrc => exact (canonicalHeader_arrayCrc _ hle _ hcrc).symm

section
variable {image : Bytes} {gpt : ValidatedGpt} (ok : Validated image gpt)
include ok

/-- Outside the headers a byte of the stream is the image's own or zero. -/
theorem Validated.getElem?_stream {i : ℕ}
    (hout : i < gpt.primary.headerOffset ∨ gpt.primary.headerOffset + 92 ≤ i)
    (hout' : i < gpt.backup.headerOffset) :
    (patched image 0 (canonicalPatches gpt))[i]? = image[i]? ∨
      (patched image 0 (canonicalPatches gpt))[i]? = some 0 := by
  by_cases hmask : gpt.Masked i
  · right
    obtain ⟨hentry, -⟩ := ok.le_entrySize
    have harray := ok.length_canonicalEntries
    obtain ⟨-, hzero, -⟩ := canonicalArray_spec _ hentry ok.primary.length_array.ge
    unfold ValidatedGpt.canonicalEntries at harray
    have hcount := ok.count
    have hsize := ok.entrySize
    have hmem : ∀ {offset : ℕ}, offset = gpt.primary.arrayOffset ∨ offset = gpt.backup.arrayOffset →
        offset ≤ i → ArrayMask gpt.primary.entrySize gpt.primary.count (i - offset) →
        (patched image 0 (canonicalPatches gpt))[i]? = some 0 := by
      intro offset hoffset hle hm
      have hlt := hm.lt hentry
      have hp : (offset, gpt.canonicalEntries) ∈ canonicalPatches gpt := by
        rcases hoffset with rfl | rfl
        · exact List.mem_cons_of_mem _ List.mem_cons_self
        · exact List.mem_cons_of_mem _ (List.mem_cons_of_mem _ List.mem_cons_self)
      rw [getElem?_patched_mem ok.ordered hp ⟨hle, ?_⟩]
      · exact hzero _ hm
      · show i < offset + gpt.canonicalEntries.length
        rw [ok.length_canonicalEntries]; omega
    rcases hmask with (⟨hle, hm⟩ | ⟨hle, hm⟩) | (⟨hle, hm⟩ | ⟨hle, hm⟩)
    · unfold HeaderMask at hm; omega
    · exact hmem (.inl rfl) hle hm
    · omega
    · exact hmem (.inr rfl) hle (by rwa [hcount, hsize])
  · exact .inl (ok.agree.2 i hmask).symm

/-- The signature is not normalized. -/
theorem Validated.candidate_of_agree {image' : Bytes} (h : gpt.Agree image image') :
    Candidate image' gpt.sectorSize := by
  obtain ⟨hlen, hagree⟩ := h
  obtain ⟨hmod, hthree, hsig⟩ := ok.candidate
  refine ⟨hlen ▸ hmod, hlen ▸ hthree, ?_⟩
  rw [← hsig]
  refine (slice_congr fun i hi hi' => hagree i ?_).symm
  have hoffset := ok.primary.offset
  have hle := le_sectorSize ok.sectorSize
  have hout : ¬ HeaderMask (i - gpt.primary.headerOffset) := by unfold HeaderMask; omega
  have := (ok.not_masked_header (by omega) hout).1
  rwa [Nat.add_sub_cancel' (by omega)] at this

/-- Clearing GUIDs does not create a signature: its bytes are not zero. -/
theorem Validated.signature_of_stream {size : ℕ}
    (hout : size + 8 ≤ gpt.primary.headerOffset ∨ gpt.primary.headerOffset + 92 ≤ size)
    (hout' : size + 8 ≤ gpt.backup.headerOffset)
    (h : slice (patched image 0 (canonicalPatches gpt)) size (size + 8) = efiPart) :
    slice image size (size + 8) = efiPart := by
  rw [← h]
  refine slice_congr fun i hi hi' => ?_
  rcases ok.getElem?_stream (i := i) (by omega) (by omega) with heq | hzero
  · exact heq.symm
  · have hbyte : efiPart[i - size]? = some 0 := by
      rw [← h, getElem?_slice, if_pos (by omega), Nat.add_sub_cancel' hi, hzero]
    exact absurd (List.mem_of_getElem? hbyte) (by decide)

/-- **The stream has the image's sector size:** no signature disappears, and none appears
    at the other size's second sector. -/
theorem Validated.sectorSize_stream :
    RulesMkosi.PartitionMetadata.sectorSize (patched image 0 (canonicalPatches gpt)) =
      .ok gpt.sectorSize := by
  obtain ⟨hlen, hagree⟩ := ok.agree
  obtain ⟨h₁, h₂, h₃, h₄⟩ := ok.regions
  obtain ⟨hmod, hthree, hsig⟩ := ok.candidate
  have hoffset := ok.primary.offset
  have hcandidate := ok.candidate_of_agree ok.agree
  have hother : ∀ {size : ℕ}, ¬ Candidate image size → size * 3 ≤ image.length →
      (size + 8 ≤ gpt.primary.headerOffset ∨ gpt.primary.headerOffset + 92 ≤ size) →
      size + 8 ≤ gpt.backup.headerOffset →
      ¬ Candidate (patched image 0 (canonicalPatches gpt)) size := by
    intro size hnot _ hout hout' ⟨hm, ht, hs⟩
    exact hnot ⟨hlen ▸ hm, hlen ▸ ht, ok.signature_of_stream hout hout' hs⟩
  rw [sectorSize_eq_ok]
  rcases sectorSize_eq_ok.1 ok.sectorSize with ⟨hsize, -, hnot⟩ | ⟨hsize, -, hnot⟩
  · refine .inl ⟨hsize, hsize ▸ hcandidate, ?_⟩
    intro hc
    -- a 4096-byte candidate has three such sectors, so the backup header is beyond it
    have hlarge := hc.2.1
    rw [← hlen] at hlarge
    exact hother hnot hlarge (by omega) (by omega) hc
  · exact .inr ⟨hsize, hsize ▸ hcandidate, hother hnot (by omega) (by omega) (by omega)⟩

/-- **The stream is an accepted image** with the layout of the original. -/
theorem Validated.canonical : Validated (patched image 0 (canonicalPatches gpt)) gpt.canonical := by
  have hlen := ok.agree.1
  have hslice := fun p hp => slice_patched_mem ok.ordered p hp
  simp only [canonicalPatches, List.forall_mem_cons, List.not_mem_nil, IsEmpty.forall_iff,
    implies_true, and_true, Nat.sub_zero] at hslice
  obtain ⟨hprimary, harray, harray', hbackup⟩ := hslice
  have hentries := ok.length_canonicalEntries
  unfold ValidatedGpt.canonicalEntries at hentries
  rw [length_canonicalHeader _ ok.primary.le_raw, ok.primary.length_raw] at hprimary
  rw [length_canonicalHeader _ ok.backup.le_raw, ok.backup.length_raw] at hbackup
  rw [hentries] at harray harray'
  constructor
  case sectorSize => exact ok.sectorSize_stream
  case primary => rw [← hlen]; exact ok.primary.canonical hlen hprimary harray
  case backup =>
    rw [← hlen]
    refine ok.backup.canonical hlen hbackup ?_
    rw [← ok.count, ← ok.entrySize]
    exact harray'
  case diskGuid => rfl
  case firstUsable => exact ok.firstUsable
  case lastUsable => exact ok.lastUsable
  case count => exact ok.count
  case entrySize => exact ok.entrySize
  case array => rfl

end

/-! ## Projecting the canonical image -/

/-- Entries that agree outside the unique GUID. -/
def SameEntry (entry entry' : Bytes) : Prop :=
  entry.length = entry'.length ∧ ∀ i, i < 16 ∨ 32 ≤ i → entry[i]? = entry'[i]?

theorem SameEntry.slice {entry entry' : Bytes} (h : SameEntry entry entry') {a b : ℕ}
    (hout : b ≤ 16 ∨ 32 ≤ a) : slice entry a b = slice entry' a b :=
  slice_congr fun i hi hi' => h.2 i (by omega)

theorem SameEntry.unpackFrom {entry entry' : Bytes} (h : SameEntry entry entry') {n off : ℕ}
    (hout : 32 ≤ off) : unpackFrom n entry off = unpackFrom n entry' off := by
  have hfield : field entry off n = field entry' off n :=
    field_congr fun i hi _ => h.2 i (by omega)
  rw [RulesMkosi.unpackFrom, RulesMkosi.unpackFrom, h.1, hfield]

theorem SameEntry.projectEntry {entry entry' : Bytes} (h : SameEntry entry entry')
    (number first last sectorSize : ℕ) :
    projectEntry entry number first last sectorSize =
      projectEntry entry' number first last sectorSize := by
  simp only [PartitionMetadata.projectEntry, entryLabel, h.slice (a := 56) (.inr (by omega)),
    h.slice (b := 16) (.inl le_rfl)]

theorem uuidString_ok {data : Bytes} (h : data.length = 16) : ∃ uuid, uuidString data = .ok uuid := by
  simp [uuidString, raiseIf, h, pure, Except.pure]

theorem entryUuid_ok (slotLabel : Option Str) {entry : Bytes} (h : 32 ≤ entry.length) :
    ∃ uuid, entryUuid slotLabel entry = .ok uuid := by
  cases slotLabel with
  | none => exact ⟨none, rfl⟩
  | some label =>
    obtain ⟨uuid, huuid⟩ := uuidString_ok (length_slice (a := 16) h)
    exact ⟨some uuid, by simp [entryUuid, huuid, pure, Except.pure]⟩

/-- Scans that found the same partitions, up to the unique GUIDs. -/
def Scan.Same (scan scan' : Scan) : Prop :=
  scan.partitions.map Partition.toPartitionEntry = scan'.partitions.map Partition.toPartitionEntry ∧
    scan.previous = scan'.previous

section
variable {image : Bytes} {gpt : ValidatedGpt} (ok : Validated image gpt)
include ok

/-- The entry of a slot, in both arrays. -/
theorem Validated.sameEntry {slot : ℕ} (hslot : slot < gpt.primary.count) :
    SameEntry
        (RulesMkosi.slice gpt.primary.array (slot * gpt.primary.entrySize)
          ((slot + 1) * gpt.primary.entrySize))
        (RulesMkosi.slice gpt.canonicalEntries (slot * gpt.primary.entrySize)
          ((slot + 1) * gpt.primary.entrySize)) ∧
      32 ≤ (RulesMkosi.slice gpt.canonicalEntries (slot * gpt.primary.entrySize)
          ((slot + 1) * gpt.primary.entrySize)).length := by
  have hle := Nat.mul_le_mul_right gpt.primary.entrySize hslot
  have hlen := ok.primary.length_array
  have hlen' := ok.length_canonicalEntries
  obtain ⟨hentry, -⟩ := ok.le_entrySize
  obtain ⟨-, -, hkept⟩ := canonicalArray_spec _ hentry hlen.ge
  rw [Nat.succ_mul] at hle
  rw [Nat.succ_mul]
  refine ⟨⟨?_, fun i hi => ?_⟩, ?_⟩
  · rw [length_slice (by omega), length_slice (by omega)]
  · rw [getElem?_slice, getElem?_slice]
    split_ifs with hlt
    · refine (hkept _ ?_).symm
      -- the GUIDs of the other entries lie in other slots
      rintro ⟨slot', hslot', hin⟩
      rcases Nat.lt_trichotomy slot' slot with hlt' | rfl | hgt
      · have hmul := Nat.mul_le_mul_right gpt.primary.entrySize hlt'
        rw [Nat.succ_mul] at hmul
        omega
      · omega
      · have hmul := Nat.mul_le_mul_right gpt.primary.entrySize hgt
        rw [Nat.succ_mul] at hmul
        omega
    · rfl
  · rw [length_slice (by omega)]; omega

theorem Validated.scanEntry_same {slotLabel : Option Str} {slot : ℕ}
    (hslot : slot < gpt.primary.count) {scan scan' next : Scan} (hsame : scan.Same scan')
    (h : scanEntry slotLabel gpt.sectorSize gpt.primary scan slot = .ok next) :
    ∃ next', scanEntry slotLabel gpt.sectorSize gpt.canonical.primary scan' slot = .ok next' ∧
      next.Same next' := by
  obtain ⟨hentry, hlen⟩ := ok.sameEntry hslot
  simp only [scanEntry] at h ⊢
  generalize RulesMkosi.slice gpt.primary.array (slot * gpt.primary.entrySize)
    ((slot + 1) * gpt.primary.entrySize) = entry at h hentry
  have hcanonical : RulesMkosi.slice gpt.canonical.primary.array
      (slot * gpt.canonical.primary.entrySize) ((slot + 1) * gpt.canonical.primary.entrySize) =
      RulesMkosi.slice gpt.canonicalEntries (slot * gpt.primary.entrySize)
        ((slot + 1) * gpt.primary.entrySize) := rfl
  rw [hcanonical]
  generalize RulesMkosi.slice gpt.canonicalEntries (slot * gpt.primary.entrySize)
    ((slot + 1) * gpt.primary.entrySize) = entry' at hentry hlen ⊢
  rw [← slice_zero, hentry.slice (.inl le_rfl), slice_zero] at h
  split_ifs at h ⊢ with hunused
  · simp only [Except.ok.injEq] at h
    exact ⟨scan', rfl, h ▸ hsame⟩
  · simp only [bind_eq_ok, exists_unit, pure_eq_ok] at h
    obtain ⟨first, hfirst, last, hlast, hrange, projected, hproject, uuid, -, rfl⟩ := h
    obtain ⟨uuid', huuid'⟩ := entryUuid_ok slotLabel hlen
    rw [hentry.unpackFrom (by omega)] at hfirst hlast
    rw [hsame.2] at hrange
    rw [hentry.projectEntry] at hproject
    refine ⟨⟨scan'.partitions ++ [⟨projected, uuid'⟩], some (first, last, slot + 1)⟩, ?_, ?_⟩
    · -- the range check reads only the usable range of the header
      have hrange' : checkEntryRange (slot + 1) first last gpt.canonical.primary scan'.previous =
        .ok () := hrange
      rw [hfirst, ok_bind, hlast, ok_bind, hrange', ok_bind, hproject, ok_bind, huuid', ok_bind]
      rfl
    · refine ⟨?_, rfl⟩
      simp only [List.map_append, hsame.1, List.map_cons, List.map_nil]

theorem Validated.project_stream {P : Platform} {firmware : String} {slotLabel : Option Str}
    {metadata : ImageMetadata} (h : projectImage P image firmware slotLabel = .ok metadata) :
    ∃ metadata', projectImage P (patched image 0 (canonicalPatches gpt)) firmware slotLabel =
        .ok metadata' ∧
      metadata'.partitions.map Partition.toPartitionEntry =
        metadata.partitions.map Partition.toPartitionEntry ∧
      metadata'.sectorSize = metadata.sectorSize := by
  simp only [projectImage, bind_eq_ok, exists_unit, pure_eq_ok] at h
  obtain ⟨gpt', hgpt, scan, hscan, hroots, hfirmware, rfl⟩ := h
  obtain rfl : gpt = gpt' := by
    rw [validatedGpt_eq_ok.2 ok, Except.ok.injEq] at hgpt
    exact hgpt
  obtain ⟨scan', hscan', hsame⟩ := foldlM_rel Scan.Same
    (fun scan scan' next slot hslot hsame hnext =>
      ok.scanEntry_same (List.mem_range.1 hslot) hsame hnext)
    (⟨rfl, rfl⟩ : Scan.Same ⟨[], none⟩ ⟨[], none⟩) hscan
  refine ⟨⟨firmware, "mkosi-partition-metadata-v1", scan'.partitions, gpt.sectorSize⟩, ?_,
    hsame.1.symm, rfl⟩
  simp only [projectImage, bind_eq_ok, exists_unit, pure_eq_ok]
  refine ⟨gpt.canonical, validatedGpt_eq_ok.2 ok.canonical, scan', hscan', ?_, ?_, rfl⟩
  · rw [← hsame.1]; exact hroots
  · rw [← hsame.1]; exact hfirmware

end

/-! ## The normal form -/

theorem Validated.unique {image : Bytes} {gpt gpt' : ValidatedGpt} (ok : Validated image gpt)
    (ok' : Validated image gpt') : gpt = gpt' := by
  rw [← validatedGpt_eq_ok] at ok ok'
  rw [ok, Except.ok.injEq] at ok'
  exact ok'

/-- Accepted images that agree outside the normalized bytes have the same sector size. -/
theorem Validated.sectorSize_eq {image image' : Bytes} {gpt gpt' : ValidatedGpt}
    (ok : Validated image gpt) (ok' : Validated image' gpt') (h : gpt.Agree image image') :
    gpt.sectorSize = gpt'.sectorSize := by
  have hcandidate := ok.candidate_of_agree h
  rcases sectorSize_eq_ok.1 ok.sectorSize with ⟨hsize, -⟩ | ⟨hsize, -⟩ <;>
    rcases sectorSize_eq_ok.1 ok'.sectorSize with ⟨hsize', -, hnot⟩ | ⟨hsize', -, hnot⟩
  · rw [hsize, hsize']
  · rw [hsize] at hcandidate; exact absurd hcandidate hnot
  · rw [hsize] at hcandidate; exact absurd hcandidate hnot
  · rw [hsize, hsize']

/-- **The stream depends only on the bytes that are not normalized.** -/
theorem Validated.patched_eq {image image' : Bytes} {gpt gpt' : ValidatedGpt}
    (ok : Validated image gpt) (ok' : Validated image' gpt') (h : gpt.Agree image image') :
    patched image 0 (canonicalPatches gpt) = patched image' 0 (canonicalPatches gpt') := by
  have hsize := ok.sectorSize_eq ok' h
  obtain ⟨hlen, hagree⟩ := h
  have hok := ok'.primary
  have hok' := ok'.backup
  rw [← hsize, ← hlen] at hok hok'
  have hraw := ok.primary.agree_raw hok fun i hi hmask =>
    hagree _ (ok.not_masked_header hi hmask).1
  have hraw' := ok.backup.agree_raw hok' fun i hi hmask =>
    hagree _ (ok.not_masked_header hi hmask).2
  have hprimary := ok.primary.sameLayout hok hraw
  have hbackup := ok.backup.sameLayout hok' hraw'
  have harray : gpt.canonicalEntries = gpt'.canonicalEntries := by
    have hlenArray := ok.primary.length_array
    have hlenArray' := ok'.primary.length_array
    rw [← hprimary.count, ← hprimary.entrySize] at hlenArray'
    rw [ValidatedGpt.canonicalEntries, ValidatedGpt.canonicalEntries, ← hprimary.count,
      ← hprimary.entrySize]
    refine canonicalArray_congr ok.le_entrySize.1 hlenArray.ge (by omega) fun i hmask => ?_
    by_cases hlt : i < gpt.primary.count * gpt.primary.entrySize
    · have hlt' : i < gpt'.primary.count * gpt'.primary.entrySize := by
        rwa [← hprimary.count, ← hprimary.entrySize]
      rw [ok.primary.getElem?_array hlt, ok'.primary.getElem?_array hlt', ← hprimary.arrayOffset]
      exact hagree _ (ok.not_masked_array hlt hmask)
    · rw [List.getElem?_eq_none (by omega), List.getElem?_eq_none (by omega)]
  have hpatches : canonicalPatches gpt = canonicalPatches gpt' := by
    unfold ValidatedGpt.canonicalEntries at harray
    have hlenRaw : gpt.primary.rawHeader.length = gpt'.primary.rawHeader.length := by
      rw [ok.primary.length_raw, hok.length_raw]
    have hlenRaw' : gpt.backup.rawHeader.length = gpt'.backup.rawHeader.length := by
      rw [ok.backup.length_raw, hok'.length_raw]
    simp only [canonicalPatches, harray, hprimary.headerOffset, hprimary.headerSize,
      hprimary.arrayOffset, hbackup.headerOffset, hbackup.headerSize, hbackup.arrayOffset,
      canonicalHeader_congr ok.primary.le_raw hlenRaw hraw,
      canonicalHeader_congr ok.backup.le_raw hlenRaw' hraw']
  rw [← hpatches]
  exact patched_congr ok.ordered hlen fun i hi => hagree i (ok.not_masked_of_untouched hi)

/-- Streams determine the bytes that are not normalized. -/
theorem Validated.patched_eq_iff {image image' : Bytes} {gpt gpt' : ValidatedGpt}
    (ok : Validated image gpt) (ok' : Validated image' gpt') :
    patched image 0 (canonicalPatches gpt) = patched image' 0 (canonicalPatches gpt') ↔
      gpt.Agree image image' := by
  refine ⟨fun h => ?_, ok.patched_eq ok'⟩
  -- the masks are read off the common stream
  have hgpt : gpt.canonical = gpt'.canonical := ok.canonical.unique (h ▸ ok'.canonical)
  have hmask : gpt.Masked = gpt'.Masked := by
    show gpt.canonical.Masked = gpt'.canonical.Masked
    rw [hgpt]
  obtain ⟨hlen, hagree⟩ := ok.agree
  obtain ⟨hlen', hagree'⟩ := ok'.agree
  refine ⟨by rw [hlen, h, hlen'], fun i hi => ?_⟩
  rw [hagree i hi, h, ← hagree' i (hmask ▸ hi)]

/-- **The canonical image is a normal form.**  Hashing fails only where `projectImage`
    does.  For an accepted image the four patches do not overlap; the stream that is hashed
    has the size of the image, is accepted with the same partitions up to their unique
    GUIDs, and is its own canonical stream; and two accepted images have the same stream
    iff they agree outside the normalized bytes. -/
theorem canonicalImage_normal_form (P : Platform) (image : Bytes) (slotLabel : Option Str) :
    (∀ e, canonicalImageSha256 P image slotLabel = .error e →
      projectImage P image "uefi" slotLabel = .error e) ∧
    ∀ digest, canonicalImageSha256 P image slotLabel = .ok digest →
      ∃ gpt stream metadata metadata',
        validatedGpt image = .ok gpt ∧
        (canonicalPatches gpt).Pairwise (fun p q => p.1 + p.2.length ≤ q.1) ∧
        canonicalStream P image slotLabel = .ok stream ∧ digest = P.sha256 stream ∧
        stream.length = image.length ∧
        projectImage P image "uefi" slotLabel = .ok metadata ∧
        projectImage P stream "uefi" slotLabel = .ok metadata' ∧
        metadata'.partitions.map Partition.toPartitionEntry =
          metadata.partitions.map Partition.toPartitionEntry ∧
        canonicalStream P stream slotLabel = .ok stream ∧
        ∀ image' slotLabel' stream', canonicalStream P image' slotLabel' = .ok stream' →
          (stream = stream' ↔ image.length = image'.length ∧
            ∀ i, ¬ gpt.Masked i → image[i]? = image'[i]?) := by
  constructor
  · intro e herror
    cases hproject : projectImage P image "uefi" slotLabel with
    | error e' =>
      simp only [canonicalImageSha256, canonicalStream, hproject, error_bind, Except.error.injEq]
        at herror
      rw [herror]
    | ok metadata =>
      have hgpt := hproject
      simp only [projectImage, bind_eq_ok, validatedGpt_eq_ok] at hgpt
      obtain ⟨gpt, ok, -⟩ := hgpt
      have hstream := canonicalStream_eq_ok.2 ⟨metadata, gpt, hproject, ok, rfl⟩
      rw [canonicalImageSha256, hstream] at herror
      cases herror
  · intro digest hdigest
    simp only [canonicalImageSha256, bind_eq_ok, pure_eq_ok] at hdigest
    obtain ⟨stream, hstream, rfl⟩ := hdigest
    obtain ⟨metadata, gpt, hproject, ok, rfl⟩ := canonicalStream_eq_ok.1 hstream
    obtain ⟨metadata', hproject', hpartitions, -⟩ := ok.project_stream hproject
    refine ⟨gpt, _, metadata, metadata', validatedGpt_eq_ok.2 ok, ok.ordered.pairwise, hstream, rfl,
      ok.agree.1.symm, hproject, hproject', hpartitions, ?_, ?_⟩
    · rw [canonicalStream_eq_ok]
      exact ⟨metadata', gpt.canonical, hproject', ok.canonical, ok.patched_eq ok.canonical ok.agree⟩
    · intro image' slotLabel' stream' hstream'
      obtain ⟨-, gpt', -, ok', rfl⟩ := canonicalStream_eq_ok.1 hstream'
      exact ok.patched_eq_iff ok'

/-! ## An accepted image -/

/-- One root partition, the sector 2048. -/
def exampleEntry : Bytes :=
  [0xE3, 0xBC, 0x68, 0x4F, 0xCD, 0xE8, 0xB1, 0x4D, 0x96, 0xE7, 0xFB, 0xCA, 0xF9, 0x84, 0xB7, 0x09] ++
    List.replicate 16 5 ++ leBytes 8 2048 ++ leBytes 8 2048 ++ zeros 8 ++
    [114, 0, 111, 0, 111, 0, 116, 0, 45, 0, 120, 0, 56, 0, 54, 0, 45, 0, 54, 0, 52, 0] ++ zeros 50

def exampleHeader (lba backup entriesLba : ℕ) : Bytes :=
  let unchecked := efiPart ++ leBytes 4 0x00010000 ++ leBytes 4 92 ++ zeros 8 ++ leBytes 8 lba ++
    leBytes 8 backup ++ leBytes 8 3 ++ leBytes 8 2048 ++ List.replicate 16 7 ++
    leBytes 8 entriesLba ++ leBytes 4 1 ++ leBytes 4 128 ++ leBytes 4 (crc32 exampleEntry)
  packInto unchecked 16 (crc32 unchecked) ++ zeros 420

/-- The first three sectors and the last two. -/
def exampleHead : Bytes := zeros 512 ++ exampleHeader 1 2050 2 ++ exampleEntry ++ zeros 384

def exampleTail : Bytes := exampleEntry ++ zeros 384 ++ exampleHeader 2050 1 2049

/-- An image of 2051 sectors. -/
def exampleImage : Bytes := exampleHead ++ zeros (2046 * 512) ++ exampleTail

def exampleGptHeader (lba backup entriesLba : ℕ) : Header where
  array := exampleEntry
  arrayOffset := entriesLba * 512
  count := 1
  diskGuid := List.replicate 16 7
  entrySize := 128
  entriesLba := entriesLba
  firstUsable := 3
  headerOffset := lba * 512
  headerSize := 92
  lastUsable := 2048
  rawHeader := exampleHeader lba backup entriesLba

def exampleGpt : ValidatedGpt :=
  ⟨512, exampleGptHeader 1 2050 2, exampleGptHeader 2050 1 2049⟩

theorem length_exampleHead : exampleHead.length = 1536 := by decide +kernel

theorem length_exampleImage : exampleImage.length = 2051 * 512 := by
  have htail : exampleTail.length = 1024 := by decide +kernel
  rw [exampleImage, List.length_append, List.length_append, length_zeros, length_exampleHead, htail]

/-- The first sectors. -/
theorem slice_exampleHead {a b : ℕ} (h : b ≤ 1536) :
    slice exampleImage a b = slice exampleHead a b := by
  rw [exampleImage, List.append_assoc, slice_append_left (by rw [length_exampleHead]; exact h)]

/-- The last sectors. -/
theorem slice_exampleTail (a b : ℕ) :
    slice exampleImage (2049 * 512 + a) (2049 * 512 + b) = slice exampleTail a b := by
  have hlen : (exampleHead ++ zeros (2046 * 512)).length = 2049 * 512 := by
    rw [List.length_append, length_zeros, length_exampleHead]
  rw [exampleImage, ← hlen, slice_append_right]

theorem exampleHeader_ok (lba backup entriesLba : ℕ)
    (hlba : (lba, backup, entriesLba) = (1, 2050, 2) ∨ (lba, backup, entriesLba) = (2050, 1, 2049))
    (hraw : slice exampleImage (lba * 512) (lba * 512 + 512) = exampleHeader lba backup entriesLba)
    (harray : slice exampleImage (entriesLba * 512) (entriesLba * 512 + 128) = exampleEntry) :
    HeaderOk exampleImage 512 lba backup (exampleGptHeader lba backup entriesLba) := by
  have hlen := length_exampleImage
  have hlast : exampleImage.length / 512 - 1 = 2050 := by rw [hlen]
  rcases hlba with h | h <;> obtain ⟨rfl, rfl, rfl⟩ := by simpa only [Prod.mk.injEq] using h
  all_goals
    constructor
    case raw => exact hraw.symm
    case array => exact harray.symm
    case inside => omega
    case arrayInside => rw [hlen]; decide
    case location => rw [hlast]; decide
    case usable => rw [hlast]; decide
    case arrayLba => rw [hlast]; decide
    case afterUsable => rw [hlast]; decide
    all_goals decide +kernel

theorem exampleGpt_validated : Validated exampleImage exampleGpt := by
  have hsize : exampleGpt.sectorSize = 512 := rfl
  have hlast : exampleImage.length / 512 - 1 = 2050 := by rw [length_exampleImage]
  constructor
  case sectorSize =>
    refine sectorSize_eq_ok.2 (.inl ⟨rfl, ⟨?_, ?_, ?_⟩, ?_⟩)
    · rw [length_exampleImage]
    · rw [length_exampleImage]; omega
    · rw [slice_exampleHead (by omega)]; decide +kernel
    · rintro ⟨hmod, -⟩
      rw [length_exampleImage] at hmod
      omega
  case primary =>
    rw [hsize, hlast]
    refine exampleHeader_ok 1 2050 2 (.inl rfl) ?_ ?_
    · rw [slice_exampleHead (by omega)]; decide +kernel
    · rw [slice_exampleHead (by omega)]; decide +kernel
  case backup =>
    rw [hsize, hlast]
    refine exampleHeader_ok 2050 1 2049 (.inr rfl) ?_ ?_
    · exact (slice_exampleTail 512 1024).trans (by decide +kernel)
    · exact (slice_exampleTail 0 128).trans (by decide +kernel)
  all_goals rfl

def examplePlatform : Platform where
  repr text := "'" ++ String.ofList text ++ "'"
  sha256 data := String.ofList (hex (leBytes 32 (leNat data)))

def examplePartition : Partition :=
  ⟨⟨"root-x86-64".toList, 1, 512, alignment, rootX86_64⟩, none⟩

theorem exampleImage_accepted : projectImage examplePlatform exampleImage "uefi" none =
    .ok ⟨"uefi", "mkosi-partition-metadata-v1", [examplePartition], 512⟩ := by
  have hscan : (List.range exampleGpt.primary.count).foldlM
      (scanEntry none exampleGpt.sectorSize exampleGpt.primary) ⟨[], none⟩ =
        .ok ⟨[examplePartition], some (2048, 2048, 1)⟩ := by
    decide +kernel
  rw [projectImage, validatedGpt_eq_ok.2 exampleGpt_validated, ok_bind, hscan, ok_bind]
  decide +kernel

/-- The example image is accepted, and its stream is a normal form of the same size. -/
theorem canonicalImage_normal_form_example :
    ∃ digest stream, canonicalImageSha256 examplePlatform exampleImage none = .ok digest ∧
      canonicalStream examplePlatform exampleImage none = .ok stream ∧
      stream.length = 2051 * 512 ∧
      canonicalStream examplePlatform stream none = .ok stream := by
  have hstream := canonicalStream_eq_ok.2 ⟨_, _, exampleImage_accepted, exampleGpt_validated, rfl⟩
  have hdigest : canonicalImageSha256 examplePlatform exampleImage none =
      .ok (examplePlatform.sha256 (patched exampleImage 0 (canonicalPatches exampleGpt))) := by
    rw [canonicalImageSha256, hstream, ok_bind]
    rfl
  obtain ⟨-, stream, -, -, -, -, hrun, -, hlen, -, -, -, hagain, -⟩ :=
    (canonicalImage_normal_form examplePlatform exampleImage none).2 _ hdigest
  exact ⟨_, stream, hdigest, hrun, hlen.trans length_exampleImage, hagain⟩

end RulesMkosi.PartitionMetadata
