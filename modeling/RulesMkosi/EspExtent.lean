/-
  The EFI system partition, as the image tools and the installed reader find it
  (`mkosi/private/partition_metadata.py`, `mkosi/private/esp_files.py` and
  `mkosi/private/esp_manifest/rules_mkosi_esp_manifest.py`).

  The two GPT readers are written independently: one validates both copies and
  projects the partitions, the other reads the primary copy only.  On an image
  that the first one accepts, the loops over the entries find the same EFI system
  partitions (`scanEntry_found`).
-/
import RulesMkosi.PartitionCanonical
import RulesMkosi.EspManifest
import RulesMkosi.EspFiles

namespace RulesMkosi.EspExtent

open PartitionMetadata
open EspFiles (espType espExtent)

/-! ## GUIDs -/

theorem hexDigit_inj : ∀ m < 16, ∀ n < 16, hexDigit m = hexDigit n → m = n := by decide

theorem length_hex (data : Bytes) : (hex data).length = 2 * data.length := by
  induction data with
  | nil => rfl
  | cons b data ih =>
    rw [hex, List.flatMap_cons, List.length_append, ← hex, ih]
    simp
    omega

theorem hex_injective : Function.Injective hex := by
  intro data
  induction data with
  | nil =>
    intro data' h
    cases data' with
    | nil => rfl
    | cons b' data' =>
      have hlen := congrArg List.length h
      simp [length_hex] at hlen
  | cons b data ih =>
    intro data' h
    cases data' with
    | nil =>
      have hlen := congrArg List.length h
      simp [length_hex] at hlen
    | cons b' data' =>
      simp only [hex, List.flatMap_cons, List.cons_append, List.nil_append, List.cons.injEq] at h
      obtain ⟨hhigh, hlow, hrest⟩ := h
      have hb := b.toNat_lt
      have hb' := b'.toNat_lt
      have hhigh := hexDigit_inj _ (by omega) _ (by omega) hhigh
      have hlow := hexDigit_inj _ (by omega) _ (by omega) hlow
      have hbyte : b = b' := UInt8.toNat_inj.1 (by omega)
      rw [hbyte, ih hrest]

theorem uuidString_inj {data data' : Bytes} {uuid : Str} (h : uuidString data = .ok uuid)
    (h' : uuidString data' = .ok uuid) : data = data' := by
  simp only [uuidString, bind_eq_ok, exists_unit, raiseIf_eq_ok, pure_eq_ok, not_not] at h h'
  obtain ⟨hlen, rfl⟩ := h
  obtain ⟨hlen', heq⟩ := h'
  have hslice : ∀ {d : Bytes} {a b : ℕ}, d.length = 16 → b ≤ 16 → (slice d a b).length = b - a :=
    fun hd hb => length_slice (by omega)
  -- the five groups have fixed lengths
  obtain ⟨heq, h₅⟩ := List.append_inj' heq (by rw [length_hex, length_hex, hslice hlen (by omega),
    hslice hlen' (by omega)])
  obtain ⟨heq, -⟩ := List.append_inj' heq rfl
  obtain ⟨heq, h₄⟩ := List.append_inj' heq (by rw [length_hex, length_hex, hslice hlen (by omega),
    hslice hlen' (by omega)])
  obtain ⟨heq, -⟩ := List.append_inj' heq rfl
  obtain ⟨heq, h₃⟩ := List.append_inj' heq (by simp only [length_hex, List.length_reverse,
    hslice hlen (by omega : 8 ≤ 16), hslice hlen' (by omega : 8 ≤ 16)])
  obtain ⟨heq, -⟩ := List.append_inj' heq rfl
  obtain ⟨heq, h₂⟩ := List.append_inj' heq (by simp only [length_hex, List.length_reverse,
    hslice hlen (by omega : 6 ≤ 16), hslice hlen' (by omega : 6 ≤ 16)])
  obtain ⟨h₁, -⟩ := List.append_inj' heq rfl
  have h₁ := List.reverse_injective (hex_injective h₁)
  have h₂ := List.reverse_injective (hex_injective h₂)
  have h₃ := List.reverse_injective (hex_injective h₃)
  have h₄ := hex_injective h₄
  have h₅ := hex_injective h₅
  have hcut : ∀ {d : Bytes}, d.length = 16 →
      d = slice d 0 4 ++ slice d 4 6 ++ slice d 6 8 ++ slice d 8 10 ++ slice d 10 16 := by
    intro d hd
    rw [slice_append_slice d (by omega) (by omega), slice_append_slice d (by omega) (by omega),
      slice_append_slice d (by omega) (by omega), slice_append_slice d (by omega) (by omega),
      slice_zero, ← hd, List.take_length]
  rw [hcut hlen, hcut hlen', h₁, h₂, h₃, h₄, h₅]

/-- The two spellings of the type GUID of the EFI system partition. -/
theorem isEsp_iff {data : Bytes} {typeGuid : Str} (h : uuidString data = .ok typeGuid) :
    typeGuid = espType ↔ data = EspManifest.espTypeGuid := by
  have hesp : uuidString EspManifest.espTypeGuid = .ok espType := by decide
  constructor
  · intro heq
    exact uuidString_inj h (heq ▸ hesp)
  · intro heq
    rw [heq, hesp] at h
    exact (Except.ok.inj h).symm

/-! ## Entries -/

/-- The partition as the installed reader returns it. -/
def toEsp (sectorSize : ℕ) (partition : Partition) : EspManifest.Partition :=
  ⟨partition.startBytes, partition.sizeBytes, sectorSize⟩

/-- Both loops have found the same EFI system partitions. -/
def Found (sectorSize : ℕ) (scan : Scan) (esps : List EspManifest.Partition) : Prop :=
  esps = (scan.partitions.filter (·.typeGuid = espType)).map (toEsp sectorSize)

theorem unpack_ok {size offset : ℕ} {data : Bytes} {value : ℕ}
    (h : unpackFrom size data offset = .ok value) : EspManifest.unpack size data offset = .ok value := by
  rw [EspManifest.unpack, h]

/-- What the loop over the entries checks of a used entry. -/
structure Checked (primary : Header) (sectorSize first last : ℕ) (partition : Partition) : Prop where
  le : first ≤ last
  usable : primary.firstUsable ≤ first ∧ last ≤ primary.lastUsable
  start : partition.startBytes = first * sectorSize
  size : partition.sizeBytes = (last - first + 1) * sectorSize

/-- How a partition follows the one that its entry is compared with. -/
structure Follows (slot first last : ℕ) (partition : Partition) (scan next : Scan) : Prop where
  number : partition.number = slot + 1
  aligned : partition.startBytes % alignment = 0
  after : ∀ previous ∈ scan.previous, previous.2.1 < first
  previous : next.previous = some (first, last, slot + 1)

section
variable {slotLabel : Option Str} {sectorSize slot : ℕ} {primary : Header} {scan next : Scan}

theorem checkEntryRange_eq_ok {number first last : ℕ} {previous : Option (ℕ × ℕ × ℕ)}
    (h : checkEntryRange number first last primary previous = .ok ()) :
    first ≤ last ∧ (primary.firstUsable ≤ first ∧ last ≤ primary.lastUsable) ∧
      ∀ entry ∈ previous, entry.2.1 < first := by
  simp only [checkEntryRange, bind_eq_ok, exists_unit, raiseIf_eq_ok] at h
  obtain ⟨hle, husable, hprevious⟩ := h
  refine ⟨by omega, by omega, fun entry hentry => ?_⟩
  obtain ⟨previousFirst, previousLast, previousNumber⟩ := entry
  rw [Option.mem_def.1 hentry] at hprevious
  simp only [bind_eq_ok, exists_unit, raiseIf_eq_ok] at hprevious
  exact not_le.1 hprevious.2

/-- One round of the loop: an unused entry, or one more partition. -/
theorem scanEntry_cases (h : scanEntry slotLabel sectorSize primary scan slot = .ok next) :
    let entry := slice primary.array (slot * primary.entrySize) ((slot + 1) * primary.entrySize)
    entry.take 16 = zeros 16 ∧ next = scan ∨
      ∃ first last partition, unpackFrom 8 entry 32 = .ok first ∧ unpackFrom 8 entry 40 = .ok last ∧
        uuidString (slice entry 0 16) = .ok partition.typeGuid ∧
        next.partitions = scan.partitions ++ [partition] ∧
        Checked primary sectorSize first last partition ∧
        Follows slot first last partition scan next := by
  intro entry
  simp only [scanEntry] at h
  split_ifs at h with hunused
  · exact .inl ⟨hunused, (Except.ok.inj h).symm⟩
  · simp only [bind_eq_ok, exists_unit, pure_eq_ok] at h
    obtain ⟨first, hfirst, last, hlast, hrange, projected, hproject, uuid, -, rfl⟩ := h
    obtain ⟨hle, husable, hafter⟩ := checkEntryRange_eq_ok hrange
    simp only [projectEntry, bind_eq_ok, exists_unit, raiseIf_eq_ok, pure_eq_ok, not_not] at hproject
    obtain ⟨haligned, label, -, typeGuid, htype, rfl⟩ := hproject
    exact .inr ⟨first, last, _, hfirst, hlast, htype, rfl, ⟨hle, husable, rfl, rfl⟩,
      ⟨rfl, haligned, hafter, rfl⟩⟩

/-- The second reader finds an EFI system partition where the first one does. -/
theorem scanEntry_found (h : scanEntry slotLabel sectorSize primary scan slot = .ok next)
    {esps : List EspManifest.Partition} (hfound : Found sectorSize scan esps)
    (hlen : 16 ≤ (slice primary.array (slot * primary.entrySize)
      ((slot + 1) * primary.entrySize)).length) :
    ∃ esps', EspManifest.addEsp sectorSize esps (slice primary.array (slot * primary.entrySize)
        ((slot + 1) * primary.entrySize)) = .ok esps' ∧ Found sectorSize next esps' := by
  have hcases := scanEntry_cases h
  simp only at hcases
  generalize slice primary.array (slot * primary.entrySize)
    ((slot + 1) * primary.entrySize) = entry at hlen hcases ⊢
  have hguid : EspManifest.uuidLe (slice entry 0 16) = .ok (slice entry 0 16) :=
    if_pos (length_slice (a := 0) hlen)
  rw [EspManifest.addEsp, hguid, ok_bind]
  rcases hcases with
    ⟨hunused, rfl⟩ | ⟨first, last, partition, hfirst, hlast, htype, hnext, hchecked, -⟩
  · refine ⟨esps, ?_, hfound⟩
    rw [slice_zero, hunused, if_neg (by decide)]
    rfl
  · by_cases hesp : slice entry 0 16 = EspManifest.espTypeGuid
    · refine ⟨esps ++ [toEsp sectorSize partition], ?_, ?_⟩
      · rw [if_pos hesp, unpack_ok hfirst, ok_bind, unpack_ok hlast, ok_bind, pure_eq_ok, toEsp,
          hchecked.start, hchecked.size]
        have hle := hchecked.le
        have hsize : (((last - first + 1) * sectorSize : ℕ) : ℤ) =
            ((last : ℤ) - first + 1) * sectorSize := by
          push_cast [Nat.cast_sub hle]
          rfl
        rw [hsize]
      · have htype' := (isEsp_iff htype).2 hesp
        rw [Found, hnext, List.filter_append, List.map_append, ← hfound]
        simp [htype']
    · refine ⟨esps, ?_, ?_⟩
      · rw [if_neg hesp]
        rfl
      · have htype' := mt (isEsp_iff htype).1 hesp
        rw [Found, hnext, List.filter_append, List.map_append, ← hfound]
        simp [htype']

end

theorem div_chunks {count entrySize : ℕ} (h : 0 < entrySize) :
    (count * entrySize + entrySize - 1) / entrySize = count := by
  rw [Nat.add_sub_assoc h, Nat.add_comm, Nat.add_mul_div_right _ _ h,
    Nat.div_eq_of_lt (Nat.sub_lt h Nat.one_pos), Nat.zero_add]

section
variable {image : Bytes} {gpt : ValidatedGpt} (ok : Validated image gpt)
include ok

/-- The slots of the array are its chunks. -/
theorem chunks_array : EspManifest.chunks gpt.primary.entrySize gpt.primary.array =
    (List.range gpt.primary.count).map fun slot => slice gpt.primary.array
      (slot * gpt.primary.entrySize) ((slot + 1) * gpt.primary.entrySize) := by
  have hentry := ok.primary.entrySize_le
  rw [EspManifest.chunks, ok.primary.length_array, div_chunks (by omega)]
  refine List.map_congr_left fun slot _ => ?_
  rw [Nat.succ_mul]

theorem length_slot {slot : ℕ} (hslot : slot < gpt.primary.count) :
    (slice gpt.primary.array (slot * gpt.primary.entrySize)
      ((slot + 1) * gpt.primary.entrySize)).length = gpt.primary.entrySize := by
  have hle := Nat.mul_le_mul_right gpt.primary.entrySize (Nat.succ_le_of_lt hslot)
  rw [length_slice (by rw [ok.primary.length_array]; exact hle), Nat.succ_mul]
  omega

/-- The loops over the entries find the same partitions. -/
theorem foldlM_found {slotLabel : Option Str} {scan : Scan}
    (h : (List.range gpt.primary.count).foldlM (scanEntry slotLabel gpt.sectorSize gpt.primary)
      ⟨[], none⟩ = .ok scan) :
    ∃ esps, (EspManifest.chunks gpt.primary.entrySize gpt.primary.array).foldlM
      (EspManifest.addEsp gpt.sectorSize) [] = .ok esps ∧ Found gpt.sectorSize scan esps := by
  rw [chunks_array ok, List.foldlM_map]
  have hstart : Found gpt.sectorSize ⟨[], none⟩ [] := rfl
  refine foldlM_rel (Found gpt.sectorSize)
    (fun scan esps next slot hslot hfound hnext => ?_) hstart h
  have hlen := length_slot ok (List.mem_range.1 hslot)
  have hentry := ok.primary.entrySize_le
  exact scanEntry_found hnext hfound (by omega)

/-- A checked entry lies between the array and the end of the image. -/
theorem checked_inside {first last : ℕ} {partition : Partition}
    (h : Checked gpt.primary gpt.sectorSize first last partition) :
    2 * gpt.sectorSize ≤ partition.startBytes ∧ 0 < partition.sizeBytes ∧
      partition.startBytes + partition.sizeBytes ≤ image.length := by
  have hsize : 0 < gpt.sectorSize := by
    rcases ok.size with h | h <;> omega
  have hfirst : 2 ≤ first := by
    have hbefore := ok.primary.beforeUsable.resolve_left (fun hne => hne rfl)
    have hlba := ok.primary.arrayLba.1
    have husable := h.usable.1
    have harray : 1 ≤ (gpt.primary.count * gpt.primary.entrySize + gpt.sectorSize - 1) /
        gpt.sectorSize := by
      have hcount := ok.primary.count_le.1
      have hentry := ok.primary.entrySize_le
      have hpos : 0 < gpt.primary.count * gpt.primary.entrySize :=
        Nat.mul_pos hcount (by omega)
      exact (Nat.one_le_div_iff hsize).2 (by omega)
    omega
  have hlast : last + 1 ≤ image.length / gpt.sectorSize := by
    have hlastUsable := ok.primary.usable.2
    have husable := h.usable.2
    omega
  rw [h.start, h.size]
  refine ⟨Nat.mul_le_mul_right _ hfirst, Nat.mul_pos (by omega) hsize, ?_⟩
  have hsum : first + (last - first + 1) = last + 1 := by
    have := h.le
    omega
  rw [← Nat.add_mul, hsum]
  exact (Nat.mul_le_mul_right _ hlast).trans (Nat.div_mul_le_self _ _)

theorem scan_inside {slotLabel : Option Str} {scan : Scan}
    (h : (List.range gpt.primary.count).foldlM (scanEntry slotLabel gpt.sectorSize gpt.primary)
      ⟨[], none⟩ = .ok scan) :
    ∀ partition ∈ scan.partitions, 2 * gpt.sectorSize ≤ partition.startBytes ∧
      0 < partition.sizeBytes ∧ partition.startBytes + partition.sizeBytes ≤ image.length := by
  refine foldlM_mem_inv (fun scan => ∀ partition ∈ scan.partitions,
    2 * gpt.sectorSize ≤ partition.startBytes ∧ 0 < partition.sizeBytes ∧
      partition.startBytes + partition.sizeBytes ≤ image.length) ?_ (by simp) h
  intro scan slot next _ hscan hnext partition hmem
  rcases scanEntry_cases hnext with
    ⟨-, rfl⟩ | ⟨first, last, added, -, -, -, hadded, hchecked, -⟩
  · exact hscan partition hmem
  · rw [hadded] at hmem
    rcases List.mem_append.1 hmem with hmem | hmem
    · exact hscan partition hmem
    · rw [List.mem_singleton.1 hmem]
      exact checked_inside ok hchecked

end

/-- **Projected partitions** lie inside the image, behind the primary GPT header. -/
theorem projectImage_inside {P : Platform} {image : Bytes} {firmware : String}
    {slotLabel : Option Str} {metadata : ImageMetadata}
    (h : projectImage P image firmware slotLabel = .ok metadata) :
    ∀ partition ∈ metadata.partitions, 2 * metadata.sectorSize ≤ partition.startBytes ∧
      0 < partition.sizeBytes ∧ partition.startBytes + partition.sizeBytes ≤ image.length := by
  simp only [projectImage, bind_eq_ok, exists_unit, pure_eq_ok, validatedGpt_eq_ok] at h
  obtain ⟨gpt, ok, scan, hscan, -, -, rfl⟩ := h
  exact scan_inside ok hscan

/-! ## The installed reader -/

open ReadProgram

theorem run_read_bind {β : Type} {image : Bytes} {offset size : ℕ} {what : String}
    {f : Bytes → EspManifest.Program β} (h : offset + size ≤ image.length) :
    ((EspManifest.read offset size what >>= f) image).1 =
      (f (slice image offset (offset + size)) image).1 :=
  run_bind (by rw [EspManifest.read_run, if_pos h])

theorem run_unpack_bind {β : Type} {image data : Bytes} {size offset : ℕ}
    {f : ℕ → EspManifest.Program β} (h : offset + size ≤ data.length) :
    ((ofExcept (EspManifest.unpack size data offset) >>= f) image).1 =
      (f (field data offset size) image).1 := by
  rw [unpack_ok (unpackFrom_eq_ok.2 ⟨h, rfl⟩), run_ofExcept_bind]

/-- A protective MBR: the boot signature and an entry of type 0xEE. -/
structure ProtectiveMbr (image : Bytes) : Prop where
  signature : slice image 510 512 = [0x55, 0xAA]
  entry : ∃ index < 4, image[446 + 16 * index + 4]? = some 0xEE

/-- The header without its checksum, as both readers cut it. -/
theorem checked_eq {raw : Bytes} {size : ℕ} (hsize : 20 ≤ size) :
    slice raw 0 16 ++ zeros 4 ++ slice raw 20 size = splice (raw.take size) 16 20 (zeros 4) := by
  rw [splice, slice_zero, List.take_take, min_eq_left (by omega), slice, List.drop_take]

section
variable {image : Bytes} {gpt : ValidatedGpt} (ok : Validated image gpt)
include ok

/-- The readers choose the same sector size: if the signature of the smaller one is there too, the
    first reader rejects the image as ambiguous. -/
theorem run_findSectorSize :
    (EspManifest.findSectorSize EspManifest.gptSectorSizes image).1 = .ok gpt.sectorSize := by
  unfold EspManifest.gptSectorSizes EspManifest.findSectorSize
  rw [run_size_bind]
  rcases sectorSize_eq_ok.1 ok.sectorSize with ⟨hsize, hc, -⟩ | ⟨hsize, hc, hnot⟩
  · have hlen := hc.2.1
    have hsignature : slice image 512 (512 + 8) = EspManifest.efiPart := hc.2.2
    rw [if_pos (by omega), run_read_bind (by omega), if_pos hsignature, hsize]
    rfl
  · have hlen := hc.2.1
    have hmod := hc.1
    have hsignature : slice image 4096 (4096 + 8) = EspManifest.efiPart := hc.2.2
    have hno : slice image 512 (512 + 8) ≠ EspManifest.efiPart :=
      fun h => hnot ⟨by omega, by omega, h⟩
    rw [if_pos (by omega), run_read_bind (by omega), if_neg hno]
    unfold EspManifest.findSectorSize
    rw [run_size_bind, if_pos (by omega), run_read_bind (by omega), if_pos hsignature, hsize]
    rfl

theorem run_gptSectorSize (hmbr : ProtectiveMbr image) :
    (EspManifest.gptSectorSize image).1 = .ok gpt.sectorSize := by
  have hlen : 512 ≤ image.length := by
    have := ok.candidate.2.1
    rcases ok.size with h | h <;> omega
  have hslice : ∀ i < 512, (slice image 0 (0 + 512))[i]? = image[i]? := by
    intro i hi
    rw [getElem?_slice, if_pos (by omega), Nat.zero_add]
  have htypes : [0, 1, 2, 3].mapM (fun index => EspManifest.byteAt (slice image 0 (0 + 512))
      (446 + 16 * index + 4)) =
      .ok ([0, 1, 2, 3].map fun index => (image.getD (446 + 16 * index + 4) 0).toNat) := by
    refine mapM_eq_map fun index hindex => ?_
    have hlt : index < 4 := by
      simp only [List.mem_cons, List.not_mem_nil, or_false] at hindex
      omega
    have hin : 446 + 16 * index + 4 < image.length := by omega
    rw [EspManifest.byteAt, hslice _ (by omega), List.getElem?_eq_getElem hin,
      List.getD_eq_getElem?_getD, List.getElem?_eq_getElem hin]
    rfl
  have hprotective : ¬ (slice (slice image 0 (0 + 512)) 510 512 ≠ [0x55, 0xAA] ∨
      0xEE ∉ [0, 1, 2, 3].map fun index => (image.getD (446 + 16 * index + 4) 0).toNat) := by
    obtain ⟨index, hindex, hbyte⟩ := hmbr.entry
    rw [not_or, not_not, not_not]
    refine ⟨?_, List.mem_map.2 ⟨index, ?_, ?_⟩⟩
    · rw [← hmbr.signature]
      exact slice_congr fun i _ hi => hslice i hi
    · simp only [List.mem_cons, List.not_mem_nil, or_false]
      omega
    · rw [List.getD_eq_getElem?_getD, hbyte]
      rfl
  rw [EspManifest.gptSectorSize, run_read_bind (by omega), htypes, run_ofExcept_bind,
    run_failIf_bind hprotective, run_findSectorSize ok]

theorem run_gptEntries (harray : gpt.primary.array.length ≤ EspManifest.maxGptArrayBytes) :
    (EspManifest.gptEntries gpt.sectorSize image).1 =
      .ok (EspManifest.chunks gpt.primary.entrySize gpt.primary.array) := by
  have hok := ok.primary
  have hinside := hok.inside
  have hraw : slice image gpt.sectorSize (gpt.sectorSize + gpt.sectorSize) =
      gpt.primary.rawHeader := by
    rw [hok.raw, one_mul]
  have hlen : gpt.primary.rawHeader.length = gpt.sectorSize := by
    rw [← hraw, length_slice (by omega)]
    omega
  have hsize := hok.size_le
  have hmin : 92 ≤ gpt.primary.headerSize := hsize.1
  have hentry := hok.entrySize_le
  have hlba := hok.arrayLba.1
  have hoffset := hok.arrayOffset
  have hin := hok.arrayInside
  rw [hok.length_array] at harray
  rw [EspManifest.gptEntries, run_read_bind (by omega), hraw, run_unpack_bind (by omega),
    run_unpack_bind (by omega), ← hok.size, run_failIf_bind (by omega),
    checked_eq (by omega), run_failIf_bind (not_not.2 hok.crc),
    run_unpack_bind (by omega), run_unpack_bind (by omega), run_unpack_bind (by omega),
    run_unpack_bind (by omega), ← hok.entriesLba, ← hok.count, ← hok.entrySize,
    run_failIf_bind (by omega)]
  rw [run_size_bind, ← hoffset, run_failIf_bind (by omega), run_read_bind hin, ← hok.array,
    run_failIf_bind (not_not.2 hok.arrayCrc)]
  rfl

end

/-- **The two GPT readers agree on the ESP.**  On an image that is accepted with one EFI system
    partition, has a protective MBR and an entry array of at most 4 MiB, the installed reader
    returns the extent that the image tools use, with the same sector size. -/
theorem findEsp_agrees (P : Platform) (image : Bytes) (firmware : String) (slotLabel : Option Str)
    (metadata : ImageMetadata) (hproject : projectImage P image firmware slotLabel = .ok metadata)
    (hone : (metadata.partitions.filter (·.typeGuid = espType)).length = 1)
    (hmbr : ProtectiveMbr image)
    (harray : ∀ gpt, validatedGpt image = .ok gpt →
      gpt.primary.count * gpt.primary.entrySize ≤ 4 * 2 ^ 20) :
    ∃ offset size, (EspManifest.findEsp image).1 = .ok ⟨offset, (size : ℕ), metadata.sectorSize⟩ ∧
      espExtent metadata = .ok (offset, size) := by
  have hinside := projectImage_inside hproject
  obtain ⟨esp, hesp⟩ := List.length_eq_one_iff.1 hone
  have hmem : esp ∈ metadata.partitions :=
    List.mem_of_mem_filter (hesp ▸ List.mem_singleton_self esp)
  obtain ⟨hstart, hsize, hend⟩ := hinside esp hmem
  have hextent : espExtent metadata = .ok (esp.startBytes, esp.sizeBytes) := by
    rw [espExtent, hesp]
  simp only [projectImage, bind_eq_ok, exists_unit, pure_eq_ok] at hproject
  obtain ⟨gpt, hgpt, scan, hscan, -, -, rfl⟩ := hproject
  have ok := validatedGpt_eq_ok.1 hgpt
  have harray' : gpt.primary.array.length ≤ EspManifest.maxGptArrayBytes := by
    rw [ok.primary.length_array]
    exact harray gpt hgpt
  obtain ⟨esps, hesps, hfound⟩ := foldlM_found ok hscan
  have hfound : esps = [toEsp gpt.sectorSize esp] := by
    have hesp : scan.partitions.filter (·.typeGuid = espType) = [esp] := hesp
    rw [hfound, hesp]
    rfl
  refine ⟨esp.startBytes, esp.sizeBytes, ?_, hextent⟩
  have hrange : ¬ ((toEsp gpt.sectorSize esp).offset < 2 * gpt.sectorSize ∨
      (toEsp gpt.sectorSize esp).size ≤ 0 ∨
      (image.length : ℤ) < (toEsp gpt.sectorSize esp).offset + (toEsp gpt.sectorSize esp).size) := by
    dsimp only at hstart
    dsimp only [toEsp]
    omega
  rw [EspManifest.findEsp, run_bind (run_gptSectorSize ok hmbr), run_bind (run_gptEntries ok harray'),
    hesps, run_ofExcept_bind, hfound]
  have honly : EspManifest.onlyEsp [toEsp gpt.sectorSize esp] = .ok (toEsp gpt.sectorSize esp) := rfl
  rw [honly, run_ofExcept_bind, run_size_bind, run_failIf_bind hrange]
  rfl

/-! ## An image with an EFI system partition -/

/-- An EFI system partition, the sixteen sectors from 2048 on. -/
def espEntry : Bytes :=
  EspManifest.espTypeGuid ++ List.replicate 16 5 ++ leBytes 8 2048 ++ leBytes 8 2063 ++ zeros 8 ++
    [101, 0, 115, 0, 112, 0] ++ zeros 66

/-- A root partition, the sector 4096. -/
def rootEntry : Bytes :=
  [0xE3, 0xBC, 0x68, 0x4F, 0xCD, 0xE8, 0xB1, 0x4D, 0x96, 0xE7, 0xFB, 0xCA, 0xF9, 0x84, 0xB7, 0x09] ++
    List.replicate 16 6 ++ leBytes 8 4096 ++ leBytes 8 4096 ++ zeros 8 ++
    [114, 0, 111, 0, 111, 0, 116, 0, 45, 0, 120, 0, 56, 0, 54, 0, 45, 0, 54, 0, 52, 0] ++ zeros 50

def diskEntries : Bytes := espEntry ++ rootEntry

theorem crc32_diskEntries : crc32 diskEntries = 1647348617 := by
  have hesp : espEntry.foldl crcByte 0xFFFFFFFF = 563980461 := by decide +kernel
  have hroot : (rootEntry.foldl crcByte 563980461).xor 0xFFFFFFFF = 1647348617 := by decide +kernel
  rw [crc32, diskEntries, List.foldl_append, hesp, hroot]

def diskHeader (lba backup entriesLba : ℕ) : Bytes :=
  let unchecked := efiPart ++ leBytes 4 0x00010000 ++ leBytes 4 92 ++ zeros 8 ++ leBytes 8 lba ++
    leBytes 8 backup ++ leBytes 8 3 ++ leBytes 8 4096 ++ List.replicate 16 7 ++
    leBytes 8 entriesLba ++ leBytes 4 2 ++ leBytes 4 128 ++ leBytes 4 1647348617
  packInto unchecked 16 (crc32 unchecked) ++ zeros 420

/-- A protective MBR, the primary header and the array. -/
def diskHead : Bytes :=
  zeros 450 ++ [0xEE] ++ zeros 59 ++ [0x55, 0xAA] ++ diskHeader 1 4098 2 ++ diskEntries ++ zeros 256

def diskTail : Bytes := diskEntries ++ zeros 256 ++ diskHeader 4098 1 4097

/-- An image of 4099 sectors with the given EFI system partition. -/
def diskImage (esp : Bytes) : Bytes :=
  diskHead ++ zeros (2045 * 512) ++ esp ++ zeros (2033 * 512) ++ diskTail

def diskGptHeader (lba backup entriesLba : ℕ) : Header where
  array := diskEntries
  arrayOffset := entriesLba * 512
  count := 2
  diskGuid := List.replicate 16 7
  entrySize := 128
  entriesLba := entriesLba
  firstUsable := 3
  headerOffset := lba * 512
  headerSize := 92
  lastUsable := 4096
  rawHeader := diskHeader lba backup entriesLba

def diskGpt : ValidatedGpt := ⟨512, diskGptHeader 1 4098 2, diskGptHeader 4098 1 4097⟩

theorem length_diskEntries : diskEntries.length = 256 := by
  simp only [diskEntries, espEntry, rootEntry, EspManifest.espTypeGuid, List.length_append,
    List.length_cons, List.length_nil, List.length_replicate, length_leBytes, length_zeros]

theorem length_diskHeader (lba backup entriesLba : ℕ) :
    (diskHeader lba backup entriesLba).length = 512 := by
  simp only [diskHeader]
  rw [List.length_append, length_packInto]
  all_goals
    simp only [efiPart, List.length_append, List.length_cons, List.length_nil, List.length_replicate,
      length_leBytes, length_zeros]
  omega

theorem length_diskHead : diskHead.length = 1536 := by
  simp only [diskHead, List.length_append, List.length_cons, List.length_nil, length_zeros,
    length_diskHeader, length_diskEntries]

theorem length_diskTail : diskTail.length = 1024 := by
  simp only [diskTail, List.length_append, length_zeros, length_diskHeader, length_diskEntries]

section
variable {esp : Bytes} (hesp : esp.length = 16 * 512)
include hesp

theorem length_diskImage : (diskImage esp).length = 4099 * 512 := by
  simp only [diskImage, List.length_append, length_zeros, length_diskHead, length_diskTail, hesp]

theorem slice_diskEsp : slice (diskImage esp) (2048 * 512) (2048 * 512 + 16 * 512) = esp := by
  have hlen : (diskHead ++ zeros (2045 * 512)).length = 2048 * 512 := by
    rw [List.length_append, length_zeros, length_diskHead]
  have hshift := slice_append_right (diskHead ++ zeros (2045 * 512))
    (esp ++ (zeros (2033 * 512) ++ diskTail)) 0 (16 * 512)
  rw [hlen, Nat.add_zero] at hshift
  rw [diskImage, List.append_assoc, List.append_assoc, hshift,
    slice_append_left (by rw [hesp]), slice_zero, ← hesp, List.take_length]

theorem slice_diskTail (a b : ℕ) :
    slice (diskImage esp) (4097 * 512 + a) (4097 * 512 + b) = slice diskTail a b := by
  have hlen : (diskHead ++ zeros (2045 * 512) ++ esp ++ zeros (2033 * 512)).length = 4097 * 512 := by
    simp only [List.length_append, length_zeros, length_diskHead, hesp]
  rw [diskImage, ← hlen, slice_append_right]

end

theorem slice_diskHead {esp : Bytes} {a b : ℕ} (h : b ≤ 1536) :
    slice (diskImage esp) a b = slice diskHead a b := by
  rw [diskImage, List.append_assoc, List.append_assoc, List.append_assoc,
    slice_append_left (by rw [length_diskHead]; exact h)]

section
variable {esp : Bytes} (hesp : esp.length = 16 * 512)
include hesp

theorem diskHeader_ok (lba backup entriesLba : ℕ)
    (hlba : (lba, backup, entriesLba) = (1, 4098, 2) ∨ (lba, backup, entriesLba) = (4098, 1, 4097))
    (hraw : slice (diskImage esp) (lba * 512) (lba * 512 + 512) = diskHeader lba backup entriesLba)
    (harray : slice (diskImage esp) (entriesLba * 512) (entriesLba * 512 + 256) = diskEntries) :
    HeaderOk (diskImage esp) 512 lba backup (diskGptHeader lba backup entriesLba) := by
  have hlen := length_diskImage hesp
  have hlast : (diskImage esp).length / 512 - 1 = 4098 := by rw [hlen]
  rcases hlba with h | h <;> obtain ⟨rfl, rfl, rfl⟩ := by simpa only [Prod.mk.injEq] using h
  all_goals
    constructor
    case raw => exact hraw.symm
    case array => exact harray.symm
    case inside => omega
    case arrayInside => rw [hlen]; decide
    case location => rw [hlast]; decide
    case usable => rw [hlast]; decide
    case arrayLba => rw [hlast]; decide
    case afterUsable => rw [hlast]; decide
    case arrayCrc => exact crc32_diskEntries.trans (by decide)
    all_goals decide +kernel

theorem diskGpt_validated : Validated (diskImage esp) diskGpt := by
  have hsize : diskGpt.sectorSize = 512 := rfl
  have hlen := length_diskImage hesp
  have hlast : (diskImage esp).length / 512 - 1 = 4098 := by rw [hlen]
  constructor
  case sectorSize =>
    refine sectorSize_eq_ok.2 (.inl ⟨rfl, ⟨?_, ?_, ?_⟩, ?_⟩)
    · rw [hlen]
    · rw [hlen]; omega
    · rw [slice_diskHead (by omega)]; decide +kernel
    · rintro ⟨hmod, -⟩
      rw [hlen] at hmod
      omega
  case primary =>
    rw [hsize, hlast]
    refine diskHeader_ok hesp 1 4098 2 (.inl rfl) ?_ ?_
    · rw [slice_diskHead (by omega)]; decide +kernel
    · rw [slice_diskHead (by omega)]; decide +kernel
  case backup =>
    rw [hsize, hlast]
    refine diskHeader_ok hesp 4098 1 4097 (.inr rfl) ?_ ?_
    · exact (slice_diskTail hesp 512 1024).trans (by decide +kernel)
    · exact (slice_diskTail hesp 0 256).trans (by decide +kernel)
  all_goals rfl

end

def diskMetadata : ImageMetadata where
  firmware := "uefi"
  formatVersion := "mkosi-partition-metadata-v1"
  partitions := [⟨⟨"esp".toList, 1, 16 * 512, alignment, espType⟩, none⟩,
    ⟨⟨"root-x86-64".toList, 2, 512, 2 * alignment, rootX86_64⟩, none⟩]
  sectorSize := 512

theorem diskImage_accepted {esp : Bytes} (hesp : esp.length = 16 * 512) :
    projectImage examplePlatform (diskImage esp) "uefi" none = .ok diskMetadata := by
  have hscan : (List.range diskGpt.primary.count).foldlM
      (scanEntry none diskGpt.sectorSize diskGpt.primary) ⟨[], none⟩ =
        .ok ⟨diskMetadata.partitions, some (4096, 4096, 2)⟩ := by
    decide +kernel
  rw [projectImage, validatedGpt_eq_ok.2 (diskGpt_validated hesp), ok_bind, hscan, ok_bind]
  decide

theorem findEsp_agrees_example :
    (EspManifest.findEsp (diskImage (zeros (16 * 512)))).1 = .ok ⟨2048 * 512, 8192, 512⟩ ∧
      espExtent diskMetadata = .ok (2048 * 512, 8192) := by
  have hesp : (zeros (16 * 512)).length = 16 * 512 := length_zeros _
  have hmbr : ProtectiveMbr (diskImage (zeros (16 * 512))) := by
    refine ⟨by rw [slice_diskHead (by omega)]; decide +kernel, 0, by omega, ?_⟩
    have hhead : (diskImage (zeros (16 * 512)))[450]? = diskHead[450]? := by
      rw [diskImage, List.append_assoc, List.append_assoc, List.append_assoc,
        List.getElem?_append_left (by rw [length_diskHead]; omega)]
    exact hhead.trans (by decide)
  have harray : ∀ gpt, validatedGpt (diskImage (zeros (16 * 512))) = .ok gpt →
      gpt.primary.count * gpt.primary.entrySize ≤ 4 * 2 ^ 20 := by
    intro gpt hgpt
    rw [validatedGpt_eq_ok.2 (diskGpt_validated hesp)] at hgpt
    cases hgpt
    decide
  obtain ⟨offset, size, hfind, hextent⟩ := findEsp_agrees examplePlatform
    (diskImage (zeros (16 * 512))) "uefi" none diskMetadata (diskImage_accepted hesp)
    (by decide) hmbr harray
  have hextent' : espExtent diskMetadata = .ok (2048 * 512, 8192) := by decide
  cases hextent.symm.trans hextent'
  exact ⟨hfind, hextent'⟩

end RulesMkosi.EspExtent
