/-
  Where the projected partitions lie (`mkosi/private/partition_metadata.py`).

  The loop over the entries compares each one only with the one before and with
  the usable range of the primary header.  `Layout` is what it keeps of all
  partitions; the places of both headers and both arrays come from the checks of
  each copy.
-/
import RulesMkosi.Lib.Extent
import RulesMkosi.EspExtent

namespace RulesMkosi.PartitionMetadata

open EspExtent

/-! ## The parts of a disk -/

def PartitionEntry.extent (p : PartitionEntry) : Extent := ⟨p.startBytes, p.sizeBytes⟩

/-- The sector of a GPT header. -/
def Header.sector (h : Header) (sectorSize : ℕ) : Extent := ⟨h.headerOffset, sectorSize⟩

/-- The partition-entry array of a GPT header. -/
def Header.arrayExtent (h : Header) : Extent := ⟨h.arrayOffset, h.count * h.entrySize⟩

/-- The usable sectors of a GPT header. -/
def Header.usableExtent (h : Header) (sectorSize : ℕ) : Extent :=
  ⟨h.firstUsable * sectorSize, (h.lastUsable - h.firstUsable + 1) * sectorSize⟩

namespace ValidatedGpt

/-- The sector of the protective MBR. -/
def mbr (gpt : ValidatedGpt) : Extent := ⟨0, gpt.sectorSize⟩

/-- What belongs to the partition table: the protective MBR and both copies of header and array. -/
def reserved (gpt : ValidatedGpt) : List Extent :=
  [gpt.mbr, gpt.primary.sector gpt.sectorSize, gpt.primary.arrayExtent, gpt.backup.arrayExtent,
    gpt.backup.sector gpt.sectorSize]

end ValidatedGpt

/-! ## The loop over the entries -/

/-- The order of the partitions: by number, and on the disk. -/
def Partition.Precedes (p q : Partition) : Prop := p.number < q.number ∧ p.extent.Before q.extent

/-- The place of one partition. -/
structure Partition.Placed (primary : Header) (sectorSize : ℕ) (p : Partition) : Prop where
  size : 0 < p.sizeBytes
  aligned : p.startBytes % alignment = 0
  usable : (primary.usableExtent sectorSize).start ≤ p.startBytes ∧
    p.extent.stop ≤ (primary.usableExtent sectorSize).stop

/-- What the loop knows after the first `slots` entries. -/
structure Layout (primary : Header) (sectorSize slots : ℕ) (scan : Scan) : Prop where
  order : scan.partitions.Pairwise Partition.Precedes
  placed : ∀ p ∈ scan.partitions, p.Placed primary sectorSize
  /-- the entry that the next one is compared with comes last -/
  last : ∀ p ∈ scan.partitions, ∃ first last number, scan.previous = some (first, last, number) ∧
    p.number ≤ number ∧ number ≤ slots ∧ p.extent.stop ≤ (last + 1) * sectorSize

theorem checked_placed {primary : Header} {sectorSize first last : ℕ} {p : Partition}
    (hsector : 0 < sectorSize) (h : Checked primary sectorSize first last p)
    (haligned : p.startBytes % alignment = 0) :
    p.Placed primary sectorSize ∧ p.extent.stop = (last + 1) * sectorSize := by
  have hle := h.le
  have hstop : p.extent.stop = (last + 1) * sectorSize := by
    rw [PartitionEntry.extent, Extent.stop, h.start, h.size, ← Nat.add_mul]
    congr 1
    omega
  refine ⟨⟨?_, haligned, ?_, ?_⟩, hstop⟩
  · rw [h.size]
    exact Nat.mul_pos (by omega) hsector
  · rw [h.start]
    exact Nat.mul_le_mul_right _ h.usable.1
  · have husable := h.usable
    rw [hstop, Header.usableExtent, Extent.stop, ← Nat.add_mul]
    exact Nat.mul_le_mul_right _ (by omega)

section
variable {slotLabel : Option Str} {sectorSize slot : ℕ} {primary : Header} {scan next : Scan}

/-- One round of the loop: a used entry starts behind the one that it is compared with. -/
theorem Layout.step (hsector : 0 < sectorSize) (h : Layout primary sectorSize slot scan)
    (hnext : scanEntry slotLabel sectorSize primary scan slot = .ok next) :
    Layout primary sectorSize (slot + 1) next := by
  rcases scanEntry_cases hnext with
    ⟨-, rfl⟩ | ⟨first, last, p, -, -, -, hpartitions, hchecked, hfollows⟩
  · refine ⟨h.order, h.placed, fun p hp => ?_⟩
    obtain ⟨first, last, number, hprevious, hnumber, hslot, hstop⟩ := h.last p hp
    exact ⟨first, last, number, hprevious, hnumber, by omega, hstop⟩
  · obtain ⟨hplaced, hstop⟩ := checked_placed hsector hchecked hfollows.aligned
    have hprecedes : ∀ q ∈ scan.partitions, q.Precedes p := by
      intro q hq
      obtain ⟨first', last', number, hprevious, hnumber, hslot, hstop'⟩ := h.last q hq
      have hafter : last' < first := hfollows.after _ hprevious
      refine ⟨by rw [hfollows.number]; omega, hstop'.trans ?_⟩
      rw [PartitionEntry.extent, hchecked.start]
      exact Nat.mul_le_mul_right _ hafter
    refine ⟨?_, ?_, ?_⟩
    · rw [hpartitions]
      exact List.pairwise_append.2 ⟨h.order, List.pairwise_singleton _ _,
        fun q hq r hr => List.mem_singleton.1 hr ▸ hprecedes q hq⟩
    · intro q hq
      rw [hpartitions] at hq
      rcases List.mem_append.1 hq with hq | hq
      · exact h.placed q hq
      · exact List.mem_singleton.1 hq ▸ hplaced
    · intro q hq
      rw [hpartitions] at hq
      refine ⟨first, last, slot + 1, hfollows.previous, ?_, le_rfl, ?_⟩
      · rcases List.mem_append.1 hq with hq | hq
        · exact hfollows.number ▸ (hprecedes q hq).1.le
        · rw [List.mem_singleton.1 hq, hfollows.number]
      · rcases List.mem_append.1 hq with hq | hq
        · have hbefore : q.extent.stop ≤ p.startBytes := (hprecedes q hq).2
          exact hbefore.trans ((Nat.le_add_right _ _).trans hstop.le)
        · rw [List.mem_singleton.1 hq, hstop]

/-- The whole loop. -/
theorem Layout.of_scan (hsector : 0 < sectorSize) : ∀ {slots : ℕ} {scan : Scan},
    (List.range slots).foldlM (scanEntry slotLabel sectorSize primary) ⟨[], none⟩ = .ok scan →
      Layout primary sectorSize slots scan
  | 0, scan, h => by
    cases h
    exact ⟨.nil, by simp, by simp⟩
  | slots + 1, scan, h => by
    rw [List.range_succ, List.foldlM_append, bind_eq_ok] at h
    obtain ⟨middle, hmiddle, hlast⟩ := h
    rw [List.foldlM_cons, bind_eq_ok] at hlast
    obtain ⟨next, hnext, hdone⟩ := hlast
    cases hdone
    exact (Layout.of_scan hsector hmiddle).step hsector hnext

end

/-! ## The usable range and the partition table -/

section
variable {image : Bytes} {gpt : ValidatedGpt} (ok : Validated image gpt)
include ok

theorem Validated.sectorSize_pos : 0 < gpt.sectorSize := by
  rcases ok.size with h | h <;> omega

/-- The primary array ends where the usable range starts, or before. -/
theorem Validated.array_before_usable :
    gpt.primary.arrayExtent.Before (gpt.primary.usableExtent gpt.sectorSize) := by
  have hpos := ok.sectorSize_pos
  have hbefore := ok.primary.beforeUsable.resolve_left (fun hne => hne rfl)
  have hsectors := Nat.div_add_mod (gpt.primary.count * gpt.primary.entrySize + gpt.sectorSize - 1)
    gpt.sectorSize
  have hmod := Nat.mod_lt (gpt.primary.count * gpt.primary.entrySize + gpt.sectorSize - 1) hpos
  generalize (gpt.primary.count * gpt.primary.entrySize + gpt.sectorSize - 1) / gpt.sectorSize =
    sectors at hbefore hsectors
  have hend : (gpt.primary.entriesLba + sectors) * gpt.sectorSize ≤
      gpt.primary.firstUsable * gpt.sectorSize := Nat.mul_le_mul_right _ (by omega)
  rw [Nat.add_mul, Nat.mul_comm sectors] at hend
  show gpt.primary.arrayOffset + gpt.primary.count * gpt.primary.entrySize ≤
    gpt.primary.firstUsable * gpt.sectorSize
  rw [ok.primary.arrayOffset]
  omega

/-- What lies in the usable range overlaps no part of the partition table. -/
theorem Validated.reserved_apart {e : Extent}
    (hstart : (gpt.primary.usableExtent gpt.sectorSize).start ≤ e.start)
    (hstop : e.stop ≤ (gpt.primary.usableExtent gpt.sectorSize).stop) :
    ∀ r ∈ gpt.reserved, Disjoint e.bytes r.bytes := by
  have hpos := ok.sectorSize_pos
  have harray : gpt.primary.arrayExtent.stop ≤ e.start := ok.array_before_usable.trans hstart
  have hlba : 2 * gpt.sectorSize ≤ gpt.primary.arrayExtent.stop := by
    rw [Header.arrayExtent, Extent.stop, ok.primary.arrayOffset]
    exact (Nat.mul_le_mul_right _ ok.primary.arrayLba.1).trans (Nat.le_add_right _ _)
  have husable : (gpt.primary.usableExtent gpt.sectorSize).stop =
      (gpt.primary.lastUsable + 1) * gpt.sectorSize := by
    have hle := ok.primary.usable.1
    rw [Header.usableExtent, Extent.stop, ← Nat.add_mul]
    congr 1
    omega
  have hbackup : (gpt.primary.lastUsable + 1) * gpt.sectorSize ≤ gpt.backup.arrayOffset := by
    rw [ok.backup.arrayOffset, ok.lastUsable]
    exact Nat.mul_le_mul_right _ (ok.backup.afterUsable.resolve_left (fun hne => hne rfl))
  have hheader : (gpt.primary.lastUsable + 1) * gpt.sectorSize ≤ gpt.backup.headerOffset := by
    rw [ok.backup.offset]
    exact Nat.mul_le_mul_right _ ok.primary.usable.2
  intro r hr
  simp only [ValidatedGpt.reserved, List.mem_cons, List.not_mem_nil, or_false] at hr
  rcases hr with rfl | rfl | rfl | rfl | rfl
  · refine (Extent.Before.disjoint ?_).symm
    show 0 + gpt.sectorSize ≤ e.start
    omega
  · refine (Extent.Before.disjoint ?_).symm
    show gpt.primary.headerOffset + gpt.sectorSize ≤ e.start
    rw [ok.primary.offset]
    omega
  · exact (Extent.Before.disjoint harray).symm
  · exact Extent.Before.disjoint (hstop.trans (husable.le.trans hbackup))
  · exact Extent.Before.disjoint (hstop.trans (husable.le.trans hheader))

end

/-- **Projected partitions are disjoint.**  Their numbers and starts increase, they start on 1 MiB
    boundaries inside the usable range, and they overlap neither each other nor the protective MBR,
    a GPT header or a partition-entry array. -/
theorem projectImage_layout (P : Platform) (image : Bytes) (firmware : String)
    (slotLabel : Option Str) (metadata : ImageMetadata)
    (h : projectImage P image firmware slotLabel = .ok metadata) :
    ∃ gpt, validatedGpt image = .ok gpt ∧ metadata.sectorSize = gpt.sectorSize ∧
      (metadata.partitions.map (·.number)).Pairwise (· < ·) ∧
      (metadata.partitions.map (·.startBytes)).Pairwise (· < ·) ∧
      metadata.partitions.Pairwise (fun p q => Disjoint p.extent.bytes q.extent.bytes) ∧
      ∀ p ∈ metadata.partitions, 0 < p.sizeBytes ∧ p.startBytes % alignment = 0 ∧
        p.extent.bytes ⊆ (gpt.primary.usableExtent gpt.sectorSize).bytes ∧
        ∀ r ∈ gpt.reserved, Disjoint p.extent.bytes r.bytes := by
  simp only [projectImage, bind_eq_ok, exists_unit, pure_eq_ok] at h
  obtain ⟨gpt, hgpt, scan, hscan, -, -, rfl⟩ := h
  have ok := validatedGpt_eq_ok.1 hgpt
  have hlayout := Layout.of_scan ok.sectorSize_pos hscan
  refine ⟨gpt, hgpt, rfl, ?_, ?_, ?_, fun p hp => ?_⟩
  · exact List.pairwise_map.2 (hlayout.order.imp fun hprecedes => hprecedes.1)
  · refine List.pairwise_map.2 (hlayout.order.imp_of_mem fun {p q} hp _ hprecedes => ?_)
    have hstop : p.startBytes + p.sizeBytes ≤ q.startBytes := hprecedes.2
    have hsize := (hlayout.placed p hp).size
    show p.startBytes < q.startBytes
    omega
  · exact hlayout.order.imp fun hprecedes => hprecedes.2.disjoint
  · have hplaced := hlayout.placed p hp
    exact ⟨hplaced.size, hplaced.aligned, Extent.bytes_subset hplaced.usable.1 hplaced.usable.2,
      ok.reserved_apart hplaced.usable.1 hplaced.usable.2⟩

theorem projectImage_layout_example : ∃ gpt,
    validatedGpt (diskImage (zeros (16 * 512))) = .ok gpt ∧ gpt.sectorSize = 512 ∧
      ∀ p ∈ diskMetadata.partitions, ∀ r ∈ gpt.reserved, Disjoint p.extent.bytes r.bytes := by
  obtain ⟨gpt, hgpt, hsector, -, -, -, hplaced⟩ := projectImage_layout examplePlatform
    (diskImage (zeros (16 * 512))) "uefi" none diskMetadata (diskImage_accepted (length_zeros _))
  exact ⟨gpt, hgpt, hsector.symm, fun p hp => (hplaced p hp).2.2.2⟩

end RulesMkosi.PartitionMetadata
