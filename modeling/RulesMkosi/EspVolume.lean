/-
  The volumes that the constructor of `_FatVolume` accepts, and their cluster
  numbers.

  The FAT type fixes the numbers from which on a FAT entry ends a chain.  The
  constructor checks that the FAT has an entry for every cluster, but not that
  the number of every cluster lies below these marks; they do exactly if the
  volume has fewer clusters than `BootSector.clusterLimit`.
-/
import RulesMkosi.EspSafety

namespace RulesMkosi.EspManifest

open ReadProgram

deriving instance DecidableEq for BootSector

deriving instance DecidableEq for FatVolume

/-! ## The constructor -/

theorem geometry_eq_ok {boot : Bytes} {partition : Partition} {g : Geometry} :
    geometry boot partition = .ok g ↔ ∃ b, unpackBoot boot = .ok b ∧ b.valid ∧
      (b.total : ℤ) ≤ partition.size ∧ b.clusters ≠ 0 ∧ b.toGeometry partition = g := by
  simp only [geometry, bind_eq_ok, exists_unit, raiseIf_eq_ok, pure_eq_ok, not_not, not_lt]
  rfl

theorem read_eq_ok {data bytes : Bytes} {offset size : ℕ} {what : String} :
    (read offset size what data).1 = .ok bytes ↔
      offset + size ≤ data.length ∧ slice data offset (offset + size) = bytes := by
  rw [read_run]
  split_ifs with h
  · simp [h]
  · simp [h]

/-- What the constructor has checked of the boot sector and of the FAT. -/
structure Accepted (partition : Partition) (b : BootSector) (volume : FatVolume) : Prop where
  valid : b.valid
  total_le : (b.total : ℤ) ≤ partition.size
  clusters_ne : b.clusters ≠ 0
  partition_eq : volume.partition = partition
  geometry_eq : volume.geometry = b.toGeometry partition
  fat_fits : (b.clusters + 2) * volume.fatType.bits ≤ b.fatSize * 8
  fat_length : volume.fat.length = b.fatSize

/-- The boot sector that the constructor reads. -/
def bootSector (partition : Partition) (data : Bytes) : Except Failure BootSector :=
  unpackBoot (slice data partition.offset (partition.offset + 512))

theorem init_accepted {partition : Partition} {data : Bytes} {volume : FatVolume}
    (h : (FatVolume.init partition data).1 = .ok volume) :
    ∃ b, bootSector partition data = .ok b ∧ Accepted partition b volume := by
  simp only [FatVolume.init, run_bind_eq_ok, run_ofExcept, exists_unit, run_failIf_eq_ok,
    run_pure_eq_ok, read_eq_ok, geometry_eq_ok, not_lt] at h
  obtain ⟨_, ⟨-, rfl⟩, _, ⟨b, hb, hvalid, htotal, hclusters, rfl⟩, hfits, fat, ⟨hin, rfl⟩, rfl⟩ := h
  refine ⟨b, hb, hvalid, htotal, hclusters, rfl, rfl, hfits, ?_⟩
  rw [length_slice hin, Nat.add_sub_cancel_left]
  rfl

theorem Accepted.toSound {partition : Partition} {b : BootSector} {volume : FatVolume}
    (h : Accepted partition b volume) : Sound partition volume := by
  refine ⟨?_, ?_, ?_⟩
  · rw [h.geometry_eq]
    exact BootSector.regions h.valid h.total_le h.clusters_ne
  · rw [h.fat_length, h.geometry_eq]
    rfl
  · have hfits := h.fat_fits
    rw [h.geometry_eq]
    exact hfits

/-! ## End-of-chain marks -/

/-- The number of clusters from which on the last cluster has the number of an end-of-chain mark
    of FAT16 or FAT32. -/
def BootSector.clusterLimit (b : BootSector) : ℕ := if b.fat32 then 0x0FFFFFF7 else 0xFFF7

/-- Cluster numbers are no end-of-chain marks, and whatever the FAT holds, a chain ends at a mark
    and not at the number of a cluster. -/
structure MarksApart (volume : FatVolume) : Prop where
  below : ∀ cluster, 2 ≤ cluster → cluster ≤ volume.lastCluster →
    cluster < volume.fatType.endOfChain
  stops : ∀ fat first what chain, fat.length = volume.fat.length →
    { volume with fat := fat }.chain first what = .ok chain →
    ∃ last next, chain.getLast? = some last ∧
      { volume with fat := fat }.nextCluster last = .ok next ∧
      volume.fatType.endOfChain ≤ next ∧ ¬ (2 ≤ next ∧ next ≤ volume.lastCluster)

section
variable {partition : Partition} {b : BootSector} {volume : FatVolume}

/-- A chain ends where the FAT has an end-of-chain mark. -/
theorem chainLoop_last {what : String} : ∀ {fuel : ℕ} {done chain : List ℕ} {cluster : ℕ},
    volume.chainLoop what fuel done cluster = .ok chain → ∃ last next,
      chain.getLast? = some last ∧ volume.nextCluster last = .ok next ∧
        volume.fatType.endOfChain ≤ next
  | 0, _, _, _, h => by cases h
  | fuel + 1, done, chain, cluster, h => by
    simp only [FatVolume.chainLoop, bind_eq_ok, exists_unit, raiseIf_eq_ok] at h
    obtain ⟨-, -, next, hnext, h⟩ := h
    split_ifs at h with hend
    · rw [pure_eq_ok] at h
      exact ⟨cluster, next, by simp [← h], hnext, hend⟩
    · exact chainLoop_last h

theorem Accepted.clusterSize_pos (h : Accepted partition b volume) : 0 < b.clusterSize := by
  obtain ⟨-, hsector, hper, -⟩ := h.valid
  refine Nat.mul_pos ?_ ?_
  · simp only [List.mem_cons, List.not_mem_nil, or_false] at hper
    omega
  · simp only [List.mem_cons, List.not_mem_nil, or_false] at hsector
    omega

theorem Accepted.lastCluster_eq (h : Accepted partition b volume) :
    volume.lastCluster = b.clusters + 1 := by
  rw [FatVolume.lastCluster, h.geometry_eq]
  rfl

/-- FAT12 volumes are far below the limit. -/
theorem Accepted.last_lt_iff (h : Accepted partition b volume) :
    volume.lastCluster < volume.fatType.endOfChain ↔ b.clusters < b.clusterLimit := by
  have htype : volume.fatType = if b.fat32 then .fat32
      else if b.clusters < fat12ClusterLimit then .fat12 else .fat16 := by
    rw [FatVolume.fatType, h.geometry_eq]
    rfl
  rw [h.lastCluster_eq, htype, BootSector.clusterLimit]
  unfold fat12ClusterLimit
  split_ifs with hfat32 hfew
  · simp only [FatType.endOfChain]
    omega
  · simp only [FatType.endOfChain]
    omega
  · simp only [FatType.endOfChain]
    omega

/-- The clusters that fit between the start of the data area and the end of the volume. -/
theorem Accepted.clusters_lt_iff (h : Accepted partition b volume) {limit : ℕ} (hpos : 0 < limit) :
    b.clusters < limit ↔ b.total < b.dataOffset + limit * b.clusterSize := by
  have harea : 0 < limit * b.clusterSize := Nat.mul_pos hpos h.clusterSize_pos
  rw [BootSector.clusters, Nat.div_lt_iff_lt_mul h.clusterSize_pos]
  omega

end

/-- **Cluster numbers and end-of-chain marks** are apart exactly if the volume ends before the
    cluster whose number is the first mark of its FAT type. -/
theorem marksApart_iff {partition : Partition} {data : Bytes} {volume : FatVolume} {b : BootSector}
    (hvolume : (FatVolume.init partition data).1 = .ok volume)
    (hboot : bootSector partition data = .ok b) :
    MarksApart volume ↔ b.total < b.dataOffset + b.clusterLimit * b.clusterSize := by
  obtain ⟨b', hb', haccepted⟩ := init_accepted hvolume
  obtain rfl : b = b' := Except.ok.inj (hboot.symm.trans hb')
  have hlimit : 0 < b.clusterLimit := by
    unfold BootSector.clusterLimit
    split_ifs
    · omega
    · omega
  rw [← haccepted.clusters_lt_iff hlimit, ← haccepted.last_lt_iff]
  constructor
  · intro hapart
    refine hapart.below _ ?_ le_rfl
    rw [haccepted.lastCluster_eq]
    have := haccepted.clusters_ne
    omega
  · intro hlast
    refine ⟨fun cluster _ hcluster => hcluster.trans_lt hlast, ?_⟩
    intro fat first what chain _ hchain
    obtain ⟨last, next, hgetLast, hnext, hend⟩ := chainLoop_last hchain
    have hmark : volume.fatType.endOfChain ≤ next := hend
    exact ⟨last, next, hgetLast, hnext, hmark, fun hcluster => by omega⟩

/-- The partition of `exampleDisk`. -/
def exampleEsp : Partition := ⟨1536, 2048, 512⟩

def exampleBootSector : BootSector := ⟨512, 1, 1, 1, 16, 4, 1, 0, 0, 0, [0x55, 0xAA]⟩

def exampleVolume : FatVolume :=
  ⟨exampleEsp, exampleBootSector.toGeometry exampleEsp, [0xF8, 0xFF, 0xFF, 0xFF, 0x0F] ++ zeros 507⟩

theorem init_exampleDisk : (FatVolume.init exampleEsp exampleDisk).1 = .ok exampleVolume := by
  decide +kernel

theorem marksApart_iff_example :
    (FatVolume.init exampleEsp exampleDisk).1 = .ok exampleVolume ∧ MarksApart exampleVolume := by
  have hboot : bootSector exampleEsp exampleDisk = .ok exampleBootSector := by decide +kernel
  exact ⟨init_exampleDisk, (marksApart_iff init_exampleDisk hboot).2 (by decide)⟩

/-! A FAT16 volume with 65527 clusters: the last one has the number 0xFFF8, which is also an
    end-of-chain mark. -/

def wideBoot : Bytes :=
  zeros 11 ++ leBytes 2 512 ++ [1] ++ leBytes 2 1 ++ [1] ++ leBytes 2 16 ++ zeros 2 ++ [0] ++
    leBytes 2 256 ++ zeros 8 ++ leBytes 4 65785 ++ zeros 474 ++ [0x55, 0xAA]

def wideBootSector : BootSector := ⟨512, 1, 1, 1, 16, 0, 256, 65785, 0, 0, [0x55, 0xAA]⟩

/-- Cluster 2 is followed by the last cluster. -/
def wideFat : Bytes := zeros 4 ++ (leBytes 2 0xFFF8 ++ zeros 131066)

def wideEsp : Partition := ⟨1024, 33681920, 512⟩

/-- The boot sector, the FAT and empty sectors behind the two sectors of a GPT. -/
def wideDisk : Bytes := zeros 1024 ++ (wideBoot ++ (wideFat ++ zeros 33550336))

def wideVolume : FatVolume := ⟨wideEsp, wideBootSector.toGeometry wideEsp, wideFat⟩

theorem length_wideFat : wideFat.length = 131072 := by
  simp [wideFat, length_leBytes]

theorem length_wideBoot : wideBoot.length = 512 := by
  simp [wideBoot, length_leBytes]

theorem length_wideDisk : wideDisk.length = 33682944 := by
  simp [wideDisk, length_wideFat, length_wideBoot]

theorem slice_wideDisk_boot : slice wideDisk 1024 (1024 + 512) = wideBoot := by
  rw [wideDisk]
  exact slice_middle (length_zeros 1024) (by rw [length_wideBoot])

theorem slice_wideDisk_fat : slice wideDisk 1536 (1536 + 131072) = wideFat := by
  rw [wideDisk, ← List.append_assoc]
  exact slice_middle (by simp [length_wideBoot]) (by rw [length_wideFat])

theorem init_wide {disk : Bytes} (hlength : disk.length = 33682944)
    (hboot : slice disk 1024 (1024 + 512) = wideBoot)
    (hfat : slice disk 1536 (1536 + 131072) = wideFat) :
    (FatVolume.init wideEsp disk).1 = .ok wideVolume := by
  have hread : ∀ {offset size : ℕ} {what : String} {bytes : Bytes}, offset + size ≤ 33682944 →
      slice disk offset (offset + size) = bytes → (read offset size what disk).1 = .ok bytes := by
    intro offset size what bytes hsize hslice
    rw [← hlength] at hsize
    exact read_eq_ok.2 ⟨hsize, hslice⟩
  have hgeometry : geometry wideBoot wideEsp = .ok (wideBootSector.toGeometry wideEsp) := by
    decide +kernel
  have hfits : ¬ (wideBootSector.toGeometry wideEsp).fatSize * 8 <
      ((wideBootSector.toGeometry wideEsp).clusters + 1 + 1) *
        (wideBootSector.toGeometry wideEsp).fatType.bits := by decide
  have hoffset : wideEsp.offset = 1024 := rfl
  have hfatOffset : (wideBootSector.toGeometry wideEsp).fatOffset = 1536 := by decide
  have hfatSize : (wideBootSector.toGeometry wideEsp).fatSize = 131072 := by decide
  rw [FatVolume.init, hoffset, run_bind (hread (by omega) hboot), hgeometry,
    run_ofExcept_bind, run_failIf_bind hfits, hfatOffset, hfatSize,
    run_bind (hread (by omega) hfat), run_pure_eq_ok]
  rfl

theorem init_wideDisk : (FatVolume.init wideEsp wideDisk).1 = .ok wideVolume :=
  init_wide length_wideDisk slice_wideDisk_boot slice_wideDisk_fat

theorem lastCluster_wide : wideVolume.lastCluster = 0xFFF8 := by decide

theorem fatType_wide : wideVolume.fatType = .fat16 := by decide

theorem nextCluster_wide : wideVolume.nextCluster 2 = .ok 0xFFF8 := by
  have hfield : field wideFat (2 * 2) 2 = 0xFFF8 := field_middle (length_zeros 4) (by decide)
  have hunpack : unpack 2 wideFat (2 * 2) = .ok 0xFFF8 := by
    have hfits : 2 * 2 + 2 ≤ wideFat.length := by
      rw [length_wideFat]
      omega
    rw [unpack, unpackFrom_eq_ok.2 ⟨hfits, hfield.symm⟩]
  rw [FatVolume.nextCluster, fatType_wide]
  show (unpack 2 wideFat (2 * 2) >>= fun value => pure value) = .ok 0xFFF8
  rw [hunpack]
  rfl

/-- The chain of cluster 2 is cut at its link to the last cluster. -/
theorem marksApart_cut : (FatVolume.init wideEsp wideDisk).1 = .ok wideVolume ∧
    wideVolume.lastCluster = 0xFFF8 ∧ wideVolume.nextCluster 2 = .ok 0xFFF8 ∧
    wideVolume.chain 2 "EFI" = .ok [2] ∧ ¬ MarksApart wideVolume := by
  have hend : wideVolume.fatType.endOfChain = 0xFFF8 := by rw [fatType_wide]; rfl
  have hchain : wideVolume.chain 2 "EFI" = .ok [2] := by
    rw [FatVolume.chain, FatVolume.chainLoop, raiseIf_of_not (by rw [lastCluster_wide]; omega),
      ok_bind, raiseIf_of_not List.not_mem_nil, ok_bind, nextCluster_wide, ok_bind,
      if_pos hend.le]
    rfl
  refine ⟨init_wideDisk, lastCluster_wide, nextCluster_wide, hchain, fun hapart => ?_⟩
  have hbelow := hapart.below 0xFFF8 (by omega) lastCluster_wide.ge
  rw [hend] at hbelow
  exact lt_irrefl _ hbelow

/-! A volume with the directory `EFI` in cluster 2 and its file `A.TXT` in cluster 3. -/

def treeEsp : Partition := ⟨0, 2560, 512⟩

def treeBootSector : BootSector := ⟨512, 1, 1, 1, 16, 5, 1, 0, 0, 0, [0x55, 0xAA]⟩

def treeFat : Bytes := [0xF8, 0xFF, 0xFF, 0xFF, 0xFF, 0xFF] ++ zeros 506

/-- The record of `EFI`, a directory at cluster 2. -/
def treeRecord : Bytes :=
  [0x45, 0x46, 0x49, 0x20, 0x20, 0x20, 0x20, 0x20, 0x20, 0x20, 0x20, 0x10] ++ zeros 14 ++
    leBytes 2 2 ++ zeros 4

/-- The record of `A.TXT`, 5 bytes at cluster 3. -/
def leafRecord : Bytes :=
  [0x41, 0x20, 0x20, 0x20, 0x20, 0x20, 0x20, 0x20, 0x54, 0x58, 0x54, 0x20] ++ zeros 14 ++
    leBytes 2 3 ++ leBytes 4 5

def treeDisk : Bytes :=
  zeros 11 ++ leBytes 2 512 ++ [1] ++ leBytes 2 1 ++ [1] ++ leBytes 2 16 ++ leBytes 2 5 ++ [0] ++
    leBytes 2 1 ++ zeros 486 ++ [0x55, 0xAA] ++ treeFat ++ (treeRecord ++ zeros 480) ++
    (leafRecord ++ zeros 480) ++ (exampleText ++ zeros 507)

def treeVolume : FatVolume := ⟨treeEsp, treeBootSector.toGeometry treeEsp, treeFat⟩

theorem init_treeDisk : (FatVolume.init treeEsp treeDisk).1 = .ok treeVolume := by decide +kernel

end RulesMkosi.EspManifest
