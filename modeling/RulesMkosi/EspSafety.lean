/-
  Safety of the ESP reader.

  Whatever the image holds, the reader returns or raises one of its own two
  errors, its loops end, every FAT entry it reads lies inside the FAT, and once
  the partition is found it reads inside the partition only.

  The boot sector is checked by a few inequalities; `Sound` is what they say
  about the regions of the volume.
-/
import RulesMkosi.EspManifest
import Mathlib.Data.List.Perm.Subperm

namespace RulesMkosi.EspManifest

open ReadProgram

/-- The errors that the reader documents. -/
def Reported (e : Failure) : Prop :=
  (∃ message, e = .invalidImage message) ∨ ∃ message, e = .espFileNotFound message

theorem reported_invalid (message : String) : Reported (.invalidImage message) :=
  .inl ⟨message, rfl⟩

theorem reported_notFound (message : String) : Reported (.espFileNotFound message) :=
  .inr ⟨message, rfl⟩

/-! ## Reading fields -/

-- A read in range raises nothing, whatever errors are allowed.
variable {good : Failure → Prop}

theorem byteAt_yields {data : Bytes} {index : ℕ} (h : index < data.length) :
    Yields good (byteAt data index) fun _ => True := by
  unfold byteAt
  rw [List.getElem?_eq_getElem h]
  exact trivial

theorem unpack_yields {size offset : ℕ} {data : Bytes} (h : offset + size ≤ data.length) :
    Yields good (unpack size data offset) fun value => value = field data offset size := by
  unfold unpack unpackFrom
  rw [if_pos h]
  rfl

section
variable {data : Bytes} {inside : ℕ → ℕ → Prop}

/-- A read is of the whole range, which lies in the image. -/
theorem read_meets {offset size : ℕ} {what : String}
    (h : offset + size ≤ data.length → inside offset size) :
    Meets data Reported inside (read offset size what) fun bytes => bytes.length = size := by
  unfold read
  refine meets_bind meets_size fun total htotal => ?_
  refine meets_bind (meets_failIf fun _ => reported_invalid _) fun _ hfits => ?_
  rw [htotal, not_lt] at hfits
  refine meets_bind (meets_readAt (h hfits)) fun bytes _ => ?_
  refine meets_bind (meets_failIf fun _ => reported_invalid _) fun _ hlength => ?_
  exact meets_pure (not_not.1 hlength)

end

/-! ## The GPT -/

/-- Any range may be read. -/
def anywhere (_ _ : ℕ) : Prop := True

variable {data : Bytes}

theorem findSectorSize_meets : ∀ {sizes : List ℕ},
    Meets data Reported anywhere (findSectorSize sizes) fun size => size ∈ sizes
  | [] => meets_raise (reported_invalid _)
  | sectorSize :: rest => by
    unfold findSectorSize
    refine meets_bind meets_size fun total _ => ?_
    have hrest : Meets data Reported anywhere (findSectorSize rest)
        fun size => size ∈ sectorSize :: rest :=
      meets_mono findSectorSize_meets fun _ h => List.mem_cons_of_mem _ h
    split_ifs with hfits
    · refine meets_bind (read_meets fun _ => trivial) fun signature _ => ?_
      split_ifs
      · exact meets_pure List.mem_cons_self
      · exact hrest
    · exact hrest

theorem gptSectorSize_meets :
    Meets data Reported anywhere gptSectorSize fun size => size = 512 ∨ size = 4096 := by
  unfold gptSectorSize
  refine meets_bind (read_meets fun _ => trivial) fun mbr hmbr => ?_
  refine meets_bind (meets_ofExcept (yields_mapM fun index hindex =>
    byteAt_yields (by simp at hindex; omega))) fun types _ => ?_
  refine meets_bind (meets_failIf fun _ => reported_invalid _) fun _ _ => ?_
  refine meets_mono findSectorSize_meets fun size hsize => ?_
  simpa [gptSectorSizes] using hsize

theorem chunks_length {size count : ℕ} {array : Bytes} (hsize : 0 < size)
    (harray : array.length = count * size) : ∀ chunk ∈ chunks size array, chunk.length = size := by
  intro chunk hchunk
  obtain ⟨i, hi, rfl⟩ := List.mem_map.1 hchunk
  have hcount : (array.length + size - 1) / size = count := by
    rw [harray, Nat.add_sub_assoc hsize, Nat.mul_comm, Nat.mul_add_div hsize,
      Nat.div_eq_of_lt (by omega), Nat.add_zero]
  rw [List.mem_range, hcount] at hi
  have hbound : i * size + size ≤ array.length := by
    rw [harray, ← Nat.succ_mul]
    exact Nat.mul_le_mul_right _ hi
  rw [length_slice hbound]
  omega

theorem gptEntries_meets {sectorSize : ℕ} (hsector : sectorSize = 512 ∨ sectorSize = 4096) :
    Meets data Reported anywhere (gptEntries sectorSize)
      fun entries => ∀ entry ∈ entries, 128 ≤ entry.length := by
  unfold gptEntries
  refine meets_bind (read_meets fun _ => trivial) fun header hheader => ?_
  have hfield : ∀ {size offset : ℕ}, offset + size ≤ 92 →
      Meets data Reported anywhere (ofExcept (unpack size header offset)) fun _ => True :=
    fun h => meets_ofExcept (yields_mono (unpack_yields (by omega)) fun _ _ => trivial)
  refine meets_bind (hfield (by omega)) fun headerSize _ => ?_
  refine meets_bind (hfield (by omega)) fun headerCrc _ => ?_
  refine meets_bind (meets_failIf fun _ => reported_invalid _) fun _ _ => ?_
  refine meets_bind (meets_failIf fun _ => reported_invalid _) fun _ _ => ?_
  refine meets_bind (hfield (by omega)) fun arrayLba _ => ?_
  refine meets_bind (hfield (by omega)) fun count _ => ?_
  refine meets_bind (hfield (by omega)) fun entrySize _ => ?_
  refine meets_bind (hfield (by omega)) fun arrayCrc _ => ?_
  refine meets_bind (meets_failIf fun _ => reported_invalid _) fun _ hentry => ?_
  refine meets_bind meets_size fun total _ => ?_
  refine meets_bind (meets_failIf fun _ => reported_invalid _) fun _ _ => ?_
  refine meets_bind (read_meets fun _ => trivial) fun array harray => ?_
  refine meets_bind (meets_failIf fun _ => reported_invalid _) fun _ _ => ?_
  have hsize : 128 ≤ entrySize := by
    by_contra hlt
    exact hentry (.inl (not_le.1 hlt))
  refine meets_pure fun entry hmem => ?_
  rw [chunks_length (by omega) harray entry hmem]
  exact hsize

/-- What the checks of `_find_esp` say about the partition: it lies in the image and has at least
    one sector. -/
structure InImage (data : Bytes) (esp : Partition) : Prop where
  sector : (512 : ℤ) ≤ esp.size
  fits : (esp.offset : ℤ) + esp.size ≤ data.length

theorem addEsp_yields {sectorSize : ℕ} {esps : List Partition} {entry : Bytes}
    (hentry : 128 ≤ entry.length) (hesps : ∀ esp ∈ esps, (sectorSize : ℤ) ∣ esp.size) :
    Yields Reported (addEsp sectorSize esps entry)
      fun esps' => ∀ esp ∈ esps', (sectorSize : ℤ) ∣ esp.size := by
  unfold addEsp
  have huuid : Yields Reported (uuidLe (slice entry 0 16)) fun _ => True := by
    unfold uuidLe
    rw [if_pos (by rw [length_slice (by omega)])]
    exact trivial
  refine yields_bind huuid fun type _ => ?_
  split_ifs
  · refine yields_bind (unpack_yields (by omega)) fun first _ => ?_
    refine yields_bind (unpack_yields (by omega)) fun last _ => ?_
    intro esp hesp
    rcases List.mem_append.1 hesp with h | h
    · exact hesps esp h
    · rw [List.mem_singleton.1 h]
      exact Dvd.intro_left _ rfl
  · exact hesps

theorem findEsp_meets : Meets data Reported anywhere findEsp (InImage data) := by
  unfold findEsp
  refine meets_bind gptSectorSize_meets fun sectorSize hsector => ?_
  refine meets_bind (gptEntries_meets hsector) fun entries hentries => ?_
  refine meets_bind (meets_ofExcept (yields_foldlM (fun esps entry hentry hesps =>
    addEsp_yields (hentries entry hentry) hesps) (fun _ h => absurd h List.not_mem_nil)))
    fun esps hesps => ?_
  have honly : Yields Reported (onlyEsp esps) fun esp => (sectorSize : ℤ) ∣ esp.size := by
    match esps with
    | [] => exact reported_invalid _
    | [esp] => exact hesps esp (List.mem_singleton_self _)
    | _ :: _ :: _ => exact reported_invalid _
  refine meets_bind (meets_ofExcept honly) fun esp hdvd => ?_
  refine meets_bind meets_size fun total htotal => ?_
  refine meets_bind (meets_failIf fun _ => reported_invalid _) fun _ hchecks => ?_
  simp only [not_or, not_lt, not_le] at hchecks
  refine meets_pure ⟨?_, htotal ▸ hchecks.2.2⟩
  -- a positive multiple of the sector size
  have hle := Int.le_of_dvd hchecks.2.1 hdvd
  rcases hsector with rfl | rfl <;> omega

/-! ## The regions of the volume -/

/-- The range lies in the partition. -/
def inEsp (esp : Partition) (offset size : ℕ) : Prop :=
  esp.offset ≤ offset ∧ (offset : ℤ) + size ≤ esp.offset + esp.size

/-- The FAT, the fixed root directory and every cluster lie in the partition. -/
structure Regions (esp : Partition) (g : Geometry) : Prop where
  fat : inEsp esp g.fatOffset g.fatSize
  root : inEsp esp g.rootOffset g.rootSize
  cluster : ∀ cluster, 2 ≤ cluster → cluster ≤ g.clusters + 1 →
    inEsp esp (g.dataOffset + (cluster - 2) * g.clusterSize) g.clusterSize

/-- The regions follow each other: reserved sectors, FATs, root directory, clusters. -/
theorem BootSector.layout {b : BootSector} (hvalid : b.valid) (hclusters : b.clusters ≠ 0) :
    b.reserved * b.sector + b.fatSize ≤ b.rootOffset ∧ b.rootOffset + b.rootSize ≤ b.dataOffset ∧
      b.dataOffset + b.clusters * b.clusterSize ≤ b.total := by
  obtain ⟨-, hsector, -, -, hfats, -, -⟩ := hvalid
  have hpos : 0 < b.sector := by
    simp only [List.mem_cons, List.not_mem_nil, or_false] at hsector
    omega
  refine ⟨?_, ?_, ?_⟩
  · exact Nat.add_le_add_left (Nat.le_mul_of_pos_left _ hfats) _
  · exact Nat.add_le_add_left (le_ceil_mul hpos) _
  · have hmul : b.clusters * b.clusterSize ≤ b.total - b.dataOffset := Nat.div_mul_le_self _ _
    have hne : b.total - b.dataOffset ≠ 0 := by
      intro h0
      apply hclusters
      rw [BootSector.clusters, h0, Nat.zero_div]
    omega

/-- The geometry that a boot sector describes. -/
def BootSector.toGeometry (b : BootSector) (partition : Partition) : Geometry where
  fat32 := b.fat32
  fatOffset := partition.offset + b.reserved * b.sector
  fatSize := b.fatSize
  rootOffset := partition.offset + b.rootOffset
  rootSize := b.rootSize
  rootCluster := if b.fat32 then b.rootCluster else 0
  dataOffset := partition.offset + b.dataOffset
  clusterSize := b.clusterSize
  clusters := b.clusters

theorem BootSector.regions {b : BootSector} {esp : Partition} (hvalid : b.valid)
    (htotal : (b.total : ℤ) ≤ esp.size) (hclusters : b.clusters ≠ 0) :
    Regions esp (b.toGeometry esp) := by
  obtain ⟨hfat, hroot, hdata⟩ := BootSector.layout hvalid hclusters
  have hclustersLe : b.dataOffset ≤ b.dataOffset + b.clusters * b.clusterSize := Nat.le_add_right _ _
  unfold BootSector.toGeometry
  refine ⟨⟨?_, ?_⟩, ⟨?_, ?_⟩, fun cluster hlow hhigh => ⟨?_, ?_⟩⟩
  · exact Nat.le_add_right _ _
  · push_cast; omega
  · exact Nat.le_add_right _ _
  · push_cast; omega
  · exact (Nat.le_add_right _ _).trans (Nat.le_add_right _ _)
  · -- the cluster ends no later than the last one
    have hend : (cluster - 2) * b.clusterSize + b.clusterSize ≤ b.clusters * b.clusterSize := by
      have hlast : cluster - 2 + 1 ≤ b.clusters := by
        have : cluster ≤ b.clusters + 1 := hhigh
        omega
      calc (cluster - 2) * b.clusterSize + b.clusterSize
          = (cluster - 2 + 1) * b.clusterSize := (Nat.succ_mul _ _).symm
        _ ≤ b.clusters * b.clusterSize := Nat.mul_le_mul_right _ hlast
    change ((esp.offset + b.dataOffset + (cluster - 2) * b.clusterSize : ℕ) : ℤ) +
      b.clusterSize ≤ _
    generalize (cluster - 2) * b.clusterSize = start at hend ⊢
    push_cast
    omega

theorem geometry_yields {boot : Bytes} {esp : Partition} (hboot : boot.length = 512) :
    Yields Reported (geometry boot esp) (Regions esp) := by
  have hunpack : Yields Reported (unpackBoot boot) fun _ => True := by
    unfold unpackBoot
    have hfield : ∀ {size offset : ℕ}, offset + size ≤ 512 →
        Yields Reported (unpack size boot offset) fun _ => True :=
      fun h => yields_mono (unpack_yields (by omega)) fun _ _ => trivial
    iterate 10 refine yields_bind (hfield (by omega)) fun _ _ => ?_
    exact trivial
  refine yields_bind hunpack fun b _ => ?_
  refine yields_bind (yields_raiseIf fun _ => reported_invalid _) fun _ hvalid => ?_
  refine yields_bind (yields_raiseIf fun _ => reported_invalid _) fun _ htotal => ?_
  refine yields_bind (yields_raiseIf fun _ => reported_invalid _) fun _ hclusters => ?_
  exact BootSector.regions (not_not.1 hvalid) (not_lt.1 htotal) hclusters

/-- What the constructor of `_FatVolume` has checked. -/
structure Sound (esp : Partition) (volume : FatVolume) : Prop where
  regions : Regions esp volume.geometry
  fat_length : volume.fat.length = volume.geometry.fatSize
  fat_fits : (volume.geometry.clusters + 2) * volume.fatType.bits ≤ volume.geometry.fatSize * 8

theorem init_meets {esp : Partition} (hesp : InImage data esp) :
    Meets data Reported (inEsp esp) (FatVolume.init esp) (Sound esp) := by
  unfold FatVolume.init
  have hboot : inEsp esp esp.offset 512 := ⟨le_rfl, by have := hesp.sector; push_cast; omega⟩
  refine meets_bind (read_meets fun _ => hboot) fun boot hlength => ?_
  refine meets_bind (meets_ofExcept (geometry_yields hlength)) fun g hregions => ?_
  refine meets_bind (meets_failIf fun _ => reported_invalid _) fun _ hfits => ?_
  refine meets_bind (read_meets fun _ => hregions.fat) fun fat hfat => ?_
  exact meets_pure ⟨hregions, hfat, not_lt.1 hfits⟩

/-! ## Cluster chains -/

section
variable {esp : Partition} {volume : FatVolume}

/-- **FAT entries lie inside the FAT**, also the 12-bit entries that share a byte with their
    neighbours. -/
theorem Sound.entry_inside (h : Sound esp volume) {cluster : ℕ}
    (hcluster : cluster ≤ volume.lastCluster) :
    (volume.fatType.entryField cluster).1 + (volume.fatType.entryField cluster).2 ≤
      volume.fat.length := by
  have hfits := h.fat_fits
  rw [h.fat_length]
  unfold FatVolume.lastCluster at hcluster
  cases htype : volume.fatType with
  | fat12 => rw [htype] at hfits; simp only [FatType.bits, FatType.entryField] at hfits ⊢; omega
  | fat16 => rw [htype] at hfits; simp only [FatType.bits, FatType.entryField] at hfits ⊢; omega
  | fat32 => rw [htype] at hfits; simp only [FatType.bits, FatType.entryField] at hfits ⊢; omega

theorem nextCluster_yields (h : Sound esp volume) {cluster : ℕ}
    (hcluster : cluster ≤ volume.lastCluster) :
    Yields good (volume.nextCluster cluster) fun _ => True := by
  unfold FatVolume.nextCluster
  exact yields_bind (unpack_yields (h.entry_inside hcluster)) fun _ _ => trivial

/-- A list of different clusters of the volume. -/
structure Clusters (volume : FatVolume) (chain : List ℕ) : Prop where
  nodup : chain.Nodup
  range : ∀ cluster ∈ chain, 2 ≤ cluster ∧ cluster ≤ volume.lastCluster

theorem Clusters.nil : Clusters volume [] :=
  ⟨List.nodup_nil, fun _ h => absurd h List.not_mem_nil⟩

/-- There are no more different clusters than the volume has. -/
theorem Clusters.length_le {chain : List ℕ} (h : Clusters volume chain) :
    chain.length ≤ volume.geometry.clusters := by
  have hsub : chain ⊆ (List.range volume.geometry.clusters).map (· + 2) := by
    intro cluster hmem
    obtain ⟨hlow, hhigh⟩ := h.range cluster hmem
    unfold FatVolume.lastCluster at hhigh
    refine List.mem_map.2 ⟨cluster - 2, List.mem_range.2 (by omega), by omega⟩
  simpa using (h.nodup.subperm hsub).length_le

theorem Clusters.append {chain chain' : List ℕ} (h : Clusters volume chain)
    (h' : Clusters volume chain') (hdisjoint : ∀ cluster ∈ chain', cluster ∉ chain) :
    Clusters volume (chain ++ chain') := by
  refine ⟨List.Nodup.append h.nodup h'.nodup fun c hc hc' => hdisjoint c hc' hc, ?_⟩
  intro cluster hmem
  rcases List.mem_append.1 hmem with hc | hc
  · exact h.range cluster hc
  · exact h'.range cluster hc

/-- **A chain ends.**  Every round of the loop visits another cluster of the volume. -/
theorem chainLoop_yields (h : Sound esp volume) {what : String}
    (hgood : ∀ rest, good (.invalidImage ("the cluster chain of " ++ rest))) : ∀ {fuel : ℕ} {chain : List ℕ}
    {cluster : ℕ}, Clusters volume chain → volume.geometry.clusters < fuel + chain.length →
    Yields good (volume.chainLoop what fuel chain cluster)
      fun result => Clusters volume result ∧ result ≠ []
  | 0, chain, cluster, hchain, hfuel => by
    have := hchain.length_le
    omega
  | fuel + 1, chain, cluster, hchain, hfuel => by
    unfold FatVolume.chainLoop
    have hmessage : ∀ a b : String,
        good (.invalidImage ("the cluster chain of " ++ what ++ a ++ b)) := by
      intro a b
      rw [String.append_assoc, String.append_assoc]
      exact hgood _
    refine yields_bind (yields_raiseIf fun _ => hmessage _ _) fun _ hrange => ?_
    refine yields_bind (yields_raiseIf fun _ => hmessage _ _) fun _ hnew => ?_
    rw [not_not] at hrange
    refine yields_bind (nextCluster_yields h hrange.2) fun next _ => ?_
    have hsingle : Clusters volume [cluster] :=
      ⟨List.nodup_singleton _, fun c hc => List.mem_singleton.1 hc ▸ hrange⟩
    have happend : Clusters volume (chain ++ [cluster]) :=
      hchain.append hsingle fun c hc => List.mem_singleton.1 hc ▸ hnew
    split_ifs
    · exact ⟨happend, by simp⟩
    · refine chainLoop_yields h hgood happend ?_
      rw [List.length_append, List.length_singleton]
      omega

theorem chain_yields (h : Sound esp volume)
    (hgood : ∀ rest, good (.invalidImage ("the cluster chain of " ++ rest))) {first : ℕ}
    {what : String} :
    Yields good (volume.chain first what) fun chain => Clusters volume chain ∧ chain ≠ [] :=
  chainLoop_yields h hgood Clusters.nil (by simp)

theorem readChain_meets (h : Sound esp volume) {what : String} : ∀ {chain : List ℕ},
    (∀ cluster ∈ chain, 2 ≤ cluster ∧ cluster ≤ volume.lastCluster) →
    Meets data Reported (inEsp esp) (volume.readChain what chain) fun _ => True
  | [], _ => meets_pure trivial
  | cluster :: rest, hrange => by
    unfold FatVolume.readChain
    obtain ⟨hlow, hhigh⟩ := hrange cluster List.mem_cons_self
    refine meets_bind (read_meets fun _ => h.regions.cluster cluster hlow hhigh) fun bytes _ => ?_
    refine meets_bind (readChain_meets h fun c hc => hrange c (List.mem_cons_of_mem _ hc))
      fun more _ => ?_
    exact meets_pure trivial

end

/-! ## Directories -/

section
variable {C : CaseMapping} {fat32 : Bool}

/-- The records of a directory have 32 bytes. -/
def Records (raws : List Bytes) : Prop := ∀ raw ∈ raws, raw.length = directoryEntry

theorem Records.byteAt {raws : List Bytes} (h : Records raws) {raw : Bytes} (hraw : raw ∈ raws)
    {index : ℕ} (hindex : index < 32) : Yields good (byteAt raw index) fun _ => True :=
  byteAt_yields (by rw [h raw hraw]; exact hindex)

theorem records_records (data : Bytes) : Records (records data) := by
  intro raw hraw
  obtain ⟨i, hi, rfl⟩ := List.mem_map.1 hraw
  have hbound : i * directoryEntry + directoryEntry ≤ data.length := by
    have := Nat.div_mul_le_self data.length directoryEntry
    rw [List.mem_range] at hi
    calc i * directoryEntry + directoryEntry = (i + 1) * directoryEntry := (Nat.succ_mul _ _).symm
      _ ≤ data.length / directoryEntry * directoryEntry := Nat.mul_le_mul_right _ hi
      _ ≤ data.length := this
  rw [length_slice hbound]
  omega

theorem shortName_yields {raw : Bytes} (hraw : raw.length = 32) :
    Yields good (shortName C raw) fun _ => True := by
  unfold shortName
  refine yields_bind (byteAt_yields (by omega)) fun first _ => ?_
  refine yields_bind (byteAt_yields (by omega)) fun flags _ => ?_
  exact trivial

theorem longName_yields {slots : List Bytes} {raw : Bytes} (hslots : Records slots) :
    Yields good (longName slots raw) fun _ => True := by
  cases slots with
  | nil => exact trivial
  | cons slot rest =>
    unfold longName
    refine yields_bind (hslots.byteAt List.mem_cons_self (by omega)) fun first _ => ?_
    have hbyte : ∀ {index : ℕ}, index < 32 →
        Yields good ((slot :: rest).mapM (byteAt · index)) fun _ => True :=
      fun hindex => yields_mono (yields_mapM fun s hs => hslots.byteAt hs hindex) fun _ _ => trivial
    dsimp only
    split_ifs
    · refine yields_bind (hbyte (by omega)) fun numbers _ => ?_
      refine yields_bind (hbyte (by omega)) fun checksums _ => ?_
      split_ifs
      · exact trivial
      · exact trivial
    · exact trivial

theorem addSlot_yields {slots : List Bytes} {raw : Bytes} (hslots : Records slots)
    (hraw : raw.length = 32) : Yields good (addSlot slots raw) Records := by
  unfold addSlot
  have hsingle : Records [raw] := fun r hr => List.mem_singleton.1 hr ▸ hraw
  refine yields_bind (byteAt_yields (by omega)) fun first _ => ?_
  split_ifs
  · exact hsingle
  · exact fun r hr => absurd hr List.not_mem_nil
  · intro r hr
    rcases List.mem_append.1 hr with h | h
    · exact hslots r h
    · exact hsingle r h

theorem shortEntry_yields {slots : List Bytes} {raw : Bytes} (hslots : Records slots)
    (hraw : raw.length = 32) : Yields good (shortEntry C fat32 slots raw) fun _ => True := by
  unfold shortEntry
  refine yields_bind (longName_yields hslots) fun long _ => ?_
  refine yields_bind (shortName_yields hraw) fun short _ => ?_
  refine yields_bind (byteAt_yields (by omega)) fun attributes _ => ?_
  split_ifs
  · exact trivial
  · have hhigh : Yields good (highCluster fat32 raw) fun _ => True := by
      unfold highCluster
      split_ifs
      · exact yields_mono (unpack_yields (by omega)) fun _ _ => trivial
      · exact trivial
    refine yields_bind hhigh fun high _ => ?_
    refine yields_bind (unpack_yields (by omega)) fun low _ => ?_
    refine yields_bind (unpack_yields (by omega)) fun size _ => ?_
    exact trivial

theorem entriesLoop_yields : ∀ {raws slots : List Bytes} {found : List Entry}, Records raws →
    Records slots → Yields good (entriesLoop C fat32 raws slots found) fun _ => True
  | [], _, _, _, _ => trivial
  | raw :: rest, slots, found, hraws, hslots => by
    have hraw : raw.length = 32 := hraws raw List.mem_cons_self
    have hrest : Records rest := fun r hr => hraws r (List.mem_cons_of_mem _ hr)
    have hnil : Records [] := fun r hr => absurd hr List.not_mem_nil
    unfold entriesLoop
    refine yields_bind (byteAt_yields (by omega)) fun first _ => ?_
    split_ifs
    · exact trivial
    · exact entriesLoop_yields hrest hnil
    · refine yields_bind (byteAt_yields (by omega)) fun attributes _ => ?_
      split_ifs
      · exact yields_bind (addSlot_yields hslots hraw) fun _ h => entriesLoop_yields hrest h
      · exact yields_bind (shortEntry_yields hslots hraw) fun _ _ => entriesLoop_yields hrest hnil

theorem entries_yields (bytes : Bytes) :
    Yields good (entries C fat32 bytes) fun _ => True :=
  entriesLoop_yields (records_records bytes) fun _ hr => absurd hr List.not_mem_nil

end

/-! ## Lookup and walk -/

section
variable {C : CaseMapping} {esp : Partition} {volume : FatVolume}

/-- The clusters that a walk has claimed. -/
def claimedBy (limits : Option WalkLimits) : List ℕ := (limits.map WalkLimits.claimed).getD []

/-- A claim adds clusters that no directory has used before. -/
theorem claimIf_yields {limits : Option WalkLimits} {chain : List ℕ} {size : ℕ} {what : String}
    (hclaimed : Clusters volume (claimedBy limits)) (hchain : Clusters volume chain) :
    Yields Reported (claimIf limits chain size what) fun limits' =>
      Clusters volume (claimedBy limits') ∧ (limits.isSome → limits'.isSome ∧
        claimedBy limits' = claimedBy limits ++ chain) := by
  cases limits with
  | none => exact ⟨hclaimed, fun h => by cases h⟩
  | some limits =>
    unfold claimIf
    have hclaim : Yields Reported (limits.claim chain size what) fun l =>
        l.claimed = limits.claimed ++ chain ∧ ∀ c ∈ chain, c ∉ limits.claimed := by
      unfold WalkLimits.claim
      refine yields_bind (yields_raiseIf fun _ => reported_invalid _) fun _ hshared => ?_
      refine yields_bind (yields_raiseIf fun _ => reported_invalid _) fun _ _ => ?_
      refine ⟨rfl, fun c hc hmem => ?_⟩
      rw [not_not, List.filter_eq_nil_iff] at hshared
      exact hshared c hc (decide_eq_true hmem)
    refine yields_bind hclaim fun l hl => ?_
    have happend : Clusters volume (limits.claimed ++ chain) := hclaimed.append hchain hl.2
    exact ⟨show Clusters volume l.claimed from hl.1 ▸ happend, fun _ => ⟨rfl, hl.1⟩⟩

theorem fixedRoot_meets (h : Sound esp volume) {what : String} {limits : Option WalkLimits}
    (hclaimed : Clusters volume (claimedBy limits)) :
    Meets data Reported (inEsp esp) (volume.fixedRoot C what limits)
      fun result => Clusters volume (claimedBy result.2) ∧ (limits.isSome → result.2.isSome) := by
  unfold FatVolume.fixedRoot
  refine meets_bind (meets_ofExcept (claimIf_yields hclaimed Clusters.nil)) fun limits' hl => ?_
  refine meets_bind (read_meets fun _ => h.regions.root) fun bytes _ => ?_
  refine meets_bind (meets_ofExcept (entries_yields bytes)) fun found _ => ?_
  exact meets_pure ⟨hl.1, fun hsome => (hl.2 hsome).1⟩

/-- A directory in a chain claims at least one cluster. -/
theorem chainedDirectory_meets (h : Sound esp volume) {cluster : ℕ} {what : String}
    {limits : Option WalkLimits} (hclaimed : Clusters volume (claimedBy limits)) :
    Meets data Reported (inEsp esp) (volume.chainedDirectory C cluster what limits)
      fun result => Clusters volume (claimedBy result.2) ∧ (limits.isSome → result.2.isSome ∧
        (claimedBy limits).length < (claimedBy result.2).length) := by
  unfold FatVolume.chainedDirectory
  refine meets_bind (meets_ofExcept (chain_yields h fun _ => reported_invalid _)) fun chain hchain => ?_
  refine meets_bind (meets_failIf fun _ => reported_invalid _) fun _ _ => ?_
  refine meets_bind (meets_ofExcept (claimIf_yields hclaimed hchain.1)) fun limits' hl => ?_
  refine meets_bind (readChain_meets h hchain.1.range) fun bytes _ => ?_
  refine meets_bind (meets_ofExcept (entries_yields bytes)) fun found _ => ?_
  refine meets_pure ⟨hl.1, fun hsome => ⟨(hl.2 hsome).1, ?_⟩⟩
  rw [(hl.2 hsome).2, List.length_append]
  exact Nat.lt_add_of_pos_right (List.length_pos_iff.2 hchain.2)

theorem directory_meets (h : Sound esp volume) {cluster : Option ℕ} {what : String}
    {limits : Option WalkLimits} (hclaimed : Clusters volume (claimedBy limits)) :
    Meets data Reported (inEsp esp) (volume.directory C cluster what limits)
      fun result => Clusters volume (claimedBy result.2) ∧ (limits.isSome → result.2.isSome) := by
  have hchained : ∀ first, Meets data Reported (inEsp esp)
      (volume.chainedDirectory C first what limits)
      fun result => Clusters volume (claimedBy result.2) ∧ (limits.isSome → result.2.isSome) :=
    fun first => meets_mono (chainedDirectory_meets h hclaimed)
      fun _ hr => ⟨hr.1, fun hsome => (hr.2 hsome).1⟩
  unfold FatVolume.directory
  cases cluster with
  | none =>
    dsimp only
    split_ifs
    · exact hchained _
    · exact fixedRoot_meets h hclaimed
  | some first => exact hchained first

theorem readFile_meets (h : Sound esp volume) {entry : Entry} {what : String} :
    Meets data Reported (inEsp esp) (volume.readFile entry what) fun _ => True := by
  unfold FatVolume.readFile
  split_ifs
  · exact meets_pure trivial
  · refine meets_bind (meets_ofExcept (chain_yields h fun _ => reported_invalid _)) fun chain hchain => ?_
    refine meets_bind (meets_failIf fun _ => reported_invalid _) fun _ _ => ?_
    refine meets_bind (readChain_meets h hchain.1.range) fun bytes _ => ?_
    exact meets_pure trivial

theorem lookupStep_meets (h : Sound esp volume) {espPath : Str} {done : List Str}
    {entry : Option Entry} {component : Str} :
    Meets data Reported (inEsp esp) (volume.lookupStep C espPath done entry component)
      fun _ => True := by
  unfold FatVolume.lookupStep
  refine meets_bind (meets_failIf fun _ => reported_notFound _) fun _ _ => ?_
  refine meets_bind (directory_meets h Clusters.nil) fun result _ => ?_
  dsimp only
  split
  · exact meets_raise (reported_notFound _)
  · exact meets_pure trivial

theorem lookupLoop_meets (h : Sound esp volume) {espPath : Str} : ∀ {rest done : List Str}
    {entry : Entry}, Meets data Reported (inEsp esp)
      (volume.lookupLoop C espPath done entry rest) fun _ => True
  | [], _, _ => meets_pure trivial
  | _ :: _, _, _ => meets_bind (lookupStep_meets h) fun _ _ => lookupLoop_meets h

theorem lookup_meets (h : Sound esp volume) {espPath : Str} :
    Meets data Reported (inEsp esp) (volume.lookup C espPath) fun _ => True := by
  unfold FatVolume.lookup
  split
  · exact meets_raise (reported_notFound _)
  · exact meets_bind (lookupStep_meets h) fun _ _ => lookupLoop_meets h

theorem subdirectories_some (path : Str) (found : List Entry) :
    ∀ item ∈ subdirectories path found, item.2.isSome := by
  intro item hitem
  unfold subdirectories at hitem
  rw [List.mem_reverse] at hitem
  obtain ⟨e, -, rfl⟩ := List.mem_map.1 hitem
  rfl

/-- **A walk ends.**  After the root directory every round claims another cluster. -/
theorem walkLoop_meets (h : Sound esp volume) : ∀ {fuel : ℕ} {limits : Option WalkLimits}
    {pending : List (Str × Option ℕ)} {files : List EspFile},
    (∀ item ∈ pending, item.2.isSome) → limits.isSome → Clusters volume (claimedBy limits) →
    volume.geometry.clusters < fuel + (claimedBy limits).length →
    Meets data Reported (inEsp esp) (volume.walkLoop C fuel limits pending files) fun _ => True
  | fuel, limits, [], files, _, _, _, _ => by
    unfold FatVolume.walkLoop
    exact meets_pure trivial
  | 0, limits, item :: pending, files, _, _, hclaimed, hfuel => by
    have := hclaimed.length_le
    omega
  | fuel + 1, limits, (path, none) :: pending, files, hpending, _, _, _ => by
    have := hpending _ List.mem_cons_self
    cases this
  | fuel + 1, limits, (path, some cluster) :: pending, files, hpending, hsome, hclaimed, hfuel => by
    unfold FatVolume.walkLoop
    refine meets_bind (chainedDirectory_meets h hclaimed) fun result hresult => ?_
    obtain ⟨hclaimed', hgrow⟩ := hresult
    obtain ⟨hsome', hlength⟩ := hgrow hsome
    refine walkLoop_meets h (fun item hitem => ?_) hsome' hclaimed' (by omega)
    rcases List.mem_append.1 hitem with hitem | hitem
    · exact subdirectories_some path _ item hitem
    · exact hpending item (List.mem_cons_of_mem _ hitem)

theorem walk_meets (h : Sound esp volume) :
    Meets data Reported (inEsp esp) (volume.walk C) fun _ => True := by
  unfold FatVolume.walk FatVolume.walkLoop
  refine meets_bind (directory_meets h Clusters.nil) fun result hresult => ?_
  refine walkLoop_meets h (fun item hitem => ?_) (hresult.2 rfl) hresult.1 (by omega)
  rw [List.append_nil] at hitem
  exact subdirectories_some _ _ item hitem

end

/-! ## The entry points -/

section
variable (C : CaseMapping)

theorem listFiles_meets {esp : Partition} (h : InImage data esp) :
    Meets data Reported (inEsp esp) (listFiles C esp) fun _ => True :=
  meets_bind (init_meets h) fun _ hvolume => walk_meets hvolume

theorem readPath_meets {esp : Partition} (h : InImage data esp) (espPath : Str) :
    Meets data Reported (inEsp esp) (readPath C espPath esp) fun _ => True := by
  unfold readPath
  refine meets_bind (init_meets h) fun volume hvolume => ?_
  refine meets_bind (lookup_meets hvolume) fun entry _ => ?_
  refine meets_bind (meets_failIf fun _ => reported_notFound _) fun _ _ => ?_
  exact readFile_meets hvolume

/-- An entry point that finds the partition and goes on with `next`: its errors are reported, and
    what it reads after the partition is found lies in the partition. -/
structure Confined {α : Type} (data : Bytes) (program : Program α) : Prop where
  reported : ∀ e, (program data).1 = .error e → Reported e
  inside : ∀ esp, (findEsp data).1 = .ok esp → ∃ rest,
    (program data).2 = (findEsp data).2 ++ rest ∧ ∀ range ∈ rest,
      esp.offset ≤ range.1 ∧ (range.1 : ℤ) + range.2 ≤ esp.offset + esp.size

theorem reported_of_yields {α : Type} {x : Except Failure α} {post : α → Prop}
    (h : Yields Reported x post) : ∀ e, x = .error e → Reported e := by
  rintro e rfl
  exact h

theorem confined_of_meets {α : Type} {next : Partition → Program α}
    (h : ∀ esp, InImage data esp → Meets data Reported (inEsp esp) (next esp) fun _ => True) :
    Confined data (findEsp >>= next) := by
  have hfind : Meets data Reported anywhere findEsp (InImage data) := findEsp_meets
  refine ⟨?_, fun esp hesp => ?_⟩
  · have hrun : Meets data Reported anywhere (findEsp >>= next) fun _ => True :=
      meets_bind hfind fun esp hesp => ⟨(h esp hesp).1, fun _ _ => trivial⟩
    exact reported_of_yields hrun.1
  · have himage : InImage data esp := by
      have := hfind.1
      rwa [hesp] at this
    refine ⟨(next esp data).2, ?_, (h esp himage).2⟩
    rw [log_bind hesp]

/-- What the reader promises on an image and a path. -/
structure Safe (data : Bytes) (espPath : Str) : Prop where
  /-- `find_esp` returns or raises one of its errors -/
  find : ∀ e, (findEsp data).1 = .error e → Reported e
  /-- `list_esp_files` and `read_esp_file` do too, and read in the partition -/
  list : Confined data (listEspFiles C)
  read : Confined data (readEspFile C espPath)
  /-- `_next_cluster` reads inside the FAT for every cluster of the volume -/
  fat : ∀ esp volume, (findEsp data).1 = .ok esp → (FatVolume.init esp data).1 = .ok volume →
    ∀ cluster, 2 ≤ cluster → cluster ≤ volume.lastCluster →
      (volume.fatType.entryField cluster).1 + (volume.fatType.entryField cluster).2 ≤
        volume.fat.length ∧ ∃ next, volume.nextCluster cluster = .ok next

/-- **The ESP reader is safe on every image**: it ends with a result or with one of its two errors,
    and reads inside the FAT and inside the partition only. -/
theorem espReader_safe (data : Bytes) (espPath : Str) : Safe C data espPath where
  find := reported_of_yields findEsp_meets.1
  list := confined_of_meets fun _ h => listFiles_meets C h
  read := confined_of_meets fun _ h => readPath_meets C h espPath
  fat esp volume hesp hvolume cluster _ hcluster := by
    have himage : InImage data esp := by
      have hfind : Meets data Reported anywhere findEsp (InImage data) := findEsp_meets
      have := hfind.1
      rwa [hesp] at this
    have hsound : Sound esp volume := by
      have := (init_meets himage).1
      rwa [hvolume] at this
    refine ⟨hsound.entry_inside hcluster, ?_⟩
    unfold FatVolume.nextCluster unpack unpackFrom
    rw [if_pos (hsound.entry_inside hcluster)]
    exact ⟨_, rfl⟩

end

/-! A FAT12 volume with one file of five bytes in its only cluster. -/

def exampleBoot : Bytes :=
  zeros 11 ++ leBytes 2 512 ++ [1] ++ leBytes 2 1 ++ [1] ++ leBytes 2 16 ++ leBytes 2 4 ++ [0] ++
    leBytes 2 1 ++ zeros 486 ++ [0x55, 0xAA]

/-- The entry of `A.TXT`, 5 bytes at cluster 2. -/
def exampleRecord : Bytes :=
  [0x41, 0x20, 0x20, 0x20, 0x20, 0x20, 0x20, 0x20, 0x54, 0x58, 0x54, 0x20] ++ zeros 14 ++
    leBytes 2 2 ++ leBytes 4 5

def exampleText : Bytes := [0x68, 0x65, 0x6C, 0x6C, 0x6F]

/-- A disk of seven sectors with the volume in its last four. -/
def exampleDisk : Bytes :=
  zeros 450 ++ [0xEE] ++ zeros 59 ++ [0x55, 0xAA] ++
    (efiPart ++ zeros 4 ++ leBytes 4 92 ++ leBytes 4 0x809602B7 ++ zeros 52 ++ leBytes 8 2 ++ leBytes 4 1 ++
      leBytes 4 128 ++ leBytes 4 0xD4D1C0A1 ++ zeros 420) ++
    (espTypeGuid ++ zeros 16 ++ leBytes 8 3 ++ leBytes 8 6 ++ zeros 80 ++ zeros 384) ++
    exampleBoot ++ ([0xF8, 0xFF, 0xFF, 0xFF, 0x0F] ++ zeros 507) ++
    (exampleRecord ++ zeros 480) ++ (exampleText ++ zeros 507)

/-- The case mappings of ASCII letters. -/
def asciiCase : CaseMapping := ⟨List.map Char.toLower, List.map Char.toUpper⟩

theorem espReader_safe_example :
    (findEsp exampleDisk).1 = .ok ⟨1536, 2048, 512⟩ ∧
      (listEspFiles asciiCase exampleDisk).1 = .ok [⟨"A.TXT".toList, 5⟩] ∧
      (readEspFile asciiCase "a.txt".toList exampleDisk).1 = .ok exampleText ∧
      Safe asciiCase exampleDisk "a.txt".toList := by
  have hfind : (findEsp exampleDisk).1 = .ok ⟨1536, 2048, 512⟩ := by decide +kernel
  refine ⟨hfind, ?_, ?_, espReader_safe asciiCase exampleDisk "a.txt".toList⟩
  · rw [listEspFiles, run_bind hfind]
    decide +kernel
  · rw [readEspFile, run_bind hfind]
    decide +kernel

end RulesMkosi.EspManifest
