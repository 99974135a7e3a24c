/-
  The walk over the directories of a FAT volume is bounded.

  Directories form a graph that the image chooses freely.  A walk claims the
  clusters of every directory before it reads them, so its log is the fixed root
  directory, if there is one, followed by the clusters it has claimed, each of
  them once (`Walked`).  These regions fit in the partition, whence the byte
  budget of the walk is never used up.
-/
import RulesMkosi.EspVolume

namespace RulesMkosi.EspManifest

open ReadProgram

/-! ## Regions and their sizes -/

/-- The bytes that reads of these ranges return. -/
def total (log : List (ℕ × ℕ)) : ℕ := (log.map Prod.snd).sum

theorem total_append (log log' : List (ℕ × ℕ)) : total (log ++ log') = total log + total log' := by
  simp [total]

namespace FatVolume

variable (volume : FatVolume)

/-- The range of a data cluster. -/
def clusterRange (cluster : ℕ) : ℕ × ℕ :=
  (volume.geometry.dataOffset + (cluster - 2) * volume.geometry.clusterSize,
    volume.geometry.clusterSize)

/-- The range of the fixed root directory. -/
def rootRange : ℕ × ℕ := (volume.geometry.rootOffset, volume.geometry.rootSize)

theorem total_clusters (chain : List ℕ) :
    total (chain.map volume.clusterRange) = chain.length * volume.geometry.clusterSize := by
  induction chain with
  | nil => simp [total]
  | cons cluster chain ih =>
    have hcons : total ((cluster :: chain).map volume.clusterRange) =
        volume.geometry.clusterSize + total (chain.map volume.clusterRange) := rfl
    rw [hcons, ih, List.length_cons, Nat.succ_mul, Nat.add_comm]

end FatVolume

/-- The root directory and the clusters are different regions that fit in the partition. -/
structure Layout (volume : FatVolume) : Prop where
  root_before : volume.geometry.rootOffset + volume.geometry.rootSize ≤ volume.geometry.dataOffset
  clusterSize_pos : 0 < volume.geometry.clusterSize
  fits : ((volume.geometry.rootSize + volume.geometry.clusters * volume.geometry.clusterSize : ℕ) : ℤ)
    ≤ volume.partition.size

section
variable {partition : Partition} {b : BootSector} {volume : FatVolume}

theorem Accepted.toLayout (h : Accepted partition b volume) : Layout volume := by
  obtain ⟨-, hroot, hdata⟩ := BootSector.layout h.valid h.clusters_ne
  have htotal := h.total_le
  refine ⟨?_, ?_, ?_⟩
  · rw [h.geometry_eq]
    show partition.offset + b.rootOffset + b.rootSize ≤ partition.offset + b.dataOffset
    omega
  · rw [h.geometry_eq]
    exact h.clusterSize_pos
  · rw [h.geometry_eq, h.partition_eq]
    show ((b.rootSize + b.clusters * b.clusterSize : ℕ) : ℤ) ≤ partition.size
    omega

end

/-! ## Errors within the bounds -/

/-- `_WalkLimits.claim` raises this when the budget is used up. -/
def budgetError : Failure := .invalidImage "the ESP's directories are larger than the ESP"

/-- An error other than a loop that does not end and a budget that is used up. -/
def InBounds (e : Failure) : Prop := e ≠ .unfinished ∧ e ≠ budgetError

/-- The message of the budget ends in a way that no other message does. -/
theorem inBounds_of_getLast {before after : String} {c : Char}
    (h : after.toList.getLast? = some c) (hc : c ≠ 'P') :
    InBounds (.invalidImage (before ++ after)) := by
  refine ⟨nofun, fun heq => hc ?_⟩
  have hlist := congrArg String.toList (Failure.invalidImage.inj heq)
  have hlast := congrArg List.getLast? hlist
  rw [String.toList_append, List.getLast?_append, h] at hlast
  exact Option.some.inj hlast

theorem inBounds_chain (rest : String) :
    InBounds (.invalidImage ("the cluster chain of " ++ rest)) := by
  refine ⟨nofun, fun heq => ?_⟩
  have hlist := congrArg String.toList (Failure.invalidImage.inj heq)
  have hfirst := congrArg (·[4]?) hlist
  rw [String.toList_append, List.getElem?_append_left (by decide)] at hfirst
  exact absurd hfirst (by decide)

/-! ## The log of a walk -/

section
variable {volume : FatVolume}

/-- A log of the fixed root directory, if it is read, and of different clusters. -/
structure ReadOnce (volume : FatVolume) (root : Bool) (clusters : List ℕ)
    (log : List (ℕ × ℕ)) : Prop where
  fixed : root = true → volume.geometry.fat32 = false
  valid : Clusters volume clusters
  log_eq : log = (if root then [volume.rootRange] else []) ++ clusters.map volume.clusterRange

variable {root : Bool} {clusters chain : List ℕ} {log : List (ℕ × ℕ)}

theorem Clusters.take (h : Clusters volume chain) (n : ℕ) : Clusters volume (chain.take n) :=
  ⟨h.nodup.sublist (List.take_sublist n chain),
    fun cluster hcluster => h.range cluster (List.mem_of_mem_take hcluster)⟩

theorem ReadOnce.append (h : ReadOnce volume root clusters log) (hchain : Clusters volume chain)
    (hdisjoint : ∀ cluster ∈ chain, cluster ∉ clusters) :
    ReadOnce volume root (clusters ++ chain) (log ++ chain.map volume.clusterRange) := by
  refine ⟨h.fixed, h.valid.append hchain hdisjoint, ?_⟩
  rw [h.log_eq, List.map_append, List.append_assoc]

/-- The regions of the log fit in the partition. -/
theorem ReadOnce.total_le (hlayout : Layout volume) (h : ReadOnce volume root clusters log) :
    (total log : ℤ) ≤ volume.partition.size := by
  have hroot : total (if root then [volume.rootRange] else []) ≤ volume.geometry.rootSize := by
    split_ifs
    · simp [total, FatVolume.rootRange]
    · simp [total]
  have hclusters := Nat.mul_le_mul_right volume.geometry.clusterSize h.valid.length_le
  have hfits := hlayout.fits
  rw [h.log_eq, total_append, volume.total_clusters]
  omega

theorem clusterRange_inj (hlayout : Layout volume) {c c' : ℕ} (hc : 2 ≤ c) (hc' : 2 ≤ c')
    (h : volume.clusterRange c = volume.clusterRange c') : c = c' := by
  have hoffset := Nat.add_left_cancel (Prod.mk.inj h).1
  have := Nat.eq_of_mul_eq_mul_right hlayout.clusterSize_pos hoffset
  omega

/-- Nothing is read twice. -/
theorem ReadOnce.nodup (hlayout : Layout volume) (h : ReadOnce volume root clusters log) :
    log.Nodup := by
  have hclusters : (clusters.map volume.clusterRange).Nodup :=
    h.valid.nodup.map_on fun c hc c' hc' heq =>
      clusterRange_inj hlayout (h.valid.range c hc).1 (h.valid.range c' hc').1 heq
  rw [h.log_eq]
  split_ifs
  · -- the root directory ends before the first cluster
    refine List.nodup_cons.2 ⟨fun hmem => ?_, hclusters⟩
    obtain ⟨c, -, heq⟩ := List.mem_map.1 hmem
    obtain ⟨hoffset, hsize⟩ := Prod.mk.inj heq
    have hbefore := hlayout.root_before
    have hpos := hlayout.clusterSize_pos
    omega
  · exact hclusters

/-- The state of a walk that has read `log`: the budget is what the partition leaves. -/
structure Walked (volume : FatVolume) (root : Bool) (limits : WalkLimits)
    (log : List (ℕ × ℕ)) : Prop where
  once : ReadOnce volume root limits.claimed log
  remaining : limits.remaining = volume.partition.size - total log

theorem walked_start : Walked volume false ⟨[], volume.partition.size⟩ [] :=
  ⟨⟨nofun, Clusters.nil, rfl⟩, by simp [total]⟩

/-- An error within the bounds, at a log that reads nothing twice. -/
def Stopped (volume : FatVolume) (e : Failure) (log : List (ℕ × ℕ)) : Prop :=
  InBounds e ∧ ∃ root clusters, ReadOnce volume root clusters log

/-- The budget allows what the layout does. -/
theorem claim_yields {limits : WalkLimits} {size : ℕ} {what : String}
    (hlayout : Layout volume) (h : Walked volume root limits log)
    {root' : Bool} {ranges : List (ℕ × ℕ)} (hsize : total ranges = size)
    (hnext : (∀ cluster ∈ chain, cluster ∉ limits.claimed) →
      ReadOnce volume root' (limits.claimed ++ chain) (log ++ ranges)) :
    Yields InBounds (limits.claim chain size what) fun limits' =>
      limits'.claimed = limits.claimed ++ chain ∧ (∀ cluster ∈ chain, cluster ∉ limits.claimed) ∧
        Walked volume root' limits' (log ++ ranges) := by
  unfold WalkLimits.claim
  refine yields_bind (yields_raiseIf fun _ => inBounds_of_getLast rfl (by decide))
    fun _ hshared => ?_
  have hdisjoint : ∀ cluster ∈ chain, cluster ∉ limits.claimed := by
    intro cluster hcluster hmem
    rw [not_not, List.filter_eq_nil_iff] at hshared
    exact hshared cluster hcluster (decide_eq_true hmem)
  have hremaining := h.remaining
  have htotal := (hnext hdisjoint).total_le hlayout
  rw [total_append, hsize] at htotal
  refine yields_bind (yields_raiseIf fun hneg => ?_) fun _ _ => ?_
  · push_cast at htotal
    omega
  · refine ⟨rfl, hdisjoint, hnext hdisjoint, ?_⟩
    rw [total_append, hsize]
    push_cast
    omega

/-! ## Directories -/

variable {data : Bytes} {C : CaseMapping}

theorem read_leaves {offset size : ℕ} {what : String}
    (hlog : ∃ root clusters, ReadOnce volume root clusters log) :
    Leaves data (Stopped volume) log (read offset size what)
      fun _ log' => log' = log ++ [(offset, size)] := by
  unfold Leaves
  rw [read_run]
  split_ifs with h
  · rfl
  · rw [List.append_nil]
    exact ⟨inBounds_of_getLast rfl (by decide), hlog⟩

theorem readChain_leaves {what : String} : ∀ {chain : List ℕ} {log : List (ℕ × ℕ)},
    (∀ n, ∃ root clusters,
      ReadOnce volume root clusters (log ++ (chain.take n).map volume.clusterRange)) →
    Leaves data (Stopped volume) log (volume.readChain what chain)
      fun _ log' => log' = log ++ chain.map volume.clusterRange
  | [], log, _ => leaves_pure (by simp)
  | cluster :: rest, log, hlog => by
    unfold FatVolume.readChain
    have hstart : ∃ root clusters, ReadOnce volume root clusters log := by simpa using hlog 0
    refine leaves_bind (read_leaves hstart) fun bytes log' hlog' => ?_
    subst hlog'
    refine leaves_bind (readChain_leaves fun n => ?_) fun more log' hlog' => ?_
    · have := hlog (n + 1)
      rwa [List.take_succ_cons, List.map_cons, List.append_cons] at this
    · subst hlog'
      refine leaves_pure ?_
      rw [List.append_assoc]
      rfl

theorem chainedDirectory_leaves {esp : Partition} (hsound : Sound esp volume)
    (hlayout : Layout volume) {limits : WalkLimits} (h : Walked volume root limits log)
    {cluster : ℕ} {what : String} :
    Leaves data (Stopped volume) log (volume.chainedDirectory C cluster what (some limits))
      fun result log' => ∃ limits', result.2 = some limits' ∧ Walked volume root limits' log' ∧
        limits.claimed.length < limits'.claimed.length := by
  unfold FatVolume.chainedDirectory
  have hstopped : ∀ {e : Failure}, InBounds e → Stopped volume e log :=
    fun he => ⟨he, _, _, h.once⟩
  refine leaves_ofExcept_bind (chain_yields hsound fun rest => hstopped (inBounds_chain rest))
    fun chain hchain => ?_
  refine leaves_failIf_bind (fun _ => hstopped (inBounds_of_getLast rfl (by decide))) fun _ => ?_
  have hclaim : Yields (Stopped volume · log) (claimIf (some limits) chain
      (chain.length * volume.geometry.clusterSize) what) fun limits' => ∃ l, limits' = some l ∧
        l.claimed = limits.claimed ++ chain ∧ (∀ cluster ∈ chain, cluster ∉ limits.claimed) ∧
        Walked volume root l (log ++ chain.map volume.clusterRange) := by
    refine yields_bind (yields_weaken (claim_yields hlayout h (volume.total_clusters chain)
      fun hdisjoint => h.once.append hchain.1 hdisjoint) fun e he => hstopped he) fun l hl => ?_
    exact ⟨l, rfl, hl⟩
  refine leaves_ofExcept_bind hclaim fun limits' hlimits => ?_
  obtain ⟨l, rfl, hclaimed, hdisjoint, hwalked⟩ := hlimits
  -- a read that fails leaves the clusters before it
  refine leaves_bind (readChain_leaves fun n => ?_) fun bytes log' hlog' => ?_
  · refine ⟨root, _, h.once.append (hchain.1.take n) fun cluster hcluster => ?_⟩
    exact hdisjoint cluster (List.mem_of_mem_take hcluster)
  subst hlog'
  refine leaves_ofExcept_bind (entries_yields bytes) fun found _ => ?_
  refine leaves_pure ⟨l, rfl, hwalked, ?_⟩
  rw [hclaimed, List.length_append]
  exact Nat.lt_add_of_pos_right (List.length_pos_iff.2 hchain.2)

/-- The first directory of a walk, if it is the fixed root directory. -/
theorem fixedRoot_leaves (hlayout : Layout volume) (hfixed : volume.geometry.fat32 = false)
    {what : String} :
    Leaves data (Stopped volume) []
      (volume.fixedRoot C what (some ⟨[], volume.partition.size⟩))
      fun result log' => ∃ limits', result.2 = some limits' ∧ Walked volume true limits' log' := by
  unfold FatVolume.fixedRoot
  have hstart : Walked volume false ⟨[], volume.partition.size⟩ [] := walked_start
  have hroot : ReadOnce volume true [] ([] ++ [volume.rootRange]) :=
    ⟨fun _ => hfixed, Clusters.nil, rfl⟩
  have hstopped : ∀ {e : Failure}, InBounds e → Stopped volume e [] :=
    fun he => ⟨he, _, _, hstart.once⟩
  have hclaim : Yields (Stopped volume · []) (claimIf (some ⟨[], volume.partition.size⟩) []
      volume.geometry.rootSize what) fun limits' => ∃ l, limits' = some l ∧
        Walked volume true l [volume.rootRange] := by
    have hsize : total [volume.rootRange] = volume.geometry.rootSize := Nat.add_zero _
    refine yields_bind (yields_weaken (claim_yields hlayout hstart hsize fun _ => hroot)
      fun e he => hstopped he) fun l hl => ?_
    exact ⟨l, rfl, hl.2.2⟩
  refine leaves_ofExcept_bind hclaim fun limits' hlimits => ?_
  obtain ⟨l, rfl, hwalked⟩ := hlimits
  refine leaves_bind (read_leaves ⟨_, _, hstart.once⟩) fun bytes log' hlog' => ?_
  subst hlog'
  refine leaves_ofExcept_bind (entries_yields bytes) fun found _ => ?_
  exact leaves_pure ⟨l, rfl, hwalked⟩

/-! ## The walk -/

/-- Every round after the first claims another cluster. -/
theorem walkLoop_leaves {esp : Partition} (hsound : Sound esp volume) (hlayout : Layout volume) :
    ∀ {fuel : ℕ} {limits : WalkLimits} {log : List (ℕ × ℕ)} {pending : List (Str × Option ℕ)}
      {files : List EspFile}, Walked volume root limits log →
      (∀ item ∈ pending, item.2.isSome) →
      volume.geometry.clusters < fuel + limits.claimed.length →
      Leaves data (Stopped volume) log (volume.walkLoop C fuel (some limits) pending files)
        fun _ log' => ∃ root clusters, ReadOnce volume root clusters log'
  | fuel, limits, log, [], files, h, _, _ => by
    unfold FatVolume.walkLoop
    exact leaves_pure ⟨_, _, h.once⟩
  | 0, limits, log, item :: pending, files, h, _, hfuel => by
    have := h.once.valid.length_le
    omega
  | fuel + 1, limits, log, (path, none) :: pending, files, _, hpending, _ => by
    have := hpending _ List.mem_cons_self
    cases this
  | fuel + 1, limits, log, (path, some cluster) :: pending, files, h, hpending, hfuel => by
    unfold FatVolume.walkLoop
    refine leaves_bind (chainedDirectory_leaves hsound hlayout h) fun result log' hresult => ?_
    obtain ⟨found, limits'⟩ := result
    obtain ⟨l, rfl, hwalked, hlength⟩ := hresult
    refine walkLoop_leaves hsound hlayout hwalked (fun item hitem => ?_) (by omega)
    rcases List.mem_append.1 hitem with hitem | hitem
    · exact subdirectories_some path found item hitem
    · exact hpending item (List.mem_cons_of_mem _ hitem)

theorem rootDirectory_leaves {esp : Partition} (hsound : Sound esp volume)
    (hlayout : Layout volume) {what : String} :
    Leaves data (Stopped volume) []
      (volume.directory C none what (some ⟨[], volume.partition.size⟩)) fun result log' =>
        ∃ root limits', result.2 = some limits' ∧ Walked volume root limits' log' := by
  unfold FatVolume.directory
  split_ifs with hfat32
  · refine leaves_mono (chainedDirectory_leaves hsound hlayout walked_start) fun result log' h => ?_
    obtain ⟨limits', hlimits, hwalked, -⟩ := h
    exact ⟨false, limits', hlimits, hwalked⟩
  · refine leaves_mono (fixedRoot_leaves hlayout (Bool.eq_false_iff.2 hfat32)) fun result log' h => ?_
    exact ⟨true, h⟩

theorem walk_leaves {esp : Partition} (hsound : Sound esp volume) (hlayout : Layout volume) :
    Leaves data (Stopped volume) [] (volume.walk C)
      fun _ log' => ∃ root clusters, ReadOnce volume root clusters log' := by
  unfold FatVolume.walk FatVolume.walkLoop
  refine leaves_bind (rootDirectory_leaves hsound hlayout) fun result log' hresult => ?_
  obtain ⟨found, limits⟩ := result
  obtain ⟨root, l, rfl, hwalked⟩ := hresult
  refine walkLoop_leaves hsound hlayout hwalked (fun item hitem => ?_) (by omega)
  rw [List.append_nil] at hitem
  exact subdirectories_some _ _ item hitem

end

/-- What a bounded walk of a volume does. -/
structure BoundedWalk (volume : FatVolume) (run : Except Failure (List EspFile) × List (ℕ × ℕ)) :
    Prop where
  /-- its loops end -/
  ends : run.1 ≠ .error .unfinished
  /-- its budget is not used up -/
  budget : run.1 ≠ .error budgetError
  /-- it reads the fixed root directory and data clusters -/
  reads : ∀ range ∈ run.2, volume.geometry.fat32 = false ∧ range = volume.rootRange ∨
    ∃ cluster, 2 ≤ cluster ∧ cluster ≤ volume.lastCluster ∧ range = volume.clusterRange cluster
  /-- none of them twice, whatever directory they belong to -/
  once : run.2.Nodup
  /-- and together they fit in the partition -/
  fits : (total run.2 : ℤ) ≤ volume.partition.size

theorem ReadOnce.reads {volume : FatVolume} {root : Bool} {clusters : List ℕ}
    {log : List (ℕ × ℕ)} (h : ReadOnce volume root clusters log) :
    ∀ range ∈ log, volume.geometry.fat32 = false ∧ range = volume.rootRange ∨
      ∃ cluster, 2 ≤ cluster ∧ cluster ≤ volume.lastCluster ∧
        range = volume.clusterRange cluster := by
  intro range hrange
  rw [h.log_eq] at hrange
  rcases List.mem_append.1 hrange with hrange | hrange
  · split_ifs at hrange with hroot
    · exact .inl ⟨h.fixed hroot, List.mem_singleton.1 hrange⟩
    · exact absurd hrange List.not_mem_nil
  · obtain ⟨cluster, hcluster, rfl⟩ := List.mem_map.1 hrange
    obtain ⟨hlow, hhigh⟩ := h.valid.range cluster hcluster
    exact .inr ⟨cluster, hlow, hhigh, rfl⟩

/-- **A walk is bounded** on every volume that the constructor accepts, whatever its FAT and its
    directories hold. -/
theorem walk_bounded (C : CaseMapping) {partition : Partition} {data : Bytes} {volume : FatVolume}
    (hvolume : (FatVolume.init partition data).1 = .ok volume) (fat : Bytes)
    (hfat : fat.length = volume.fat.length) (image : Bytes) :
    BoundedWalk { volume with fat := fat } ({ volume with fat := fat }.walk C image) := by
  obtain ⟨b, -, haccepted⟩ := init_accepted hvolume
  have haccepted' : Accepted partition b { volume with fat := fat } :=
    ⟨haccepted.valid, haccepted.total_le, haccepted.clusters_ne, haccepted.partition_eq,
      haccepted.geometry_eq, haccepted.fat_fits, hfat.trans haccepted.fat_length⟩
  have hlayout := haccepted'.toLayout
  have hwalk : Leaves image (Stopped _) [] ({ volume with fat := fat }.walk C) _ :=
    walk_leaves haccepted'.toSound hlayout
  unfold Leaves at hwalk
  rw [List.nil_append] at hwalk
  generalize { volume with fat := fat }.walk C image = run at hwalk ⊢
  have honce : ∃ root clusters, ReadOnce { volume with fat := fat } root clusters run.2 := by
    rcases run with ⟨e | files, log⟩
    · exact hwalk.2
    · exact hwalk
  obtain ⟨root, clusters, honce⟩ := honce
  have hbounds : ∀ e, run.1 = .error e → InBounds e := by
    rintro e he
    rw [he] at hwalk
    exact hwalk.1
  exact ⟨fun h => (hbounds _ h).1 rfl, fun h => (hbounds _ h).2 rfl, honce.reads,
    honce.nodup hlayout, honce.total_le hlayout⟩

theorem walk_bounded_example : (treeVolume.walk asciiCase treeDisk).1 =
      .ok [⟨"EFI/A.TXT".toList, 5⟩] ∧
    (treeVolume.walk asciiCase treeDisk).2 = [(1024, 512), (1536, 512)] ∧
    BoundedWalk treeVolume (treeVolume.walk asciiCase treeDisk) :=
  ⟨by decide +kernel, by decide +kernel,
    walk_bounded asciiCase init_treeDisk treeVolume.fat rfl treeDisk⟩

end RulesMkosi.EspManifest
