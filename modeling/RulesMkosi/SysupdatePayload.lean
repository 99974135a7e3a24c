/-
  Update payloads are lossless.

  `project` accepts images whose bytes after the data and after the hash tree are
  zero.  The payload leaves those bytes out: its files hold the rest, and zeros up to
  the partition sizes give the images back.
-/
import RulesMkosi.Sysupdate
import RulesMkosi.VerityTree

/-! ## The covered parts of accepted images -/

namespace RulesMkosi.VerityMetadata

/-- A verified tree lies inside the hash image. -/
theorem verifyTree_inside {P : Platform} {g : Geometry} {value rootImage hashImage top : Bytes}
    {treeOffset treeSize : ℕ} {counts : List ℕ} (hsuper : IsSuperblock P value g)
    (hroot : g.dataBlocks * g.dataBlockSize ≤ rootImage.length)
    (hoffset : treeOffset ≤ hashImage.length)
    (h : verifyTree g rootImage hashImage treeOffset = .ok (counts, top, treeSize)) :
    treeOffset + treeSize ≤ hashImage.length := by
  have hspools : (g.dataBlocks + if 1 < g.dataBlocks then
      Merkle.blockCount g.perBlock g.dataBlocks else 0) * g.digest.size ≤ maxSpoolBytes := by
    simp only [verifyTree, bind_eq_ok, exists_unit, checkSpoolBudget, raiseIf_eq_ok, not_lt,
      levelCounts_eq_ok hsuper.fits.pos hsuper.data_blocks_bounds.2] at h
    obtain ⟨counts', hcounts, hbudget, -⟩ := h
    rw [spoolBytes, ← Nat.add_mul] at hbudget
    cases hcounts with
    | done few => rwa [if_neg (not_lt.2 few)]
    | more several _ => rwa [if_pos several]
  have hsize := size_pos_of_verifyTree hsuper.data_blocks_bounds.1 h
  obtain ⟨hcounts, rfl, htree⟩ := (verifyTree_eq_ok hsuper hsize hroot hspools).1 h
  have hlength := (length_tree hsuper.fits htree ((length_leaves g rootImage).symm ▸ hcounts)
    (digests_leaves g rootImage)).1
  rw [slice, List.length_take, List.length_drop] at hlength
  omega

/-- The sizes that the metadata give, and the zeros after them. -/
theorem project_extents {P : Platform} {rootHashFile : Bytes} {partitions : List PartitionRecord}
    {rootImage hashImage : Bytes} {metadata : Metadata}
    (h : project P rootHashFile partitions rootImage hashImage = .ok metadata) :
    ∃ rootPartition hashPartition,
      ofType partitions rootX86_64 = [rootPartition] ∧
      ofType partitions rootX86_64Verity = [hashPartition] ∧
      rootImage.length = rootPartition.sizeBytes ∧ hashImage.length = hashPartition.sizeBytes ∧
      metadata.dataBlocks * metadata.dataBlockSize ≤ rootImage.length ∧
      AllZero (rootImage.drop (metadata.dataBlocks * metadata.dataBlockSize)) ∧
      metadata.treeOffset + metadata.treeSize ≤ hashImage.length ∧
      AllZero (hashImage.drop (metadata.treeOffset + metadata.treeSize)) := by
  obtain ⟨rootPartition, hashPartition, g, text, counts, top, treeSize, -, hpartitions, hsizes,
    hsuper, hroot, hpadding, htree, htrailer, rfl⟩ := project_eq_ok.1 h
  have hoffset : g.hashBlockSize ≤ hashImage.length := by
    have := hpadding.1
    rw [List.length_take] at this
    omega
  exact ⟨rootPartition, hashPartition, hpartitions.1, hpartitions.2.1, hsizes.2.1, hsizes.2.2,
    hroot.1, hroot.2, verifyTree_inside hsuper hroot.1 hoffset htree, htrailer⟩

end RulesMkosi.VerityMetadata

namespace RulesMkosi.Sysupdate

/-- `data` followed by zeros up to `size`. -/
def zeroExtend (data : Bytes) (size : ℕ) : Bytes := data ++ zeros (size - data.length)

theorem zeroExtend_take {image : Bytes} {n : ℕ} (hn : n ≤ image.length)
    (hzero : AllZero (image.drop n)) : zeroExtend (image.take n) image.length = image := by
  have hdrop := eq_zeros_of_allZero hzero
  rw [List.length_drop] at hdrop
  rw [zeroExtend, List.length_take, Nat.min_eq_left hn, ← hdrop, List.take_append_drop]

/-! ## Chunks and writers -/

theorem chunksLoop_spec : ∀ {rounds remaining : ℕ} (source : Bytes), remaining ≤ rounds →
    (chunksLoop rounds source remaining).1.flatten = source.take remaining ∧
      (chunksLoop rounds source remaining).2 = remaining - source.length ∧
      ∀ chunk ∈ (chunksLoop rounds source remaining).1, chunk.length ≤ chunkBytes
  | 0, remaining, source, h => by
    obtain rfl : remaining = 0 := by omega
    simp [chunksLoop]
  | rounds + 1, remaining, source, h => by
    simp only [chunksLoop]
    have hlen : (source.take (min chunkBytes remaining)).length ≤ min chunkBytes remaining :=
      List.length_take_le _ _
    have hchunk : source.take (min chunkBytes remaining) =
        source.take (source.take (min chunkBytes remaining)).length := by
      rw [List.length_take, List.take_eq_take_iff]
      omega
    split_ifs with hstop
    · simp only [List.flatten_nil, List.not_mem_nil, IsEmpty.forall_iff, implies_true, and_true]
      rcases hstop with rfl | hstop
      · simp
      · have hmin : min (min chunkBytes remaining) source.length = 0 := by
          rw [← List.length_take, hstop, List.length_nil]
        have hpos : 0 < chunkBytes := by decide
        by_cases hzero : remaining = 0
        · simp [hzero]
        · have hsource : source = [] := List.length_eq_zero_iff.1 (by omega)
          simp [hsource]
    · rw [not_or] at hstop
      have hpos : 0 < (source.take (min chunkBytes remaining)).length :=
        List.length_pos_iff.2 hstop.2
      obtain ⟨hflat, hmissing, hsmall⟩ := chunksLoop_spec
        (source.drop (source.take (min chunkBytes remaining)).length)
        (show remaining - (source.take (min chunkBytes remaining)).length ≤ rounds by omega)
      refine ⟨?_, ?_, ?_⟩
      · rw [List.flatten_cons, hflat]
        generalize (source.take (min chunkBytes remaining)).length = n at hchunk hlen
        rw [hchunk, ← List.take_add]
        congr 1
        omega
      · rw [hmissing, List.length_drop]
        have : (source.take (min chunkBytes remaining)).length ≤ source.length := by
          rw [List.length_take]; omega
        omega
      · intro chunk hmem
        rcases List.mem_cons.1 hmem with rfl | hmem
        · omega
        · exact hsmall chunk hmem

theorem chunks_spec (source : File) (size : Option ℕ) :
    (chunks source size).1.flatten = source.content.take (size.getD source.content.length) ∧
      ((chunks source size).2 = 0 ↔ size.getD source.content.length ≤ source.content.length) ∧
      ∀ chunk ∈ (chunks source size).1, chunk.length ≤ chunkBytes := by
  obtain ⟨hflat, hmissing, hsmall⟩ := chunksLoop_spec source.content
    (le_refl (size.getD source.content.length))
  refine ⟨hflat, ?_, hsmall⟩
  rw [chunks, hmissing]
  omega

theorem writeChunk_written {f : Sink} {data chunk : Bytes} (h : f.Written data)
    (hsmall : chunk.length ≤ chunkBytes) : (writeChunk f chunk).Written (data ++ chunk) := by
  unfold writeChunk
  split_ifs with hzero
  · have hchunk : chunk = zeros chunk.length := by
      rw [zeros, List.take_replicate, Nat.min_eq_left hsmall] at hzero
      exact hzero
    nth_rewrite 2 [hchunk]
    exact h.seek chunk.length
  · exact h.write chunk

theorem foldl_writeChunk : ∀ {chunks : List Bytes} {f : Sink} {data : Bytes}, f.Written data →
    (∀ chunk ∈ chunks, chunk.length ≤ chunkBytes) →
      (chunks.foldl writeChunk f).Written (data ++ chunks.flatten)
  | [], f, data, h, _ => by simpa using h
  | chunk :: rest, f, data, h, hsmall => by
    have hchunk := writeChunk_written h (hsmall chunk List.mem_cons_self)
    have hrest := foldl_writeChunk hchunk fun c hc => hsmall c (List.mem_cons_of_mem _ hc)
    rw [List.flatten_cons, ← List.append_assoc]
    exact hrest

/-- What a file of the payload stands for. -/
def stored (decompress : Bytes → Option Bytes) : Compression → Bytes → Option Bytes
  | .none, file => some file
  | .xz, file => decompress file

section
variable {P : Platform}

/-- **A writer leaves what it yields.** -/
theorem write_content (compression : Compression) {chunks : List Bytes}
    (hsmall : ∀ chunk ∈ chunks, chunk.length ≤ chunkBytes) :
    (write P compression chunks Sink.new).1.content =
      (write P compression chunks Sink.new).2.flatten := by
  cases compression with
  | none => exact (foldl_writeChunk Sink.written_new hsmall).truncate
  | xz =>
    exact congrArg Sink.content (Sink.foldl_write_end (P.xz.outputs P.xz.new chunks) [])

/-- A writer stores its chunks, compressed or not. -/
theorem write_stored {decompress : Bytes → Option Bytes} (hxz : P.xz.Lossless decompress)
    (compression : Compression) {chunks : List Bytes}
    (hsmall : ∀ chunk ∈ chunks, chunk.length ≤ chunkBytes) :
    stored decompress compression (write P compression chunks Sink.new).1.content =
      some chunks.flatten := by
  rw [write_content compression hsmall]
  cases compression with
  | none => rfl
  | xz => exact hxz chunks

/-! ## Copies -/

variable (P) in
/-- The file that an item becomes. -/
def Item.content (item : Item) : Bytes :=
  (write P item.compression (chunks item.source item.size).1 Sink.new).1.content

variable (P) in
def Item.digest (item : Item) : Str := hex (P.sha256 (item.content P))

/-- The source has the bytes that the item covers. -/
def Item.Fits (item : Item) : Prop :=
  item.size.getD item.source.content.length ≤ item.source.content.length

theorem Item.stored_content {decompress : Bytes → Option Bytes} (hxz : P.xz.Lossless decompress)
    (item : Item) : stored decompress item.compression (item.content P) =
      some (item.source.content.take (item.size.getD item.source.content.length)) := by
  obtain ⟨hflat, -, hsmall⟩ := chunks_spec item.source item.size
  rw [Item.content, write_stored hxz _ hsmall, hflat]

theorem checkNew_eq_ok {files : Dict Str Bytes} {name : Str} :
    checkNew P files name = .ok () ↔ files.get name = none ∧ P.creatable name = true := by
  simp only [checkNew, bind_eq_ok, exists_unit, raiseIf_eq_ok, Option.not_isSome_iff_eq_none,
    Bool.not_eq_false]

theorem copy_eq_ok {files files' : Dict Str Bytes} {item : Item} {digest : Str} :
    copy P files item = .ok (files', digest) ↔
      (files.get item.name = none ∧ P.creatable item.name = true) ∧ item.Fits ∧
        files' = files.set item.name (item.content P) ∧ digest = item.digest P := by
  obtain ⟨-, hmissing, hsmall⟩ := chunks_spec item.source item.size
  simp only [copy, bind_eq_ok, exists_unit, raiseIf_eq_ok, pure_eq_ok, checkNew_eq_ok, ne_eq, not_not,
    Prod.mk.injEq, hmissing, ← write_content item.compression hsmall]
  rw [Item.digest, Item.content, Item.Fits, @eq_comm _ files', @eq_comm _ digest]

theorem copyItems_eq_ok : ∀ {items : List Item} {files files' : Dict Str Bytes}
    {digests digests' : Dict Str Str},
    items.foldlM (copyItem P) (files, digests) = .ok (files', digests') ↔
      (∀ item ∈ items, files.get item.name = none ∧ P.creatable item.name = true ∧ item.Fits) ∧
        (items.map Item.name).Nodup ∧
        files' = items.foldl (fun d item => d.set item.name (item.content P)) files ∧
        digests' = items.foldl (fun d item => d.set item.name (item.digest P)) digests
  | [], files, files', digests, digests' => by
    rw [List.foldlM_nil, pure_eq_ok, Prod.mk.injEq, @eq_comm _ files, @eq_comm _ digests]
    exact ⟨fun h => ⟨fun _ hmem => absurd hmem List.not_mem_nil, .nil, h.1, h.2⟩, fun h => h.2.2⟩
  | item :: items, files, files', digests, digests' => by
    rw [List.foldlM_cons]
    simp only [copyItem, bind_eq_ok, pure_eq_ok, Prod.exists, copy_eq_ok]
    constructor
    · rintro ⟨files₁, digests₁, ⟨files₂, digest, ⟨hnew, hfits, rfl, rfl⟩, hstate⟩, h⟩
      obtain ⟨rfl, rfl⟩ := Prod.mk.inj hstate
      obtain ⟨hrest, hnodup, hfiles, hdigests⟩ := copyItems_eq_ok.1 h
      have hne : ∀ other ∈ items, item.name ≠ other.name := by
        intro other hother heq
        have := (hrest other hother).1
        rw [← heq, Dict.get_set_self] at this
        cases this
      refine ⟨?_, ?_, hfiles, hdigests⟩
      · intro other hother
        rcases List.mem_cons.1 hother with rfl | hother
        · exact ⟨hnew.1, hnew.2, hfits⟩
        · have := hrest other hother
          rwa [Dict.get_set_ne _ _ (hne other hother)] at this
      · refine List.nodup_cons.2 ⟨fun hmem => ?_, hnodup⟩
        obtain ⟨other, hother, heq⟩ := List.mem_map.1 hmem
        exact hne other hother heq.symm
    · rintro ⟨hall, hnodup, hfiles, hdigests⟩
      rw [List.map_cons, List.nodup_cons] at hnodup
      obtain ⟨hnew, hcreatable, hfits⟩ := hall item List.mem_cons_self
      refine ⟨_, _, ⟨_, _, ⟨⟨hnew, hcreatable⟩, hfits, rfl, rfl⟩, rfl⟩, ?_⟩
      refine copyItems_eq_ok.2 ⟨fun other hother => ?_, hnodup.2, hfiles, hdigests⟩
      have hne : item.name ≠ other.name := fun heq =>
        hnodup.1 (List.mem_map.2 ⟨other, hother, heq.symm⟩)
      rw [Dict.get_set_ne _ _ hne]
      exact hall other (List.mem_cons_of_mem _ hother)

/-! ## The list of digests -/

theorem sums_eq {digests : Dict Str Str} {f : Str → Str}
    (h : ∀ name ∈ digests.keys, digests.get name = some (f name)) :
    sums digests = encodeAscii
      (((digests.keys.insertionSort (· ≤ ·)).map fun name => sumsLine (f name) name).flatten) := by
  have hlines : (digests.keys.insertionSort (· ≤ ·)).mapM (lookupLine digests) =
      .ok ((digests.keys.insertionSort (· ≤ ·)).map fun name => sumsLine (f name) name) := by
    refine mapM_eq_map fun name hname => ?_
    rw [lookupLine, h name ((List.perm_insertionSort _ _).mem_iff.1 hname)]
  rw [sums, hlines, ok_bind]

theorem encodeAscii_eq_ok {text : Str} {data : Bytes} :
    encodeAscii text = .ok data ↔
      (∀ c ∈ text, c.toNat < 0x80) ∧ data = text.map fun c => UInt8.ofNat c.toNat := by
  simp only [encodeAscii, bind_eq_ok, exists_unit, raiseIf_eq_ok, pure_eq_ok, Bool.not_eq_true,
    List.any_eq_false, decide_eq_true_eq, not_le, @eq_comm _ data]

theorem hexDigit_ascii : ∀ {n : ℕ}, n < 16 → (hexDigit n).toNat < 0x80 := by decide

theorem hex_ascii {data : Bytes} {c : Char} (hc : c ∈ hex data) : c.toNat < 0x80 := by
  obtain ⟨b, -, hc⟩ := List.mem_flatMap.1 hc
  have hb := b.toNat_lt
  rcases List.mem_cons.1 hc with rfl | hc
  · exact hexDigit_ascii (by omega)
  · rw [List.mem_singleton.1 hc]
    exact hexDigit_ascii (by omega)

theorem sumsLine_ascii {data : Bytes} {name : Str} (hname : ∀ c ∈ name, c.toNat < 0x80) {c : Char}
    (hc : c ∈ sumsLine (hex data) name) : c.toNat < 0x80 := by
  simp only [sumsLine, List.mem_append] at hc
  rcases hc with ((hc | hc) | hc) | hc
  · exact hex_ascii hc
  · obtain rfl : c = ' ' := by simpa using hc
    decide
  · exact hname c hc
  · obtain rfl : c = '\n' := by simpa using hc
    decide

/-! ## The payload -/

/-- The names differ after the common image id and version. -/
theorem names_nodup (imageId version rootUuid verityUuid suffix : Str) :
    [rootName imageId version rootUuid ++ suffix, verityName imageId version verityUuid ++ suffix,
      ukiName imageId version].Nodup := by
  simp [rootName, verityName, ukiName]

theorem payloadItems_eq_ok {args : Args} {items : List Item} (h : payloadItems P args = .ok items) :
    ∃ version rootUuid verityUuid uki,
      items = [
        ⟨rootName args.imageId version rootUuid ++ args.compression.suffix, args.rootImage,
          some (args.verityMetadata.dataBlocks * args.verityMetadata.dataBlockSize),
          args.compression⟩,
        ⟨verityName args.imageId version verityUuid ++ args.compression.suffix, args.verityImage,
          some (args.verityMetadata.treeOffset + args.verityMetadata.treeSize), args.compression⟩,
        ⟨ukiName args.imageId version, uki, none, .none⟩] := by
  simp only [payloadItems, bind_eq_ok, exists_unit, pure_eq_ok, Prod.exists] at h
  obtain ⟨version, -, uki, -, rootHash, -, rootUuid, verityUuid, -, -, rfl⟩ := h
  exact ⟨version, rootUuid, verityUuid, uki, rfl⟩

/-- A payload's names differ from each other and from the list of digests. -/
theorem payloadItems_names {args : Args} {items : List Item} (h : payloadItems P args = .ok items) :
    (items.map Item.name).Nodup ∧ sumsName ∉ items.map Item.name := by
  obtain ⟨version, rootUuid, verityUuid, uki, rfl⟩ := payloadItems_eq_ok h
  refine ⟨names_nodup _ _ _ _ _, fun hmem => ?_⟩
  -- the names end in another character
  have hlast : some 'S' ∈ [rootName args.imageId version rootUuid ++ args.compression.suffix,
      verityName args.imageId version verityUuid ++ args.compression.suffix,
      ukiName args.imageId version].map List.getLast? := List.mem_map.2 ⟨sumsName, hmem, rfl⟩
  have hraw : ".raw".toList.getLast? = some 'w' := rfl
  have hxz : ".xz".toList.getLast? = some 'z' := rfl
  have hefi : ".efi".toList.getLast? = some 'i' := rfl
  revert hlast
  cases args.compression <;>
    simp only [Compression.suffix, rootName, verityName, ukiName, List.map_cons, List.map_nil,
      List.getLast?_append, List.append_nil, hraw, hxz, hefi, Option.some_or, List.mem_cons,
      Option.some.injEq, List.not_mem_nil, or_false] <;>
    decide

variable (P) in
/-- The text of `SHA256SUMS` for the files of a directory. -/
def sumsText (files : Dict Str Bytes) (names : List Str) : Str :=
  ((names.insertionSort (· ≤ ·)).map fun name =>
    sumsLine (hex (P.sha256 ((files.get name).getD []))) name).flatten

theorem sumsText_ascii {files : Dict Str Bytes} {names : List Str} :
    (∀ c ∈ sumsText P files names, c.toNat < 0x80) ↔ ∀ name ∈ names, ∀ c ∈ name, c.toNat < 0x80 := by
  simp only [sumsText, List.mem_flatten, List.mem_map, (List.perm_insertionSort _ _).mem_iff]
  constructor
  · intro h name hname c hc
    refine h c ⟨_, ⟨name, hname, rfl⟩, ?_⟩
    simp only [sumsLine, List.mem_append]
    exact .inl (.inr hc)
  · rintro h c ⟨-, ⟨name, hname, rfl⟩, hc⟩
    exact sumsLine_ascii (h name hname) hc

variable (P) in
/-- The directory with the files of the items. -/
def withItems (files : Dict Str Bytes) (items : List Item) : Dict Str Bytes :=
  items.foldl (fun d item => d.set item.name (item.content P)) files

theorem get_withItems {files : Dict Str Bytes} {items : List Item}
    (hnodup : (items.map Item.name).Nodup) {item : Item} (hitem : item ∈ items) :
    (withItems P files items).get item.name = some (item.content P) :=
  Dict.get_foldl_set_of_mem Item.name (Item.content P) hnodup hitem

theorem sums_items (files : Dict Str Bytes) {items : List Item}
    (hnodup : (items.map Item.name).Nodup) :
    sums (items.foldl (fun d item => d.set item.name (item.digest P)) []) =
      encodeAscii (sumsText P (withItems P files items) (items.map Item.name)) := by
  have hkeys : Dict.keys (items.foldl (fun d item => d.set item.name (item.digest P)) []) =
      items.map Item.name := Dict.keys_foldl_set Item.name (Item.digest P) hnodup
  have hget : ∀ name ∈ items.map Item.name,
      Dict.get (items.foldl (fun d item => d.set item.name (item.digest P)) []) name =
        some (hex (P.sha256 (((withItems P files items).get name).getD []))) := by
    intro name hname
    obtain ⟨item, hitem, rfl⟩ := List.mem_map.1 hname
    rw [Dict.get_foldl_set_of_mem Item.name (Item.digest P) hnodup hitem,
      get_withItems hnodup hitem]
    rfl
  rw [sums_eq (by rw [hkeys]; exact hget), hkeys]
  rfl

/-- When a run succeeds, and what it leaves in the directory. -/
theorem payload_eq_ok {args : Args} {files files' : Dict Str Bytes} :
    payload P args files = .ok files' ↔
      ∃ items, payloadItems P args = .ok items ∧
        (∀ item ∈ items, files.get item.name = none ∧ P.creatable item.name = true ∧ item.Fits) ∧
        (∀ name ∈ items.map Item.name, ∀ c ∈ name, c.toNat < 0x80) ∧
        P.creatable sumsName = true ∧
        files' = (withItems P files items).set sumsName
          ((sumsText P (withItems P files items) (items.map Item.name)).map
            fun c => UInt8.ofNat c.toNat) := by
  simp only [payload, bind_eq_ok, exists_unit, raiseIf_eq_ok, pure_eq_ok, Prod.exists,
    copyItems_eq_ok, Bool.not_eq_false]
  constructor
  · rintro ⟨items, hitems, files₁, digests, ⟨hall, hnodup, rfl, rfl⟩, text, htext, hsums, rfl⟩
    rw [sums_items files hnodup, encodeAscii_eq_ok, sumsText_ascii] at htext
    obtain ⟨hascii, rfl⟩ := htext
    exact ⟨items, hitems, hall, hascii, hsums, rfl⟩
  · rintro ⟨items, hitems, hall, hascii, hsums, rfl⟩
    have hnodup := (payloadItems_names hitems).1
    refine ⟨items, hitems, _, _, ⟨hall, hnodup, rfl, rfl⟩, _, ?_, hsums, rfl⟩
    rw [sums_items files hnodup, encodeAscii_eq_ok, sumsText_ascii]
    exact ⟨hascii, rfl⟩

/-- The list of digests does not change the other files. -/
theorem sumsText_set {files : Dict Str Bytes} {names : List Str} {text : Bytes}
    (h : sumsName ∉ names) : sumsText P (files.set sumsName text) names = sumsText P files names := by
  unfold sumsText
  congr 1
  refine List.map_congr_left fun name hname => ?_
  have hne : sumsName ≠ name := by
    rintro rfl
    exact h ((List.perm_insertionSort _ _).mem_iff.1 hname)
  rw [Dict.get_set_ne _ _ hne]

end

/-- The file `name` of the directory stands for `data`. -/
def Holds (decompress : Bytes → Option Bytes) (compression : Compression) (files : Dict Str Bytes)
    (name : Str) (data : Bytes) : Prop :=
  ∃ file, files.get name = some file ∧ stored decompress compression file = some data

/-- **Update payloads are lossless.**  For images and metadata that `project` accepts, the copies
    never run out of bytes: a run succeeds if the new files can be created under ASCII names.  Then
    the root and verity files stand for the first bytes of the images, zeros up to the partition
    sizes give the images back, and `SHA256SUMS` lists the digest of each file as it is stored. -/
theorem payload_lossless {P : Platform} {V : VerityMetadata.Platform}
    {decompress : Bytes → Option Bytes} (hxz : P.xz.Lossless decompress) (args : Args)
    {rootHashFile : Bytes} {partitions : List VerityMetadata.PartitionRecord}
    (hproject : VerityMetadata.project V rootHashFile partitions args.rootImage.content
      args.verityImage.content = .ok args.verityMetadata)
    {rootSize veritySize : ℕ}
    (hroot : rootSize = args.verityMetadata.dataBlocks * args.verityMetadata.dataBlockSize)
    (hverity : veritySize = args.verityMetadata.treeOffset + args.verityMetadata.treeSize) :
    (∃ rootPartition hashPartition,
      VerityMetadata.ofType partitions VerityMetadata.rootX86_64 = [rootPartition] ∧
      VerityMetadata.ofType partitions VerityMetadata.rootX86_64Verity = [hashPartition] ∧
      (args.rootImage.content.take rootSize).length = rootSize ∧
      (args.verityImage.content.take veritySize).length = veritySize ∧
      zeroExtend (args.rootImage.content.take rootSize) rootPartition.sizeBytes =
        args.rootImage.content ∧
      zeroExtend (args.verityImage.content.take veritySize) hashPartition.sizeBytes =
        args.verityImage.content) ∧
    ∀ files items, payloadItems P args = .ok items →
      ((∀ item ∈ items, files.get item.name = none ∧ P.creatable item.name = true ∧
          ∀ c ∈ item.name, c.toNat < 0x80) →
        P.creatable sumsName = true → ∃ files', payload P args files = .ok files') ∧
      ∀ files', payload P args files = .ok files' →
        ∃ root verity uki, items = [root, verity, uki] ∧
          Holds decompress args.compression files' root.name
            (args.rootImage.content.take rootSize) ∧
          Holds decompress args.compression files' verity.name
            (args.verityImage.content.take veritySize) ∧
          Holds decompress .none files' uki.name uki.source.content ∧
          files'.get sumsName = some ((sumsText P files' [root.name, verity.name, uki.name]).map
            fun c => UInt8.ofNat c.toNat) := by
  obtain ⟨rootPartition, hashPartition, hof, hof', hsize, hsize', hle, hzero, hle', hzero'⟩ :=
    VerityMetadata.project_extents hproject
  rw [← hroot] at hle hzero
  rw [← hverity] at hle' hzero'
  refine ⟨⟨rootPartition, hashPartition, hof, hof', ?_, ?_, ?_, ?_⟩, fun files items hitems => ⟨?_, ?_⟩⟩
  · rw [List.length_take, Nat.min_eq_left hle]
  · rw [List.length_take, Nat.min_eq_left hle']
  · rw [← hsize, zeroExtend_take hle hzero]
  · rw [← hsize', zeroExtend_take hle' hzero']
  · intro hnew hsums
    obtain ⟨version, rootUuid, verityUuid, uki, rfl⟩ := payloadItems_eq_ok hitems
    rw [← hroot, ← hverity] at hitems hnew
    have hfits : ∀ item ∈ [Item.mk (rootName args.imageId version rootUuid ++
        args.compression.suffix) args.rootImage (some rootSize) args.compression,
        Item.mk (verityName args.imageId version verityUuid ++ args.compression.suffix)
          args.verityImage (some veritySize) args.compression,
        Item.mk (ukiName args.imageId version) uki none .none], item.Fits := by
      simp only [List.forall_mem_cons, List.not_mem_nil, IsEmpty.forall_iff, implies_true, and_true]
      exact ⟨hle, hle', le_rfl⟩
    refine ⟨_, payload_eq_ok.2 ⟨_, hitems, fun item hitem => ?_, fun name hname => ?_, hsums, rfl⟩⟩
    · exact ⟨(hnew item hitem).1, (hnew item hitem).2.1, hfits item hitem⟩
    · obtain ⟨item, hitem, rfl⟩ := List.mem_map.1 hname
      exact (hnew item hitem).2.2
  · intro files' h
    obtain ⟨items', hitems', -, -, -, rfl⟩ := payload_eq_ok.1 h
    obtain rfl : items = items' := Except.ok.inj (hitems.symm.trans hitems')
    obtain ⟨hnodup, hsumsName⟩ := payloadItems_names hitems
    have hholds : ∀ item ∈ items, Holds decompress item.compression
        ((withItems P files items).set sumsName
          ((sumsText P (withItems P files items) (items.map Item.name)).map
            fun c => UInt8.ofNat c.toNat))
        item.name (item.source.content.take (item.size.getD item.source.content.length)) := by
      intro item hitem
      have hne : sumsName ≠ item.name := fun heq => hsumsName (heq ▸ List.mem_map.2 ⟨item, hitem, rfl⟩)
      exact ⟨item.content P, by rw [Dict.get_set_ne _ _ hne, get_withItems hnodup hitem],
        item.stored_content hxz⟩
    obtain ⟨version, rootUuid, verityUuid, uki, hlist⟩ := payloadItems_eq_ok hitems
    rw [← hroot, ← hverity] at hlist
    subst hlist
    simp only [List.forall_mem_cons, List.not_mem_nil, IsEmpty.forall_iff, implies_true, and_true]
      at hholds
    obtain ⟨hrootHolds, hverityHolds, hukiHolds⟩ := hholds
    refine ⟨_, _, _, rfl, hrootHolds, hverityHolds, ?_, ?_⟩
    · have hfull : uki.content.take uki.content.length = uki.content := List.take_length
      rw [← hfull]
      exact hukiHolds
    · rw [Dict.get_set_self]
      exact congrArg (fun text => some (text.map fun c => UInt8.ofNat c.toNat))
        (sumsText_set hsumsName).symm

/-! ## A payload -/

/-- A compressor that stores its input. -/
def storing : Compressor where
  State := Unit
  new := ()
  compress _ chunk := ((), chunk)
  flush _ := []

theorem storing_lossless : storing.Lossless some := by
  intro chunks
  have houtputs : ∀ state, storing.outputs state chunks = chunks ++ [[]] := by
    induction chunks with
    | nil => intro state; rfl
    | cons chunk rest ih => intro state; rw [Compressor.outputs, ih]; rfl
  rw [houtputs, List.flatten_append]
  simp

def examplePlatform : Platform where
  repr text := "'".toList ++ text ++ "'".toList
  decodeUtf8 data := some (data.map fun b => Char.ofNat b.toNat)
  sha256 data := leBytes 32 (leNat data)
  xz := storing
  creatable _ := true

def exampleUuid : Str := "00000000-0000-0000-0000-000000000000".toList

def exampleArgs (metadata : VerityMetadata.Metadata) : Args where
  imageId := "os".toList
  imageVersion := .version "1".toList
  rootHash := ⟨"root-hash".toList, List.replicate 64 0x30⟩
  partitions := [
    ⟨⟨"os_1".toList, 1, 5243392, 1048576, PartitionMetadata.rootX86_64⟩, some exampleUuid⟩,
    ⟨⟨"os_1_verity".toList, 2, 2560, 8388608, PartitionMetadata.rootX86_64Verity⟩, some exampleUuid⟩]
  rootImage := ⟨"root.raw".toList, VerityMetadata.exampleRoot⟩
  verityImage := ⟨"verity.raw".toList, VerityMetadata.exampleHashImage⟩
  verityMetadata := metadata
  uki := ⟨"uki.efi".toList, [1, 2, 3]⟩
  signedUki := none
  signingRequest := none
  compression := .none

theorem exampleArgs_items (metadata : VerityMetadata.Metadata) :
    payloadItems examplePlatform (exampleArgs metadata) = .ok [
      ⟨rootName "os".toList "1".toList exampleUuid, (exampleArgs metadata).rootImage,
        some (metadata.dataBlocks * metadata.dataBlockSize), .none⟩,
      ⟨verityName "os".toList "1".toList exampleUuid, (exampleArgs metadata).verityImage,
        some (metadata.treeOffset + metadata.treeSize), .none⟩,
      ⟨ukiName "os".toList "1".toList, (exampleArgs metadata).uki, none, .none⟩] := by
  have hhash : readRootHash ⟨"root-hash".toList, List.replicate 64 0x30⟩ =
      .ok (List.replicate 64 '0') := by
    decide
  have huuids : verityPartitionUuids (List.replicate 64 '0') = .ok (exampleUuid, exampleUuid) := by
    decide
  have hslots : checkSlotUuids examplePlatform [
      ⟨⟨"os_1".toList, 1, 5243392, 1048576, PartitionMetadata.rootX86_64⟩, some exampleUuid⟩,
      ⟨⟨"os_1_verity".toList, 2, 2560, 8388608, PartitionMetadata.rootX86_64Verity⟩,
        some exampleUuid⟩] "os_1".toList exampleUuid exampleUuid = .ok () := by
    decide
  rw [payloadItems, show imageVersion examplePlatform (exampleArgs metadata) = .ok "1".toList from rfl,
    ok_bind, show releaseUki examplePlatform (exampleArgs metadata) =
      .ok (exampleArgs metadata).uki from rfl, ok_bind,
    show readRootHash (exampleArgs metadata).rootHash = .ok (List.replicate 64 '0') from hhash,
    ok_bind, huuids, ok_bind]
  show (checkSlotUuids examplePlatform (exampleArgs metadata).partitions "os_1".toList exampleUuid
    exampleUuid >>= _) = _
  rw [show checkSlotUuids examplePlatform (exampleArgs metadata).partitions "os_1".toList exampleUuid
    exampleUuid = .ok () from hslots]
  rfl

theorem ascii_of_all {name : Str} (h : name.all (fun c => c.toNat < 0x80) = true) :
    ∀ c ∈ name, c.toNat < 0x80 :=
  fun c hc => by simpa using List.all_eq_true.1 h c hc

/-- The first and the last chunk of the data blocks are zero. -/
theorem zero_chunks_exampleRoot :
    VerityMetadata.exampleRoot.take chunkBytes = zeros chunkBytes ∧
      (VerityMetadata.exampleRoot.drop (4 * chunkBytes)).take chunkBytes = zeros chunkBytes := by
  have hlength : (zeros (1024 * 1024) ++
      (List.replicate 3 ((1 : UInt8) :: zeros (1024 * 1024 - 1))).flatten).length =
        4 * chunkBytes := by
    rw [List.length_append, length_zeros, List.length_flatten, List.map_replicate,
      List.sum_replicate_nat, List.length_cons, length_zeros]
    rfl
  constructor
  · rw [VerityMetadata.exampleRoot, List.append_assoc, List.append_assoc]
    exact List.take_left' (length_zeros _)
  · rw [VerityMetadata.exampleRoot, List.append_assoc _ (zeros (1024 * 1024)),
      List.drop_left' hlength]
    exact List.take_left' (length_zeros _)

/-- The example's payload is written, and its root file holds the five data blocks, the first and the
    last of which are holes. -/
theorem payload_lossless_example :
    ∃ metadata files',
      VerityMetadata.project VerityMetadata.examplePlatform VerityMetadata.exampleRootHash
        VerityMetadata.exampleVerityPartitions VerityMetadata.exampleRoot
        VerityMetadata.exampleHashImage = .ok metadata ∧
      payload examplePlatform (exampleArgs metadata) [] = .ok files' ∧
      Holds some .none files' (rootName "os".toList "1".toList exampleUuid)
        (VerityMetadata.exampleRoot.take (5 * chunkBytes)) ∧
      VerityMetadata.exampleRoot.take chunkBytes = zeros chunkBytes ∧
      (VerityMetadata.exampleRoot.drop (4 * chunkBytes)).take chunkBytes = zeros chunkBytes := by
  obtain ⟨metadata, hproject⟩ := VerityMetadata.project_example
  obtain ⟨_, _, g, _, _, _, _, -, -, -, hsuper, -, -, -, -, hmetadata⟩ :=
    VerityMetadata.project_eq_ok.1 hproject
  have hblocks : g.dataBlocks = 5 := by
    rw [hsuper.data_blocks]
    decide
  have hblock : g.dataBlockSize = chunkBytes := by
    rw [hsuper.data_block_size]
    decide
  have hsize : 5 * chunkBytes = metadata.dataBlocks * metadata.dataBlockSize := by
    rw [hmetadata, ← hblocks, ← hblock]
    rfl
  have hitems := exampleArgs_items metadata
  have hxz : examplePlatform.xz.Lossless some := storing_lossless
  obtain ⟨hruns, hholds⟩ :=
    (payload_lossless hxz (exampleArgs metadata) hproject hsize rfl).2 [] _ hitems
  obtain ⟨files', hfiles⟩ := hruns
    (by
      simp only [List.forall_mem_cons, List.not_mem_nil, IsEmpty.forall_iff, implies_true, and_true]
      exact ⟨⟨rfl, rfl, ascii_of_all (by decide)⟩, ⟨rfl, rfl, ascii_of_all (by decide)⟩,
        ⟨rfl, rfl, ascii_of_all (by decide)⟩⟩) rfl
  obtain ⟨root, verity, uki, hlist, hroot, -⟩ := hholds files' hfiles
  cases hlist
  exact ⟨metadata, files', hproject, hfiles, hroot, zero_chunks_exampleRoot⟩

end RulesMkosi.Sysupdate
