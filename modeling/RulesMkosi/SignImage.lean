/-
  The signed image (`sign_image` of `mkosi/private/secure_boot_image.py`).

  The ESP of the image is extracted to a scratch file, rewritten there with
  mtools, and copied over a copy of the image.  So the signed image is the image
  with the bytes of its ESP replaced (`signImage_frame`).

  The requests, the certificates and the enrollment keys are read, and mtools is
  run, outside this model: what they return is given by `Tools`.
-/
import RulesMkosi.EspExtent
import RulesMkosi.SecureBootImage

namespace RulesMkosi.SignImage

open SecureBootImage
open PartitionMetadata (ImageMetadata)
open EspFiles

abbrev Files := Dict String Bytes

/-- What `sign_image` reads from its arguments and gets from mtools. -/
structure Tools where
  /-- The ESP manifest. -/
  Manifest : Type
  /-- `_replacements(args.signed)` -/
  replacements : Files → Except Exn ReplacementTable
  /-- `mcopy -s` of every file of an ESP image -/
  copyTree : Bytes → Except Exn EspTree
  /-- `_changes`: the new ESP files, and the manifest -/
  changes : Files → EspTree → Dict String Replacement → List String →
    Except Exn (Dict String Bytes × Manifest)
  /-- the `mmd` and `mcopy -o` lines of `_apply`: the rewritten ESP image, and every file of it -/
  apply : Bytes → EspTree → Dict String Bytes → Except Exn (Bytes × EspTree)
  /-- `_dump_json(_metadata(manifest, changes))` -/
  record : Manifest → Dict String Bytes → Bytes

structure Args where
  image : String
  partitionMetadata : ImageMetadata
  scratch : String
  output : String
  metadata : String

/-- `shutil.rmtree(scratch, ignore_errors=True)` -/
def removeTree (files : Files) (scratch : String) : Files :=
  files.filter fun file => file.1 ≠ scratch ∧ ¬ isBelow file.1 scratch

/-- `open(path, "rb")` -/
def readFile (files : Files) (path : String) : Except Exn Bytes :=
  match files.get path with
  | some data => .ok data
  | none => .error (.osError ("No such file or directory: " ++ path))

/-- The existing path that a case-insensitive FAT lookup finds. -/
def find (P : Platform) (treePaths : List String) (espPath : String) : Option String :=
  treePaths.find? fun path => P.lower path.toList = P.lower espPath.toList

def verifyChange (P : Platform) (tree : EspTree) (change : String × Bytes) : Except Exn Unit :=
  raiseIf (((find P (tree.sorted.map Prod.fst) change.1).bind tree.files.get) ≠ some change.2)
    (.valueError ("the rewritten ESP does not hold " ++ change.1))

/-- Fails unless every changed ESP file now holds its source's bytes. -/
def verify (P : Platform) (tree : EspTree) (changes : Dict String Bytes) : Except Exn Unit :=
  changes.forM (verifyChange P tree)

def espImage (args : Args) : String := args.scratch ++ "/esp.img"

section
variable (P : Platform) (T : Tools) (args : Args)

/-- From the extracted ESP to the rewritten one, with the recorded metadata. -/
def rewriteEsp (files : Files) (table : ReplacementTable) (esp : Bytes) :
    Except Exn (Bytes × Bytes) := do
  let tree ← T.copyTree esp
  let (replacements, presigned) ← assign P tree table
  let (changes, manifest) ← T.changes files tree replacements presigned
  let (esp, written) ← T.apply esp tree changes
  verify P written changes
  return (esp, T.record manifest changes)

/-- `esp_files.copy_range` between files of the working directory -/
def copyFile (files : Files) (source destination : String) (size destinationOffset : ℕ)
    (sparse : Bool) : Except Exn Files := do
  let data ← readFile files source
  let copied ← copyRange source data 0 size destinationOffset sparse (files.get destination)
  return files.set destination copied

def signImage (files : Files) : Except Exn Files := do
  let files := removeTree files args.scratch
  let table ← T.replacements files
  let image ← readFile files args.image
  let (offset, esp) ← extractEsp args.image image args.partitionMetadata
  let (esp, metadata) ← rewriteEsp P T files table esp
  let files := Dict.erase (files.set (espImage args) esp) args.output
  let image ← readFile files args.image
  let files ← copyFile files args.image args.output image.length 0 true
  let files ← copyFile files (espImage args) args.output esp.length offset false
  let files := files.set args.metadata metadata
  return removeTree files args.scratch

end

/-! ## Files -/

theorem get_removeTree {files : Files} {scratch path : String} (hne : path ≠ scratch)
    (hbelow : isBelow path scratch = false) : (removeTree files scratch).get path = files.get path := by
  induction files with
  | nil => rfl
  | cons file files ih =>
    unfold removeTree at ih ⊢
    by_cases hpath : file.1 = path
    · subst hpath
      rw [List.filter_cons_of_pos (by simp [hne, hbelow])]
      simp [Dict.get]
    · by_cases hkeep : file.1 ≠ scratch ∧ ¬ isBelow file.1 scratch = true
      · rw [List.filter_cons_of_pos (by simpa using hkeep)]
        simp only [Dict.get, if_neg hpath]
        exact ih
      · rw [List.filter_cons_of_neg (by simpa using hkeep)]
        simp only [Dict.get, if_neg hpath]
        exact ih

/-- The scratch directory is gone. -/
theorem get_removeTree_below {files : Files} {scratch path : String}
    (h : path = scratch ∨ isBelow path scratch = true) : (removeTree files scratch).get path = none := by
  cases hget : (removeTree files scratch).get path with
  | none => rfl
  | some data =>
    have hmem := Dict.mem_of_get hget
    simp only [removeTree, List.mem_filter, decide_eq_true_eq] at hmem
    rcases h with h | h
    · exact absurd h hmem.2.1
    · exact absurd h hmem.2.2

theorem readFile_eq_ok {files : Files} {path : String} {data : Bytes} :
    readFile files path = .ok data ↔ files.get path = some data := by
  unfold readFile
  cases files.get path <;> simp

theorem isBelow_espImage (args : Args) : isBelow (espImage args) args.scratch = true :=
  isBelow_iff.2 ⟨"esp.img", by
    have hslash : "/esp.img" = "/" ++ "esp.img" := by decide
    rw [espImage, hslash, String.append_assoc]⟩

/-! ## The frame -/

/-- `output` is `image` with the range of `esp` at `offset` replaced. -/
structure Replaced (image esp output : Bytes) (offset : ℕ) : Prop where
  length : output.length = image.length
  range : slice output offset (offset + esp.length) = esp
  rest : ∀ i, i < offset ∨ offset + esp.length ≤ i → output[i]? = image[i]?

theorem getElem?_of_getD {data data' : Bytes} (hlen : data.length = data'.length) {i : ℕ}
    (h : data.getD i 0 = data'.getD i 0) : data[i]? = data'[i]? := by
  by_cases hi : i < data.length
  · rw [List.getD_eq_getElem?_getD, List.getD_eq_getElem?_getD, List.getElem?_eq_getElem hi,
      List.getElem?_eq_getElem (hlen ▸ hi)] at h
    rw [List.getElem?_eq_getElem hi, List.getElem?_eq_getElem (hlen ▸ hi)]
    exact congrArg some h
  · rw [List.getElem?_eq_none (by omega), List.getElem?_eq_none (by omega)]

/-- An exact copy over an existing file replaces its range. -/
theorem copyRange_replaced {name : String} {image esp output : Bytes} {offset : ℕ}
    (hinside : offset + esp.length ≤ image.length)
    (h : copyRange name esp 0 esp.length offset false (some image) = .ok output) :
    Replaced image esp output offset := by
  obtain ⟨-, hlen, hbytes⟩ := copyRange_eq_ok (fun hsparse => absurd hsparse (by decide)) h
  simp only [Option.getD_some] at hlen hbytes
  have hlen : output.length = image.length := by
    rw [hlen]
    omega
  refine ⟨hlen, ?_, fun i hi => getElem?_of_getD hlen ?_⟩
  · have hrange : (slice output offset (offset + esp.length)).length = esp.length := by
      rw [length_slice (by omega)]
      omega
    refine eq_of_getD hrange fun i hi => ?_
    rw [getD_slice hi, hbytes, if_pos (by omega)]
    congr 1
    omega
  · rw [hbytes, if_neg (by omega)]

/-- The outputs of the action are different files outside of its scratch directory. -/
structure Args.Separate (args : Args) : Prop where
  scratch : args.output ≠ args.scratch
  below : isBelow args.output args.scratch = false
  metadata : args.output ≠ args.metadata

theorem Args.Separate.espImage_ne {args : Args} (h : args.Separate) : espImage args ≠ args.output := by
  intro heq
  have hbelow := isBelow_espImage args
  rw [heq, h.below] at hbelow
  cases hbelow

theorem copyFile_eq_ok {files files' : Files} {source destination : String}
    {size destinationOffset : ℕ} {sparse : Bool}
    (h : copyFile files source destination size destinationOffset sparse = .ok files') :
    ∃ data copied, files.get source = some data ∧ files' = files.set destination copied ∧
      copyRange source data 0 size destinationOffset sparse (files.get destination) = .ok copied := by
  simp only [copyFile, bind_eq_ok, pure_eq_ok, readFile_eq_ok] at h
  obtain ⟨data, hdata, copied, hcopied, rfl⟩ := h
  exact ⟨data, copied, hdata, rfl, hcopied⟩

section
variable {P : Platform} {T : Tools} {args : Args} {files files' : Files}

/-- What a run that completes has read, rewritten and copied. -/
theorem signImage_eq_ok (hargs : args.Separate) (h : signImage P T args files = .ok files') :
    ∃ image table offset size esp esp' metadata output, files.get args.image = some image ∧
      T.replacements (removeTree files args.scratch) = .ok table ∧
      espExtent args.partitionMetadata = .ok (offset, size) ∧
      copyRange args.image image offset size 0 true none = .ok esp ∧
      rewriteEsp P T (removeTree files args.scratch) table esp = .ok (esp', metadata) ∧
      copyRange (espImage args) esp' 0 esp'.length offset false (some image) = .ok output ∧
      files'.get args.output = some output := by
  simp only [signImage, bind_eq_ok, pure_eq_ok, readFile_eq_ok, Prod.exists] at h
  obtain ⟨table, htable, image, himage, offset, esp, hextract, esp', metadata, hrewrite, image', himage',
    copied, hcopy, final, hfinal, rfl⟩ := h
  simp only [extractEsp, bind_eq_ok, pure_eq_ok, Prod.exists, Prod.mk.injEq] at hextract
  obtain ⟨_, size, hextent, _, hesp, rfl, rfl⟩ := hextract
  -- the image is not below the scratch directory, and it is not the output
  have hscratch : args.image ≠ args.scratch ∧ isBelow args.image args.scratch = false := by
    by_contra hcon
    rw [not_and_or, not_not, Bool.not_eq_false] at hcon
    rw [get_removeTree_below hcon] at himage
    cases himage
  have hne : args.image ≠ args.output := by
    intro heq
    rw [heq, Dict.get_erase, if_pos rfl] at himage'
    cases himage'
  have hespNe : espImage args ≠ args.image := by
    intro heq
    rw [← heq, isBelow_espImage] at hscratch
    exact absurd hscratch.2 (by decide)
  rw [get_removeTree hscratch.1 hscratch.2] at himage
  rw [Dict.get_erase, if_neg (Ne.symm hne), Dict.get_set_ne _ _ hespNe,
    get_removeTree hscratch.1 hscratch.2, himage] at himage'
  cases himage'
  -- the sparse copy of the image is the image
  obtain ⟨data, first, hdata, rfl, hfirst⟩ := copyFile_eq_ok hcopy
  rw [Dict.get_erase, if_neg (Ne.symm hne), Dict.get_set_ne _ _ hespNe,
    get_removeTree hscratch.1 hscratch.2, himage] at hdata
  cases hdata
  rw [Dict.get_erase, if_pos rfl] at hfirst
  obtain ⟨rfl, -⟩ := copyRange_fresh hfirst
  obtain ⟨data, output, hdata, rfl, houtput⟩ := copyFile_eq_ok hfinal
  rw [Dict.get_set_ne _ _ (Ne.symm hargs.espImage_ne), Dict.get_erase,
    if_neg (Ne.symm hargs.espImage_ne), Dict.get_set_self] at hdata
  cases hdata
  rw [Dict.get_set_self, slice_zero, Nat.zero_add, List.take_length] at houtput
  refine ⟨image, table, _, size, _, esp', metadata, output, himage, htable, hextent, hesp, hrewrite,
    houtput, ?_⟩
  rw [get_removeTree hargs.scratch hargs.below, Dict.get_set_ne _ _ (Ne.symm hargs.metadata),
    Dict.get_set_self]

/-- The rewritten ESP has the size of the extracted one. -/
theorem length_rewriteEsp {table : ReplacementTable} {esp esp' metadata : Bytes}
    (hsize : ∀ esp tree changes esp' written, T.apply esp tree changes = .ok (esp', written) →
      esp'.length = esp.length)
    (h : rewriteEsp P T files table esp = .ok (esp', metadata)) : esp'.length = esp.length := by
  simp only [rewriteEsp, bind_eq_ok, pure_eq_ok, Prod.exists, Prod.mk.injEq, exists_unit] at h
  obtain ⟨tree, -, replacements, presigned, -, changes, manifest, -, rewritten, written, happly, -,
    rfl, -⟩ := h
  exact hsize _ _ _ _ _ happly

end

/-- **The signed image.**  If mtools keeps the size of the extracted ESP, the output of
    `sign_image` is the image with the bytes of its ESP replaced by the rewritten ones.  A sparse
    copy to a new file is the copied range, and an exact copy over a file changes only its range. -/
theorem signImage_frame (P : Platform) (T : Tools) (args : Args) (files files' : Files)
    (image : Bytes) (Q : PartitionMetadata.Platform) (firmware : String) (slotLabel : Option Str)
    (himage : files.get args.image = some image)
    (hproject : PartitionMetadata.projectImage Q image firmware slotLabel =
      .ok args.partitionMetadata)
    (hsize : ∀ esp tree changes esp' written, T.apply esp tree changes = .ok (esp', written) →
      esp'.length = esp.length)
    (hargs : args.Separate) (h : signImage P T args files = .ok files') :
    (∃ table offset size esp metadata output,
      T.replacements (removeTree files args.scratch) = .ok table ∧
      espExtent args.partitionMetadata = .ok (offset, size) ∧
      rewriteEsp P T (removeTree files args.scratch) table (slice image offset (offset + size)) =
        .ok (esp, metadata) ∧
      files'.get args.output = some output ∧ output.length = image.length ∧
      slice output offset (offset + size) = esp ∧
      ∀ i, i < offset ∨ offset + size ≤ i → output[i]? = image[i]?) ∧
    (∀ name (source : Bytes) offset size, offset + size ≤ source.length →
      copyRange name source offset size 0 true none = .ok (slice source offset (offset + size))) ∧
    (∀ name (source old data : Bytes) offset size destinationOffset,
      copyRange name source offset size destinationOffset false (some old) = .ok data →
        slice data destinationOffset (destinationOffset + size) =
          slice source offset (offset + size) ∧
        ∀ i < old.length, i < destinationOffset ∨ destinationOffset + size ≤ i →
          data[i]? = old[i]?) := by
  refine ⟨?_, fun name source offset size hinside => ?_, ?_⟩
  · obtain ⟨image', table, offset, size, esp, esp', metadata, output, himage', htable, hextent,
      hesp, hrewrite, houtput, hget⟩ := signImage_eq_ok hargs h
    cases himage.symm.trans himage'
    obtain ⟨rfl, -⟩ := copyRange_fresh hesp
    have hinside : offset + size ≤ image.length := by
      have hpartition : ∃ partition ∈ args.partitionMetadata.partitions,
          partition.startBytes = offset ∧ partition.sizeBytes = size := by
        unfold espExtent at hextent
        split at hextent
        · rename_i partition hfilter
          cases hextent
          exact ⟨partition, List.mem_of_mem_filter (hfilter ▸ List.mem_singleton_self _), rfl, rfl⟩
        · cases hextent
      obtain ⟨partition, hmem, rfl, rfl⟩ := hpartition
      exact (EspExtent.projectImage_inside hproject partition hmem).2.2
    have hlen : esp'.length = size := by
      rw [length_rewriteEsp hsize hrewrite, length_slice hinside]
      omega
    obtain ⟨hlength, hrange, hrest⟩ := copyRange_replaced (by omega) houtput
    rw [hlen] at hrange hrest
    exact ⟨table, offset, size, esp', metadata, output, htable, hextent, hrewrite, hget, hlength,
      hrange, hrest⟩
  · obtain ⟨data, hdata⟩ := @copyRange_ok name source offset size 0 true none hinside
    rw [hdata, (copyRange_fresh hdata).1]
  · intro name source old data offset size destinationOffset hcopy
    obtain ⟨hinside, hlen, hbytes⟩ := copyRange_eq_ok (fun hs => absurd hs (by decide)) hcopy
    simp only [Option.getD_some] at hlen hbytes
    refine ⟨?_, fun i hi hout => ?_⟩
    · have hleft : (slice data destinationOffset (destinationOffset + size)).length = size := by
        rw [length_slice (by omega)]
        omega
      have hright : (slice source offset (offset + size)).length = size := by
        rcases hinside with rfl | hinside
        · simp [slice]
        · rw [length_slice hinside]
          omega
      refine eq_of_getD (hleft.trans hright.symm) fun i hi => ?_
      rw [getD_slice hi, getD_slice (by omega), hbytes, if_pos (by omega)]
      congr 1
      omega
    · have hdata := hbytes i
      rw [if_neg (by omega), List.getD_eq_getElem?_getD, List.getD_eq_getElem?_getD,
        List.getElem?_eq_getElem hi, List.getElem?_eq_getElem (by omega)] at hdata
      rw [List.getElem?_eq_getElem hi, List.getElem?_eq_getElem (by omega)]
      exact congrArg some hdata

/-! ## A signed image -/

/-- A tree holds its own files, if each is found under its path. -/
theorem verify_files {P : Platform} {tree : EspTree} (hfind : ∀ path ∈ tree.files.keys,
    find P (tree.sorted.map Prod.fst) path = some path) : verify P tree tree.files = .ok () := by
  refine forM_eq_ok.2 fun change hchange => ?_
  have hpath := hfind change.1 (List.mem_map_of_mem hchange)
  have hget : tree.files.get change.1 = some change.2 := Dict.get_of_mem tree.nodup hchange
  rw [verifyChange, hpath, Option.bind_some, hget, raiseIf]
  simp

section
variable {P : Platform} {T : Tools} {args : Args} {files : Files}

/-- A run completes if the ESP is rewritten to a file of its size. -/
theorem signImage_complete {image esp metadata : Bytes} {table : ReplacementTable} {offset size : ℕ}
    (hargs : args.Separate) (himage : files.get args.image = some image)
    (hscratch : args.image ≠ args.scratch ∧ isBelow args.image args.scratch = false)
    (hne : args.image ≠ args.output)
    (htable : T.replacements (removeTree files args.scratch) = .ok table)
    (hextent : espExtent args.partitionMetadata = .ok (offset, size))
    (hinside : offset + size ≤ image.length)
    (hrewrite : rewriteEsp P T (removeTree files args.scratch) table
      (slice image offset (offset + size)) = .ok (esp, metadata)) :
    ∃ files', signImage P T args files = .ok files' := by
  have hespNe : espImage args ≠ args.image := by
    intro heq
    rw [← heq, isBelow_espImage] at hscratch
    exact absurd hscratch.2 (by decide)
  have hfirst : (removeTree files args.scratch).get args.image = some image := by
    rw [get_removeTree hscratch.1 hscratch.2, himage]
  have hextract : extractEsp args.image image args.partitionMetadata =
      .ok (offset, slice image offset (offset + size)) := by
    obtain ⟨data, hdata⟩ := @copyRange_ok args.image image offset size 0 true none hinside
    rw [extractEsp, hextent, ok_bind]
    dsimp only
    rw [hdata, ok_bind, (copyRange_fresh hdata).1]
    rfl
  have hsecond : (Dict.erase ((removeTree files args.scratch).set (espImage args) esp)
      args.output).get args.image = some image := by
    rw [Dict.get_erase, if_neg (Ne.symm hne), Dict.get_set_ne _ _ hespNe, hfirst]
  have hcopy : ∀ {files : Files} {source destination : String} {data : Bytes} {offset : ℕ}
      {sparse : Bool}, files.get source = some data → ∃ copied,
        copyFile files source destination data.length offset sparse =
          .ok (files.set destination copied) := by
    intro files source destination data offset sparse hget
    obtain ⟨copied, hcopied⟩ := @copyRange_ok source data 0 data.length offset sparse
      (files.get destination) (by omega)
    exact ⟨copied, by rw [copyFile, readFile_eq_ok.2 hget, ok_bind, hcopied, ok_bind]; rfl⟩
  obtain ⟨copied, hcopied⟩ := @hcopy _ _ args.output _ 0 true hsecond
  have hesp : ((Dict.erase ((removeTree files args.scratch).set (espImage args) esp)
      args.output).set args.output copied).get (espImage args) = some esp := by
    rw [Dict.get_set_ne _ _ (Ne.symm hargs.espImage_ne), Dict.get_erase,
      if_neg (Ne.symm hargs.espImage_ne), Dict.get_set_self]
  obtain ⟨output, houtput⟩ := @hcopy _ _ args.output _ offset false hesp
  simp only [signImage, bind_eq_ok, pure_eq_ok, readFile_eq_ok, Prod.exists]
  exact ⟨_, table, htable, image, hfirst, offset, _, hextract, esp, metadata, hrewrite, image,
    hsecond, _, hcopied, _, houtput, rfl⟩

end

/-- A sector that starts with `data`. -/
def sector (data : Bytes) : Bytes := data ++ zeros (512 - data.length)

def ascii (text : String) : Bytes := text.toList.map fun c => UInt8.ofNat c.toNat

/-- A directory entry with a short name of eleven characters, of the earliest FAT date. -/
def shortEntry (name : String) (attributes : UInt8) (cluster size : ℕ) : Bytes :=
  ascii name ++ [attributes] ++ zeros 4 ++ leBytes 2 0x21 ++ leBytes 2 0x21 ++ zeros 4 ++
    leBytes 2 0x21 ++ leBytes 2 cluster ++ leBytes 4 size

/-- The part of a long name in one directory entry. -/
def longEntry (sequence checksum : UInt8) (part : String) : Bytes :=
  let units := (part.toList.map Char.toNat ++ [0] ++ List.replicate 13 0xFFFF).take 13
  let encode (units : List ℕ) : Bytes := units.flatMap (leBytes 2)
  [sequence] ++ encode (units.take 5) ++ [0x0F, 0, checksum] ++ encode ((units.drop 5).take 6) ++
    zeros 2 ++ encode (units.drop 11)

/-- FAT12 with sixteen sectors: the boot sector, one FAT, the root directory and the clusters. -/
def bootSector : Bytes :=
  [0xEB, 0x3C, 0x90] ++ ascii "MTOO4043" ++ leBytes 2 512 ++ [1] ++ leBytes 2 1 ++ [1] ++
    leBytes 2 16 ++ leBytes 2 16 ++ [0xF8] ++ leBytes 2 1 ++ leBytes 2 1 ++ leBytes 2 1 ++ zeros 482 ++
    [0x55, 0xAA]

/-- The directories `EFI` and `EFI/BOOT` in the clusters 2 and 3. -/
def efiDirectory : Bytes :=
  shortEntry ".          " 0x10 2 0 ++ shortEntry "..         " 0x10 0 0 ++
    shortEntry "BOOT       " 0x10 3 0

def bootDirectory (cluster size : ℕ) : Bytes :=
  shortEntry ".          " 0x10 3 0 ++ shortEntry "..         " 0x10 2 0 ++
    shortEntry "BOOTX64 EFI" 0x20 cluster size

/-- An ESP that holds the unsigned boot loader, in the cluster 4. -/
def unsignedEsp : Bytes :=
  sector bootSector ++ sector [0xF8, 0xFF, 0xFF, 0xFF, 0xFF, 0xFF, 0xFF, 0x0F] ++
    sector (shortEntry "EFI        " 0x10 2 0) ++ sector efiDirectory ++
    sector (bootDirectory 4 512) ++ sector SecureBoot.exampleUki ++ zeros (10 * 512)

def exampleManifest : Bytes := ascii (
  "\x7b\n  \"auto_enroll_keys\": [],\n" ++
  "  \"format_version\": \"mkosi-secure-boot-esp-manifest-v1\",\n" ++
  "  \"replaced\": [\n    \x7b\n      \"esp_path\": \"EFI/BOOT/BOOTX64.EFI\",\n" ++
  "      \"signed_sha256\": \"319a772eb8d8aebe4c81c0a362ad68e549ee202a66064a36be37fb2fda6e75c5\",\n" ++
  "      \"signer_sha256\": \"e4f60d0aa6d7f3d3b6a6494b1c861b99f649c6f9ec51abaf201b20f297327c95\",\n" ++
  "      \"unsigned_sha256\": \"9bae371184cc331e12286f184f1c8d11fcd57eaba60de81ca86d387f6ae80121\"\n" ++
  "    \x7d\n  ],\n  \"secure_boot_enroll\": null\n\x7d\n")

/-- The directory `loader` in the cluster 5, with the manifest in the cluster 8. -/
def loaderDirectory : Bytes :=
  shortEntry ".          " 0x10 5 0 ++ shortEntry "..         " 0x10 0 0 ++
    longEntry 0x43 101 "on" ++ longEntry 2 101 "ecure-boot.js" ++ longEntry 1 101 "rules_mkosi-s" ++
    shortEntry "RULES_~1JSO" 0x20 8 465

/-- The ESP with the signed boot loader, in the clusters 6 and 7, and the manifest. -/
def signedEsp : Bytes :=
  sector bootSector ++
    sector [0xF8, 0xFF, 0xFF, 0xFF, 0xFF, 0xFF, 0x00, 0xF0, 0xFF, 0x07, 0xF0, 0xFF, 0xFF, 0x0F] ++
    sector (shortEntry "EFI        " 0x10 2 0 ++ longEntry 0x41 96 "loader" ++
      shortEntry "LOADER     " 0x10 5 0) ++
    sector efiDirectory ++ sector (bootDirectory 6 528) ++ sector SecureBoot.exampleUki ++
    sector loaderDirectory ++ SecureBoot.exampleSignedUki ++ zeros 496 ++ sector exampleManifest ++
    zeros (6 * 512)

theorem length_sector {data : Bytes} (h : data.length ≤ 512) : (sector data).length = 512 := by
  rw [sector, List.length_append, length_zeros]
  omega

theorem length_unsignedEsp : unsignedEsp.length = 16 * 512 := by
  simp only [unsignedEsp, List.length_append, length_zeros]
  rw [length_sector (by decide +kernel), length_sector (by decide +kernel),
    length_sector (by decide +kernel), length_sector (by decide +kernel),
    length_sector (by decide +kernel), length_sector (by decide +kernel)]

-- the characters of a long string are slow to evaluate, so the text is taken apart first
theorem length_exampleManifest : exampleManifest.length = 465 := by
  simp only [exampleManifest, ascii, String.toList_append, -String.reduceToList]
  repeat rw [String.toList_ofList]
  decide +kernel

theorem length_signedEsp : signedEsp.length = 16 * 512 := by
  have hsigned : SecureBoot.exampleSignedUki.length = 528 := by decide +kernel
  have hmanifest : exampleManifest.length ≤ 512 := by
    rw [length_exampleManifest]
    omega
  simp only [signedEsp, List.length_append, length_zeros, hsigned]
  rw [length_sector (by decide +kernel), length_sector (by decide +kernel),
    length_sector (by decide +kernel), length_sector (by decide +kernel),
    length_sector (by decide +kernel), length_sector (by decide +kernel),
    length_sector (by decide +kernel), length_sector hmanifest]

def exampleChanges : Dict String Bytes :=
  [("EFI/BOOT/BOOTX64.EFI", SecureBoot.exampleSignedUki),
    ("loader/rules_mkosi-secure-boot.json", exampleManifest)]

def exampleRecord : Bytes := ascii (
  "\x7b\n  \"auto_enroll_keys\": [],\n  \"changed_esp_paths\": [\n" ++
  "    \"EFI/BOOT/BOOTX64.EFI\",\n    \"loader/rules_mkosi-secure-boot.json\"\n  ],\n" ++
  "  \"esp_manifest\": \"loader/rules_mkosi-secure-boot.json\",\n" ++
  "  \"format_version\": \"mkosi-secure-boot-signed-image-v2\",\n" ++
  "  \"replaced\": [\n    \x7b\n      \"esp_path\": \"EFI/BOOT/BOOTX64.EFI\",\n" ++
  "      \"signed_sha256\": \"319a772eb8d8aebe4c81c0a362ad68e549ee202a66064a36be37fb2fda6e75c5\",\n" ++
  "      \"signer_sha256\": \"e4f60d0aa6d7f3d3b6a6494b1c861b99f649c6f9ec51abaf201b20f297327c95\",\n" ++
  "      \"unsigned_sha256\": \"9bae371184cc331e12286f184f1c8d11fcd57eaba60de81ca86d387f6ae80121\"\n" ++
  "    \x7d\n  ],\n  \"secure_boot_enroll\": null\n\x7d\n")

/-- The tools, where `before` is the ESP with the unsigned boot loader and mtools makes `after`
of it. -/
def exampleTools (before after : Bytes) : Tools where
  Manifest := Bytes
  replacements _ := .ok exampleTable
  copyTree esp :=
    if esp = before then .ok (bootTree SecureBoot.exampleUki) else .error (.osError "mcopy failed")
  changes _ _ _ _ := .ok (exampleChanges, exampleManifest)
  apply esp _ _ :=
    if esp = before then .ok (after, ⟨exampleChanges, by decide⟩)
    else .error (.osError "mcopy failed")
  record _ _ := exampleRecord

def exampleArgs : Args where
  image := "disk.raw"
  partitionMetadata := EspExtent.diskMetadata
  scratch := "signed.raw.scratch"
  output := "signed.raw"
  metadata := "signed.json"

theorem rewriteEsp_example (before after : Bytes) (files : Files) :
    rewriteEsp SecureBootImage.examplePlatform (exampleTools before after) files exampleTable before =
      .ok (after, exampleRecord) := by
  have hassign : assign SecureBootImage.examplePlatform (bootTree SecureBoot.exampleUki)
      exampleTable = .ok ([("9bae371184cc331e12286f184f1c8d11fcd57eaba60de81ca86d387f6ae80121",
        ⟨[0x30, 0], "the UKI", ["EFI/BOOT/BOOTX64.EFI"], "signed.efi"⟩)], []) := by
    decide +kernel
  have hverify : verify SecureBootImage.examplePlatform ⟨exampleChanges, by decide⟩
      exampleChanges = .ok () := verify_files (by decide +kernel)
  have htree : (exampleTools before after).copyTree before =
      .ok (bootTree SecureBoot.exampleUki) := if_pos rfl
  have happly : ∀ tree changes, (exampleTools before after).apply before tree changes =
      .ok (after, ⟨exampleChanges, by decide⟩) := fun _ _ => if_pos rfl
  have hchanges : ∀ tree replacements presigned,
      (exampleTools before after).changes files tree replacements presigned =
        .ok (exampleChanges, exampleManifest) := fun _ _ _ => rfl
  rw [rewriteEsp, htree, ok_bind, hassign, ok_bind]
  dsimp only
  rw [hchanges, ok_bind]
  dsimp only
  rw [happly, ok_bind]
  dsimp only
  rw [hverify, ok_bind]
  simp only [exampleTools, pure, Except.pure]

/-- The rewritten ESP has the size of the old one. -/
theorem exampleTools_apply_length {before after : Bytes} (h : after.length = before.length)
    (esp : Bytes) (tree : EspTree) (changes : Dict String Bytes) (esp' : Bytes) (written : EspTree)
    (happly : (exampleTools before after).apply esp tree changes = .ok (esp', written)) :
    esp'.length = esp.length := by
  unfold exampleTools at happly
  dsimp only at happly
  split_ifs at happly with heq
  cases happly
  rw [heq, h]

theorem signImage_frame_example :
    ∃ files' output, signImage SecureBootImage.examplePlatform (exampleTools unsignedEsp signedEsp)
        exampleArgs [("disk.raw", EspExtent.diskImage unsignedEsp)] = .ok files' ∧
      files'.get "signed.raw" = some output ∧
      output.length = (EspExtent.diskImage unsignedEsp).length ∧
      slice output (2048 * 512) (2048 * 512 + 16 * 512) = signedEsp := by
  have himage : Dict.get [("disk.raw", EspExtent.diskImage unsignedEsp)] exampleArgs.image =
      some (EspExtent.diskImage unsignedEsp) := by
    simp [Dict.get, exampleArgs]
  have hargs : exampleArgs.Separate := ⟨by decide, by decide, by decide⟩
  have hextent : espExtent exampleArgs.partitionMetadata = .ok (2048 * 512, 16 * 512) := by
    decide +kernel
  have hinside : 2048 * 512 + 16 * 512 ≤ (EspExtent.diskImage unsignedEsp).length := by
    rw [EspExtent.length_diskImage length_unsignedEsp]
    omega
  have hslice := EspExtent.slice_diskEsp length_unsignedEsp
  obtain ⟨files', hrun⟩ := @signImage_complete SecureBootImage.examplePlatform
    (exampleTools unsignedEsp signedEsp) exampleArgs _ _ _ _ exampleTable _ _ hargs himage
    ⟨by decide, by decide⟩ (by decide) rfl hextent hinside
    (by rw [hslice]; exact rewriteEsp_example _ _ _)
  have hframe := signImage_frame SecureBootImage.examplePlatform
    (exampleTools unsignedEsp signedEsp) exampleArgs _ files' (EspExtent.diskImage unsignedEsp)
    PartitionMetadata.examplePlatform "uefi" none himage
    (EspExtent.diskImage_accepted length_unsignedEsp)
    (exampleTools_apply_length (length_signedEsp.trans length_unsignedEsp.symm)) hargs hrun
  obtain ⟨⟨table, offset, size, esp, metadata, output, htable, hextent', hrewrite, hget, hlen,
    hrange, -⟩, -, -⟩ := hframe
  cases hextent.symm.trans hextent'
  refine ⟨files', output, hrun, hget, hlen, ?_⟩
  cases htable
  rw [hslice, rewriteEsp_example] at hrewrite
  cases hrewrite
  exact hrange

end RulesMkosi.SignImage
