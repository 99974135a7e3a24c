/-
  The Authenticode digest of an image.

  The Authenticode specification counts the bytes it has hashed (SUM_OF_BYTES_HASHED) and
  takes this count for the file offset at which the data after the sections starts.
  `authenticode_hash` starts at the end of the last section instead.  The two streams agree
  iff the raw data of the sections follows the headers without gaps.
-/
import Mathlib.Algebra.BigOperators.Group.List.Basic
import Mathlib.Data.List.Pairwise
import RulesMkosi.SecureBootEquivalence

namespace RulesMkosi.SecureBoot

/-! ## The specification -/

namespace Spec
variable (data : Bytes)

def peHeader : ℕ := field data 0x3C 4

def optionalHeader : ℕ := peHeader data + 24

def checksumField : ℕ := optionalHeader data + 64

def sizeOfHeaders : ℕ := field data (optionalHeader data + 60) 4

/-- The data directory entry of the certificate table, for PE32+ and PE32. -/
def certificateEntry : ℕ :=
  if field data (optionalHeader data) 2 = 0x20B then optionalHeader data + 144
  else optionalHeader data + 128

/-- PointerToRawData and SizeOfRawData of every section header. -/
def sectionHeaders : List (ℕ × ℕ) :=
  let table := optionalHeader data + field data (peHeader data + 20) 2
  (List.range (field data (peHeader data + 6) 2)).map fun index =>
    (field data (table + index * 40 + 20) 4, field data (table + index * 40 + 16) 4)

def sumOfBytesHashed : ℕ := sizeOfHeaders data + ((sectionHeaders data).map Prod.snd).sum

/-- The sections that have raw data, by increasing file offset. -/
def sectionsByOffset : List (ℕ × ℕ) :=
  ((sectionHeaders data).filter fun r => r.2 ≠ 0).insertionSort fun a b => a.1 ≤ b.1

/-- The bytes that the Authenticode specification hashes. -/
def stream : Bytes :=
  data.take (checksumField data) ++ slice data (checksumField data + 4) (certificateEntry data) ++
    slice data (certificateEntry data + 8) (sizeOfHeaders data) ++
    ((sectionsByOffset data).flatMap fun r => slice data r.1 (r.1 + r.2)) ++
    slice data (sumOfBytesHashed data) (field data (certificateEntry data) 4)

end Spec

/-! ## The section loop -/

/-- Every range starts where the one before ends, and the first at `last`. -/
def Contiguous : ℕ → List (ℕ × ℕ) → Prop
  | _, [] => True
  | last, r :: rest => r.1 = last ∧ Contiguous (r.1 + r.2) rest

/-- The loop hashes the sections and ends behind as many bytes as they have, and the gaps. -/
theorem sectionStream_spec {data : Bytes} : ∀ {sections : List (ℕ × ℕ)} {last last' : ℕ}
    {stream : Bytes}, sectionStream data sections last = .ok (stream, last') →
    stream = sections.flatMap (fun r => slice data r.1 (r.1 + r.2)) ∧
      last + (sections.map Prod.snd).sum ≤ last' ∧
      (last + (sections.map Prod.snd).sum = last' ↔ Contiguous last sections)
  | [], last, last', stream, h => by
    obtain ⟨rfl, rfl⟩ : [] = stream ∧ last = last' := by simpa [sectionStream] using h
    simp [Contiguous]
  | (offset, size) :: sections, last, last', stream, h => by
    simp only [sectionStream, bind_eq_ok, exists_unit, raiseIf_eq_ok, not_lt, pure_eq_ok,
      Prod.mk.injEq] at h
    obtain ⟨hle, ⟨rest, end'⟩, hrest, rfl, rfl⟩ := h
    obtain ⟨hstream, hsum, hcontiguous⟩ := sectionStream_spec hrest
    simp only at hstream hsum hcontiguous ⊢
    rw [hstream]
    refine ⟨rfl, ?_, ?_⟩
    · simp only [List.map_cons, List.sum_cons]
      omega
    · rw [Contiguous, ← hcontiguous]
      simp only [List.map_cons, List.sum_cons]
      omega

/-! ## The sections of an accepted image -/

theorem Disjoint.pairwise : ∀ {sections : List (ℕ × ℕ)}, Disjoint sections →
    sections.Pairwise fun a b => a.1 + a.2 ≤ b.1
  | [], _ => .nil
  | [_], _ => List.pairwise_singleton _ _
  | a :: b :: rest, h => by
    obtain ⟨hab, hrest⟩ := h
    have hpairwise := Disjoint.pairwise hrest
    refine List.pairwise_cons.2 ⟨fun c hc => ?_, hpairwise⟩
    rcases List.mem_cons.1 hc with rfl | hc
    · exact hab
    · have := (List.pairwise_cons.1 hpairwise).1 c hc
      omega

theorem filterMap_rawRange {data : Bytes} {table : ℕ} (indexes : List ℕ) :
    indexes.filterMap (rawRange data table) = (indexes.map fun index =>
      (field data (table + index * 40 + 20) 4, field data (table + index * 40 + 16) 4)).filter
        fun r => r.2 ≠ 0 := by
  induction indexes with
  | nil => rfl
  | cons index indexes ih =>
    rw [List.map_cons, List.filter_cons]
    by_cases hempty : field data (table + index * 40 + 16) 4 = 0
    · rw [List.filterMap_cons_none (by rw [rawRange, if_pos hempty]), ih]
      simp [hempty]
    · rw [List.filterMap_cons_some (by rw [rawRange, if_neg hempty]), ih]
      simp [hempty]

/-- The order by offset and size is the order by offset where offsets differ. -/
theorem insertionSort_offset {l : List (ℕ × ℕ)} (h : Disjoint (l.insertionSort rangeLe))
    (hsize : ∀ r ∈ l, r.2 ≠ 0) :
    l.insertionSort rangeLe = l.insertionSort fun a b => a.1 ≤ b.1 := by
  have hpairwise := h.pairwise
  have hmem : ∀ {r}, r ∈ l.insertionSort rangeLe ↔ r ∈ l := (List.perm_insertionSort _ _).mem_iff
  have hsorted : (l.insertionSort rangeLe).Pairwise fun a b => a.1 ≤ b.1 :=
    hpairwise.imp fun {a b} hab => by omega
  have htotal : Std.Total fun a b : ℕ × ℕ => a.1 ≤ b.1 := ⟨fun a b => le_total a.1 b.1⟩
  have htrans : IsTrans (ℕ × ℕ) fun a b => a.1 ≤ b.1 := ⟨fun a b c => le_trans⟩
  refine List.Perm.eq_of_pairwise (fun a b ha hb hab hba => ?_) hsorted
    (List.pairwise_insertionSort _ l)
    ((List.perm_insertionSort _ _).trans (List.perm_insertionSort _ _).symm)
  -- two ranges with one offset would overlap
  have hb : b ∈ l.insertionSort rangeLe := hmem.2 ((List.perm_insertionSort _ _).mem_iff.1 hb)
  have hunique : (l.insertionSort rangeLe).Pairwise fun a b => a.1 = b.1 → a = b := by
    refine List.Pairwise.imp_of_mem (fun {a b} ha _ hab heq => ?_) hpairwise
    have := hsize a (hmem.1 ha)
    omega
  have hsymm : Std.Symm fun a b : ℕ × ℕ => a.1 = b.1 → a = b := ⟨fun a b h heq => (h heq.symm).symm⟩
  exact List.Pairwise.forall_of_forall (fun _ _ _ => rfl) hunique ha hb (le_antisymm hab hba)

theorem sum_filter_snd (l : List (ℕ × ℕ)) :
    ((l.filter fun r => r.2 ≠ 0).map Prod.snd).sum = (l.map Prod.snd).sum := by
  induction l with
  | nil => rfl
  | cons r l ih =>
    by_cases hempty : r.2 = 0
    · rw [List.filter_cons_of_neg (by simp [hempty]), ih, List.map_cons, List.sum_cons, hempty,
        Nat.zero_add]
    · rw [List.filter_cons_of_pos (by simp [hempty]), List.map_cons, List.sum_cons, ih, List.map_cons,
        List.sum_cons]

/-- The layout of an accepted image holds the fields that the specification names. -/
structure LayoutFields (data : Bytes) (pe : Layout) : Prop where
  checksum : pe.checksum = Spec.checksumField data
  securityDirectory : pe.securityDirectory = Spec.certificateEntry data
  sizeHeaders : pe.sizeHeaders = Spec.sizeOfHeaders data
  sections : pe.sections = Spec.sectionsByOffset data
  certificateOffset : pe.certificateOffset = field data (Spec.certificateEntry data) 4

theorem parsePe_fields {data : Bytes} {signed : Bool} {pe : Layout}
    (h : parsePe data signed = .ok pe) : LayoutFields data pe := by
  obtain ⟨header, t, hp, hcs, hs, ht, hh, hr, hc⟩ := parsePe_eq_ok.1 h
  obtain ⟨-, -, -, hs4⟩ := securityDirectory_eq_ok.1 hs
  obtain ⟨-, ht2, -⟩ := headerLayout_eq_ok.1 ht
  obtain ⟨-, hr2, hr3⟩ := sectionRanges_eq_ok.1 hr
  obtain ⟨-, hc2, -⟩ := certificateTable_eq_ok.1 hc
  have hoptional : header.optional = Spec.optionalHeader data := hp.optional
  have hentry : pe.securityDirectory = Spec.certificateEntry data := by
    rw [hs4, Spec.certificateEntry, ← hoptional]
    have hfixed := hp.fixedSize
    unfold fixedSizeOf at hfixed
    split_ifs at hfixed ⊢ with h64 h32
    · rw [← Option.some.inj hfixed]
    · rw [← Option.some.inj hfixed]
  refine ⟨by rw [hcs, hoptional]; rfl, hentry, ?_, ?_, ?_⟩
  · rw [hh, ht2, hoptional]
    rfl
  · have hheaders : (List.range header.sectionCount).filterMap (rawRange data t.1) =
        (Spec.sectionHeaders data).filter fun r => r.2 ≠ 0 := by
      rw [filterMap_rawRange, ht2, hoptional, hp.sectionCount, hp.optionalSize]
      rfl
    rw [hr2, hheaders] at hr3 ⊢
    refine insertionSort_offset hr3 fun r hmem => ?_
    simpa using (List.mem_filter.1 hmem).2
  · rw [← hentry]
    exact (Prod.mk.inj hc2).1

/-- What the sections of the specification add up to. -/
theorem sumOfBytesHashed_eq (data : Bytes) : Spec.sumOfBytesHashed data =
    Spec.sizeOfHeaders data + ((Spec.sectionsByOffset data).map Prod.snd).sum := by
  have hperm := (List.perm_insertionSort (fun a b : ℕ × ℕ => a.1 ≤ b.1)
    ((Spec.sectionHeaders data).filter fun r => r.2 ≠ 0)).map Prod.snd
  rw [Spec.sumOfBytesHashed, Spec.sectionsByOffset, hperm.sum_eq, sum_filter_snd]

/-- **The Authenticode digest.**  Whenever a signed image is accepted and hashed, the hashed bytes
    are those of the specification iff the sections follow the headers without gaps. -/
theorem authenticodeStream_eq_spec_iff {data stream : Bytes} {pe : Layout}
    (hpe : parsePe data true = .ok pe) (h : authenticodeStream data pe = .ok stream) :
    stream = Spec.stream data ↔ Contiguous pe.sizeHeaders pe.sections := by
  have hfields := parsePe_fields hpe
  obtain ⟨_, _, _, _, _, _, _, _, hc⟩ := parsePe_eq_ok.1 hpe
  obtain ⟨-, -, hsigned, -⟩ := certificateTable_eq_ok.1 hc
  obtain ⟨hcert0, -, -, hend⟩ := hsigned rfl
  simp only at hcert0 hend
  simp only [authenticodeStream, bind_eq_ok, exists_unit, raiseIf_eq_ok, pure_eq_ok, not_lt,
    if_neg hcert0] at h
  obtain ⟨⟨sections, last⟩, hsections, hlast, rfl⟩ := h
  obtain ⟨hstream, hsum, hcontiguous⟩ := sectionStream_spec hsections
  simp only at hlast hstream hsum hcontiguous
  rw [← hcontiguous]
  have hhashed : pe.sizeHeaders + (pe.sections.map Prod.snd).sum = Spec.sumOfBytesHashed data := by
    rw [sumOfBytesHashed_eq, hfields.sizeHeaders, hfields.sections]
  rw [hhashed] at hsum ⊢
  rw [hstream, hfields.sections, hfields.checksum, hfields.securityDirectory, hfields.sizeHeaders,
    Spec.stream, ← hfields.certificateOffset]
  constructor
  · -- a gap makes the tail of the specification longer
    intro heq
    have hlength := congrArg List.length (List.append_cancel_left heq)
    rw [length_slice (by omega), length_slice (by omega)] at hlength
    omega
  · intro heq
    rw [heq]

/-- A signed image with one section of eight bytes at `offset`, and its certificate table. -/
def sectionImage (offset : ℕ) : Bytes :=
  overwrite (overwrite (exampleUki ++ zeros (offset - 512 + 8)) 240 (leBytes 4 8 ++ leBytes 4 offset)) 216
    (leBytes 4 (offset + 8) ++ leBytes 4 16) ++
    leBytes 4 10 ++ leBytes 2 0x200 ++ leBytes 2 2 ++ [0x30, 0] ++ zeros 6

theorem authenticodeStream_eq_spec_example : ∃ pe stream, parsePe (sectionImage 512) true = .ok pe ∧
    authenticodeStream (sectionImage 512) pe = .ok stream ∧ stream = Spec.stream (sectionImage 512) := by
  have hpe : parsePe (sectionImage 512) true = .ok ⟨520, 16, 152, 216, [(512, 8)], 512⟩ := by
    decide +kernel
  have hstream : ∃ stream, authenticodeStream (sectionImage 512) ⟨520, 16, 152, 216, [(512, 8)], 512⟩ =
      .ok stream := ⟨_, rfl⟩
  obtain ⟨stream, hstream⟩ := hstream
  exact ⟨_, stream, hpe, hstream, (authenticodeStream_eq_spec_iff hpe hstream).2 ⟨rfl, trivial⟩⟩

/-- A gap between the headers and the section: the specification hashes the end of the section a
    second time. -/
theorem authenticodeStream_gap : ∃ pe stream, parsePe (sectionImage 1024) true = .ok pe ∧
    authenticodeStream (sectionImage 1024) pe = .ok stream ∧
    stream ≠ Spec.stream (sectionImage 1024) := by
  refine ⟨⟨1032, 16, 152, 216, [(1024, 8)], 512⟩, _, by decide +kernel, rfl, fun heq => ?_⟩
  have hlength := congrArg List.length heq
  revert hlength
  decide +kernel

end RulesMkosi.SecureBoot
