/-
  Files that are written.

  A sink is a file with a position.  Seeking past the end and truncating leave
  zeros; `Written` says what a sink that is written from start to end will hold
  once it is truncated.  A file that is written anywhere is described by its
  length and by the bytes that `getD` reads, where a missing byte is zero.  A
  streaming compressor turns chunks into chunks.
-/
import RulesMkosi.Lib.Bytes

namespace RulesMkosi

/-- An open file. -/
structure Sink where
  content : Bytes
  pos : ℕ
  deriving Repr, DecidableEq

namespace Sink

/-- A file that has just been created. -/
def new : Sink := ⟨[], 0⟩

/-- `file.write(data)`; a gap before the position reads as zeros. -/
def write (f : Sink) (data : Bytes) : Sink :=
  if data = [] then f
  else ⟨splice (f.content ++ zeros (f.pos - f.content.length)) f.pos (f.pos + data.length) data,
    f.pos + data.length⟩

/-- `file.seek(n, os.SEEK_CUR)` -/
def seek (f : Sink) (n : ℕ) : Sink := ⟨f.content, f.pos + n⟩

/-- `file.truncate()` -/
def truncate (f : Sink) : Sink :=
  ⟨(f.content ++ zeros (f.pos - f.content.length)).take f.pos, f.pos⟩

/-- `file.seek(n)` -/
def seekTo (f : Sink) (n : ℕ) : Sink := ⟨f.content, n⟩

/-- `file.truncate(n)` -/
def truncateTo (f : Sink) (n : ℕ) : Sink :=
  ⟨(f.content ++ zeros (n - f.content.length)).take n, f.pos⟩

/-- The file holds `data` up to the position, where its missing end stands for zeros. -/
def Written (f : Sink) (data : Bytes) : Prop :=
  f.content.length ≤ f.pos ∧ f.content ++ zeros (f.pos - f.content.length) = data

theorem written_new : new.Written [] := ⟨le_rfl, rfl⟩

section
variable {f : Sink} {data : Bytes} (h : f.Written data)
include h

theorem Written.length : data.length = f.pos := by
  have := h.1
  rw [← h.2, List.length_append, length_zeros]
  omega

theorem Written.write (chunk : Bytes) : (f.write chunk).Written (data ++ chunk) := by
  have hlen := h.length
  unfold Sink.write
  split_ifs with hchunk
  · subst hchunk
    rwa [List.append_nil]
  · rw [h.2, ← hlen]
    have hcontent : splice data data.length (data.length + chunk.length) chunk = data ++ chunk := by
      rw [splice, List.take_length, List.drop_eq_nil_of_le (by omega), List.append_nil]
    rw [hcontent]
    refine ⟨by simp, ?_⟩
    simp [zeros]

theorem Written.seek (n : ℕ) : (f.seek n).Written (data ++ zeros n) := by
  have hle := h.1
  have hgap : f.pos + n - f.content.length = f.pos - f.content.length + n := by omega
  refine ⟨hle.trans (Nat.le_add_right _ _), ?_⟩
  show f.content ++ zeros (f.pos + n - f.content.length) = data ++ zeros n
  rw [← h.2, List.append_assoc, hgap, zeros, zeros, zeros, List.replicate_append_replicate]

/-- Truncating closes the last gap. -/
theorem Written.truncate : f.truncate.content = data := by
  rw [Sink.truncate, h.2, ← h.length, List.take_length]

end

/-- Writing at the end appends. -/
theorem write_end (data chunk : Bytes) :
    write ⟨data, data.length⟩ chunk = ⟨data ++ chunk, (data ++ chunk).length⟩ := by
  unfold write
  split_ifs with hchunk
  · subst hchunk
    rw [List.append_nil]
  · simp [splice, zeros, List.drop_eq_nil_of_le]

theorem foldl_write_end : ∀ (chunks : List Bytes) (data : Bytes),
    chunks.foldl write ⟨data, data.length⟩ =
      ⟨data ++ chunks.flatten, (data ++ chunks.flatten).length⟩
  | [], data => by simp
  | chunk :: rest, data => by
    rw [List.foldl_cons, write_end, foldl_write_end rest, List.flatten_cons, List.append_assoc]

/-! ## Writing anywhere -/

theorem getD_append_zeros (data : Bytes) (n i : ℕ) : (data ++ zeros n).getD i 0 = data.getD i 0 := by
  simp only [List.getD_eq_getElem?_getD]
  by_cases hi : i < data.length
  · rw [List.getElem?_append_left hi]
  · rw [List.getElem?_append_right (by omega), List.getElem?_eq_none (l := data) (by omega)]
    by_cases hn : i - data.length < n
    · rw [getElem?_zeros hn]
      rfl
    · rw [List.getElem?_eq_none (by rw [length_zeros]; omega)]

/-- Writing replaces the bytes from the position on. -/
theorem getD_write {f : Sink} {data : Bytes} (i : ℕ) : (f.write data).content.getD i 0 =
    if f.pos ≤ i ∧ i < f.pos + data.length then data.getD (i - f.pos) 0 else f.content.getD i 0 := by
  unfold write
  split_ifs with hnil hrange hrange
  · subst hnil
    simp at hrange
    omega
  · rfl
  · have hlen : ((f.content ++ zeros (f.pos - f.content.length)).take f.pos).length = f.pos := by
      rw [List.length_take, List.length_append, length_zeros]
      omega
    simp only [splice, List.getD_eq_getElem?_getD]
    rw [List.append_assoc, List.getElem?_append_right (by omega), hlen,
      List.getElem?_append_left (by omega)]
  · have hlen : ((f.content ++ zeros (f.pos - f.content.length)).take f.pos).length = f.pos := by
      rw [List.length_take, List.length_append, length_zeros]
      omega
    rw [← getD_append_zeros f.content (f.pos - f.content.length) i]
    simp only [splice, List.getD_eq_getElem?_getD]
    rw [List.append_assoc]
    by_cases hi : i < f.pos
    · rw [List.getElem?_append_left (by omega), List.getElem?_take_of_lt hi]
    · rw [List.getElem?_append_right (by omega), hlen, List.getElem?_append_right (by omega),
        List.getElem?_drop]
      congr 2
      omega

theorem length_write {f : Sink} {data : Bytes} (hne : data ≠ []) :
    (f.write data).content.length = max f.content.length (f.pos + data.length) := by
  unfold write
  rw [if_neg hne]
  simp only [splice, List.length_append, List.length_take, List.length_drop, length_zeros]
  omega

theorem getD_truncateTo {f : Sink} {n : ℕ} (h : f.content.length ≤ n) (i : ℕ) :
    (f.truncateTo n).content.getD i 0 = f.content.getD i 0 := by
  have htake : (f.truncateTo n).content = f.content ++ zeros (n - f.content.length) := by
    unfold truncateTo
    refine List.take_of_length_le ?_
    rw [List.length_append, length_zeros]
    omega
  rw [htake, getD_append_zeros]

theorem length_truncateTo {f : Sink} (n : ℕ) : (f.truncateTo n).content.length = n := by
  simp only [truncateTo, List.length_take, List.length_append, length_zeros]
  omega

end Sink

/-- A compressor that is fed chunk by chunk. -/
structure Compressor where
  State : Type
  new : State
  /-- `compressor.compress(data)` -/
  compress : State → Bytes → State × Bytes
  /-- `compressor.flush()` -/
  flush : State → Bytes

namespace Compressor

variable (c : Compressor)

/-- What the compressor returns for the chunks and at the end. -/
def outputs : c.State → List Bytes → List Bytes
  | state, [] => [c.flush state]
  | state, chunk :: rest => (c.compress state chunk).2 :: outputs (c.compress state chunk).1 rest

/-- Decompressing the whole output gives back the whole input, however it was cut. -/
def Lossless (decompress : Bytes → Option Bytes) : Prop :=
  ∀ chunks, decompress (c.outputs c.new chunks).flatten = some chunks.flatten

end Compressor

end RulesMkosi
