/-
  Programs that read parts of a byte string and may raise.

  A program is run on the bytes of a file that does not change; besides its
  result it leaves the ranges `(offset, size)` it has read, also when it raises.

  `Meets data good inside m post` says what a run of `m` on `data` does: it
  returns a value with `post` or raises an error with `good`, and every range it
  reads is `inside`.  The rules below follow the structure of a program.
-/
import RulesMkosi.Lib.Result
import RulesMkosi.Lib.Bytes

namespace RulesMkosi

/-- A program over the bytes of a file, with the ranges it reads. -/
def ReadProgram (ε α : Type) := Bytes → Except ε α × List (ℕ × ℕ)

namespace ReadProgram

variable {ε α β : Type}

instance : Monad (ReadProgram ε) where
  pure a := fun _ => (.ok a, [])
  bind m f := fun data =>
    match m data with
    | (.ok a, log) => ((f a data).1, log ++ (f a data).2)
    | (.error e, log) => (.error e, log)

def raise (e : ε) : ReadProgram ε α := fun _ => (.error e, [])

/-- `if c: raise e` -/
def failIf (c : Prop) [Decidable c] (e : ε) : ReadProgram ε Unit :=
  if c then raise e else pure ()

/-- A computation that reads nothing. -/
def ofExcept (x : Except ε α) : ReadProgram ε α := fun _ => (x, [])

/-- The size of the file. -/
def size : ReadProgram ε ℕ := fun data => (.ok data.length, [])

/-- `file.seek(offset)` and `file.read(size)` -/
def readAt (offset size : ℕ) : ReadProgram ε Bytes :=
  fun data => (.ok (slice data offset (offset + size)), [(offset, size)])

theorem bind_run {data : Bytes} {m : ReadProgram ε α} {f : α → ReadProgram ε β} :
    (m >>= f) data = match m data with
      | (.ok a, log) => ((f a data).1, log ++ (f a data).2)
      | (.error e, log) => (.error e, log) := rfl

/-- What a run on `data` returns, raises and reads. -/
def Meets (data : Bytes) (good : ε → Prop) (inside : ℕ → ℕ → Prop) (m : ReadProgram ε α)
    (post : α → Prop) : Prop :=
  Yields good (m data).1 post ∧ ∀ range ∈ (m data).2, inside range.1 range.2

section
variable {data : Bytes} {good : ε → Prop} {inside : ℕ → ℕ → Prop}

/-- A computation that reads nothing. -/
theorem meets_ofExcept {x : Except ε α} {post : α → Prop} (h : Yields good x post) :
    Meets data good inside (ofExcept x) post :=
  ⟨h, fun _ hrange => absurd hrange List.not_mem_nil⟩

theorem meets_pure {a : α} {post : α → Prop} (h : post a) :
    Meets data good inside (pure a : ReadProgram ε α) post :=
  ⟨h, fun _ hrange => absurd hrange List.not_mem_nil⟩

theorem meets_bind {m : ReadProgram ε α} {f : α → ReadProgram ε β} {mid : α → Prop}
    {post : β → Prop} (hm : Meets data good inside m mid)
    (hf : ∀ a, mid a → Meets data good inside (f a) post) :
    Meets data good inside (m >>= f) post := by
  unfold Meets
  rw [bind_run]
  obtain ⟨hyields, hlog⟩ := hm
  rcases hrun : m data with ⟨_ | a, log⟩
  · rw [hrun] at hyields hlog
    exact ⟨hyields, hlog⟩
  · rw [hrun] at hyields hlog
    obtain ⟨hyields', hlog'⟩ := hf a hyields
    refine ⟨hyields', fun range hrange => ?_⟩
    rcases List.mem_append.1 hrange with h | h
    · exact hlog range h
    · exact hlog' range h

theorem meets_mono {m : ReadProgram ε α} {post post' : α → Prop}
    (h : Meets data good inside m post) (himp : ∀ a, post a → post' a) :
    Meets data good inside m post' :=
  ⟨yields_mono h.1 himp, h.2⟩

theorem meets_raise {e : ε} {post : α → Prop} (h : good e) :
    Meets data good inside (raise e : ReadProgram ε α) post :=
  ⟨h, fun _ hrange => absurd hrange List.not_mem_nil⟩

theorem meets_failIf {c : Prop} [Decidable c] {e : ε} (h : c → good e) :
    Meets data good inside (failIf c e) fun _ => ¬ c := by
  unfold failIf
  split_ifs with hc
  · exact meets_raise (h hc)
  · exact meets_pure hc

theorem meets_size : Meets data good inside (size : ReadProgram ε ℕ) fun n => n = data.length :=
  ⟨rfl, fun _ hrange => absurd hrange List.not_mem_nil⟩

theorem meets_readAt {offset n : ℕ} (h : inside offset n) :
    Meets data good inside (readAt offset n : ReadProgram ε Bytes)
      fun bytes => bytes = slice data offset (offset + n) := by
  refine ⟨rfl, fun range hrange => ?_⟩
  rw [List.mem_singleton.1 hrange]
  exact h

/-- A run of `m >>= f` reads what `m` reads, then what `f` reads. -/
theorem log_bind {m : ReadProgram ε α} {f : α → ReadProgram ε β} {a : α}
    (h : (m data).1 = .ok a) : ((m >>= f) data) = ((f a data).1, (m data).2 ++ (f a data).2) := by
  rw [bind_run]
  rcases hrun : m data with ⟨_ | b, log⟩
  · rw [hrun] at h; cases h
  · rw [hrun] at h; cases h; rfl

/-! ## Runs that return -/

theorem run_bind {m : ReadProgram ε α} {f : α → ReadProgram ε β} {a : α} (h : (m data).1 = .ok a) :
    ((m >>= f) data).1 = (f a data).1 := by
  rw [log_bind h]

/-- A bind returns iff both of its parts do. -/
theorem run_bind_eq_ok {m : ReadProgram ε α} {f : α → ReadProgram ε β} {b : β} :
    ((m >>= f) data).1 = .ok b ↔ ∃ a, (m data).1 = .ok a ∧ (f a data).1 = .ok b := by
  rw [bind_run]
  rcases m data with ⟨_ | a, log⟩
  · simp
  · simp

theorem run_failIf_eq_ok {c : Prop} [Decidable c] {e : ε} {u : Unit} :
    (failIf c e data).1 = .ok u ↔ ¬ c := by
  unfold failIf
  split_ifs with h
  · simp [h, raise]
  · simp [h, pure]

theorem run_ofExcept {x : Except ε α} : (ofExcept x data).1 = x := rfl

theorem run_pure_eq_ok {a b : α} : ((pure a : ReadProgram ε α) data).1 = .ok b ↔ a = b := by
  simp [pure]

theorem run_failIf {c : Prop} [Decidable c] {e : ε} (h : ¬ c) :
    (failIf c e data).1 = .ok () := by
  unfold failIf
  rw [if_neg h]
  rfl

theorem run_failIf_bind {c : Prop} [Decidable c] {e : ε} {f : Unit → ReadProgram ε β} (h : ¬ c) :
    ((failIf c e >>= f) data).1 = (f () data).1 := run_bind (run_failIf h)

theorem run_size_bind {f : ℕ → ReadProgram ε β} :
    ((size >>= f) data).1 = (f data.length data).1 := rfl

theorem run_ofExcept_bind {a : α} {f : α → ReadProgram ε β} :
    ((ofExcept (.ok a) >>= f) data).1 = (f a data).1 := rfl

end

/-! ## Runs with their log -/

/-- What a run on `data` after the reads of `log` leaves: a value with `post` or an error with
    `good`, each with all reads up to there. -/
def Leaves (data : Bytes) (good : ε → List (ℕ × ℕ) → Prop) (log : List (ℕ × ℕ))
    (m : ReadProgram ε α) (post : α → List (ℕ × ℕ) → Prop) : Prop :=
  Yields (fun e => good e (log ++ (m data).2)) (m data).1 fun a => post a (log ++ (m data).2)

section
variable {data : Bytes} {good : ε → List (ℕ × ℕ) → Prop} {log : List (ℕ × ℕ)}

theorem leaves_ofExcept {x : Except ε α} {post : α → List (ℕ × ℕ) → Prop}
    (h : Yields (good · log) x (post · log)) : Leaves data good log (ofExcept x) post := by
  unfold Leaves ofExcept
  rw [List.append_nil]
  exact h

theorem leaves_pure {a : α} {post : α → List (ℕ × ℕ) → Prop} (h : post a log) :
    Leaves data good log (pure a : ReadProgram ε α) post :=
  leaves_ofExcept (x := .ok a) h

theorem leaves_raise {e : ε} {post : α → List (ℕ × ℕ) → Prop} (h : good e log) :
    Leaves data good log (raise e : ReadProgram ε α) post :=
  leaves_ofExcept (x := .error e) h

theorem leaves_bind {m : ReadProgram ε α} {f : α → ReadProgram ε β}
    {mid : α → List (ℕ × ℕ) → Prop} {post : β → List (ℕ × ℕ) → Prop}
    (hm : Leaves data good log m mid)
    (hf : ∀ a log', mid a log' → Leaves data good log' (f a) post) :
    Leaves data good log (m >>= f) post := by
  unfold Leaves at hm ⊢
  rw [bind_run]
  rcases hrun : m data with ⟨e | a, reads⟩
  · rw [hrun] at hm
    exact hm
  · rw [hrun] at hm
    have hrest := hf a _ hm
    unfold Leaves at hrest
    rw [List.append_assoc] at hrest
    exact hrest

theorem leaves_mono {m : ReadProgram ε α} {post post' : α → List (ℕ × ℕ) → Prop}
    (h : Leaves data good log m post) (himp : ∀ a log', post a log' → post' a log') :
    Leaves data good log m post' :=
  yields_mono h fun a => himp a _

/-- A computation that reads nothing, followed by `f`. -/
theorem leaves_ofExcept_bind {x : Except ε α} {f : α → ReadProgram ε β} {mid : α → Prop}
    {post : β → List (ℕ × ℕ) → Prop} (hx : Yields (good · log) x mid)
    (hf : ∀ a, mid a → Leaves data good log (f a) post) :
    Leaves data good log (ofExcept x >>= f) post := by
  cases x with
  | error e => exact leaves_raise hx
  | ok a => exact hf a hx

theorem leaves_failIf_bind {c : Prop} [Decidable c] {e : ε} {f : Unit → ReadProgram ε β}
    {post : β → List (ℕ × ℕ) → Prop} (h : c → good e log)
    (hf : ¬ c → Leaves data good log (f ()) post) :
    Leaves data good log (failIf c e >>= f) post := by
  unfold failIf
  split_ifs with hc
  · exact leaves_raise (h hc)
  · exact hf hc

end

end ReadProgram

end RulesMkosi
