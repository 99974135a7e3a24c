/-
  Insertion-ordered dictionaries.

  A dictionary is the list of its items.  `set` replaces the value of a key
  that is present and keeps its position, and appends a new key.
-/
import Mathlib.Data.List.Basic
import Mathlib.Data.List.Nodup

namespace RulesMkosi

abbrev Dict (κ ν : Type*) := List (κ × ν)

namespace Dict

variable {κ ν : Type*} [DecidableEq κ]

/-- `d.get(k)` -/
def get (d : Dict κ ν) (k : κ) : Option ν :=
  match d with
  | [] => none
  | (k', v) :: d => if k' = k then some v else get d k

/-- `d[k] = v` -/
def set (d : Dict κ ν) (k : κ) (v : ν) : Dict κ ν :=
  match d with
  | [] => [(k, v)]
  | (k', v') :: d => if k' = k then (k, v) :: d else (k', v') :: set d k v

/-- `del d[k]` -/
def erase (d : Dict κ ν) (k : κ) : Dict κ ν := d.filter fun item => item.1 ≠ k

/-- The keys in insertion order. -/
def keys (d : Dict κ ν) : List κ := d.map Prod.fst

@[simp] theorem get_nil (k : κ) : get ([] : Dict κ ν) k = none := rfl

@[simp] theorem get_set_self (d : Dict κ ν) (k : κ) (v : ν) : (set d k v).get k = some v := by
  induction d with
  | nil => simp [set, get]
  | cons p d ih => unfold set; split_ifs with h <;> simp [get, h, ih]

theorem get_set_ne (d : Dict κ ν) {k k' : κ} (v : ν) (h : k ≠ k') :
    (set d k v).get k' = get d k' := by
  induction d with
  | nil => simp [set, get, h]
  | cons p d ih =>
    unfold set; split_ifs with hp
    · simp [get, hp, h]
    · simp only [get, ih]

theorem get_set (d : Dict κ ν) (k k' : κ) (v : ν) :
    (set d k v).get k' = if k = k' then some v else get d k' := by
  split_ifs with h
  · rw [h, get_set_self]
  · exact get_set_ne d v h

theorem get_erase (d : Dict κ ν) (k k' : κ) :
    (erase d k).get k' = if k = k' then none else get d k' := by
  induction d with
  | nil => simp [erase, get]
  | cons p d ih =>
    unfold erase at ih ⊢
    rw [List.filter_cons]
    by_cases hp : p.1 = k
    · simp only [hp, ne_eq, not_true_eq_false, decide_false, Bool.false_eq_true, if_false, get, ih]
      split_ifs <;> rfl
    · simp only [hp, ne_eq, not_false_eq_true, decide_true, if_true, get, ih]
      split_ifs with h₁ h₂ <;> simp_all

theorem get_map {μ : Type*} (f : ν → μ) (d : Dict κ ν) (k : κ) :
    get (d.map fun item => (item.1, f item.2)) k = (get d k).map f := by
  induction d with
  | nil => rfl
  | cons p d ih =>
    simp only [List.map_cons, get]
    split_ifs with h
    · rfl
    · exact ih

theorem get_isSome {d : Dict κ ν} {k : κ} : (get d k).isSome ↔ k ∈ keys d := by
  induction d with
  | nil => simp [get, keys]
  | cons p d ih =>
    unfold get; split_ifs with h
    · simp [keys, h]
    · rw [ih]; simp [keys, Ne.symm h]

theorem mem_of_get {d : Dict κ ν} {k : κ} {v : ν} (h : get d k = some v) : (k, v) ∈ d := by
  induction d with
  | nil => simp [get] at h
  | cons p d ih =>
    unfold get at h; split_ifs at h with hp
    · cases h; rw [← hp]; exact List.mem_cons_self
    · exact List.mem_cons_of_mem _ (ih h)

theorem mem_keys_of_get {d : Dict κ ν} {k : κ} {v : ν} (h : get d k = some v) : k ∈ keys d :=
  List.mem_map.2 ⟨_, mem_of_get h, rfl⟩

theorem exists_get_of_mem_keys {d : Dict κ ν} {k : κ} (h : k ∈ keys d) : ∃ v, get d k = some v :=
  Option.isSome_iff_exists.1 (get_isSome.2 h)

theorem mem_keys_set {d : Dict κ ν} {k k' : κ} {v : ν} :
    k' ∈ keys (set d k v) ↔ k' = k ∨ k' ∈ keys d := by
  rw [← get_isSome, get_set, ← get_isSome]
  split_ifs with h
  · simp [h]
  · simp [Ne.symm h]

theorem keys_set_of_mem {d : Dict κ ν} {k : κ} {v : ν} (h : k ∈ keys d) :
    keys (set d k v) = keys d := by
  induction d with
  | nil => simp [keys] at h
  | cons p d ih =>
    unfold set; split_ifs with hp
    · simp [keys, hp]
    · simp only [keys, List.map_cons, List.mem_cons] at h ih ⊢
      rw [ih (h.resolve_left (Ne.symm hp))]

/-- A new key comes last. -/
theorem set_of_notMem {d : Dict κ ν} {k : κ} {v : ν} (h : k ∉ keys d) : set d k v = d ++ [(k, v)] := by
  induction d with
  | nil => rfl
  | cons p d ih =>
    simp only [keys, List.map_cons, List.mem_cons, not_or] at h ih
    unfold set
    rw [if_neg (Ne.symm h.1), ih h.2, List.cons_append]

/-- The last value of a key stays. -/
theorem set_set (d : Dict κ ν) (k : κ) (v v' : ν) : (set d k v).set k v' = set d k v' := by
  induction d with
  | nil => simp [set]
  | cons p d ih =>
    by_cases hp : p.1 = k
    · simp [set, hp]
    · simp [set, hp, ih]

theorem set_of_get {d : Dict κ ν} {k : κ} {v : ν} (h : get d k = some v) : set d k v = d := by
  induction d with
  | nil => simp at h
  | cons p d ih =>
    unfold get at h
    split_ifs at h with hp
    · cases h
      simp [set, ← hp]
    · simp [set, hp, ih h]

theorem keys_set_of_notMem {d : Dict κ ν} {k : κ} {v : ν} (h : k ∉ keys d) :
    keys (set d k v) = keys d ++ [k] := by
  rw [set_of_notMem h, keys, keys, List.map_append]
  rfl

theorem nodup_keys_set {d : Dict κ ν} {k : κ} {v : ν} (h : (keys d).Nodup) :
    (keys (set d k v)).Nodup := by
  by_cases hk : k ∈ keys d
  · rwa [keys_set_of_mem hk]
  · rw [keys_set_of_notMem hk]
    exact List.Nodup.append h (List.nodup_singleton k) (by simpa using hk)

theorem get_of_mem {d : Dict κ ν} (hd : (keys d).Nodup) {k : κ} {v : ν} (h : (k, v) ∈ d) :
    get d k = some v := by
  induction d with
  | nil => simp at h
  | cons p d ih =>
    simp only [keys, List.map_cons, List.nodup_cons] at hd
    rcases List.mem_cons.1 h with rfl | h
    · simp [get]
    · have hne : p.1 ≠ k := fun he => hd.1 (List.mem_map.2 ⟨_, h, he.symm⟩)
      simp only [get, if_neg hne]; exact ih hd.2 h

theorem mem_set {d : Dict κ ν} {k : κ} {v : ν} {item : κ × ν} (h : item ∈ set d k v) :
    item = (k, v) ∨ item ∈ d := by
  induction d with
  | nil => exact .inl (List.mem_singleton.1 h)
  | cons p d ih =>
    unfold set at h; split_ifs at h with hp
    · rcases List.mem_cons.1 h with h | h
      · exact .inl h
      · exact .inr (List.mem_cons_of_mem _ h)
    · rcases List.mem_cons.1 h with rfl | h
      · exact .inr List.mem_cons_self
      · exact (ih h).imp_right (List.mem_cons_of_mem _)

section
variable {α : Type*} (key : α → κ) (value : α → ν)

theorem get_foldl_set_of_notMem : ∀ {l : List α} {d : Dict κ ν} {k : κ}, k ∉ l.map key →
    (l.foldl (fun d a => d.set (key a) (value a)) d).get k = d.get k
  | [], _, _, _ => rfl
  | a :: l, d, k, h => by
    rw [List.map_cons, List.mem_cons, not_or] at h
    rw [List.foldl_cons, get_foldl_set_of_notMem h.2, get_set_ne _ _ (Ne.symm h.1)]

theorem get_foldl_set_of_mem : ∀ {l : List α} {d : Dict κ ν} {a : α}, (l.map key).Nodup → a ∈ l →
    (l.foldl (fun d a => d.set (key a) (value a)) d).get (key a) = some (value a)
  | b :: l, d, a, hl, ha => by
    rw [List.map_cons, List.nodup_cons] at hl
    rw [List.foldl_cons]
    rcases List.mem_cons.1 ha with rfl | ha
    · rw [get_foldl_set_of_notMem key value hl.1, get_set_self]
    · exact get_foldl_set_of_mem hl.2 ha

theorem keys_foldl_set : ∀ {l : List α} {d : Dict κ ν}, (d.keys ++ l.map key).Nodup →
    (l.foldl (fun d a => d.set (key a) (value a)) d).keys = d.keys ++ l.map key
  | [], d, _ => by simp
  | a :: l, d, h => by
    have hmem : key a ∉ d.keys := fun hin =>
      (List.nodup_append.1 h).2.2 _ hin _ List.mem_cons_self rfl
    have hkeys := keys_set_of_notMem (v := value a) hmem
    rw [List.foldl_cons, keys_foldl_set (by rw [hkeys]; simpa using h), hkeys]
    simp

end

theorem set_ne_nil {d : Dict κ ν} {k : κ} {v : ν} : set d k v ≠ [] := by
  cases d with
  | nil => simp [set]
  | cons p d => unfold set; split_ifs <;> simp

end Dict

end RulesMkosi
