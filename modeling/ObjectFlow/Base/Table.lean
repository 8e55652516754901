import Mathlib.Data.List.Basic

/-!
# Tables kept in key order

A table is an association list.  `set` replaces the entry of a key it holds
and otherwise places the new one before the first larger key, so a table
built by `set` lists its keys in order.  Looking up depends on no law of the
order, which is why no lemma below asks for one.
-/

namespace Base

/-- A finite map as the list of its entries. -/
abbrev Table (κ ν : Type*) := List (κ × ν)

namespace Table

variable {κ ν μ : Type*} [DecidableEq κ]

/-- The value a table holds for a key. -/
def get? : Table κ ν → κ → Option ν
  | [], _ => none
  | (k, v) :: rest, key => if k = key then some v else get? rest key

/-- A table with a key's value set. -/
def set [LT κ] [DecidableLT κ] : Table κ ν → κ → ν → Table κ ν
  | [], key, new => [(key, new)]
  | (k, v) :: rest, key, new =>
      if k = key then (key, new) :: rest
      else if key < k then (key, new) :: (k, v) :: rest
      else (k, v) :: set rest key new

/-- A table with a key's value set, a new key after every other. -/
def put : Table κ ν → κ → ν → Table κ ν
  | [], key, new => [(key, new)]
  | (k, v) :: rest, key, new =>
      if k = key then (key, new) :: rest else (k, v) :: put rest key new

/-- A table without a key. -/
def erase : Table κ ν → κ → Table κ ν
  | [], _ => []
  | (k, v) :: rest, key => if k = key then erase rest key else (k, v) :: erase rest key

/-- The entries of a table that a predicate holds of. -/
def keep (p : κ → ν → Bool) (t : Table κ ν) : Table κ ν :=
  t.filter fun (k, _) => (get? t k).any (p k)

/-- A table's keys, in its order. -/
def keys (t : Table κ ν) : List κ := t.map Prod.fst

/-- A table with each value changed. -/
def mapValues (f : ν → μ) (t : Table κ ν) : Table κ μ :=
  t.map fun (k, v) => (k, f v)

@[simp] theorem get?_nil (key : κ) : get? ([] : Table κ ν) key = none := rfl

theorem get?_cons (k : κ) (v : ν) (rest : Table κ ν) (key : κ) :
    get? ((k, v) :: rest) key = if k = key then some v else get? rest key := rfl

/-- **Lookup after `set`.**  The key set reads its new value, every other key
what it read before. -/
@[simp] theorem get?_set [LT κ] [DecidableLT κ] (t : Table κ ν) (key other : κ)
    (new : ν) :
    get? (set t key new) other = if key = other then some new else get? t other := by
  induction t with
  | nil => rfl
  | cons entry rest ih =>
      obtain ⟨k, v⟩ := entry
      simp only [set]
      split
      case isTrue hk =>
        subst hk
        simp only [get?_cons]
        split <;> rfl
      case isFalse hk =>
        split
        case isTrue => simp only [get?_cons]
        case isFalse =>
          simp only [get?_cons, ih]
          split
          case isTrue hko =>
            subst hko
            rw [if_neg (fun h => hk h.symm)]
          case isFalse => rfl

theorem get?_set_self [LT κ] [DecidableLT κ] (t : Table κ ν) (key : κ) (new : ν) :
    get? (set t key new) key = some new := by simp

theorem get?_set_of_ne [LT κ] [DecidableLT κ] (t : Table κ ν) {key other : κ}
    (new : ν) (h : key ≠ other) : get? (set t key new) other = get? t other := by
  simp [h]

/-- Setting other keys, one after another, leaves a key's value. -/
theorem get?_foldl_set_of_ne [LT κ] [DecidableLT κ] {α : Type*} (name : α → κ) (value : α → ν)
    {items : List α} {key : κ} (h : ∀ x ∈ items, name x ≠ key) (t : Table κ ν) :
    get? (items.foldl (fun t x => set t (name x) (value x)) t) key = get? t key := by
  induction items generalizing t with
  | nil => rfl
  | cons x rest ih =>
      rw [List.foldl_cons, ih (fun y hy => h y (List.mem_cons_of_mem _ hy)),
        get?_set_of_ne t _ (h x List.mem_cons_self)]

@[simp] theorem get?_put (t : Table κ ν) (key other : κ) (new : ν) :
    get? (put t key new) other = if key = other then some new else get? t other := by
  induction t with
  | nil => rfl
  | cons entry rest ih =>
      obtain ⟨k, v⟩ := entry
      simp only [put]
      split
      case isTrue hk =>
        subst hk
        simp only [get?_cons]
        split <;> rfl
      case isFalse hk =>
        simp only [get?_cons, ih]
        split
        case isTrue hko =>
          subst hko
          rw [if_neg (fun h => hk h.symm)]
        case isFalse => rfl

@[simp] theorem get?_erase (t : Table κ ν) (key other : κ) :
    get? (erase t key) other = if key = other then none else get? t other := by
  induction t with
  | nil => simp [erase]
  | cons entry rest ih =>
      obtain ⟨k, v⟩ := entry
      simp only [erase]
      split
      case isTrue hk =>
        subst hk
        rw [ih]
        split
        case isTrue => rfl
        case isFalse hne => rw [get?_cons, if_neg hne]
      case isFalse hk =>
        simp only [get?_cons, ih]
        split
        case isTrue hko =>
          subst hko
          rw [if_neg (fun h => hk h.symm)]
        case isFalse => rfl

@[simp] theorem get?_mapValues (f : ν → μ) (t : Table κ ν) (key : κ) :
    get? (mapValues f t) key = (get? t key).map f := by
  induction t with
  | nil => rfl
  | cons entry rest ih =>
      obtain ⟨k, v⟩ := entry
      simp only [mapValues, List.map_cons, get?_cons]
      split
      case isTrue => rfl
      case isFalse => exact ih

/-- Each entry changed, its key kept. -/
theorem get?_map_entries (f : κ → ν → μ) (t : Table κ ν) (key : κ) :
    get? (t.map fun (k, v) => (k, f k v)) key = (get? t key).map (f key) := by
  induction t with
  | nil => rfl
  | cons entry rest ih =>
      obtain ⟨k, v⟩ := entry
      rw [List.map_cons, get?_cons, get?_cons, ih]
      by_cases hk : k = key
      · simp [hk]
      · simp [hk]

/-- Filtering by key leaves the entries of the keys kept. -/
theorem get?_filter_key (p : κ → Bool) (t : Table κ ν) (key : κ) :
    get? (t.filter fun (k, _) => p k) key = if p key then get? t key else none := by
  induction t with
  | nil => simp
  | cons entry rest ih =>
      obtain ⟨k, v⟩ := entry
      by_cases hk : p k
      · rw [List.filter_cons_of_pos (by simpa using hk), get?_cons, get?_cons, ih]
        split
        case isTrue hkey =>
          subst hkey
          rw [if_pos hk]
        case isFalse => rfl
      · rw [List.filter_cons_of_neg (by simpa using hk), ih, get?_cons]
        split
        case isTrue hp => rw [if_neg fun h : k = key => hk (h ▸ hp)]
        case isFalse => rfl

@[simp] theorem get?_keep (p : κ → ν → Bool) (t : Table κ ν) (key : κ) :
    get? (keep p t) key = (get? t key).filter (p key) := by
  rw [keep, get?_filter_key fun k => (get? t k).any (p k)]
  cases get? t key with
  | none => rfl
  | some v => simp [Option.filter]

/-- A value read from a table stands in it under its key. -/
theorem mem_of_get? {t : Table κ ν} {key : κ} {v : ν} (h : get? t key = some v) :
    (key, v) ∈ t := by
  induction t with
  | nil => simp at h
  | cons entry rest ih =>
      obtain ⟨k, w⟩ := entry
      rw [get?_cons] at h
      split at h
      case isTrue hk =>
        obtain rfl := Option.some.inj h
        simp [hk]
      case isFalse => exact List.mem_cons_of_mem _ (ih h)

/-- The entries of a table after `set` are its own and the new one. -/
theorem mem_set [LT κ] [DecidableLT κ] {t : Table κ ν} {key : κ} {new : ν}
    {entry : κ × ν} (h : entry ∈ set t key new) : entry ∈ t ∨ entry = (key, new) := by
  induction t with
  | nil => simpa [set] using h
  | cons head rest ih =>
      obtain ⟨k, v⟩ := head
      simp only [set] at h
      split at h
      · rcases List.mem_cons.mp h with h | h <;> simp [h]
      · split at h
        · rcases List.mem_cons.mp h with h | h <;> simp [h]
        · rcases List.mem_cons.mp h with h | h
          · simp [h]
          · rcases ih h with h | h <;> simp [h]

/-- A key with an entry reads some value. -/
theorem get?_isSome_of_mem {t : Table κ ν} {key : κ} {v : ν} (h : (key, v) ∈ t) :
    (get? t key).isSome := by
  induction t with
  | nil => simp at h
  | cons entry rest ih =>
      obtain ⟨k, w⟩ := entry
      rw [get?_cons]
      split
      case isTrue => rfl
      case isFalse hk =>
        rcases List.mem_cons.mp h with heq | hrest
        · exact absurd (congrArg Prod.fst heq).symm hk
        · exact ih hrest

/-- The keys that read something are the table's. -/
theorem mem_keys {t : Table κ ν} {key : κ} : key ∈ keys t ↔ (get? t key).isSome := by
  induction t with
  | nil => simp [keys]
  | cons entry rest ih =>
      obtain ⟨k, w⟩ := entry
      rw [get?_cons]
      split
      case isTrue hk => simp [keys, hk]
      case isFalse hk =>
        rw [← ih]
        simp [keys, Ne.symm hk]

/-- In a table of one entry a key, an entry is what its key reads. -/
theorem get?_of_mem {t : Table κ ν} (hkeys : (keys t).Nodup) {key : κ} {v : ν}
    (h : (key, v) ∈ t) : get? t key = some v := by
  induction t with
  | nil => simp at h
  | cons entry rest ih =>
      obtain ⟨k, w⟩ := entry
      obtain ⟨hout, hrest⟩ := List.nodup_cons.mp hkeys
      rw [get?_cons]
      rcases List.mem_cons.mp h with heq | hmem
      · obtain ⟨rfl, rfl⟩ := Prod.mk.inj heq
        exact if_pos rfl
      · have hne : k ≠ key := by
          rintro rfl
          exact hout (List.mem_map.mpr ⟨_, hmem, rfl⟩)
        rw [if_neg hne]
        exact ih hrest hmem

theorem mem_keys_put {t : Table κ ν} {key k : κ} {new : ν} :
    k ∈ keys (put t key new) ↔ k = key ∨ k ∈ keys t := by
  induction t with
  | nil => simp [put, keys]
  | cons entry rest ih =>
      obtain ⟨j, w⟩ := entry
      unfold put
      split
      case isTrue hj =>
        subst hj
        simp [keys]
      case isFalse =>
        show k ∈ j :: keys (put rest key new) ↔ k = key ∨ k ∈ j :: keys rest
        rw [List.mem_cons, List.mem_cons, ih]
        exact or_left_comm

theorem nodup_keys_put {t : Table κ ν} (key : κ) (new : ν) (h : (keys t).Nodup) :
    (keys (put t key new)).Nodup := by
  induction t with
  | nil => simp [put, keys]
  | cons entry rest ih =>
      obtain ⟨j, w⟩ := entry
      obtain ⟨hout, hrest⟩ := List.nodup_cons.mp h
      unfold put
      split
      case isTrue hj =>
        subst hj
        exact List.nodup_cons.mpr ⟨hout, hrest⟩
      case isFalse hj =>
        refine List.nodup_cons.mpr ⟨fun hmem => ?_, ih hrest⟩
        rcases mem_keys_put.mp hmem with heq | hmem
        · exact hj heq
        · exact hout hmem

end Table

end Base
