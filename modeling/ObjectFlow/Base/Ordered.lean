import Mathlib
import ObjectFlow.Base.Table

/-!
# Tables in order

Over keys in a linear order, a table built by `set` lists its keys in strict
order, each once, and which they are depends on the keys set alone.
-/

namespace Base

namespace Table

variable {κ ν μ : Type*} [LinearOrder κ]

/-- A table whose keys are in strict order. -/
def Ordered (t : Table κ ν) : Prop := (keys t).Pairwise (· < ·)

theorem ordered_nil : Ordered ([] : Table κ ν) := List.Pairwise.nil

theorem Ordered.nodup {t : Table κ ν} (h : Ordered t) : (keys t).Nodup :=
  h.imp ne_of_lt

theorem mem_keys_set {t : Table κ ν} {key k : κ} {new : ν} :
    k ∈ keys (set t key new) ↔ k = key ∨ k ∈ keys t := by
  induction t with
  | nil => simp [set, keys]
  | cons entry rest ih =>
    obtain ⟨j, v⟩ := entry
    unfold keys at ih ⊢
    rw [set]
    by_cases hj : j = key
    · simp [hj]
    · rw [if_neg hj]
      by_cases hlt : key < j
      · simp [if_pos hlt]
      · rw [if_neg hlt, List.map_cons, List.mem_cons, ih, List.map_cons, List.mem_cons]
        tauto

/-- Setting a key keeps a table in order. -/
theorem Ordered.set {t : Table κ ν} (h : Ordered t) (key : κ) (new : ν) :
    Ordered (set t key new) := by
  induction t with
  | nil => exact List.pairwise_singleton _ _
  | cons entry rest ih =>
    obtain ⟨j, v⟩ := entry
    obtain ⟨hfirst, hrest⟩ := List.pairwise_cons.mp h
    rw [Table.set]
    by_cases hj : j = key
    · rw [if_pos hj]
      subst hj
      exact h
    · rw [if_neg hj]
      by_cases hlt : key < j
      · rw [if_pos hlt]
        apply List.Pairwise.cons _ h
        intro k hk
        rcases List.mem_cons.mp hk with rfl | hk
        · exact hlt
        · exact lt_trans hlt (hfirst k hk)
      · rw [if_neg hlt]
        apply List.Pairwise.cons _ (ih hrest)
        intro k hk
        rcases mem_keys_set.mp hk with rfl | hk
        · exact lt_of_le_of_ne (not_lt.mp hlt) hj
        · exact hfirst k hk

/-- Which keys setting leaves depends on the keys alone. -/
theorem keys_set_congr {t : Table κ ν} {u : Table κ μ} (h : keys t = keys u) (key : κ) (new : ν)
    (new' : μ) : keys (Table.set t key new) = keys (Table.set u key new') := by
  induction t generalizing u with
  | nil =>
    cases u with
    | nil => rfl
    | cons entry rest => cases h
  | cons entry rest ih =>
    cases u with
    | nil => cases h
    | cons entry' rest' =>
      obtain ⟨j, v⟩ := entry
      obtain ⟨j', v'⟩ := entry'
      obtain ⟨hj, hrest⟩ := List.cons.inj h
      dsimp only at hj
      subst hj
      rw [Table.set, Table.set]
      by_cases heq : j = key
      · rw [if_pos heq, if_pos heq]
        exact congrArg (key :: ·) hrest
      · rw [if_neg heq, if_neg heq]
        by_cases hlt : key < j
        · rw [if_pos hlt, if_pos hlt]
          exact congrArg (fun ks => key :: j :: ks) hrest
        · rw [if_neg hlt, if_neg hlt]
          exact congrArg (j :: ·) (ih hrest)

section Build

variable {α : Type*} (name : α → κ)

theorem keys_foldl_set (value : α → ν) (value' : α → μ) (items : List α) {t : Table κ ν}
    {u : Table κ μ} (h : keys t = keys u) :
    keys (items.foldl (fun t x => Table.set t (name x) (value x)) t) =
      keys (items.foldl (fun u x => Table.set u (name x) (value' x)) u) := by
  induction items generalizing t u with
  | nil => exact h
  | cons x rest ih => exact ih (keys_set_congr h _ _ _)

theorem ordered_foldl_set (value : α → ν) (items : List α) {t : Table κ ν} (h : Ordered t) :
    Ordered (items.foldl (fun t x => Table.set t (name x) (value x)) t) := by
  induction items generalizing t with
  | nil => exact h
  | cons x rest ih => exact ih (h.set _ _)

theorem mem_keys_foldl_set (value : α → ν) (items : List α) (t : Table κ ν) (k : κ) :
    k ∈ keys (items.foldl (fun t x => Table.set t (name x) (value x)) t) ↔
      k ∈ keys t ∨ k ∈ items.map name := by
  induction items generalizing t with
  | nil => simp
  | cons x rest ih =>
    rw [List.foldl_cons, ih, mem_keys_set, List.map_cons, List.mem_cons]
    tauto

/-- A table built of a value for each name holds a name's value. -/
theorem get?_foldl_set (value : κ → ν) (items : List α) {t : Table κ ν} {k : κ}
    (h : get? t k = some (value k) ∨ k ∈ items.map name) :
    get? (items.foldl (fun t x => Table.set t (name x) (value (name x))) t) k =
      some (value k) := by
  induction items generalizing t with
  | nil =>
    rcases h with h | h
    · exact h
    · cases h
  | cons x rest ih =>
    rw [List.foldl_cons]
    apply ih
    by_cases hk : name x = k
    · left
      rw [hk, get?_set_self]
    · rcases h with h | h
      · left
        rw [get?_set_of_ne _ _ hk, h]
      · rw [List.map_cons, List.mem_cons] at h
        exact .inr (h.resolve_left (Ne.symm hk))

end Build

end Table

end Base
