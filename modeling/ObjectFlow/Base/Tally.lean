import Mathlib.Algebra.BigOperators.Group.List.Basic
import Mathlib.Algebra.Ring.Int.Defs
import Mathlib.Data.List.Perm.Lattice
import Mathlib.Tactic.Ring
import ObjectFlow.Base.Table

/-!
# Counts by key

A tally holds how many of each key there are.  Adding to it adds to every
weight of it, a weight being a sum over its keys; and tallies with the same keys
and the same weights are one, whatever the order they were added in.
-/

namespace Base

namespace Tally

variable {κ : Type*} [DecidableEq κ]

/-- A tally with so many more of a key. -/
def add (t : Table κ Int) (key : κ) (n : Int) : Table κ Int :=
  Table.put t key (((Table.get? t key).getD 0) + n)

/-- A tally with each entry's count added. -/
def addAll (t : Table κ Int) (entries : List (κ × Int)) : Table κ Int :=
  entries.foldl (fun t e => add t e.1 e.2) t

/-- A weight of counts, by what each of a key weighs. -/
def weigh (f : κ → Int) (entries : List (κ × Int)) : Int :=
  (entries.map fun e => e.2 * f e.1).sum

omit [DecidableEq κ] in
@[simp] theorem weigh_nil (f : κ → Int) : weigh f [] = 0 := rfl

omit [DecidableEq κ] in
@[simp] theorem weigh_cons (f : κ → Int) (e : κ × Int) (rest : List (κ × Int)) :
    weigh f (e :: rest) = e.2 * f e.1 + weigh f rest := by
  simp [weigh]

omit [DecidableEq κ] in
theorem weigh_append (f : κ → Int) (first rest : List (κ × Int)) :
    weigh f (first ++ rest) = weigh f first + weigh f rest := by
  simp [weigh]

omit [DecidableEq κ] in
theorem weigh_perm (f : κ → Int) {t t' : List (κ × Int)} (h : t.Perm t') :
    weigh f t = weigh f t' := (h.map _).sum_eq

/-- Adding to a tally adds to its weight. -/
theorem weigh_add (f : κ → Int) (t : Table κ Int) (key : κ) (n : Int) :
    weigh f (add t key n) = weigh f t + n * f key := by
  unfold add
  induction t with
  | nil => simp [Table.put]
  | cons e rest ih =>
    obtain ⟨k, v⟩ := e
    rw [Table.put, Table.get?_cons]
    by_cases hk : k = key
    · subst hk
      rw [if_pos rfl, if_pos rfl, weigh_cons, weigh_cons, Option.getD_some]
      ring
    · rw [if_neg hk, if_neg hk, weigh_cons, weigh_cons, ih]
      ring

theorem weigh_addAll (f : κ → Int) (t : Table κ Int) (entries : List (κ × Int)) :
    weigh f (addAll t entries) = weigh f t + weigh f entries := by
  induction entries generalizing t with
  | nil => simp [addAll]
  | cons e rest ih =>
    have hstep : addAll t (e :: rest) = addAll (add t e.1 e.2) rest := rfl
    rw [hstep, ih, weigh_add, weigh_cons]
    ring

theorem mem_keys_addAll (t : Table κ Int) (entries : List (κ × Int)) (k : κ) :
    k ∈ Table.keys (addAll t entries) ↔ k ∈ Table.keys t ∨ k ∈ entries.map Prod.fst := by
  induction entries generalizing t with
  | nil => simp [addAll]
  | cons e rest ih =>
    have hstep : addAll t (e :: rest) = addAll (add t e.1 e.2) rest := rfl
    rw [hstep, ih, add, Table.mem_keys_put, List.map_cons, List.mem_cons]
    tauto

theorem nodup_addAll {t : Table κ Int} (h : (Table.keys t).Nodup) (entries : List (κ × Int)) :
    (Table.keys (addAll t entries)).Nodup := by
  induction entries generalizing t with
  | nil => exact h
  | cons e rest ih => exact ih (Table.nodup_keys_put _ _ h)

/-- What weighs the entries of one key. -/
def only (key : κ) (k : κ) : Int := if k = key then 1 else 0

theorem weigh_only_of_not_mem {t : Table κ Int} {key : κ} (h : key ∉ Table.keys t) :
    weigh (only key) t = 0 := by
  induction t with
  | nil => rfl
  | cons e rest ih =>
    have hne : e.1 ≠ key := fun heq => h (heq ▸ List.mem_cons_self)
    have hrest : key ∉ Table.keys rest := fun hmem => h (List.mem_cons_of_mem _ hmem)
    rw [weigh_cons, ih hrest, only, if_neg hne]
    ring

/-- A key's count is the weight of its entries. -/
theorem get?_eq_weigh {t : Table κ Int} (h : (Table.keys t).Nodup) {key : κ}
    (hkey : key ∈ Table.keys t) : Table.get? t key = some (weigh (only key) t) := by
  induction t with
  | nil => cases hkey
  | cons e rest ih =>
    obtain ⟨k, v⟩ := e
    obtain ⟨hout, hrest⟩ := List.nodup_cons.mp h
    rw [Table.get?_cons, weigh_cons]
    by_cases hk : k = key
    · subst hk
      rw [if_pos rfl, weigh_only_of_not_mem hout, only, if_pos rfl]
      simp
    · have hmem := (List.mem_cons.mp hkey).resolve_left (Ne.symm hk)
      rw [if_neg hk, ih hrest hmem, only, if_neg hk]
      simp

/-- Tallies of the same keys and weights are one another's entries. -/
theorem perm_of_weigh {t t' : Table κ Int} (h : (Table.keys t).Nodup) (h' : (Table.keys t').Nodup)
    (hkeys : ∀ k, k ∈ Table.keys t ↔ k ∈ Table.keys t')
    (hweigh : ∀ f, weigh f t = weigh f t') : t.Perm t' := by
  have hget : ∀ k, Table.get? t k = Table.get? t' k := by
    intro k
    by_cases hk : k ∈ Table.keys t
    · rw [get?_eq_weigh h hk, get?_eq_weigh h' ((hkeys k).mp hk), hweigh]
    · have hnone : ∀ {t : Table κ Int}, k ∉ Table.keys t → Table.get? t k = none := by
        intro t hk
        rw [Option.eq_none_iff_forall_ne_some]
        intro v hv
        exact hk (List.mem_map.mpr ⟨_, Table.mem_of_get? hv, rfl⟩)
      rw [hnone hk, hnone fun hk' => hk ((hkeys k).mpr hk')]
  rw [List.perm_ext_iff_of_nodup (List.Nodup.of_map _ h) (List.Nodup.of_map _ h')]
  rintro ⟨k, n⟩
  constructor
  · intro hmem
    exact Table.mem_of_get? ((hget k).symm.trans (Table.get?_of_mem h hmem))
  · intro hmem
    exact Table.mem_of_get? ((hget k).trans (Table.get?_of_mem h' hmem))

end Tally

end Base
