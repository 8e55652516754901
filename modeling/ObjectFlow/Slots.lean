import ObjectFlow.Base.Postings
import ObjectFlow.Base.Shared

/-!
# Slots that only grow

A world holds its objects in slots, in chunks of which the k-th has 2^k, so a
slot is found by its number and one written never moves.  Each slot holds a
counted pointer, which another world may hold too, and a change through one
copies the value only while it is shared.
-/

namespace ObjectFlow

open Base

/-- The number of chunks, the k-th holding 2^k slots. -/
def CHUNKS : Nat := 48

/-- How many slots there are in all. -/
def SLOTS : Nat := 2 ^ CHUNKS - 1

/-- A world's slots: each chunk made, its slots written or not, and how many
are. -/
structure Slots where
  chunks : List (Option (List (Option Nat))) := List.replicate CHUNKS none
  len : Nat := 0

namespace Slots

/-- The chunk the n-th slot is in, and its place there. -/
def place (n : Nat) : Option (Nat × Nat) :=
  if n + 1 < 2 ^ 64 then some ((n + 1).log2, n + 1 - 2 ^ (n + 1).log2) else none

variable (s : Slots)

/-- What a slot of a chunk holds, where it is written. -/
def slot (k i : Nat) : Option Nat := ((s.chunks[k]?.join).bind (·[i]?)).join

/-- The n-th pointer. -/
def getShared (n : Nat) : Option Nat := (place n).bind fun (k, i) => s.slot k i

/-- A slot written with a pointer, and its number; none past the last chunk. -/
def pushShared (p : Nat) : Slots × Option Nat :=
  match place s.len with
  | none => (s, none)
  | some (k, i) =>
      match s.chunks[k]? with
      | none => (s, none)
      | some made =>
          let chunk := made.getD (List.replicate (2 ^ k) none)
          match chunk[i]? with
          | some none =>
              ({ chunks := s.chunks.set k (some (chunk.set i (some p))), len := s.len + 1 },
                some s.len)
          | _ => ({ s with chunks := s.chunks.set k (some chunk) }, none)

/-- The n-th slot with another pointer in it. -/
def withSlot (n p : Nat) : Slots :=
  match place n with
  | none => s
  | some (k, i) =>
      match s.chunks[k]? with
      | some (some chunk) => { s with chunks := s.chunks.set k (some (chunk.set i (some p))) }
      | _ => s

/-- Every pointer written, in the order of its slots, each chunk after another. -/
def intoShared : List Nat := ((s.chunks.filterMap id).flatten).filterMap id

/-- The pointers written, each slot after another. -/
def iter : List Nat := (List.range s.len).filterMap s.getShared

/-! ### The slots are a list -/

/-- Slots that hold the pointers of a list, the n-th in the n-th slot. -/
structure Represents (ptrs : List Nat) : Prop where
  chunked : s.chunks.length = CHUNKS
  sized : ∀ k chunk, s.chunks[k]? = some (some chunk) → chunk.length = 2 ^ k
  len : s.len = ptrs.length
  fits : ptrs.length ≤ SLOTS
  slots : ∀ k i, k < CHUNKS → i < 2 ^ k → s.slot k i = ptrs[2 ^ k - 1 + i]?

theorem place_eq_some {n k i : Nat} :
    place n = some (k, i) ↔ n + 1 < 2 ^ 64 ∧ n = 2 ^ k - 1 + i ∧ i < 2 ^ k := by
  unfold place
  have hlog := Nat.log2_eq_iff (n := n + 1) (k := k) (Nat.succ_ne_zero n)
  have hpow := Nat.two_pow_pos k
  have hdouble : 2 ^ (k + 1) = 2 * 2 ^ k := by rw [Nat.pow_succ, Nat.mul_comm]
  constructor
  · intro h
    split at h
    case isTrue hlt =>
      obtain ⟨hk, hi⟩ := Prod.mk.inj (Option.some.inj h)
      have hbounds := hlog.mp hk
      rw [hk] at hi
      omega
    case isFalse => cases h
  · intro ⟨hlt, hn, hi⟩
    have hk : (n + 1).log2 = k := hlog.mpr (by omega)
    rw [if_pos hlt, hk]
    refine congrArg some (Prod.ext rfl ?_)
    show n + 1 - 2 ^ k = i
    omega

variable {s} {ptrs : List Nat}

theorem represents_empty : ({} : Slots).Represents [] where
  chunked := List.length_replicate
  sized k chunk h := by
    rw [List.getElem?_replicate] at h
    split at h <;> cases h
  len := rfl
  fits := Nat.zero_le _
  slots k i hk _ := by
    have hnone : ({} : Slots).chunks[k]? = some none := List.getElem?_replicate_of_lt hk
    simp [slot, hnone]

/-- A slot past the last chunk holds nothing. -/
theorem Represents.past (h : s.Represents ptrs) {k i : Nat} (hk : CHUNKS ≤ k) :
    s.slot k i = none := by
  have hnone : s.chunks[k]? = none := List.getElem?_eq_none (by rw [h.chunked]; exact hk)
  simp [slot, hnone]

/-- **Reading a slot** reads the list there. -/
theorem Represents.getShared (h : s.Represents ptrs) (n : Nat) : s.getShared n = ptrs[n]? := by
  have hfits := h.fits
  have hslots : SLOTS < 2 ^ 64 - 1 := by decide
  unfold Slots.getShared
  cases hplace : place n with
  | none =>
      unfold place at hplace
      split at hplace
      case isTrue => cases hplace
      case isFalse hlarge =>
        rw [List.getElem?_eq_none (by omega)]
        rfl
  | some at' =>
      obtain ⟨k, i⟩ := at'
      obtain ⟨-, hn, hi⟩ := place_eq_some.mp hplace
      show s.slot k i = ptrs[n]?
      by_cases hk : k < CHUNKS
      · rw [h.slots k i hk hi, hn]
      · have hpow : 2 ^ CHUNKS ≤ 2 ^ k := Nat.pow_le_pow_right (by decide) (Nat.le_of_not_lt hk)
        have hlarge : ptrs.length ≤ n := by
          unfold SLOTS at hfits
          omega
        rw [h.past (Nat.le_of_not_lt hk), List.getElem?_eq_none hlarge]

theorem Represents.iter (h : s.Represents ptrs) : s.iter = ptrs := by
  unfold Slots.iter
  rw [h.len, List.filterMap_congr fun n _ => h.getShared n, filterMap_range]

/-- What each slot holds once one of a chunk is written. -/
theorem slot_write {k i p len : Nat} {made : Option (List (Option Nat))} {chunk : List (Option Nat)}
    (hmade : s.chunks[k]? = some made) (hchunk : chunk = made.getD (List.replicate (2 ^ k) none))
    (hi : i < chunk.length) (k' i' : Nat) :
    slot { chunks := s.chunks.set k (some (chunk.set i (some p))), len } k' i' =
      if k' = k ∧ i' = i then some p else s.slot k' i' := by
  have hk : k < s.chunks.length := (List.getElem?_eq_some_iff.mp hmade).1
  unfold slot
  by_cases hkk : k' = k
  · subst hkk
    rw [List.getElem?_set_self hk, hmade]
    by_cases hii : i' = i
    · subst hii
      simp [hi]
    · have held : (chunk[i']?).join = (made.bind (·[i']?)).join := by
        subst hchunk
        cases made with
        | none => simp [List.getElem?_replicate]; split <;> rfl
        | some c => rfl
      simp [hii, Ne.symm hii, held]
  · rw [List.getElem?_set_ne (Ne.symm hkk), if_neg fun h => hkk h.1]

/-- A chunk is written, or has all its slots to be. -/
theorem Represents.chunk_length (h : s.Represents ptrs) {k : Nat}
    {made : Option (List (Option Nat))} (hmade : s.chunks[k]? = some made) :
    (made.getD (List.replicate (2 ^ k) none)).length = 2 ^ k := by
  cases made with
  | none => exact List.length_replicate
  | some chunk => exact h.sized k chunk hmade

/-- One slot written leaves each chunk as long as it was. -/
theorem Represents.written (h : s.Represents ptrs) {k i p len : Nat}
    {made : Option (List (Option Nat))} (hmade : s.chunks[k]? = some made)
    (hi : i < 2 ^ k) {ptrs' : List Nat} (hlen : len = ptrs'.length) (hfits : ptrs'.length ≤ SLOTS)
    (hat : ptrs'[2 ^ k - 1 + i]? = some p)
    (hother : ∀ n, n ≠ 2 ^ k - 1 + i → ptrs'[n]? = ptrs[n]?) :
    Represents
      ⟨s.chunks.set k (some ((made.getD (List.replicate (2 ^ k) none)).set i (some p))), len⟩
      ptrs' where
  chunked := by
    rw [List.length_set]
    exact h.chunked
  sized k' chunk' hchunk' := by
    dsimp only at hchunk'
    by_cases hkk : k' = k
    · subst hkk
      rw [List.getElem?_set_self (List.getElem?_eq_some_iff.mp hmade).1] at hchunk'
      cases hchunk'
      rw [List.length_set]
      exact h.chunk_length hmade
    · rw [List.getElem?_set_ne (Ne.symm hkk)] at hchunk'
      exact h.sized k' chunk' hchunk'
  len := hlen
  fits := hfits
  slots k' i' hk' hi' := by
    rw [slot_write hmade rfl (by rw [h.chunk_length hmade]; exact hi)]
    split
    case isTrue hsame =>
      obtain ⟨rfl, rfl⟩ := hsame
      exact hat.symm
    case isFalse hne =>
      -- slots of one place are one, so another slot holds what it held
      have hapart : 2 ^ k' - 1 + i' ≠ 2 ^ k - 1 + i := by
        intro heq
        have hbig : ∀ {k i : Nat}, k < CHUNKS → i < 2 ^ k → 2 ^ k - 1 + i + 1 < 2 ^ 64 := by
          intro k i hk hi
          have hpow : 2 ^ (k + 1) ≤ 2 ^ CHUNKS := Nat.pow_le_pow_right (by decide) hk
          have hchunks : 2 ^ CHUNKS < 2 ^ 64 := by decide
          rw [Nat.pow_succ] at hpow
          omega
        have hk : k < CHUNKS := h.chunked ▸ (List.getElem?_eq_some_iff.mp hmade).1
        have hplace := place_eq_some.mpr ⟨hbig hk' hi', rfl, hi'⟩
        rw [heq, place_eq_some.mpr ⟨hbig hk hi, rfl, hi⟩] at hplace
        obtain ⟨hkk, hii⟩ := Prod.mk.inj (Option.some.inj hplace)
        exact hne ⟨hkk.symm, hii.symm⟩
      rw [h.slots k' i' hk' hi', hother _ hapart]

/-- Where a slot that may be written is. -/
theorem Represents.placed (h : s.Represents ptrs) {n : Nat} (hn : n < SLOTS) :
    ∃ k i made, place n = some (k, i) ∧ n = 2 ^ k - 1 + i ∧ i < 2 ^ k ∧ k < CHUNKS ∧
      s.chunks[k]? = some made := by
  have hslots : SLOTS < 2 ^ 64 - 1 := by decide
  cases hplace : place n with
  | none =>
      unfold place at hplace
      rw [if_pos (by omega)] at hplace
      cases hplace
  | some found =>
      obtain ⟨k, i⟩ := found
      obtain ⟨-, hsum, hi⟩ := place_eq_some.mp hplace
      have hk : k < CHUNKS := by
        by_contra hlarge
        have hpow : 2 ^ CHUNKS ≤ 2 ^ k := Nat.pow_le_pow_right (by decide) (Nat.le_of_not_lt hlarge)
        unfold SLOTS at hn
        omega
      have hchunk : k < s.chunks.length := by
        rw [h.chunked]
        exact hk
      exact ⟨k, i, _, rfl, hsum, hi, hk, List.getElem?_eq_getElem hchunk⟩

/-- **A slot written** holds the pointer given after those before it; past the
last chunk nothing is written. -/
theorem Represents.pushShared (h : s.Represents ptrs) (p : Nat) :
    if ptrs.length < SLOTS then
      (s.pushShared p).2 = some ptrs.length ∧ (s.pushShared p).1.Represents (ptrs ++ [p])
    else s.pushShared p = (s, none) := by
  have hfits := h.fits
  split
  case isTrue hroom =>
    obtain ⟨k, i, made, hplace, hsum, hi, hk, hmade⟩ := h.placed hroom
    have hchunk : i < (made.getD (List.replicate (2 ^ k) none)).length := by
      rw [h.chunk_length hmade]
      exact hi
    have hempty : (made.getD (List.replicate (2 ^ k) none))[i]? = some none := by
      have hslot : s.slot k i = none := by
        rw [h.slots k i hk hi, List.getElem?_eq_none (by omega)]
      unfold slot at hslot
      rw [hmade] at hslot
      cases made with
      | none => exact List.getElem?_replicate_of_lt hi
      | some chunk =>
          rw [Option.getD_some] at hchunk ⊢
          simpa [List.getElem?_eq_getElem hchunk] using hslot
    have hpushed : s.pushShared p =
        (⟨s.chunks.set k (some ((made.getD (List.replicate (2 ^ k) none)).set i (some p))),
          s.len + 1⟩, some s.len) := by
      unfold Slots.pushShared
      rw [h.len, hplace]
      dsimp only
      rw [hmade]
      dsimp only
      rw [hempty]
    rw [hpushed]
    refine ⟨congrArg some h.len, h.written hmade hi ?_ ?_ ?_ fun n hn => ?_⟩
    · rw [List.length_append, h.len]
      rfl
    · rw [List.length_append]
      exact hroom
    · rw [← hsum]
      exact List.getElem?_concat_length
    · have hlength : (ptrs ++ [p]).length = ptrs.length + 1 := List.length_append
      rw [← hsum] at hn
      by_cases hlt : n < ptrs.length
      · exact List.getElem?_append_left hlt
      · rw [List.getElem?_eq_none (by omega), List.getElem?_eq_none (by omega)]
  case isFalse hfull =>
    have hlen : s.len = SLOTS := by
      rw [h.len]
      omega
    have hplace : place s.len = some (CHUNKS, 0) := by
      rw [hlen]
      decide
    have hchunk : s.chunks[CHUNKS]? = none := List.getElem?_eq_none (Nat.le_of_eq h.chunked)
    unfold Slots.pushShared
    rw [hplace]
    dsimp only
    rw [hchunk]

/-- **A slot written again** holds the pointer given, and every other slot what it
held. -/
theorem Represents.withSlot (h : s.Represents ptrs) {n : Nat} (hn : n < ptrs.length) (p : Nat) :
    (s.withSlot n p).Represents (ptrs.set n p) := by
  have hfits := h.fits
  obtain ⟨k, i, made, hplace, hsum, hi, hk, hmade⟩ := h.placed (n := n) (by omega)
  have hheld : ∃ chunk, made = some chunk := by
    have hslot : s.slot k i = some ptrs[n] := by
      rw [h.slots k i hk hi, ← hsum, List.getElem?_eq_getElem hn]
    unfold slot at hslot
    rw [hmade] at hslot
    cases made with
    | none => cases hslot
    | some chunk => exact ⟨chunk, rfl⟩
  obtain ⟨chunk, rfl⟩ := hheld
  unfold Slots.withSlot
  rw [hplace]
  dsimp only
  rw [hmade]
  dsimp only
  refine h.written hmade hi ?_ ?_ ?_ fun m hm => ?_
  · rw [List.length_set]
    exact h.len
  · rw [List.length_set]
    exact hfits
  · rw [← hsum]
    exact List.getElem?_set_self hn
  · exact List.getElem?_set_ne (by omega)

/-- The entries written of a list's first ones are the list's first ones. -/
theorem filterMap_written {chunk : List (Option Nat)} {l : List Nat}
    (h : ∀ i < chunk.length, (chunk[i]?).join = l[i]?) :
    chunk.filterMap id = l.take chunk.length := by
  induction chunk generalizing l with
  | nil => rfl
  | cons c rest ih =>
      have hfirst : c = l[0]? := h 0 (Nat.succ_pos _)
      cases l with
      | nil =>
          have hrest := ih (l := []) fun i hi => h (i + 1) (Nat.succ_lt_succ hi)
          rw [List.take_nil] at hrest ⊢
          rw [hfirst, List.filterMap_cons_none rfl, hrest]
      | cons a others =>
          have hrest := ih (l := others) fun i hi => h (i + 1) (Nat.succ_lt_succ hi)
          have ha : c = some a := hfirst
          rw [ha]
          exact congrArg (a :: ·) hrest

/-- The slots of the first chunks, one after another, are the first pointers. -/
theorem Represents.first_chunks (h : s.Represents ptrs) (m : Nat) (hm : m ≤ CHUNKS) :
    (((s.chunks.take m).filterMap id).flatten).filterMap id = ptrs.take (2 ^ m - 1) := by
  induction m with
  | zero => rfl
  | succ m ih =>
      have hlt : m < s.chunks.length := by
        rw [h.chunked]
        exact hm
      have hpow := Nat.two_pow_pos m
      have hdouble : 2 ^ (m + 1) - 1 = 2 ^ m - 1 + 2 ^ m := by
        rw [Nat.pow_succ]
        omega
      rw [List.take_add_one, List.getElem?_eq_getElem hlt, Option.toList_some, List.filterMap_append,
        List.flatten_append, List.filterMap_append, ih (Nat.le_of_succ_le hm), hdouble, List.take_add]
      refine congrArg _ ?_
      cases hmade : s.chunks[m] with
      | none =>
          -- a chunk not made has no first slot written, so no pointer is past it
          have hslot : ptrs[2 ^ m - 1]? = none := by
            rw [← Nat.add_zero (2 ^ m - 1), ← h.slots m 0 hm hpow, slot,
              List.getElem?_eq_getElem hlt, hmade]
            rfl
          rw [List.drop_eq_nil_of_le (List.getElem?_eq_none_iff.mp hslot), List.take_nil]
          rfl
      | some chunk =>
          have hchunk : s.chunks[m]? = some (some chunk) := by
            rw [List.getElem?_eq_getElem hlt, hmade]
          have hlength := h.sized m chunk hchunk
          rw [← hlength, ← filterMap_written fun i hi => ?_]
          · simp
          · rw [List.getElem?_drop, hlength, ← h.slots m i hm (hlength ▸ hi), slot, hchunk]
            rfl

/-- **The slots taken out** are in the order they were written. -/
theorem Represents.intoShared (h : s.Represents ptrs) : s.intoShared = ptrs := by
  have hall := h.first_chunks CHUNKS (Nat.le_refl _)
  have hfits : ptrs.length ≤ 2 ^ CHUNKS - 1 := h.fits
  rwa [List.take_of_length_le (Nat.le_of_eq h.chunked), List.take_of_length_le hfits] at hall

end Slots

end ObjectFlow
