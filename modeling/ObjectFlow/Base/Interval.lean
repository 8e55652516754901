import Mathlib

/-!
# Intervals of time

Half-open intervals of whole seconds: how much of one others take up, one cut
at the boundaries of the cells time is divided in, and what it is for pieces
with their own durations to partition one.
-/

namespace Base

/-- A stretch from its first second up to and not including its last. -/
abbrev Interval := Int × Int

namespace Interval

/-! ### Time the stretches given take up -/

/-- How many of the stretches a second is in. -/
def times (taken : List Interval) (t : Int) : Nat :=
  taken.countP fun s => s.1 ≤ t ∧ t < s.2

/-- The seconds between two that each stretch takes up, one after another. -/
def shut (taken : List Interval) (low high : Int) : Int :=
  (taken.map fun s => max (min high s.2 - max low s.1) 0).sum

/-- The seconds between two that no stretch takes up. -/
noncomputable def free (taken : List Interval) (low high : Int) : Int :=
  ((Finset.Ico low high).filter fun t => times taken t = 0).card

theorem shared_eq_sum (s : Interval) (low high : Int) :
    max (min high s.2 - max low s.1) 0 =
      ∑ t ∈ Finset.Ico low high, if s.1 ≤ t ∧ t < s.2 then (1 : Int) else 0 := by
  have hfilter : (Finset.Ico low high).filter (fun t => s.1 ≤ t ∧ t < s.2) =
      Finset.Ico (max low s.1) (min high s.2) := by
    ext t
    simp only [Finset.mem_filter, Finset.mem_Ico]
    omega
  rw [Finset.sum_boole, hfilter, Int.card_Ico]
  omega

/-- Each second counts once for every stretch it is in. -/
theorem shut_eq_sum (taken : List Interval) (low high : Int) :
    shut taken low high = ∑ t ∈ Finset.Ico low high, (times taken t : Int) := by
  induction taken with
  | nil => simp [shut, times]
  | cons s rest ih =>
    have hrest : shut (s :: rest) low high =
        max (min high s.2 - max low s.1) 0 + shut rest low high := by
      simp only [shut, List.map_cons, List.sum_cons]
    rw [hrest, ih, shared_eq_sum, ← Finset.sum_add_distrib]
    apply Finset.sum_congr rfl
    intro t _
    by_cases h : s.1 ≤ t ∧ t < s.2 <;> simp [times, h, add_comm]

theorem length_eq_sum {low high : Int} (h : low ≤ high) :
    high - low = ∑ _t ∈ Finset.Ico low high, (1 : Int) := by
  rw [Finset.sum_const, Int.card_Ico]
  simp [h]

theorem free_eq_sum (taken : List Interval) (low high : Int) :
    free taken low high =
      ∑ t ∈ Finset.Ico low high, if times taken t = 0 then (1 : Int) else 0 := by
  rw [Finset.sum_boole, free]

/-- What is left of a stretch is its free seconds exactly where no second of it
is taken twice. -/
theorem length_sub_shut_iff (taken : List Interval) {low high : Int} (h : low ≤ high) :
    high - low - shut taken low high = free taken low high ↔
      ∀ t, low ≤ t → t < high → times taken t ≤ 1 := by
  have hle : ∀ t ∈ Finset.Ico low high,
      (1 : Int) - (times taken t : Int) ≤ if times taken t = 0 then 1 else 0 := by
    intro t _
    split <;> omega
  rw [length_eq_sum h, shut_eq_sum, free_eq_sum, ← Finset.sum_sub_distrib,
    Finset.sum_eq_sum_iff_of_le hle]
  constructor
  · intro heq t hlow hhigh
    have ht := heq t (Finset.mem_Ico.mpr ⟨hlow, hhigh⟩)
    split at ht <;> omega
  · intro honce t ht
    obtain ⟨hlow, hhigh⟩ := Finset.mem_Ico.mp ht
    have ht := honce t hlow hhigh
    split <;> omega

/-- A stretch is all free exactly where no second of it is taken. -/
theorem free_eq_length_iff (taken : List Interval) {low high : Int} (h : low ≤ high) :
    high - low = free taken low high ↔ ∀ t, low ≤ t → t < high → times taken t = 0 := by
  have hle : ∀ t ∈ Finset.Ico low high,
      (if times taken t = 0 then (1 : Int) else 0) ≤ 1 := by
    intro t _
    split <;> omega
  rw [eq_comm, length_eq_sum h, free_eq_sum, Finset.sum_eq_sum_iff_of_le hle]
  constructor
  · intro heq t hlow hhigh
    have ht := heq t (Finset.mem_Ico.mpr ⟨hlow, hhigh⟩)
    by_contra htaken
    rw [if_neg htaken] at ht
    omega
  · intro hnone t ht
    obtain ⟨hlow, hhigh⟩ := Finset.mem_Ico.mp ht
    rw [if_pos (hnone t hlow hhigh)]

/-- A stretch has no free second exactly where each is taken. -/
theorem free_eq_zero_iff (taken : List Interval) (low high : Int) :
    free taken low high = 0 ↔ ∀ t, low ≤ t → t < high → times taken t ≠ 0 := by
  unfold free
  rw [Int.natCast_eq_zero, Finset.card_eq_zero, Finset.filter_eq_empty_iff]
  simp only [Finset.mem_Ico]
  exact ⟨fun h t hlow hhigh => h ⟨hlow, hhigh⟩, fun h t ht => h t ht.1 ht.2⟩

theorem free_of_le (taken : List Interval) {low high : Int} (h : high ≤ low) :
    free taken low high = 0 := by
  rw [free_eq_zero_iff]
  intro t hlow hhigh
  omega

theorem free_add (taken : List Interval) {low mid high : Int} (h : low ≤ mid) (h' : mid ≤ high) :
    free taken low high = free taken low mid + free taken mid high := by
  have hunion : Finset.Ico low mid ∪ Finset.Ico mid high = Finset.Ico low high :=
    Finset.Ico_union_Ico_eq_Ico h h'
  simp only [free_eq_sum]
  rw [← hunion, Finset.sum_union (Finset.Ico_disjoint_Ico_consecutive low mid high)]

/-! ### A stretch cut where its cells end -/

/-- A stretch cut at every boundary it crosses, `next` the first after a
second. -/
def cuts (next : Int → Int) (stop : Int) : Nat → Int → List Interval
  | 0, _ => []
  | fuel + 1, low =>
      let cut := min (next low) stop
      (low, cut) :: if stop ≤ cut then [] else cuts next stop fuel cut

/-- `next` is the first second of the cell after one's own. -/
structure Boundaries {κ : Type*} (cell : Int → κ) (next : Int → Int) : Prop where
  forward : ∀ t, t < next t
  same : ∀ {t s}, t ≤ s → (s < next t ↔ cell s = cell t)

/-- The parts of a stretch in one cell each, in order. -/
inductive Parts {κ : Type*} (cell : Int → κ) (stop : Int) : Int → List Interval → Prop
  | last {low} : low ≤ stop → (∀ t, low ≤ t → t < stop → cell t = cell low) →
      Parts cell stop low [(low, stop)]
  | step {low cut rest} : low < cut → cut < stop →
      (∀ t, low ≤ t → t < cut → cell t = cell low) → (∀ t, cut ≤ t → cell t ≠ cell low) →
      Parts cell stop cut rest → Parts cell stop low ((low, cut) :: rest)

section

variable {κ : Type*} {cell : Int → κ} {next : Int → Int}

/-- Cutting with enough steps reaches the end. -/
theorem cuts_parts (h : Boundaries cell next) {stop : Int} {fuel : Nat} :
    ∀ {low : Int}, low ≤ stop → (stop - low).toNat < fuel →
      Parts cell stop low (cuts next stop fuel low) := by
  induction fuel with
  | zero =>
    intro low _ hfuel
    omega
  | succ fuel ih =>
    intro low hlow hfuel
    have hforward := h.forward low
    unfold cuts
    dsimp only
    by_cases hend : stop ≤ next low
    · rw [min_eq_right hend, if_pos (le_refl stop)]
      apply Parts.last hlow
      intro t hlow' hstop
      exact (h.same hlow').mp (by omega)
    · rw [min_eq_left (by omega), if_neg hend]
      apply Parts.step hforward (by omega)
      · intro t hlow' hcut
        exact (h.same hlow').mp hcut
      · intro t hcut hsame
        have := (h.same (by omega)).mpr hsame
        omega
      · exact ih (by omega) (by omega)

/-- A stretch that ends before it begins is cut nowhere. -/
theorem cuts_inverted (h : ∀ t, t < next t) {stop low : Int} {fuel : Nat} (hlow : stop < low) :
    cuts next stop (fuel + 1) low = [(low, stop)] := by
  have hforward := h low
  unfold cuts
  dsimp only
  rw [min_eq_right (by omega), if_pos (le_refl stop)]

namespace Parts

variable {stop low : Int} {parts : List Interval}

/-- A part is within the stretch, in one cell, and holds all the stretch has of
that cell. -/
theorem part (h : Parts cell stop low parts) : ∀ p ∈ parts,
    low ≤ p.1 ∧ p.1 ≤ p.2 ∧ p.2 ≤ stop ∧
      (∀ t, p.1 ≤ t → t < p.2 → cell t = cell p.1) ∧
      (∀ t, low ≤ t → t < stop → cell t = cell p.1 → p.1 ≤ t ∧ t < p.2) := by
  induction h with
  | last hlow hcell =>
    intro p hp
    obtain rfl := List.mem_singleton.mp hp
    exact ⟨le_refl _, hlow, le_refl _, hcell, fun t h h' _ => ⟨h, h'⟩⟩
  | @step low cut rest hlow hcut hcell hother hrest ih =>
    intro p hp
    rcases List.mem_cons.mp hp with rfl | hp
    · refine ⟨le_refl _, by omega, by omega, hcell, fun t h _ hsame => ⟨h, ?_⟩⟩
      by_contra hbeyond
      exact hother t (by omega) hsame
    · obtain ⟨hfirst, hforward, hlast, hone, hall⟩ := ih p hp
      refine ⟨by omega, hforward, hlast, hone, fun t h h' hsame => ?_⟩
      by_cases hbefore : t < cut
      · have hlow' := hcell t h hbefore
        have hp' := hother p.1 hfirst
        exact absurd (hsame.symm.trans hlow') hp'
      · exact hall t (by omega) h' hsame

/-- Every second of the stretch is in a part. -/
theorem exists_part (h : Parts cell stop low parts) : ∀ t, low ≤ t → t < stop →
    ∃ p ∈ parts, p.1 ≤ t ∧ t < p.2 := by
  induction h with
  | last _ _ => exact fun t h h' => ⟨_, List.mem_singleton_self _, h, h'⟩
  | @step low cut rest hlow hcut hcell hother hrest ih =>
    intro t h h'
    by_cases hbefore : t < cut
    · exact ⟨_, List.mem_cons_self, h, hbefore⟩
    · obtain ⟨p, hp, hin⟩ := ih t (by omega) h'
      exact ⟨p, List.mem_cons_of_mem _ hp, hin⟩

/-- No two parts are in one cell. -/
theorem pairwise (h : Parts cell stop low parts) :
    parts.Pairwise fun p q => cell p.1 ≠ cell q.1 := by
  induction h with
  | last _ _ => exact List.pairwise_singleton _ _
  | step hlow hcut hcell hother hrest ih =>
    refine List.pairwise_cons.mpr ⟨fun q hq => ?_, ih⟩
    exact (hother q.1 (hrest.part q hq).1).symm

/-- Two parts that share a second are one. -/
theorem eq_of_mem (h : Parts cell stop low parts) {p q : Interval} (hp : p ∈ parts)
    (hq : q ∈ parts) {t : Int} (hpt : p.1 ≤ t ∧ t < p.2) (hqt : q.1 ≤ t ∧ t < q.2) : p = q := by
  obtain ⟨hp₁, hp₂, hp₃, hpone, hpall⟩ := h.part p hp
  obtain ⟨hq₁, hq₂, hq₃, hqone, hqall⟩ := h.part q hq
  have hsame : cell p.1 = cell q.1 :=
    (hpone t hpt.1 hpt.2).symm.trans (hqone t hqt.1 hqt.2)
  have hstart := hpall q.1 hq₁ (by omega) hsame.symm
  have hstart' := hqall p.1 hp₁ (by omega) hsame
  have hlast := hpall (q.2 - 1) (by omega) (by omega)
    ((hqone (q.2 - 1) (by omega) (by omega)).trans hsame.symm)
  have hlast' := hqall (p.2 - 1) (by omega) (by omega)
    ((hpone (p.2 - 1) (by omega) (by omega)).trans hsame)
  exact Prod.ext (by omega) (by omega)

/-- The parts that hold a second are the stretch's seconds in one cell. -/
theorem mem_iff (h : Parts cell stop low parts) {p : Interval} (hp : p.1 < p.2) :
    p ∈ parts ↔
      ∀ t, (p.1 ≤ t ∧ t < p.2) ↔ (low ≤ t ∧ t < stop ∧ cell t = cell p.1) := by
  constructor
  · intro hmem t
    obtain ⟨hfirst, _, hlast, hone, hall⟩ := h.part p hmem
    exact ⟨fun hin => ⟨by omega, by omega, hone t hin.1 hin.2⟩,
      fun hin => hall t hin.1 hin.2.1 hin.2.2⟩
  · intro hall
    obtain ⟨hlow, hstop, _⟩ := (hall p.1).mp ⟨le_refl _, hp⟩
    obtain ⟨q, hq, hin⟩ := h.exists_part p.1 hlow hstop
    obtain ⟨hq₁, hq₂, hq₃, hqone, hqall⟩ := h.part q hq
    have hsame := hqone p.1 hin.1 hin.2
    have hstart := (hall q.1).mpr ⟨hq₁, by omega, hsame.symm⟩
    have hend := (hall (q.2 - 1)).mpr
      ⟨by omega, by omega, (hqone (q.2 - 1) (by omega) (by omega)).trans hsame.symm⟩
    obtain ⟨hlow', hstop', hcell⟩ := (hall (p.2 - 1)).mp ⟨by omega, by omega⟩
    have hend' := hqall (p.2 - 1) hlow' hstop' (hcell.trans hsame)
    have heq : p = q := Prod.ext (by omega) (by omega)
    rw [heq]
    exact hq

end Parts

end

/-! ### Pieces that partition a stretch -/

/-- A piece of a stretch, with the cell it says it is in and its duration. -/
structure Piece (κ : Type*) where
  label : κ
  start : Int
  stop : Int
  duration : Int
deriving DecidableEq

/-- Pieces partition a stretch: they follow one another, hold its seconds and
no other, each in the cell it says and no two in one, and the duration of each
is the time that counts in it, so theirs add up to what counts in it all. -/
structure Partition {κ : Type*} (label : Int → κ) (counted : Int → Int → Int) (low high : Int)
    (pieces : List (Piece κ)) : Prop where
  forward : ∀ p ∈ pieces, p.start ≤ p.stop
  contiguous : pieces.IsChain fun p q => p.stop = q.start
  covers : ∀ t, (∃ p ∈ pieces, p.start ≤ t ∧ t < p.stop) ↔ low ≤ t ∧ t < high
  begins : ∀ p ∈ pieces, label p.start = p.label
  labelled : ∀ p ∈ pieces, ∀ t, p.start ≤ t → t < p.stop → label t = p.label
  distinct : (pieces.map Piece.label).Nodup
  duration : ∀ p ∈ pieces, p.duration = counted p.start p.stop
  total : (pieces.map Piece.duration).sum = counted low high

/-- Pieces laid end to end from one second to another. -/
def Tiles {κ : Type*} (high : Int) : Int → List (Piece κ) → Prop
  | low, [] => high ≤ low
  | low, p :: rest => p.start = low ∧ low ≤ p.stop ∧ p.stop ≤ high ∧ Tiles high p.stop rest

namespace Tiles

variable {κ : Type*} {high low : Int} {pieces : List (Piece κ)}

theorem eq_nil (h : Tiles high low pieces) (hlow : high < low) : pieces = [] := by
  cases pieces with
  | nil => rfl
  | cons p rest =>
    obtain ⟨_, hforward, hhigh, _⟩ := h
    omega

theorem forward (h : Tiles high low pieces) : ∀ p ∈ pieces, p.start ≤ p.stop := by
  induction pieces generalizing low with
  | nil => exact fun _ hp => absurd hp (List.not_mem_nil)
  | cons p rest ih =>
    obtain ⟨rfl, hforward, _, hrest⟩ := h
    exact List.forall_mem_cons.mpr ⟨hforward, ih hrest⟩

theorem contiguous (h : Tiles high low pieces) :
    pieces.IsChain fun p q => p.stop = q.start := by
  induction pieces generalizing low with
  | nil => exact .nil
  | cons p rest ih =>
    obtain ⟨_, _, _, hrest⟩ := h
    cases rest with
    | nil => exact .singleton _
    | cons q rest => exact .cons_cons hrest.1.symm (ih hrest)

theorem covers (h : Tiles high low pieces) (t : Int) :
    (∃ p ∈ pieces, p.start ≤ t ∧ t < p.stop) ↔ low ≤ t ∧ t < high := by
  induction pieces generalizing low with
  | nil =>
    have hnone : high ≤ low := h
    constructor
    · rintro ⟨p, hp, _⟩
      exact absurd hp (List.not_mem_nil)
    · intro hin
      omega
  | cons p rest ih =>
    obtain ⟨rfl, hforward, hhigh, hrest⟩ := h
    rw [List.exists_mem_cons_iff, ih hrest]
    omega

/-- What counts in each of them adds up, where what counts does. -/
theorem total {counted : Int → Int → Int}
    (hadd : ∀ {a b c}, a ≤ b → b ≤ c → counted a c = counted a b + counted b c)
    (hnone : ∀ {a b}, b ≤ a → counted a b = 0)
    (h : Tiles high low pieces) (hcount : ∀ p ∈ pieces, p.duration = counted p.start p.stop) :
    (pieces.map Piece.duration).sum = counted low high := by
  induction pieces generalizing low with
  | nil =>
    have hle : high ≤ low := h
    rw [hnone hle]
    rfl
  | cons p rest ih =>
    obtain ⟨rfl, hforward, hhigh, hrest⟩ := h
    obtain ⟨hp, hcount⟩ := List.forall_mem_cons.mp hcount
    rw [List.map_cons, List.sum_cons, hp, ih hrest hcount, ← hadd hforward hhigh]

end Tiles

/-- Pieces laid end to end, each within one cell and no two in the same,
partition what they cover. -/
theorem Partition.of_tiles {κ : Type*} {label : Int → κ} (taken : List Interval) {low high : Int}
    {pieces : List (Piece κ)} (h : Tiles high low pieces)
    (hbegins : ∀ p ∈ pieces, label p.start = p.label)
    (hlabelled : ∀ p ∈ pieces, ∀ t, p.start ≤ t → t < p.stop → label t = p.label)
    (hdistinct : (pieces.map Piece.label).Nodup)
    (hduration : ∀ p ∈ pieces, p.duration = free taken p.start p.stop) :
    Partition label (free taken) low high pieces where
  forward := h.forward
  contiguous := h.contiguous
  covers := h.covers
  begins := hbegins
  labelled := hlabelled
  distinct := hdistinct
  duration := hduration
  total := h.total (free_add taken) (free_of_le taken) hduration

end Interval

end Base
