import ObjectFlow.Base.Run
import ObjectFlow.Base.TwoRuns
import ObjectFlow.Slots

/-!
# Worlds that share their slots

A world cloned holds what the one it was cloned from holds, not a copy of it, and
an object may be taken from one world to be held in another.  What each world
reads is its own list all the same: a change made in one copies what another
holds too.
-/

namespace ObjectFlow

open Base

variable {τ : Type}

/-- What is done with worlds and the pointers held outside them. -/
inductive SlotOp (τ : Type) where
  /-- A new world. -/
  | fresh
  | clone (w : Nat)
  | drop (w : Nat)
  /-- A value behind a pointer held outside the worlds. -/
  | make (v : τ)
  /-- A world's n-th value, to hold outside it. -/
  | share (w n : Nat)
  /-- A pointer held outside given up. -/
  | release (i : Nat)
  | push (w : Nat) (v : τ)
  | pushShared (w i : Nat)
  /-- A world's n-th value changed. -/
  | getMut (w n : Nat) (f : τ → τ)
  /-- A world's n-th slot written with a pointer held outside. -/
  | replace (w n i : Nat)
  | get (w n : Nat)
  | iter (w : Nat)
  | intoShared (w : Nat)
  | intoValues (w : Nat)

/-- What an operation answers. -/
inductive SlotAnswer (τ : Type) where
  | slot (n : Option Nat)
  | value (v : Option τ)
  | values (len : Nat) (l : List τ)

/-- The values there are, each world's slots, and the pointers held outside. -/
structure Worlds (τ : Type) where
  heap : Heap τ := []
  worlds : List (Option Slots) := []
  loose : List Nat := []

namespace Worlds

variable (s : Worlds τ)

/-- A world that is still there. -/
def world (w : Nat) : Option Slots := (s.worlds[w]?).join

def make (v : τ) : Worlds τ :=
  { s with heap := (s.heap.alloc v).1, loose := s.loose ++ [(s.heap.alloc v).2] }

/-- A pointer held outside put in a world's next slot, given up where there is
none. -/
def pushShared (w i : Nat) : Option (Worlds τ × List (SlotAnswer τ)) :=
  (s.world w).bind fun slots => s.loose[i]?.map fun p =>
    let (slots, n) := slots.pushShared p
    ({ heap := if n.isNone then s.heap.release p else s.heap
       worlds := s.worlds.set w (some slots)
       loose := s.loose.eraseIdx i }, [.slot n])

def share (w n : Nat) : Option (Worlds τ × List (SlotAnswer τ)) :=
  (s.world w).map fun slots =>
    match slots.getShared n with
    | none => (s, [])
    | some p => ({ s with heap := s.heap.retain p, loose := s.loose ++ [p] }, [])

def release (i : Nat) : Option (Worlds τ × List (SlotAnswer τ)) :=
  s.loose[i]?.map fun p => ({ s with heap := s.heap.release p, loose := s.loose.eraseIdx i }, [])

def getMut (w n : Nat) (f : τ → τ) : Option (Worlds τ × List (SlotAnswer τ)) :=
  (s.world w).map fun slots =>
    match slots.getShared n with
    | none => (s, [])
    | some p =>
        ({ s with heap := (s.heap.makeMut p f).1
                  worlds := s.worlds.set w (some (slots.withSlot n (s.heap.makeMut p f).2)) }, [])

def replace (w n i : Nat) : Option (Worlds τ × List (SlotAnswer τ)) :=
  (s.world w).bind fun slots => s.loose[i]?.map fun p =>
    match slots.getShared n with
    | none => (s, [])
    | some old =>
        ({ heap := s.heap.release old
           worlds := s.worlds.set w (some (slots.withSlot n p))
           loose := s.loose.eraseIdx i }, [])

/-- One operation, none of a world or a pointer that is no longer there. -/
def step : SlotOp τ → Option (Worlds τ × List (SlotAnswer τ))
  | .fresh => some ({ s with worlds := s.worlds ++ [some {}] }, [])
  | .clone w => (s.world w).map fun slots =>
      ({ s with heap := slots.intoShared.foldl Heap.retain s.heap
                worlds := s.worlds ++ [some slots] }, [])
  | .drop w => (s.world w).map fun slots =>
      ({ s with heap := slots.intoShared.foldl Heap.release s.heap, worlds := s.worlds.set w none },
        [])
  | .make v => some (s.make v, [])
  | .share w n => s.share w n
  | .release i => s.release i
  | .push w v => (s.make v).pushShared w s.loose.length
  | .pushShared w i => s.pushShared w i
  | .getMut w n f => s.getMut w n f
  | .replace w n i => s.replace w n i
  | .get w n => (s.world w).map fun slots =>
      (s, [.value ((slots.getShared n).bind s.heap.read)])
  | .iter w => (s.world w).map fun slots =>
      (s, [.values slots.len (slots.iter.filterMap s.heap.read)])
  | .intoShared w => (s.world w).map fun slots =>
      ({ s with worlds := s.worlds.set w none, loose := s.loose ++ slots.intoShared }, [])
  | .intoValues w => (s.world w).map fun slots =>
      ({ s with heap := slots.intoShared.foldl Heap.release s.heap, worlds := s.worlds.set w none },
        [.values slots.len (slots.intoShared.filterMap s.heap.read)])

end Worlds

/-- Worlds whose slots are shared. -/
def sharedWorlds : Machine (Worlds τ) (SlotOp τ) (SlotAnswer τ) where
  step := Worlds.step

/-- Each world's own list, and the values held outside. -/
structure Lists (τ : Type) where
  worlds : List (Option (List τ)) := []
  loose : List τ := []

namespace Lists

variable (m : Lists τ)

/-- A world that is still there. -/
def world (w : Nat) : Option (List τ) := (m.worlds[w]?).join

def make (v : τ) : Lists τ := { m with loose := m.loose ++ [v] }

def pushShared (w i : Nat) : Option (Lists τ × List (SlotAnswer τ)) :=
  (m.world w).bind fun l => m.loose[i]?.map fun v =>
    if l.length < SLOTS then
      ({ worlds := m.worlds.set w (some (l ++ [v])), loose := m.loose.eraseIdx i },
        [.slot (some l.length)])
    else ({ m with loose := m.loose.eraseIdx i }, [.slot none])

/-- One operation, each on the list of its own world. -/
def step : SlotOp τ → Option (Lists τ × List (SlotAnswer τ))
  | .fresh => some ({ m with worlds := m.worlds ++ [some []] }, [])
  | .clone w => (m.world w).map fun l => ({ m with worlds := m.worlds ++ [some l] }, [])
  | .drop w => (m.world w).map fun _ => ({ m with worlds := m.worlds.set w none }, [])
  | .make v => some (m.make v, [])
  | .share w n => (m.world w).map fun l => ({ m with loose := m.loose ++ l[n]?.toList }, [])
  | .release i => m.loose[i]?.map fun _ => ({ m with loose := m.loose.eraseIdx i }, [])
  | .push w v => (m.make v).pushShared w m.loose.length
  | .pushShared w i => m.pushShared w i
  | .getMut w n f => (m.world w).map fun l =>
      ({ m with worlds := m.worlds.set w (some (l.modify n f)) }, [])
  | .replace w n i => (m.world w).bind fun l => m.loose[i]?.map fun v =>
      if n < l.length then
        ({ worlds := m.worlds.set w (some (l.set n v)), loose := m.loose.eraseIdx i }, [])
      else (m, [])
  | .get w n => (m.world w).map fun l => (m, [.value l[n]?])
  | .iter w => (m.world w).map fun l => (m, [.values l.length l])
  | .intoShared w => (m.world w).map fun l =>
      ({ worlds := m.worlds.set w none, loose := m.loose ++ l }, [])
  | .intoValues w => (m.world w).map fun l =>
      ({ m with worlds := m.worlds.set w none }, [.values l.length l])

end Lists

/-- Worlds of a list each. -/
def ownLists : Machine (Lists τ) (SlotOp τ) (SlotAnswer τ) where
  step := Lists.step

/-! ### Each world reads its own list -/

/-- The pointers a world holds. -/
def pointersOf (world : Option Slots) : List Nat := (world.map Slots.intoShared).getD []

/-- The pointers there are. -/
def Worlds.pointers (s : Worlds τ) : List Nat := s.loose ++ s.worlds.flatMap pointersOf

/-- A world that reads a list, or none where there is none. -/
inductive WorldReads (heap : Heap τ) : Option Slots → Option (List τ) → Prop where
  | gone : WorldReads heap none none
  | held {slots : Slots} {ptrs : List Nat} {l : List τ} (represents : slots.Represents ptrs)
      (leads : heap.Leads ptrs l) : WorldReads heap (some slots) (some l)

/-- **What is kept**: each value counts its pointers, and each world reads its own
list. -/
structure WorldsRead (s : Worlds τ) (m : Lists τ) : Prop where
  counts : s.heap.Counts s.pointers
  worlds : List.Forall₂ (WorldReads s.heap) s.worlds m.worlds
  loose : s.heap.Leads s.loose m.loose

section

variable {heap heap' : Heap τ} {s : Worlds τ} {m : Lists τ}

theorem WorldReads.frame {x : Option Slots} {y : Option (List τ)} (h : WorldReads heap x y)
    (hsame : ∀ p ∈ pointersOf x, heap'.read p = heap.read p) : WorldReads heap' x y := by
  cases h with
  | gone => exact .gone
  | held represents leads =>
      refine .held represents (leads.frame fun p hp => hsame p ?_)
      show p ∈ Slots.intoShared _
      rwa [represents.intoShared]

theorem worlds_frame {worlds : List (Option Slots)} {lists : List (Option (List τ))}
    (h : List.Forall₂ (WorldReads heap) worlds lists)
    (hsame : ∀ p ∈ worlds.flatMap pointersOf, heap'.read p = heap.read p) :
    List.Forall₂ (WorldReads heap') worlds lists := by
  induction h with
  | nil => exact .nil
  | cons hxy _ ih =>
      rw [List.flatMap_cons] at hsame
      exact .cons (hxy.frame fun p hp => hsame p (List.mem_append_left _ hp))
        (ih fun p hp => hsame p (List.mem_append_right _ hp))

/-- One world set apart from the pointers of the others: what is put in its place
reads its list where the others' pointers read what they did. -/
structure WorldApart (s : Worlds τ) (m : Lists τ) (w : Nat) (slots : Slots) (l : List τ)
    (ptrs rest : List Nat) : Prop where
  world : s.world w = some slots
  list : m.world w = some l
  represents : slots.Represents ptrs
  leads : s.heap.Leads ptrs l
  counts : s.heap.Counts (ptrs ++ (s.loose ++ rest))
  put : ∀ {heap' : Heap τ} {loose : List Nat} {kept : List τ} {x : Option Slots}
    {y : Option (List τ)}, (∀ p ∈ rest, heap'.read p = s.heap.read p) → WorldReads heap' x y →
      heap'.Leads loose kept → heap'.Counts (pointersOf x ++ (loose ++ rest)) →
        WorldsRead ⟨heap', s.worlds.set w x, loose⟩ ⟨m.worlds.set w y, kept⟩

/-- A world is gone, or stands apart from the others. -/
theorem WorldsRead.apart (h : WorldsRead s m) (w : Nat) :
    (s.world w = none ∧ m.world w = none) ∨ ∃ slots l ptrs rest, WorldApart s m w slots l ptrs rest := by
  cases hw : s.worlds[w]? with
  | none =>
      have hlist : m.worlds[w]? = none := by
        rw [List.getElem?_eq_none_iff] at hw ⊢
        rwa [← h.worlds.length_eq]
      exact .inl ⟨by simp [Worlds.world, hw], by simp [Lists.world, hlist]⟩
  | some x =>
      obtain ⟨before, after, before', y, after', hs, hm, rfl, hlength, hbefore, hxy, hafter⟩ :=
        split_alike h.worlds hw
      have hlist : m.worlds[before.length]? = some y := by
        rw [hm, ← hlength]
        simp
      cases hxy with
      | gone => exact .inl ⟨by simp [Worlds.world, hw], by simp [Lists.world, hlist]⟩
      | @held slots ptrs l represents leads =>
          refine .inr ⟨slots, l, ptrs, before.flatMap pointersOf ++ after.flatMap pointersOf, ?_⟩
          refine ⟨by simp [Worlds.world, hw], by simp [Lists.world, hlist], represents, leads, ?_, ?_⟩
          · refine h.counts.perm ?_
            have hptrs : pointersOf (some slots) = ptrs := represents.intoShared
            rw [Worlds.pointers, hs, List.flatMap_append, List.flatMap_cons, hptrs,
              List.perm_iff_count]
            intro a
            simp only [List.count_append]
            omega
          · intro heap' loose kept x y hsame hnew hloose hcounts
            have hset : s.worlds.set before.length x = before ++ x :: after := by rw [hs]; simp
            have hset' : m.worlds.set before.length y = before' ++ y :: after' := by
              rw [hm, ← hlength]
              simp
            rw [hset, hset']
            refine ⟨hcounts.perm ?_, ?_, hloose⟩
            · rw [Worlds.pointers, List.flatMap_append, List.flatMap_cons, List.perm_iff_count]
              intro a
              simp only [List.count_append]
              omega
            · refine List.rel_append (worlds_frame hbefore fun p hp => hsame p ?_)
                (.cons hnew (worlds_frame hafter fun p hp => hsame p ?_))
              · exact List.mem_append_left _ hp
              · exact List.mem_append_right _ hp

/-- A world put after the others. -/
theorem WorldsRead.append (h : WorldsRead s m) {x : Option Slots} {y : Option (List τ)}
    (hsame : ∀ b, heap'.read b = s.heap.read b) (hnew : WorldReads heap' x y)
    (hcounts : heap'.Counts (pointersOf x ++ s.pointers)) :
    WorldsRead ⟨heap', s.worlds ++ [x], s.loose⟩ ⟨m.worlds ++ [y], m.loose⟩ := by
  refine ⟨hcounts.perm ?_, List.rel_append (worlds_frame h.worlds fun p _ => hsame p) (.cons hnew .nil),
    h.loose.frame fun p _ => hsame p⟩
  rw [Worlds.pointers, Worlds.pointers, List.flatMap_append, List.perm_iff_count]
  intro a
  simp only [List.count_append, List.flatMap_cons, List.flatMap_nil, List.append_nil]
  omega

/-- The pointers held outside changed. -/
theorem WorldsRead.outside (h : WorldsRead s m) {loose : List Nat} {kept : List τ}
    (hsame : ∀ p ∈ s.worlds.flatMap pointersOf, heap'.read p = s.heap.read p)
    (hloose : heap'.Leads loose kept)
    (hcounts : heap'.Counts (loose ++ s.worlds.flatMap pointersOf)) :
    WorldsRead ⟨heap', s.worlds, loose⟩ ⟨m.worlds, kept⟩ :=
  ⟨hcounts, worlds_frame h.worlds hsame, hloose⟩

/-! ### One operation -/

/-- Outcomes alike: neither there, or both, reading alike and answering the
same. -/
abbrev Same (out : Option (Worlds τ × List (SlotAnswer τ)))
    (out' : Option (Lists τ × List (SlotAnswer τ))) : Prop := Machine.Alike WorldsRead out out'

/-- A pointer held outside, apart from the others there. -/
theorem WorldsRead.held (h : WorldsRead s m) (i : Nat) :
    (s.loose[i]? = none ∧ m.loose[i]? = none) ∨ ∃ p v, s.loose[i]? = some p ∧
      m.loose[i]? = some v ∧ s.heap.read p = some v ∧ p ∈ s.loose ∧
        s.heap.Leads (s.loose.eraseIdx i) (m.loose.eraseIdx i) ∧
          s.loose.Perm (p :: s.loose.eraseIdx i) := by
  cases hp : s.loose[i]? with
  | none =>
      refine .inl ⟨rfl, ?_⟩
      rw [List.getElem?_eq_none_iff] at hp ⊢
      rwa [← h.loose.length_eq]
  | some p =>
      obtain ⟨before, after, before', v, after', hs, hm, rfl, hlength, hbefore, hread, hafter⟩ :=
        split_alike h.loose hp
      have herase : s.loose.eraseIdx before.length = before ++ after := by
        rw [hs, List.eraseIdx_append_of_length_le (Nat.le_refl _), Nat.sub_self]
        rfl
      have herase' : m.loose.eraseIdx before.length = before' ++ after' := by
        rw [hm, ← hlength, List.eraseIdx_append_of_length_le (Nat.le_refl _), Nat.sub_self]
        rfl
      refine .inr ⟨p, v, rfl, ?_, hread, List.mem_of_getElem? hp, ?_, ?_⟩
      · rw [hm, ← hlength]
        simp
      · rw [herase, herase']
        exact List.rel_append hbefore hafter
      · rw [herase, hs]
        exact List.perm_middle

/-- A world's own list put in its place changes nothing. -/
theorem Lists.set_world {w : Nat} {l : List τ} (h : m.world w = some l) :
    m.worlds.set w (some l) = m.worlds := by
  have hw : m.worlds[w]? = some (some l) := Option.join_eq_some_iff.mp h
  refine List.ext_getElem? fun n => ?_
  by_cases hn : n = w
  · subst hn
    rw [List.getElem?_set_self (List.getElem?_eq_some_iff.mp hw).1, hw]
  · rw [List.getElem?_set_ne (Ne.symm hn)]

theorem WorldsRead.make (h : WorldsRead s m) (v : τ) : WorldsRead (s.make v) (m.make v) := by
  obtain ⟨hcounts, hnew, hkept⟩ := h.counts.alloc v
  refine h.outside (fun p hp => hkept p (List.mem_append_right _ hp)) ?_ (hcounts.perm ?_)
  · refine List.rel_append (h.loose.frame fun p hp => hkept p (List.mem_append_left _ hp)) ?_
    exact .cons hnew .nil
  · rw [List.append_assoc]
    exact List.perm_middle

theorem WorldsRead.pushShared (h : WorldsRead s m) (w i : Nat) :
    Same (s.pushShared w i) (m.pushShared w i) := by
  unfold Worlds.pushShared Lists.pushShared
  rcases h.apart w with ⟨hw, hm⟩ | ⟨slots, l, ptrs, rest, hapart⟩
  · rw [hw, hm]
    trivial
  rcases h.held i with ⟨hi, hv⟩ | ⟨p, v, hi, hv, hread, -, hloose, hperm⟩
  · rw [hapart.world, hapart.list, hi, hv]
    trivial
  rw [hapart.world, hapart.list, hi, hv]
  have hlength := hapart.leads.length_eq
  have hpushed := hapart.represents.pushShared p
  have hcounts := hapart.counts
  simp only [Option.bind_some, Option.map_some, ← hlength]
  split at hpushed
  case isTrue hroom =>
    obtain ⟨hslot, hrepresents⟩ := hpushed
    rw [if_pos hroom, hslot]
    refine ⟨hapart.put (fun _ _ => rfl) (.held hrepresents ?_) hloose (hcounts.perm ?_), rfl⟩
    · exact List.rel_append hapart.leads (.cons hread .nil)
    · have hptrs : pointersOf (some (slots.pushShared p).1) = ptrs ++ [p] := hrepresents.intoShared
      rw [hptrs, List.perm_iff_count]
      intro a
      have := hperm.count_eq a
      simp only [List.count_append, List.count_cons, List.count_nil] at this ⊢
      omega
  case isFalse hfull =>
    rw [if_neg hfull, hpushed]
    refine ⟨?_, rfl⟩
    rw [← Lists.set_world hapart.list]
    refine hapart.put (fun a _ => Heap.read_release a) (.held hapart.represents ?_) ?_ ?_
    · exact hapart.leads.frame fun a _ => Heap.read_release a
    · exact hloose.frame fun a _ => Heap.read_release a
    · refine Heap.Counts.release (hcounts.perm ?_)
      have hptrs : pointersOf (some slots) = ptrs := hapart.represents.intoShared
      rw [hptrs, List.perm_iff_count]
      intro a
      have := hperm.count_eq a
      simp only [List.count_append, List.count_cons] at this ⊢
      omega

/-- A world's pointers are some of those there are. -/
theorem WorldApart.mem_pointers {w : Nat} {slots : Slots} {l : List τ} {ptrs rest : List Nat}
    (h : WorldsRead s m) (hapart : WorldApart s m w slots l ptrs rest) {p : Nat} (hp : p ∈ ptrs) :
    p ∈ s.pointers := by
  have hcounted : 0 < s.heap.counted p := by
    rw [hapart.counts p]
    exact List.count_pos_iff.mpr (List.mem_append_left _ hp)
  rw [h.counts p] at hcounted
  exact List.count_pos_iff.mp hcounted

theorem WorldsRead.share (h : WorldsRead s m) (w n : Nat) :
    Same (s.share w n)
      ((m.world w).map fun l => ({ m with loose := m.loose ++ l[n]?.toList }, [])) := by
  unfold Worlds.share
  rcases h.apart w with ⟨hw, hm⟩ | ⟨slots, l, ptrs, rest, hapart⟩
  · rw [hw, hm]
    trivial
  rw [hapart.world, hapart.list, Option.map_some, Option.map_some, hapart.represents.getShared]
  have hread := hapart.leads.getElem? n
  cases hp : ptrs[n]? with
  | none =>
      rw [hp] at hread
      rw [← hread]
      refine ⟨?_, rfl⟩
      show WorldsRead s { m with loose := m.loose ++ [] }
      rwa [List.append_nil]
  | some p =>
      have hmem := hapart.mem_pointers h (List.mem_of_getElem? hp)
      obtain ⟨v, hv⟩ : ∃ v, l[n]? = some v := by
        obtain ⟨hlt, -⟩ := List.getElem?_eq_some_iff.mp hp
        rw [hapart.leads.length_eq] at hlt
        exact ⟨_, List.getElem?_eq_getElem hlt⟩
      rw [hp, hv] at hread
      rw [hv]
      refine ⟨h.outside (fun a _ => Heap.read_retain a) ?_ ((h.counts.retain hmem).perm ?_), rfl⟩
      · refine List.rel_append (h.loose.frame fun a _ => Heap.read_retain a) (.cons ?_ .nil)
        rw [Heap.read_retain]
        exact hread
      · rw [List.append_assoc]
        exact List.perm_middle

theorem WorldsRead.release (h : WorldsRead s m) (i : Nat) :
    Same (s.release i) (m.loose[i]?.map fun _ => ({ m with loose := m.loose.eraseIdx i }, [])) := by
  unfold Worlds.release
  rcases h.held i with ⟨hi, hv⟩ | ⟨p, v, hi, hv, -, -, hloose, hperm⟩
  · rw [hi, hv]
    trivial
  rw [hi, hv]
  refine ⟨h.outside (fun a _ => Heap.read_release a) (hloose.frame fun a _ => Heap.read_release a)
    (Heap.Counts.release (h.counts.perm ?_)), rfl⟩
  exact (hperm.append_right _).symm

/-- A slot of a world apart: its pointer, the value it leads to, and the list with
either changed. -/
theorem slot_apart {l : List τ} {ptrs : List Nat} (hleads : heap.Leads ptrs l)
    {n p : Nat} (hp : ptrs[n]? = some p) :
    ∃ v, l[n]? = some v ∧ heap.read p = some v ∧ ∃ others, ptrs.Perm (p :: others) ∧
      ∀ p', (ptrs.set n p').Perm (p' :: others) ∧
        ∀ {heap' : Heap τ} {v'}, (∀ b ∈ others, heap'.read b = heap.read b) →
          heap'.read p' = some v' → heap'.Leads (ptrs.set n p') (l.set n v') := by
  obtain ⟨before, after, before', v, after', hs, hm, rfl, hlength, hbefore, hread, hafter⟩ :=
    split_alike hleads hp
  refine ⟨v, by rw [hm, ← hlength]; simp, hread, before ++ after, by rw [hs]; exact List.perm_middle,
    fun p' => ⟨?_, fun hsame hnew => ?_⟩⟩
  · have hset : ptrs.set before.length p' = before ++ p' :: after := by rw [hs]; simp
    rw [hset]
    exact List.perm_middle
  · have hset : ptrs.set before.length p' = before ++ p' :: after := by rw [hs]; simp
    have hset' : ∀ v', l.set before.length v' = before' ++ v' :: after' := by
      intro v'
      rw [hm, ← hlength]
      simp
    rw [hset, hset']
    refine List.rel_append (Heap.Leads.frame hbefore fun b hb => hsame b ?_)
      (.cons hnew (Heap.Leads.frame hafter fun b hb => hsame b ?_))
    · exact List.mem_append_left _ hb
    · exact List.mem_append_right _ hb

theorem WorldsRead.getMut (h : WorldsRead s m) (w n : Nat) (f : τ → τ) :
    Same (s.getMut w n f)
      ((m.world w).map fun l => ({ m with worlds := m.worlds.set w (some (l.modify n f)) }, [])) := by
  unfold Worlds.getMut
  rcases h.apart w with ⟨hw, hm⟩ | ⟨slots, l, ptrs, rest, hapart⟩
  · rw [hw, hm]
    trivial
  rw [hapart.world, hapart.list, Option.map_some, Option.map_some, hapart.represents.getShared]
  cases hp : ptrs[n]? with
  | none =>
      have hlt := List.getElem?_eq_none_iff.mp hp
      rw [hapart.leads.length_eq] at hlt
      refine ⟨?_, rfl⟩
      show WorldsRead s { m with worlds := m.worlds.set w (some (l.modify n f)) }
      rw [List.modify_eq_self hlt, Lists.set_world hapart.list]
      exact h
  | some p =>
      obtain ⟨v, hv, hread, others, hperm, hset⟩ := slot_apart hapart.leads hp
      obtain ⟨hlt, -⟩ := List.getElem?_eq_some_iff.mp hp
      have hcounts : s.heap.Counts (p :: (others ++ (s.loose ++ rest))) :=
        hapart.counts.perm (hperm.append_right _).symm
      obtain ⟨hmade, hchanged, hsame⟩ := hcounts.makeMut f
      obtain ⟨hptrs, hleads⟩ := hset (s.heap.makeMut p f).2
      have hrepresents := hapart.represents.withSlot hlt (s.heap.makeMut p f).2
      have hothers : ∀ b, b ∈ others ∨ b ∈ s.loose ∨ b ∈ rest →
          (s.heap.makeMut p f).1.read b = s.heap.read b := by
        intro b hb
        exact hsame b (by simpa only [List.mem_append] using hb)
      have hmodify : l.modify n f = l.set n (f v) := by
        refine List.ext_getElem? fun k => ?_
        by_cases hk : n = k
        · subst hk
          rw [List.getElem?_modify_eq, hv, List.getElem?_set_self (List.getElem?_eq_some_iff.mp hv).1]
          rfl
        · rw [List.getElem?_modify_ne f l hk, List.getElem?_set_ne hk]
      rw [hmodify]
      refine ⟨hapart.put (fun b hb => hothers b (.inr (.inr hb))) (.held hrepresents ?_) ?_
        (hmade.perm ?_), rfl⟩
      · exact hleads (fun b hb => hothers b (.inl hb)) (by rw [hchanged, hread]; rfl)
      · exact h.loose.frame fun b hb => hothers b (.inr (.inl hb))
      · have hnew : pointersOf (some (slots.withSlot n (s.heap.makeMut p f).2)) =
            ptrs.set n (s.heap.makeMut p f).2 := hrepresents.intoShared
        rw [hnew]
        exact hptrs.append_right _

theorem WorldsRead.replace (h : WorldsRead s m) (w n i : Nat) :
    Same (s.replace w n i)
      ((m.world w).bind fun l => m.loose[i]?.map fun v =>
        if n < l.length then
          ({ worlds := m.worlds.set w (some (l.set n v)), loose := m.loose.eraseIdx i }, [])
        else (m, [])) := by
  unfold Worlds.replace
  rcases h.apart w with ⟨hw, hm⟩ | ⟨slots, l, ptrs, rest, hapart⟩
  · rw [hw, hm]
    trivial
  rcases h.held i with ⟨hi, hv⟩ | ⟨q, u, hi, hu, hq, -, hloose, hout⟩
  · rw [hapart.world, hapart.list, hi, hv]
    trivial
  rw [hapart.world, hapart.list, hi, hu]
  simp only [Option.bind_some, Option.map_some, hapart.represents.getShared]
  have hlength := hapart.leads.length_eq
  cases hp : ptrs[n]? with
  | none =>
      have hlt := List.getElem?_eq_none_iff.mp hp
      rw [if_neg (by omega)]
      exact ⟨h, rfl⟩
  | some p =>
      obtain ⟨v, hv, hread, others, hperm, hset⟩ := slot_apart hapart.leads hp
      obtain ⟨hlt, -⟩ := List.getElem?_eq_some_iff.mp hp
      obtain ⟨hptrs, hleads⟩ := hset q
      have hrepresents := hapart.represents.withSlot hlt q
      have hcounts : s.heap.Counts (p :: (q :: others ++ (s.loose.eraseIdx i ++ rest))) := by
        refine hapart.counts.perm ?_
        rw [List.perm_iff_count]
        intro a
        have hptr := hperm.count_eq a
        have houtside := hout.count_eq a
        simp only [List.count_append, List.count_cons, List.cons_append] at hptr houtside ⊢
        omega
      rw [if_pos (by omega)]
      refine ⟨hapart.put (fun b _ => Heap.read_release b) (.held hrepresents ?_)
        (hloose.frame fun b _ => Heap.read_release b) (hcounts.release.perm ?_), rfl⟩
      · exact hleads (fun b _ => Heap.read_release b) (by rw [Heap.read_release, hq])
      · have hnew : pointersOf (some (slots.withSlot n q)) = ptrs.set n q := hrepresents.intoShared
        rw [hnew]
        exact hptrs.append_right _

/-- A world given up, with its pointers. -/
theorem WorldsRead.dropped (h : WorldsRead s m) {w : Nat} {slots : Slots} {l : List τ} {ptrs rest : List Nat}
    (hapart : WorldApart s m w slots l ptrs rest) :
    WorldsRead { s with heap := slots.intoShared.foldl Heap.release s.heap, worlds := s.worlds.set w none }
      { m with worlds := m.worlds.set w none } := by
  obtain ⟨hcounts, hsame⟩ := hapart.counts.releaseAll
  rw [hapart.represents.intoShared]
  exact hapart.put (fun b _ => hsame b) .gone (h.loose.frame fun b _ => hsame b) hcounts

/-- **Every operation** answers what it does on the lists, and leaves each world
reading its own. -/
theorem WorldsRead.step (h : WorldsRead s m) (op : SlotOp τ) : Same (s.step op) (m.step op) := by
  -- an operation on one world reads it apart from the others
  have hone : ∀ {w : Nat} {f : Slots → Worlds τ × List (SlotAnswer τ)}
      {g : List τ → Lists τ × List (SlotAnswer τ)},
      (∀ slots l ptrs rest, WorldApart s m w slots l ptrs rest → Same (some (f slots)) (some (g l))) →
        Same ((s.world w).map f) ((m.world w).map g) := by
    intro w f g hfg
    rcases h.apart w with ⟨hw, hm⟩ | ⟨slots, l, ptrs, rest, hapart⟩
    · rw [hw, hm]
      trivial
    · rw [hapart.world, hapart.list]
      exact hfg slots l ptrs rest hapart
  cases op with
  | fresh =>
      exact ⟨h.append (fun _ => rfl) (.held Slots.represents_empty .nil) h.counts, rfl⟩
  | clone w =>
      refine hone fun slots l ptrs rest hapart => ⟨?_, rfl⟩
      have hptrs := hapart.represents.intoShared
      obtain ⟨hcounts, hsame⟩ := h.counts.retainAll fun p hp => hapart.mem_pointers h hp
      rw [hptrs]
      refine h.append hsame (.held hapart.represents (hapart.leads.frame fun b _ => hsame b)) ?_
      have hheld : pointersOf (some slots) = ptrs := hptrs
      rwa [hheld]
  | drop w => exact hone fun slots l ptrs rest hapart => ⟨h.dropped hapart, rfl⟩
  | make v => exact ⟨h.make v, rfl⟩
  | share w n => exact h.share w n
  | release i => exact h.release i
  | push w v =>
      show Same ((s.make v).pushShared w s.loose.length) ((m.make v).pushShared w m.loose.length)
      rw [← h.loose.length_eq]
      exact (h.make v).pushShared w s.loose.length
  | pushShared w i => exact h.pushShared w i
  | getMut w n f => exact h.getMut w n f
  | replace w n i => exact h.replace w n i
  | get w n =>
      refine hone fun slots l ptrs rest hapart => ⟨h, ?_⟩
      rw [hapart.represents.getShared, hapart.leads.getElem?]
  | iter w =>
      refine hone fun slots l ptrs rest hapart => ⟨h, ?_⟩
      rw [hapart.represents.iter, hapart.leads.filterMap, hapart.represents.len,
        hapart.leads.length_eq]
  | intoShared w =>
      refine hone fun slots l ptrs rest hapart => ⟨?_, rfl⟩
      rw [hapart.represents.intoShared]
      refine hapart.put (fun _ _ => rfl) .gone (List.rel_append h.loose hapart.leads)
        (hapart.counts.perm ?_)
      rw [List.perm_iff_count]
      intro a
      simp only [pointersOf, Option.map_none, Option.getD_none, List.count_append, List.count_nil]
      omega
  | intoValues w =>
      refine hone fun slots l ptrs rest hapart => ⟨h.dropped hapart, ?_⟩
      rw [hapart.represents.intoShared, hapart.leads.filterMap, hapart.represents.len,
        hapart.leads.length_eq]

end

/-- The world an operation changes, where it changes one. -/
def SlotOp.changes : SlotOp τ → Option Nat
  | drop w | push w _ | pushShared w _ | getMut w _ _ | replace w _ _ | intoShared w
  | intoValues w => some w
  | _ => none

/-- An operation on one world leaves every other's list as it was. -/
theorem Lists.step_others {m m' : Lists τ} {op : SlotOp τ} {answers : List (SlotAnswer τ)}
    (hstep : m.step op = some (m', answers)) {w : Nat} (hw : w < m.worlds.length)
    (hother : op.changes ≠ some w) : m'.worlds[w]? = m.worlds[w]? := by
  have hset : ∀ {v : Nat} (y : Option (List τ)), op.changes = some v →
      (m.worlds.set v y)[w]? = m.worlds[w]? := by
    intro v y hv
    exact List.getElem?_set_ne fun heq => hother (hv.trans (congrArg some heq))
  have hpush : ∀ {m : Lists τ} {v i : Nat}, m.pushShared v i = some (m', answers) → v ≠ w →
      m'.worlds[w]? = m.worlds[w]? := by
    intro m v i hpushed hne
    obtain ⟨l, -, hpushed⟩ := Option.bind_eq_some_iff.mp hpushed
    obtain ⟨u, -, hout⟩ := Option.map_eq_some_iff.mp hpushed
    split at hout <;> cases hout
    · exact List.getElem?_set_ne hne
    · rfl
  cases op with
  | fresh =>
      cases hstep
      exact List.getElem?_append_left hw
  | clone v =>
      obtain ⟨l, -, hout⟩ := Option.map_eq_some_iff.mp hstep
      cases hout
      exact List.getElem?_append_left hw
  | make v =>
      cases hstep
      rfl
  | release i =>
      obtain ⟨u, -, hout⟩ := Option.map_eq_some_iff.mp hstep
      cases hout
      rfl
  | push v u => exact hpush (m := m.make u) hstep fun heq => hother (congrArg some heq)
  | pushShared v i => exact hpush hstep fun heq => hother (congrArg some heq)
  | replace v n i =>
      obtain ⟨l, -, hreplaced⟩ := Option.bind_eq_some_iff.mp hstep
      obtain ⟨u, -, hout⟩ := Option.map_eq_some_iff.mp hreplaced
      split at hout <;> cases hout
      · exact hset _ rfl
      · rfl
  | share v n | get v n | iter v =>
      obtain ⟨l, -, hout⟩ := Option.map_eq_some_iff.mp hstep
      cases hout
      rfl
  | drop v | intoShared v | intoValues v | getMut v n f =>
      obtain ⟨l, -, hout⟩ := Option.map_eq_some_iff.mp hstep
      cases hout
      exact hset _ rfl

/-- **Worlds that share their slots are worlds of a list each**: every run of
operations, on any worlds cloned from one another, can be made and answers as it
does where each world holds a list of its own, which no operation on another
changes. -/
theorem slots_isolated :
    (∀ ops : List (SlotOp τ), (sharedWorlds.runAll {} ops).map Prod.snd =
        (ownLists.runAll {} ops).map Prod.snd) ∧
      ∀ (m m' : Lists τ) (op : SlotOp τ) (answers : List (SlotAnswer τ)) (w : Nat),
        m.step op = some (m', answers) → w < m.worlds.length → op.changes ≠ some w →
          m'.worlds[w]? = m.worlds[w]? := by
  refine ⟨fun ops => ?_, fun m m' op answers w hstep hw hother => Lists.step_others hstep hw hother⟩
  have hempty : WorldsRead ({} : Worlds τ) {} :=
    ⟨fun a => by simp [Heap.counted, Worlds.pointers], .nil, .nil⟩
  have hsame := Machine.runAll_alike (M := sharedWorlds) (N := ownLists)
    (fun s m op (h : WorldsRead s m) => h.step op) hempty ops
  cases hshared : sharedWorlds.runAll ({} : Worlds τ) ops with
  | none =>
      cases hown : ownLists.runAll ({} : Lists τ) ops with
      | none => rfl
      | some out => simp [hshared, hown, Machine.Alike] at hsame
  | some out =>
      cases hown : ownLists.runAll ({} : Lists τ) ops with
      | none => simp [hshared, hown, Machine.Alike] at hsame
      | some out' =>
          rw [hshared, hown] at hsame
          exact congrArg some hsame.2

end ObjectFlow
