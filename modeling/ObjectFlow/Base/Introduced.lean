import ObjectFlow.Base.Table

/-!
# Names introduced before they are used

Some steps follow one another, each using names and giving some.  They stand in
order where a step uses only what the steps before it give, and no name is given
twice.  A table filled along the way then never loses an entry, and what a step
reads of it under the names it uses is what stands in it at the end.
-/

namespace Base

variable {α κ ν : Type*} (uses gives : α → List κ)

/-- Steps in order, past the names given before them. -/
def InOrder : List κ → List α → Prop
  | _, [] => True
  | given, a :: rest =>
      (∀ k ∈ uses a, k ∈ given) ∧ (∀ k ∈ gives a, k ∉ given) ∧ (gives a).Nodup ∧
        InOrder (given ++ gives a) rest

variable {uses gives} {given : List κ} {steps : List α}

/-- **Order, seen whole**: steps stand in order where no name is given twice by
all of them, and each uses what the ones before it give. -/
theorem inOrder_iff (hgiven : given.Nodup) :
    InOrder uses gives given steps ↔
      (given ++ steps.flatMap gives).Nodup ∧
        ∀ before a after, steps = before ++ a :: after →
          ∀ k ∈ uses a, k ∈ given ++ before.flatMap gives := by
  induction steps generalizing given with
  | nil =>
      refine ⟨fun _ => ⟨by simpa using hgiven, fun before a after h => ?_⟩, fun _ => trivial⟩
      cases before <;> cases h
  | cons a rest ih =>
      rw [InOrder]
      constructor
      · rintro ⟨huses, hfresh, honce, hrest⟩
        have hboth : (given ++ gives a).Nodup :=
          List.nodup_append.mpr ⟨hgiven, honce, fun j hj k hk hjk => hfresh k hk (hjk ▸ hj)⟩
        obtain ⟨hnodup, hbefore⟩ := (ih hboth).mp hrest
        refine ⟨by simpa [List.append_assoc] using hnodup, fun before b after h k hk => ?_⟩
        cases before with
        | nil =>
            obtain ⟨rfl, -⟩ := List.cons.inj h
            simpa using huses k hk
        | cons c before =>
            obtain ⟨rfl, hrest⟩ := List.cons.inj h
            simpa [List.append_assoc] using hbefore before b after hrest k hk
      · rintro ⟨hnodup, hbefore⟩
        have hall : (given ++ gives a ++ rest.flatMap gives).Nodup := by
          simpa [List.append_assoc] using hnodup
        have hboth := (List.nodup_append.mp hall).1
        obtain ⟨-, honce, hapart⟩ := List.nodup_append.mp hboth
        refine ⟨fun k hk => by simpa using hbefore [] a rest rfl k hk,
          fun k hk hk' => hapart k hk' k hk rfl, honce,
          (ih hboth).mpr ⟨hall, fun before b after h k hk => ?_⟩⟩
        simpa [List.append_assoc] using hbefore (a :: before) b after (h ▸ rfl) k hk

namespace Table

variable [DecidableEq κ]

/-- A table that holds what another does. -/
def Extends (t u : Table κ ν) : Prop := ∀ k v, get? t k = some v → get? u k = some v

theorem Extends.refl (t : Table κ ν) : t.Extends t := fun _ _ h => h

theorem Extends.trans {t u v : Table κ ν} (h : t.Extends u) (h' : u.Extends v) : t.Extends v :=
  fun k x hx => h' k x (h k x hx)

/-- The names a table holds are these. -/
def Holds (t : Table κ ν) (names : List κ) : Prop := ∀ k, (get? t k).isSome ↔ k ∈ names

theorem holds_nil : Holds ([] : Table κ ν) [] := fun k => by simp

variable [LT κ] [DecidableLT κ] {t u : Table κ ν} {names : List κ}

/-- Setting a name not held yet. -/
theorem Holds.set (h : t.Holds names) {k : κ} (hk : k ∉ names) (v : ν) :
    t.Extends (t.set k v) ∧ (t.set k v).Holds (names ++ [k]) := by
  refine ⟨fun j x hx => ?_, fun j => ?_⟩
  · rw [get?_set_of_ne t v fun hkj => hk ((h k).mp (by rw [hkj, hx]; rfl)), hx]
  · rw [get?_set, List.mem_append, List.mem_singleton, ← h j]
    split
    case isTrue hkj => simp [hkj]
    case isFalse hkj => simp [Ne.symm hkj]

/-- Setting several names not held yet, each once: all that was held stands, and
each reads its own. -/
theorem Holds.foldl_set (h : t.Holds names) (pairs : List (κ × ν))
    (hfresh : ∀ p ∈ pairs, p.1 ∉ names) (honce : (pairs.map Prod.fst).Nodup) :
    t.Extends (pairs.foldl (fun t p => t.set p.1 p.2) t) ∧
      (pairs.foldl (fun t p => t.set p.1 p.2) t).Holds (names ++ pairs.map Prod.fst) ∧
      ∀ p ∈ pairs, get? (pairs.foldl (fun t p => t.set p.1 p.2) t) p.1 = some p.2 := by
  induction pairs generalizing t names with
  | nil => exact ⟨.refl t, by simpa using h, by simp⟩
  | cons p rest ih =>
      rw [List.map_cons, List.nodup_cons] at honce
      obtain ⟨hextends, hholds⟩ := h.set (hfresh p List.mem_cons_self) p.2
      obtain ⟨hextends', hholds', hreads⟩ := ih hholds (fun q hq hmem => by
        rcases List.mem_append.mp hmem with hmem | hmem
        · exact hfresh q (List.mem_cons_of_mem _ hq) hmem
        · exact honce.1 (List.mem_map.mpr ⟨q, hq, List.mem_singleton.mp hmem⟩)) honce.2
      refine ⟨hextends.trans hextends', by simpa [List.append_assoc] using hholds', fun q hq => ?_⟩
      rcases List.mem_cons.mp hq with rfl | hq
      · exact hextends' _ _ (get?_set_self t _ _)
      · exact hreads q hq

end Table

end Base
