import ObjectFlow.Unfolding

/-!
# Families of types

A type extends another, which may extend another in turn.  What a type is, is what
following `extends` to its end reaches: the walk stops where it comes back, and steps
enough are as many as there are types.  The check refuses a type that comes back to
itself, so where it finds nothing being of a type orders the types.
-/

namespace ObjectFlow

open Base

/-! ### The check of what a type extends -/

/-- Whether following bases from one comes back to a type; a type passed or not held
ends it. -/
def Library.comesBack (lib : Library) (tn : String) : Nat → List String → Option String → Bool
  | 0, _, _ => false
  | fuel + 1, seen, step =>
      match step with
      | none => false
      | some s =>
          match lib.type? s with
          | none => false
          | some t => !(s ∈ seen) && (s = tn || comesBack lib tn fuel (s :: seen) t.base)

/-- What is found of what a type extends. -/
def extendsErrors (lib : Library) (tn : String) (t : FlowType) : List Finding :=
  match t.base with
  | none => []
  | some base =>
      let here : List Seg := [.key "types", .key tn, .key "extends"]
      (match lib.type? base with
        | none =>
            [{ path := here
               code := "names"
               message := tn ++ " extends " ++ base ++
                ", which is neither declared in this module nor imported" }]
        | some b =>
            if b.isAbstract then []
            else
              [{ path := here
                 code := "names"
                 message := tn ++ " extends " ++ base ++
                  ", which is not abstract; a base has no objects of its own" }]) ++
      if lib.comesBack tn (lib.types.length + 1) [] (some base) then
        [{ path := here
           code := "names"
           message := tn ++ " extends " ++ base ++ ", and following its bases comes back to " ++ tn }]
      else []

/-! ### What following bases reaches -/

namespace Library

variable {lib : Library} {fuel : Nat} {seen : List String} {step : Option String}

variable (lib) in
/-- One type extends another the library holds. -/
def Extends (a b : String) : Prop :=
  ∃ t, lib.type? a = some t ∧ t.base = some b ∧ (lib.type? b).isSome

/-- A walk up the bases, so far: each type it has passed extends one it has passed or
the next. -/
structure Walked (lib : Library) (seen : List String) (step : Option String) : Prop where
  once : seen.Nodup
  held : ∀ s ∈ seen, (lib.type? s).isSome
  next : ∀ s ∈ seen, ∀ u, lib.Extends s u → u ∈ seen ∨ step = some u

theorem Walked.start (step : Option String) : lib.Walked [] step where
  once := List.nodup_nil
  held := by simp
  next := by simp

theorem Walked.cons {s : String} {t : FlowType} (h : lib.Walked seen (some s))
    (hs : lib.type? s = some t) (hnew : s ∉ seen) : lib.Walked (s :: seen) t.base where
  once := List.nodup_cons.mpr ⟨hnew, h.once⟩
  held := List.forall_mem_cons.mpr ⟨by rw [hs]; rfl, h.held⟩
  next := by
    refine List.forall_mem_cons.mpr ⟨?_, fun a ha u hu => .inl ?_⟩
    · rintro u ⟨t', ht', hbase, -⟩
      obtain rfl := Option.some.inj (hs.symm.trans ht')
      exact .inr hbase
    · rcases h.next a ha u hu with hin | heq
      · exact List.mem_cons_of_mem _ hin
      · exact Option.some.inj heq ▸ List.mem_cons_self

/-- A walk passes each type once, so no more than there are. -/
theorem Walked.length_le (h : lib.Walked seen step) : seen.length ≤ lib.types.length := by
  have hsub : seen ⊆ Table.keys lib.types := fun s hs => Table.mem_keys.mpr (h.held s hs)
  have hle := (List.subperm_of_subset h.once hsub).length_le
  rwa [Table.keys, List.length_map] at hle

/-- A walk with nowhere new to go has passed all it reaches. -/
theorem Walked.closed (h : lib.Walked seen step) (hend : ∀ u, step = some u → (lib.type? u).isSome →
      u ∈ seen) {s w : String} (hs : s ∈ seen) (hdown : Relation.ReflTransGen lib.Extends s w) :
    w ∈ seen := by
  induction hdown with
  | refl => exact hs
  | tail _ hstep ih =>
      rcases h.next _ ih _ hstep with hin | heq
      · exact hin
      · obtain ⟨-, -, -, hheld⟩ := hstep
        exact hend _ heq hheld

/-- **Steps enough.**  What a walk reaches from the types it has passed, and from the
next, it has passed or goes on to list. -/
theorem Walked.lists (h : lib.Walked seen step) (hfuel : lib.types.length < seen.length + fuel)
    {s w : String} (hs : s ∈ seen ∨ step = some s ∧ (lib.type? s).isSome)
    (hdown : Relation.ReflTransGen lib.Extends s w) :
    w ∈ seen ∨ w ∈ lib.basesFrom fuel seen step := by
  induction fuel generalizing seen step s with
  | zero =>
      have := h.length_le
      omega
  | succ fuel ih =>
      by_cases hnew : ∃ u t, step = some u ∧ lib.type? u = some t ∧ u ∉ seen
      · obtain ⟨u, t, rfl, ht, hu⟩ := hnew
        have hs' : s ∈ u :: seen := by
          rcases hs with hs | ⟨heq, -⟩
          · exact List.mem_cons_of_mem _ hs
          · exact Option.some.inj heq ▸ List.mem_cons_self
        have hlist : lib.basesFrom (fuel + 1) seen (some u) =
            u :: lib.basesFrom fuel (u :: seen) t.base := by
          simp [basesFrom, ht, hu]
        rw [hlist, List.mem_cons]
        rcases ih (h.cons ht hu) (by rw [List.length_cons]; omega) (.inl hs') hdown with hw | hw
        · rcases List.mem_cons.mp hw with rfl | hw
          · exact .inr (.inl rfl)
          · exact .inl hw
        · exact .inr (.inr hw)
      · have hend : ∀ u, step = some u → (lib.type? u).isSome → u ∈ seen := by
          intro u hstep hheld
          by_contra hu
          obtain ⟨t, ht⟩ := Option.isSome_iff_exists.mp hheld
          exact hnew ⟨u, t, hstep, ht, hu⟩
        rcases hs with hs | ⟨hstep, hheld⟩
        · exact .inl (h.closed hend hs hdown)
        · exact .inl (h.closed hend (hend s hstep hheld) hdown)

/-- What a walk lists, it reaches. -/
theorem reached_of_basesFrom {w : String} (h : w ∈ lib.basesFrom fuel seen step) :
    ∃ s, step = some s ∧ (lib.type? s).isSome ∧ Relation.ReflTransGen lib.Extends s w := by
  induction fuel generalizing seen step with
  | zero => cases h
  | succ fuel ih =>
      cases step with
      | none => cases h
      | some s =>
          cases ht : lib.type? s with
          | none => simp [basesFrom, ht] at h
          | some t =>
              by_cases hin : s ∈ seen
              · simp [basesFrom, ht, hin] at h
              · simp only [basesFrom, ht, hin, if_false, List.mem_cons] at h
                refine ⟨s, rfl, by rw [ht]; rfl, ?_⟩
                rcases h with rfl | h
                · exact .refl
                · obtain ⟨u, hbase, hheld, hdown⟩ := ih h
                  exact .head ⟨t, ht, hbase, hheld⟩ hdown

/-- The check's walk comes back just where it lists the type. -/
theorem comesBack_eq (tn : String) :
    lib.comesBack tn fuel seen step = decide (tn ∈ lib.basesFrom fuel seen step) := by
  induction fuel generalizing seen step with
  | zero => simp [comesBack, basesFrom]
  | succ fuel ih =>
      cases step with
      | none => simp [comesBack, basesFrom]
      | some s =>
          cases ht : lib.type? s with
          | none => simp [comesBack, basesFrom, ht]
          | some t =>
              by_cases hin : s ∈ seen
              · simp [comesBack, basesFrom, ht, hin]
              · rw [Bool.eq_iff_iff]
                simp only [comesBack, basesFrom, ht, hin, ih, decide_false, Bool.not_false,
                  Bool.true_and, Bool.or_eq_true, decide_eq_true_eq, if_false, List.mem_cons]
                exact or_congr_left eq_comm

/-- **What a type is.**  A type is of each it extends, however many times over, and of
no other. -/
theorem isA_iff_extends (type want : String) :
    lib.isA type want = true ↔ Relation.ReflTransGen lib.Extends type want := by
  unfold isA bases
  rw [Bool.or_eq_true, decide_eq_true_iff, List.contains_iff_mem]
  cases ht : lib.type? type with
  | none =>
      have hnone : lib.basesFrom lib.types.length [type] none = [] := by
        cases lib.types.length <;> rfl
      rw [Option.bind_none, hnone]
      refine ⟨fun h => h.elim (fun heq => heq ▸ .refl) (fun h => by cases h), fun h => .inl ?_⟩
      rcases Relation.ReflTransGen.cases_head h with heq | ⟨u, ⟨t, ht', -⟩, -⟩
      · exact heq
      · rw [ht] at ht'
        cases ht'
  | some t =>
      rw [Option.bind_some]
      constructor
      · rintro (rfl | h)
        · exact .refl
        · obtain ⟨s, hbase, hheld, hdown⟩ := reached_of_basesFrom h
          exact .head ⟨t, ht, hbase, hheld⟩ hdown
      · intro h
        have hwalked : lib.Walked [type] t.base :=
          @Walked.cons lib [] type t (.start _) ht List.not_mem_nil
        rcases @Walked.lists lib lib.types.length [type] t.base hwalked (by simp) type want
          (.inl List.mem_cons_self) h with hw | hw
        · exact .inl (List.mem_singleton.mp hw).symm
        · exact .inr hw

/-- A type comes back just where it extends itself, however many times over. -/
theorem comesBack_iff {tn base : String} {t : FlowType} (ht : lib.type? tn = some t)
    (hbase : t.base = some base) :
    lib.comesBack tn (lib.types.length + 1) [] (some base) = true ↔
      Relation.TransGen lib.Extends tn tn := by
  rw [comesBack_eq, decide_eq_true_iff]
  constructor
  · intro h
    obtain ⟨s, hs, hheld, hdown⟩ := reached_of_basesFrom h
    obtain rfl := Option.some.inj hs
    exact .head' ⟨t, ht, hbase, hheld⟩ hdown
  · intro h
    obtain ⟨u, ⟨t', ht', hbase', hheld⟩, hdown⟩ := Relation.TransGen.head'_iff.mp h
    obtain rfl := Option.some.inj (ht.symm.trans ht')
    obtain rfl := Option.some.inj (hbase.symm.trans hbase')
    rcases @Walked.lists lib (lib.types.length + 1) [] (some base) (.start _) (by simp) base tn
      (.inr ⟨rfl, hheld⟩) hdown with hw | hw
    · cases hw
    · exact hw

end Library

theorem extendsErrors_nil_iff {lib : Library} {tn : String} {t : FlowType}
    (ht : lib.type? tn = some t) :
    extendsErrors lib tn t = [] ↔
      (∀ base, t.base = some base → ∃ b, lib.type? base = some b ∧ b.isAbstract = true) ∧
        ¬ Relation.TransGen lib.Extends tn tn := by
  cases hbase : t.base with
  | none =>
      refine ⟨fun _ => ⟨fun base h => (by cases h), fun h => ?_⟩,
        fun _ => by simp [extendsErrors, hbase]⟩
      obtain ⟨u, ⟨t', ht', hbase', -⟩, -⟩ := Relation.TransGen.head'_iff.mp h
      obtain rfl := Option.some.inj (ht.symm.trans ht')
      rw [hbase] at hbase'
      cases hbase'
  | some base =>
      rw [← Library.comesBack_iff ht hbase]
      unfold extendsErrors
      rw [hbase]
      dsimp only
      rw [List.append_eq_nil_iff]
      refine and_congr ?_ (by split <;> simp_all)
      cases hb : lib.type? base with
      | none => simp [hb]
      | some b => simp [hb]

/-- **Families are checked exactly.**  A type is of another just where it extends it,
however many times over; nothing is found of what a type extends just where that is an
abstract type it is given and it does not extend itself, however many times over; and
where nothing is found of any, being of a type orders the types. -/
theorem families_exact (lib : Library) :
    (∀ type want, lib.isA type want = true ↔ Relation.ReflTransGen lib.Extends type want) ∧
    (∀ tn t, lib.type? tn = some t → (extendsErrors lib tn t = [] ↔
      (∀ base, t.base = some base → ∃ b, lib.type? base = some b ∧ b.isAbstract = true) ∧
        ¬ Relation.TransGen lib.Extends tn tn)) ∧
    ((∀ tn t, lib.type? tn = some t → extendsErrors lib tn t = []) →
      ∀ a b, lib.isA a b = true → lib.isA b a = true → a = b) := by
  refine ⟨Library.isA_iff_extends, fun tn t ht => extendsErrors_nil_iff ht, ?_⟩
  intro hquiet a b hab hba
  have hthere := (Library.isA_iff_extends a b).mp hab
  have hback := (Library.isA_iff_extends b a).mp hba
  rcases Relation.reflTransGen_iff_eq_or_transGen.mp hthere with heq | hthere
  · exact heq.symm
  · have hself := hthere.trans_left hback
    obtain ⟨u, ⟨t, ht, -⟩, -⟩ := Relation.TransGen.head'_iff.mp hself
    exact absurd hself ((extendsErrors_nil_iff ht).mp (hquiet a t ht)).2

end ObjectFlow
