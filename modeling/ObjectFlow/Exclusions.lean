import ObjectFlow.LogReplays
import ObjectFlow.PortSound

/-!
# What an import's exclusions account for

Each round finds the classes over what the rounds before left in, and takes out
what the file excludes of them.  The last round's classes are the ones told of,
and the ones whose reasons are looked at.  A class of what is not of its
declaration is in every round; any other holds only objects still in, so one a
round excludes is never found again, and its objects are left out untold.
-/

namespace ObjectFlow

open Base

/-! ### Classes found -/

theorem mem_insertIndex {i index : Nat} {objects : List Nat} :
    i ∈ insertIndex index objects ↔ i = index ∨ i ∈ objects := by
  unfold insertIndex
  split
  · grind
  · exact List.mem_orderedInsert (· ≤ ·)

theorem nodup_insertIndex {index : Nat} {objects : List Nat} (h : objects.Nodup) :
    (insertIndex index objects).Nodup := by
  unfold insertIndex
  split
  · exact h
  · next hnew =>
      have hperm := List.perm_orderedInsert (· ≤ ·) index objects
      exact hperm.nodup_iff.mpr (List.nodup_cons.mpr ⟨hnew, h⟩)

theorem mem_foldl_insertIndex {i : Nat} (more excluded : List Nat) :
    i ∈ more.foldl (fun excluded index => insertIndex index excluded) excluded ↔
      i ∈ more ∨ i ∈ excluded := by
  induction more generalizing excluded with
  | nil => simp
  | cons index more ih =>
      rw [List.foldl_cons, ih, mem_insertIndex, List.mem_cons]
      grind

/-- Whether the file decides a class to be excluded. -/
def excludes (file : List ViolationClass) (c : ViolationClass) : Bool :=
  (decided file c).any fun f => f.disposition = .exclude

theorem mem_excludedByFile {file : List ViolationClass} {classes : Classes} {i : Nat} :
    i ∈ excludedByFile file classes ↔ ∃ e ∈ classes, excludes file e.1 = true ∧ i ∈ e.2 := by
  unfold excludedByFile
  rw [List.mem_flatMap]
  constructor
  · intro ⟨e, he, hi⟩
    obtain ⟨hmem, hexcludes⟩ := List.mem_filter.mp he
    exact ⟨e, hmem, hexcludes, hi⟩
  · intro ⟨e, hmem, hexcludes, hi⟩
    exact ⟨e, List.mem_filter.mpr ⟨hmem, hexcludes⟩, hi⟩

namespace ViolationClass

theorem same_iff {c d : ViolationClass} : c.same d = true ↔
    c.type = d.type ∧ c.kind = d.kind ∧ c.rule = d.rule ∧ c.shape = d.shape := by
  simp only [same, Bool.and_eq_true, decide_eq_true_eq]
  tauto

theorem same_refl (c : ViolationClass) : c.same c = true := same_iff.mpr ⟨rfl, rfl, rfl, rfl⟩

/-- A class stands for any of its identity. -/
theorem same_congr {c d : ViolationClass} (h : c.same d = true) (e : ViolationClass) :
    c.same e = d.same e ∧ e.same c = e.same d := by
  obtain ⟨htype, hkind, hrule, hshape⟩ := same_iff.mp h
  unfold same
  rw [htype, hkind, hrule, hshape]
  exact ⟨rfl, rfl⟩

end ViolationClass

/-- The file decides a class by its identity. -/
theorem excludes_congr (file : List ViolationClass) {c d : ViolationClass}
    (h : c.same d = true) : excludes file c = excludes file d := by
  have hdecided : decided file c = decided file d := by
    unfold decided
    congr 1
    funext f
    exact (ViolationClass.same_congr h f).2
  unfold excludes
  rw [hdecided]

namespace Classes

/-- Classes found over others, which stand as they were: each identity once, and
each class found with some objects, each once and as the class's kind and shape
would have it. -/
structure FoundOver (base : Classes) (P : ViolationKind → String → Nat → Prop)
    (classes : Classes) : Prop where
  distinct : classes.Pairwise fun a b => a.1.same b.1 = false
  kept : ∀ e ∈ base, e ∈ classes
  entries : ∀ e ∈ classes, e ∈ base ∨
    (e.2 ≠ [] ∧ e.2.Nodup ∧ ∀ i ∈ e.2, P e.1.kind e.1.shape i)

/-- What is in the classes once an object is found in one. -/
theorem mem_add {e : ViolationClass × List Nat} {classes : Classes} {c : ViolationClass}
    {index : Nat} (h : e ∈ classes.add c index) :
    e ∈ classes ∨ e = (c, [index]) ∨
      ∃ objects, (e.1, objects) ∈ classes ∧ e.1.same c = true ∧
        e.2 = insertIndex index objects := by
  induction classes with
  | nil => exact .inr (.inl (List.mem_singleton.mp h))
  | cons d rest ih =>
      obtain ⟨d, objects⟩ := d
      unfold add at h
      split at h
      · next hsame =>
          rcases List.mem_cons.mp h with rfl | h
          · exact .inr (.inr ⟨objects, List.mem_cons_self, hsame, rfl⟩)
          · exact .inl (List.mem_cons_of_mem _ h)
      · rcases List.mem_cons.mp h with rfl | h
        · exact .inl List.mem_cons_self
        · rcases ih h with h | h | ⟨old, hold, hsame, heq⟩
          · exact .inl (List.mem_cons_of_mem _ h)
          · exact .inr (.inl h)
          · exact .inr (.inr ⟨old, List.mem_cons_of_mem _ hold, hsame, heq⟩)

/-- A class of another identity stands as it was. -/
theorem mem_add_of_ne {e : ViolationClass × List Nat} {classes : Classes} {c : ViolationClass}
    {index : Nat} (h : e ∈ classes) (hne : e.1.same c = false) : e ∈ classes.add c index := by
  induction classes with
  | nil => cases h
  | cons d rest ih =>
      obtain ⟨d, objects⟩ := d
      unfold add
      split
      · next hsame =>
          rcases List.mem_cons.mp h with rfl | h
          · rw [hsame] at hne
            cases hne
          · exact List.mem_cons_of_mem _ h
      · rcases List.mem_cons.mp h with rfl | h
        · exact List.mem_cons_self
        · exact List.mem_cons_of_mem _ (ih h)

/-- An identity is found once. -/
theorem distinct_add {classes : Classes} (h : classes.Pairwise fun a b => a.1.same b.1 = false)
    (c : ViolationClass) (index : Nat) :
    (classes.add c index).Pairwise fun a b => a.1.same b.1 = false := by
  induction classes with
  | nil => exact List.pairwise_singleton _ _
  | cons d rest ih =>
      obtain ⟨d, objects⟩ := d
      obtain ⟨hhead, hrest⟩ := List.pairwise_cons.mp h
      unfold add
      split
      · exact List.pairwise_cons.mpr ⟨hhead, hrest⟩
      · next hne =>
          refine List.pairwise_cons.mpr ⟨fun e he => ?_, ih hrest⟩
          rcases mem_add he with he | rfl | ⟨old, hold, -, -⟩
          · exact hhead e he
          · exact Bool.not_eq_true _ ▸ hne
          · exact hhead (e.1, old) hold

namespace FoundOver

variable {base classes : Classes} {P : ViolationKind → String → Nat → Prop}

/-- Nothing found yet over classes of an identity each. -/
theorem start (h : base.Pairwise fun a b => a.1.same b.1 = false) : FoundOver base P base :=
  ⟨h, fun _ he => he, fun _ he => .inl he⟩

/-- An object found in a class that is none of the base's. -/
theorem found (h : FoundOver base P classes) (o : ImportedObject) {index : Nat}
    {kind : ViolationKind} (rule : String) {shape : String} (hP : P kind shape index)
    (hbase : ∀ e ∈ base, ¬ (e.1.kind = kind ∧ e.1.shape = shape)) :
    FoundOver base P (classes.found o index kind rule shape) := by
  refine ⟨distinct_add h.distinct _ index, ?_, ?_⟩
  · intro e he
    refine mem_add_of_ne (h.kept e he) (Bool.eq_false_iff.mpr fun hsame => ?_)
    obtain ⟨-, hkind, -, hshape⟩ := ViolationClass.same_iff.mp hsame
    exact hbase e he ⟨hkind, hshape⟩
  · intro e he
    rcases mem_add he with he | rfl | ⟨objects, hold, hsame, heq⟩
    · exact h.entries e he
    · refine .inr ⟨List.cons_ne_nil _ _, List.nodup_singleton _, fun i hi => ?_⟩
      rw [List.mem_singleton.mp hi]
      exact hP
    · obtain ⟨-, hkind, -, hshape⟩ := ViolationClass.same_iff.mp hsame
      rcases h.entries _ hold with hold | ⟨-, hnodup, hobjects⟩
      · exact absurd ⟨hkind, hshape⟩ (hbase _ hold)
      · refine .inr ⟨?_, ?_, fun i hi => ?_⟩
        · rw [heq]
          exact List.ne_nil_of_mem (mem_insertIndex.mpr (.inl rfl))
        · rw [heq]
          exact nodup_insertIndex hnodup
        · rw [heq] at hi
          rcases mem_insertIndex.mp hi with rfl | hi
          · rw [hkind, hshape]
            exact hP
          · exact hobjects i hi

end FoundOver

end Classes

/-! ### What is not of its declaration -/

/-- What a class of what is not of its declaration is found as. -/
def Undeclared (kind : ViolationKind) (shape : String) : Prop :=
  kind = .guard ∧ (shape = NOT_DECLARED ∨ shape = NOT_OF_ITS_TYPE)

/-- Where in its batch an object read stands. -/
def At (places : List Nat) (kind : ViolationKind) (shape : String) (index : Nat) : Prop :=
  Undeclared kind shape ∧ index ∈ places

/-- What is read of a batch's attributes: the classes of what is not of its
declaration, and references of the objects read. -/
structure Valued.ReadAt (places : List Nat) (v : Valued) : Prop where
  classes : Classes.FoundOver [] (At places) v.classes
  references : ∀ ref ∈ v.references, ref.index ∈ places

section

variable {r : Readers} {lib : Library} {places : List Nat} {p : ImportPlaced} {v v' : Valued}

/-- An object of the batch found in a class of what is not of its declaration. -/
theorem Valued.ReadAt.found (h : v.ReadAt places) (hp : p.index ∈ places) (rule : String)
    {shape : String} (hshape : shape = NOT_DECLARED ∨ shape = NOT_OF_ITS_TYPE) :
    Classes.FoundOver [] (At places) (v.classes.found p.given p.index .guard rule shape) :=
  h.classes.found p.given rule ⟨⟨rfl, hshape⟩, hp⟩ (by simp)

theorem readReference_at (h : v.ReadAt places) (hp : p.index ∈ places) (a target : String)
    (optional : Bool) (raw : Json) : (readReference lib p a target optional raw v).ReadAt places := by
  unfold readReference
  refine ⟨?_, ?_⟩
  · dsimp only
    split
    · exact h.found hp a (.inr rfl)
    · exact h.classes
  · intro ref href
    rcases List.mem_append.mp href with href | href
    · exact h.references ref href
    · rw [List.mem_singleton.mp href]
      exact hp

theorem readScalar_at (h : v.ReadAt places) (hp : p.index ∈ places) (a : String) (spec : Attribute)
    (raw : Json) : (readScalar r lib p a spec raw v).ReadAt places := by
  unfold readScalar
  split
  · exact ⟨h.classes, h.references⟩
  · refine ⟨?_, h.references⟩
    dsimp only
    split
    · exact h.found hp a (.inl rfl)
    · exact h.found hp a (.inr rfl)

theorem readAttribute_at (h : v.ReadAt places) (hp : p.index ∈ places) {t : FlowType} {a : String}
    {raw : Json} (hread : readAttribute r lib p t a raw v = .ok v') : v'.ReadAt places := by
  unfold readAttribute at hread
  split at hread
  · cases hread
  · split at hread
    · cases hread
      exact h
    · split at hread
      · cases hread
        exact h
      · split at hread
        · cases hread
          exact readReference_at h hp ..
        · cases hread
          exact readScalar_at h hp ..

theorem readAttributes_at (h : v.ReadAt places) (hp : p.index ∈ places) {t : FlowType}
    {attributes : List (String × Json)}
    (hread : readAttributes r lib p t attributes v = .ok v') : v'.ReadAt places := by
  induction attributes generalizing v with
  | nil =>
      cases hread
      exact h
  | cons first rest ih =>
      unfold readAttributes at hread
      obtain ⟨next, hone, hrest⟩ := ok_of_bind hread
      exact ih (readAttribute_at h hp hone) hrest

end

theorem readPlaced_at {r : Readers} {w : World} {places : List Nat} {p q : ImportPlaced}
    {v v' : Valued} (h : v.ReadAt places) (hp : p.index ∈ places)
    (hread : readPlaced r w p v = .ok (q, v')) : v'.ReadAt places := by
  unfold readPlaced at hread
  split at hread
  · cases hread
    exact h
  · obtain ⟨read, hattributes, hread⟩ := ok_of_bind hread
    cases hread
    refine readAttributes_at ?_ hp hattributes
    refine ⟨?_, h.references⟩
    dsimp only
    split
    · exact h.found hp "state" (.inl rfl)
    · exact h.classes

theorem readAll_at {r : Readers} {w : World} {places : List Nat} {placed placed' : List ImportPlaced}
    {v v' : Valued} (h : v.ReadAt places) (hplaced : ∀ p ∈ placed, p.index ∈ places)
    (hread : readAll r w placed v = .ok (placed', v')) : v'.ReadAt places := by
  induction placed generalizing v placed' with
  | nil =>
      cases hread
      exact h
  | cons p rest ih =>
      unfold readAll at hread
      obtain ⟨⟨q, read⟩, hone, hread⟩ := ok_of_bind hread
      obtain ⟨⟨others, last⟩, hrest, hread⟩ := ok_of_bind hread
      cases hread
      exact ih (readPlaced_at h (hplaced p List.mem_cons_self) hone)
        (fun p hp => hplaced p (List.mem_cons_of_mem _ hp)) hrest

/-- Where a batch's objects stand. -/
def Port.places (port : Port) : List Nat := port.placed.map ImportPlaced.index

/-- **A batch read**: its classes are of what is not of its declaration, found
of objects placed, and so are its references. -/
theorem readBatch_at {r : Readers} {w : World} {external : ExternalIds} {batch : ImportBatch}
    {alloc alloc' : Counters} {port : Port}
    (h : readBatch r w external batch alloc = .ok (port, alloc')) :
    Classes.FoundOver [] (At port.places) port.structural ∧
      ∀ ref ∈ port.references, ref.index ∈ port.places := by
  unfold readBatch at h
  obtain ⟨placing, hplaced, h⟩ := ok_of_bind h
  obtain ⟨⟨placed, v⟩, hread, h⟩ := ok_of_bind h
  obtain ⟨_, -, h⟩ := ok_of_bind h
  cases h
  have hplaces : placed.map ImportPlaced.index = placing.placed.map ImportPlaced.index := by
    have hbare := congrArg (List.map ImportPlaced.index) (readAll_bare hread)
    rwa [List.map_map, List.map_map] at hbare
  have hat : v.ReadAt (placing.placed.map ImportPlaced.index) :=
    readAll_at ⟨Classes.FoundOver.start List.Pairwise.nil, by simp⟩
      (fun p hp => List.mem_map.mpr ⟨p, hp, rfl⟩) hread
  rw [← hplaces] at hat
  exact ⟨hat.classes, hat.references⟩

/-! ### What a round finds -/

/-- What a round finds besides: of objects of the batch that are not excluded,
and none of what is not of its declaration. -/
def Left (places excluded : List Nat) (kind : ViolationKind) (shape : String) (index : Nat) : Prop :=
  ¬ Undeclared kind shape ∧ index ∈ places ∧ index ∉ excluded

/-- What a batch read is, of which the rounds are run. -/
structure Port.Declares (port : Port) : Prop where
  classes : Classes.FoundOver [] (At port.places) port.structural
  references : ∀ ref ∈ port.references, ref.index ∈ port.places

section

variable {r : Readers} {w : World} {external : ExternalIds} {port : Port} {excluded : List Nat}

theorem Port.Declares.entry (hport : port.Declares) {e : ViolationClass × List Nat}
    (he : e ∈ port.structural) :
    Undeclared e.1.kind e.1.shape ∧ e.2 ≠ [] ∧ e.2.Nodup ∧ ∀ i ∈ e.2, i ∈ port.places := by
  rcases hport.classes.entries e he with hnone | ⟨hsome, hnodup, hat⟩
  · cases hnone
  · obtain ⟨i, hi⟩ := List.exists_mem_of_ne_nil _ hsome
    exact ⟨(hat i hi).1, hsome, hnodup, fun i hi => (hat i hi).2⟩

/-- An object left in found in a class besides. -/
theorem Classes.FoundOver.besides (hport : port.Declares) {classes : Classes}
    (h : Classes.FoundOver port.structural (Left port.places excluded) classes) (o : ImportedObject)
    {index : Nat} {kind : ViolationKind} (rule : String) {shape : String}
    (hkind : ¬ Undeclared kind shape) (hplace : index ∈ port.places) (hleft : index ∉ excluded) :
    Classes.FoundOver port.structural (Left port.places excluded)
      (classes.found o index kind rule shape) := by
  refine h.found o rule ⟨hkind, hplace, hleft⟩ fun e he heq => hkind ?_
  rw [← heq.1, ← heq.2]
  exact (hport.entry he).1

theorem findReferences_left (hport : port.Declares) (gone : List LegacyKey) {round : Round}
    (h : Classes.FoundOver port.structural (Left port.places excluded) round.classes) :
    Classes.FoundOver port.structural (Left port.places excluded)
      (findReferences external port excluded gone round).classes := by
  unfold findReferences
  refine List.foldlRecOn (motive := fun round : Round =>
    Classes.FoundOver port.structural (Left port.places excluded) round.classes) _ _ h ?_
  intro round hround ref href
  obtain ⟨hmem, hleft⟩ := List.mem_filter.mp href
  split
  · exact hround
  · refine hround.besides hport ref.given ref.name ?_ (hport.references ref hmem) (by simpa using hleft)
    rintro ⟨hkind, -⟩
    cases hkind

theorem findFields_left (hport : port.Declares) {placed : List ImportPlaced}
    (hplaced : ∀ p ∈ placed, p.index ∈ port.places ∧ p.index ∉ excluded) (gone : List LegacyKey)
    {classes : Classes}
    (h : Classes.FoundOver port.structural (Left port.places excluded) classes) :
    Classes.FoundOver port.structural (Left port.places excluded)
      (findFields w external port placed gone classes) := by
  unfold findFields
  refine List.foldlRecOn _ _ h fun classes hclasses p hp => ?_
  refine List.foldlRecOn _ _ hclasses fun classes hclasses rule _ => ?_
  obtain ⟨hplace, hleft⟩ := hplaced p hp
  refine hclasses.besides hport p.given rule ?_ hplace hleft
  rintro ⟨hkind, -⟩
  cases hkind

theorem findGuards_left (hport : port.Declares) {work : World} {dropped : List (Nat × String)}
    {p : ImportPlaced} (hplace : p.index ∈ port.places) (hleft : p.index ∉ excluded) (t : FlowType)
    (obj : Object) {classes : Classes}
    (h : Classes.FoundOver port.structural (Left port.places excluded) classes) :
    Classes.FoundOver port.structural (Left port.places excluded)
      (findGuards work dropped p t obj classes) := by
  have habsent : ¬ Undeclared .guard IS_ABSENT := by
    rintro ⟨-, hshape⟩
    revert hshape
    decide
  have hshared : ¬ Undeclared .guard IS_SHARED := by
    rintro ⟨-, hshape⟩
    revert hshape
    decide
  unfold findGuards
  refine List.foldlRecOn _ _ h fun classes hclasses spec _ => ?_
  have hprovided : Classes.FoundOver port.structural (Left port.places excluded)
      (if requiredOf spec.2 && (obj.attr spec.1).isAbsent && !dropped.contains (p.index, spec.1) then
        classes.found p.given p.index .guard (spec.1 ++ "_provided") IS_ABSENT
      else classes) := by
    split
    · exact hclasses.besides hport p.given _ habsent hplace hleft
    · exact hclasses
  dsimp only
  split
  · exact hprovided
  · split
    · exact hprovided.besides hport p.given _ hshared hplace hleft
    · exact hprovided

theorem judgePlaced_left (hport : port.Declares) {round : Round} {p : ImportPlaced}
    (hplace : p.index ∈ port.places) (hleft : p.index ∉ excluded) {classes classes' : Classes}
    (h : Classes.FoundOver port.structural (Left port.places excluded) classes)
    (hjudge : judgePlaced r w round p classes = .ok classes') :
    Classes.FoundOver port.structural (Left port.places excluded) classes' := by
  unfold judgePlaced at hjudge
  split at hjudge
  · next t obj ht hobj =>
      split at hjudge
      · cases hjudge
        exact h
      · obtain ⟨names, -, hjudge⟩ := ok_of_bind hjudge
        cases hjudge
        refine List.foldlRecOn _ _ (findGuards_left hport hplace hleft t obj h)
          fun classes hclasses n _ => ?_
        refine hclasses.besides hport p.given n ?_ hplace hleft
        rintro ⟨hkind, -⟩
        cases hkind
  · cases hjudge
    exact h

theorem judgeAllPlaced_left (hport : port.Declares) {round : Round} {placed : List ImportPlaced}
    (hplaced : ∀ p ∈ placed, p.index ∈ port.places ∧ p.index ∉ excluded) {classes classes' : Classes}
    (h : Classes.FoundOver port.structural (Left port.places excluded) classes)
    (hjudge : judgeAllPlaced r w round placed classes = .ok classes') :
    Classes.FoundOver port.structural (Left port.places excluded) classes' := by
  induction placed generalizing classes with
  | nil =>
      cases hjudge
      exact h
  | cons p rest ih =>
      unfold judgeAllPlaced at hjudge
      obtain ⟨next, hone, hrest⟩ := ok_of_bind hjudge
      obtain ⟨hplace, hleft⟩ := hplaced p List.mem_cons_self
      exact ih (fun p hp => hplaced p (List.mem_cons_of_mem _ hp))
        (judgePlaced_left hport hplace hleft h hone) hrest

/-- **A round** finds the classes of what is not of its declaration as they were
read, and any other of objects left in alone. -/
theorem oneRound_left (hport : port.Declares) {round : Round}
    (h : oneRound r w external port excluded = .ok round) :
    Classes.FoundOver port.structural (Left port.places excluded) round.classes := by
  obtain ⟨classes, hjudge, h⟩ := ok_of_bind h
  cases h
  have hplaced : ∀ p ∈ port.placed.filter (fun p => !excluded.contains p.index),
      p.index ∈ port.places ∧ p.index ∉ excluded := by
    intro p hp
    obtain ⟨hmem, hleft⟩ := List.mem_filter.mp hp
    exact ⟨List.mem_map.mpr ⟨p, hmem, rfl⟩, by simpa using hleft⟩
  refine judgeAllPlaced_left hport hplaced ?_ hjudge
  exact findFields_left hport hplaced _
    (findReferences_left hport _ (Classes.FoundOver.start hport.classes.distinct))

end

/-! ### The rounds run -/

section

variable (r : Readers) (w : World) (external : ExternalIds) (file : List ViolationClass)
  (port : Port)

/-- The rounds an import runs, each with what was excluded before it. -/
def roundsRun : Nat → List Nat → Except NotRun (List (Round × List Nat))
  | fuel, excluded => do
      let round ← oneRound r w external port excluded
      let more := excludedByFile file round.classes
      match fuel with
      | 0 => return [(round, excluded)]
      | fuel + 1 =>
          if more.all excluded.contains then return [(round, excluded)]
          else do
            let later ← roundsRun fuel
              (more.foldl (fun excluded index => insertIndex index excluded) excluded)
            return (round, excluded) :: later

/-- What the file excludes before any round. -/
def Port.excludedFirst : List Nat :=
  (excludedByFile file port.structural).foldl (fun excluded i => insertIndex i excluded) []

end

/-- An import's batch as read, the rounds it runs, and what it leaves out. -/
def importRounds (r : Readers) (w : World) (external : ExternalIds) (batch : ImportBatch)
    (alloc : Counters) (file : List ViolationClass) :
    Except Unplaced (Port × List (Round × List Nat) × List Nat) := do
  let (port, _) ← readBatch r w external batch alloc
  let (_, excluded) ← settleRounds r w external file port
  match roundsRun r w external file port port.placed.length (port.excludedFirst file) with
  | .ok rounds => return (port, rounds, excluded)
  | .error e => .error (.notRun e)

section

variable {r : Readers} {w : World} {external : ExternalIds} {file : List ViolationClass}
  {port : Port}

theorem Port.mem_excludedFirst {i : Nat} :
    i ∈ port.excludedFirst file ↔
      ∃ e ∈ port.structural, excludes file e.1 = true ∧ i ∈ e.2 := by
  unfold Port.excludedFirst
  rw [mem_foldl_insertIndex, mem_excludedByFile]
  simp

/-- What a round is run after: the rounds up to the last, which the rest
of the import follows, and an exclusion that only grows. -/
theorem placeRounds_run {fuel : Nat} {excluded excluded' : List Nat} {round : Round}
    (h : placeRounds r w external file port fuel excluded = .ok (round, excluded')) :
    ∃ rounds last, roundsRun r w external file port fuel excluded = .ok rounds ∧
      (last, excluded') ∈ rounds ∧ oneRound r w external port excluded' = .ok last ∧
      round = last.applyDrops port ∧ ∀ i ∈ excluded, i ∈ excluded' := by
  induction fuel generalizing excluded with
  | zero =>
      unfold placeRounds at h
      obtain ⟨last, hlast, h⟩ := ok_of_bind h
      cases h
      refine ⟨[(last, excluded')], last, ?_, List.mem_cons_self, hlast, rfl, fun _ hi => hi⟩
      unfold roundsRun
      rw [hlast]
      rfl
  | succ fuel ih =>
      unfold placeRounds at h
      obtain ⟨first, hfirst, h⟩ := ok_of_bind h
      dsimp only at h
      split at h
      · next hdone =>
          cases h
          refine ⟨[(first, excluded')], first, ?_, List.mem_cons_self, hfirst, rfl, fun _ hi => hi⟩
          unfold roundsRun
          rw [hfirst]
          show (if _ then _ else _) = _
          rw [if_pos hdone]
          rfl
      · next hmore =>
          obtain ⟨rounds, last, hrun, hmem, hlast, hround, hgrows⟩ := ih h
          refine ⟨(first, excluded) :: rounds, last, ?_, List.mem_cons_of_mem _ hmem, hlast, hround,
            fun i hi => hgrows i (mem_foldl_insertIndex _ _ |>.mpr (.inr hi))⟩
          unfold roundsRun
          rw [hfirst]
          show (if _ then _ else _) = _
          rw [if_neg hmore, hrun]
          rfl

/-- A round that excludes nothing more is the last. -/
theorem placeRounds_done {fuel : Nat} {excluded excluded' : List Nat} {round first : Round}
    (h : placeRounds r w external file port fuel excluded = .ok (round, excluded'))
    (hfirst : oneRound r w external port excluded = .ok first)
    (hdone : (excludedByFile file first.classes).all excluded.contains = true) :
    roundsRun r w external file port fuel excluded = .ok [(first, excluded)] ∧
      round = first.applyDrops port ∧ excluded' = excluded := by
  cases fuel with
  | zero =>
      unfold placeRounds at h
      rw [hfirst] at h
      cases h
      refine ⟨?_, rfl, rfl⟩
      unfold roundsRun
      rw [hfirst]
      rfl
  | succ fuel =>
      unfold placeRounds at h
      rw [hfirst] at h
      change (if _ then _ else _) = _ at h
      rw [if_pos hdone] at h
      cases h
      refine ⟨?_, rfl, rfl⟩
      unfold roundsRun
      rw [hfirst]
      show (if _ then _ else _) = _
      rw [if_pos hdone]
      rfl

/-- The first of the rounds run. -/
theorem roundsRun_first {fuel : Nat} {excluded : List Nat} {rounds : List (Round × List Nat)}
    (hrun : roundsRun r w external file port fuel excluded = .ok rounds) {first : Round}
    (hfirst : oneRound r w external port excluded = .ok first) : (first, excluded) ∈ rounds := by
  unfold roundsRun at hrun
  rw [hfirst] at hrun
  cases fuel with
  | zero =>
      cases hrun
      exact List.mem_cons_self
  | succ fuel =>
      change (if _ then _ else _) = _ at hrun
      split at hrun
      · cases hrun
        exact List.mem_cons_self
      · obtain ⟨later, -, hrun⟩ := ok_of_bind hrun
        cases hrun
        exact List.mem_cons_self

/-- A round that excludes more takes it out of every round after it. -/
theorem placeRounds_more {fuel : Nat} {excluded excluded' : List Nat} {round first : Round}
    (h : placeRounds r w external file port (fuel + 1) excluded = .ok (round, excluded'))
    (hfirst : oneRound r w external port excluded = .ok first) :
    ∀ i ∈ excludedByFile file first.classes, i ∈ excluded' := by
  intro i hi
  by_cases hdone : (excludedByFile file first.classes).all excluded.contains = true
  · obtain ⟨-, -, hsame⟩ := placeRounds_done h hfirst hdone
    rw [hsame]
    simpa using List.all_eq_true.mp hdone i hi
  · unfold placeRounds at h
    rw [hfirst] at h
    change (if _ then _ else _) = _ at h
    rw [if_neg hdone] at h
    obtain ⟨-, -, -, -, -, -, hgrows⟩ := placeRounds_run h
    exact hgrows i ((mem_foldl_insertIndex _ _).mpr (.inl hi))

end

theorem importRounds_ok {r : Readers} {w : World} {external : ExternalIds} {batch : ImportBatch}
    {alloc : Counters} {file : List ViolationClass} {port : Port}
    {rounds : List (Round × List Nat)} {excluded : List Nat}
    (h : importRounds r w external batch alloc file = .ok (port, rounds, excluded)) :
    roundsRun r w external file port port.placed.length (port.excludedFirst file) =
      .ok rounds := by
  obtain ⟨⟨read, alloc'⟩, -, h⟩ := ok_of_bind h
  obtain ⟨⟨round, gone⟩, -, h⟩ := ok_of_bind h
  dsimp only at h
  split at h
  · next hrun =>
      cases h
      exact hrun
  · cases h

/-! ### An import that is not refused -/

/-- What an import that is not refused was told by: its batch read, its rounds,
and the decisions on the last one's classes. -/
structure Unrefused (r : Readers) (w : World) (external : ExternalIds)
    (batch : ImportBatch) (alloc : Counters) (file : List ViolationClass) (dry : Bool)
    (report : ImportReport) (port : Port) (read : Counters) (round : Round)
    (excluded : List Nat) : Prop where
  placed : readBatch r w external batch alloc = .ok (port, read)
  rounds : settleRounds r w external file port = .ok (round, excluded)
  decisions : checkDecisions file port dry round.classes = .ok ()
  findings : report.findings = round.classes.map fun (c, objects) =>
    finding w external file port excluded c objects

theorem stoppedImport_refusal {α : Type} {report report' : ImportReport} {why : Unplaced}
    {x : Option α} (h : stoppedImport report why = .ok (report', x)) : report'.refusal ≠ none := by
  cases why with
  | refused refusal =>
      cases h
      simp
  | notRun e => cases h

/-- **An import not refused**, applied or dry, was decided by each of its steps
in turn. -/
theorem decideImport_unrefused {r : Readers} {w : World} {external : ExternalIds}
    {held : Table String (List LegacyEntry)} {alloc : Counters} {actor : String}
    {batch : ImportBatch} {file : List ViolationClass} {dry : Bool} {report : ImportReport}
    {change : Option (ImportChange × Counters)}
    (h : decideImport r w external held alloc actor batch file dry = .ok (report, change))
    (hrefusal : report.refusal = none) :
    ∃ port read round excluded,
      Unrefused r w external batch alloc file dry report port read round excluded := by
  unfold decideImport at h
  cases hwho : checkImport w actor batch with
  | error why =>
      rw [hwho] at h
      exact absurd hrefusal (stoppedImport_refusal h)
  | ok who =>
      rw [hwho] at h
      dsimp only at h
      cases hread : readBatch r w external batch alloc with
      | error why =>
          rw [hread] at h
          exact absurd hrefusal (stoppedImport_refusal h)
      | ok told =>
          obtain ⟨port, read⟩ := told
          rw [hread] at h
          dsimp only at h
          cases hrounds : settleRounds r w external file port with
          | error why =>
              rw [hrounds] at h
              exact absurd hrefusal (stoppedImport_refusal h)
          | ok told =>
              obtain ⟨round, excluded⟩ := told
              rw [hrounds] at h
              unfold decideWrites at h
              dsimp only at h
              split at h
              · exact absurd hrefusal (stoppedImport_refusal h)
              · next hdecisions =>
                  refine ⟨port, read, round, excluded, hread, hrounds, hdecisions, ?_⟩
                  split at h
                  · exact absurd hrefusal (stoppedImport_refusal h)
                  · split at h
                    · cases h
                      rfl
                    · cases h
                      rfl

/-- A decision that stands was rightly made on every class with an object of the
batch. -/
theorem checkDecisions_ok {file : List ViolationClass} {port : Port} {dry : Bool}
    {classes : Classes} (h : checkDecisions file port dry classes = .ok ()) :
    ∀ e ∈ classes, e.2 ≠ [] → (∀ i ∈ e.2, i ∈ port.places) →
      wrongDecision file port dry e.1 e.2 = none := by
  induction classes with
  | nil => exact fun _ he => absurd he List.not_mem_nil
  | cons first rest ih =>
      obtain ⟨c, objects⟩ := first
      intro e he hsome hplaces
      unfold checkDecisions at h
      split at h
      · next hnone =>
          rcases List.mem_cons.mp he with rfl | he
          · obtain ⟨i, others, rfl⟩ := List.exists_cons_of_ne_nil hsome
            obtain ⟨p, hp, hindex⟩ := List.mem_map.mp (hplaces i List.mem_cons_self)
            have hfind := List.find?_eq_none.mp hnone p hp
            simp [hindex] at hfind
          · exact ih h e he hsome hplaces
      · split at h
        · cases h
        · next hright =>
            rcases List.mem_cons.mp he with rfl | he
            · exact hright
            · exact ih h e he hsome hplaces

/-- A class rightly excluded is excluded for a reason. -/
theorem reason_of_wrongDecision {file : List ViolationClass} {port : Port} {dry : Bool}
    {c : ViolationClass} {objects : List Nat} (hexcludes : excludes file c = true)
    (h : wrongDecision file port dry c objects = none) :
    ∃ f reason, decided file c = some f ∧ f.disposition = .exclude ∧ f.reason = some reason ∧
      trim reason ≠ "" := by
  unfold excludes at hexcludes
  obtain ⟨f, hf, hdisposition⟩ := (Option.any_eq_true _ _).mp hexcludes
  have hdisposition : f.disposition = .exclude := of_decide_eq_true hdisposition
  unfold wrongDecision at h
  rw [hf] at h
  dsimp only [Option.map_some, Option.getD_some, Option.bind_some] at h
  rw [hdisposition] at h
  dsimp only at h
  split at h
  · cases h
  · next hreason =>
      cases hgiven : f.reason with
      | none => simp [hgiven] at hreason
      | some reason =>
          refine ⟨f, reason, hf, hdisposition, hgiven, ?_⟩
          intro hblank
          simp [hgiven, hblank] at hreason

/-! ### What is accounted for -/

/-- The objects a class held in any of the rounds. -/
def heldOver (rounds : List (Round × List Nat)) (c : ViolationClass) : List Nat :=
  (rounds.flatMap fun (round, _) =>
    (round.classes.filter fun e => e.1.same c).flatMap Prod.snd).dedup

/-- Every exclusion accounted for: each object left out is in a class the file
decides to exclude, in some round, for a reason that is not blank, and each
class excluded in any round is told, with how many objects it left out. -/
structure Accounted (file : List ViolationClass) (rounds : List (Round × List Nat))
    (excluded : List Nat) (report : ImportReport) : Prop where
  reasoned : ∀ i ∈ excluded, ∃ run ∈ rounds, ∃ e ∈ run.1.classes, i ∈ e.2 ∧
    ∃ f reason, decided file e.1 = some f ∧ f.disposition = .exclude ∧ f.reason = some reason ∧
      trim reason ≠ ""
  told : ∀ run ∈ rounds, ∀ e ∈ run.1.classes, excludes file e.1 = true →
    ∃ told ∈ report.findings, told.same e.1 = true ∧ told.count = (heldOver rounds e.1).length

/-- The file excludes, of the classes a first round finds, those of what is not
of its declaration alone. -/
def OnlyDeclared (file : List ViolationClass) (port : Port) (first : Round) : Prop :=
  ∀ e ∈ first.classes, excludes file e.1 = true → e ∈ port.structural

/-- The class told is of the identity found. -/
theorem finding_same (w : World) (external : ExternalIds) (file : List ViolationClass) (port : Port)
    (excluded : List Nat) (c d : ViolationClass) (objects : List Nat) :
    (finding w external file port excluded c objects).same d = c.same d ∧
      (finding w external file port excluded c objects).count = objects.length := by
  unfold finding
  dsimp only
  split <;> exact ⟨rfl, rfl⟩

/-- A class found once is the only one of its identity. -/
theorem filter_same {classes : Classes} (h : classes.Pairwise fun a b => a.1.same b.1 = false)
    {e : ViolationClass × List Nat} (he : e ∈ classes) :
    (classes.filter fun d => d.1.same e.1) = [e] := by
  induction classes with
  | nil => cases he
  | cons d rest ih =>
      obtain ⟨hhead, hrest⟩ := List.pairwise_cons.mp h
      rcases List.mem_cons.mp he with rfl | he
      · rw [List.filter_cons, if_pos (ViolationClass.same_refl _)]
        congr 1
        refine List.filter_eq_nil_iff.mpr fun d hd hsame => ?_
        have hne := hhead d hd
        rw [(ViolationClass.same_congr hsame _).2, ViolationClass.same_refl] at hne
        cases hne
      · rw [List.filter_cons, if_neg (by rw [hhead e he]; simp)]
        exact ih hrest he

section

variable {r : Readers} {w : World} {external : ExternalIds} {batch : ImportBatch}
  {alloc : Counters} {file : List ViolationClass} {dry : Bool} {report : ImportReport}
  {port : Port} {read : Counters} {round : Round} {excluded : List Nat}

theorem Unrefused.declares
    (h : Unrefused r w external batch alloc file dry report port read round excluded) :
    port.Declares := by
  obtain ⟨hclasses, hreferences⟩ := readBatch_at h.placed
  exact ⟨hclasses, hreferences⟩

theorem Unrefused.placing
    (h : Unrefused r w external batch alloc file dry report port read round excluded) :
    placeRounds r w external file port port.placed.length (port.excludedFirst file) =
      .ok (round, excluded) := by
  have hrounds := h.rounds
  unfold settleRounds at hrounds
  split at hrounds
  · cases hrounds
  · next hplacing =>
      obtain ⟨_, -, hrounds⟩ := ok_of_bind hrounds
      cases hrounds
      exact hplacing

/-- A file that excludes what is not of its declaration alone is done in one
round, and every exclusion is accounted for. -/
theorem Unrefused.accounted
    (h : Unrefused r w external batch alloc file dry report port read round excluded)
    {first : Round} (hfirst : oneRound r w external port (port.excludedFirst file) = .ok first)
    (honly : OnlyDeclared file port first) {rounds : List (Round × List Nat)}
    (hrun : roundsRun r w external file port port.placed.length (port.excludedFirst file) =
      .ok rounds) : Accounted file rounds excluded report := by
  have hport := h.declares
  have hover := oneRound_left hport hfirst
  have hdone : (excludedByFile file first.classes).all (port.excludedFirst file).contains = true := by
    refine List.all_eq_true.mpr fun i hi => ?_
    obtain ⟨e, he, hexcludes, hi⟩ := mem_excludedByFile.mp hi
    rw [List.contains_iff_mem]
    exact Port.mem_excludedFirst.mpr ⟨e, honly e he hexcludes, hexcludes, hi⟩
  obtain ⟨hsingle, hround, hexcluded⟩ := placeRounds_done h.placing hfirst hdone
  rw [hsingle] at hrun
  cases hrun
  have hclasses : round.classes = first.classes := by rw [hround]; rfl
  refine ⟨?_, ?_⟩
  · intro i hi
    rw [hexcluded] at hi
    obtain ⟨e, he, hexcludes, hi⟩ := Port.mem_excludedFirst.mp hi
    have hmem := hover.kept e he
    obtain ⟨-, hsome, -, hplaces⟩ := hport.entry he
    have hright := checkDecisions_ok h.decisions e (hclasses ▸ hmem) hsome hplaces
    exact ⟨_, List.mem_cons_self, e, hmem, hi, reason_of_wrongDecision hexcludes hright⟩
  · intro run hmem e he hexcludes
    rw [List.mem_singleton.mp hmem] at he
    obtain ⟨-, -, hnodup, -⟩ := hport.entry (honly e he hexcludes)
    obtain ⟨hsame, hcount⟩ := finding_same w external file port excluded e.1 e.1 e.2
    refine ⟨finding w external file port excluded e.1 e.2, ?_, ?_, ?_⟩
    · rw [h.findings, hclasses]
      exact List.mem_map.mpr ⟨e, he, rfl⟩
    · rw [hsame, ViolationClass.same_refl]
    · have hheld : heldOver [(first, port.excludedFirst file)] e.1 = e.2 := by
        simp only [heldOver, List.flatMap_cons, List.flatMap_nil, List.append_nil,
          filter_same hover.distinct he]
        exact hnodup.dedup
      rw [hcount, hheld]

/-- A class the first round finds besides, and the file excludes, is told for
fewer objects than it left out, or not at all. -/
theorem Unrefused.untold
    (h : Unrefused r w external batch alloc file dry report port read round excluded)
    {first : Round} (hfirst : oneRound r w external port (port.excludedFirst file) = .ok first)
    {e : ViolationClass × List Nat} (he : e ∈ first.classes)
    (hexcludes : excludes file e.1 = true) (hnew : e ∉ port.structural)
    {rounds : List (Round × List Nat)}
    (hrun : roundsRun r w external file port port.placed.length (port.excludedFirst file) =
      .ok rounds) : ¬ Accounted file rounds excluded report := by
  intro haccounted
  have hport := h.declares
  obtain ⟨hsome, -, hobjects⟩ := ((oneRound_left hport hfirst).entries e he).resolve_left hnew
  obtain ⟨i, hi⟩ := List.exists_mem_of_ne_nil _ hsome
  obtain ⟨hkind, hplace, -⟩ := hobjects i hi
  -- the batch has an object, so a second round is run
  obtain ⟨fuel, hfuel⟩ : ∃ fuel, port.placed.length = fuel + 1 := by
    obtain ⟨p, hp, -⟩ := List.mem_map.mp hplace
    exact Nat.exists_eq_succ_of_ne_zero (List.length_pos_of_mem hp).ne'
  have hplacing := h.placing
  rw [hfuel] at hplacing hrun
  have hmem := roundsRun_first hrun hfirst
  have hgone := placeRounds_more hplacing hfirst
  obtain ⟨rounds', last, hrun', hlastmem, hlast, hround, -⟩ := placeRounds_run hplacing
  obtain rfl : rounds = rounds' := Except.ok.inj (hrun.symm.trans hrun')
  have hiout : i ∈ excluded := hgone i (mem_excludedByFile.mpr ⟨e, he, hexcludes, hi⟩)
  obtain ⟨told, htold, hsame, hcount⟩ := haccounted.told _ hmem e he hexcludes
  rw [h.findings] at htold
  obtain ⟨d, hd, rfl⟩ := List.mem_map.mp htold
  obtain ⟨hfinding, hlength⟩ := finding_same w external file port excluded d.1 e.1 d.2
  rw [hfinding] at hsame
  rw [hlength] at hcount
  have hdlast : d ∈ last.classes := by rw [hround] at hd; exact hd
  -- the class's objects in the last round are others
  have hdnew : d ∉ port.structural := by
    intro hd
    obtain ⟨-, hsamekind, -, hsameshape⟩ := ViolationClass.same_iff.mp hsame
    have := (hport.entry hd).1
    rw [hsamekind, hsameshape] at this
    exact hkind this
  obtain ⟨-, hnodup, hleft⟩ := ((oneRound_left hport hlast).entries d hdlast).resolve_left hdnew
  have hiold : i ∉ d.2 := fun hi => (hleft i hi).2.2 hiout
  have hsub : i :: d.2 ⊆ heldOver rounds e.1 := by
    have hin : ∀ run ∈ rounds, ∀ x ∈ run.1.classes, x.1.same e.1 = true → ∀ j ∈ x.2,
        j ∈ heldOver rounds e.1 := by
      intro run hmem x hx hsame j hj
      unfold heldOver
      rw [List.mem_dedup, List.mem_flatMap]
      exact ⟨run, hmem, List.mem_flatMap.mpr ⟨x, List.mem_filter.mpr ⟨hx, hsame⟩, hj⟩⟩
    intro j hj
    rcases List.mem_cons.mp hj with rfl | hj
    · exact hin _ hmem e he (ViolationClass.same_refl _) j hi
    · exact hin _ hlastmem d hdlast hsame j hj
  have hle := (List.subperm_of_subset (List.nodup_cons.mpr ⟨hiold, hnodup⟩) hsub).length_le
  rw [← hcount, List.length_cons] at hle
  omega

end

namespace Excluding

/-- A mirror of another system's employees, each under a manager. -/
def employee : FlowType where
  name := "Employee"
  mirror := true
  attributes := [("manager", { declared := .reference "Employee", optional := true })]
  states := [("EMPLOYED", {})]

/-- A store of the one person who imports. -/
def world : World where
  lib := { types := [("Employee", employee), ("Person", CallingBack.person)] }
  objects := [(numberedId "person" 1, { id := numberedId "person" 1, type := "Person"
                                        state := "ACTIVE"
                                        attrs := [("identity", .text "ann")] })]
  now := 100

def counters : Counters := { CallingBack.counters with position := 0, object := 1 }

/-- A manager in a state that is not declared, and one managed. -/
def batch : ImportBatch where
  objects := [
    { type := "Employee", legacyKey := "E-1", state := "GONE", attributes := [] },
    { type := "Employee", legacyKey := "E-2", state := "EMPLOYED"
      attributes := [("manager", .string "E-1")] }]

/-- The file's decision on the class of the manager. -/
def gone : ViolationClass where
  id := ""
  type := "Employee"
  kind := .guard
  rule := "state"
  shape := NOT_DECLARED
  disposition := .exclude
  reason := some "left before the port"

/-- Its decision, for no reason, on the class of the managed, which excluding the
manager uncovers. -/
def managed : ViolationClass where
  id := ""
  type := "Employee"
  kind := .reference
  rule := "manager"
  shape := NAMES_EXCLUDED
  disposition := .exclude

/-- What an import by a file of decisions answers. -/
def answered (file : List ViolationClass) (dry : Bool) :
    Except NotRun (ImportReport × Option (ImportChange × Counters)) :=
  decideImport CallingBack.readers world [] [] counters "ann" batch file dry

/-- Its batch as read, and the rounds it runs. -/
def ran (file : List ViolationClass) :
    Except Unplaced (Port × List (Round × List Nat) × List Nat) :=
  importRounds CallingBack.readers world [] batch counters file

/-- A condition on an import that is not refused. -/
def taken (p : ImportReport → Port → List (Round × List Nat) → Bool) :
    Except NotRun (ImportReport × Option (ImportChange × Counters)) →
      Except Unplaced (Port × List (Round × List Nat) × List Nat) → Bool
  | .ok (report, _), .ok (port, rounds, _) => report.refusal.isNone && p report port rounds
  | _, _ => false

theorem taken_spec {p : ImportReport → Port → List (Round × List Nat) → Bool}
    {told : Except NotRun (ImportReport × Option (ImportChange × Counters))}
    {run : Except Unplaced (Port × List (Round × List Nat) × List Nat)}
    (h : taken p told run = true) : ∃ report change port rounds excluded,
      told = .ok (report, change) ∧ run = .ok (port, rounds, excluded) ∧ report.refusal = none ∧
        p report port rounds = true := by
  unfold taken at h
  split at h
  · rw [Bool.and_eq_true, Option.isNone_iff_eq_none] at h
    exact ⟨_, _, _, _, _, rfl, rfl, h⟩
  · cases h

end Excluding

/-- **Every exclusion is accounted for** by an import that is not refused, applied
or dry, just when the file excludes, of the classes its first round finds, those
of what is not of its declaration alone. -/
theorem exclusions_accounted {r : Readers} {w : World} {external : ExternalIds}
    {held : Table String (List LegacyEntry)} {alloc : Counters} {actor : String}
    {batch : ImportBatch} {file : List ViolationClass} {dry : Bool} {report : ImportReport}
    {change : Option (ImportChange × Counters)}
    (h : decideImport r w external held alloc actor batch file dry = .ok (report, change))
    (hrefusal : report.refusal = none) :
    ∃ port rounds excluded first,
      importRounds r w external batch alloc file = .ok (port, rounds, excluded) ∧
      oneRound r w external port (port.excludedFirst file) = .ok first ∧
      (Accounted file rounds excluded report ↔ OnlyDeclared file port first) := by
  obtain ⟨port, read, round, excluded, hun⟩ := decideImport_unrefused h hrefusal
  obtain ⟨rounds, last, hrun, -⟩ := placeRounds_run hun.placing
  have hrounds : importRounds r w external batch alloc file = .ok (port, rounds, excluded) := by
    unfold importRounds
    rw [hun.placed]
    show (settleRounds r w external file port >>= _) = _
    rw [hun.rounds]
    dsimp only [bind, Except.bind]
    rw [hrun]
    rfl
  obtain ⟨first, hfirst⟩ : ∃ first, oneRound r w external port (port.excludedFirst file) =
      .ok first := by
    unfold roundsRun at hrun
    obtain ⟨first, hfirst, -⟩ := ok_of_bind hrun
    exact ⟨first, hfirst⟩
  refine ⟨port, rounds, excluded, first, hrounds, hfirst, ?_, ?_⟩
  · intro haccounted e he hexcludes
    by_contra hnew
    exact hun.untold hfirst he hexcludes hnew hrun haccounted
  · intro honly
    exact hun.accounted hfirst honly hrun

/-- Where the file excludes the manager alone, that is accounted for. -/
theorem exclusions_accounted_manager : ∃ report change port rounds excluded,
    Excluding.answered [Excluding.gone] true = .ok (report, change) ∧
      Excluding.ran [Excluding.gone] = .ok (port, rounds, excluded) ∧
      Accounted [Excluding.gone] rounds excluded report := by
  have hrun : Excluding.taken
      (fun _ port rounds => rounds.all fun run => run.1.classes.all fun e =>
        !excludes [Excluding.gone] e.1 || port.structural.contains e)
      (Excluding.answered [Excluding.gone] true) (Excluding.ran [Excluding.gone]) = true := by
    decide +kernel
  obtain ⟨report, change, port, rounds, excluded, hanswer, hran, hrefusal, hall⟩ :=
    Excluding.taken_spec hrun
  obtain ⟨port', rounds', excluded', first, hrounds, hfirst, hiff⟩ :=
    exclusions_accounted hanswer hrefusal
  obtain ⟨rfl, rfl, rfl⟩ : port = port' ∧ rounds = rounds' ∧ excluded = excluded' := by
    have hsame := Except.ok.inj (hran.symm.trans hrounds)
    simpa using hsame
  refine ⟨report, change, port, rounds, excluded, hanswer, hran, hiff.mpr fun e he hexcludes => ?_⟩
  have hmem := roundsRun_first (importRounds_ok hran) hfirst
  have hin := List.all_eq_true.mp (List.all_eq_true.mp hall _ hmem) e he
  simpa [hexcludes] using hin

/-- An import excludes the managed for no reason, and tells nothing of them. -/
theorem excluded_untold :
    ¬ ∀ (r : Readers) (w : World) (external : ExternalIds) (held : Table String (List LegacyEntry))
      (alloc : Counters) (actor : String) (batch : ImportBatch) (file : List ViolationClass)
      (dry : Bool) (report : ImportReport) (change : Option (ImportChange × Counters)),
      decideImport r w external held alloc actor batch file dry = .ok (report, change) →
      report.refusal = none → ∀ port rounds excluded,
      importRounds r w external batch alloc file = .ok (port, rounds, excluded) →
      Accounted file rounds excluded report := by
  intro hclaim
  have hrun : Excluding.taken
      (fun report _ rounds => rounds.any fun run => run.1.classes.any fun e =>
        excludes [Excluding.gone, Excluding.managed] e.1 &&
          report.findings.all fun told => !told.same e.1)
      (Excluding.answered [Excluding.gone, Excluding.managed] false)
      (Excluding.ran [Excluding.gone, Excluding.managed]) = true := by
    decide +kernel
  obtain ⟨report, change, port, rounds, excluded, hanswer, hran, hrefusal, hany⟩ :=
    Excluding.taken_spec hrun
  have haccounted := hclaim _ _ _ _ _ _ _ _ _ _ _ hanswer hrefusal port rounds excluded hran
  obtain ⟨run, hmem, hany⟩ := List.any_eq_true.mp hany
  obtain ⟨e, he, hnone⟩ := List.any_eq_true.mp hany
  obtain ⟨hexcludes, huntold⟩ := Bool.and_eq_true _ _ ▸ hnone
  obtain ⟨told, htold, hsame, -⟩ := haccounted.told run hmem e he hexcludes
  have hdiffers := List.all_eq_true.mp huntold told htold
  rw [hsame] at hdiffers
  cases hdiffers

end ObjectFlow
