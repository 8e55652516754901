import ObjectFlow.Base.Descent
import ObjectFlow.Decimal
import ObjectFlow.Scope

/-!
# What derived attributes unfold to

A module's derived attributes read each other by the names in their expressions.  One
check finds each cycle among them; another bounds what each unfolds to, counting a
read as often as it is made, and how deep its reads go, the modules checked before
counted.  Both search the attributes, each once.
-/

namespace ObjectFlow

open Base

/-! ### The names an expression's text reads -/

/-- Whether a character is one of a word. -/
def isWordChar (c : Char) : Bool := c.isAlphanum || c = '_'

/-- A text's words, each run of blanks one. -/
def squash (text : String) : String :=
  String.ofList ([' '].intercalate ((text.toList.splitOnP isWhiteSpace).filter (· ≠ [])))

/-- The words of a text, each with whether a dot stands right before it, from one
being read. -/
def wordsFrom (dot : Bool) (word : List Char) : List Char → List (Bool × String)
  | [] => if word.isEmpty then [] else [(dot, String.ofList word)]
  | c :: rest =>
      if isWordChar c then wordsFrom dot (word ++ [c]) rest
      else
        (if word.isEmpty then [] else [(dot, String.ofList word)]) ++
          wordsFrom (c = '.') [] rest

/-- The words of a text, each with whether a dot stands right before it. -/
def wordsIn (text : String) : List (Bool × String) := wordsFrom false [] text.toList

/-- A text's names after a dot. -/
def afterDot (text : String) : List String := ((wordsIn text).filter Prod.fst).map Prod.snd

/-- A text's names, each with whether it is after a dot. -/
def namesRead (text : String) : List (Bool × String) :=
  (wordsIn text).filter fun (_, w) => w.toList.head?.any fun c => c.isAlpha || c = '_'

/-! ### A module's derived attributes -/

/-- A module as these checks read it: its types in order, each with its derived
attributes and their expressions' texts. -/
abbrev Declaring := List (String × List (String × String))

/-- A derived attribute: its type and its name. -/
abbrev DerivedName := String × String

namespace Declaring

variable (doc : Declaring)

/-- Every derived attribute, in order. -/
def order : List DerivedName :=
  doc.flatMap fun (tn, derived) => derived.map fun (d, _) => (tn, d)

/-- A derived attribute's expression. -/
def expression (n : DerivedName) : String :=
  ((Table.get? doc n.1).bind fun derived => Table.get? derived n.2).getD ""

/-- The derived attributes of a name, of every type. -/
def byName (name : String) : List DerivedName := (order doc).filter fun n => n.2 = name

end Declaring

/-! ### Findings -/

/-- A step of a path into a module. -/
inductive Seg where
  | key (k : String)
  | index (i : Nat)
deriving DecidableEq

/-- What a check finds: where, under which code, and what it says. -/
structure Finding where
  path : List Seg
  code : String
  message : String
deriving DecidableEq

/-- Where a derived attribute's expression is. -/
def expressionPath (n : DerivedName) : List Seg :=
  [.key "types", .key n.1, .key "derived_attributes", .key n.2, .key "expression"]

/-- A derived attribute as a message names it. -/
def dottedName (n : DerivedName) : String := n.1 ++ "." ++ n.2

/-! ### Cycles -/

/-- The derived attributes an expression reads by a name after a dot, in the module's
order. -/
def cycleReads (doc : Declaring) (n : DerivedName) : List DerivedName :=
  (doc.order).filter fun m => (afterDot (squash (doc.expression n))).contains m.2

/-- A cycle of derived attributes, found. -/
def cycleFinding (next : DerivedName) (ring : List DerivedName) : Finding where
  path := expressionPath next
  code := "order"
  message := "derived attributes read each other in a cycle: " ++
    " → ".intercalate (ring.map dottedName)

/-- A cycle the search comes back along, found unless each of its attributes is of
one found. -/
def reportRing (trail : List DerivedName) (next : DerivedName)
    (x : List DerivedName × List Finding) : List DerivedName × List Finding :=
  let ring := trail.drop (trail.idxOf next) ++ [next]
  if ring.all x.1.contains then x else (x.1 ++ ring, x.2 ++ [cycleFinding next ring])

/-- The search for cycles. -/
def cycleSearch (doc : Declaring) :
    Descent DerivedName Unit (List DerivedName × List Finding) where
  reads := cycleReads doc
  enter _ := ()
  add _ _ := ()
  back := ()
  meets := reportRing

/-- The cycles among a module's derived attributes. -/
def derivedCycleErrors (doc : Declaring) : List Finding :=
  (((cycleSearch doc).search ((cycleSearch doc).enough doc.order) doc.order { noted := ([], []) }).map
    fun s => s.noted.2).getD []

/-! ### How far they unfold -/

/-- The most reads of derived attributes one may unfold to. -/
def UNFOLD_LIMIT : Nat := 10000

/-- The most derived attributes, each reading the next, one's reads go through. -/
def DEPTH_LIMIT : Nat := DERIVED_HOPS

/-- A count past the limit, which stands for any. -/
def UNFOLD_CAP : Nat := UNFOLD_LIMIT + 1

/-- What each name of a derived attribute unfolds to at most in the modules checked
before, and how deep. -/
abbrev Unfolded := Table String (Nat × Nat)

/-- What an expression's names read: the module's own derived attributes, in the
text's order, and what its reads of the modules before unfold to together and how
deep. -/
structure NamedReads where
  own : List DerivedName := []
  before : Nat := 0
  deepest : Nat := 0

section

variable (doc : Declaring) (outer : Unfolded)

/-- One more name read. -/
def NamedReads.read (type : Option String) (r : NamedReads) (named : Bool × String) : NamedReads :=
  if named.1 then
    let (n, deep) := (Table.get? outer named.2).getD (0, 0)
    { own := r.own ++ doc.byName named.2
      before := min (r.before + n) UNFOLD_CAP
      deepest := max r.deepest deep }
  else
    match type with
    | some tn => if (tn, named.2) ∈ doc.order then { r with own := r.own ++ [(tn, named.2)] } else r
    | none => r

/-- What an expression's text reads. -/
def readsOf (type : Option String) (text : String) : NamedReads :=
  (namesRead (squash text)).foldl (NamedReads.read doc outer type) {}

/-- What a derived attribute reads. -/
def derivedReads (n : DerivedName) : NamedReads := readsOf doc outer (some n.1) (doc.expression n)

/-- The search for what each unfolds to, and how deep. -/
def fanSearch : Descent DerivedName (Nat × Nat) Unit where
  reads n := (derivedReads doc outer n).own
  enter n :=
    (min (1 + (derivedReads doc outer n).before) UNFOLD_CAP, 1 + (derivedReads doc outer n).deepest)
  add r c := (min (r.1 + c.1) UNFOLD_CAP, max r.2 (1 + c.2))
  back := (1, 1)
  meets _ _ x := x

/-- What each was counted as. -/
def fanCounted : List (DerivedName × (Nat × Nat)) :=
  (((fanSearch doc outer).search ((fanSearch doc outer).enough doc.order) doc.order
    { noted := () }).map fun s => s.done).getD []

/-- How many reads a derived attribute unfolds to. -/
def unfoldsTo (n : DerivedName) : Option Nat :=
  (Descent.counted? (fanCounted doc outer) n).map Prod.fst

/-- How deep its reads go. -/
def readDepth (n : DerivedName) : Nat :=
  ((Descent.counted? (fanCounted doc outer) n).map Prod.snd).getD 1

def pastLimit (n : DerivedName) : Bool := (unfoldsTo doc outer n).any (UNFOLD_LIMIT < ·)

def tooDeep (n : DerivedName) : Bool := DEPTH_LIMIT < readDepth doc outer n

def UNFOLDS : String :=
  "unfolds to more than " ++ toString UNFOLD_LIMIT ++
    " reads of derived attributes, each counted as often as it is made: one reading another " ++
    "twice reads all that one reads twice"

/-- What is found of a derived attribute: the first past a limit on each path. -/
def derivedFindings (n : DerivedName) : List Finding :=
  (if pastLimit doc outer n && !(derivedReads doc outer n).own.any (pastLimit doc outer) then
    [{ path := expressionPath n, code := "order", message := dottedName n ++ " " ++ UNFOLDS }]
  else []) ++
  if tooDeep doc outer n && !(derivedReads doc outer n).own.any (tooDeep doc outer) then
    [{ path := expressionPath n
       code := "order"
       message := dottedName n ++ " reads derived attributes more than " ++ toString DEPTH_LIMIT ++
        " deep, each reading the next, past the most one evaluation goes through" }]
  else []

/-- The type an expression is in, by its path. -/
def ownType : List Seg → Option String
  | .key "types" :: .key tn :: _ => some tn
  | _ => none

/-- Whether a path is of a derived attribute's expression. -/
def isDerived : List Seg → Bool
  | .key "types" :: .key _ :: .key "derived_attributes" :: _ => true
  | _ => false

def Seg.text : Seg → String
  | .key k => k
  | .index i => toString i

/-- How many reads an expression unfolds to. -/
def expressionUnfolds (type : Option String) (text : String) : Nat :=
  let r := readsOf doc outer type text
  r.own.foldl (fun n m => min (n + (unfoldsTo doc outer m).getD 1) UNFOLD_CAP)
    (min (1 + r.before) UNFOLD_CAP)

/-- What is found of any other expression. -/
def expressionFindings (e : List Seg × String) : List Finding :=
  if isDerived e.1 then []
  else if UNFOLD_LIMIT < expressionUnfolds doc outer (ownType e.1) e.2 &&
      !(readsOf doc outer (ownType e.1) e.2).own.any (pastLimit doc outer) then
    [{ path := e.1, code := "order", message := ".".intercalate (e.1.map Seg.text) ++ " " ++ UNFOLDS }]
  else []

/-- What is found of a module's expressions, and what each derived attribute unfolds
to and how deep. -/
def fanOutErrors (expressions : List (List Seg × String)) :
    List Finding × List (String × Nat × Nat) :=
  (doc.order.flatMap (derivedFindings doc outer) ++
      expressions.flatMap (expressionFindings doc outer),
    doc.order.map fun n => (n.2, (unfoldsTo doc outer n).getD 1, readDepth doc outer n))

end

/-- What a module's derived attributes unfold to, added to that of those before. -/
def Unfolded.adding (outer : Unfolded) (sizes : List (String × Nat × Nat)) : Unfolded :=
  sizes.foldl (fun u (name, n, deep) =>
    let most := (Table.get? u name).getD (0, 0)
    Table.set u name (max most.1 n, max most.2 deep)) outer

section Cycles

variable {doc : Declaring}

theorem cycleReads_closed (doc : Declaring) :
    ∀ n ∈ doc.order, ∀ m ∈ (cycleSearch doc).reads n, m ∈ doc.order :=
  fun _ _ _ hm => (List.mem_filter.mp hm).1

/-- A ring of derived attributes, each reading the next, that comes back to its
first. -/
structure IsRing (doc : Declaring) (n : DerivedName) (ring : List DerivedName) : Prop where
  long : 2 ≤ ring.length
  begins : ring.head? = some n
  ends : ring.getLast? = some n
  reads : ring.IsChain fun a b => b ∈ cycleReads doc a

/-- The end of a walk from a node on it, and back, is a ring. -/
theorem isRing_of_walk {walk : List DerivedName} {n c : DerivedName}
    (hwalk : walk.IsChain fun a b => b ∈ (cycleSearch doc).reads a) (hmem : c ∈ walk)
    (hlast : walk.getLast? = some n) (hread : c ∈ (cycleSearch doc).reads n) :
    IsRing doc c (walk.drop (walk.idxOf c) ++ [c]) := by
  have hlt : walk.idxOf c < walk.length := List.idxOf_lt_length_iff.mpr hmem
  have hdrop : walk.drop (walk.idxOf c) = c :: walk.drop (walk.idxOf c + 1) := by
    rw [List.drop_eq_getElem_cons hlt, List.getElem_idxOf hlt]
  have hsuffix : walk.drop (walk.idxOf c) <:+ walk := List.drop_suffix ..
  constructor
  · simp only [List.length_append, hdrop, List.length_cons, List.length_nil]
    omega
  · rw [hdrop]
    rfl
  · simp
  · refine List.isChain_append.mpr ⟨hwalk.suffix hsuffix, List.isChain_singleton _, ?_⟩
    intro x hx y hy
    obtain rfl : c = y := by simpa using hy
    have hlastDrop : (walk.drop (walk.idxOf c)).getLast? = walk.getLast? := by
      rw [List.getLast?_drop, if_neg (by omega)]
    rw [Option.mem_def, hlastDrop, hlast] at hx
    obtain rfl := Option.some.inj hx
    exact hread

/-- What has been reported, and the findings it was reported in: rings of the module,
each of attributes reported, none where nothing is. -/
structure Reported (doc : Declaring) (x : List DerivedName × List Finding) : Prop where
  rings : ∀ f ∈ x.2, ∃ n ring, n ∈ doc.order ∧ IsRing doc n ring ∧ f = cycleFinding n ring
  empty : x.2 = [] ↔ x.1 = []

/-- What the search ends with: what is reported, of nothing just where none reads
itself. -/
theorem cycleSearch_reported (doc : Declaring) :
    ∃ s, (cycleSearch doc).search ((cycleSearch doc).enough doc.order) doc.order
        { noted := ([], []) } = some s ∧
      Reported doc s.noted ∧ (s.noted.1 = [] ↔ ∀ n ∈ doc.order, ¬ (cycleSearch doc).Reads n n) := by
  have hreported : ∀ (walk : List DerivedName) (n c : DerivedName)
      (x : List DerivedName × List Finding),
      walk.IsChain (fun a b => b ∈ (cycleSearch doc).reads a) → c ∈ walk → walk.getLast? = some n → c ∈ (cycleSearch doc).reads n → Reported doc x →
        Reported doc (reportRing walk c x) := by
    intro walk n c x hwalk hmem hlast hread hx
    unfold reportRing
    dsimp only
    split
    · exact hx
    · refine ⟨fun f hf => ?_, by simp⟩
      rcases List.mem_append.mp hf with hf | hf
      · exact hx.rings f hf
      · exact ⟨c, _, (List.mem_filter.mp hread).1, isRing_of_walk hwalk hmem hlast hread,
          List.mem_singleton.mp hf⟩
  -- what is reported of a read back is never nothing
  have hloud : ∀ walk c x, ¬ (reportRing walk c x).1 = [] := by
    intro walk c x hnil
    unfold reportRing at hnil
    dsimp only at hnil
    split at hnil
    · next hall =>
        rw [hnil] at hall
        simp at hall
    · simp at hnil
  obtain ⟨s, hend, hx⟩ := @Descent.search_noted _ _ _ _ (cycleSearch doc) { noted := ([], []) }
    doc.order (Reported doc) (cycleReads_closed doc) hreported doc.order (fun _ h => h) _
    (Nat.le_refl _) rfl ⟨by simp, by simp⟩
  obtain ⟨s', hend', hquiet⟩ := @Descent.search_quiet_iff _ _ _ _ (cycleSearch doc)
    { noted := ([], []) } doc.order (fun x => x.1 = []) (cycleReads_closed doc) hloud _
    (Nat.le_refl _) rfl rfl rfl
  obtain rfl := Option.some.inj (hend.symm.trans hend')
  exact ⟨s, hend, hx, hquiet⟩

theorem derivedCycleErrors_nil_iff :
    derivedCycleErrors doc = [] ↔ ∀ n ∈ doc.order, ¬ (cycleSearch doc).Reads n n := by
  obtain ⟨s, hend, hreported, hquiet⟩ := cycleSearch_reported doc
  unfold derivedCycleErrors
  rw [hend, ← hquiet]
  exact hreported.empty

-- a ring through a bare name, `b` reading the `c` above it, is not found
example : derivedCycleErrors
    [("Order", [("a", "line.b")]), ("Line", [("c", "order.a"), ("b", "c")])] = [] := by
  decide +kernel

end Cycles

/-! ### What a name may read -/

/-- A read of a derived attribute in an unfolding: the modules up to its own, its own
first, the attribute, and what it unfolds to in turn and how deep. -/
structure Unfolded.Read where
  mods : List Declaring
  name : DerivedName
  size : Nat
  height : Nat

/-- Whether a name of an expression may read a derived attribute: after a dot any of
the name, of its own module or one before; bare its own type's. -/
inductive MayRead (doc : Declaring) (earlier : List Declaring) (type : Option String) :
    Bool × String → List Declaring → DerivedName → Prop where
  | dotted {m : DerivedName} (h : m ∈ doc.order) :
      MayRead doc earlier type (true, m.2) (doc :: earlier) m
  | bare {m : DerivedName} (h : m ∈ doc.order) (htype : type = some m.1) :
      MayRead doc earlier type (false, m.2) (doc :: earlier) m
  | before {m : DerivedName} {doc' : Declaring} {earlier' : List Declaring}
      (hbefore : doc' :: earlier' <:+ earlier) (h : m ∈ doc'.order) :
      MayRead doc earlier type (true, m.2) (doc' :: earlier') m

/-- The reads made of an expression's names, each of one derived attribute it may read
or of none. -/
def Made (doc : Declaring) (earlier : List Declaring) (type : Option String)
    (names : List (Bool × String)) (reads : List (Option Unfolded.Read)) : Prop :=
  List.Forall₂ (fun named read => ∀ r ∈ read, MayRead doc earlier type named r.mods r.name)
    names reads

/-- How many reads are made, each with those it unfolds to. -/
def madeSize (reads : List (Option Unfolded.Read)) : Nat :=
  (reads.map fun read => (read.map Unfolded.Read.size).getD 0).sum

/-- How deep the deepest goes. -/
def madeHeight (reads : List (Option Unfolded.Read)) : Nat :=
  (reads.map fun read => (read.map Unfolded.Read.height).getD 0).foldr max 0

/-- **An unfolding** of a derived attribute: every read its expression makes, of a
derived attribute the name may read, unfolded in turn; how many they are with it, and
how deep they go. -/
inductive Unfolds : List Declaring → DerivedName → Nat → Nat → Prop where
  | of {doc : Declaring} {earlier : List Declaring} {n : DerivedName}
      (reads : List (Option Unfolded.Read))
      (hmade : Made doc earlier (some n.1) (namesRead (squash (doc.expression n))) reads)
      (hunfold : ∀ r, some r ∈ reads → Unfolds r.mods r.name r.size r.height) :
      Unfolds (doc :: earlier) n (1 + madeSize reads) (1 + madeHeight reads)

/-! ### What the check counts -/

section Counts

variable {doc : Declaring} {outer : Unfolded} {earlier : List Declaring}

/-- The module's own derived attributes a name reads. -/
def ownOf (doc : Declaring) (type : Option String) (named : Bool × String) : List DerivedName :=
  if named.1 then doc.byName named.2
  else
    match type with
    | some tn => if (tn, named.2) ∈ doc.order then [(tn, named.2)] else []
    | none => []

/-- What a name of the modules before unfolds to at most, and how deep. -/
def Unfolded.most (outer : Unfolded) (name : String) : Nat × Nat :=
  (Table.get? outer name).getD (0, 0)

/-- What a name reads of the modules before. -/
def outerOf (outer : Unfolded) (named : Bool × String) : Nat × Nat :=
  if named.1 then outer.most named.2 else (0, 0)

theorem foldl_read (type : Option String) (names : List (Bool × String)) {r : NamedReads}
    (hr : r.before ≤ UNFOLD_CAP) :
    names.foldl (NamedReads.read doc outer type) r =
      { own := r.own ++ names.flatMap (ownOf doc type)
        before := min (r.before + (names.map fun named => (outerOf outer named).1).sum) UNFOLD_CAP
        deepest :=
          max r.deepest ((names.map fun named => (outerOf outer named).2).foldr max 0) } := by
  induction names generalizing r with
  | nil => simp [hr]
  | cons named rest ih =>
      have hread : NamedReads.read doc outer type r named =
          { own := r.own ++ ownOf doc type named
            before := min (r.before + (outerOf outer named).1) UNFOLD_CAP
            deepest := max r.deepest (outerOf outer named).2 } := by
        unfold NamedReads.read ownOf outerOf
        cases named.1 with
        | true => rfl
        | false =>
            cases type with
            | none => simp [hr]
            | some tn => by_cases h : (tn, named.2) ∈ doc.order <;> simp [h, hr]
      rw [List.foldl_cons, hread, ih (Nat.min_le_right ..)]
      simp only [List.flatMap_cons, List.map_cons, List.sum_cons, List.foldr_cons,
        List.append_assoc, NamedReads.mk.injEq, true_and]
      omega

theorem readsOf_eq (type : Option String) (text : String) :
    readsOf doc outer type text =
      { own := (namesRead (squash text)).flatMap (ownOf doc type)
        before :=
          min ((namesRead (squash text)).map fun named => (outerOf outer named).1).sum UNFOLD_CAP
        deepest :=
          ((namesRead (squash text)).map fun named => (outerOf outer named).2).foldr max 0 } := by
  unfold readsOf
  rw [foldl_read type _ (Nat.zero_le _)]
  simp

theorem ownOf_declared {type : Option String} {named : Bool × String} {m : DerivedName}
    (hm : m ∈ ownOf doc type named) : m ∈ doc.order := by
  unfold ownOf at hm
  split at hm
  · exact (List.mem_filter.mp hm).1
  · split at hm
    · split at hm
      · next h =>
          rw [List.mem_singleton.mp hm]
          exact h
      · cases hm
    · cases hm

theorem readsOf_own (type : Option String) (text : String) :
    (readsOf doc outer type text).own = (namesRead (squash text)).flatMap (ownOf doc type) := by
  rw [readsOf_eq]

theorem own_declared {type : Option String} {text : String} {m : DerivedName}
    (hm : m ∈ (readsOf doc outer type text).own) : m ∈ doc.order := by
  rw [readsOf_own] at hm
  obtain ⟨named, -, hm⟩ := List.mem_flatMap.mp hm
  exact ownOf_declared hm

theorem fanSearch_own (n : DerivedName) :
    (fanSearch doc outer).reads n = (derivedReads doc outer n).own := by
  simp only [fanSearch]

theorem fanReads_closed (doc : Declaring) (outer : Unfolded) :
    ∀ n ∈ doc.order, ∀ m ∈ (fanSearch doc outer).reads n, m ∈ doc.order := by
  intro n _ m hm
  rw [fanSearch_own, derivedReads] at hm
  exact own_declared hm

/-- What is counted so of a derived attribute, one of none as one read. -/
def countIn (done : List (DerivedName × (Nat × Nat))) (n : DerivedName) : Nat × Nat :=
  (Descent.counted? done n).getD (1, 1)

/-- What a derived attribute was counted as. -/
def countOf (doc : Declaring) (outer : Unfolded) : DerivedName → Nat × Nat :=
  countIn (fanCounted doc outer)

/-- What the search leaves of a module none of whose derived attributes reads itself:
each is counted, as what its expression reads adds up to. -/
structure Counting (doc : Declaring) (outer : Unfolded) : Prop where
  settled : (fanSearch doc outer).Settled (fanCounted doc outer)
  counted : ∀ n, (Descent.counted? (fanCounted doc outer) n).isSome ↔ n ∈ doc.order
  count : ∀ n ∈ doc.order, countOf doc outer n =
    (min (1 + (derivedReads doc outer n).before +
        ((derivedReads doc outer n).own.map fun m => (countOf doc outer m).1).sum) UNFOLD_CAP,
      max (1 + (derivedReads doc outer n).deepest)
        (((derivedReads doc outer n).own.map fun m => 1 + (countOf doc outer m).2).foldr max 0))

theorem unfoldsTo_getD (n : DerivedName) :
    (unfoldsTo doc outer n).getD 1 = (countOf doc outer n).1 := by
  unfold unfoldsTo countOf countIn
  cases Descent.counted? (fanCounted doc outer) n <;> rfl

theorem readDepth_eq (n : DerivedName) : readDepth doc outer n = (countOf doc outer n).2 := by
  unfold readDepth countOf countIn
  cases Descent.counted? (fanCounted doc outer) n <;> rfl

theorem Counting.pastLimit_iff (h : Counting doc outer) {n : DerivedName} (hn : n ∈ doc.order) :
    pastLimit doc outer n = true ↔ UNFOLD_LIMIT < (countOf doc outer n).1 := by
  obtain ⟨r, hr⟩ := Option.isSome_iff_exists.mp ((h.counted n).mpr hn)
  unfold pastLimit unfoldsTo countOf countIn
  rw [hr]
  simp

/-- Where nothing is found of them, none is past a limit: the first of those past one
would be found. -/
theorem Counting.within (h : Counting doc outer)
    (hfind : doc.order.flatMap (derivedFindings doc outer) = []) {n : DerivedName}
    (hn : n ∈ doc.order) :
    (countOf doc outer n).1 ≤ UNFOLD_LIMIT ∧ (countOf doc outer n).2 ≤ DEPTH_LIMIT := by
  have hnone : ∀ past : DerivedName → Bool,
      (∀ m ∈ doc.order, past m = true → (derivedReads doc outer m).own.any past = true) →
        ¬ past n = true := by
    intro past hreads hpast
    obtain ⟨m, hm, hpastm, hfirst⟩ := @Descent.Settled.exists_first _ _ _ _ (fanSearch doc outer) n
      (fanCounted doc outer) (fun m => past m = true) h.settled ((h.counted n).mpr hn) hpast
    obtain ⟨c, hc, hpastc⟩ := List.any_eq_true.mp (hreads m ((h.counted m).mp hm) hpastm)
    rw [← fanSearch_own] at hc
    exact hfirst c hc hpastc
  have hfinds : ∀ m ∈ doc.order, derivedFindings doc outer m = [] :=
    List.flatMap_eq_nil_iff.mp hfind
  have hsize : ¬ pastLimit doc outer n = true := hnone _ fun m hm hpast => by
    have hquiet := (List.append_eq_nil_iff.mp (hfinds m hm)).1
    by_contra hnot
    rw [if_pos (by rw [hpast, Bool.eq_false_of_not_eq_true hnot]; rfl)] at hquiet
    cases hquiet
  have hdepth : ¬ tooDeep doc outer n = true := hnone _ fun m hm hdeep => by
    have hquiet := (List.append_eq_nil_iff.mp (hfinds m hm)).2
    by_contra hnot
    rw [if_pos (by rw [hdeep, Bool.eq_false_of_not_eq_true hnot]; rfl)] at hquiet
    cases hquiet
  rw [h.pastLimit_iff hn] at hsize
  unfold tooDeep at hdepth
  rw [decide_eq_true_iff, readDepth_eq] at hdepth
  exact ⟨Nat.not_lt.mp hsize, Nat.not_lt.mp hdepth⟩

/-! ### No unfolding is past what is counted -/

/-- No unfolding of a derived attribute of the modules before is past what is noted of
its name. -/
def Covers (outer : Unfolded) (earlier : List Declaring) : Prop :=
  ∀ doc' earlier', doc' :: earlier' <:+ earlier → ∀ m ∈ doc'.order, ∀ size height,
    Unfolds (doc' :: earlier') m size height →
      size ≤ (outer.most m.2).1 ∧ height ≤ (outer.most m.2).2

/-- A read is counted: among those of its name's own derived attributes, or in what the
modules before unfold to. -/
def ReadCounted (doc : Declaring) (outer : Unfolded) (type : Option String)
    (named : Bool × String) (r : Unfolded.Read) : Prop :=
  (∃ m ∈ ownOf doc type named,
    r.size ≤ (countOf doc outer m).1 ∧ r.height ≤ (countOf doc outer m).2) ∨
  r.size ≤ (outerOf outer named).1 ∧ r.height ≤ (outerOf outer named).2

theorem readCounted_of_mayRead {type : Option String} {named : Bool × String} {r : Unfolded.Read}
    (houter : Covers outer earlier) (hread : MayRead doc earlier type named r.mods r.name)
    (hunfold : Unfolds r.mods r.name r.size r.height)
    (hown : r.mods = doc :: earlier → r.name ∈ doc.order →
      r.size ≤ (countOf doc outer r.name).1 ∧ r.height ≤ (countOf doc outer r.name).2) :
    ReadCounted doc outer type named r := by
  obtain ⟨mods, m, size, height⟩ := r
  dsimp only at hread hunfold hown
  cases hread with
  | dotted h =>
      refine .inl ⟨m, ?_, hown rfl h⟩
      simpa [ownOf, Declaring.byName] using h
  | bare h htype =>
      refine .inl ⟨m, ?_, hown rfl h⟩
      simp [ownOf, htype, h]
  | before hbefore h => exact .inr (houter _ _ hbefore m h size height hunfold)

theorem forall₂_mem {α β : Type} {R : α → β → Prop} {as : List α} {bs : List β}
    (h : List.Forall₂ R as bs) : List.Forall₂ (fun a b => b ∈ bs ∧ R a b) as bs := by
  induction h with
  | nil => exact .nil
  | cons hab _ ih =>
      exact .cons ⟨List.mem_cons_self, hab⟩
        (ih.imp fun _ _ h => ⟨List.mem_cons_of_mem _ h.1, h.2⟩)

section Reads

variable {type : Option String} {names : List (Bool × String)} {reads : List (Option Unfolded.Read)}

/-- The reads made of names are counted, where those of the module's own are. -/
theorem made_counted (houter : Covers outer earlier) (hmade : Made doc earlier type names reads)
    (hunfold : ∀ r, some r ∈ reads → Unfolds r.mods r.name r.size r.height)
    (hown : ∀ r, some r ∈ reads → r.mods = doc :: earlier → r.name ∈ doc.order →
      r.size ≤ (countOf doc outer r.name).1 ∧ r.height ≤ (countOf doc outer r.name).2) :
    List.Forall₂ (fun named read => ∀ r ∈ read, ReadCounted doc outer type named r)
      names reads := by
  refine (forall₂_mem hmade).imp fun named read hread r hr => ?_
  have hmem : some r ∈ reads := by
    rw [← Option.mem_def.mp hr]
    exact hread.1
  exact readCounted_of_mayRead houter (hread.2 r hr) (hunfold r hmem) (hown r hmem)

/-- Reads counted are no more than their names count. -/
theorem madeSize_le
    (h : List.Forall₂ (fun named read => ∀ r ∈ read, ReadCounted doc outer type named r)
      names reads) :
    madeSize reads ≤ ((names.flatMap (ownOf doc type)).map fun m => (countOf doc outer m).1).sum +
      (names.map fun named => (outerOf outer named).1).sum := by
  induction h with
  | nil => exact Nat.zero_le _
  | @cons named read names reads hread _ ih =>
      have hone : (read.map Unfolded.Read.size).getD 0 ≤
          ((ownOf doc type named).map fun m => (countOf doc outer m).1).sum +
            (outerOf outer named).1 := by
        cases read with
        | none => exact Nat.zero_le _
        | some r =>
            rcases hread r rfl with ⟨m, hm, hsize, -⟩ | ⟨hsize, -⟩
            · have hmem := List.le_sum_of_mem
                (List.mem_map_of_mem (f := fun m => (countOf doc outer m).1) hm)
              exact (hsize.trans hmem).trans (Nat.le_add_right ..)
            · exact hsize.trans (Nat.le_add_left ..)
      unfold madeSize at ih ⊢
      rw [List.map_cons, List.sum_cons, List.flatMap_cons, List.map_append, List.sum_append,
        List.map_cons, List.sum_cons]
      omega

/-- Reads counted go no deeper than what their names count. -/
theorem madeHeight_le {most : Nat}
    (h : List.Forall₂ (fun named read => ∀ r ∈ read, ReadCounted doc outer type named r)
      names reads)
    (hown : ∀ named ∈ names, ∀ m ∈ ownOf doc type named, (countOf doc outer m).2 ≤ most)
    (hbefore : ∀ named ∈ names, (outerOf outer named).2 ≤ most) : madeHeight reads ≤ most := by
  induction h with
  | nil => exact Nat.zero_le _
  | @cons named read names reads hread _ ih =>
      obtain ⟨hown, hrestOwn⟩ := List.forall_mem_cons.mp hown
      obtain ⟨hbefore, hrestBefore⟩ := List.forall_mem_cons.mp hbefore
      have hone : (read.map Unfolded.Read.height).getD 0 ≤ most := by
        cases read with
        | none => exact Nat.zero_le _
        | some r =>
            rcases hread r rfl with ⟨m, hm, -, hheight⟩ | ⟨-, hheight⟩
            · exact hheight.trans (hown m hm)
            · exact hheight.trans hbefore
      have hrest := ih hrestOwn hrestBefore
      unfold madeHeight at hrest ⊢
      rw [List.map_cons, List.foldr_cons]
      exact Nat.max_le.mpr ⟨hone, hrest⟩

end Reads

/-- **No unfolding is past its count**, where no count is past the limit. -/
theorem unfolds_counted (h : Counting doc outer)
    (hwithin : ∀ n ∈ doc.order, (countOf doc outer n).1 ≤ UNFOLD_LIMIT)
    (houter : Covers outer earlier) {mods : List Declaring} {n : DerivedName} {size height : Nat}
    (hunfolds : Unfolds mods n size height) (hmods : mods = doc :: earlier) (hn : n ∈ doc.order) :
    size ≤ (countOf doc outer n).1 ∧ height ≤ (countOf doc outer n).2 := by
  induction hunfolds with
  | @of doc' earlier' n reads hmade hunfold ih =>
      obtain ⟨rfl, rfl⟩ := List.cons.inj hmods
      have hcounted := made_counted houter hmade hunfold ih
      have hcount := h.count n hn
      unfold derivedReads at hcount
      rw [readsOf_eq] at hcount
      have hdepth : (countOf doc' outer n).2 = _ := congrArg Prod.snd hcount
      have hheight : madeHeight reads ≤ (countOf doc' outer n).2 - 1 := by
        refine madeHeight_le hcounted (fun named hnamed m hm => ?_) fun named hnamed => ?_
        · have hmem := List.le_max_of_le' 0 (List.mem_map_of_mem (f := fun m =>
            1 + (countOf doc' outer m).2) (List.mem_flatMap.mpr ⟨named, hnamed, hm⟩)) le_rfl
          dsimp only at hdepth hmem
          omega
        · have hmem := List.le_max_of_le' 0 (List.mem_map_of_mem (f := fun named =>
            (outerOf outer named).2) hnamed) le_rfl
          dsimp only at hdepth hmem
          omega
      have hsize := madeSize_le hcounted
      have hless := hwithin n hn
      have hcap : UNFOLD_CAP = UNFOLD_LIMIT + 1 := rfl
      rw [hcount] at hless hheight ⊢
      dsimp only at hless hheight ⊢
      omega

theorem Unfolded.most_set (u : Unfolded) (name other : String) (count : Nat × Nat) :
    Unfolded.most (Table.set u name count) other = if name = other then count else u.most other := by
  unfold Unfolded.most
  rw [Table.get?_set]
  split <;> rfl

/-- What is noted of each name is no less for what is added, and no less than that. -/
theorem adding_most (sizes : List (String × Nat × Nat)) (u : Unfolded) :
    (∀ name, (u.most name).1 ≤ ((u.adding sizes).most name).1 ∧
      (u.most name).2 ≤ ((u.adding sizes).most name).2) ∧
      ∀ e ∈ sizes, e.2.1 ≤ ((u.adding sizes).most e.1).1 ∧
        e.2.2 ≤ ((u.adding sizes).most e.1).2 := by
  induction sizes generalizing u with
  | nil => exact ⟨fun _ => ⟨Nat.le_refl _, Nat.le_refl _⟩, by simp⟩
  | cons e rest ih =>
      obtain ⟨hkept, hrest⟩ := ih
        (Table.set u e.1 (max (u.most e.1).1 e.2.1, max (u.most e.1).2 e.2.2))
      have hown := hkept e.1
      rw [Unfolded.most_set, if_pos rfl] at hown
      refine ⟨fun name => ?_, List.forall_mem_cons.mpr
        ⟨⟨(le_max_right ..).trans hown.1, (le_max_right ..).trans hown.2⟩, hrest⟩⟩
      by_cases hname : e.1 = name
      · rw [← hname]
        exact ⟨(le_max_left ..).trans hown.1, (le_max_left ..).trans hown.2⟩
      · have hother := hkept name
        rwa [Unfolded.most_set, if_neg hname] at hother

/-- A module's counts added cover it too. -/
theorem Covers.adding (houter : Covers outer earlier) (h : Counting doc outer)
    (hwithin : ∀ n ∈ doc.order, (countOf doc outer n).1 ≤ UNFOLD_LIMIT)
    (expressions : List (List Seg × String)) :
    Covers (outer.adding (fanOutErrors doc outer expressions).2) (doc :: earlier) := by
  intro doc' earlier' hsuffix m hm size height hunfolds
  obtain ⟨hkept, hadded⟩ := adding_most (fanOutErrors doc outer expressions).2 outer
  rcases List.suffix_cons_iff.mp hsuffix with heq | hbefore
  · obtain ⟨rfl, rfl⟩ := List.cons.inj heq
    obtain ⟨hsize, hheight⟩ := unfolds_counted h hwithin houter hunfolds rfl hm
    have hlisted : (m.2, (countOf doc' outer m).1, (countOf doc' outer m).2) ∈
        (fanOutErrors doc' outer expressions).2 := by
      refine List.mem_map.mpr ⟨m, hm, ?_⟩
      rw [unfoldsTo_getD, readDepth_eq]
    obtain ⟨hsize', hheight'⟩ := hadded _ hlisted
    exact ⟨hsize.trans hsize', hheight.trans hheight'⟩
  · obtain ⟨hsize, hheight⟩ := houter doc' earlier' hbefore m hm size height hunfolds
    exact ⟨hsize.trans (hkept m.2).1, hheight.trans (hkept m.2).2⟩

/-! ### Modules checked in turn -/

/-- Where no expression reads a derived attribute of its own type by a bare name, no
cycle found is none in what is counted. -/
theorem acyclic_of_dotted
    (hbare : ∀ n ∈ doc.order, ∀ w, (false, w) ∈ namesRead (squash (doc.expression n)) →
      (n.1, w) ∉ doc.order)
    (hquiet : derivedCycleErrors doc = []) :
    ∀ n ∈ doc.order, ¬ (fanSearch doc []).Reads n n := by
  have hreads : ∀ n ∈ doc.order, ∀ m ∈ (fanSearch doc []).reads n,
      m ∈ (cycleSearch doc).reads n := by
    intro n hn m hm
    rw [fanSearch_own, derivedReads, readsOf_own] at hm
    obtain ⟨named, hnamed, hm⟩ := List.mem_flatMap.mp hm
    obtain ⟨dotted, w⟩ := named
    cases dotted with
    | true =>
        obtain ⟨hdeclared, hname⟩ := List.mem_filter.mp hm
        refine List.mem_filter.mpr ⟨hdeclared, List.contains_iff_mem.mpr ?_⟩
        rw [of_decide_eq_true hname]
        exact List.mem_map_of_mem (List.mem_filter.mpr ⟨(List.mem_filter.mp hnamed).1, rfl⟩)
    | false => simp [ownOf, hbare n hn w hnamed] at hm
  intro n hn hself
  refine derivedCycleErrors_nil_iff.mp hquiet n hn ?_
  have hdown : ∀ m, (fanSearch doc []).Reads n m → m ∈ doc.order ∧ (cycleSearch doc).Reads n m := by
    intro m hm
    induction hm with
    | single hm => exact ⟨fanReads_closed doc [] n hn _ hm, .single (hreads n hn _ hm)⟩
    | tail _ hm ih =>
        exact ⟨fanReads_closed doc [] _ ih.1 _ hm, .tail ih.2 (hreads _ ih.1 _ hm)⟩
  exact (hdown n hself).2

/-- A module nothing is found of counts each of its derived attributes within the
limits. -/
theorem Counting.quiet (h : Counting doc outer) {expressions : List (List Seg × String)}
    (hquiet : (fanOutErrors doc outer expressions).1 = []) :
    (∀ n ∈ doc.order, (countOf doc outer n).1 ≤ UNFOLD_LIMIT ∧
      (countOf doc outer n).2 ≤ DEPTH_LIMIT) ∧
    ∀ e ∈ expressions, expressionFindings doc outer e = [] := by
  obtain ⟨hown, hothers⟩ := List.append_eq_nil_iff.mp hquiet
  exact ⟨fun n hn => h.within hown hn, List.flatMap_eq_nil_iff.mp hothers⟩

end Counts

end ObjectFlow
