import ObjectFlow.Keyed

/-!
# Batches of requests

A batch's requests run in order in one transaction, each on a savepoint of it
and judged on what the ones before it left; a request that names what an
earlier one made is given its id.  The first that does not apply rolls every
one of them back, and only the numbers they drew are written after.
-/

namespace ObjectFlow

open Base

/-! ### Local names -/

/-- The most requests a batch holds. -/
def BATCH_MOST : Nat := 50

/-- Names for the objects a request's effect creates, in the order it creates
them: one list, or a list for each type. -/
inductive Creates where
  | list (names : List String)
  | byType (types : List (String × List String))

def Creates.names : Creates → List String
  | .list names => names
  | .byType types => types.flatMap Prod.snd

/-- The local names of a request of a batch: the one it gives the object it
creates, the one an earlier request gave the object it acts on, and those it
gives what its effect creates. -/
structure LocalNames where
  lid : Option String := none
  objectLid : Option String := none
  creates : Option Creates := none

/-- Why a batch is refused before any request of it applies. -/
inductive BatchFault where
  | empty
  | overLimit (most : Nat)
  | held (index : Nat) (why : String)
  | keyReused (key : String)
  | named (index : Nat) (why : String)
deriving DecidableEq

/-- A batch's outcome. -/
inductive Batched where
  | applied (vs : List Verdict)
  | replayed (vs : List Verdict)
  | refused (index : Nat) (told : Told)
  | fault (f : BatchFault)
  | failed

section Names

variable (written : Json → String)

/-- The local name a value holds in place of an object's id; why it is malformed
where that is no name. -/
def lidOf : Json → Option (Except String String)
  | .object [(k, v)] =>
      if k = "lid" then
        some (match v.string?.filter (· ≠ "") with
          | some lid => .ok lid
          | none => .error ("names the lid " ++ written v ++ ", where a lid is a name, a string"))
      else none
  | _ => none

/-- A value's elements, itself where it is no set. -/
def Json.elements : Json → List Json
  | .array items => items
  | v => [v]

/-- Each local name a request's inputs hold, in its inputs' order. -/
def lidsIn (req : Request) : Except String (List String) :=
  (req.inputs.flatMap fun (_, v) => v.elements.filterMap (lidOf written)).mapM id

/-- Each name used names what an earlier request gives. -/
def lidsGiven (given : List String) : List String → Except String Unit
  | [] => .ok ()
  | lid :: rest =>
      if lid = "" then .error "names an empty lid"
      else if !given.contains lid then
        .error ("names the lid " ++ lid ++ ", which no earlier request of the batch gives")
      else lidsGiven given rest

/-- The names given, with those a request gives what its effect creates. -/
def givingCreated (given : List String) : List String → Except String (List String)
  | [] => .ok given
  | name :: rest =>
      if name = "" then .error "gives an empty name to an object its effect creates"
      else if given.contains name then
        .error ("gives the name " ++ name ++
          " to an object its effect creates, which the batch gives already")
      else givingCreated (given ++ [name]) rest

/-- The names given, with the one a request gives the object it creates. -/
def givingLid (req : Request) (n : LocalNames) (given : List String) :
    Except String (List String) :=
  match n.lid with
  | none => .ok given
  | some lid =>
      if lid = "" then .error "gives an empty lid"
      else if req.type.isNone || req.objectId.isSome || n.objectLid.isSome then
        .error ("gives the lid " ++ lid ++
          ", but creates nothing: a lid names the object a creation makes")
      else if given.contains lid then
        .error ("gives the lid " ++ lid ++ ", which an earlier request of the batch gives")
      else .ok (given ++ [lid])

/-- The names given once a request's are, or why they cannot be resolved. -/
def namesOf (given : List String) (req : Request) (n : LocalNames) :
    Except String (List String) := do
  if n.objectLid.isSome && req.objectId.isSome then
    .error "names its object both by an object_id and by a lid"
  else
    let named ← lidsIn written req
    lidsGiven given (n.objectLid.toList ++ named)
    let given ← givingLid req n given
    givingCreated given ((n.creates.map Creates.names).getD [])

/-- The first request whose names cannot be resolved. -/
def namesFaultFrom : Nat → List String → List (Request × LocalNames) → Option BatchFault
  | _, _, [] => none
  | index, given, (req, n) :: rest =>
      match namesOf written given req n with
      | .error why => some (.named index why)
      | .ok given => namesFaultFrom (index + 1) given rest

/-- Each request with its local names, none where none are given. -/
def withNames (reqs : List Request) (names : List LocalNames) : List (Request × LocalNames) :=
  reqs.zipIdx.map fun (req, i) => (req, (names[i]?).getD {})

/-- Why a batch's local names cannot be resolved, before any request of it
runs. -/
def namesFault (reqs : List Request) (names : List LocalNames) : Option BatchFault :=
  if !names.isEmpty ∧ names.length ≠ reqs.length then
    some (.named (min names.length reqs.length)
      ("has no local names, which are given for " ++ toString names.length ++
        " requests of the " ++ toString reqs.length ++ " the batch holds"))
  else namesFaultFrom written 0 [] (withNames reqs names)

/-- A local name replaced by the id of the object made under it. -/
def idOf (made : Table String String) (v : Json) : Json :=
  match lidOf written v with
  | some (.ok lid) => ((Table.get? made lid).map Json.string).getD v
  | _ => v

/-- The request as it runs: each local name it holds replaced by the id of the
object the request giving it made. -/
def resolved (req : Request) (n : LocalNames) (made : Table String String) : Request :=
  { req with
    objectId := match n.objectLid with
      | some lid => Table.get? made lid
      | none => req.objectId
    inputs := req.inputs.map fun (k, v) => (k, match v with
      | .array items => .array (items.map (idOf written made))
      | v => idOf written made v) }

end Names

/-- So many of a thing, in words. -/
def counted (n : Nat) (what : String) : String :=
  match n with
  | 0 => "no " ++ what
  | 1 => "1 " ++ what
  | n => toString n ++ " " ++ what ++ "s"

/-- The names a mapping gives, each type's bound to what was created of it. -/
def boundByType (created : List (String × String)) :
    List (String × List String) → Except String (List (String × String))
  | [] => .ok []
  | (tn, names) :: rest => do
      let found := (created.filter fun (t, _) => t = tn).map Prod.snd
      if found.length < names.length then
        .error ("names " ++ counted names.length "object" ++ " of " ++ tn ++
          " its effect creates, and it created " ++ counted found.length "object")
      else
        let others ← boundByType created rest
        return names.zip found ++ others

/-- The objects a request's effect created, other than its own, bound to the
names its `creates` gives them, in the order made. -/
def bindCreated (w : World) (creates : Creates) (own : String) (created : List String) :
    Except String (List (String × String)) :=
  let made := (created.filter (· ≠ own)).filterMap fun id =>
    (w.get id).map fun o => (o.type, id)
  match creates with
  | .list names =>
      let kinds := (addNames [] (made.map Prod.fst)).insertionSort (· ≤ ·)
      if 1 < kinds.length then
        .error ("names the objects its effect creates by a list, and it created objects of more " ++
          "than one type, " ++ ", ".intercalate kinds ++ ": name them by type")
      else if made.length < names.length then
        .error ("names " ++ counted names.length "object" ++
          " its effect creates, and it created " ++ counted made.length "object")
      else .ok (names.zip (made.map Prod.snd))
  | .byType types => boundByType made types

/-- The names bound once a request applied: the object it made, and what its
effect created. -/
def bound (w : World) (n : LocalNames) (id : String) (created : List String)
    (made : Table String String) : Except String (Table String String) :=
  let made := match n.lid with
    | some lid => Table.set made lid id
    | none => made
  match n.creates with
  | none => .ok made
  | some creates => do
      let pairs ← bindCreated w creates id created
      return pairs.foldl (fun made (name, id) => Table.set made name id) made

/-- Why a batch cannot hold a request: a proposal, anything on one, a change to
the flow, or a request with a key of its own. -/
def unbatchable (w : World) (req : Request) : Option String :=
  if req.propose then some "a proposal, which is filed and held, not applied"
  else if req.idempotencyKey.isSome then
    some "a request with an idempotency key of its own: a batch is applied whole"
  else
    let type := match req.objectId with
      | some id => (w.get id).map (·.type)
      | none => req.type
    if type = some DECLARATION_CHANGE then
      some "a change to the flow, which takes the writer alone"
    else if type = some PROPOSAL then
      some "a request on a proposal, whose held request it would run"
    else none

/-- A verdict of a batch, naming no object its rollback left unmade. -/
def Verdict.unheld (w : World) (v : Verdict) : Verdict :=
  match v.unmade w with
  | .invariantViolated failures =>
      .invariantViolated (failures.map fun f =>
        { f with objectId := f.objectId.filter fun id => (w.get id).isSome })
  | other => other

/-- What a batch answers once it is rolled back. -/
def Batched.unheld (w : World) : Batched → Batched
  | .refused index (.verdict v r) =>
      .refused index (.verdict (v.unheld w)
        { r with objects := r.objects.filter fun id => (w.get id).isSome })
  | other => other

/-! ### A batch run -/

/-- A batch's open transaction: the store as its requests left it, the last
number each drew, the objects its names stand for, and what it answers. -/
structure Group where
  store : KeyedStore
  draws : Table Scope Int := []
  made : Table String String := []
  verdicts : List Verdict := []

/-- The positions of the events a verdict names. -/
def Verdict.events : Verdict → List Int
  | .satisfied _ _ events _ _ _ => events
  | _ => []

section Run

variable (r : Readers) (sha : String → String) (written : Json → String) (now : Int)
  (attempts : Nat → Table String (List Value)) (answers : Table String String)

/-- A JSON value's digest. -/
def hexOf (v : Json) : String := sha (written v)

/-- A request of a batch on its savepoint, every number it draws kept past the
batch's rollback. -/
def Group.request (g : Group) (index : Nat) (req : Request) : Told × Group :=
  let s := g.store.loaded
  let w := s.opened now (attempts index)
  let outcome := s.outcome r (hexOf sha written) w req answers
  let (told, store) := s.settled r w outcome
  (told, { g with store, draws := keepLast g.draws outcome.2.numbers.draws })

/-- A batch's requests in order, to the first that does not apply. -/
def Group.run : Group → Nat → List (Request × LocalNames) → Except Batched Unit × Group
  | g, _, [] => (.ok (), g)
  | g, index, (sent, n) :: rest =>
      let req := resolved written sent n g.made
      match unbatchable g.store.world req with
      | some why => (.error (.fault (.held index why)), g)
      | none =>
          let (told, after) := g.request r sha written now attempts answers index req
          match told with
          | .verdict (.satisfied id version events created flags replayed) _ =>
              match bound after.store.world n id created after.made with
              | .error why => (.error (.fault (.named index why)), after)
              | .ok made =>
                  Group.run
                    { after with
                      made
                      verdicts := after.verdicts ++
                        [.satisfied id version events created flags replayed] }
                    (index + 1) rest
          | .failed => (.error .failed, after)
          | told => (.error (.refused index told), after)

/-- The store a batch was rolled back on, with the numbers it drew. -/
def KeyedStore.aborted (s : KeyedStore) (g : Group) : KeyedStore :=
  { s with
    world := { s.world with earlier := g.store.world.earlier }
    numbers := s.numbers.keepDraws g.draws }

/-- The store a batch committed, its key recorded where it has one. -/
def Group.committed (g : Group) (keyed : Option ((String × String) × String)) : KeyedStore :=
  match keyed with
  | none => g.store
  | some (key, digest) =>
      { g.store with
        records := Table.put g.store.records key
          { digest, positions := g.verdicts.flatMap Verdict.events, answered := .batch g.verdicts } }

/-- The batch run, once nothing refuses it before; checking, nothing of it
kept. -/
def KeyedStore.runBatch (s : KeyedStore) (reqs : List Request) (names : List LocalNames)
    (keyed : Option ((String × String) × String)) (checking : Bool) : Batched × KeyedStore :=
  match Group.run r sha written now attempts answers { store := s } 0 (withNames reqs names) with
  | (.ok (), g) => (.applied g.verdicts, if checking then s else g.committed keyed)
  | (.error why, g) => (why.unheld s.world, if checking then s else s.aborted g)

/-- A batch's digest, over each of its requests' and the names it holds. -/
def batchDigest (lib : Library) (reqs : List (Request × LocalNames)) (actor : String)
    (principal : Option String) : String :=
  let created : Creates → Json
    | .list names => .object [("list", .array (names.map Json.string))]
    | .byType types => .object [("by_type", .array (types.map fun (tn, names) =>
        .array [.string tn, .array (names.map Json.string)]))]
  let naming (n : LocalNames) : String :=
    if n.lid.isNone && n.objectLid.isNone && n.creates.isNone then ""
    else written (.object ([("lid", .ofText n.lid), ("object_lid", .ofText n.objectLid)] ++
      (n.creates.map fun c => ("creates", created c)).toList))
  let text := reqs.map fun (req, n) =>
    requestDigest (hexOf sha written) lib req (some actor) principal ++ naming n ++ "\n"
  "batch:" ++ sha ("".intercalate text)

/-- A recorded batch's verdicts as they were answered; none where the record is
not a batch's of so many requests. -/
def World.replayedBatch (w : World) (requests : Nat) : Answered' → Option (List Verdict)
  | .batch vs => if vs.length = requests then some (vs.map fun v => w.replayed v.recorded) else none
  | .request _ => none

/-- Why a batch cannot hold one of its requests, the first of them. -/
def heldFault (w : World) (reqs : List Request) : Option BatchFault :=
  reqs.zipIdx.findSome? fun (req, i) => (unbatchable w req).map fun why => .held i why

/-- The first request of another actor or principal than the first's. -/
def otherActor : List Request → Option Nat
  | [] => none
  | first :: rest =>
      (rest.zipIdx.find? fun (req, _) =>
        req.actor ≠ first.actor || req.principal ≠ first.principal).map fun (_, i) => i + 1

/-- A batch of requests applied whole or not at all, its requests naming what
earlier ones create. -/
def KeyedStore.batchNamed (s : KeyedStore) (reqs : List Request) (names : List LocalNames)
    (key : Option String) : Batched × KeyedStore :=
  match reqs with
  | [] => (.fault .empty, s)
  | first :: _ =>
      if BATCH_MOST < reqs.length then (.fault (.overLimit BATCH_MOST), s)
      else match namesFault written reqs names with
        | some fault => (.fault fault, s)
        | none => match heldFault s.world reqs with
            | some fault => (.fault fault, s)
            | none => match key with
                | none => s.runBatch r sha written now attempts answers reqs names none false
                | some key => match otherActor reqs with
                    | some index => (.fault (.held index ("a request of another actor or " ++
                        "principal than the batch's, whose key is one actor's")), s)
                    | none => match resolveActor s.world first.actor with
                        | none => s.runBatch r sha written now attempts answers reqs names none false
                        | some who =>
                            let principal := first.principal.bind fun p =>
                              (resolveActor s.world p).map (·.id)
                            let digest := batchDigest sha written s.world.lib
                              (withNames reqs names) who.id principal
                            match Table.get? s.records (who.id, key) with
                            | none =>
                                s.runBatch r sha written now attempts answers reqs names
                                  (some ((who.id, key), digest)) false
                            | some held =>
                                match (s.world.replayedBatch reqs.length held.answered).filter
                                    fun _ => replays held.digest digest with
                                | some vs => (.replayed vs, s)
                                | none => (.fault (.keyReused key), s)

/-! ### One after another -/

/-- Requests taken one after another, each alone on the store the ones before it
left, with its local names replaced by the ids of the objects made: each
satisfied, with its verdict. -/
inductive InTurn : KeyedStore → Table String String → Nat → List (Request × LocalNames) →
    List Verdict → KeyedStore → Prop where
  | done (s : KeyedStore) (made : Table String String) (index : Nat) :
      InTurn s made index [] [] s
  | next {s s₁ s₂ : KeyedStore} {made made₁ : Table String String} {index : Nat} {sent : Request}
      {n : LocalNames} {rest : List (Request × LocalNames)} {id : String} {version : Int}
      {events : List Int} {created : List String} {flags : List Flag} {replayed : Bool}
      {refusal : Refusal} {vs : List Verdict}
      (hrequest : s.request r (hexOf sha written) now (attempts index) (resolved written sent n made)
        answers = (.verdict (.satisfied id version events created flags replayed) refusal, s₁))
      (hnames : bound s₁.world n id created made = .ok made₁)
      (hrest : InTurn s₁ made₁ (index + 1) rest vs s₂) :
      InTurn s made index ((sent, n) :: rest)
        (.satisfied id version events created flags replayed :: vs) s₂

/-- A request of a batch does what it does alone. -/
theorem Group.request_alone (g : Group) (index : Nat) (req : Request) :
    (g.request r sha written now attempts answers index req).1 =
        (g.store.request r (hexOf sha written) now (attempts index) req answers).1 ∧
      (g.request r sha written now attempts answers index req).2.store =
        (g.store.request r (hexOf sha written) now (attempts index) req answers).2 ∧
      (g.request r sha written now attempts answers index req).2.made = g.made ∧
      (g.request r sha written now attempts answers index req).2.verdicts = g.verdicts :=
  ⟨rfl, rfl, rfl, rfl⟩

/-- A batch that runs to its end ran its requests one after another. -/
theorem Group.run_inTurn {g g' : Group} {index : Nat} {reqs : List (Request × LocalNames)}
    (h : Group.run r sha written now attempts answers g index reqs = (.ok (), g')) :
    ∃ vs, g'.verdicts = g.verdicts ++ vs ∧
      InTurn r sha written now attempts answers g.store g.made index reqs vs g'.store := by
  induction reqs generalizing g index with
  | nil =>
      cases h
      exact ⟨[], (List.append_nil _).symm, .done _ _ _⟩
  | cons first rest ih =>
      obtain ⟨sent, n⟩ := first
      unfold Group.run at h
      dsimp only at h
      cases hheld : unbatchable g.store.world (resolved written sent n g.made) with
      | some why =>
          rw [hheld] at h
          cases h
      | none =>
          rw [hheld] at h
          dsimp only at h
          obtain ⟨htold, hstore, hmade, hverdicts⟩ := Group.request_alone r sha written now attempts
            answers g index (resolved written sent n g.made)
          generalize g.request r sha written now attempts answers index
            (resolved written sent n g.made) = after at h htold hstore hmade hverdicts
          obtain ⟨told, after⟩ := after
          dsimp only at h htold hstore hmade hverdicts
          split at h
          case h_1 id version events created flags replayed refusal =>
            cases hnames : bound after.store.world n id created after.made with
            | error why =>
                rw [hnames] at h
                cases h
            | ok made =>
                rw [hnames] at h
                obtain ⟨vs, hvs, hturn⟩ := ih h
                refine ⟨.satisfied id version events created flags replayed :: vs, ?_, ?_⟩
                · rw [hvs]
                  simp only [hverdicts, List.append_assoc, List.singleton_append]
                · rw [hmade] at hnames
                  exact .next (Prod.ext htold.symm hstore.symm) hnames hturn
          case h_2 => cases h
          case h_3 => cases h

/-- What an end of a batch that answers no verdicts is not. -/
def Batched.isApplied : Batched → Bool
  | .applied _ => true
  | _ => false

/-- A batch that does not run to its end is not applied. -/
theorem Group.run_stopped {g g' : Group} {index : Nat} {reqs : List (Request × LocalNames)}
    {why : Batched} (h : Group.run r sha written now attempts answers g index reqs = (.error why, g')) :
    why.isApplied = false := by
  induction reqs generalizing g index with
  | nil => cases h
  | cons first rest ih =>
      obtain ⟨sent, n⟩ := first
      unfold Group.run at h
      dsimp only at h
      split at h
      · cases h
        rfl
      · split at h
        · split at h
          · cases h
            rfl
          · exact ih h
        · cases h
          rfl
        · cases h
          rfl

theorem Batched.unheld_isApplied (w : World) (b : Batched) :
    (b.unheld w).isApplied = b.isApplied := by
  unfold Batched.unheld
  split <;> rfl

/-- What a batch leaves of a store it does not apply to: its objects, their
events, their spans and their proposals as they were, its counters and its keys,
each sequence's rows but for the numbers drawn. -/
structure KeyedStore.Untouched (s s' : KeyedStore) : Prop where
  world : s'.world = { s.world with earlier := s'.world.earlier }
  counters : s'.counters = s.counters
  records : s'.records = s.records
  acknowledged : s'.acknowledged = s.acknowledged
  restores : s'.restores = s.restores
  versions : s'.versions = s.versions
  numbers : ∃ draws, s'.numbers = s.numbers.keepDraws draws

theorem KeyedStore.Untouched.refl (s : KeyedStore) : s.Untouched s :=
  ⟨rfl, rfl, rfl, rfl, rfl, rfl, [], rfl⟩

theorem KeyedStore.runBatch_spec (s : KeyedStore) (reqs : List Request) (names : List LocalNames)
    (keyed : Option ((String × String) × String)) :
    (∃ vs s', (s.runBatch r sha written now attempts answers reqs names keyed false).1 =
        .applied vs ∧
      InTurn r sha written now attempts answers s [] 0 (withNames reqs names) vs s' ∧
      ∃ records, (s.runBatch r sha written now attempts answers reqs names keyed false).2 =
        { s' with records }) ∨
    ((s.runBatch r sha written now attempts answers reqs names keyed false).1.isApplied = false ∧
      s.Untouched (s.runBatch r sha written now attempts answers reqs names keyed false).2) := by
  unfold KeyedStore.runBatch
  rcases hrun : Group.run r sha written now attempts answers { store := s } 0
    (withNames reqs names) with ⟨why | _, g⟩
  · right
    dsimp only
    refine ⟨?_, rfl, rfl, rfl, rfl, rfl, rfl, _, rfl⟩
    rw [Batched.unheld_isApplied]
    exact Group.run_stopped r sha written now attempts answers hrun
  · left
    obtain ⟨vs, hvs, hturn⟩ := Group.run_inTurn r sha written now attempts answers hrun
    refine ⟨vs, g.store, congrArg Batched.applied hvs, hturn, ?_⟩
    cases keyed with
    | none => exact ⟨g.store.records, rfl⟩
    | some key => exact ⟨_, rfl⟩

/-- **A batch is its requests in turn, or nothing.**  Either every request of it
is satisfied with the verdict it gets alone on the store the ones before it
left, its local names replaced by the ids of the objects made, and the batch
leaves what they leave; or the batch is not applied, and leaves every object,
event, span and proposal as it was. -/
theorem batch_in_turn_or_nothing (s : KeyedStore) (reqs : List Request) (names : List LocalNames)
    (key : Option String) :
    (∃ vs s', (s.batchNamed r sha written now attempts answers reqs names key).1 = .applied vs ∧
      InTurn r sha written now attempts answers s [] 0 (withNames reqs names) vs s' ∧
      ∃ records, (s.batchNamed r sha written now attempts answers reqs names key).2 =
        { s' with records }) ∨
    ((s.batchNamed r sha written now attempts answers reqs names key).1.isApplied = false ∧
      s.Untouched (s.batchNamed r sha written now attempts answers reqs names key).2) := by
  have hrun := s.runBatch_spec r sha written now attempts answers reqs names
  unfold KeyedStore.batchNamed
  split
  · exact .inr ⟨rfl, .refl s⟩
  · split
    · exact .inr ⟨rfl, .refl s⟩
    · split
      · exact .inr ⟨rfl, .refl s⟩
      · split
        · exact .inr ⟨rfl, .refl s⟩
        · split
          · exact hrun none
          · split
            · exact .inr ⟨rfl, .refl s⟩
            · split
              · exact hrun none
              · dsimp only
                split
                · exact hrun _
                · split
                  · exact .inr ⟨rfl, .refl s⟩
                  · exact .inr ⟨rfl, .refl s⟩

end Run

end ObjectFlow
