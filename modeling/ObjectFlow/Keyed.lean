import ObjectFlow.Commit

/-!
# Requests under a key

A request sent under a key its actor applied before is answered the verdict
recorded then, and a different one under that key is a fault.  What tells the
two apart is a digest of what the request carries, kept with the verdict; an
erasure of what the request sent marks the digest, so the key replays nothing
after.
-/

namespace ObjectFlow

open Base

/-! ### Digests -/

/-- How a digest made with its personal values masked begins. -/
def MASKED_DIGEST : String := "sha256-masked:"

/-- What a digest holds in place of what an erasure redacted. -/
def ERASED_DIGEST : String := "erased"

/-- A text on the wire, null where there is none. -/
def Json.ofText (text : Option String) : Json := (text.map Json.string).getD .null

/-- A time or a count on the wire, null where there is none. -/
def Json.ofInt (n : Option Int) : Json := (n.map fun n => Json.number (toString n)).getD .null

/-- The inputs of a request whose names the library marks personal. -/
def heldPersonal (lib : Library) (req : Request) : Table String Json :=
  let personal := personalNames lib
  req.inputs.filter fun (n, _) => personal.contains n

/-- What a request carries but its key and the version it names, its personal
inputs by their names alone, the actor and the principal as resolved. -/
def digestBody (lib : Library) (req : Request) (actor principal : Option String) : Json :=
  let personal := personalNames lib
  .object [("transition", .string req.transition),
    ("actor", .string (actor.getD req.actor)),
    ("object_id", .ofText req.objectId),
    ("type", .ofText req.type),
    ("inputs", .object (req.inputs.map fun (n, v) =>
      (n, if personal.contains n then .string PERSONAL else v))),
    ("occurred_at", .ofInt req.occurredAt),
    ("propose", .bool req.propose),
    ("expires_at", .ofInt req.expiresAt),
    ("principal", .ofText (principal.orElse fun _ => req.principal)),
    ("context", .ofText req.context)]

/-- A request's digest: of what it carries, its personal values masked, and of
those values where it holds any. -/
def requestDigest (hex : Json → String) (lib : Library) (req : Request)
    (actor principal : Option String) : String :=
  let held := heldPersonal lib req
  let masked := MASKED_DIGEST ++ hex (digestBody lib req actor principal)
  if held.isEmpty then masked else masked ++ "/" ++ hex (.object held)

/-- Whether a key's recorded digest replays a request of this digest. -/
def replays (recorded digest : String) : Bool := recorded = digest

/-- A digest once an erasure redacted what its request sent: whole, or a masked
one's half over its personal values. -/
def erasedDigest (digest : String) : String :=
  if !MASKED_DIGEST.toList.isPrefixOf digest.toList then ERASED_DIGEST
  else if digest.toList.contains '/' then
    String.ofList (digest.toList.takeWhile (· ≠ '/')) ++ "/" ++ ERASED_DIGEST
  else digest

/-! ### Records -/

/-- What a key was answered. -/
inductive Answered' where
  | request (v : Verdict)
  | batch (vs : List Verdict)

/-- A key's record: the digest of what was applied under it, the positions of
the events it recorded, and what it was answered. -/
structure Recorded where
  digest : String
  positions : List Int
  answered : Answered'

/-- Each record by its actor and its key. -/
abbrev Records := Table (String × String) Recorded

/-- A satisfied verdict as a record keeps it, and gives it back. -/
def Verdict.recorded : Verdict → Verdict
  | .satisfied id version events _ flags _ => .satisfied id version events [] flags true
  | other => other

/-- The objects the events at the positions given made: each whose event is its
object's first. -/
def World.madeBy (w : World) (events : List Int) : List String :=
  events.filterMap fun p =>
    ((w.eventAt p).filter fun e => e.objectSeq = 1).map (·.objectId)

/-- A recorded verdict as it is replayed, naming what its events made. -/
def World.replayed (w : World) : Verdict → Verdict
  | .satisfied id version events _ flags replayed =>
      .satisfied id version events (w.madeBy events) flags replayed
  | other => other

namespace Records

/-- The records once an erasure redacted inputs of the events given. -/
def redact (records : Records) (redacted : List (Int × String)) : Records :=
  records.map fun (k, rec') =>
    (k, if redacted.any fun (p, _) => rec'.positions.contains p then
      { rec' with digest := erasedDigest rec'.digest }
    else rec')

/-- The records of an erased actor's identity made its object's, a key that id
holds already giving way. -/
def renameActor (records : Records) (rn : Renaming) : Records :=
  let renamed := (records.filter fun (k, _) => k.1 = rn.identity).map fun (k, _) => k.2
  (records.filter fun (k, _) => !(k.1 = rn.id && renamed.contains k.2)).map fun (k, rec') =>
    ((rn.name k.1, k.2), rec')

/-- The records as a change leaves them. -/
def written (records : Records) (c : Change) : Records :=
  (c.renamedActors.foldl (fun records (identity, id) => records.renameActor ⟨identity, id⟩)
    records).redact c.redactedInputs

end Records

/-! ### A store that keeps its keys -/

/-- A store with its keys' records and each version its declaration recorded;
its world holds those of them loaded. -/
structure KeyedStore extends Store where
  records : Records := []
  versions : Table Int Library := []

/-- Every earlier version loaded, those already loaded kept. -/
def World.loadEarlier (w : World) (versions : Table Int Library) : World :=
  let before := (List.range (w.lib.version - 1).toNat).map fun i : Nat => (1 : Int) + i
  { w with
    earlier := before.foldl (fun earlier v =>
      if (Table.get? earlier v).isSome then earlier
      else match Table.get? versions v with
        | some lib => Table.set earlier v lib
        | none => earlier) w.earlier }

/-- A refused call's object, at any depth, none where the store does not hold
it. -/
def Verdict.unmade (w : World) : Verdict → Verdict
  | .callRefused step id v clause =>
      .callRefused step (id.filter fun i => (w.get i).isSome) (v.unmade w) clause
  | other => other

/-- What a request is told: a verdict, with what a refusal tells beside it, or
why it gets none. -/
inductive Told where
  | verdict (v : Verdict) (r : Refusal)
  | notRun (e : NotRun)
  | keyReused (key : String)
  /-- The store refused what was to be written, and nothing is. -/
  | failed

/-- What a request comes to before anything is written: a replay, a key used
before, or a decision, under its key where its actor is known. -/
inductive Outcome where
  | replayed (answered : Answered')
  | keyReused (key : String)
  | decided (keyed : Option ((String × String) × String)) (answer : Answer)

namespace KeyedStore

variable (r : Readers) (hex : Json → String) (s : KeyedStore)

def loaded : KeyedStore := { s with world := s.world.loadEarlier s.versions }

/-- The key of a request, its actor's, where the store knows the actor. -/
def keyOf (w : World) (req : Request) : Option (String × String) :=
  req.idempotencyKey.bind fun key => (resolveActor w req.actor).map fun who => (who.id, key)

/-- The digest of a request under a key of its actor's. -/
def digestOf (w : World) (req : Request) (key : String × String) : String :=
  requestDigest hex w.lib req (some key.1)
    (req.principal.bind fun p => (resolveActor w p).map (·.id))

/-- What a request comes to on the store as it stands, and the counters as it
leaves them. -/
def outcome (w : World) (req : Request) (answers : Table String String) : Outcome × Counters :=
  let keyed := (keyOf w req).map fun key => (key, digestOf hex w req key)
  match keyed.bind fun k => (Table.get? s.records k.1).map fun held => (k, held) with
  | some (k, held) =>
      (if replays held.digest k.2 then .replayed held.answered else .keyReused k.1.2, s.drawing)
  | none =>
      let (answer, alloc) := decide' r w s.drawing req answers false
      (.decided keyed answer, alloc)

/-- The store with what a change recorded under its key. -/
def recorded (keyed : Option ((String × String) × String)) (v : Verdict) (c : Change) : Records :=
  (match keyed with
    | none => s.records
    | some (key, digest) =>
        Table.put s.records key
          { digest, positions := c.events.map Event.position, answered := .request v.recorded }
    ).written c

/-- What a request's outcome leaves of the store, and tells its caller. -/
def settled (w : World) : Outcome × Counters → Told × KeyedStore
  | (.replayed (.request v), _) => (.verdict (w.replayed v) {}, s)
  | (.replayed (.batch _), _) => (.notRun (.unsupported "a recorded verdict the core cannot read"), s)
  | (.keyReused key, _) => (.keyReused key, s)
  | (.decided keyed (.ok (v, c)), alloc) =>
      match w.write r c with
      | none => (.failed, s)
      | some world =>
          (.verdict (v.unmade world) {},
            { s with
              toStore := s.toStore.settle r w (.ok (v, c), alloc)
              records := s.recorded keyed v c })
  | (.decided _ (.error (.refused v refusal)), alloc) =>
      (.verdict (v.unmade s.world) refusal,
        { s with toStore := s.toStore.settle r w (.error (.refused v refusal), alloc) })
  | (.decided _ (.error (.notRun e)), _) => (.notRun e, s)

/-- A request, its verdict and what its caller is told. -/
def request (now : Int) (attempts : Table String (List Value)) (req : Request)
    (answers : Table String String) : Told × KeyedStore :=
  let s := s.loaded
  let w := s.opened now attempts
  s.settled r w (s.outcome r hex w req answers)

end KeyedStore

end ObjectFlow
