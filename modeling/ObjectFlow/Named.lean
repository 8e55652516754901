import ObjectFlow.Base.Introduced
import ObjectFlow.Batch

/-!
# What a batch's local names stand for

The check of a batch's names, made before any request of it runs, against what it
is for: each name is given once, by a request that makes something, and used only
after.  In a batch it passes, the names are then one substitution: every request
runs as it would with each of its names written as the id it stands for from the
start, whatever the requests after it go on to make.
-/

namespace ObjectFlow

open Base

section Names

variable (written : Json → String)

/-- The local names a request of a batch uses: the one of the object it acts on,
and those its inputs hold. -/
def namesUsed (p : Request × LocalNames) : List String :=
  p.2.objectLid.toList ++ (lidsIn written p.1).toOption.getD []

/-- The local names a request of a batch gives: the one of the object it creates,
and those of what its effect creates. -/
def namesGiven (p : Request × LocalNames) : List String :=
  p.2.lid.toList ++ (p.2.creates.map Creates.names).getD []

/-- A request that can be read with its local names: it names its object one way,
each name its inputs hold is one, and it gives its own object a name only where it
creates one. -/
structure Readable (p : Request × LocalNames) : Prop where
  oneWay : p.2.objectLid.isSome → p.1.objectId = none
  names : ∃ lids, lidsIn written p.1 = .ok lids
  creates : p.2.lid.isSome → p.1.type.isSome ∧ p.1.objectId = none ∧ p.2.objectLid = none

/-- A batch whose local names can be resolved. -/
structure WellNamed (reqs : List Request) (names : List LocalNames) : Prop where
  counted : names = [] ∨ names.length = reqs.length
  readable : ∀ p ∈ withNames reqs names, Readable written p
  nonempty : "" ∉ (withNames reqs names).flatMap namesGiven
  once : ((withNames reqs names).flatMap namesGiven).Nodup
  before : ∀ earlier p later, withNames reqs names = earlier ++ p :: later →
    ∀ lid ∈ namesUsed written p, lid ∈ earlier.flatMap namesGiven

theorem lidsGiven_ok {given used : List String} :
    lidsGiven given used = .ok () ↔ ∀ lid ∈ used, lid ≠ "" ∧ lid ∈ given := by
  induction used with
  | nil => simp [lidsGiven]
  | cons lid rest ih =>
      rw [lidsGiven, List.forall_mem_cons, ← ih]
      by_cases hempty : lid = ""
      · simp [hempty]
      · by_cases hgiven : lid ∈ given <;> simp [hempty, hgiven]

theorem givingCreated_ok {given names all : List String} :
    givingCreated given names = .ok all ↔
      "" ∉ names ∧ (∀ name ∈ names, name ∉ given) ∧ names.Nodup ∧ all = given ++ names := by
  induction names generalizing given with
  | nil => simp [givingCreated, eq_comm]
  | cons name rest ih =>
      rw [givingCreated]
      by_cases hempty : name = ""
      · simp [hempty]
      · by_cases hgiven : name ∈ given
        · simp [hempty, hgiven]
        · rw [if_neg hempty, if_neg (by simpa using hgiven), ih]
          rw [List.forall_mem_cons, List.nodup_cons, List.append_assoc, List.singleton_append]
          simp only [List.mem_cons, not_or, List.mem_append, List.not_mem_nil, or_false]
          constructor
          · rintro ⟨hrest, hfresh, honce, hall⟩
            exact ⟨⟨Ne.symm hempty, hrest⟩, ⟨hgiven, fun k hk => (hfresh k hk).1⟩,
              ⟨fun hmem => (hfresh name hmem).2 rfl, honce⟩, hall⟩
          · rintro ⟨⟨-, hrest⟩, ⟨-, hfresh⟩, ⟨hname, honce⟩, hall⟩
            exact ⟨hrest, fun k hk => ⟨hfresh k hk, fun hkn => hname (hkn ▸ hk)⟩, honce, hall⟩

theorem givingLid_ok {req : Request} {n : LocalNames} {given all : List String} :
    givingLid req n given = .ok all ↔
      "" ∉ n.lid.toList ∧ (∀ lid ∈ n.lid.toList, lid ∉ given) ∧
        (n.lid.isSome → req.type.isSome ∧ req.objectId = none ∧ n.objectLid = none) ∧
        all = given ++ n.lid.toList := by
  unfold givingLid
  cases n.lid with
  | none => simpa using eq_comm
  | some lid =>
      by_cases hempty : lid = ""
      · simp [hempty]
      · by_cases hmakes : req.type.isNone || req.objectId.isSome || n.objectLid.isSome
        · have hnot : ¬ (req.type.isSome ∧ req.objectId = none ∧ n.objectLid = none) := by
            rintro ⟨htype, hid, hlid⟩
            simp [hid, hlid, Option.isSome_iff_ne_none.mp htype] at hmakes
          simp [hempty, hmakes, hnot]
        · have hall : req.type.isSome ∧ req.objectId = none ∧ n.objectLid = none := by
            simpa [Option.isSome_iff_ne_none, not_or, and_assoc] using hmakes
          by_cases hgiven : lid ∈ given
          · simp [hempty, hmakes, hgiven]
          · dsimp only
            rw [if_neg hempty, if_neg hmakes, if_neg (by simpa using hgiven), Except.ok.injEq]
            simp [Ne.symm hempty, hgiven, hall, eq_comm (a := all)]

/-- **One request's names**: past what the ones before it give, they are taken
exactly where the request can be read, it uses what is given, and what it gives is
new. -/
theorem namesOf_ok {given all : List String} {p : Request × LocalNames} (hnonempty : "" ∉ given) :
    namesOf written given p.1 p.2 = .ok all ↔
      Readable written p ∧ "" ∉ namesGiven p ∧ (∀ lid ∈ namesUsed written p, lid ∈ given) ∧
        (∀ lid ∈ namesGiven p, lid ∉ given) ∧ (namesGiven p).Nodup ∧
        all = given ++ namesGiven p := by
  obtain ⟨req, n⟩ := p
  unfold namesOf
  by_cases hboth : (n.objectLid.isSome && req.objectId.isSome) = true
  · rw [if_pos hboth]
    refine iff_of_false (by simp) fun h => ?_
    rw [Bool.and_eq_true] at hboth
    rw [show req.objectId = none from h.1.oneWay hboth.1] at hboth
    cases hboth.2
  · rw [if_neg hboth]
    have honeWay : n.objectLid.isSome → req.objectId = none := by
      intro h
      rw [h, Bool.true_and, Bool.not_eq_true] at hboth
      exact Option.isSome_eq_false_iff.mp hboth |> Option.isNone_iff_eq_none.mp
    cases hlids : lidsIn written req with
    | error why =>
        refine iff_of_false (by simp [bind, Except.bind]) fun h => ?_
        obtain ⟨lids, hok⟩ := h.1.names
        rw [hlids] at hok
        cases hok
    | ok lids =>
        have hused : namesUsed written (req, n) = n.objectLid.toList ++ lids := by
          simp [namesUsed, hlids, Except.toOption]
        constructor
        · intro h
          obtain ⟨used, hread, h⟩ := ok_of_bind h
          cases hread
          obtain ⟨_, hgiven, h⟩ := ok_of_bind h
          obtain ⟨given₁, hlid, hcreated⟩ := ok_of_bind h
          obtain ⟨hlidEmpty, hlidFresh, hmakes, rfl⟩ := givingLid_ok.mp hlid
          obtain ⟨hempty, hfresh, honce, rfl⟩ := givingCreated_ok.mp hcreated
          have hin := lidsGiven_ok.mp hgiven
          simp only [List.mem_append, not_or] at hfresh
          refine ⟨⟨honeWay, ⟨lids, hlids⟩, hmakes⟩, ?_, ?_, ?_, ?_, by simp [namesGiven]⟩
          · simp only [namesGiven, List.mem_append, not_or]
            exact ⟨hlidEmpty, hempty⟩
          · rw [hused]
            exact fun lid hmem => (hin lid hmem).2
          · simp only [namesGiven, List.mem_append]
            rintro lid (hmem | hmem)
            · exact hlidFresh lid hmem
            · exact (hfresh lid hmem).1
          · refine List.nodup_append.mpr ⟨?_, honce, fun j hj k hk hjk => ?_⟩
            · cases n.lid <;> simp
            · exact (hfresh k hk).2 (hjk ▸ hj)
        · rintro ⟨hread, hempty, huses, hfresh, honce, rfl⟩
          simp only [namesGiven, List.mem_append, not_or] at hempty hfresh
          obtain ⟨-, hcreatedOnce, hapart⟩ := List.nodup_append.mp honce
          have hgiven : lidsGiven given (n.objectLid.toList ++ lids) = .ok () :=
            lidsGiven_ok.mpr fun lid hmem =>
              ⟨fun hlid => hnonempty (hlid ▸ huses lid (hused ▸ hmem)), huses lid (hused ▸ hmem)⟩
          have hlid : givingLid req n given = .ok (given ++ n.lid.toList) :=
            givingLid_ok.mpr ⟨hempty.1, fun lid hmem => hfresh lid (.inl hmem), hread.creates, rfl⟩
          have hcreated : givingCreated (given ++ n.lid.toList)
              ((n.creates.map Creates.names).getD []) = .ok (given ++ namesGiven (req, n)) := by
            refine givingCreated_ok.mpr ⟨hempty.2, fun name hmem => ?_, hcreatedOnce, ?_⟩
            · rw [List.mem_append, not_or]
              exact ⟨hfresh name (.inr hmem), fun h => hapart name h name hmem rfl⟩
            · simp [namesGiven]
          simp only [bind, Except.bind, hgiven, hlid, hcreated]

/-- The requests' names in turn, past those given before them. -/
theorem namesFaultFrom_none {index : Nat} {given : List String}
    {reqs : List (Request × LocalNames)} (hnonempty : "" ∉ given) :
    namesFaultFrom written index given reqs = none ↔
      (∀ p ∈ reqs, Readable written p) ∧ "" ∉ reqs.flatMap namesGiven ∧
        InOrder (namesUsed written) namesGiven given reqs := by
  induction reqs generalizing index given with
  | nil => simp [namesFaultFrom, InOrder]
  | cons p rest ih =>
      obtain ⟨req, n⟩ := p
      unfold namesFaultFrom
      have hone := fun all => @namesOf_ok written given all (req, n) hnonempty
      simp only [List.forall_mem_cons, List.flatMap_cons, List.mem_append, not_or, InOrder]
      cases hnames : namesOf written given req n with
      | error why =>
          simp only [hnames] at hone
          refine iff_of_false (by simp) fun h => ?_
          have := (hone _).mpr ⟨h.1.1, h.2.1.1, h.2.2.1, h.2.2.2.1, h.2.2.2.2.1, rfl⟩
          cases this
      | ok all =>
          obtain ⟨hread, hempty, huses, hfresh, honce, rfl⟩ := (hone _).mp hnames
          have hboth : "" ∉ given ++ namesGiven (req, n) := by
            simpa [List.mem_append, not_or] using ⟨hnonempty, hempty⟩
          dsimp only
          rw [ih hboth]
          exact ⟨fun h => ⟨⟨hread, h.1⟩, ⟨hempty, h.2.1⟩, huses, hfresh, honce, h.2.2⟩,
            fun h => ⟨h.1.2, h.2.1.2, h.2.2.2.2.2⟩⟩

/-- What a batch's names found no fault with are, request by request. -/
theorem namesFault_none {reqs : List Request} {names : List LocalNames} :
    namesFault written reqs names = none ↔
      (names = [] ∨ names.length = reqs.length) ∧
        (∀ p ∈ withNames reqs names, Readable written p) ∧
        "" ∉ (withNames reqs names).flatMap namesGiven ∧
        InOrder (namesUsed written) namesGiven [] (withNames reqs names) := by
  unfold namesFault
  by_cases hcount : names = [] ∨ names.length = reqs.length
  · rw [if_neg, namesFaultFrom_none written (by simp)]
    · exact ⟨fun h => ⟨hcount, h⟩, fun h => h.2⟩
    · rcases hcount with rfl | hlength
      · simp
      · simp [hlength]
  · refine iff_of_false ?_ fun h => hcount h.1
    rw [not_or] at hcount
    rw [if_pos (by simpa [List.isEmpty_iff] using hcount)]
    simp

/-- **The check of the names is exact**: a batch's names are found no fault with
exactly where each is given once, by a request that creates what it names, is not
empty, and is used only by requests after. -/
theorem names_checked (reqs : List Request) (names : List LocalNames) :
    namesFault written reqs names = none ↔ WellNamed written reqs names := by
  rw [namesFault_none, inOrder_iff (by simp)]
  simp only [List.nil_append]
  exact ⟨fun h => ⟨h.1, h.2.1, h.2.2.1, h.2.2.2.1, h.2.2.2.2⟩,
    fun h => ⟨h.counted, h.readable, h.nonempty, h.once, h.before⟩⟩

/-! ### Names as one substitution -/

/-- A value with each of its elements changed, itself where it is no set. -/
def Json.eachElement (f : Json → Json) : Json → Json
  | .array items => .array (items.map f)
  | v => f v

theorem Json.eachElement_congr {f g : Json → Json} {v : Json}
    (h : ∀ e ∈ v.elements, f e = g e) : v.eachElement f = v.eachElement g := by
  cases v with
  | array items => exact congrArg Json.array (List.map_congr_left h)
  | null | bool | number | string | object => exact h _ List.mem_cons_self

/-- An element of a changed value is one of its own, changed. -/
theorem Json.mem_eachElement {f : Json → Json} {v e : Json}
    (hf : ∀ e ∈ v.elements, (f e).elements = [f e] ∨ f e = e)
    (he : e ∈ (v.eachElement f).elements) : ∃ e' ∈ v.elements, e = f e' := by
  cases v with
  | array items =>
      obtain ⟨e', he', rfl⟩ := List.mem_map.mp he
      exact ⟨e', he', rfl⟩
  | null | bool | number | string | object =>
      refine ⟨_, List.mem_cons_self, ?_⟩
      dsimp only [Json.eachElement] at he
      rcases hf _ List.mem_cons_self with helements | hsame
      · rw [helements] at he
        exact List.mem_singleton.mp he
      · rw [hsame] at he ⊢
        exact List.mem_singleton.mp he

theorem resolved_inputs (req : Request) (n : LocalNames) (made : Table String String) :
    (resolved written req n made).inputs =
      req.inputs.map fun p => (p.1, p.2.eachElement (idOf written made)) := by
  refine List.map_congr_left fun p _ => ?_
  obtain ⟨k, v⟩ := p
  cases v <;> rfl

/-- The names an input's values are. -/
theorem lidsIn_ok {req : Request} {lids : List String} (h : lidsIn written req = .ok lids)
    {p : String × Json} (hp : p ∈ req.inputs) {e : Json} (he : e ∈ p.2.elements) :
    lidOf written e = none ∨ ∃ lid ∈ lids, lidOf written e = some (.ok lid) := by
  have hall : ∀ (found : List (Except String String)) lids, found.mapM id = .ok lids →
      ∀ x ∈ found, ∃ lid ∈ lids, x = .ok lid := by
    intro found
    induction found with
    | nil => simp
    | cons x rest ih =>
        intro lids h
        rw [List.mapM_cons] at h
        obtain ⟨lid, hx, h⟩ := ok_of_bind h
        obtain ⟨others, hrest, h⟩ := ok_of_bind h
        cases h
        rintro y (_ | ⟨_, hy⟩)
        · exact ⟨lid, List.mem_cons_self, hx⟩
        · obtain ⟨other, hmem, rfl⟩ := ih others hrest y hy
          exact ⟨other, List.mem_cons_of_mem _ hmem, rfl⟩
  cases hlid : lidOf written e with
  | none => exact .inl rfl
  | some x =>
      obtain ⟨lid, hmem, rfl⟩ := hall _ lids h x
        (List.mem_flatMap.mpr ⟨p, hp, List.mem_filterMap.mpr ⟨e, he, hlid⟩⟩)
      exact .inr ⟨lid, hmem, rfl⟩

theorem idOf_plain {made : Table String String} {v : Json} (h : lidOf written v = none) :
    idOf written made v = v := by
  rw [idOf, h]

theorem idOf_named {made : Table String String} {v : Json} {lid id : String}
    (h : lidOf written v = some (.ok lid)) (hid : Table.get? made lid = some id) :
    idOf written made v = .string id := by
  rw [idOf, h]
  simp [hid]

/-- A request whose names are all held reads nothing of a table but what it uses. -/
theorem resolved_extends {p : Request × LocalNames} {made final : Table String String}
    (hread : Readable written p) (hused : ∀ lid ∈ namesUsed written p, (Table.get? made lid).isSome)
    (hextends : made.Extends final) :
    resolved written p.1 p.2 made = resolved written p.1 p.2 final := by
  obtain ⟨req, n⟩ := p
  obtain ⟨lids, hlids⟩ := hread.names
  have hobject : (resolved written req n made).objectId =
      (resolved written req n final).objectId := by
    unfold resolved
    cases hlid : n.objectLid with
    | none => rfl
    | some lid =>
        obtain ⟨id, hid⟩ := Option.isSome_iff_exists.mp (hused lid (by simp [namesUsed, hlid]))
        exact hid.trans (hextends lid id hid).symm
  have hinputs : (resolved written req n made).inputs = (resolved written req n final).inputs := by
    rw [resolved_inputs, resolved_inputs]
    refine List.map_congr_left fun p hp => congrArg (Prod.mk p.1) (Json.eachElement_congr ?_)
    intro e he
    rcases lidsIn_ok written hlids hp he with hplain | ⟨lid, hmem, hlid⟩
    · rw [idOf_plain written hplain, idOf_plain written hplain]
    · obtain ⟨id, hid⟩ := Option.isSome_iff_exists.mp
        (hused lid (by simp [namesUsed, hlids, Except.toOption, hmem]))
      rw [idOf_named written hlid hid, idOf_named written hlid (hextends lid id hid)]
  calc resolved written req n made
      = { req with
          objectId := (resolved written req n made).objectId
          inputs := (resolved written req n made).inputs } := rfl
    _ = resolved written req n final := by
        rw [hobject, hinputs]
        rfl

/-- A request run with its names held holds none of them any more. -/
theorem resolved_plain {p : Request × LocalNames} {made : Table String String}
    (hread : Readable written p)
    (hused : ∀ lid ∈ namesUsed written p, (Table.get? made lid).isSome) :
    lidsIn written (resolved written p.1 p.2 made) = .ok [] := by
  obtain ⟨req, n⟩ := p
  obtain ⟨lids, hlids⟩ := hread.names
  have hnone : ∀ q ∈ (resolved written req n made).inputs, ∀ e ∈ q.2.elements,
      lidOf written e = none := by
    intro q hq e he
    rw [resolved_inputs] at hq
    obtain ⟨p, hp, rfl⟩ := List.mem_map.mp hq
    have hone : ∀ e ∈ p.2.elements, lidOf written (idOf written made e) = none ∧
        ((idOf written made e).elements = [idOf written made e] ∨ idOf written made e = e) := by
      intro e he
      rcases lidsIn_ok written hlids hp he with hplain | ⟨lid, hmem, hlid⟩
      · rw [idOf_plain written hplain]
        exact ⟨hplain, .inr rfl⟩
      · obtain ⟨id, hid⟩ := Option.isSome_iff_exists.mp
          (hused lid (by simp [namesUsed, hlids, Except.toOption, hmem]))
        rw [idOf_named written hlid hid]
        exact ⟨rfl, .inl rfl⟩
    obtain ⟨e', he', rfl⟩ := Json.mem_eachElement (fun e he => (hone e he).2) he
    exact (hone e' he').1
  have hempty : ((resolved written req n made).inputs.flatMap fun q =>
      q.2.elements.filterMap (lidOf written)) = [] :=
    List.flatMap_eq_nil_iff.mpr fun q hq => List.filterMap_eq_nil_iff.mpr (hnone q hq)
  unfold lidsIn
  exact congrArg (List.mapM id) hempty

end Names

/-- The names a mapping gives are those bound. -/
theorem boundByType_names {created : List (String × String)} {types : List (String × List String)}
    {pairs : List (String × String)} (h : boundByType created types = .ok pairs) :
    pairs.map Prod.fst = types.flatMap Prod.snd := by
  induction types generalizing pairs with
  | nil =>
      cases h
      rfl
  | cons type rest ih =>
      obtain ⟨tn, names⟩ := type
      unfold boundByType at h
      dsimp only at h
      split at h
      case isTrue => cases h
      case isFalse hfew =>
        obtain ⟨others, hothers, h⟩ := ok_of_bind h
        cases h
        rw [List.map_append, ih hothers, List.map_fst_zip (by omega), List.flatMap_cons]

/-- What a request's effect created is bound to every name it gives it. -/
theorem bindCreated_names {w : World} {creates : Creates} {own : String} {created : List String}
    {pairs : List (String × String)} (h : bindCreated w creates own created = .ok pairs) :
    pairs.map Prod.fst = creates.names := by
  unfold bindCreated at h
  cases creates with
  | list names =>
      dsimp only at h
      split at h
      case isTrue => cases h
      case isFalse =>
        split at h
        case isTrue => cases h
        case isFalse hfew =>
          cases h
          exact List.map_fst_zip (by simpa using hfew)
  | byType types => exact boundByType_names h

/-- **What a request binds**: every name it gives, to what it made, and nothing the
requests before it bound. -/
theorem bound_spec {w : World} {p : Request × LocalNames} {id : String} {created : List String}
    {made made₁ : Table String String} {given : List String}
    (h : bound w p.2 id created made = .ok made₁) (hholds : made.Holds given)
    (hfresh : ∀ name ∈ namesGiven p, name ∉ given) (honce : (namesGiven p).Nodup) :
    made.Extends made₁ ∧ made₁.Holds (given ++ namesGiven p) ∧
      (∀ lid, p.2.lid = some lid → Table.get? made₁ lid = some id) ∧
      ∀ creates, p.2.creates = some creates → ∃ pairs,
        bindCreated w creates id created = .ok pairs ∧
          ∀ q ∈ pairs, Table.get? made₁ q.1 = some q.2 := by
  obtain ⟨req, n⟩ := p
  -- what its effect created, once its own object is named
  have hrest : ∀ own : Table String String, made.Extends own →
      own.Holds (given ++ n.lid.toList) →
      (∀ lid, n.lid = some lid → Table.get? own lid = some id) →
      bound w { creates := n.creates } id created own = .ok made₁ →
      made.Extends made₁ ∧ made₁.Holds (given ++ namesGiven (req, n)) ∧
        (∀ lid, n.lid = some lid → Table.get? made₁ lid = some id) ∧
        ∀ creates, n.creates = some creates → ∃ pairs,
          bindCreated w creates id created = .ok pairs ∧
            ∀ q ∈ pairs, Table.get? made₁ q.1 = some q.2 := by
    intro own hextends hheld hlid hbound
    unfold bound at hbound
    cases hcreates : n.creates with
    | none =>
        rw [hcreates] at hbound
        cases hbound
        exact ⟨hextends, by simpa [namesGiven, hcreates] using hheld, hlid, by simp⟩
    | some creates =>
        rw [hcreates] at hbound
        obtain ⟨pairs, hpairs, hbound⟩ := ok_of_bind hbound
        cases hbound
        have hgiven : namesGiven (req, n) = n.lid.toList ++ pairs.map Prod.fst := by
          simp [namesGiven, hcreates, bindCreated_names hpairs]
        rw [hgiven] at hfresh honce
        obtain ⟨-, hcreatedOnce, hapart⟩ := List.nodup_append.mp honce
        obtain ⟨hextends', hheld', hreads⟩ := hheld.foldl_set pairs (fun q hq hmem => by
          have hq' : q.1 ∈ pairs.map Prod.fst := List.mem_map_of_mem hq
          rcases List.mem_append.mp hmem with hmem | hmem
          · exact hfresh q.1 (List.mem_append_right _ hq') hmem
          · exact hapart q.1 hmem q.1 hq' rfl) hcreatedOnce
        refine ⟨hextends.trans hextends', ?_, fun lid h => hextends' lid id (hlid lid h), ?_⟩
        · rw [hgiven, ← List.append_assoc]
          exact hheld'
        · intro other hother
          cases hother
          exact ⟨pairs, hpairs, hreads⟩
  unfold bound at h
  dsimp only at h
  cases hlid : n.lid with
  | none =>
      rw [hlid] at h hrest
      exact hrest made (.refl made) (by simpa using hholds) (by simp) h
  | some lid =>
      obtain ⟨hextends, hheld⟩ := hholds.set (hfresh lid (by simp [namesGiven, hlid])) id
      rw [hlid] at h hrest
      refine hrest _ hextends hheld (fun other hother => ?_) h
      cases hother
      exact Table.get?_set_self made lid id

section Run

variable (r : Readers) (sha : String → String) (written : Json → String) (now : Int)
  (attempts : Nat → Table String (List Value)) (answers : Table String String)

/-- Requests run one after another, each with its names written as one table has
them, none of them left: each satisfied, the table naming the object it answers by
the name it gives it, and what its effect created by those it gives that. -/
inductive StandsFor (made : Table String String) : KeyedStore → Nat →
    List (Request × LocalNames) → List Verdict → KeyedStore → Prop where
  | done (s : KeyedStore) (index : Nat) : StandsFor made s index [] [] s
  | next {s s₁ s₂ : KeyedStore} {index : Nat} {sent : Request} {n : LocalNames}
      {rest : List (Request × LocalNames)} {id : String} {version : Int} {events : List Int}
      {created : List String} {flags : List Flag} {replayed : Bool} {refusal : Refusal}
      {vs : List Verdict}
      (hplain : lidsIn written (resolved written sent n made) = .ok [])
      (hrequest : s.request r (hexOf sha written) now (attempts index) (resolved written sent n made)
        answers = (.verdict (.satisfied id version events created flags replayed) refusal, s₁))
      (hlid : ∀ lid, n.lid = some lid → Table.get? made lid = some id)
      (hcreates : ∀ creates, n.creates = some creates → ∃ pairs,
        bindCreated s₁.world creates id created = .ok pairs ∧
          ∀ q ∈ pairs, Table.get? made q.1 = some q.2)
      (hrest : StandsFor made s₁ (index + 1) rest vs s₂) :
      StandsFor made s index ((sent, n) :: rest)
        (.satisfied id version events created flags replayed :: vs) s₂

/-- Requests whose names are in order, taken in turn, run as one substitution has
them. -/
theorem InTurn.standsFor {s s' : KeyedStore} {made : Table String String} {index : Nat}
    {reqs : List (Request × LocalNames)} {vs : List Verdict} {given : List String}
    (h : InTurn r sha written now attempts answers s made index reqs vs s')
    (hread : ∀ p ∈ reqs, Readable written p)
    (horder : InOrder (namesUsed written) namesGiven given reqs) (hholds : made.Holds given) :
    ∃ final, made.Extends final ∧ final.Holds (given ++ reqs.flatMap namesGiven) ∧
      StandsFor r sha written now attempts answers final s index reqs vs s' := by
  induction h generalizing given with
  | done s made index => exact ⟨made, .refl made, by simpa using hholds, .done s index⟩
  | next hrequest hnames hrest ih =>
      obtain ⟨huses, hfresh, honce, horder⟩ := horder
      obtain ⟨hfirst, hread⟩ := List.forall_mem_cons.mp hread
      obtain ⟨hextends, hheld, hlid, hcreates⟩ := bound_spec (p := (_, _)) hnames hholds hfresh honce
      obtain ⟨final, hfinal, hall, hstands⟩ := ih hread horder hheld
      have hused := fun lid hmem => (hholds lid).mpr (huses lid hmem)
      have hsame := resolved_extends written hfirst hused (hextends.trans hfinal)
      refine ⟨final, hextends.trans hfinal, ?_, .next ?_ (hsame ▸ hrequest) ?_ ?_ hstands⟩
      · rw [List.flatMap_cons, ← List.append_assoc]
        exact hall
      · refine resolved_plain written hfirst fun lid hmem => ?_
        obtain ⟨id, hid⟩ := Option.isSome_iff_exists.mp (hused lid hmem)
        exact Option.isSome_iff_exists.mpr ⟨id, hfinal lid id (hextends lid id hid)⟩
      · exact fun lid h => hfinal lid _ (hlid lid h)
      · intro creates h
        obtain ⟨pairs, hpairs, hreads⟩ := hcreates creates h
        exact ⟨pairs, hpairs, fun q hq => hfinal q.1 q.2 (hreads q hq)⟩

/-- **Local names stand for what is made.**  For a batch applied there is one table of
exactly the names it gives, such that every request ran with each name it uses
written as the table has it, none left, and the table has each name for what the
request that gives it made. -/
theorem names_stand (s : KeyedStore) (reqs : List Request) (names : List LocalNames)
    (key : Option String) :
    (s.batchNamed r sha written now attempts answers reqs names key).1.isApplied = false ∨
      ∃ made vs s',
        (s.batchNamed r sha written now attempts answers reqs names key).1 = .applied vs ∧
        (∀ name, (Table.get? made name).isSome ↔
          name ∈ (withNames reqs names).flatMap namesGiven) ∧
        StandsFor r sha written now attempts answers made s 0 (withNames reqs names) vs s' ∧
        ∃ records, (s.batchNamed r sha written now attempts answers reqs names key).2 =
          { s' with records } := by
  have hstands : ∀ {vs s'}, namesFault written reqs names = none →
      InTurn r sha written now attempts answers s [] 0 (withNames reqs names) vs s' →
      ∃ made : Table String String, made.Holds ((withNames reqs names).flatMap namesGiven) ∧
        StandsFor r sha written now attempts answers made s 0 (withNames reqs names) vs s' := by
    intro vs s' hfault hturn
    obtain ⟨-, hread, -, horder⟩ := (namesFault_none written).mp hfault
    obtain ⟨final, -, hall, hstands⟩ := hturn.standsFor r sha written now attempts answers hread
      horder Table.holds_nil
    exact ⟨final, by simpa using hall, hstands⟩
  have hrun := s.runBatch_spec r sha written now attempts answers reqs names
  have hrun' : namesFault written reqs names = none → ∀ keyed,
      (s.runBatch r sha written now attempts answers reqs names keyed false).1.isApplied = false ∨
      ∃ made vs s',
        (s.runBatch r sha written now attempts answers reqs names keyed false).1 = .applied vs ∧
        (∀ name, (Table.get? made name).isSome ↔
          name ∈ (withNames reqs names).flatMap namesGiven) ∧
        StandsFor r sha written now attempts answers made s 0 (withNames reqs names) vs s' ∧
        ∃ records, (s.runBatch r sha written now attempts answers reqs names keyed false).2 =
          { s' with records } := by
    intro hfault keyed
    rcases hrun keyed with ⟨vs, s', happlied, hturn, hrecords⟩ | ⟨hnot, -⟩
    · obtain ⟨made, hholds, hstands⟩ := hstands hfault hturn
      exact .inr ⟨made, vs, s', happlied, hholds, hstands, hrecords⟩
    · exact .inl hnot
  unfold KeyedStore.batchNamed
  split
  · exact .inl rfl
  · split
    · exact .inl rfl
    · split
      · exact .inl rfl
      case h_2 hfault =>
        split
        · exact .inl rfl
        · split
          · exact hrun' hfault none
          · split
            · exact .inl rfl
            · split
              · exact hrun' hfault none
              · dsimp only
                split
                · exact hrun' hfault _
                · split
                  · exact .inl rfl
                  · exact .inl rfl

end Run

end ObjectFlow
