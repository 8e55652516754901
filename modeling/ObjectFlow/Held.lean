import ObjectFlow.Base.Run
import ObjectFlow.Slots
import ObjectFlow.World

/-!
# The objects an operation holds

Each object an operation reads or makes is held in a slot of its own, found by
its id, and a lookup by an attribute's value goes through a column of the slots
by that value, built when it is first used.  The column is kept, not rebuilt: a
lookup keys the slots held since it last looked and those changed since.
-/

namespace ObjectFlow

open Base

/-- An object with its place in creation order, and whether the rest of its
record was read. -/
structure HeldObject extends Object where
  order : Int
  partsRead : Bool := true

/-- How a column keys the objects it holds by an attribute: by its value, or by
its text with its ASCII letters in lower case. -/
inductive Keying where
  | value
  | folded
deriving DecidableEq

namespace Keying

/-- The keys a column holds a value by, none where no index holds it. -/
def keys : Keying → Value → List (Option String)
  | value, v => v.indexKey.toList
  | folded, .absent => [none]
  | folded, .text t => [some ("t:" ++ World.fold t)]
  | folded, _ => []

/-- A column's name beside the attribute's. -/
def named : Keying → String → String
  | value, attr => attr
  | folded, attr => "lower(" ++ attr ++ ")"

/-- The keys a column of a type's objects by an attribute holds an object by. -/
def keysOf (type attr : String) (keying : Keying) (o : HeldObject) : List (Option String) :=
  if o.type = type then keying.keys (o.attr attr) else []

end Keying

/-- A world's slots. -/
structure Held where
  slots : List HeldObject := []
  /-- Each id asked for, and its slot; none where the store holds no such
  object. -/
  byId : Table String (Option Nat) := []
  /-- The types whose every object in the store is held. -/
  whole : List String := []
  /-- The objects the operation changed or made, by id. -/
  written : List String := []
  /-- Each changed object's attributes as they were before its first change. -/
  lastWritten : Table String (Table String Value) := []
  /-- The held objects by a column's value, each column by its type and name. -/
  index : Table (String × String) (Column (Option String)) := []
  /-- Each slot changed or replaced, in order. -/
  changed : List Nat := []

namespace Held

variable (h : Held)

/-- An object held in a new slot, which is not yet known by its id. -/
def hold (o : HeldObject) : Except String Nat × Held :=
  if h.slots.length < SLOTS then (.ok h.slots.length, { h with slots := h.slots ++ [o] })
  else (.error "more objects than an operation can hold", h)

/-- The slot of the object an id names, read from the store where the id was not
asked for before. -/
def get (id : String) (read : Except String (Option HeldObject)) :
    Except String (Option Nat) × Held :=
  match Table.get? h.byId id with
  | some slot => (.ok slot, h)
  | none =>
      match read with
      | .error e => (.error ("the store's object " ++ id ++ ", which could not be read: " ++ e), h)
      | .ok none => (.ok none, { h with byId := Table.put h.byId id none })
      | .ok (some o) =>
          match h.hold o with
          | (.error e, h) => (.error e, h)
          | (.ok n, h) => (.ok (some n), { h with byId := Table.put h.byId id (some n) })

/-- Objects read from the store, held, each held already kept as it is. -/
def holdFetched (h : Held) : List HeldObject → Except String Unit × Held
  | [] => (.ok (), h)
  | o :: rest =>
      match Table.get? h.byId o.id with
      | some (some _) => holdFetched h rest
      | _ =>
          match h.hold o with
          | (.error e, h) => (.error e, h)
          | (.ok n, h) => holdFetched { h with byId := Table.put h.byId o.id (some n) } rest

/-- Every object of a concrete type the store holds, fetched in one read and
held. -/
def holdType (type : String) (read : Except String (List HeldObject)) :
    Except String Unit × Held :=
  if h.whole.contains type then (.ok (), h)
  else
    match read with
    | .error e =>
        (.error ("the store's objects of " ++ type ++ ", which could not be read: " ++ e), h)
    | .ok fetched =>
        match h.holdFetched fetched with
        | (.error e, h) => (.error e, h)
        | (.ok (), h) => (.ok (), { h with whole := type :: h.whole })

/-- An object changed, fetched first where it is not held, with the rest of its
record. -/
def change (id : String) (read : Except String (Option HeldObject)) (parts : Except String Unit)
    (f : HeldObject → HeldObject) : Except String Unit × Held :=
  match h.get id read with
  | (.error e, h) => (.error e, h)
  | (.ok none, h) => (.ok (), h)
  | (.ok (some n), h) =>
      match parts with
      | .error e =>
          (.error ("the record of " ++ id ++ ", which could not be read: " ++ e), h)
      | .ok () =>
          (.ok (), { h with
            lastWritten :=
              if (Table.get? h.lastWritten id).isSome then h.lastWritten
              else (h.slots[n]?.map fun o => Table.put h.lastWritten id o.attrs).getD h.lastWritten
            written := if h.written.contains id then h.written else id :: h.written
            changed := h.changed ++ [n]
            slots := h.slots.modify n f })

/-- An object the operation makes or replaces, held from now on as it is given:
refused where the rest of its record was not read. -/
def insert (o : HeldObject) : Except String Unit × Held :=
  if !o.partsRead then (.error ("the record of " ++ o.id ++ ", which was not read"), h)
  else
    let held := (Table.get? h.byId o.id).join
    let was := ((held.bind (h.slots[·]?)).map fun o => o.attrs).getD []
    let h := { h with
      written := if h.written.contains o.id then h.written else o.id :: h.written
      lastWritten :=
        if (Table.get? h.lastWritten o.id).isSome then h.lastWritten
        else Table.put h.lastWritten o.id was
      changed := h.changed ++ held.toList }
    match held.filter (· < h.slots.length) with
    | some n => (.ok (), { h with slots := h.slots.modify n fun _ => o })
    | none =>
        match h.hold o with
        | (.error e, h) => (.error e, h)
        | (.ok n, h) => (.ok (), { h with byId := Table.put h.byId o.id (some n) })

/-- Objects in creation order. -/
def ordered (objects : List HeldObject) : List HeldObject :=
  objects.mergeSort fun a b => a.order ≤ b.order

/-- The objects held that a condition selects, in creation order. -/
def heldInOrder (p : HeldObject → Bool) : List HeldObject := ordered (h.slots.filter p)

/-- The objects held of a type, its own or a subtype's, in creation order. -/
def ofType (lib : Library) (type : String) : List HeldObject :=
  h.heldInOrder fun o => lib.isA o.type type

/-- The slots a type's column of an attribute holds under any of the keys wanted,
beside those found before it, and the column, caught up with the slots. -/
def lookIn (attr : String) (keying : Keying) (wanted : List (Option String))
    (out : Finset ℕ × Table (String × String) (Column (Option String))) (type : String) :
    Finset ℕ × Table (String × String) (Column (Option String)) :=
  let name := (type, keying.named attr)
  let column := ((Table.get? out.2 name).getD {}).caughtUp (Keying.keysOf type attr keying)
    h.slots h.changed
  (wanted.foldl (fun found k => found ∪ column.under k) out.1, Table.put out.2 name column)

/-- The held objects of the types given whose attribute holds the value given, or
where asked none, by the index, in creation order; none where the value is one
the index holds no key for. -/
def heldWhere (family : List String) (attr : String) (v : Value) (absentToo : Bool)
    (keying : Keying) : Option (List HeldObject) × Held :=
  match keying.keys v with
  | some key :: _ =>
      let wanted := some key :: if absentToo then [none] else []
      let (found, index) := family.foldl (h.lookIn attr keying wanted) (∅, h.index)
      (some (ordered ((found.sort (· ≤ ·)).filterMap (h.slots[·]?))), { h with index })
  | _ => (none, h)

/-! ### What a lookup answers -/

/-- A name that no column's name beside another could be. -/
def Plain (attr : String) : Prop := '(' ∉ attr.toList

/-- Every column is read up to some of the slots and of the changes. -/
def Kept (slots : List HeldObject) (changed : List Nat)
    (index : Table (String × String) (Column (Option String))) : Prop :=
  ∀ type attr keying column, Plain attr →
    Table.get? index (type, Keying.named keying attr) = some column →
      column.Behind (Keying.keysOf type attr keying) slots changed

/-- Whether a lookup's keys select an object. -/
def selects (family : List String) (attr : String) (keying : Keying) (wanted : List (Option String))
    (o : HeldObject) : Bool :=
  family.contains o.type && wanted.any (keying.keys (o.attr attr)).contains

theorem named_inj {keying keying' : Keying} {attr attr' : String} (hattr : Plain attr)
    (hattr' : Plain attr') (h : keying.named attr = keying'.named attr') :
    keying = keying' ∧ attr = attr' := by
  have hlower : ∀ a : String, '(' ∈ ("lower(" ++ a ++ ")").toList := by
    intro a
    simp [String.toList_append]
  cases keying <;> cases keying'
  case value.value => exact ⟨rfl, h⟩
  case value.folded =>
    have hname : attr = "lower(" ++ attr' ++ ")" := h
    exact absurd (hname ▸ hlower attr') hattr
  case folded.value =>
    have hname : "lower(" ++ attr ++ ")" = attr' := h
    exact absurd (hname ▸ hlower attr) hattr'
  case folded.folded =>
    refine ⟨rfl, ?_⟩
    have hlists := congrArg String.toList h
    simp only [Keying.named, String.toList_append] at hlists
    exact String.toList_inj.mp (List.append_cancel_left (List.append_cancel_right hlists))

theorem mem_foldl_under (column : Column (Option String)) (wanted : List (Option String))
    (found : Finset ℕ) (n : ℕ) :
    n ∈ wanted.foldl (fun found k => found ∪ column.under k) found ↔
      n ∈ found ∨ ∃ k ∈ wanted, n ∈ column.under k := by
  induction wanted generalizing found with
  | nil => simp
  | cons k rest ih =>
      rw [List.foldl_cons, ih, Finset.mem_union, List.exists_mem_cons_iff, or_assoc]

variable {h : Held} {attr : String} (keying : Keying) (wanted : List (Option String))

/-- **Looking in one column** finds the slots of the type's objects that hold one
of the keys wanted, and leaves every column kept. -/
theorem lookIn_spec (out : Finset ℕ × Table (String × String) (Column (Option String)))
    (type : String) (hattr : Plain attr) (hkept : Kept h.slots h.changed out.2) :
    Kept h.slots h.changed (h.lookIn attr keying wanted out type).2 ∧
      ∀ n, n ∈ (h.lookIn attr keying wanted out type).1 ↔
        n ∈ out.1 ∨ ∃ o, h.slots[n]? = some o ∧ selects [type] attr keying wanted o = true := by
  have hbehind : ((Table.get? out.2 (type, keying.named attr)).getD {}).Behind
      (Keying.keysOf type attr keying) h.slots h.changed := by
    cases hcolumn : Table.get? out.2 (type, keying.named attr) with
    | none => exact Column.behind_empty
    | some column => exact hkept type attr keying column hattr hcolumn
  constructor
  · intro type' attr' keying' column' hattr' hcolumn
    rw [lookIn, Table.get?_put] at hcolumn
    split at hcolumn
    case isTrue hname =>
      obtain ⟨rfl, hnamed⟩ := Prod.mk.inj hname
      obtain ⟨rfl, rfl⟩ := named_inj hattr hattr' hnamed
      cases hcolumn
      exact hbehind.of_caughtUp
    case isFalse => exact hkept type' attr' keying' column' hattr' hcolumn
  · intro n
    have hunder := fun k => hbehind.caughtUp.mem_under (k := k) (n := n)
    rw [lookIn, mem_foldl_under]
    refine or_congr Iff.rfl ?_
    simp only [hunder, selects, Keying.keysOf]
    constructor
    · intro hthere
      obtain ⟨k, hk, o, ho, hheld⟩ := hthere
      refine ⟨o, ho, ?_⟩
      by_cases htype : o.type = type <;> simp_all
      exact ⟨k, hk, hheld⟩
    · intro hthere
      obtain ⟨o, ho, hselected⟩ := hthere
      simp only [List.contains_cons, List.contains_nil, Bool.or_false, Bool.and_eq_true,
        beq_iff_eq, List.any_eq_true, List.contains_iff_mem] at hselected
      obtain ⟨htype, k, hk, hheld⟩ := hselected
      exact ⟨k, hk, o, ho, by rwa [if_pos htype]⟩

/-- Looking in the columns of a family, one after another. -/
theorem lookIn_family (out : Finset ℕ × Table (String × String) (Column (Option String)))
    (family : List String) (hattr : Plain attr) (hkept : Kept h.slots h.changed out.2) :
    Kept h.slots h.changed (family.foldl (h.lookIn attr keying wanted) out).2 ∧
      ∀ n, n ∈ (family.foldl (h.lookIn attr keying wanted) out).1 ↔
        n ∈ out.1 ∨ ∃ o, h.slots[n]? = some o ∧ selects family attr keying wanted o = true := by
  induction family generalizing out with
  | nil => exact ⟨hkept, fun n => by simp [selects]⟩
  | cons type rest ih =>
      obtain ⟨hnext, hfound⟩ := lookIn_spec keying wanted out type hattr hkept
      obtain ⟨hlast, hfamily⟩ := ih _ hnext
      refine ⟨hlast, fun n => ?_⟩
      rw [List.foldl_cons, hfamily, hfound, or_assoc]
      refine or_congr Iff.rfl ?_
      rw [← exists_or]
      refine exists_congr fun o => ?_
      simp only [selects, List.contains_cons, List.contains_nil, Bool.or_false]
      grind

/-- What a lookup answers: the objects of the family whose keys it wants, in
creation order. -/
theorem heldWhere_answer (hkept : Kept h.slots h.changed h.index) (hattr : Plain attr)
    (family : List String) (v : Value) (absentToo : Bool) (keying : Keying) :
    (h.heldWhere family attr v absentToo keying).1 =
      (keying.keys v).head?.join.map fun key => h.heldInOrder (selects family attr keying
        (some key :: if absentToo then [none] else [])) := by
  unfold heldWhere
  split
  case h_1 key rest hkeys =>
    obtain ⟨-, hfound⟩ := lookIn_family keying (some key :: if absentToo then [none] else [])
      (∅, h.index) family hattr hkept
    rw [hkeys]
    refine congrArg (some ∘ ordered) (filterMap_sort fun n => ?_)
    rw [hfound]
    simp
  case h_2 hkeys =>
    cases hlist : keying.keys v with
    | nil => rfl
    | cons key rest =>
        cases key with
        | none => rfl
        | some key => exact absurd hlist (hkeys key rest)

/-! ### What each operation keeps -/

/-- The columns of a world are kept as the world's slots and changes are. -/
def Indexed (h : Held) : Prop := Kept h.slots h.changed h.index

theorem indexed_empty : Indexed {} := by
  intro type attr keying column _ hcolumn
  cases hcolumn

/-- What is left of an operation that keeps the columns has them kept. -/
theorem Indexed.of_out {α : Type} {out : α × Held} {a : α} {h' : Held} (hkept : out.2.Indexed)
    (hout : out = (a, h')) : h'.Indexed := by
  rw [hout] at hkept
  exact hkept

theorem Indexed.hold (hkept : h.Indexed) (o : HeldObject) : (h.hold o).2.Indexed := by
  unfold Held.hold
  split
  · intro type attr keying column hattr hcolumn
    exact (hkept type attr keying column hattr hcolumn).push o
  · exact hkept

theorem Indexed.get (hkept : h.Indexed) (id : String) (read : Except String (Option HeldObject)) :
    (h.get id read).2.Indexed := by
  unfold Held.get
  split
  · exact hkept
  · split
    · exact hkept
    · exact hkept
    case h_3 o =>
      have hheld := hkept.hold o
      split
      case h_1 hhold => exact hheld.of_out hhold
      case h_2 n h' hhold =>
        have hnext : h'.Indexed := hheld.of_out hhold
        exact hnext

theorem Indexed.holdFetched (hkept : h.Indexed) (fetched : List HeldObject) :
    (h.holdFetched fetched).2.Indexed := by
  induction fetched generalizing h with
  | nil => exact hkept
  | cons o rest ih =>
      unfold Held.holdFetched
      split
      · exact ih hkept
      · have hheld := hkept.hold o
        split
        case h_1 hhold => exact hheld.of_out hhold
        case h_2 n h' hhold =>
          have hnext : h'.Indexed := hheld.of_out hhold
          exact ih hnext

theorem Indexed.holdType (hkept : h.Indexed) (type : String)
    (read : Except String (List HeldObject)) : (h.holdType type read).2.Indexed := by
  unfold Held.holdType
  split
  · exact hkept
  · split
    · exact hkept
    case h_2 fetched =>
      have hheld := hkept.holdFetched fetched
      split
      case h_1 hfetched => exact hheld.of_out hfetched
      case h_2 h' hfetched =>
        have hnext : h'.Indexed := hheld.of_out hfetched
        exact hnext

/-- A slot changed and noted keeps every column. -/
theorem Indexed.modify (hkept : h.Indexed) (n : Nat) (f : HeldObject → HeldObject) :
    Kept (h.slots.modify n f) (h.changed ++ [n]) h.index := by
  intro type attr keying column hattr hcolumn
  exact (hkept type attr keying column hattr hcolumn).change n f

theorem Indexed.change (hkept : h.Indexed) (id : String) (read : Except String (Option HeldObject))
    (parts : Except String Unit) (f : HeldObject → HeldObject) :
    (h.change id read parts f).2.Indexed := by
  have hread := hkept.get id read
  unfold Held.change
  split
  case h_1 hget => exact hread.of_out hget
  case h_2 hget => exact hread.of_out hget
  case h_3 n h' hget =>
    have hnext : h'.Indexed := hread.of_out hget
    split
    · exact hnext
    · exact hnext.modify n f

/-- A slot noted that was not changed keeps every column. -/
theorem Indexed.noted (hkept : h.Indexed) (written : List String)
    (lastWritten : Table String (Table String Value)) (ns : List Nat) :
    Indexed { h with written, lastWritten, changed := h.changed ++ ns } := by
  intro type attr keying column hattr hcolumn
  exact (hkept type attr keying column hattr hcolumn).noted ns

theorem Indexed.insert (hkept : h.Indexed) (o : HeldObject) : (h.insert o).2.Indexed := by
  unfold Held.insert
  split
  · exact hkept
  · dsimp only
    split
    case h_1 n hslot =>
      have hid : (Table.get? h.byId o.id).join = some n := (Option.filter_eq_some_iff.mp hslot).1
      rw [hid]
      exact hkept.modify n fun _ => o
    · have hheld := fun written lastWritten =>
        (hkept.noted written lastWritten (Table.get? h.byId o.id).join.toList).hold o
      split
      case h_1 hhold => exact (hheld _ _).of_out hhold
      case h_2 n h' hhold =>
        have hnext : h'.Indexed := (hheld _ _).of_out hhold
        exact hnext

theorem Indexed.heldWhere (hkept : h.Indexed) (hattr : Plain attr) (family : List String) (v : Value)
    (absentToo : Bool) (keying : Keying) :
    (h.heldWhere family attr v absentToo keying).2.Indexed := by
  unfold Held.heldWhere
  split
  case h_1 key _ _ =>
    exact (lookIn_family keying _ (∅, h.index) family hattr hkept).1
  case h_2 => exact hkept

/-- A world of objects whose columns are still to be built. -/
def afresh (objects : List HeldObject) : Held := { slots := objects }

theorem Indexed.afresh (objects : List HeldObject) : (Held.afresh objects).Indexed := by
  intro type attr keying column _ hcolumn
  cases hcolumn

/-- Each object's place in creation order is its own. -/
def Placed (objects : List HeldObject) : Prop := (objects.map (·.order)).Nodup

theorem ordered_ascending {objects : List HeldObject} (hplaced : Placed objects) :
    Ascending (fun o : HeldObject => o.order) (ordered objects) := by
  have hle : (ordered objects).Pairwise fun a b => decide (a.order ≤ b.order) = true := by
    refine List.pairwise_mergeSort (fun a b c hab hbc => ?_) (fun a b => ?_) objects
    · simp only [decide_eq_true_eq] at hab hbc ⊢
      omega
    · simp only [Bool.or_eq_true, decide_eq_true_eq]
      omega
  have hne : (ordered objects).Pairwise fun a b => a.order ≠ b.order :=
    (List.mergeSort_perm objects _).symm.pairwise (List.pairwise_map.mp hplaced) fun hab => hab.symm
  exact (hle.and hne).imp fun hab => lt_of_le_of_ne (of_decide_eq_true hab.1) hab.2

/-- The same objects held in other slots stand in one order. -/
theorem heldInOrder_perm {h h' : Held} (hperm : h'.slots.Perm h.slots) (hplaced : Placed h'.slots)
    (p : HeldObject → Bool) : h'.heldInOrder p = h.heldInOrder p := by
  have hplaced' : Placed h.slots := (hperm.map _).nodup_iff.mp hplaced
  have hfilter : ∀ {objects : List HeldObject}, Placed objects → Placed (objects.filter p) :=
    fun hobjects => hobjects.sublist (List.filter_sublist.map _)
  refine (ordered_ascending (hfilter hplaced')).ext (ordered_ascending (hfilter hplaced)) fun o => ?_
  simp only [heldInOrder, ordered, List.mem_mergeSort, List.mem_filter, hperm.mem_iff]

end Held

/-! ### A run -/

/-- What an operation does with the objects it holds. -/
inductive HeldStep where
  | get (id : String) (read : Except String (Option HeldObject))
  | holdType (type : String) (read : Except String (List HeldObject))
  | change (id : String) (read : Except String (Option HeldObject)) (parts : Except String Unit)
      (f : HeldObject → HeldObject)
  | insert (o : HeldObject)
  | lookup (family : List String) (attr : String) (v : Value) (absentToo : Bool) (keying : Keying)

/-- An operation's lookups are by the names of attributes. -/
def HeldStep.byAttribute : Held → HeldStep → Prop
  | _, lookup _ attr _ _ _ => Held.Plain attr
  | _, _ => True

/-- The objects an operation holds, and what its lookups answer. -/
def holding : Machine Held HeldStep (Option (List HeldObject)) where
  step h
    | .get id read => some ((h.get id read).2, [])
    | .holdType type read => some ((h.holdType type read).2, [])
    | .change id read parts f => some ((h.change id read parts f).2, [])
    | .insert o => some ((h.insert o).2, [])
    | .lookup family attr v absentToo keying =>
        some ((h.heldWhere family attr v absentToo keying).2,
          [(h.heldWhere family attr v absentToo keying).1])

namespace Held

/-- **Every step keeps the columns.** -/
theorem Indexed.step {h h' : Held} {step : HeldStep} {answers : List (Option (List HeldObject))}
    (hkept : h.Indexed) (hplain : step.byAttribute h) (hstep : holding.step h step = some (h', answers)) :
    h'.Indexed := by
  cases step with
  | get id read =>
      cases hstep
      exact hkept.get id read
  | holdType type read =>
      cases hstep
      exact hkept.holdType type read
  | change id read parts f =>
      cases hstep
      exact hkept.change id read parts f
  | insert o =>
      cases hstep
      exact hkept.insert o
  | lookup family attr v absentToo keying =>
      cases hstep
      exact hkept.heldWhere hplain family v absentToo keying

/-- The columns of every world reached are kept. -/
theorem Indexed.reached {h : Held} {answers : List (Option (List HeldObject))}
    (hrun : holding.Path HeldStep.byAttribute {} answers h) : h.Indexed :=
  hrun.invariant (fun h _ => h.Indexed) indexed_empty fun _ _ _ _ _ hkept hplain hstep =>
    hkept.step hplain hstep

/-- **An index kept is an index built afresh**: after any reads, changes,
retypings, inserts and lookups, each lookup by an attribute's value and each of
a type's objects answers what it would with every column still to be built,
and with the objects held in any other slots. -/
theorem index_rebuilt {h : Held} {answers : List (Option (List HeldObject))} {attr : String}
    (hrun : holding.Path HeldStep.byAttribute {} answers h) (hattr : Plain attr) :
    (∀ family v absentToo keying,
        (h.heldWhere family attr v absentToo keying).1 =
          ((afresh h.slots).heldWhere family attr v absentToo keying).1) ∧
      (∀ lib type, h.ofType lib type = (afresh h.slots).ofType lib type) ∧
        ∀ objects : List HeldObject, objects.Perm h.slots → Placed objects →
          (∀ family v absentToo keying,
            (h.heldWhere family attr v absentToo keying).1 =
              ((afresh objects).heldWhere family attr v absentToo keying).1) ∧
            ∀ lib type, h.ofType lib type = (afresh objects).ofType lib type := by
  have hkept := Indexed.reached hrun
  refine ⟨fun family v absentToo keying => ?_, fun lib type => rfl, fun objects hperm hplaced => ?_⟩
  · rw [heldWhere_answer hkept hattr, heldWhere_answer (Indexed.afresh _) hattr]
    rfl
  · have hsame : ∀ p, (afresh objects).heldInOrder p = h.heldInOrder p :=
      heldInOrder_perm hperm hplaced
    refine ⟨fun family v absentToo keying => ?_, fun lib type => (hsame _).symm⟩
    rw [heldWhere_answer hkept hattr, heldWhere_answer (Indexed.afresh _) hattr]
    simp only [hsame]

end Held

/-- An item, named, and found by its name before it was given another. -/
def renamedItem : Held :=
  let item : HeldObject :=
    { id := "item-1", type := "Item", state := "OPEN", attrs := [("name", .text "old")], order := 1 }
  let made := (({} : Held).insert item).2
  let found := (made.heldWhere ["Item"] "name" (.text "old") false .value).2
  (found.change "item-1" (.ok none) (.ok ()) fun o => { o with attrs := [("name", .text "new")] }).2

theorem renamed_item_found :
    (renamedItem.heldWhere ["Item"] "name" (.text "new") true .value).1 =
      ((Held.afresh renamedItem.slots).heldWhere ["Item"] "name" (.text "new") true .value).1 :=
  have hname : Held.Plain "name" := by unfold Held.Plain; decide
  (Held.index_rebuilt (h := renamedItem)
    (.snoc (a := .change _ _ _ _) (.snoc (a := .lookup _ _ _ _ _)
      (.snoc (a := .insert _) .nil trivial rfl) hname rfl) trivial rfl)
    hname).1 ["Item"] (.text "new") true .value

section

variable {w : World} {h : Held} {attr : String}

theorem Held.ordered_filter {objects : List HeldObject} (hplaced : Held.Placed objects)
    (p : HeldObject → Bool) : Held.ordered (objects.filter p) = (Held.ordered objects).filter p := by
  have hfiltered : Held.Placed (objects.filter p) :=
    hplaced.sublist (List.filter_sublist.map _)
  have hkept : Ascending (fun o : HeldObject => o.order) ((Held.ordered objects).filter p) :=
    (Held.ordered_ascending hplaced).filter p
  refine hkept.ext (Held.ordered_ascending hfiltered) fun o => ?_
  simp only [Held.ordered, List.mem_mergeSort, List.mem_filter]

/-- **A world's lookup is the one its columns answer**, where the world is of
the objects held. -/
theorem World.heldWhere_held (hkept : h.Indexed) (hattr : Held.Plain attr)
    (hplaced : Held.Placed h.slots)
    (hworld : w.inOrder = (Held.ordered h.slots).map HeldObject.toObject) (type : String) (v : Value)
    (absentToo : Bool) :
    w.heldWhere type attr v absentToo =
      (h.heldWhere (w.family type) attr v absentToo .value).1.map (·.map HeldObject.toObject) := by
  rw [Held.heldWhere_answer hkept hattr, World.heldWhere, Keying.keys]
  cases hkey : v.indexKey with
  | none => rfl
  | some held =>
      cases held with
      | none => rfl
      | some key =>
          simp only [Option.toList_some, List.head?_cons, Option.join_some, Option.map_some,
            Option.some.injEq]
          rw [hworld, List.filter_map, Held.heldInOrder, Held.ordered_filter hplaced]
          refine congrArg _ (List.filter_congr fun o _ => ?_)
          simp only [Function.comp_apply, Held.selects, Keying.keys]
          refine congrArg _ ?_
          cases hheld : (o.attr attr).indexKey with
          | none => cases absentToo <;> simp
          | some held =>
              cases held with
              | none => cases absentToo <;> simp
              | some k => cases absentToo <;> simp [eq_comm]

end

end ObjectFlow
