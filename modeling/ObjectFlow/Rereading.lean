import Mathlib.Data.String.Basic
import ObjectFlow.Base.Ordered
import ObjectFlow.Crossing

/-!
# The wire's round trip

A value is reread as itself exactly where it crosses, and everything read from
the wire crosses, so it is reread.
-/

namespace ObjectFlow

open Base

section Structures

variable {lib : Library}

/-! ### Fields -/

/-- The value a field was given, absent where none was read. -/
def valueGiven (given : Table String (Except InputReason Value)) (f : String) : Value :=
  match Table.get? given f with
  | some (.ok v) => v
  | _ => .absent

/-- Whether a field is read as what it was given, and is not a required one left
out. -/
def FieldRead (given : Table String (Except InputReason Value)) (f : String × Attribute) : Prop :=
  (Table.get? given f.1).getD (.ok .absent) = .ok (valueGiven given f.1) ∧
    (f.2.optional = true ∨ (valueGiven given f.1).isAbsent = false)

/-- A value of the fields given. -/
def builtOf (given : Table String (Except InputReason Value)) (fields : List (String × Attribute)) :
    Table String Value :=
  fields.foldl (fun t f => Table.set t f.1 (valueGiven given f.1)) []

theorem fieldsOf_eq {given : Table String (Except InputReason Value)}
    {fields : List (String × Attribute)} {out built : Table String Value} :
    fieldsOf given fields out = .ok built ↔ (∀ f ∈ fields, FieldRead given f) ∧
      built = fields.foldl (fun t f => Table.set t f.1 (valueGiven given f.1)) out := by
  induction fields generalizing out with
  | nil => simp [fieldsOf, eq_comm]
  | cons entry rest ih =>
    obtain ⟨f, a⟩ := entry
    rw [fieldsOf, List.forall_mem_cons, List.foldl_cons]
    unfold FieldRead
    cases hgiven : (Table.get? given f).getD (.ok .absent) with
    | error why =>
      simp
    | ok held =>
      have hvalue : valueGiven given f = held := by
        unfold valueGiven
        cases hget : Table.get? given f with
        | none =>
          rw [hget] at hgiven
          exact Except.ok.inj hgiven
        | some read =>
          rw [hget, Option.getD_some] at hgiven
          rw [hgiven]
      dsimp only
      rw [hvalue, ← hvalue]
      by_cases hstop : (held.isAbsent && !a.optional) = true
      · rw [hvalue, if_pos hstop]
        rw [Bool.and_eq_true, Bool.not_eq_true'] at hstop
        simp [hstop.1, hstop.2]
      · rw [hvalue, if_neg hstop, ih]
        have hkept : a.optional = true ∨ held.isAbsent = false := by
          rw [Bool.and_eq_true, Bool.not_eq_true', not_and_or, Bool.not_eq_true,
            Bool.not_eq_false] at hstop
          exact hstop.symm
        unfold FieldRead
        simp [hkept]

theorem get?_decodeFields (given : List (String × Json)) (fields : List (String × Attribute))
    (k : String) : Table.get? (decodeFields lib given fields) k =
      (named? fields k).bind fun a =>
        (Table.get? given k).map fun j => j.decode lib a.declared a.many := by
  induction given with
  | nil =>
    rw [decodeFields]
    cases named? fields k <;> rfl
  | cons entry rest ih =>
    obtain ⟨name, j⟩ := entry
    rw [decodeFields]
    cases hname : named? fields name with
    | none =>
      dsimp only
      rw [ih, Table.get?_cons]
      by_cases hk : name = k
      · subst hk
        rw [hname]
        rfl
      · rw [if_neg hk]
    | some a =>
      dsimp only
      rw [Table.get?_cons, Table.get?_cons]
      by_cases hk : name = k
      · subst hk
        rw [if_pos rfl, if_pos rfl, hname]
        rfl
      · rw [if_neg hk, if_neg hk, ih]

theorem get?_encodeFields (fields : List (String × Value)) (k : String) :
    Table.get? (encodeFields fields) k = (Table.get? fields k).map Value.encode := by
  induction fields with
  | nil => rfl
  | cons entry rest ih =>
    obtain ⟨name, v⟩ := entry
    rw [encodeFields, Table.get?_cons, Table.get?_cons, ih]
    split <;> rfl

theorem keys_encodeFields (fields : List (String × Value)) :
    Table.keys (encodeFields fields) = Table.keys fields := by
  induction fields with
  | nil => rfl
  | cons entry rest ih =>
    obtain ⟨name, v⟩ := entry
    exact congrArg (name :: ·) ih

theorem ValueType.keys_eq (vt : ValueType) (value : String → Value) :
    Table.keys (vt.fields.foldl (fun t f => Table.set t f.1 (value f.1)) []) = vt.keys :=
  Table.keys_foldl_set Prod.fst _ _ vt.fields rfl

theorem ValueType.mem_keys (vt : ValueType) (k : String) :
    k ∈ vt.keys ↔ k ∈ vt.fields.map Prod.fst := by
  have h := Table.mem_keys_foldl_set (ν := Unit) Prod.fst (fun _ => ()) vt.fields [] k
  rw [ValueType.keys, h]
  simp [Table.keys]

theorem ValueType.keys_nodup (vt : ValueType) : vt.keys.Nodup :=
  (Table.ordered_foldl_set (ν := Unit) Prod.fst (fun _ => ()) vt.fields Table.ordered_nil).nodup

theorem get?_of_mem_keys {ν : Type} {t : Table String ν} {k : String} (h : k ∈ Table.keys t) :
    ∃ v, Table.get? t k = some v := by
  obtain ⟨entry, hentry, rfl⟩ := List.mem_map.mp h
  exact Option.isSome_iff_exists.mp (Table.get?_isSome_of_mem hentry)

/-- Fields of the same names and equal values are equal. -/
theorem sameFields_of_get? {fields fields' : List (String × Value)}
    (hkeys : Table.keys fields = Table.keys fields') (hnodup : (Table.keys fields').Nodup)
    (h : ∀ k v, Table.get? fields' k = some v → ∃ u, Table.get? fields k = some u ∧
      u.same v = true) : Value.sameFields fields fields' = true := by
  induction fields' generalizing fields with
  | nil =>
    cases fields with
    | nil => rfl
    | cons entry rest => cases hkeys
  | cons entry' rest' ih =>
    cases fields with
    | nil => cases hkeys
    | cons entry rest =>
      obtain ⟨k, u⟩ := entry
      obtain ⟨k', v⟩ := entry'
      obtain ⟨hk, hrest⟩ := List.cons.inj hkeys
      dsimp only at hk
      subst hk
      obtain ⟨hout, hnodup⟩ := List.nodup_cons.mp hnodup
      have hfirst := h k v (by rw [Table.get?_cons, if_pos rfl])
      rw [Table.get?_cons, if_pos rfl] at hfirst
      obtain ⟨_, hu, hsame⟩ := hfirst
      obtain rfl := Option.some.inj hu
      have hrests := ih hrest hnodup (by
        intro j w hj
        have hne : k ≠ j := by
          rintro rfl
          exact hout (List.mem_map.mpr ⟨_, Table.mem_of_get? hj, rfl⟩)
        have hnext := h j w (by rw [Table.get?_cons, if_neg hne, hj])
        rwa [Table.get?_cons, if_neg hne] at hnext)
      simp [Value.sameFields, hsame, hrests]

theorem fieldsCross_get? {fields : List (String × Value)} {declared : List (String × Attribute)}
    (h : fieldsCross lib fields declared = true) {k : String} {v : Value}
    (hk : Table.get? fields k = some v) : ∃ a, named? declared k = some a ∧
      v.crosses lib a.declared a.many = true := by
  induction fields with
  | nil => cases hk
  | cons entry rest ih =>
    obtain ⟨name, u⟩ := entry
    rw [fieldsCross, Bool.and_eq_true] at h
    rw [Table.get?_cons] at hk
    by_cases hname : name = k
    · rw [if_pos hname] at hk
      obtain rfl := Option.some.inj hk
      subst hname
      have hfirst := h.1
      cases ha : named? declared name with
      | none =>
        rw [ha] at hfirst
        cases hfirst
      | some a =>
        rw [ha] at hfirst
        exact ⟨a, rfl, hfirst⟩
    · rw [if_neg hname] at hk
      exact ih h.2 hk

theorem fieldsCross_of_get? {fields : List (String × Value)} {declared : List (String × Attribute)}
    (h : ∀ entry ∈ fields, ∃ a, named? declared entry.1 = some a ∧
      entry.2.crosses lib a.declared a.many = true) : fieldsCross lib fields declared = true := by
  induction fields with
  | nil => rfl
  | cons entry rest ih =>
    obtain ⟨⟨a, ha, hcross⟩, hrest⟩ := List.forall_mem_cons.mp h
    obtain ⟨name, u⟩ := entry
    rw [fieldsCross, Bool.and_eq_true]
    dsimp only at ha hcross
    rw [ha]
    exact ⟨hcross, ih hrest⟩

/-- Whether fields make a value of a value type. -/
structure RecordCrosses (lib : Library) (vt : ValueType) (fields : List (String × Value)) : Prop where
  keys : Table.keys fields = vt.keys
  cross : fieldsCross lib fields vt.fields = true
  required : ∀ f ∈ vt.fields, f.2.optional = true ∨
    ∃ v, Table.get? fields f.1 = some v ∧ v.isAbsent = false

/-- A value built of the fields read is one of its value type. -/
theorem recordCrosses_of_fieldsOf {vt : ValueType} {given : Table String (Except InputReason Value)}
    {built : Table String Value} (h : fieldsOf given vt.fields [] = .ok built)
    (hgiven : ∀ k u, Table.get? given k = some (.ok u) →
      ∃ a, named? vt.fields k = some a ∧ u.crosses lib a.declared a.many = true) :
    RecordCrosses lib vt built := by
  obtain ⟨hread, rfl⟩ := fieldsOf_eq.mp h
  have hget : ∀ k, k ∈ vt.fields.map Prod.fst → Table.get?
      (vt.fields.foldl (fun t f => Table.set t f.1 (valueGiven given f.1)) []) k =
      some (valueGiven given k) := fun k hk => Table.get?_foldl_set Prod.fst _ vt.fields (.inr hk)
  have hkeys := vt.keys_eq (valueGiven given)
  refine ⟨hkeys, ?_, ?_⟩
  · apply fieldsCross_of_get?
    intro entry hentry
    have hmem : entry.1 ∈ vt.keys := by
      rw [← hkeys]
      exact List.mem_map_of_mem hentry
    have hnodup : (Table.keys (vt.fields.foldl
        (fun t f => Table.set t f.1 (valueGiven given f.1)) [])).Nodup := by
      rw [hkeys]
      exact vt.keys_nodup
    have hvalue := Table.get?_of_mem hnodup hentry
    rw [hget _ ((vt.mem_keys _).mp hmem)] at hvalue
    have heq := Option.some.inj hvalue
    rw [← heq]
    cases hfield : Table.get? given entry.1 with
    | none =>
      obtain ⟨f, hf, hname⟩ := List.mem_map.mp ((vt.mem_keys _).mp hmem)
      obtain ⟨a, ha⟩ := get?_of_mem_keys (t := vt.fields) (List.mem_map_of_mem hf)
      refine ⟨a, hname ▸ ha, ?_⟩
      rw [valueGiven, hfield, Value.crosses]
    | some read =>
      obtain ⟨f, hf, hname⟩ := List.mem_map.mp ((vt.mem_keys _).mp hmem)
      have hok := (hread f hf).1
      rw [hname, hfield, Option.getD_some] at hok
      rw [hok] at hfield
      exact hgiven _ _ hfield
  · intro f hf
    rcases (hread f hf).2 with hoptional | hheld
    · exact .inl hoptional
    · exact .inr ⟨_, hget _ (List.mem_map_of_mem hf), hheld⟩

/-! ### Sets -/

theorem sameList_append {us vs us' vs' : List Value} (h : Value.sameList us vs = true)
    (h' : Value.sameList us' vs' = true) : Value.sameList (us ++ us') (vs ++ vs') = true := by
  induction us generalizing vs with
  | nil =>
    cases vs with
    | nil => exact h'
    | cons v rest => simp [Value.sameList] at h
  | cons u rest ih =>
    cases vs with
    | nil => simp [Value.sameList] at h
    | cons v rest' =>
      simp only [Value.sameList, Bool.and_eq_true, List.cons_append] at h ⊢
      exact ⟨h.1, ih h.2⟩

theorem same_congr {u v u' v' : Value} (hu : u.same v = true) (hu' : u'.same v' = true) :
    u.same u' = v.same v' := by
  rw [Bool.eq_iff_iff]
  constructor
  · intro h
    exact Value.same_trans (Value.same_symm hu) (Value.same_trans h hu')
  · intro h
    exact Value.same_trans hu (Value.same_trans h (Value.same_symm hu'))

theorem any_same_congr {us vs : List Value} {u v : Value} (h : Value.sameList us vs = true)
    (huv : u.same v = true) : (us.any fun w => w.same u) = vs.any fun w => w.same v := by
  induction us generalizing vs with
  | nil =>
    cases vs with
    | nil => rfl
    | cons w rest => simp [Value.sameList] at h
  | cons w rest ih =>
    cases vs with
    | nil => simp [Value.sameList] at h
    | cons w' rest' =>
      simp only [Value.sameList, Bool.and_eq_true] at h
      rw [List.any_cons, List.any_cons, same_congr h.1 huv, ih h.2]

theorem encode_isNull (v : Value) : v.encode.isNull = v.isAbsent := by
  cases v with
  | int n =>
    unfold Value.encode
    split <;> rfl
  | _ => rfl

theorem decode_scalar {j : Json} (h : j.isNull = false) (s : Scalar) :
    j.decode lib (.scalar s) false = decodeScalar lib s j := by
  cases j with
  | null => cases h
  | _ =>
    rw [Json.decode]
    simp

/-! ### What crosses at each kind of type -/

theorem crosses_scalar {v : Value} (h : v.isAbsent = false) (s : Scalar) :
    v.crosses lib (.scalar s) false = scalarCrosses lib s v := by
  cases v with
  | absent => cases h
  | _ =>
    rw [Value.crosses]
    simp

theorem crosses_many {v : Value} {declared : Declared} (h : v.isAbsent = false)
    (hcross : v.crosses lib declared true = true) :
    ∃ items, v = .set items ∧ itemsCross lib items declared [] = true := by
  cases v with
  | absent => cases h
  | set items =>
    rw [Value.crosses] at hcross
    exact ⟨items, rfl, hcross⟩
  | _ => simp [Value.crosses] at hcross

theorem crosses_reference {v : Value} {type : String} (h : v.isAbsent = false)
    (hcross : v.crosses lib (.reference type) false = true) : ∃ id, v = .object id := by
  cases v with
  | absent => cases h
  | object id => exact ⟨id, rfl⟩
  | _ => simp [Value.crosses] at hcross

theorem crosses_record {type name : String} {fields : List (String × Value)} :
    (Value.record type fields).crosses lib (.value name) false = true ↔
      type = name ∧ ∃ vt, Table.get? lib.values name = some vt ∧ RecordCrosses lib vt fields := by
  have hrequired : ∀ vt : ValueType, (vt.fields.all fun f =>
      f.2.optional || (Table.get? fields f.1).any fun v => !v.isAbsent) = true ↔
      ∀ f ∈ vt.fields, f.2.optional = true ∨
        ∃ v, Table.get? fields f.1 = some v ∧ v.isAbsent = false := by
    intro vt
    rw [List.all_eq_true]
    simp only [Bool.or_eq_true, Option.any_eq_true, Bool.not_eq_true']
  rw [Value.crosses]
  cases hvalues : Table.get? lib.values name with
  | none => simp
  | some vt =>
    simp only [Bool.and_eq_true, decide_eq_true_eq, hrequired, Option.some.injEq, exists_eq_left']
    constructor
    · rintro ⟨⟨⟨htype, hkeys⟩, hcross⟩, hall⟩
      exact ⟨htype, hkeys, hcross, hall⟩
    · rintro ⟨htype, hkeys, hcross, hall⟩
      exact ⟨⟨⟨htype, hkeys⟩, hcross⟩, hall⟩

theorem crosses_value {v : Value} {name : String} (h : v.isAbsent = false)
    (hcross : v.crosses lib (.value name) false = true) : ∃ fields vt, v = .record name fields ∧
      Table.get? lib.values name = some vt ∧ RecordCrosses lib vt fields := by
  cases v with
  | absent => cases h
  | record type fields =>
    obtain ⟨rfl, vt, hvt, hfields⟩ := crosses_record.mp hcross
    exact ⟨fields, vt, rfl, hvt, hfields⟩
  | _ => simp [Value.crosses] at hcross

/-- Fields that are each reread make the value they are of. -/
theorem reread_record {vt : ValueType} {fields : List (String × Value)}
    (h : RecordCrosses lib vt fields) (hread : ∀ k v, Table.get? fields k = some v →
      ∃ a, named? vt.fields k = some a ∧ Reread (v.encode.decode lib a.declared a.many) v) :
    ∃ built, fieldsOf (decodeFields lib (encodeFields fields) vt.fields) vt.fields [] = .ok built ∧
      Value.sameFields built fields = true := by
  generalize hgiven : decodeFields lib (encodeFields fields) vt.fields = given
  have hget : ∀ k v, Table.get? fields k = some v → ∃ u, Table.get? given k = some (.ok u) ∧
      valueGiven given k = u ∧ u.same v = true := by
    intro k v hk
    obtain ⟨a, ha, u, hu, hsame⟩ := hread k v hk
    have hfield : Table.get? given k = some (.ok u) := by
      rw [← hgiven, get?_decodeFields, get?_encodeFields, ha, hk, Option.bind_some,
        Option.map_some, Option.map_some, hu]
    exact ⟨u, hfield, by rw [valueGiven, hfield], hsame⟩
  refine ⟨vt.fields.foldl (fun t f => Table.set t f.1 (valueGiven given f.1)) [],
    fieldsOf_eq.mpr ⟨?_, rfl⟩, ?_⟩
  · intro f hf
    have hmem : f.1 ∈ Table.keys fields := by
      rw [h.keys, vt.mem_keys]
      exact List.mem_map_of_mem hf
    obtain ⟨v, hv⟩ := get?_of_mem_keys hmem
    obtain ⟨u, hu, hvalue, hsame⟩ := hget f.1 v hv
    refine ⟨by rw [hu, hvalue]; rfl, ?_⟩
    rcases h.required f hf with hoptional | ⟨v', hv', hheld⟩
    · exact .inl hoptional
    · right
      rw [hv] at hv'
      obtain rfl := Option.some.inj hv'
      rw [hvalue]
      cases u with
      | absent =>
        cases v with
        | absent => exact hheld
        | _ => simp [Value.same] at hsame
      | _ => rfl
  · apply sameFields_of_get?
    · rw [vt.keys_eq, h.keys]
    · rw [h.keys]
      exact vt.keys_nodup
    · intro k v hk
      obtain ⟨u, hu, hvalue, hsame⟩ := hget k v hk
      refine ⟨u, ?_, hsame⟩
      have hmem : k ∈ vt.fields.map Prod.fst := by
        rw [← vt.mem_keys, ← h.keys]
        exact List.mem_map.mpr ⟨_, Table.mem_of_get? hk, rfl⟩
      rw [Table.get?_foldl_set Prod.fst _ vt.fields (.inr hmem), hvalue]

/-! ### What crosses is reread -/

mutual

/-- **A value that crosses is reread as itself.** -/
theorem reread_of_crosses (v : Value) (declared : Declared) (many : Bool)
    (h : v.crosses lib declared many = true) : Reread (v.encode.decode lib declared many) v := by
  by_cases habsent : v.isAbsent = true
  · rw [Value.isAbsent_iff] at habsent
    subst habsent
    exact reread_self (by rw [Value.encode, Json.decode])
  rw [Bool.not_eq_true] at habsent
  have hnull := (encode_isNull v).trans habsent
  cases many with
  | true =>
    cases v with
    | set items =>
      rw [Value.crosses] at h
      obtain ⟨us, hread, hsame⟩ := reread_items items declared [] [] rfl h
      refine ⟨.set us, ?_, by rw [Value.same, hsame]⟩
      rw [Value.encode, Json.decode, hread]
      rfl
    | absent => cases habsent
    | _ => simp [Value.crosses] at h
  | false =>
    cases declared with
    | scalar s =>
      rw [crosses_scalar habsent] at h
      rw [decode_scalar hnull]
      exact decodeScalar_encode lib h
    | reference type =>
      obtain ⟨id, rfl⟩ := crosses_reference habsent h
      exact reread_self (by rw [Value.encode, Json.decode])
    | value name =>
      cases v with
      | absent => cases habsent
      | record type fields =>
        obtain ⟨rfl, vt, hvt, hfields⟩ := crosses_record.mp h
        have hread := reread_fields fields vt.fields hfields.cross
        obtain ⟨built, hbuilt, hsame⟩ := reread_record hfields hread
        refine ⟨.record type built, ?_, by simp [Value.same, hsame]⟩
        have hknown : ((Table.keys (encodeFields fields)).any fun k =>
            (named? vt.fields k).isNone) = false := by
          rw [keys_encodeFields, List.any_eq_false]
          intro k hk
          obtain ⟨v, hv⟩ := get?_of_mem_keys hk
          obtain ⟨a, ha, _⟩ := hread k v hv
          simp [ha]
        rw [Value.encode, Json.decode, hvt]
        dsimp only
        rw [hknown, if_neg Bool.false_ne_true, hbuilt]
        rfl
      | _ => simp [Value.crosses] at h

theorem reread_items (items : List Value) (declared : Declared) (earlier out : List Value)
    (hout : Value.sameList out earlier = true)
    (h : itemsCross lib items declared earlier = true) :
    ∃ us, decodeItems lib (encodeItems items) declared out = .ok (out ++ us) ∧
      Value.sameList us items = true := by
  cases items with
  | nil => exact ⟨[], by rw [encodeItems, decodeItems, List.append_nil], rfl⟩
  | cons v rest =>
    rw [itemsCross] at h
    simp only [Bool.and_eq_true, Bool.not_eq_true'] at h
    obtain ⟨⟨⟨habsent, hcross⟩, hnew⟩, hrest⟩ := h
    obtain ⟨u, hread, hsame⟩ := reread_of_crosses v declared false hcross
    have hone : Value.sameList [u] [v] = true := by simp [Value.sameList, hsame]
    obtain ⟨us, hreads, hsames⟩ :=
      reread_items rest declared (earlier ++ [v]) (out ++ [u]) (sameList_append hout hone) hrest
    refine ⟨u :: us, ?_, by simp [Value.sameList, hsame, hsames]⟩
    rw [encodeItems, decodeItems, encode_isNull, habsent, if_neg Bool.false_ne_true, hread]
    dsimp only
    rw [any_same_congr hout hsame, hnew, if_neg Bool.false_ne_true, hreads, List.append_assoc]
    rfl

theorem reread_fields (fields : List (String × Value)) (declared : List (String × Attribute))
    (h : fieldsCross lib fields declared = true) : ∀ k v, Table.get? fields k = some v →
      ∃ a, named? declared k = some a ∧ Reread (v.encode.decode lib a.declared a.many) v := by
  cases fields with
  | nil => exact fun k v hk => nomatch hk
  | cons entry rest =>
    obtain ⟨name, u⟩ := entry
    intro k v hk
    rw [fieldsCross, Bool.and_eq_true] at h
    rw [Table.get?_cons] at hk
    by_cases hname : name = k
    · rw [if_pos hname] at hk
      obtain rfl := Option.some.inj hk
      subst hname
      have hfirst := h.1
      cases ha : named? declared name with
      | none =>
        rw [ha] at hfirst
        cases hfirst
      | some a =>
        rw [ha] at hfirst
        exact ⟨a, rfl, reread_of_crosses u a.declared a.many hfirst⟩
    · rw [if_neg hname] at hk
      exact reread_fields rest declared h.2 k v hk

end

/-! ### What is read crosses -/

theorem map_eq_ok {ε α β : Type} {f : α → β} {e : Except ε α} {b : β} (h : e.map f = .ok b) :
    ∃ a, e = .ok a ∧ f a = b := by
  cases e with
  | error why => cases h
  | ok a => exact ⟨a, rfl, Except.ok.inj h⟩

/-- Nothing but null is read as absent. -/
theorem decode_ne_absent (hplain : lib.plainMembers = true) {j : Json} {declared : Declared}
    {u : Value} (hnull : j.isNull = false) (h : j.decode lib declared false = .ok u) :
    u.isAbsent = false := by
  cases declared with
  | scalar s =>
    rw [decode_scalar hnull] at h
    have hcross := decodeScalar_crosses hplain h
    cases u with
    | absent =>
      rw [scalarCrosses_absent] at hcross
      cases hcross
    | _ => rfl
  | reference type =>
    cases j with
    | null => cases hnull
    | string s =>
      rw [Json.decode] at h
      cases h
      rfl
    | _ => simp [Json.decode] at h
  | value name =>
    cases j with
    | null => cases hnull
    | object given =>
      rw [Json.decode] at h
      split at h
      · cases h
      · split at h
        · cases h
        · obtain ⟨fields, _, rfl⟩ := map_eq_ok h
          rfl
    | _ => simp [Json.decode] at h

theorem crosses_of_decode_scalar (hplain : lib.plainMembers = true) {j : Json} {s : Scalar}
    {u : Value} (hnull : j.isNull = false) (h : j.decode lib (.scalar s) false = .ok u) :
    u.crosses lib (.scalar s) false = true := by
  rw [crosses_scalar (decode_ne_absent hplain hnull h)]
  rw [decode_scalar hnull] at h
  exact decodeScalar_crosses hplain h

theorem crosses_of_decode_reference {j : Json} {type : String} {u : Value}
    (h : j.decode lib (.reference type) false = .ok u) :
    u.crosses lib (.reference type) false = true := by
  cases j with
  | null =>
    rw [Json.decode] at h
    cases h
    rw [Value.crosses]
  | string s =>
    rw [Json.decode] at h
    cases h
    rw [Value.crosses]
  | _ => simp [Json.decode] at h

mutual

/-- **What is read from the wire crosses it.** -/
theorem crosses_of_decode (hplain : lib.plainMembers = true) (j : Json) (declared : Declared)
    (many : Bool) (u : Value) (h : j.decode lib declared many = .ok u) :
    u.crosses lib declared many = true := by
  cases j with
  | null =>
    rw [Json.decode] at h
    cases h
    rw [Value.crosses]
  | array items =>
    cases many with
    | true =>
      rw [Json.decode] at h
      obtain ⟨us, hread, rfl⟩ := map_eq_ok h
      obtain ⟨news, rfl, hcross⟩ := itemsCross_of_decode hplain items declared [] us hread
      rw [Value.crosses]
      exact hcross
    | false =>
      cases declared with
      | scalar s => exact crosses_of_decode_scalar hplain rfl h
      | reference type => simp [Json.decode] at h
      | value name => simp [Json.decode] at h
  | object given =>
    cases many with
    | true => simp [Json.decode] at h
    | false =>
      cases declared with
      | scalar s => exact crosses_of_decode_scalar hplain rfl h
      | reference type => simp [Json.decode] at h
      | value name =>
        rw [Json.decode] at h
        split at h
        · cases h
        rename_i vt hvt
        split at h
        · cases h
        obtain ⟨built, hbuilt, rfl⟩ := map_eq_ok h
        have hfields := fieldsCross_of_decode hplain given vt.fields
        exact crosses_record.mpr ⟨rfl, vt, hvt, recordCrosses_of_fieldsOf hbuilt hfields⟩
  | _ =>
    cases many with
    | true => simp [Json.decode] at h
    | false =>
      cases declared with
      | scalar s => exact crosses_of_decode_scalar hplain rfl h
      | reference type => exact crosses_of_decode_reference h
      | value name => simp [Json.decode] at h

theorem itemsCross_of_decode (hplain : lib.plainMembers = true) (items : List Json)
    (declared : Declared) (out us : List Value)
    (h : decodeItems lib items declared out = .ok us) :
    ∃ news, us = out ++ news ∧ itemsCross lib news declared out = true := by
  cases items with
  | nil =>
    rw [decodeItems] at h
    cases h
    exact ⟨[], by rw [List.append_nil], by rw [itemsCross]⟩
  | cons item rest =>
    rw [decodeItems] at h
    split at h
    · cases h
    rename_i hnull
    rw [Bool.not_eq_true] at hnull
    cases hitem : item.decode lib declared false with
    | error why =>
      rw [hitem] at h
      cases h
    | ok u =>
      rw [hitem] at h
      dsimp only at h
      split at h
      · cases h
      rename_i hnew
      rw [Bool.not_eq_true] at hnew
      have hcross := crosses_of_decode hplain item declared false u hitem
      obtain ⟨news, rfl, hrest⟩ := itemsCross_of_decode hplain rest declared (out ++ [u]) us h
      refine ⟨u :: news, by rw [List.append_assoc]; rfl, ?_⟩
      rw [itemsCross, decode_ne_absent hplain hnull hitem, hcross, hnew, hrest]
      rfl

theorem fieldsCross_of_decode (hplain : lib.plainMembers = true) (given : List (String × Json))
    (declared : List (String × Attribute)) : ∀ k u,
      Table.get? (decodeFields lib given declared) k = some (.ok u) →
      ∃ a, named? declared k = some a ∧ u.crosses lib a.declared a.many = true := by
  cases given with
  | nil =>
    intro k u hk
    rw [decodeFields] at hk
    cases hk
  | cons entry rest =>
    obtain ⟨name, j⟩ := entry
    intro k u hk
    rw [decodeFields] at hk
    cases hname : named? declared name with
    | none =>
      rw [hname] at hk
      exact fieldsCross_of_decode hplain rest declared k u hk
    | some a =>
      rw [hname] at hk
      dsimp only at hk
      rw [Table.get?_cons] at hk
      by_cases heq : name = k
      · rw [if_pos heq] at hk
        have hread := Option.some.inj hk
        subst heq
        exact ⟨a, hname, crosses_of_decode hplain j a.declared a.many u hread⟩
      · rw [if_neg heq] at hk
        exact fieldsCross_of_decode hplain rest declared k u hk

end

/-! ### What is equal to what crosses crosses -/

theorem same_isAbsent {u v : Value} (h : u.same v = true) : u.isAbsent = v.isAbsent := by
  cases u <;> cases v <;> first | rfl | (simp [Value.same] at h)

theorem sameFields_keys {fields fields' : List (String × Value)}
    (h : Value.sameFields fields fields' = true) : Table.keys fields = Table.keys fields' := by
  induction fields generalizing fields' with
  | nil =>
    cases fields' with
    | nil => rfl
    | cons entry rest => simp [Value.sameFields] at h
  | cons entry rest ih =>
    cases fields' with
    | nil => simp [Value.sameFields] at h
    | cons entry' rest' =>
      simp only [Value.sameFields, Bool.and_eq_true, decide_eq_true_eq] at h
      obtain ⟨⟨hname, _⟩, hrest⟩ := h
      unfold Table.keys at ih ⊢
      rw [List.map_cons, List.map_cons, hname, ih hrest]

theorem sameFields_get? {fields fields' : List (String × Value)}
    (h : Value.sameFields fields fields' = true) {k : String} {u : Value}
    (hk : Table.get? fields k = some u) : ∃ v, Table.get? fields' k = some v ∧ u.same v = true := by
  induction fields generalizing fields' with
  | nil => cases hk
  | cons entry rest ih =>
    cases fields' with
    | nil => simp [Value.sameFields] at h
    | cons entry' rest' =>
      obtain ⟨name, w⟩ := entry
      obtain ⟨name', w'⟩ := entry'
      simp only [Value.sameFields, Bool.and_eq_true, decide_eq_true_eq] at h
      obtain ⟨⟨rfl, hfirst⟩, hrest⟩ := h
      rw [Table.get?_cons] at hk ⊢
      by_cases hname : name = k
      · rw [if_pos hname] at hk ⊢
        obtain rfl := Option.some.inj hk
        exact ⟨w', rfl, hfirst⟩
      · rw [if_neg hname] at hk ⊢
        exact ih hrest hk

mutual

/-- **A value equal to one that crosses crosses.** -/
theorem crosses_of_same (u v : Value) (declared : Declared) (many : Bool) (h : u.same v = true)
    (hu : u.crosses lib declared many = true) : v.crosses lib declared many = true := by
  by_cases habsent : v.isAbsent = true
  · rw [Value.isAbsent_iff.mp habsent, Value.crosses]
  rw [Bool.not_eq_true] at habsent
  have habsent' := (same_isAbsent h).trans habsent
  cases many with
  | true =>
    cases u with
    | set items =>
      cases v with
      | set items' =>
        rw [Value.same] at h
        rw [Value.crosses] at hu ⊢
        exact itemsCross_of_same items items' declared [] [] h rfl hu
      | _ => simp [Value.same] at h
    | absent => cases habsent'
    | _ => simp [Value.crosses] at hu
  | false =>
    cases declared with
    | scalar s =>
      rw [crosses_scalar habsent'] at hu
      rw [crosses_scalar habsent]
      exact scalarCrosses_of_same lib h hu
    | reference type =>
      cases u with
      | object id =>
        cases v with
        | object id' => rw [Value.crosses]
        | _ => simp [Value.same] at h
      | absent => cases habsent'
      | _ => simp [Value.crosses] at hu
    | value name =>
      cases u with
      | record type fields =>
        cases v with
        | record type' fields' =>
          simp only [Value.same, Bool.and_eq_true, decide_eq_true_eq] at h
          obtain ⟨rfl, hsame⟩ := h
          obtain ⟨htype, vt, hvt, hkeys, hcross, hrequired⟩ := crosses_record.mp hu
          refine crosses_record.mpr ⟨htype, vt, hvt, ?_, ?_, ?_⟩
          · rw [← sameFields_keys hsame, hkeys]
          · exact fieldsCross_of_same fields fields' vt.fields hsame hcross
          · intro f hf
            rcases hrequired f hf with hoptional | ⟨w, hw, hheld⟩
            · exact .inl hoptional
            · obtain ⟨w', hw', hsame'⟩ := sameFields_get? hsame hw
              exact .inr ⟨w', hw', (same_isAbsent hsame').symm.trans hheld⟩
        | _ => simp [Value.same] at h
      | absent => cases habsent'
      | _ => simp [Value.crosses] at hu

theorem itemsCross_of_same (us vs : List Value) (declared : Declared) (earlier earlier' : List Value)
    (h : Value.sameList us vs = true) (hearlier : Value.sameList earlier earlier' = true)
    (hu : itemsCross lib us declared earlier = true) :
    itemsCross lib vs declared earlier' = true := by
  cases us with
  | nil =>
    cases vs with
    | nil => rw [itemsCross]
    | cons v rest => simp [Value.sameList] at h
  | cons u rest =>
    cases vs with
    | nil => simp [Value.sameList] at h
    | cons v rest' =>
      simp only [Value.sameList, Bool.and_eq_true] at h
      rw [itemsCross] at hu ⊢
      simp only [Bool.and_eq_true, Bool.not_eq_true'] at hu ⊢
      obtain ⟨⟨⟨habsent, hcross⟩, hnew⟩, hrest⟩ := hu
      have hone : Value.sameList [u] [v] = true := by simp [Value.sameList, h.1]
      refine ⟨⟨⟨?_, ?_⟩, ?_⟩, ?_⟩
      · rw [← same_isAbsent h.1, habsent]
      · exact crosses_of_same u v declared false h.1 hcross
      · rw [← any_same_congr hearlier h.1, hnew]
      · exact itemsCross_of_same rest rest' declared (earlier ++ [u]) (earlier' ++ [v]) h.2
          (sameList_append hearlier hone) hrest

theorem fieldsCross_of_same (fields fields' : List (String × Value))
    (declared : List (String × Attribute)) (h : Value.sameFields fields fields' = true)
    (hu : fieldsCross lib fields declared = true) : fieldsCross lib fields' declared = true := by
  match fields, fields' with
  | [], [] => rw [fieldsCross]
  | [], (_, _) :: _ => simp [Value.sameFields] at h
  | (_, _) :: _, [] => simp [Value.sameFields] at h
  | (name, u) :: rest, (name', v) :: rest' =>
    simp only [Value.sameFields, Bool.and_eq_true, decide_eq_true_eq] at h
    obtain ⟨⟨hname, hfirst⟩, hrest⟩ := h
    rw [fieldsCross, Bool.and_eq_true] at hu ⊢
    refine ⟨?_, fieldsCross_of_same rest rest' declared hrest hu.2⟩
    have hfield := hu.1
    rw [hname] at hfield
    cases ha : named? declared name' with
    | none =>
      rw [ha] at hfield
      cases hfield
    | some a =>
      rw [ha] at hfield
      exact crosses_of_same u v a.declared a.many hfirst hfield

end

end Structures

end ObjectFlow
