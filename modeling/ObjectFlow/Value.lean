import ObjectFlow.Decimal
import ObjectFlow.Base.Table

/-!
# Values

The values of the expression language.  Absence and unknown are one value.
There are three equalities, and the code uses each: `same`, a value compared
field by field, where decimals are compared as numbers and sets in order;
`equals`, what `==` asks, where an int equals a decimal of its number and sets
are unordered; and the key an index holds a value by.
-/

namespace ObjectFlow

open Base

/-- A value of the expression language. -/
inductive Value where
  /-- Absent or unknown. -/
  | absent
  | bool (b : Bool)
  | int (n : Int)
  | decimal (d : Decimal)
  | money (currency : String) (amount : Decimal)
  /-- Whole seconds. -/
  | duration (seconds : Int)
  /-- Seconds since 1970. -/
  | timestamp (seconds : Int)
  /-- Days since 1970-01-01. -/
  | date (days : Int)
  | text (s : String)
  /-- A state of a type's machine. -/
  | state (type : String) (name : String)
  /-- A member of an enumeration. -/
  | member (enumeration : String) (member : String)
  /-- An object, by its id. -/
  | object (id : String)
  | file (hash : String) (size : Int) (mediaType : String)
  /-- A set, in the order its elements were added. -/
  | set (items : List Value)
  /-- A row of an object's flow data. -/
  | row (fields : List (String × Value))
  /-- A value of several fields. -/
  | record (valueType : String) (fields : List (String × Value))

namespace Value

/-- What kind of value it is, as a fault names it. -/
def kind : Value → String
  | absent => "no value"
  | bool _ => "a boolean"
  | int _ => "an int"
  | decimal _ => "a decimal"
  | money .. => "an amount of money"
  | duration _ => "a duration"
  | timestamp _ => "a timestamp"
  | date _ => "a date"
  | text _ => "a text"
  | state .. => "a state"
  | member .. => "a member of an enumeration"
  | object _ => "an object"
  | file .. => "a file"
  | set _ => "a set"
  | row _ => "a row"
  | record .. => "a value of several fields"

def isAbsent : Value → Bool
  | absent => true
  | _ => false

@[simp] theorem isAbsent_iff {v : Value} : v.isAbsent = true ↔ v = absent := by
  cases v <;> simp [isAbsent]

/-- The value as a number, for comparing an int with a decimal. -/
def number : Value → Option Decimal
  | int n => Decimal.fromInt n
  | decimal d => some d
  | _ => none

mutual

/-- Two values field by field: decimals as numbers, sets in their order. -/
def same : Value → Value → Bool
  | absent, absent => true
  | bool a, bool b => a = b
  | int a, int b => a = b
  | decimal a, decimal b => a.equal b
  | money c a, money d b => c = d && a.equal b
  | duration a, duration b => a = b
  | timestamp a, timestamp b => a = b
  | date a, date b => a = b
  | text a, text b => a = b
  | state t a, state u b => t = u && a = b
  | member t a, member u b => t = u && a = b
  | object a, object b => a = b
  | file a s m, file b t n => a = b && s = t && m = n
  | set a, set b => sameList a b
  | row a, row b => sameFields a b
  | record t a, record u b => t = u && sameFields a b
  | _, _ => false

def sameList : List Value → List Value → Bool
  | [], [] => true
  | a :: as, b :: bs => same a b && sameList as bs
  | _, _ => false

def sameFields : List (String × Value) → List (String × Value) → Bool
  | [], [] => true
  | (k, a) :: as, (l, b) :: bs => k = l && same a b && sameFields as bs
  | _, _ => false

end

/-! `same` is an equivalence. -/

mutual

@[simp] theorem same_self (v : Value) : v.same v = true := by
  cases v with
  | set items => simpa [same] using sameList_self items
  | row fields => simpa [same] using sameFields_self fields
  | record t fields => simpa [same] using sameFields_self fields
  | _ => simp [same]

theorem sameList_self (items : List Value) : sameList items items = true := by
  cases items with
  | nil => rfl
  | cons v rest => simp [sameList, same_self v, sameList_self rest]

theorem sameFields_self (fields : List (String × Value)) : sameFields fields fields = true := by
  cases fields with
  | nil => rfl
  | cons entry rest =>
      obtain ⟨k, v⟩ := entry
      simp [sameFields, same_self v, sameFields_self rest]

end

mutual

theorem same_symm {a b : Value} (h : a.same b = true) : b.same a = true := by
  cases a <;> cases b <;> simp only [same, Bool.and_eq_true, decide_eq_true_eq] at h ⊢ <;>
    first
    | exact Decimal.equal_symm h
    | exact ⟨h.1.symm, Decimal.equal_symm h.2⟩
    | exact sameList_symm h
    | exact sameFields_symm h
    | exact ⟨h.1.symm, sameFields_symm h.2⟩
    | grind

theorem sameList_symm {a b : List Value} (h : sameList a b = true) : sameList b a = true := by
  match a, b with
  | [], [] => rfl
  | v :: as, u :: bs =>
      simp only [sameList, Bool.and_eq_true] at h ⊢
      exact ⟨same_symm h.1, sameList_symm h.2⟩

theorem sameFields_symm {a b : List (String × Value)} (h : sameFields a b = true) :
    sameFields b a = true := by
  match a, b with
  | [], [] => rfl
  | (k, v) :: as, (l, u) :: bs =>
      simp only [sameFields, Bool.and_eq_true, decide_eq_true_eq] at h ⊢
      exact ⟨⟨h.1.1.symm, same_symm h.1.2⟩, sameFields_symm h.2⟩

end

mutual

theorem same_trans {a b c : Value} (hab : a.same b = true) (hbc : b.same c = true) :
    a.same c = true := by
  cases a <;> cases b <;>
    simp only [same, Bool.and_eq_true, decide_eq_true_eq, Bool.false_eq_true] at hab <;>
    cases c <;>
    simp only [same, Bool.and_eq_true, decide_eq_true_eq, Bool.false_eq_true] at hbc ⊢ <;>
    first
    | exact Decimal.equal_trans hab hbc
    | exact ⟨hab.1.trans hbc.1, Decimal.equal_trans hab.2 hbc.2⟩
    | exact sameList_trans hab hbc
    | exact sameFields_trans hab hbc
    | exact ⟨hab.1.trans hbc.1, sameFields_trans hab.2 hbc.2⟩
    | grind

theorem sameList_trans {a b c : List Value} (hab : sameList a b = true)
    (hbc : sameList b c = true) : sameList a c = true := by
  match a, b, c with
  | [], [], [] => rfl
  | v :: as, u :: bs, w :: cs =>
      simp only [sameList, Bool.and_eq_true] at hab hbc ⊢
      exact ⟨same_trans hab.1 hbc.1, sameList_trans hab.2 hbc.2⟩

theorem sameFields_trans {a b c : List (String × Value)} (hab : sameFields a b = true)
    (hbc : sameFields b c = true) : sameFields a c = true := by
  match a, b, c with
  | [], [], [] => rfl
  | (k, v) :: as, (l, u) :: bs, (m, w) :: cs =>
      simp only [sameFields, Bool.and_eq_true, decide_eq_true_eq] at hab hbc ⊢
      exact ⟨⟨hab.1.1.trans hbc.1.1, same_trans hab.1.2 hbc.1.2⟩, sameFields_trans hab.2 hbc.2⟩

end

mutual

/-- Equality as `==` reads it: numbers by value, sets by their elements in any
order, anything else field by field. -/
def equals : Value → Value → Bool
  | set a, set b => eachEquals a b && b.all (fun y => someEquals a y)
  | a, b =>
      match a.number, b.number with
      | some x, some y => x.equal y
      | _, _ => same a b

/-- Whether some element equals a value. -/
def someEquals : List Value → Value → Bool
  | [], _ => false
  | x :: rest, y => equals x y || someEquals rest y

/-- Whether each element equals one of another list. -/
def eachEquals : List Value → List Value → Bool
  | [], _ => true
  | x :: rest, b => b.any (fun y => equals x y) && eachEquals rest b

end

/-- How two values of one type order; none where they do not compare. -/
def compare? : Value → Value → Option Ordering
  | money a x, money b y => if a = b then some (x.cmp y) else none
  | duration a, duration b => some (compare a b)
  | timestamp a, timestamp b => some (compare a b)
  | date a, date b => some (compare a b)
  | text a, text b => some (compare a b)
  | bool a, bool b => some (compare a b)
  | a, b =>
      match a.number, b.number with
      | some x, some y => some (x.cmp y)
      | _, _ => none

/-- The key an index holds a value by, where it holds one: none inside for an
absent value. -/
def indexKey : Value → Option (Option String)
  | absent => some none
  | object id => some (some ("o:" ++ id))
  | text t => some (some ("t:" ++ t))
  | int n => some (some ("i:" ++ toString n))
  | _ => none

/-- Whether a value is a zero divisor. -/
def isZero : Value → Bool
  | int n | duration n => n = 0
  | decimal d => d.isZero
  | money _ amount => amount.isZero
  | _ => false

end Value

end ObjectFlow
