import ObjectFlow.Base.Renaming
import ObjectFlow.Carried

/-!
# Renames carried over a history

A read of an event maps the names it was written under forward over the renames
published since, each for the type the object was of then; a correction, an
erasure and an export take a current name back over them, for the type the
object was of under the version asked.  Where every publish since renames
members there were to names there are, and no name is given to a second member,
the two are each other's.
-/

namespace ObjectFlow

open Base

/-! ### What the checker refuses of a rename -/

/-- The attributes a type declares itself. -/
def FlowType.own (t : FlowType) : List String :=
  (t.attributes.map Prod.fst).filter fun a => (Table.get? t.inherited a).isNone

/-- The findings on a version's renames of attributes: a type it does not
declare, a name the type does not declare and one it still has. -/
def renameErrors (lib : Library) : List String :=
  lib.renamedAttributes.flatMap fun (tn, old, new) =>
    match lib.type? tn with
    | none => ["the migration renames attributes of " ++ tn ++
        ", which this module does not declare"]
    | some t =>
        (if t.own.contains new then [] else
          ["the migration renames " ++ tn ++ "." ++ old ++ " to " ++ new ++ ", which " ++ tn ++
            " does not declare"]) ++
        (if t.own.contains old then
          ["the migration renames " ++ tn ++ "." ++ old ++ ", which this version still has"]
        else [])

/-- The findings on a version's renames against the installed one's attributes:
a change of type or of whether it is optional, and one a base's rename makes
already. -/
def renamePairErrors (old new : Library) : List String :=
  new.renamedAttributes.flatMap fun (tn, a, b) =>
    let before := ((old.type? tn).filter (·.own.contains a)).bind (·.attribute? a)
    let after := ((new.type? tn).filter (·.own.contains b)).bind (·.attribute? b)
    (match before, after with
    | some was, some now =>
        if was.optional ≠ now.optional ∨ was.declared ≠ now.declared ∨ was.many ≠ now.many then
          ["the migration renames " ++ tn ++ "." ++ a ++ " to " ++ b ++
            ", which changes its type or whether it is optional; a rename carries the values " ++
            "and their history unchanged (ADR-0146)"]
        else []
    | _, _ => []) ++
    (new.bases tn).filterMap fun base =>
      if new.renamedAttributes.any fun r => r.1 = base && r.2.1 = a then
        some ("the migration renames " ++ tn ++ "." ++ a ++ ", which the rename of " ++ base ++
          "." ++ a ++ " reaches already")
      else none

/-! ### An object's members over the versions -/

namespace World

/-- The attributes of the type an object was of under each version from one,
and what each later version renames of them; a version that moved the object
renames none. -/
def attributesFrom (w : World) (id : String) (version : Int) : History String where
  members n name :=
    ((w.typeAt (version + n) (w.typesThen id (version + n))).bind (·.attribute? name)).isSome = true
  renames n :=
    if w.typesThen id (version + n - 1) ≠ w.typesThen id (version + n) then []
    else ((w.libraryAt (version + n)).renamedAttributes.filter fun r =>
      (w.libraryAt (version + n)).isA (w.typesThen id (version + n)) r.1).map Prod.snd

instance (w : World) (id : String) (version : Int) (n : Nat) (name : String) :
    Decidable ((w.attributesFrom id version).members n name) :=
  inferInstanceAs (Decidable (_ = true))

/-- How many versions there are after one. -/
def laterThan (w : World) (version : Int) : Nat := (w.lib.version - version).toNat

/-- Every version published since one is held, each of them renames members the
object's type had before it to names it has, one each, and no two members of the
object have had one name; and none renames attributes of the type the object
was of then without renaming them of the type it is of, nor the other way. -/
structure RenamesKept (w : World) (id : String) (version : Int) : Prop where
  once : (w.attributesFrom id version).Once (w.laterThan version)
  reach : ∀ n < w.laterThan version, ∃ lib, w.heldLibrary (version + (n + 1 : Nat)) = some lib ∧
    ∀ r ∈ lib.renamedAttributes, lib.isA (w.typesThen id version) r.1 = true ↔
      w.typesThen id (version + (n + 1 : Nat) - 1) = w.typesThen id (version + (n + 1 : Nat)) ∧
        lib.isA (w.typesThen id (version + (n + 1 : Nat))) r.1 = true

/-- The installed version's name of a name an event's payload holds. -/
def currentName (w : World) (id : String) (version : Int) (p : Payload) (name : String) : String :=
  (Table.get? (w.renamed id version p) name).getD name

/-- Renames are carried faithfully between a version and the installed one: an
event's name carried forward to a member the installed version has is taken
back to it, a member taken back to one the version had is what that name is
carried forward to, and no two members are taken back to one name. -/
structure RenamesInverse (w : World) (id : String) (version : Int) : Prop where
  back_forward : ∀ p name, name ∈ Table.keys p.inputs ++ Table.keys p.wrote →
    (w.attributesFrom id version).members 0 name →
    (w.attributesFrom id version).members (w.laterThan version) (w.currentName id version p name) →
    w.namedUnder version (w.typesThen id version) (w.currentName id version p name) = name
  forward_back : ∀ p name, (w.attributesFrom id version).members (w.laterThan version) name →
    (w.attributesFrom id version).members 0 (w.namedUnder version (w.typesThen id version) name) →
    w.namedUnder version (w.typesThen id version) name ∈
      Table.keys p.inputs ++ Table.keys p.wrote →
    w.currentName id version p (w.namedUnder version (w.typesThen id version) name) = name
  apart : ∀ name other, (w.attributesFrom id version).members (w.laterThan version) name →
    (w.attributesFrom id version).members (w.laterThan version) other →
    w.namedUnder version (w.typesThen id version) name =
      w.namedUnder version (w.typesThen id version) other → name = other

end World

/-! ### The two reads over a history -/

/-- A version's renames over a name, as the type's entries alone give it. -/
theorem renames_forward (lib : Library) (type name : String) :
    lib.renames type name =
      forward ((lib.renamedAttributes.filter fun r => lib.isA type r.1).map Prod.snd) name := by
  unfold Library.renames forward
  rw [List.find?_map, List.find?_filter]
  have hsame : (fun r : String × String × String =>
      decide (lib.isA type r.1 = true ∧ ((fun p => decide (p.1 = name)) ∘ Prod.snd) r = true)) =
      fun r => decide (r.2.1 = name) && lib.isA type r.1 := by
    funext r
    simp [and_comm]
  rw [hsame]
  cases h : lib.renamedAttributes.find? fun r => decide (r.2.1 = name) && lib.isA type r.1 with
  | none => rfl
  | some r => rfl

theorem forward_nil (name : String) : forward ([] : List (String × String)) name = name := rfl

theorem nameNow_append (w : World) (id : String) (first rest : List Int) (name : String) :
    w.nameNow id (first ++ rest) name = w.nameNow id rest (w.nameNow id first name) := by
  induction first generalizing name with
  | nil => rfl
  | cons k first ih => exact ih _

theorem versionsAfter_take (version : Int) (n : Nat) :
    ((List.range (n + 1)).map fun i : Nat => version + 1 + i) =
      ((List.range n).map fun i : Nat => version + 1 + i) ++ [version + (n + 1 : Nat)] := by
  rw [List.range_succ, List.map_append, List.map_singleton]
  congr 2
  push_cast
  omega

/-- A name's current one is it carried forward over the history. -/
theorem nameNow_forwardTo (w : World) (id : String) (version : Int) (n : Nat) (name : String) :
    w.nameNow id ((List.range n).map fun i : Nat => version + 1 + i) name =
      (w.attributesFrom id version).forwardTo n name := by
  induction n with
  | zero => rfl
  | succ n ih =>
    rw [versionsAfter_take, nameNow_append, ih, History.forwardTo]
    simp only [World.nameNow, World.attributesFrom]
    split
    · rw [forward_nil]
    · rw [renames_forward]

theorem nameNow_unrenamed {w : World} (id : String) {later : List Int}
    (h : (later.all fun k => (w.libraryAt k).renamedAttributes.isEmpty) = true) (name : String) :
    w.nameNow id later name = name := by
  induction later generalizing name with
  | nil => rfl
  | cons k rest ih =>
    rw [List.all_cons, Bool.and_eq_true] at h
    have hempty := List.isEmpty_iff.mp h.1
    simp only [World.nameNow, Library.renames, hempty, List.find?_nil, ite_self]
    exact ih h.2 name

theorem get?_changed {f : String → String} {names : List String} {name : String}
    (h : name ∈ names) :
    (Table.get? (names.filterMap fun n => if f n ≠ n then some (n, f n) else none) name).getD name =
      f name := by
  induction names with
  | nil => cases h
  | cons a rest ih =>
    by_cases hsame : a = name
    · subst hsame
      by_cases hchanged : f a ≠ a
      · rw [List.filterMap_cons_some (b := (a, f a)) (by rw [if_pos hchanged]), Table.get?_cons,
          if_pos rfl]
        rfl
      · have hkept := not_not.mp hchanged
        rw [List.filterMap_cons_none (by rw [if_neg hchanged])]
        by_cases hagain : a ∈ rest
        · exact ih hagain
        · have hnone : Table.get? (rest.filterMap fun n => if f n ≠ n then some (n, f n) else none)
              a = none := by
            rw [Option.eq_none_iff_forall_ne_some]
            intro v hv
            obtain ⟨n, hn, hpair⟩ := List.mem_filterMap.mp (Table.mem_of_get? hv)
            split at hpair
            · obtain ⟨rfl, _⟩ := Prod.mk.inj (Option.some.inj hpair)
              exact hagain hn
            · cases hpair
          rw [hnone, Option.getD_none, hkept]
    · obtain hrest := (List.mem_cons.mp h).resolve_left (Ne.symm hsame)
      by_cases hchanged : f a ≠ a
      · rw [List.filterMap_cons_some (b := (a, f a)) (by rw [if_pos hchanged]), Table.get?_cons,
          if_neg hsame]
        exact ih hrest
      · rw [List.filterMap_cons_none (by rw [if_neg hchanged])]
        exact ih hrest

/-- A read's map gives each name it holds the one carried forward. -/
theorem currentName_forwardTo {w : World} {id : String} {version : Int} {p : Payload}
    {name : String} (h : name ∈ Table.keys p.inputs ++ Table.keys p.wrote) :
    w.currentName id version p name =
      (w.attributesFrom id version).forwardTo (w.laterThan version) name := by
  have hnow := nameNow_forwardTo w id version (w.laterThan version) name
  unfold World.currentName World.renamed
  by_cases hnone : ((w.versionsAfter version).all fun k =>
      (w.libraryAt k).renamedAttributes.isEmpty) = true
  · have hkept := nameNow_unrenamed id hnone name
    dsimp only
    rw [if_pos hnone, ← hnow]
    exact hkept.symm
  · dsimp only
    rw [if_neg hnone, get?_changed (f := w.nameNow id (w.versionsAfter version))
      ((mem_addNames [] _ name).mpr (.inr h))]
    exact hnow

theorem heldLibrary_libraryAt {w : World} {k : Int} {lib : Library}
    (h : w.heldLibrary k = some lib) : w.libraryAt k = lib := by
  unfold World.heldLibrary at h
  unfold World.libraryAt
  split at h
  · rename_i hk
    rw [if_pos hk]
    exact Option.some.inj h
  · rename_i hk
    rw [if_neg hk, h, Option.getD_some]

/-- A name taken back over a version that renames alike of the type the object
was of and the type it is of. -/
theorem nameBack_back {w : World} {id : String} {version : Int} {n : Nat} {lib : Library}
    (hlib : w.heldLibrary (version + n) = some lib)
    (hreach : ∀ r ∈ lib.renamedAttributes, lib.isA (w.typesThen id version) r.1 = true ↔
      w.typesThen id (version + n - 1) = w.typesThen id (version + n) ∧
        lib.isA (w.typesThen id (version + n)) r.1 = true) (name : String) :
    w.nameBack (w.typesThen id version) [version + n] name =
      back ((w.attributesFrom id version).renames n) name := by
  have hat := heldLibrary_libraryAt hlib
  have hrenames : (w.attributesFrom id version).renames n =
      (lib.renamedAttributes.filter fun r => lib.isA (w.typesThen id version) r.1).map Prod.snd := by
    simp only [World.attributesFrom, hat]
    split
    · rename_i hmoved
      have hnone : (lib.renamedAttributes.filter fun r =>
          lib.isA (w.typesThen id version) r.1) = [] := by
        rw [List.filter_eq_nil_iff]
        intro r hr hisA
        exact hmoved ((hreach r hr).mp hisA).1
      rw [hnone, List.map_nil]
    · rename_i hsame
      congr 1
      apply List.filter_congr
      intro r hr
      have h := hreach r hr
      rw [Bool.eq_iff_iff, h]
      exact ⟨fun hisA => ⟨not_not.mp hsame, hisA⟩, fun hisA => hisA.2⟩
  have hheld : (if version + n = w.lib.version then some w.lib
      else Table.get? w.earlier (version + n)) = some lib := hlib
  rw [hrenames]
  simp only [World.nameBack, back]
  rw [hheld, Option.bind_some, List.find?_map, List.find?_filter]
  have hsame : (fun r : String × String × String =>
      decide (lib.isA (w.typesThen id version) r.1 = true ∧
        ((fun p => decide (p.2 = name)) ∘ Prod.snd) r = true)) =
      fun r => lib.isA (w.typesThen id version) r.1 && decide (r.2.2 = name) := by
    funext r
    simp
  rw [hsame]
  cases lib.renamedAttributes.find? fun r =>
    lib.isA (w.typesThen id version) r.1 && decide (r.2.2 = name) with
  | none => rfl
  | some r => rfl

/-- A current name is taken back as over the history. -/
theorem namedUnder_backFrom {w : World} {id : String} {version : Int}
    (h : w.RenamesKept id version) (name : String) :
    w.namedUnder version (w.typesThen id version) name =
      (w.attributesFrom id version).backFrom (w.laterThan version) name := by
  have hback : ∀ n ≤ w.laterThan version, ∀ name,
      w.nameBack (w.typesThen id version)
        ((List.range n).map fun i : Nat => version + 1 + i).reverse name =
      (w.attributesFrom id version).backFrom n name := by
    intro n
    induction n with
    | zero => exact fun _ _ => rfl
    | succ n ih =>
      intro hn name
      obtain ⟨lib, hlib, hreach⟩ := h.reach n (by omega)
      rw [versionsAfter_take, List.reverse_append, List.reverse_singleton, nameBack_append,
        nameBack_back hlib hreach, ih (by omega), History.backFrom]
  rw [namedUnder_eq]
  exact hback _ (Nat.le_refl _) name

/-! ### A memo's attribute, named anew -/

/-- A type of one attribute, under a name. -/
def memoType (name : String) : FlowType where
  name := "Memo"
  attributes := [(name, { declared := .scalar (.named "string"), personal := true })]
  states := [("OPEN", { category := "live" })]

/-- A library of it whose publish renamed its attribute from a name. -/
def memoLibrary (version : Int) (name : String) (renamed : List String) : Library where
  types := [("Memo", memoType name)]
  version := version
  renamedAttributes := renamed.map fun old => ("Memo", old, name)

/-- A memo over two versions, the second naming its attribute anew. -/
def memoRenamed : World where
  lib := memoLibrary 2 "b" ["a"]
  earlier := [(1, memoLibrary 1 "a" [])]
  objects := [("memo-1", { id := "memo-1", type := "Memo", state := "OPEN" })]

/-- A memo over three versions, the third published from the second's source, its
rename still in it. -/
def memoResent : World where
  lib := memoLibrary 3 "b" ["a"]
  earlier := [(1, memoLibrary 1 "a" []), (2, memoLibrary 2 "b" ["a"])]
  objects := [("memo-1", { id := "memo-1", type := "Memo", state := "OPEN" })]

theorem attribute?_memoType {attr name : String}
    (h : ((memoType attr).attribute? name).isSome = true) : name = attr := by
  unfold memoType FlowType.attribute? named? at h
  by_contra hne
  rw [Table.get?_cons, if_neg (Ne.symm hne)] at h
  cases h

/-! ### Renames carried faithfully -/

/-- **Renames are carried faithfully** over a history that keeps every name one
member's. -/
theorem renames_inverse {w : World} {id : String} {version : Int} (h : w.RenamesKept id version) :
    w.RenamesInverse id version where
  back_forward p name hname hthen hnow := by
    rw [currentName_forwardTo hname] at hnow ⊢
    rw [namedUnder_backFrom h]
    exact History.backFrom_forwardTo h.once hthen hnow
  forward_back p name hnow hthen hname := by
    rw [currentName_forwardTo hname]
    rw [namedUnder_backFrom h] at hthen ⊢
    exact History.forwardTo_backFrom h.once hnow hthen
  apart name other hname hother hsame := by
    rw [namedUnder_backFrom h, namedUnder_backFrom h] at hsame
    exact History.backFrom_injective h.once hname hother hsame


/-- A rename of one attribute, to a name the version before did not have. -/
theorem renames_inverse_memo : memoRenamed.RenamesInverse "memo-1" 1 := by
  have hthen : ∀ name, (memoRenamed.attributesFrom "memo-1" 1).members 0 name → name = "a" :=
    fun name h => attribute?_memoType h
  have hnow : ∀ name, (memoRenamed.attributesFrom "memo-1" 1).members 1 name → name = "b" :=
    fun name h => attribute?_memoType h
  have hrenames : (memoRenamed.attributesFrom "memo-1" 1).renames 1 = [("a", "b")] := by
    decide +kernel
  have hlast : memoRenamed.laterThan 1 = 1 := rfl
  apply renames_inverse
  refine ⟨⟨?_, ?_, ?_, ?_, ?_⟩, ?_⟩ <;> rw [hlast]
  · intro n hn p hp
    obtain rfl : n = 0 := by omega
    rw [hrenames] at hp
    obtain rfl := List.mem_singleton.mp hp
    decide +kernel
  · intro n hn p hp
    obtain rfl : n = 0 := by omega
    rw [hrenames] at hp
    obtain rfl := List.mem_singleton.mp hp
    decide +kernel
  · intro n hn p hp q hq _
    obtain rfl : n = 0 := by omega
    rw [hrenames] at hp hq
    rw [List.mem_singleton.mp hp, List.mem_singleton.mp hq]
  · intro n hn p hp q hq _
    obtain rfl : n = 0 := by omega
    rw [hrenames] at hp hq
    rw [List.mem_singleton.mp hp, List.mem_singleton.mp hq]
  · intro i n hn name hi hin
    by_cases hn' : n = 0
    · subst hn'
      exact ⟨rfl, hi⟩
    · obtain ⟨rfl, rfl⟩ : i = 0 ∧ n = 1 := by omega
      have ha := hthen name hi
      have hb := hnow name hin
      rw [ha] at hb
      exact absurd hb (by decide)
  · intro n hn
    obtain rfl : n = 0 := by omega
    refine ⟨memoLibrary 2 "b" ["a"], rfl, fun r hr => ?_⟩
    obtain rfl := List.mem_singleton.mp hr
    decide +kernel

/-- A version published from a source whose rename an earlier one applied is
accepted, its entry renaming nothing, and a name written before it is taken back
over the entry all the same. -/
theorem memoResent_not_inverse :
    (renameErrors (memoLibrary 2 "b" ["a"]) = [] ∧
      renamePairErrors (memoLibrary 1 "a" []) (memoLibrary 2 "b" ["a"]) = [] ∧
      renameErrors (memoLibrary 3 "b" ["a"]) = [] ∧
      renamePairErrors (memoLibrary 2 "b" ["a"]) (memoLibrary 3 "b" ["a"]) = []) ∧
    ¬ memoResent.RenamesInverse "memo-1" 2 := by
  refine ⟨by decide +kernel, fun h => ?_⟩
  have hback := h.back_forward { wrote := [("b", .text "x")] } "b" (by decide +kernel)
    (by decide +kernel) (by decide +kernel)
  exact absurd hback (by decide +kernel)

end ObjectFlow
