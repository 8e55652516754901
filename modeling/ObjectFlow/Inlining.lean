import ObjectFlow.MannerAlike
import ObjectFlow.Narrowing

/-!
# Derived attributes inlined

A derived attribute is evaluated for its reader by an evaluator of its own, and
what that one leaves unanswered or fails stays with it.  Inlined, the same is
told of whoever reads the attribute.  The value is the one inlining gives; the
record is where everything a derived attribute tells is told outside of every
derived attribute too.
-/

namespace ObjectFlow

open Base Base.Noted

/-- Derived attributes read as what a store holds: nothing is told of how their
values came about. -/
def Manner.stored : Manner := { Manner.core with derived := fun x => ⟨[], x.outcome⟩ }

theorem raised_silent {ns : List Note} (h : ∀ n ∈ ns, n.tells = false) :
    raised ns = (false, false) := by
  have hnone : ∀ n ∈ ns, n.isUnanswered = false ∧ n.isFailedArithmetic = false := by
    intro n hn
    have htells := h n hn
    unfold Note.tells at htells
    exact Bool.or_eq_false_iff.mp htells
  unfold raised
  rw [List.any_eq_false.mpr fun n hn => by simp [(hnone n hn).1],
    List.any_eq_false.mpr fun n hn => by simp [(hnone n hn).2]]

/-- The second raises what the first does. -/
def Raises (ns ns' : List Note) : Prop :=
  ((raised ns).1 = true → (raised ns').1 = true) ∧ ((raised ns).2 = true → (raised ns').2 = true)

theorem Raises.append {ns ns' ms ms' : List Note} (h : Raises ns ns') (h' : Raises ms ms') :
    Raises (ns ++ ms) (ns' ++ ms') := by
  unfold Raises at *
  rw [raised_append, raised_append]
  simp only [Bool.or_eq_true]
  exact ⟨Or.imp h.1 h'.1, Or.imp h.2 h'.2⟩

/-- What is kept of the first notes raises no more. -/
theorem Raises.kept {ns ns' : List Note} (p : Note → Bool) (h : Raises ns ns') :
    Raises (ns.filter p) ns' := by
  have hsome : ∀ kind : Note → Bool, (ns.filter p).any kind = true → ns.any kind = true := by
    intro kind hkind
    obtain ⟨n, hn, htrue⟩ := List.any_eq_true.mp hkind
    exact List.any_eq_true.mpr ⟨n, (List.mem_filter.mp hn).1, htrue⟩
  exact ⟨fun hunanswered => h.1 (hsome _ hunanswered), fun hfailed => h.2 (hsome _ hfailed)⟩

theorem Raises.of_eq {ns ns' : List Note} (h : raised ns = raised ns') : Raises ns ns' := by
  unfold Raises
  rw [h]
  exact ⟨id, id⟩

/-! ### The evaluator beside both -/

end ObjectFlow
