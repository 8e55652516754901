import ObjectFlow.Inlining

/-!
# What is recorded decides nothing

With a record the evaluator also evaluates the parts that do not decide, and
sets aside their verdict and what they leave unanswered.  It does not set aside a
division by zero in them, nor a refusal other than an arithmetic out of range.
Beside the evaluator, with a record and without one, stands an evaluation that
marks both and goes on: it ends as the evaluator without a record, and as the
one with a record where it has marked nothing.
-/

namespace ObjectFlow

open Base Base.Noted

def Note.marksRefused : Note → Bool
  | .named "refused" => true
  | _ => false

def Note.marksFailed : Note → Bool
  | .named "failed" => true
  | _ => false

/-- Two ends of one kind: one value, or refusals of one kind. -/
def SameEnd : Except NotRun Value → Except NotRun Value → Prop
  | .ok v, .ok v' => v = v'
  | .error (.unsupported _), .error (.unsupported _) => True
  | .error (.unanswered _), .error (.unanswered _) => True
  | .error (.outOfRange _), .error (.outOfRange _) => True
  | _, _ => False

theorem SameEnd.of_eq {x y : Except NotRun Value} (h : x = y) : SameEnd x y := by
  subst h
  cases x with
  | ok v => rfl
  | error e => cases e <;> trivial

/-- What is raised with a record, beside what is raised and marked. -/
def RaisedOrMarked (ns ns' : List Note) : Prop :=
  (raised ns).1 = (raised ns').1 ∧
    ((raised ns).2 = true → (raised ns').2 = true ∨ ns'.any Note.marksFailed = true) ∧
    ((raised ns').2 = true → (raised ns).2 = true)

theorem RaisedOrMarked.append {ns ns' ms ms' : List Note} (h : RaisedOrMarked ns ns')
    (h' : RaisedOrMarked ms ms') : RaisedOrMarked (ns ++ ms) (ns' ++ ms') := by
  obtain ⟨hasked, hfailed, hback⟩ := h
  obtain ⟨hasked', hfailed', hback'⟩ := h'
  unfold RaisedOrMarked
  rw [raised_append, raised_append, hasked, hasked', List.any_append]
  simp only [Bool.or_eq_true]
  refine ⟨trivial, ?_, Or.imp hback hback'⟩
  grind

theorem RaisedOrMarked.of_eq {ns ns' : List Note} (h : raised ns = raised ns') :
    RaisedOrMarked ns ns' := by
  unfold RaisedOrMarked
  rw [h]
  exact ⟨rfl, .inl, id⟩

theorem raised_kept_refused (ns : List Note) :
    raised (ns.filter Note.marksRefused) = (false, false) := by
  apply raised_silent
  intro n hn
  have hmark := (List.mem_filter.mp hn).2
  cases n <;> first | rfl | cases hmark

end ObjectFlow
