import FiniteState.Alphabet

/-!
# A descending alphabet

Numbers tried from the largest down, with 0 reserved for the move that
consumes nothing: an alphabet whose order is not the one its symbols come
with, and whose epsilon symbol is the last.
-/

namespace FiniteState

open Std

/-- A number as a symbol that comes before every smaller one. -/
structure Descending where
  value : UInt32
deriving DecidableEq

namespace Descending

instance : Ord Descending := ⟨fun a b => compare b.value a.value⟩

theorem compare_def (a b : Descending) : compare a b = compare b.value a.value := rfl

instance : TransOrd Descending where
  eq_swap {a b} := by
    rw [compare_def, compare_def]
    exact OrientedCmp.eq_swap
  isLE_trans {a b c} hab hbc := by
    rw [compare_def] at *
    exact TransCmp.isLE_trans hbc hab

instance : LawfulEqOrd Descending where
  compare_self {a} := by
    rw [compare_def]
    exact ReflCmp.compare_self
  eq_of_compare {a b} h := by
    rw [compare_def] at h
    cases a
    cases b
    exact congrArg mk (LawfulEqOrd.eq_of_compare h).symm

instance : Alphabet Descending where
  isEpsilon a := a.value == 0
  text a := "Rev(Reverse(" ++ toString a.value ++ "))"

end Descending

end FiniteState
