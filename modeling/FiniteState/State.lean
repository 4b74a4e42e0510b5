import FiniteState.Sorted.Set

/-!
# States

The states of an automaton are the numbers below its number of states,
so a state is a number and a set of states is a sorted set of numbers.
Nothing ties a number to one automaton: a query about a state that an
automaton does not have is answered like one about a state without moves.
-/

namespace FiniteState

/-- A state of an automaton, by its number. -/
abbrev State := Nat

/-- A set of states. -/
abbrev StateSet := SortedSet State

/-- A table that says of every state below a bound whether it is a
member. -/
def StateSet.flags (s : StateSet) (bound : Nat) : Array Bool :=
  s.toList.foldl (fun table q => table.setIfInBounds q true) (.replicate bound false)

theorem StateSet.getElem?_flags (s : StateSet) {bound q : Nat} (h : q < bound) :
    (s.flags bound)[q]? = some (decide (q ∈ s)) := by
  have step : ∀ (l : List State) (table : Array Bool), q < table.size →
      (l.foldl (fun table p => table.setIfInBounds p true) table)[q]? =
        if q ∈ l then some true else table[q]? := by
    intro l
    induction l with
    | nil => simp
    | cons p l ih =>
      intro table hq
      rw [List.foldl_cons, ih _ (by simpa using hq), Array.getElem?_setIfInBounds]
      by_cases hpq : p = q
      · simp [hpq, hq]
      · simp [hpq, Ne.symm hpq]
  rw [flags, step _ _ (by simpa using h)]
  by_cases hs : q ∈ s <;> simp [hs, h]

theorem StateSet.getD_flags (s : StateSet) {bound q : Nat} (h : q < bound) :
    (s.flags bound).getD q false = decide (q ∈ s) := by
  rw [Array.getD_eq_getD_getElem?, s.getElem?_flags h, Option.getD_some]

/-- The members in brackets, as they are written into a log. -/
def StateSet.text (s : StateSet) : String :=
  "[" ++ ", ".intercalate (s.toList.map toString) ++ "]"

end FiniteState
