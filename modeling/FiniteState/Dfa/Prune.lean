import FiniteState.Dfa.Basic
import FiniteState.Search.Reach

/-!
# Pruning

The states that a deterministic automaton can be in are found by a search
from its start, and pruning keeps just those. The states kept are
renumbered without gaps and stay in their order, so a state's new number
is its place among the states kept. A move of a state that is kept leads
to a state that is kept, so no move is lost.
-/

namespace FiniteState

namespace Dfa

variable {σ : Type} [Alphabet σ]

/-- Where the moves of a state lead. -/
def successors (d : Dfa σ) (q : State) : List State := (d.row q).values

theorem successors_bounded (d : Dfa σ) : Search.Bounded d.successors := by
  refine ⟨d.rows.toList.flatMap SortedMap.values, fun q p hp => ?_⟩
  unfold successors row at hp
  by_cases h : q < d.rows.size
  · rw [Array.getD_eq_getD_getElem?, Array.getElem?_eq_getElem h] at hp
    exact List.mem_flatMap.mpr ⟨_, Array.getElem_mem_toList h, hp⟩
  · rw [Array.getD_eq_getD_getElem?, Array.getElem?_eq_none (Nat.le_of_not_lt h)] at hp
    exact absurd hp List.not_mem_nil

/-- The states in which some run ends. -/
def reachable (d : Dfa σ) : StateSet :=
  .ofList (Search.search (Queue State) none d.successors d.successors_bounded [d.start]).toList

theorem mem_reachable {d : Dfa σ} {q : State} :
    q ∈ d.reachable ↔ Search.Reaches d.successors d.start q := by
  simp [reachable, Search.mem_search]

/-- The automaton restricted to some of its states, which are renumbered
in order. -/
def restrict (d : Dfa σ) (kept : StateSet) : Dfa σ :=
  let numbers := Numbering.ofList kept.toList
  { rows := (kept.toList.map fun q => (d.row q).filterMap numbers.number?).toArray
    start := (numbers.number? d.start).getD 0
    finals := .ofList <| d.finals.toList.filterMap numbers.number? }

/-- The automaton without the states that no run reaches. -/
def prune (d : Dfa σ) : Dfa σ := d.restrict d.reachable

end Dfa

end FiniteState
