import FiniteState.Alphabet
import FiniteState.Search.Reach
import FiniteState.State

/-!
# Machines

What every automaton can be asked, deterministic or not: its states, its
start and accepting states, its symbols, and where one move leads. Moves
from a state that the machine does not have lead nowhere.

From single moves follow moves of sets of states: `moveOn` consumes one
symbol, `closure` makes any number of epsilon moves. A closure is the
result of a search, and the order of the search does not show in it:
`mem_closureBy` says for every worklist that the closure holds exactly
what the seeds reach.
-/

namespace FiniteState

/-- The common view of automata. -/
class Machine (M : Type) (σ : outParam Type) [Alphabet σ] where
  /-- Number of states. -/
  states : M → Nat
  start : M → State
  /-- The accepting states. -/
  finals : M → StateSet
  /-- The symbols on which some state has a move. -/
  vocabulary : M → SortedSet σ
  /-- Where the moves of a state on a symbol lead. -/
  targets : M → State → σ → StateSet
  /-- Where the epsilon moves of a state lead. -/
  epsilonTargets : M → State → StateSet
  epsilonTargets_bounded (m : M) : Search.Bounded fun q => (epsilonTargets m q).toList

namespace Machine

variable {M σ : Type} [Alphabet σ] [Machine M σ]

def isFinal (m : M) (q : State) : Bool := q ∈ finals m

/-- Where the moves of all members of a set on a symbol lead. -/
def moveOn (m : M) (s : StateSet) (a : σ) : StateSet := s.bind fun q => targets m q a

theorem mem_moveOn {m : M} {s : StateSet} {a : σ} {p : State} :
    p ∈ moveOn m s a ↔ ∃ q, q ∈ s ∧ p ∈ targets m q a :=
  SortedSet.mem_bind

/-- Everything that a set reaches by epsilon moves, found by a search
with a worklist of type `ω`. -/
def closureBy (ω : Type) [Worklist ω State] (m : M) (s : StateSet) : StateSet :=
  .ofList (Search.search ω none (fun q => (epsilonTargets m q).toList)
    (epsilonTargets_bounded m) s.toList).toList

/-- Everything that a set reaches by epsilon moves, itself included. -/
def closure (m : M) (s : StateSet) : StateSet := closureBy (Stack State) m s

theorem mem_closureBy {ω : Type} [Worklist ω State] {m : M} {s : StateSet} {p : State} :
    p ∈ closureBy ω m s ↔
      ∃ q, q ∈ s ∧ Search.Reaches (fun q => (epsilonTargets m q).toList) q p := by
  simp [closureBy, Search.mem_search]

theorem mem_closure {m : M} {s : StateSet} {p : State} :
    p ∈ closure m s ↔
      ∃ q, q ∈ s ∧ Search.Reaches (fun q => (epsilonTargets m q).toList) q p :=
  mem_closureBy

end Machine

end FiniteState
