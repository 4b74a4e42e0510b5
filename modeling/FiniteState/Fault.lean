import FiniteState.Alphabet
import FiniteState.State

/-!
# Faults

Why an automaton cannot be made: its description names a state that it
does not have, a deterministic automaton was asked for where a choice is
left open, or a construction outgrew the limit set for it.
-/

namespace FiniteState

/-- The causes for which making an automaton fails. -/
inductive Fault (σ : Type) where
  | noStates
  | startOutOfRange (start : State) (states : Nat)
  | stateOutOfRange (state : State) (states : Nat)
  | nonDeterministic (origin : State) (symbol : σ) (count : Nat)
  | epsilonTransition (origin : State)
  | stateLimitExceeded (limit : Nat)
deriving DecidableEq

/-- The cause in words. -/
def Fault.message {σ : Type} [Alphabet σ] : Fault σ → String
  | noStates => "Automaton must have at least one state"
  | startOutOfRange start states =>
    s!"Start state {start} is out of range for an automaton with {states} states"
  | stateOutOfRange state states =>
    s!"State {state} is out of range for an automaton with {states} states"
  | nonDeterministic origin symbol count =>
    let written := Alphabet.text symbol
    s!"Transition from state {origin} on {written} has {count} destinations, expected one"
  | epsilonTransition origin => s!"DFA transition from state {origin} is labelled with epsilon"
  | stateLimitExceeded limit => s!"Subset construction exceeded the limit of {limit} states"

end FiniteState
