import FiniteState.Fault
import FiniteState.Transition

/-!
# Descriptions

The text from which an automaton is made: how many states it has, which
of them accept, one entry for each origin and label, and the start state.
A description is read in that order, except that the start comes first,
and the first number that names no state is its fault.
-/

namespace FiniteState

/-- What is said about an automaton in order to make it. -/
structure Description (σ : Type) where
  states : Nat
  finals : List State
  entries : List (Entry σ)
  start : State
deriving DecidableEq

namespace Description

variable {σ : Type}

/-- The states that a description names beside its start, in the order of
reading: the accepting states, then the entries one by one, and of each
its origin before its targets. -/
def named (d : Description σ) : List State :=
  d.finals ++ d.entries.flatMap fun e => e.origin :: e.targets

/-- The fault that is met first, if a state is named that is not there. -/
def fault? (d : Description σ) : Option (Fault σ) :=
  if d.states = 0 then some .noStates
  else if d.states ≤ d.start then some (.startOutOfRange d.start d.states)
  else (d.named.find? (d.states ≤ ·)).map (.stateOutOfRange · d.states)

end Description

end FiniteState
