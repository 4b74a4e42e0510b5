import FiniteState.State

/-!
# Events

What the constructions report while they run. A construction is a pure
function that returns its events beside its result, in the order in which
they happen; an event is data, and its level, message and fields are read
off it.
-/

namespace FiniteState

/-- How much detail an event is. -/
inductive Level where
  | trace
  | debug
deriving DecidableEq

/-- One step that a construction reports. -/
inductive Event where
  /-- Subset construction met a set of states for the first time. -/
  | subsetFound (id : State) (members : StateSet)
  /-- Subset construction has met every set that it can reach. -/
  | subsetsExhausted (nfaStates dfaStates : Nat)
  /-- A round of refinement ended with this many classes. -/
  | refined (round classes : Nat)
  /-- The last round split nothing. -/
  | partitionStable (rounds classes : Nat)
  /-- An automaton was collapsed to one state for each class. -/
  | minimized (states classes : Nat)
deriving DecidableEq

/-- The value of a field of an event. -/
inductive Event.Field where
  | number (n : Nat)
  | text (s : String)
deriving DecidableEq

namespace Event

def level : Event → Level
  | subsetFound .. | refined .. => .trace
  | subsetsExhausted .. | partitionStable .. | minimized .. => .debug

def message : Event → String
  | subsetFound .. => "new dfa state"
  | subsetsExhausted .. => "subset construction finished"
  | refined .. => "refinement round"
  | partitionStable .. => "partition stable"
  | minimized .. => "dfa minimized"

/-- The named values that an event carries beside its message. Counts of
states and classes are numbers; a round is a label and is written as
text. -/
def fields : Event → List (String × Field)
  | subsetFound id members => [("id", .number id), ("states", .text (StateSet.text members))]
  | subsetsExhausted nfaStates dfaStates =>
    [("nfa_states", .number nfaStates), ("dfa_states", .number dfaStates)]
  | refined round classes => [("round", .text (toString round)), ("classes", .number classes)]
  | partitionStable rounds classes =>
    [("rounds", .text (toString rounds)), ("classes", .number classes)]
  | minimized states classes => [("states", .number states), ("minimized", .number classes)]

end Event

/-- A result together with the events on the way to it. -/
structure Logged (α : Type) where
  value : α
  events : List Event
deriving DecidableEq

end FiniteState
