import FiniteState.Machine
import FiniteState.Sorted.Map
import FiniteState.Transition

/-!
# Deterministic automata

An automaton that is in one state at a time and moves only by symbols,
to at most one state on each. It is kept as one row for each state, with
the moves of the state in the order of their symbols. A move that is not
there leads nowhere, and a run that needs it is undefined from then on.
-/

namespace FiniteState

/-- A deterministic automaton, possibly with moves left undefined. -/
structure Dfa (σ : Type) [Alphabet σ] where
  rows : Array (SortedMap σ State)
  start : State
  finals : StateSet
deriving DecidableEq

namespace Dfa

variable {σ : Type} [Alphabet σ]

/-! ## The view of an automaton -/

def states (d : Dfa σ) : Nat := d.rows.size

/-- The moves of a state; none where there is no such state. -/
def row (d : Dfa σ) (q : State) : SortedMap σ State := d.rows.getD q ∅

/-- Where a state moves on a symbol. -/
def step (d : Dfa σ) (q : State) (a : σ) : Option State := (d.row q).get? a

def vocabulary (d : Dfa σ) : SortedSet σ :=
  .ofList <| d.rows.toList.flatMap fun r => r.keys.toList

/-- Every move, by origin and then by symbol. -/
def moves (d : Dfa σ) : List (Move σ) :=
  d.rows.toList.zipIdx.flatMap fun (r, q) => r.toList.map fun (a, p) => ⟨q, a, p⟩

instance : Machine (Dfa σ) σ where
  states := states
  start := start
  finals := finals
  vocabulary := vocabulary
  targets d q a :=
    match d.step q a with
    | some p => .singleton p
    | none => ∅
  epsilonTargets _ _ := ∅
  epsilonTargets_bounded _ := ⟨[], fun _ _ h => h⟩

/-! ## Reading words -/

/-- The state in which the run from a state on a word ends. -/
def runFrom (d : Dfa σ) (q : State) : List σ → Option State
  | [] => some q
  | a :: w => (d.step q a).bind fun p => d.runFrom p w

/-- The state in which the run on a word ends. -/
def run (d : Dfa σ) (w : List σ) : Option State := d.runFrom d.start w

/-- Whether the automaton accepts a word: its run is defined and ends in
an accepting state. -/
def accepts (d : Dfa σ) (w : List σ) : Bool := (d.run w).any (· ∈ d.finals)

@[simp] theorem runFrom_nil (d : Dfa σ) (q : State) : d.runFrom q [] = some q := rfl

@[simp] theorem runFrom_cons (d : Dfa σ) (q : State) (a : σ) (w : List σ) :
    d.runFrom q (a :: w) = (d.step q a).bind fun p => d.runFrom p w := rfl

theorem runFrom_append (d : Dfa σ) (q : State) (u w : List σ) :
    d.runFrom q (u ++ w) = (d.runFrom q u).bind fun p => d.runFrom p w := by
  induction u generalizing q with
  | nil => rfl
  | cons a u ih =>
    simp only [List.cons_append, runFrom_cons, Option.bind_assoc]
    exact congrArg _ (funext ih)

end Dfa

end FiniteState
