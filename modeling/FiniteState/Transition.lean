import FiniteState.Alphabet
import FiniteState.State

/-!
# Transitions, listed

How transitions are written down outside an automaton: as entries that
name an origin, a label and any number of targets, or, where every label
is a symbol with one target, as single moves.
-/

namespace FiniteState

/-- All that one line of a description says: the moves from one state
under one label. No label means that the move consumes nothing. -/
structure Entry (σ : Type) where
  origin : State
  label : Option σ
  targets : List State
deriving DecidableEq

/-- A move from one state to one state that consumes a symbol. -/
structure Move (σ : Type) where
  origin : State
  symbol : σ
  target : State
deriving DecidableEq

/-- A move as an entry with one target. -/
def Move.entry {σ : Type} (m : Move σ) : Entry σ := ⟨m.origin, some m.symbol, [m.target]⟩

end FiniteState
