import FiniteState.Description
import FiniteState.Nfa.Basic

/-!
# Making a nondeterministic automaton

An automaton is made from a description by adding its entries, one after
the other, to nodes without moves. Entries for the same origin and label
add up, in whatever order they come; an entry without targets is
remembered as a symbol without targets. Nothing is made of a description
with a fault.
-/

namespace FiniteState

namespace Nfa

variable {σ : Type} [Alphabet σ]

/-- Adds the moves of one entry to the node of its origin. -/
def addEntry (nodes : Array (Node σ)) (e : Entry σ) : Array (Node σ) :=
  nodes.modify e.origin fun v => v.add e.label e.targets

/-- The automaton that a description without fault describes. -/
def assemble (d : Description σ) : Nfa σ where
  nodes := d.entries.foldl addEntry (.replicate d.states {})
  start := d.start
  finals := .ofList d.finals

/-- The automaton that a description describes, or the first fault of
the description. -/
def build (d : Description σ) : Except (Fault σ) (Nfa σ) :=
  match d.fault? with
  | some f => .error f
  | none => .ok (assemble d)

/-- The description that lists an automaton. -/
def description (n : Nfa σ) : Description σ :=
  ⟨n.states, n.finals.toList, n.entries, n.start⟩

end Nfa

end FiniteState
