import FiniteState.Dfa.Basic
import FiniteState.Nfa.Build

/-!
# Between the two kinds of automata

Every deterministic automaton is a nondeterministic one whose moves have
one target each (`toNfa`). The way back (`ofNfa`) succeeds exactly where
nothing is left open: no state has an epsilon move, and every symbol
remembered for a state has one target. Otherwise the fault is that of the
first state which leaves something open, its epsilon moves before its
symbols.

A deterministic automaton is made from a description by way of the
nondeterministic one. Labels are looked at beforehand, since an epsilon
entry without targets would leave nothing behind to refuse.
-/

namespace FiniteState

variable {σ : Type} [Alphabet σ]

/-- What a node leaves open: an epsilon move, or else the first symbol
that does not have exactly one target. -/
def Nfa.Node.fault? (v : Nfa.Node σ) (origin : State) : Option (Fault σ) :=
  if v.epsilon.isEmpty then
    v.moves.toList.findSome? fun (a, s) =>
      if s.size = 1 then none else some (.nonDeterministic origin a s.size)
  else some (.epsilonTransition origin)

/-- What the first state leaves open that leaves anything open. -/
def Nfa.nondeterminism? (n : Nfa σ) : Option (Fault σ) :=
  n.nodes.toList.zipIdx.findSome? fun (v, q) => v.fault? q

namespace Dfa

/-- The moves with one target of an automaton. -/
def ofSoleTargets (n : Nfa σ) : Dfa σ where
  rows := n.nodes.map fun v => v.moves.filterMap SortedSet.sole?
  start := n.start
  finals := n.finals

/-- A nondeterministic automaton that leaves nothing open, as a
deterministic one. -/
def ofNfa (n : Nfa σ) : Except (Fault σ) (Dfa σ) :=
  match n.nondeterminism? with
  | some f => .error f
  | none => .ok (ofSoleTargets n)

def toNfa (d : Dfa σ) : Nfa σ where
  nodes := d.rows.map fun r => { moves := r.map SortedSet.singleton }
  start := d.start
  finals := d.finals

/-- The automaton that a description describes, or why it describes
none. -/
def build (d : Description σ) : Except (Fault σ) (Dfa σ) :=
  match d.entries.find? fun e => (Alphabet.visible? e.label).isNone with
  | some e => .error (.epsilonTransition e.origin)
  | none =>
    match Nfa.build d with
    | .error f => .error f
    | .ok n => ofNfa n

/-- The automaton with the moves of a table. -/
def ofTable (states : Nat) (finals : List State) (moves : List (Move σ)) (start : State) :
    Except (Fault σ) (Dfa σ) :=
  build ⟨states, finals, moves.map Move.entry, start⟩

end Dfa

end FiniteState
