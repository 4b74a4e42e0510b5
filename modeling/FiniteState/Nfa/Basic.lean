import FiniteState.Machine
import FiniteState.Sorted.Map
import FiniteState.Transition

/-!
# Nondeterministic automata

An automaton that may be in several states at once: a state has any
number of moves on a symbol, and epsilon moves beside them. It is kept as
one node for each state, and a node has the epsilon targets of its state
and a row of moves in the order of the symbols.

A row may hold a symbol without targets. It changes no move, so neither
`vocabulary` nor `entries` shows it, but automata that differ in it are
different.

A word is read by following the set of all states the automaton can be
in (`live`), closed under epsilon moves after every symbol.
-/

namespace FiniteState

/-- The moves of one state of a nondeterministic automaton. -/
structure Nfa.Node (σ : Type) [Alphabet σ] where
  epsilon : StateSet := ∅
  moves : SortedMap σ StateSet := ∅
deriving DecidableEq

/-- A nondeterministic automaton with epsilon moves. -/
structure Nfa (σ : Type) [Alphabet σ] where
  nodes : Array (Nfa.Node σ)
  start : State
  finals : StateSet
deriving DecidableEq

namespace Nfa

variable {σ : Type} [Alphabet σ]

/-! ## Nodes -/

namespace Node

instance : Inhabited (Node σ) := ⟨{}⟩

def targets (v : Node σ) (a : σ) : StateSet := (v.moves.get? a).getD ∅

/-- The symbols with a target, each with its targets. -/
def proper (v : Node σ) : List (σ × StateSet) :=
  v.moves.toList.filter fun e => !e.2.isEmpty

/-- The node as entries of a description: the epsilon moves first, then
the symbols in order, and nothing that has no target. -/
def entries (v : Node σ) (origin : State) : List (Entry σ) :=
  let silent := if v.epsilon.isEmpty then [] else [⟨origin, none, v.epsilon.toList⟩]
  silent ++ v.proper.map fun (a, s) => ⟨origin, some a, s.toList⟩

/-- Adds moves to some targets under a label. -/
def add (v : Node σ) (label : Option σ) (targets : List State) : Node σ :=
  match Alphabet.visible? label with
  | none => { v with epsilon := .ofList targets ∪ v.epsilon }
  | some a => { v with moves := v.moves.alter a fun s => .ofList targets ∪ s.getD ∅ }

end Node

/-! ## The view of an automaton -/

def states (n : Nfa σ) : Nat := n.nodes.size

/-- The node of a state; one without moves where there is no such state. -/
def node (n : Nfa σ) (q : State) : Node σ := n.nodes.getD q default

theorem node_mem_or_eq (n : Nfa σ) (q : State) : n.node q ∈ n.nodes ∨ n.node q = default := by
  unfold node
  by_cases h : q < n.nodes.size
  · rw [Array.getD_eq_getD_getElem?, Array.getElem?_eq_getElem h]
    exact .inl (Array.getElem_mem h)
  · rw [Array.getD_eq_getD_getElem?, Array.getElem?_eq_none (Nat.le_of_not_lt h)]
    exact .inr rfl

def vocabulary (n : Nfa σ) : SortedSet σ :=
  .ofList <| n.nodes.toList.flatMap fun v => v.proper.map (·.1)

/-- Every transition, by origin, epsilon moves before symbols. -/
def entries (n : Nfa σ) : List (Entry σ) :=
  n.nodes.toList.zipIdx.flatMap fun (v, q) => v.entries q

theorem epsilon_bounded (n : Nfa σ) : Search.Bounded fun q => (n.node q).epsilon.toList := by
  refine ⟨n.nodes.toList.flatMap fun v => v.epsilon.toList, fun q p hp => ?_⟩
  rcases n.node_mem_or_eq q with h | h
  · exact List.mem_flatMap.mpr ⟨_, h.val, hp⟩
  · simp only [h] at hp
    exact absurd hp List.not_mem_nil

instance : Machine (Nfa σ) σ where
  states := states
  start := start
  finals := finals
  vocabulary := vocabulary
  targets n q a := (n.node q).targets a
  epsilonTargets n q := (n.node q).epsilon
  epsilonTargets_bounded := epsilon_bounded

/-! ## Reading words -/

/-- The states the automaton can be in before it reads anything. -/
def initial (n : Nfa σ) : StateSet := Machine.closure n (.singleton n.start)

/-- The states the automaton can be in after one more symbol. -/
def advance (n : Nfa σ) (s : StateSet) (a : σ) : StateSet :=
  Machine.closure n (Machine.moveOn n s a)

/-- The states the automaton can be in after a word. -/
def live (n : Nfa σ) (w : List σ) : StateSet := w.foldl n.advance n.initial

/-- Whether the automaton accepts a word. -/
def accepts (n : Nfa σ) (w : List σ) : Bool := (n.live w).meets n.finals

end Nfa

end FiniteState
