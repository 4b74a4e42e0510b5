import FiniteState.Nfa.Basic

/-!
# Combining automata

The automata of the regular operations. The smallest ones have a single
move. The others lay their operands side by side in one space of states
and join them with epsilon moves: an operand keeps its moves and its
numbering up to an offset, and its accepting states get further epsilon
moves - the *exits* - to wherever the combination continues. No operand
keeps its accepting states; the combination accepts in one fresh state,
which comes last.
-/

namespace FiniteState

namespace Nfa

variable {σ : Type} [Alphabet σ]

/-! ## One move -/

/-- Two states and the one move between them under a label. -/
def oneMove (label : Option σ) : Nfa σ where
  nodes := #[Node.add {} label [1], {}]
  start := 0
  finals := .singleton 1

/-- Accepts exactly the word of one symbol; the empty word, if the symbol
consumes nothing. -/
def symbol (a : σ) : Nfa σ := oneMove (some a)

/-- Accepts only the empty word. -/
def emptyWord : Nfa σ := oneMove none

/-! ## Laying operands side by side -/

/-- The moves of a node with all targets renumbered by an offset. -/
def Node.shift (offset : Nat) (v : Node σ) : Node σ where
  epsilon := v.epsilon.image (· + offset)
  moves := v.moves.map fun s => s.image (· + offset)

/-- A node with further epsilon moves. -/
def Node.withExits (exits : StateSet) (v : Node σ) : Node σ :=
  { v with epsilon := exits ∪ v.epsilon }

/-- The nodes of an operand, renumbered by an offset, with exits from its
accepting states. -/
def embed (n : Nfa σ) (offset : Nat) (exits : StateSet) : Array (Node σ) :=
  let table := n.finals.flags n.states
  n.nodes.mapIdx fun q v =>
    if table.getD q false then (v.shift offset).withExits exits else v.shift offset

/-! ## The regular operations -/

/-- Accepts what one of two automata accepts. A fresh start comes first,
then `n`, then `m`, then the fresh accepting state. -/
def union (n m : Nfa σ) : Nfa σ :=
  let offset := 1 + n.states
  let last := offset + m.states
  { nodes := #[{ epsilon := .ofList [n.start + 1, m.start + offset] }]
      ++ n.embed 1 (.singleton last) ++ m.embed offset (.singleton last) ++ #[{}]
    start := 0
    finals := .singleton last }

/-- Accepts a word of `n` followed by a word of `m`. The states of `n`
keep their numbers, those of `m` follow, then the fresh accepting
state. -/
def concatenate (n m : Nfa σ) : Nfa σ :=
  let offset := n.states
  let last := offset + m.states
  { nodes := n.embed 0 (.singleton (m.start + offset))
      ++ m.embed offset (.singleton last) ++ #[{}]
    start := n.start
    finals := .singleton last }

/-- Accepts any number of words of `n`, one after the other. A fresh start
comes first, then `n`, whose accepting states lead back to its start as
well as on, then the fresh accepting state. -/
def star (n : Nfa σ) : Nfa σ :=
  let last := 1 + n.states
  let onward : StateSet := .ofList [n.start + 1, last]
  { nodes := #[{ epsilon := onward }] ++ n.embed 1 onward ++ #[{}]
    start := 0
    finals := .singleton last }

end Nfa

end FiniteState
