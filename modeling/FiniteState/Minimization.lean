import FiniteState.Partition

/-!
# Minimization

One state for each class of indistinguishable states. Classes are
numbered by their smallest members, and a class moves as its
representative does; as no word tells the members of a class apart, any
member would do. States that no run reaches take part like all others.
-/

namespace FiniteState

namespace Dfa

variable {σ : Type} [Alphabet σ]

/-- The automaton on some classes of states, of which one row each is
taken from a representative. -/
def quotient (d : Dfa σ) (groups : List (List State)) (representatives : Array State) : Dfa σ :=
  let numbers := UnionFind.groupNumbers d.states groups
  let classOf := fun q => numbers.getD q 0
  { rows := representatives.map fun q => (d.row q).map classOf
    start := classOf d.start
    finals := d.finals.image classOf }

/-- The automaton with indistinguishable states collapsed into one, with
the events on the way. -/
def minimize (separateFinals : Bool) (d : Dfa σ) : Logged (Dfa σ) :=
  let ⟨u, events⟩ := d.partition separateFinals
  let (groups, u) := u.groups
  let (representatives, _) := u.representatives
  let m := d.quotient groups representatives
  ⟨m, events ++ [.minimized d.states m.states]⟩

end Dfa

end FiniteState
