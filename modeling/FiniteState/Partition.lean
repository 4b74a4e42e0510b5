import FiniteState.Dfa.Basic
import FiniteState.Event
import FiniteState.UnionFind.Groups

/-!
# Indistinguishable states

The partition of the states of a deterministic automaton into classes
that no word tells apart. It starts from the split into accepting and
other states and is refined in rounds. A round separates two states of a
class that move into different classes on some symbol, where having no
move differs from every class. When a round splits nothing the partition
is stable.

On request every accepting state starts in a block of its own, and then
is never joined with another.

Rounds end because each but the last makes more classes, and there are at
most as many classes as states.
-/

namespace FiniteState

namespace Dfa

variable {σ : Type} [Alphabet σ]

/-- The split that refinement starts from. -/
def blocks (separateFinals : Bool) (d : Dfa σ) : UnionFind :=
  let table := d.finals.flags d.states
  let (accepting, others) := (List.range d.states).partition (table.getD · false)
  let u := (UnionFind.singletons d.states).merge others
  if separateFinals then u else u.merge accepting

/-- How a state moves: its row, with the class for each state that it
leads to. -/
def signature (d : Dfa σ) (classOf : State → Nat) (q : State) : SortedMap σ Nat :=
  (d.row q).map classOf

/-- One round: every class is split into the states that move alike.
Returns the new partition, and the old one with its paths shortened. -/
def refine (d : Dfa σ) (u : UnionFind) : UnionFind × UnionFind :=
  let (roots, u) := u.findAll
  let (groups, u) := u.groups
  let signature := d.signature fun q => roots.getD q q
  let split := fun next group => UnionFind.joinAlike signature ∅ group next
  (groups.foldl split (.singletons d.states), u)

theorem classes_refine_le (d : Dfa σ) (u : UnionFind) : (d.refine u).1.classes ≤ d.states := by
  have h (key : State → SortedMap σ Nat) : ∀ (groups : List (List State)) u,
      (groups.foldl (fun next group => UnionFind.joinAlike key ∅ group next) u).classes
        ≤ u.classes := by
    intro groups
    induction groups with
    | nil => exact fun u => Nat.le_refl _
    | cons group groups ih =>
      exact fun u => Nat.le_trans (ih _) (UnionFind.classes_joinAlike_le key ∅ group u)
  exact h _ _ (.singletons d.states)

/-- Refines a partition until a round splits nothing. Returns the stable
partition and the number of classes after every round. -/
def stabilize (d : Dfa σ) (u : UnionFind) : UnionFind × List Nat :=
  match _ : d.refine u with
  | (next, u') =>
    if u.classes < next.classes then
      let (stable, counts) := d.stabilize next
      (stable, next.classes :: counts)
    else (u', [next.classes])
termination_by d.states - u.classes
decreasing_by
  have hle : next.classes ≤ d.states := by
    simpa only [‹d.refine u = _›] using d.classes_refine_le u
  omega

/-- The partition of the states into those that no word tells apart, with
the events of its rounds. -/
def partition (separateFinals : Bool) (d : Dfa σ) : Logged UnionFind :=
  let (stable, counts) := d.stabilize (d.blocks separateFinals)
  ⟨stable, counts.mapIdx (fun i classes => .refined (i + 1) classes)
    ++ [.partitionStable counts.length stable.classes]⟩

end Dfa

end FiniteState
