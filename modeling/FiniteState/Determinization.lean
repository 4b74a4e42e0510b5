import FiniteState.Dfa.Basic
import FiniteState.Event
import FiniteState.Fault
import FiniteState.Nfa.Basic

/-!
# Subset construction

A deterministic automaton for a nondeterministic one. Its states are the
sets of states that the nondeterministic automaton can be in, found by a
breadth-first search from the initial set, which tries the symbols in
their order; the number of a set is its place in the order of meeting it.
The empty set is no state: where the automaton dies there is no move.

There may be exponentially many sets, so a limit can be given. The
construction then ends with a fault as soon as one more set is met than
the limit allows, having reported those up to the limit.
-/

namespace FiniteState

namespace Nfa

variable {σ : Type} [Alphabet σ]

/-! ## The sets that are met -/

/-- The sets that one more symbol can lead to, in the order of the
symbols, without the empty set. -/
def successors (n : Nfa σ) (symbols : SortedSet σ) (s : StateSet) : List StateSet :=
  (symbols.toList.map (n.advance s)).filter fun t => !t.isEmpty

/-- All states that occur in a node. -/
def Node.named (v : Node σ) : List State :=
  v.epsilon.toList ++ v.moves.values.flatMap SortedSet.toList

theorem epsilon_named {n : Nfa σ} {q p : State} (h : p ∈ (n.node q).epsilon) :
    p ∈ n.nodes.toList.flatMap Node.named := by
  rcases n.node_mem_or_eq q with hq | hq
  · exact List.mem_flatMap.mpr ⟨_, hq.val, List.mem_append_left _ h⟩
  · rw [hq] at h
    exact absurd h SortedSet.not_mem_empty

theorem targets_named {n : Nfa σ} {q p : State} {a : σ} (h : p ∈ (n.node q).targets a) :
    p ∈ n.nodes.toList.flatMap Node.named := by
  rcases n.node_mem_or_eq q with hq | hq
  · refine List.mem_flatMap.mpr ⟨_, hq.val, List.mem_append_right _ ?_⟩
    unfold Node.targets at h
    cases hs : (n.node q).moves.get? a with
    | none => simp [hs] at h
    | some s =>
      rw [hs] at h
      exact List.mem_flatMap.mpr ⟨s, SortedMap.mem_values.mpr ⟨a, hs⟩, h⟩
  · rw [hq] at h
    exact absurd h SortedSet.not_mem_empty

theorem advance_named {n : Nfa σ} {s : StateSet} {a : σ} {p : State} (h : p ∈ n.advance s a) :
    p ∈ n.nodes.toList.flatMap Node.named := by
  obtain ⟨q, hq, hqp⟩ := Machine.mem_closure.mp h
  induction hqp with
  | refl =>
    obtain ⟨r, _, hr⟩ := Machine.mem_moveOn.mp hq
    exact targets_named hr
  | step _ hz _ => exact epsilon_named hz

theorem successors_bounded (n : Nfa σ) (symbols : SortedSet σ) :
    Search.Bounded (n.successors symbols) := by
  obtain ⟨all, hall⟩ := SortedSet.exists_all_within (n.nodes.toList.flatMap Node.named)
  refine ⟨all, fun s t ht => ?_⟩
  obtain ⟨ht, _⟩ := List.mem_filter.mp ht
  obtain ⟨a, _, rfl⟩ := List.mem_map.mp ht
  exact hall _ fun p hp => advance_named hp

/-- The sets that subset construction meets, in the order of their
numbers. Under a limit the search may stop early, once it has met more
sets than the limit allows. -/
def subsets (n : Nfa σ) (limit : Option Nat) : Numbering StateSet :=
  let symbols := n.vocabulary
  Search.search (Queue StateSet) limit (n.successors symbols) (n.successors_bounded symbols)
    [n.initial]

/-! ## The automaton on the sets -/

/-- The deterministic automaton whose states are the numbers of some
sets, the first of which it starts from. -/
def onSubsets (n : Nfa σ) (found : Numbering StateSet) : Dfa σ :=
  let symbols := n.vocabulary
  { rows := found.items.map fun s => .ofKeys symbols fun a => found.number? (n.advance s a)
    start := 0
    finals := .ofList <| (found.toList.zipIdx.filter fun (s, _) => s.meets n.finals).map (·.2) }

/-- The deterministic automaton that accepts the same words. -/
def toDfa (n : Nfa σ) : Dfa σ := n.onSubsets (n.subsets none)

/-- Subset construction under a limit on the number of states, with its
events. -/
def determinize (limit : Option Nat) (n : Nfa σ) : Logged (Except (Fault σ) (Dfa σ)) :=
  let found := n.subsets limit
  let report := found.toList.mapIdx .subsetFound
  match limit.filter (· < found.size) with
  | some l => ⟨.error (.stateLimitExceeded l), report.take l⟩
  | none => ⟨.ok (n.onSubsets found), report ++ [.subsetsExhausted n.states found.size]⟩

end Nfa

end FiniteState
