import FiniteState.Dfa.Convert
import FiniteState.Proofs.Canonical
import FiniteState.Proofs.Dfa.Image
import FiniteState.Proofs.Pruning

/-!
# Determinizing what is deterministic

Taken as a nondeterministic automaton, a deterministic one is alive in one
state at most, that in which its run is (`mem_live_toNfa`). Subset
construction then has only sets of one member to number, and what it makes
has the runs of the original (`sameRuns_toDfa_toNfa`). So has the pruned
original, though the sets are numbered as a breadth-first search meets them
and pruning keeps the order of the old numbers. Neither has a state that no
run reaches, hence the two differ in the names of states alone.

An automaton that subset construction has made is numbered by least words
already. Making it again gives an automaton with the same runs that is so
numbered too, and there is only one. The symbols that the search tries on
the way do not enter into this, so it is no matter if those have become
fewer on which no state moves.
-/

namespace FiniteState

namespace Dfa

variable {σ : Type} [Alphabet σ] {d : Dfa σ} {p q : State} {a : σ} {w : List σ}
  {i : Nat}

/-! ## Live states -/

theorem node_toNfa (d : Dfa σ) (q : State) :
    d.toNfa.node q = { moves := (d.row q).map SortedSet.singleton } := by
  rw [Nfa.node, row, Array.getD_eq_getD_getElem?, Array.getD_eq_getD_getElem?, toNfa,
    Array.getElem?_map]
  cases d.rows[q]? <;> rfl

theorem not_mem_epsilon_toNfa : ¬ p ∈ (d.toNfa.node q).epsilon := by
  rw [node_toNfa]
  exact SortedSet.not_mem_empty

theorem mem_targets_toNfa : p ∈ (d.toNfa.node q).targets a ↔ d.step q a = some p := by
  rw [node_toNfa, Nfa.Node.targets, SortedMap.get?_map, ← step]
  cases d.step q a with
  | none => exact iff_of_false SortedSet.not_mem_empty (Option.some_ne_none _).symm
  | some r =>
      rw [Option.some.injEq, eq_comm]
      exact SortedSet.mem_singleton

/-- The only path that reads a word is the run. -/
theorem path_toNfa_iff : d.toNfa.Path d.start w p ↔ d.run w = some p := by
  constructor
  · intro h
    induction h with
    | refl => rfl
    | silent _ hr _ => exact absurd hr not_mem_epsilon_toNfa
    | move _ hr ih => rw [run_concat, ih, Option.bind_some, mem_targets_toNfa.mp hr]
  · intro h
    induction w using List.reverseRecOn generalizing p with
    | nil =>
        obtain rfl := Option.some.inj h
        exact .refl
    | append_singleton w a ih =>
        rw [run_concat] at h
        obtain ⟨q, hq, hp⟩ := Option.bind_eq_some_iff.mp h
        exact (ih hq).move (mem_targets_toNfa.mpr hp)

theorem mem_live_toNfa : p ∈ d.toNfa.live w ↔ d.run w = some p :=
  Nfa.mem_live_iff.trans path_toNfa_iff

theorem live_toNfa_of_run (h : d.run w = some q) : d.toNfa.live w = .singleton q := by
  refine SortedSet.ext fun p => ?_
  rw [mem_live_toNfa, SortedSet.mem_singleton, h, Option.some.injEq, eq_comm]

theorem live_toNfa_of_run_eq_none (h : d.run w = none) : d.toNfa.live w = ∅ := by
  refine SortedSet.eq_empty_iff.mpr fun p hp => ?_
  rw [mem_live_toNfa, h] at hp
  cases hp

/-! ## Subset construction -/

/-- The number of the set that has a state as its one member. -/
def soleNumber (d : Dfa σ) (q : State) : Option Nat :=
  (d.toNfa.subsets none).number? (.singleton q)

theorem run_toDfa_toNfa (d : Dfa σ) (w : List σ) :
    d.toNfa.toDfa.run w = (d.run w).bind d.soleNumber := by
  rw [Nfa.run_toDfa]
  cases hw : d.run w with
  | none => rw [live_toNfa_of_run_eq_none hw, Nfa.number?_empty, Option.bind_none]
  | some q => rw [live_toNfa_of_run hw, Option.bind_some, soleNumber]

theorem isSome_soleNumber (h : d.run w = some q) : (d.soleNumber q).isSome = true := by
  have hne : SortedSet.singleton q ≠ ∅ := fun hempty =>
    SortedSet.eq_empty_iff.mp hempty q (SortedSet.mem_singleton.mpr rfl)
  exact Numbering.isSome_number?.mpr (Nfa.mem_subsets.mpr ⟨w, live_toNfa_of_run h, hne⟩)

theorem soleNumber_inj (hp : d.soleNumber p = some i) (hq : d.soleNumber q = some i) : p = q :=
  SortedSet.mem_singleton.mp
    (Numbering.number?_inj hp hq ▸ SortedSet.mem_singleton.mpr rfl)

theorem mem_finals_toDfa_toNfa (h : d.soleNumber q = some i) :
    i ∈ d.toNfa.toDfa.finals ↔ q ∈ d.finals := by
  rw [Nfa.mem_finals_toDfa]
  constructor
  · rintro ⟨s, hs, hmeets⟩
    obtain ⟨p, hp, hfinal⟩ := SortedSet.meets_iff.mp hmeets
    rw [Numbering.number?_inj hs h, SortedSet.mem_singleton] at hp
    rwa [← hp]
  · intro hfinal
    exact ⟨_, h, SortedSet.meets_iff.mpr ⟨q, SortedSet.mem_singleton.mpr rfl, hfinal⟩⟩

/-- Subset construction changes nothing that the runs of a deterministic
automaton can show. -/
theorem sameRuns_toDfa_toNfa (d : Dfa σ) : SameRuns d d.toNfa.toDfa :=
  .of_bind d.run_toDfa_toNfa (fun _ _ => isSome_soleNumber) (fun _ _ _ => soleNumber_inj)
    fun _ _ => mem_finals_toDfa_toNfa

/-- **Determinizing what is deterministic.** Subset construction makes of a
deterministic automaton one that is isomorphic to what pruning makes of it.
Of an automaton that subset construction has made, it makes the same one
again, numbers included. -/
theorem redeterminize_isomorphic_prune (d : Dfa σ) (n : Nfa σ) :
    Isomorphic d.toNfa.toDfa d.prune ∧ n.toDfa.toNfa.toDfa = n.toDfa := by
  constructor
  · have hsame : SameRuns d.toNfa.toDfa d.prune :=
      d.sameRuns_toDfa_toNfa.symm.trans d.sameRuns_prune
    exact hsame.isomorphic d.toNfa.wellFormed_toDfa d.wellFormed_prune
      d.toNfa.ordered_toDfa.reachable d.reachable_prune
  · exact eq_of_ordered n.toDfa.toNfa.wellFormed_toDfa n.wellFormed_toDfa
      n.toDfa.toNfa.ordered_toDfa n.ordered_toDfa n.toDfa.sameRuns_toDfa_toNfa.symm

end Dfa

end FiniteState
