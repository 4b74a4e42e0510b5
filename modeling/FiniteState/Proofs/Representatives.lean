import FiniteState.Proofs.ExactRound
import FiniteState.Proofs.Minimization

/-!
# Representatives are smallest members

The representative of a class is the root of a tree, and which element that is depends on
how the class was joined. In a partition that refinement returns it is the smallest member
of the class. The initial split merges two ascending lists without common states
(`grown_blocks`), and a round starts from single states again and joins states to smaller
leaders, whatever the roots of the partition before it (`Partitions.grown_refine`). What
the loop returns went through one more round, but that only asked it for its classes
(`grown_stabilize`).

So the representatives of the classes ascend, like the smallest members by which classes
are numbered, and the row that minimization takes for a class is that of its smallest
member. No word has to be looked at for this, and no automaton to be well-formed.
-/

namespace FiniteState

namespace Dfa

open UnionFind

variable {σ : Type} [Alphabet σ] {d : Dfa σ} {u : UnionFind}

theorem grown_blocks (separateFinals : Bool) (d : Dfa σ) :
    Grown d.states (List.range d.states) (d.blocks separateFinals) := by
  unfold blocks
  dsimp only
  rw [List.partition_eq_filter_filter]
  dsimp only
  have hothers := (grown_singletons d.states).merge <| fresh_filter_range
    (f := Bool.not ∘ ((d.finals.flags d.states).getD · false)) fun _ _ => List.not_mem_nil
  rw [List.append_nil] at hothers
  cases separateFinals with
  | true => exact hothers.mono (List.filter_subset_self _)
  | false =>
      refine (hothers.merge (fresh_filter_range fun x hx hmem => ?_)).mono ?_
      · have hnot := List.of_mem_filter hmem
        rw [Function.comp_apply, hx] at hnot
        cases hnot
      · exact List.append_subset.mpr ⟨List.filter_subset_self _, List.filter_subset_self _⟩

theorem partitions_of_grown {touched : List State} (hu : Grown d.states touched u) :
    Partitions u d := ⟨hu.sound, hu.elements_eq⟩

/-- The partition that is returned is the one before the last round. -/
theorem grown_stabilize (hu : Grown d.states (List.range d.states) u) :
    Grown d.states (List.range d.states) (d.stabilize u).1 := by
  induction u using Dfa.stabilize.induct d with
  | case1 u next u' hrefine hlt _ _ _ ih =>
      have hnext := (partitions_of_grown hu).grown_refine
      rw [hrefine] at hnext
      rw [stabilize_fst hrefine, if_pos hlt]
      exact ih hnext
  | case2 u next u' hrefine hle =>
      obtain rfl : (d.refine u).2 = u' := congrArg Prod.snd hrefine
      -- the last round has only asked for roots and groups
      rw [stabilize_fst hrefine, if_neg hle, snd_refine]
      exact (hu.query rfl).query rfl

theorem grown_partition (separateFinals : Bool) (d : Dfa σ) :
    Grown d.states (List.range d.states) (d.partition separateFinals).value :=
  grown_stabilize (d.grown_blocks separateFinals)

/-- **Representatives are smallest members.** Whatever accepting states are kept apart,
looking up a state in the partition that refinement returns finds the smallest state of
its class. The representatives of the listed classes ascend. The minimized automaton has
one state for each of the classes, and the row of this state is that of the smallest
member of the class, with the number of its class for every target. -/
theorem representatives_are_least (separateFinals : Bool) (d : Dfa σ) :
    let u := (d.partition separateFinals).value
    let groups := u.groups.1
    let reps := u.representatives.1.toList
    let m := (d.minimize separateFinals).value
    (∀ x : Fin d.states, IsLeast {y | y < d.states ∧ (u.sameClass x y).1 = true} (u.find x).1) ∧
      reps.Pairwise (· < ·) ∧
      (reps.length = groups.length ∧ m.states = groups.length) ∧
      ∃ number : State → Nat,
        (∀ q : Fin d.states, ∃ g, groups[number q]? = some g ∧ (q : State) ∈ g) ∧
        ∀ (i : Nat) g, groups[i]? = some g → ∃ f, IsLeast {y | y ∈ g} f ∧ reps[i]? = some f ∧
          m.rows[i]? = some ((d.row f).map number) := by
  intro u groups reps m
  have hu : Grown d.states (List.range d.states) u := d.grown_partition separateFinals
  have hfirsts : reps = u.firsts := hu.representatives_eq
  have hgroups : groups.length = u.firsts.length := by
    show u.groups.1.length = _
    rw [hu.sound.groups_eq, List.length_map]
  obtain ⟨number, hnumber, hm⟩ := (partitions_of_grown hu).quotient
  have hrows : m.rows = (u.firsts.map fun f => (d.row (u.root f)).map number).toArray :=
    congrArg Dfa.rows hm
  refine ⟨fun x => ?_, ?_, ⟨?_, ?_⟩, number, fun q => ?_, fun i g hg => ?_⟩
  · simp only [(hu.sound.sameClass _ _).1]
    exact hu.isLeast_root x.isLt
  · rw [hfirsts]
    exact u.sorted_firsts
  · rw [hfirsts, hgroups]
  · rw [Dfa.states, hrows, List.size_toArray, List.length_map, hgroups]
  · exact (hu.sound.exists_group_iff (hu.elements_eq.symm ▸ q.isLt)).mpr (hnumber q q.isLt).symm
  · obtain ⟨f, hf, hleast, hroot⟩ := hu.exists_first_of_group hg
    refine ⟨f, hleast, hfirsts ▸ hf, ?_⟩
    rw [hrows, List.getElem?_toArray, List.getElem?_map, hf, Option.map_some, hroot]

end Dfa

end FiniteState
