import FiniteState.Partition
import FiniteState.Proofs.Dfa.Indistinguishable
import FiniteState.Proofs.UnionFind.Refinement

/-!
# The partition of indistinguishable states

Refinement computes indistinguishability. The initial split joins the
states of one block (`partitions_blocks`), and a round joins two states
exactly if they were joined and move into joined states
(`Partitions.refine`), which takes a partition of states that are alike
for `k` symbols to that for `k + 1` (`Partitions.joined_refine_alikeFor`).
So the partition reached after any number of rounds is known, whatever its
forest looks like. The loop stops when a round leaves the number of
classes as it was; by counting, that round has split nothing, so being
alike for the length reached is being alike for all lengths
(`Partitions.stabilize`).

`partitions_partition` is what the rest of the theory uses.
-/

namespace FiniteState

namespace Dfa

open UnionFind

variable {σ : Type} [Alphabet σ] {d : Dfa σ} {u : UnionFind} {separateFinals : Bool} {k : Nat}
  {p q : State}

/-- A partition of the states of an automaton. -/
structure Partitions (u : UnionFind) (d : Dfa σ) : Prop where
  sound : u.Sound
  elements_eq : u.elements = d.states

/-! ## The initial split -/

theorem mem_partition_flags (d : Dfa σ) (q : State) :
    (q ∈ ((List.range d.states).partition ((d.finals.flags d.states).getD · false)).1 ↔
        q < d.states ∧ q ∈ d.finals) ∧
      (q ∈ ((List.range d.states).partition ((d.finals.flags d.states).getD · false)).2 ↔
        q < d.states ∧ ¬ q ∈ d.finals) := by
  rw [List.partition_eq_filter_filter]
  simp only [List.mem_filter, List.mem_range, Function.comp_apply]
  constructor
  · refine and_congr_right fun hq => ?_
    rw [StateSet.getD_flags d.finals hq, decide_eq_true_eq]
  · refine and_congr_right fun hq => ?_
    rw [StateSet.getD_flags d.finals hq, Bool.not_eq_true', decide_eq_false_iff_not]

/-- The states that do not accept become one class, the others stay alone. -/
theorem partitions_merge_others {others : List State}
    (hothers : ∀ q, q ∈ others ↔ q < d.states ∧ ¬ q ∈ d.finals) :
    Partitions ((singletons d.states).merge others) d ∧ ∀ p q, p < d.states → q < d.states →
      (((singletons d.states).merge others).Joined p q ↔
        p = q ∨ ¬ p ∈ d.finals ∧ ¬ q ∈ d.finals) := by
  have helements := elements_singletons d.states
  obtain ⟨hsound, he, hjoined⟩ := (sound_singletons d.states).merge
    fun x (hx : x ∈ others) => helements.symm ▸ ((hothers x).mp hx).1
  refine ⟨⟨hsound, he.trans helements⟩, fun p q hp hq => ?_⟩
  rw [hjoined]
  simp [UnionFind.Joined, root_singletons, hothers, hp, hq]

/-- Then the accepting states become a class as well. -/
theorem Partitions.merge_accepting {accepting : List State} (hu : Partitions u d)
    (haccepting : ∀ q, q ∈ accepting ↔ q < d.states ∧ q ∈ d.finals)
    (hjoined : ∀ p q, p < d.states → q < d.states →
      (u.Joined p q ↔ p = q ∨ ¬ p ∈ d.finals ∧ ¬ q ∈ d.finals)) :
    Partitions (u.merge accepting) d ∧ ∀ p q, p < d.states → q < d.states →
      ((u.merge accepting).Joined p q ↔ (p ∈ d.finals ↔ q ∈ d.finals)) := by
  obtain ⟨hsound, he, hmerged⟩ := hu.sound.merge
    fun x (hx : x ∈ accepting) => hu.elements_eq ▸ ((haccepting x).mp hx).1
  have hfinal : ∀ p, p < d.states → ((∃ a ∈ accepting, u.Joined p a) ↔ p ∈ d.finals) := by
    intro p hp
    constructor
    · rintro ⟨a, ha, hpa⟩
      obtain ⟨halt, haf⟩ := (haccepting a).mp ha
      rcases (hjoined p a hp halt).mp hpa with rfl | ⟨_, hn⟩
      · exact haf
      · exact absurd haf hn
    · exact fun hpf => ⟨p, (haccepting p).mpr ⟨hp, hpf⟩, rfl⟩
  refine ⟨⟨hsound, he.trans hu.elements_eq⟩, fun p q hp hq => ?_⟩
  rw [hmerged, hjoined p q hp hq, hfinal p hp, hfinal q hq]
  by_cases hpf : p ∈ d.finals <;> by_cases hqf : q ∈ d.finals <;> simp [hpf, hqf]
  · exact fun h => hqf (h ▸ hpf)
  · exact fun h => hpf (h ▸ hqf)

theorem partitions_blocks (separateFinals : Bool) (d : Dfa σ) :
    Partitions (d.blocks separateFinals) d ∧ ∀ p q, p < d.states → q < d.states →
      ((d.blocks separateFinals).Joined p q ↔
        d.block separateFinals p = d.block separateFinals q) := by
  have hmem := d.mem_partition_flags
  unfold blocks
  dsimp only
  generalize (List.range d.states).partition ((d.finals.flags d.states).getD · false) = split
    at hmem
  obtain ⟨accepting, others⟩ := split
  dsimp only at hmem ⊢
  obtain ⟨hu, hothers⟩ := partitions_merge_others fun q => (hmem q).2
  cases separateFinals with
  | true =>
      refine ⟨hu, fun p q hp hq => (hothers p q hp hq).trans ?_⟩
      by_cases hpf : p ∈ d.finals <;> by_cases hqf : q ∈ d.finals <;> simp [block, hpf, hqf]
      · exact fun h => hqf (h ▸ hpf)
      · exact fun h => hpf (h ▸ hqf)
  | false =>
      obtain ⟨hv, hboth⟩ := hu.merge_accepting (fun q => (hmem q).1) hothers
      refine ⟨hv, fun p q hp hq => (hboth p q hp hq).trans ?_⟩
      by_cases hpf : p ∈ d.finals <;> by_cases hqf : q ∈ d.finals <;> simp [block, hpf, hqf]

/-! ## One round -/

theorem signature_eq_iff {f : State → Nat} :
    d.signature f p = d.signature f q ↔ ∀ a, (d.step p a).map f = (d.step q a).map f := by
  constructor
  · intro h a
    have := congrArg (·.get? a) h
    simpa [signature, step] using this
  · intro h
    refine SortedMap.ext fun a => ?_
    simpa [signature, step] using h a

theorem Partitions.fst_refine (hu : Partitions u d) : (d.refine u).1 =
    u.findAll.2.groups.1.foldl (fun next group => joinAlike (d.signature u.root) ∅ group next)
      (.singletons u.findAll.2.elements) := by
  have hclass : (fun q => u.findAll.1.getD q q) = u.root := funext hu.sound.getD_findAll
  rw [hu.sound.findAll.2.2.elements_eq, hu.elements_eq, ← hclass]
  rfl

theorem Partitions.refine (hu : Partitions u d) :
    Partitions (d.refine u).1 d ∧ Partitions (d.refine u).2 d ∧ (d.refine u).2.SameRoots u ∧
      ∀ p q, p < d.states → q < d.states →
        ((d.refine u).1.Joined p q ↔
          u.Joined p q ∧ ∀ a, (d.step p a).map u.root = (d.step q a).map u.root) := by
  obtain ⟨_, hsound, hsame⟩ := hu.sound.findAll
  have he := hsame.elements_eq.trans hu.elements_eq
  obtain ⟨hnext, hnexte, hjoined⟩ := hsound.split (d.signature u.root)
  obtain ⟨hold, holds⟩ := hsound.groups
  refine ⟨?_, ⟨hold, holds.elements_eq.trans he⟩, holds.trans hsame, fun p q hp hq => ?_⟩
  · rw [hu.fst_refine]
    exact ⟨hnext, hnexte.trans he⟩
  · rw [hu.fst_refine, hjoined p q (he ▸ hp) (he ▸ hq), hsame.joined_iff, signature_eq_iff]

/-- A round takes what is alike for `k` symbols to what is alike for one
more. -/
theorem Partitions.joined_refine_alikeFor (hd : d.WellFormed) (hu : Partitions u d)
    (hk : ∀ p q, p < d.states → q < d.states →
      (u.Joined p q ↔ d.AlikeFor separateFinals k p q))
    (hp : p < d.states) (hq : q < d.states) :
    (d.refine u).1.Joined p q ↔ d.AlikeFor separateFinals (k + 1) p q := by
  rw [hu.refine.2.2.2 p q hp hq, hk p q hp hq, alikeFor_succ_iff]
  have hmoves : (∀ a, (d.step p a).map u.root = (d.step q a).map u.root) ↔
      ∀ a, Option.Rel (d.AlikeFor separateFinals k) (d.step p a) (d.step q a) := by
    refine forall_congr' fun a => map_eq_map_iff_rel.trans ?_
    exact optionRel_congr fun p' q' hp' hq' =>
      hk p' q' (hd.step_lt p a p' hp') (hd.step_lt q a q' hq')
  rw [hmoves]
  constructor
  · rintro ⟨h, hstep⟩
    exact ⟨alikeFor_zero_iff.mp (h.mono (Nat.zero_le k)), hstep⟩
  · exact fun h => ⟨(alikeFor_succ_iff.mpr h).mono (Nat.le_succ k), h.2⟩

theorem Partitions.refines_refine (hu : Partitions u d) : (d.refine u).1.Refines u where
  elements_eq := hu.refine.1.elements_eq.trans hu.elements_eq.symm
  joined p q hp hq h :=
    ((hu.refine.2.2.2 p q (hu.elements_eq ▸ hp) (hu.elements_eq ▸ hq)).mp h).1

/-! ## All rounds -/

/-- The loop counts the classes of the finer partition, and then goes on with it
or returns what was the partition before the round. -/
theorem stabilize_eq {next u' : UnionFind} (h : d.refine u = (next, u')) :
    d.stabilize u = if u.classes < next.classes
      then ((d.stabilize next).1, next.classes :: (d.stabilize next).2)
      else (u', [next.classes]) := by
  rw [Dfa.stabilize]
  split
  next next₁ u₁ h₁ =>
    obtain ⟨rfl, rfl⟩ := Prod.mk.inj (h.symm.trans h₁)
    rfl

theorem stabilize_fst {next u' : UnionFind} (h : d.refine u = (next, u')) :
    (d.stabilize u).1 = if u.classes < next.classes then (d.stabilize next).1 else u' := by
  rw [stabilize_eq h]
  exact apply_ite Prod.fst _ _ _

/-- From states that are alike for some length, refinement ends with
those that no word tells apart. -/
theorem Partitions.stabilize (hd : d.WellFormed) (hu : Partitions u d)
    (hk : ∀ p q, p < d.states → q < d.states →
      (u.Joined p q ↔ d.AlikeFor separateFinals k p q)) :
    Partitions (d.stabilize u).1 d ∧ ∀ p q, p < d.states → q < d.states →
      ((d.stabilize u).1.Joined p q ↔ d.Indistinguishable separateFinals p q) := by
  induction u using Dfa.stabilize.induct d generalizing k with
  | case1 u next u' hrefine hlt _ _ _ ih =>
      have hnext := hu.refine.1
      have hjoined := fun p q hp hq => hu.joined_refine_alikeFor hd hk (p := p) (q := q) hp hq
      rw [hrefine] at hnext hjoined
      rw [stabilize_fst hrefine, if_pos hlt]
      exact ih hnext hjoined
  | case2 u next u' hrefine hle =>
      have hnext := hu.refine.1
      have hold := hu.refine.2.1
      have hsame := hu.refine.2.2.1
      have hjoined := fun p q hp hq => hu.joined_refine_alikeFor hd hk (p := p) (q := q) hp hq
      have hrefines := hu.refines_refine
      rw [hrefine] at hnext hold hsame hjoined hrefines
      rw [stabilize_fst hrefine, if_neg hle]
      refine ⟨hold, fun p q hp hq => ?_⟩
      rw [hsame.joined_iff, hk p q hp hq]
      constructor
      · -- the last round has made no more classes, so it has split nothing
        refine indistinguishable_of_stable hd (fun p q hp hq h => ?_) hp hq
        refine (hjoined p q hp hq).mp ?_
        exact hrefines.joined_of_classes_le hu.sound hnext.sound (Nat.le_of_not_lt hle)
          (hu.elements_eq ▸ hp) (hu.elements_eq ▸ hq) ((hk p q hp hq).mpr h)
      · exact fun h => indistinguishable_iff.mp h k

theorem partitions_partition (hd : d.WellFormed) (separateFinals : Bool) :
    Partitions (d.partition separateFinals).value d ∧ ∀ p q, p < d.states → q < d.states →
      ((d.partition separateFinals).value.Joined p q ↔
        d.Indistinguishable separateFinals p q) := by
  obtain ⟨hblocks, hjoined⟩ := partitions_blocks separateFinals d
  refine hblocks.stabilize hd (k := 0) fun p q hp hq => ?_
  rw [hjoined p q hp hq, alikeFor_zero_iff]

end Dfa

end FiniteState
