import FiniteState.Proofs.Partition

/-!
# The coarsest stable partition

What partition refinement returns, said without rounds and without
a forest, in two ways.

By words: two states are together exactly if every word is read to its
end from both or from neither, and from both leads into one block of the
initial split. By single moves: a partition is *stable* if it refines the
initial split and no symbol takes states that are together apart, where
having no move differs from every move; and the one returned is the
coarsest of all stable partitions.

That both ways say the same has nothing to do with how the partition is
found (`coarsestStable_iff`). Indistinguishability is stable
(`stablePartition_indistinguishable`), and what a stable partition keeps
together no word tells apart, by induction on the word
(`StablePartition.rel_runFrom`). Moves on symbols outside the vocabulary
need no condition, as there are none.
-/

namespace FiniteState

namespace Dfa

open UnionFind

variable {σ : Type} [Alphabet σ] {d : Dfa σ} {separateFinals : Bool} {p q : State}
  {r : State → State → Prop}

/-! ## The initial split, by states -/

/-- The states are in one part of the split that refinement starts from:
neither accepts, or both do; and then they are the same state, if accepting
states are kept apart. -/
def SameBlock (separateFinals : Bool) (d : Dfa σ) (p q : State) : Prop :=
  (p ∈ d.finals ↔ q ∈ d.finals) ∧ (separateFinals = true → p ∈ d.finals → p = q)

theorem block_eq_block_iff :
    d.block separateFinals p = d.block separateFinals q ↔ d.SameBlock separateFinals p q := by
  by_cases hp : p ∈ d.finals <;> by_cases hq : q ∈ d.finals <;>
    cases separateFinals <;> simp [block, SameBlock, hp, hq]

/-- Every word leads from both states to states of one block, or is read to
its end from neither. -/
theorem indistinguishable_iff_rel_runFrom : d.Indistinguishable separateFinals p q ↔
    ∀ w, Option.Rel (d.SameBlock separateFinals) (d.runFrom p w) (d.runFrom q w) := by
  simp only [Indistinguishable, outcome, map_eq_map_iff_rel, block_eq_block_iff]

theorem sameClass_blocks_iff (separateFinals : Bool) (hp : p < d.states) (hq : q < d.states) :
    ((d.blocks separateFinals).sameClass p q).1 = true ↔ d.SameBlock separateFinals p q := by
  obtain ⟨⟨hsound, _⟩, hjoined⟩ := partitions_blocks separateFinals d
  rw [(hsound.sameClass p q).1, hjoined p q hp hq, block_eq_block_iff]

theorem sameClass_partition_iff (hd : d.WellFormed) (hp : p < d.states) (hq : q < d.states) :
    ((d.partition separateFinals).value.sameClass p q).1 = true ↔
      d.Indistinguishable separateFinals p q := by
  obtain ⟨⟨hsound, _⟩, hjoined⟩ := partitions_partition hd separateFinals
  rw [(hsound.sameClass p q).1, hjoined p q hp hq]

/-! ## Stable partitions -/

/-- A partition of the states, as the relation of being together, that
refines the initial split and is respected by all moves. -/
structure StablePartition (separateFinals : Bool) (d : Dfa σ) (r : State → State → Prop) :
    Prop where
  equivalence : Equivalence r
  sameBlock : ∀ p q, p < d.states → q < d.states → r p q → d.SameBlock separateFinals p q
  step : ∀ p q, p < d.states → q < d.states → r p q →
    ∀ a, a ∈ d.vocabulary → Option.Rel r (d.step p a) (d.step q a)

/-- A stable partition that all stable partitions refine. -/
structure CoarsestStable (separateFinals : Bool) (d : Dfa σ) (r : State → State → Prop) :
    Prop where
  stable : d.StablePartition separateFinals r
  coarsest : ∀ finer, d.StablePartition separateFinals finer →
    ∀ p q, p < d.states → q < d.states → finer p q → r p q

theorem step_eq_none_of_not_mem_vocabulary {a : σ} (ha : ¬ a ∈ d.vocabulary) (q : State) :
    d.step q a = none :=
  Option.eq_none_iff_forall_not_mem.mpr fun _ h => ha (mem_vocabulary_of_step h)

/-- Symbols outside the vocabulary need not be looked at. -/
theorem forall_mem_vocabulary_iff {r : Option State → Option State → Prop} (hr : r none none) :
    (∀ a, a ∈ d.vocabulary → r (d.step p a) (d.step q a)) ↔
      ∀ a, r (d.step p a) (d.step q a) := by
  refine ⟨fun h a => ?_, fun h a _ => h a⟩
  by_cases ha : a ∈ d.vocabulary
  · exact h a ha
  · rwa [step_eq_none_of_not_mem_vocabulary ha, step_eq_none_of_not_mem_vocabulary ha]

namespace StablePartition

/-- A symbol outside the vocabulary moves no state. -/
theorem rel_step (h : d.StablePartition separateFinals r) (hp : p < d.states) (hq : q < d.states)
    (hpq : r p q) (a : σ) : Option.Rel r (d.step p a) (d.step q a) :=
  (forall_mem_vocabulary_iff .none).mp (h.step p q hp hq hpq) a

/-- States that are together stay so along every word. -/
theorem rel_runFrom (hd : d.WellFormed) (h : d.StablePartition separateFinals r)
    (hp : p < d.states) (hq : q < d.states) (hpq : r p q) (w : List σ) :
    Option.Rel r (d.runFrom p w) (d.runFrom q w) := by
  induction w generalizing p q with
  | nil => exact .some hpq
  | cons a w ih =>
      rw [runFrom_cons, runFrom_cons]
      refine optionRel_bind (h.rel_step hp hq hpq a) fun p' q' hp' hq' hr => ?_
      exact ih (hd.step_lt p a p' hp') (hd.step_lt q a q' hq') hr

/-- No word tells apart what a stable partition keeps together. -/
theorem indistinguishable (hd : d.WellFormed) (h : d.StablePartition separateFinals r)
    (hp : p < d.states) (hq : q < d.states) (hpq : r p q) :
    d.Indistinguishable separateFinals p q := by
  refine indistinguishable_iff_rel_runFrom.mpr fun w => ?_
  refine optionRel_imp (h.rel_runFrom hd hp hq hpq w) fun p' q' hp' hq' hr => ?_
  exact h.sameBlock p' q' (hd.runFrom_lt hp hp') (hd.runFrom_lt hq hq') hr

/-- Only what is said of states of the automaton matters. -/
theorem congr (hd : d.WellFormed) {r' : State → State → Prop}
    (h : d.StablePartition separateFinals r) (hequivalence : Equivalence r')
    (hsame : ∀ p q, p < d.states → q < d.states → (r' p q ↔ r p q)) :
    d.StablePartition separateFinals r' := by
  refine ⟨hequivalence, fun p q hp hq hpq => ?_, fun p q hp hq hpq a _ => ?_⟩
  · exact h.sameBlock p q hp hq ((hsame p q hp hq).mp hpq)
  · have hstep := h.rel_step hp hq ((hsame p q hp hq).mp hpq) a
    refine optionRel_imp hstep fun p' q' hp' hq' hr => ?_
    exact (hsame p' q' (hd.step_lt p a p' hp') (hd.step_lt q a q' hq')).mpr hr

end StablePartition

/-! ## The coarsest one -/

theorem stablePartition_indistinguishable (separateFinals : Bool) (d : Dfa σ) :
    d.StablePartition separateFinals (d.Indistinguishable separateFinals) where
  equivalence := ⟨fun _ _ => rfl, fun h w => (h w).symm, fun h h' w => (h w).trans (h' w)⟩
  sameBlock _ _ _ _ h := block_eq_block_iff.mp (Option.some.inj (h []))
  step _ _ _ _ h a _ := h.step a

/-- The coarsest stable partition is the one by words. -/
theorem coarsestStable_iff (hd : d.WellFormed) (hr : Equivalence r) :
    d.CoarsestStable separateFinals r ↔ ∀ p q, p < d.states → q < d.states →
      (r p q ↔ d.Indistinguishable separateFinals p q) := by
  have hwords := stablePartition_indistinguishable separateFinals d
  constructor
  · intro h p q hp hq
    exact ⟨h.stable.indistinguishable hd hp hq, h.coarsest _ hwords p q hp hq⟩
  · intro h
    refine ⟨hwords.congr hd hr h, fun finer hfiner p q hp hq hpq => ?_⟩
    exact (h p q hp hq).mpr (hfiner.indistinguishable hd hp hq hpq)

theorem equivalence_sameClass {u : UnionFind} (hu : u.Sound) :
    Equivalence fun p q => (u.sameClass p q).1 = true := by
  simp only [(hu.sameClass _ _).1]
  exact ⟨fun _ => rfl, Eq.symm, Eq.trans⟩

/-- **The partition is the coarsest one.** Refinement starts from the split
into states of one block. It puts two states together exactly if every word
leads from both to states of one block or is read to its end from neither;
equivalently, what it returns is the coarsest stable partition - for of all
partitions, those that words give and those that are coarsest among the
stable ones are the same. -/
theorem partition_is_coarsest (hd : d.WellFormed) (separateFinals : Bool) :
    let sameWords := fun p q => ∀ w,
      Option.Rel (d.SameBlock separateFinals) (d.runFrom p w) (d.runFrom q w)
    let together := fun p q => ((d.partition separateFinals).value.sameClass p q).1 = true
    (∀ p q, p < d.states → q < d.states →
        (((d.blocks separateFinals).sameClass p q).1 = true ↔ d.SameBlock separateFinals p q)) ∧
      (∀ p q, p < d.states → q < d.states → (together p q ↔ sameWords p q)) ∧
      d.CoarsestStable separateFinals together ∧
      ∀ r, Equivalence r → (d.CoarsestStable separateFinals r ↔
        ∀ p q, p < d.states → q < d.states → (r p q ↔ sameWords p q)) := by
  have htogether : ∀ p q, p < d.states → q < d.states →
      (((d.partition separateFinals).value.sameClass p q).1 = true ↔
        d.Indistinguishable separateFinals p q) := fun p q => sameClass_partition_iff hd
  obtain ⟨⟨hsound, _⟩, _⟩ := partitions_partition hd separateFinals
  refine ⟨fun p q => sameClass_blocks_iff separateFinals, ?_, ?_, fun r hr => ?_⟩
  · simpa only [indistinguishable_iff_rel_runFrom] using htogether
  · exact (coarsestStable_iff hd (equivalence_sameClass hsound)).mpr htogether
  · simpa only [indistinguishable_iff_rel_runFrom] using coarsestStable_iff hd hr

/-- Two words of two symbols, each with an accepting state of its own. -/
def fork : Dfa Char where
  rows := #[⟨[('l', 1), ('r', 2)], by decide⟩, .singleton 'a' 3, .singleton 'a' 4, ∅, ∅]
  start := 0
  finals := ⟨[3, 4], by decide⟩

/-- The middle states of the two words are told apart exactly if accepting
states are. -/
theorem fork_partition_is_coarsest : fork.WellFormed ∧
    (∀ w, Option.Rel (fork.SameBlock false) (fork.runFrom 1 w) (fork.runFrom 2 w)) ∧
      ¬ ∀ w, Option.Rel (fork.SameBlock true) (fork.runFrom 1 w) (fork.runFrom 2 w) := by
  have hd : fork.WellFormed := by decide
  have h := fun separateFinals =>
    (partition_is_coarsest hd separateFinals).2.1 1 2 (by decide) (by decide)
  exact ⟨hd, (h false).mp (by decide +kernel), mt (h true).mpr (by decide +kernel)⟩

end Dfa

end FiniteState
