import FiniteState.Proofs.Coarsest
import FiniteState.Proofs.Dfa.Image
import FiniteState.Proofs.Minimization

/-!
# Minimizing twice

A second pass of minimization, with whatever accepting states kept apart,
gives what one pass gives that keeps accepting states apart only if both
do. The results are equal, and not only up to renumbering.

Two things come together. The classes agree: states of the collapsed
automaton are indistinguishable exactly if the states behind them are
(`indistinguishable_minimize_iff`). And the numbers agree: in both ways
numbers are given in the order of first use (`FirstUse`), which composes
(`FirstUse.comp`) and leaves no choice once it is known which states share
a number (`FirstUse.unique`). The rows, the start and the accepting states
then follow from what a single pass does to each state.
-/

namespace FiniteState

/-! ## Numbers in the order of first use -/

/-- Below a bound, a number is used only after all smaller ones. -/
def FirstUse (bound : Nat) (f : Nat → Nat) : Prop :=
  ∀ q, q < bound → ∀ i, i < f q → ∃ p, p < q ∧ f p = i

namespace FirstUse

variable {bound : Nat} {f g : Nat → Nat}

theorem comp {inner : Nat} (hg : FirstUse inner g) (hf : FirstUse bound f)
    (hlt : ∀ q, q < bound → f q < inner) : FirstUse bound fun q => g (f q) := by
  intro q hq i hi
  obtain ⟨j, hj, rfl⟩ := hg (f q) (hlt q hq) i hi
  obtain ⟨p, hp, rfl⟩ := hf q hq j hj
  exact ⟨p, hp, rfl⟩

/-- No smaller number than that of `g` is free for `f`: it has been used, and
for something that `g` tells apart. -/
theorem le_of_eq_below (hg : FirstUse bound g)
    (hsame : ∀ p q, p < bound → q < bound → (f p = f q ↔ g p = g q)) {q : Nat} (hq : q < bound)
    (hbelow : ∀ p, p < q → f p = g p) : g q ≤ f q := by
  refine Nat.le_of_not_lt fun hlt => ?_
  obtain ⟨p, hp, hpq⟩ := hg q hq (f q) hlt
  have hfp : f p = f q := (hbelow p hp).trans hpq
  have hgp := (hsame p q (Nat.lt_trans hp hq) hq).mp hfp
  exact Nat.ne_of_lt hlt (hpq.symm.trans hgp)

/-- Which things share a number determines the numbers. -/
theorem unique (hf : FirstUse bound f) (hg : FirstUse bound g)
    (hsame : ∀ p q, p < bound → q < bound → (f p = f q ↔ g p = g q)) {q : Nat} (hq : q < bound) :
    f q = g q := by
  induction q using Nat.strong_induction_on with
  | h q ih =>
      have hbelow : ∀ p, p < q → f p = g p := fun p hp => ih p hp (Nat.lt_trans hp hq)
      refine Nat.le_antisymm ?_ (hg.le_of_eq_below hsame hq hbelow)
      exact hf.le_of_eq_below (fun p q hp hq => (hsame p q hp hq).symm) hq
        fun p hp => (hbelow p hp).symm

end FirstUse

namespace Dfa

variable {σ : Type} [Alphabet σ] {d : Dfa σ} {s₁ s₂ : Bool} {p q : State} {i : Nat}

/-- Classes are numbered in the order of their first states. -/
theorem firstUse_classOf (hd : d.WellFormed) (separateFinals : Bool) :
    FirstUse d.states (d.classOf separateFinals) := by
  intro q hq i hi
  have hlt := classOf_lt hd separateFinals hq
  obtain ⟨f, hf, _, hclass, _⟩ := exists_firstState hd (Nat.lt_trans hi hlt)
  obtain ⟨g, hg, _, _, hle⟩ := exists_firstState hd hlt
  refine ⟨f, Nat.lt_of_lt_of_le ?_ (hle q hq rfl), hclass⟩
  obtain ⟨hilt, rfl⟩ := List.getElem?_eq_some_iff.mp hf
  obtain ⟨hjlt, rfl⟩ := List.getElem?_eq_some_iff.mp hg
  exact List.pairwise_iff_getElem.mp (sorted_firstStates separateFinals d) _ _ hilt hjlt hi

/-- The minimized automaton is the image under the numbers of the classes. -/
theorem imageUnder_minimize (hd : d.WellFormed) (separateFinals : Bool) :
    (d.minimize separateFinals).value.ImageUnder d (d.classOf separateFinals) := by
  refine ⟨fun i => ?_, start_minimize hd, fun q a hq => step_minimize hd hq a,
    fun i => mem_finals_minimize hd⟩
  rw [states_minimize hd]
  constructor
  · intro hi
    obtain ⟨f, _, hlt, hclass, _⟩ := exists_firstState hd hi
    exact ⟨f, hlt, hclass⟩
  · rintro ⟨q, hq, rfl⟩
    exact classOf_lt hd separateFinals hq

/-! ## Classes of classes -/

/-- Runs from classes are compared by comparing the runs from their
members. -/
theorem rel_runFrom_minimize_iff {r : Nat → Nat → Prop} (hd : d.WellFormed) (hp : p < d.states)
    (hq : q < d.states) (w : List σ) :
    Option.Rel r ((d.minimize s₁).value.runFrom (d.classOf s₁ p) w)
        ((d.minimize s₁).value.runFrom (d.classOf s₁ q) w) ↔
      Option.Rel (fun p' q' => r (d.classOf s₁ p') (d.classOf s₁ q'))
        (d.runFrom p w) (d.runFrom q w) := by
  have hstep : ∀ q a, q < d.states → (d.minimize s₁).value.step (d.classOf s₁ q) a =
      (d.step q a).map (d.classOf s₁) := fun q a hq => step_minimize hd hq a
  rw [hd.runFrom_map hstep hp, hd.runFrom_map hstep hq, optionRel_map]

/-- Indistinguishable states are in classes of one block. -/
theorem sameBlock_classOf (hd : d.WellFormed) (hp : p < d.states) (hq : q < d.states)
    (h : d.Indistinguishable (s₁ && s₂) p q) :
    (d.minimize s₁).value.SameBlock s₂ (d.classOf s₁ p) (d.classOf s₁ q) := by
  have hblock := block_eq_block_iff.mp (Option.some.inj (h []))
  refine ⟨?_, fun hs₂ _ => ?_⟩
  · rw [classOf_mem_finals_iff hd hp, classOf_mem_finals_iff hd hq]
    exact hblock.1
  · rw [hs₂, Bool.and_true] at h
    exact (classOf_eq_classOf_iff hd hp hq).mpr h

/-- States in classes of one block are in one block, if only accepting states
are kept apart that both passes keep apart. -/
theorem sameBlock_of_classOf (hd : d.WellFormed) (hp : p < d.states) (hq : q < d.states)
    (h : (d.minimize s₁).value.SameBlock s₂ (d.classOf s₁ p) (d.classOf s₁ q)) :
    d.SameBlock (s₁ && s₂) p q := by
  rw [SameBlock, classOf_mem_finals_iff hd hp, classOf_mem_finals_iff hd hq] at h
  refine ⟨h.1, fun hs hfinal => ?_⟩
  obtain ⟨rfl, rfl⟩ := Bool.and_eq_true_iff.mp hs
  have halike := (classOf_eq_classOf_iff hd hp hq).mp (h.2 rfl hfinal)
  exact (block_eq_block_iff.mp (Option.some.inj (halike []))).2 rfl hfinal

theorem indistinguishable_minimize_iff (hd : d.WellFormed) (hp : p < d.states)
    (hq : q < d.states) :
    (d.minimize s₁).value.Indistinguishable s₂ (d.classOf s₁ p) (d.classOf s₁ q) ↔
      d.Indistinguishable (s₁ && s₂) p q := by
  rw [indistinguishable_iff_rel_runFrom]
  simp only [rel_runFrom_minimize_iff hd hp hq]
  constructor
  · intro h
    refine indistinguishable_iff_rel_runFrom.mpr fun w => ?_
    refine optionRel_imp (h w) fun p' q' hp' hq' hr => ?_
    exact sameBlock_of_classOf hd (hd.runFrom_lt hp hp') (hd.runFrom_lt hq hq') hr
  · intro h w
    -- the states reached are indistinguishable as well
    have hrun := (stablePartition_indistinguishable (s₁ && s₂) d).rel_runFrom hd hp hq h w
    refine optionRel_imp hrun fun p' q' hp' hq' hr => ?_
    exact sameBlock_classOf hd (hd.runFrom_lt hp hp') (hd.runFrom_lt hq hq') hr

/-- The class of a class has the number that one pass gives. -/
theorem classOf_classOf (hd : d.WellFormed) (s₁ s₂ : Bool) (hq : q < d.states) :
    (d.minimize s₁).value.classOf s₂ (d.classOf s₁ q) = d.classOf (s₁ && s₂) q := by
  have hm := wellFormed_minimize hd s₁
  have hlt : ∀ q, q < d.states → d.classOf s₁ q < (d.minimize s₁).value.states :=
    fun _ => (imageUnder_minimize hd s₁).name_lt
  have htwo := (firstUse_classOf hm s₂).comp (firstUse_classOf hd s₁) hlt
  refine htwo.unique (firstUse_classOf hd (s₁ && s₂)) (fun p q hp hq => ?_) hq
  rw [classOf_eq_classOf_iff hm (hlt p hp) (hlt q hq), classOf_eq_classOf_iff hd hp hq,
    indistinguishable_minimize_iff hd hp hq]

/-! ## Two passes -/

theorem minimize_minimize (hd : d.WellFormed) (s₁ s₂ : Bool) :
    ((d.minimize s₁).value.minimize s₂).value = (d.minimize (s₁ && s₂)).value := by
  have hm := wellFormed_minimize hd s₁
  have htwo := (imageUnder_minimize hd s₁).trans (imageUnder_minimize hm s₂)
  exact (htwo.congr hd fun q hq => classOf_classOf hd s₁ s₂ hq).unique
    (imageUnder_minimize hd (s₁ && s₂))

/-- **Two passes of minimization are one.** After one pass, another one with
any choice of keeping accepting states apart gives the same automaton - the
same rows under the same numbers, start and accepting states, and so the
same vocabulary - as a single pass that keeps accepting states apart if
both do. So either kind of pass changes nothing when it is made again, and
minimizing after a pass that kept accepting states apart gives what
minimizing at once gives. -/
theorem minimize_passes_compose (hd : d.WellFormed) :
    (∀ s₁ s₂, ((d.minimize s₁).value.minimize s₂).value = (d.minimize (s₁ && s₂)).value) ∧
      (∀ s, ((d.minimize s).value.minimize s).value = (d.minimize s).value) ∧
      ((d.minimize true).value.minimize false).value = (d.minimize false).value := by
  refine ⟨minimize_minimize hd, fun s => ?_, minimize_minimize hd true false⟩
  rw [minimize_minimize hd, Bool.and_self]

/-- The first pass finds nothing to join, and the second one joins two pairs
of states. -/
theorem minimize_fork_passes : fork.WellFormed ∧
    ((fork.minimize true).value.minimize false).value = (fork.minimize false).value ∧
      (fork.minimize true).value.states = 5 ∧ (fork.minimize false).value.states = 3 := by
  have hd : fork.WellFormed := by decide
  exact ⟨hd, (minimize_passes_compose hd).2.2, by decide +kernel, by decide +kernel⟩

end Dfa

end FiniteState
