import FiniteState.Proofs.Coarsest

/-!
# Rounds of refinement

How refinement comes to its partition, and what it reports of its rounds.
After `k` rounds those states are together that no word of up to `k` symbols
tells apart (`partitions_afterRounds`), so a round is reported with the
number of classes that such words make (`alikeClasses`), a number that has
nothing to do with forests.

The numbers never fall. The loop goes on as long as they rise, which they
can do only up to the number of states; it ends with the first round that
repeats the number before it (`stabilize_afterRounds`).
-/

namespace FiniteState

namespace Dfa

open UnionFind

variable {σ : Type} [Alphabet σ] {d : Dfa σ} {separateFinals : Bool} {k : Nat} {p q : State}

/-! ## Words up to a length -/

theorem alikeFor_iff_rel_runFrom : d.AlikeFor separateFinals k p q ↔ ∀ w, w.length ≤ k →
    Option.Rel (d.SameBlock separateFinals) (d.runFrom p w) (d.runFrom q w) := by
  simp only [AlikeFor, outcome, map_eq_map_iff_rel, block_eq_block_iff]

/-- The states, divided by words up to a length. -/
def alikeSetoid (separateFinals : Bool) (d : Dfa σ) (k : Nat) : Setoid (Fin d.states) where
  r p q := d.AlikeFor separateFinals k p q
  iseqv := ⟨fun _ _ _ => rfl, fun h w hw => (h w hw).symm,
    fun h h' w hw => (h w hw).trans (h' w hw)⟩

/-- The number of classes that words up to a length make. -/
noncomputable def alikeClasses (separateFinals : Bool) (d : Dfa σ) (k : Nat) : Nat :=
  Nat.card (Quotient (d.alikeSetoid separateFinals k))

theorem alikeClasses_le_states (separateFinals : Bool) (d : Dfa σ) (k : Nat) :
    d.alikeClasses separateFinals k ≤ d.states := by
  have hle := Nat.card_le_card_of_surjective (Quotient.mk (d.alikeSetoid separateFinals k))
    Quotient.mk_surjective
  rwa [Nat.card_fin] at hle

theorem alikeClasses_pos (hd : d.WellFormed) : 0 < d.alikeClasses separateFinals k :=
  haveI : Nonempty (Quotient (d.alikeSetoid separateFinals k)) :=
    ⟨Quotient.mk _ ⟨d.start, hd.start_lt⟩⟩
  Nat.card_pos

/-! ## The partition after some rounds -/

/-- What the initial split has become after so many rounds. -/
def afterRounds (separateFinals : Bool) (d : Dfa σ) : Nat → UnionFind
  | 0 => d.blocks separateFinals
  | k + 1 => (d.refine (d.afterRounds separateFinals k)).1

theorem partitions_afterRounds (hd : d.WellFormed) (separateFinals : Bool) (k : Nat) :
    Partitions (d.afterRounds separateFinals k) d ∧ ∀ p q, p < d.states → q < d.states →
      ((d.afterRounds separateFinals k).Joined p q ↔ d.AlikeFor separateFinals k p q) := by
  induction k with
  | zero =>
      obtain ⟨hblocks, hjoined⟩ := partitions_blocks separateFinals d
      exact ⟨hblocks, fun p q hp hq => (hjoined p q hp hq).trans alikeFor_zero_iff.symm⟩
  | succ k ih =>
      obtain ⟨hu, hk⟩ := ih
      exact ⟨hu.refine.1, fun p q hp hq => hu.joined_refine_alikeFor hd hk hp hq⟩

theorem sameClass_afterRounds_iff (hd : d.WellFormed) (hp : p < d.states) (hq : q < d.states) :
    ((d.afterRounds separateFinals k).sameClass p q).1 = true ↔
      d.AlikeFor separateFinals k p q := by
  obtain ⟨⟨hsound, _⟩, hjoined⟩ := partitions_afterRounds hd separateFinals k
  rw [(hsound.sameClass p q).1, hjoined p q hp hq]

theorem classes_afterRounds (hd : d.WellFormed) (separateFinals : Bool) (k : Nat) :
    (d.afterRounds separateFinals k).classes = d.alikeClasses separateFinals k := by
  obtain ⟨⟨hsound, helements⟩, hjoined⟩ := partitions_afterRounds hd separateFinals k
  exact hsound.classes_eq_card helements (s := d.alikeSetoid separateFinals k)
    fun p q => hjoined p q p.2 q.2

theorem alikeClasses_le_succ (hd : d.WellFormed) (separateFinals : Bool) (k : Nat) :
    d.alikeClasses separateFinals k ≤ d.alikeClasses separateFinals (k + 1) := by
  have hu := (partitions_afterRounds hd separateFinals k).1
  rw [← classes_afterRounds hd, ← classes_afterRounds hd]
  exact hu.refines_refine.classes_le hu.sound hu.refine.1.sound

/-! ## The rounds of the loop -/

/-- Rounds go on from round `k + 1` to the first one that repeats the number of
classes before it. -/
theorem stabilize_afterRounds (hd : d.WellFormed) (separateFinals : Bool) (k : Nat) :
    ∃ last, k ≤ last ∧
      (d.stabilize (d.afterRounds separateFinals k)).2 =
        (List.range' (k + 1) (last + 1 - k)).map (d.alikeClasses separateFinals) ∧
      (d.stabilize (d.afterRounds separateFinals k)).1.classes =
        d.alikeClasses separateFinals last ∧
      (∀ i, k ≤ i → i < last →
        d.alikeClasses separateFinals i < d.alikeClasses separateFinals (i + 1)) ∧
      d.alikeClasses separateFinals (last + 1) = d.alikeClasses separateFinals last := by
  induction hu : d.afterRounds separateFinals k using Dfa.stabilize.induct d generalizing k with
  | case1 u next u' hrefine hlt _ _ _ ih =>
      have hnext : d.afterRounds separateFinals (k + 1) = next := by
        rw [afterRounds, hu, hrefine]
      obtain ⟨last, hle, hcounts, hclasses, hrise, hrepeat⟩ := ih (k + 1) hnext
      rw [stabilize_eq hrefine, if_pos hlt, hcounts, hclasses, ← hnext, classes_afterRounds hd]
      rw [← hu, ← hnext, classes_afterRounds hd, classes_afterRounds hd] at hlt
      refine ⟨last, Nat.le_of_succ_le hle, ?_, rfl, fun i hki hi => ?_, hrepeat⟩
      · rw [show last + 1 - k = last + 1 - (k + 1) + 1 by omega, List.range'_succ, List.map_cons]
      · rcases Nat.eq_or_lt_of_le hki with rfl | hlater
        · exact hlt
        · exact hrise i hlater hi
  | case2 u next u' hrefine hle =>
      have hnext : d.afterRounds separateFinals (k + 1) = next := by
        rw [afterRounds, hu, hrefine]
      have hold := (partitions_afterRounds hd separateFinals k).1.refine.2.2.1.classes_eq
      rw [hu, hrefine] at hold
      rw [stabilize_eq hrefine, if_neg hle]
      rw [← hu, ← hnext, classes_afterRounds hd, classes_afterRounds hd] at hle
      have hrepeat := Nat.le_antisymm (Nat.le_of_not_lt hle) (alikeClasses_le_succ hd _ k)
      refine ⟨k, Nat.le_refl k, ?_, ?_, fun i hki hi => absurd hi (Nat.not_lt.mpr hki), hrepeat⟩
      · rw [← hnext, classes_afterRounds hd, Nat.add_sub_cancel_left]
        rfl
      · rw [← classes_afterRounds hd, hu]
        exact hold

/-- A number that rises with every round is at least the number of rounds. -/
theorem lt_of_rising {counts : Nat → Nat} {last : Nat} (hpos : 0 < counts 0)
    (hrise : ∀ i, i < last → counts i < counts (i + 1)) : last < counts last := by
  induction last with
  | zero => exact hpos
  | succ last ih =>
      have hbefore := ih fun i hi => hrise i (Nat.lt_succ_of_lt hi)
      exact Nat.lt_of_le_of_lt hbefore (hrise last (Nat.lt_succ_self last))

/-- Rounds are numbered from 1 on. -/
theorem mapIdx_refined (counts : Nat → Nat) (rounds : Nat) :
    ((List.range' 1 rounds).map counts).mapIdx (fun i classes => Event.refined (i + 1) classes) =
      (List.range' 1 rounds).map fun k => .refined k (counts k) :=
  List.ext_getElem (by simp) fun i _ _ => by simp [Nat.add_comm]

/-- **Rounds of refinement.** After `k` rounds, the initial split being that
after none, two states are together exactly if no word of up to `k` symbols
tells them apart. Refinement reports its rounds in order, each with the number
of classes that words up to that length make. The number rises with every
round but the last one, which repeats it, and there are at most as many rounds
as states. The event at the end has the number of rounds and that of the
classes which are returned. -/
theorem partition_reports_rounds (hd : d.WellFormed) (separateFinals : Bool) :
    let counts := d.alikeClasses separateFinals
    let result := d.partition separateFinals
    (∀ k p q, p < d.states → q < d.states →
      (((d.afterRounds separateFinals k).sameClass p q).1 = true ↔
        d.AlikeFor separateFinals k p q)) ∧
      (∀ k p q, d.AlikeFor separateFinals k p q ↔ ∀ w, w.length ≤ k →
        Option.Rel (d.SameBlock separateFinals) (d.runFrom p w) (d.runFrom q w)) ∧
      (d.blocks separateFinals).classes = counts 0 ∧
      ∃ rounds, 0 < rounds ∧ rounds ≤ d.states ∧
        result.events = (List.range' 1 rounds).map (fun k => .refined k (counts k)) ++
          [.partitionStable rounds result.value.classes] ∧
        (∀ k, k + 1 < rounds → counts k < counts (k + 1)) ∧
        counts rounds = counts (rounds - 1) ∧ result.value.classes = counts rounds := by
  refine ⟨fun k p q => sameClass_afterRounds_iff hd, fun k p q => alikeFor_iff_rel_runFrom,
    classes_afterRounds hd separateFinals 0, ?_⟩
  obtain ⟨last, _, hcounts, hclasses, hrise, hrepeat⟩ := stabilize_afterRounds hd separateFinals 0
  have hrising : ∀ i, i < last →
      d.alikeClasses separateFinals i < d.alikeClasses separateFinals (i + 1) :=
    fun i => hrise i (Nat.zero_le i)
  have hbound : last < d.states :=
    Nat.lt_of_lt_of_le (lt_of_rising (alikeClasses_pos hd) hrising)
      (d.alikeClasses_le_states separateFinals last)
  refine ⟨last + 1, Nat.succ_pos last, hbound, ?_,
    fun k hk => hrising k (Nat.lt_of_succ_lt_succ hk), hrepeat, hclasses.trans hrepeat.symm⟩
  have hlist : (d.stabilize (d.blocks separateFinals)).2 =
      (List.range' 1 (last + 1)).map (d.alikeClasses separateFinals) := hcounts
  simp only [Dfa.partition, hlist, mapIdx_refined, List.length_map, List.length_range']

/-- Three moves on one symbol lead to the accepting state. -/
def countdown : Dfa Char where
  rows := #[.singleton 'a' 1, .singleton 'a' 2, .singleton 'a' 3, ∅]
  start := 0
  finals := .singleton 3

/-- The states come apart one by one, from the end. -/
theorem countdown_partition_rounds : countdown.WellFormed ∧
    (countdown.partition false).events =
      [.refined 1 3, .refined 2 4, .refined 3 4, .partitionStable 3 4] ∧
    countdown.alikeClasses false 0 = 2 ∧ countdown.alikeClasses false 1 = 3 ∧
      countdown.alikeClasses false 2 = 4 := by
  have hd : countdown.WellFormed := by decide
  have hlog : (countdown.partition false).events =
      [.refined 1 3, .refined 2 4, .refined 3 4, .partitionStable 3 4] := by decide +kernel
  obtain ⟨_, _, hblocks, rounds, _, _, hevents, _⟩ := partition_reports_rounds hd false
  rw [hlog] at hevents
  obtain rfl : rounds = 3 := by simpa using (congrArg List.length hevents).symm
  obtain ⟨h1, h2, _⟩ : 3 = countdown.alikeClasses false 1 ∧ 4 = countdown.alikeClasses false 2 ∧
      4 = countdown.alikeClasses false 3 ∧ 4 = (countdown.partition false).value.classes := by
    simpa [List.range'] using hevents
  exact ⟨hd, hlog, hblocks.symm.trans (by decide +kernel), h1.symm, h2.symm⟩

end Dfa

end FiniteState
