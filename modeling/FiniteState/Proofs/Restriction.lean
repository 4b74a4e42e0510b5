import FiniteState.Proofs.Dfa.Ordered
import FiniteState.Proofs.Strict.Dfa
import Mathlib.Order.Interval.Set.Nat

/-!
# What pruning leaves

Part of an automaton, on states that no move leaves, is an automaton again when
these are numbered without gaps in the order that they have (`PartOf`). There is
no choice in this: the number of a state is how many states before it are kept
(`PartOf.number_eq_ncard`), and so there is one part on given states
(`PartOf.unique`).

Pruning makes the part on the states in which runs end (`partOf_prune`). Moves
from these lead to these, so every target and the start have a new number, and
neither the filter on the targets nor the default for the start comes into play. An
automaton is the part of itself on all its states; where runs end in all of them,
pruning therefore makes the same automaton (`prune_eq_self_iff`).
-/

namespace FiniteState

namespace Dfa

variable {σ : Type} [Alphabet σ] {d e e' : Dfa σ} {kept : Set State}
  {number number' : State → State} {q : State}

/-! ## Parts -/

/-- The automaton `e` is `d` on some of its states: these have new numbers without
gaps, in the old order, and every move of a state kept is there and no other. -/
structure PartOf (e d : Dfa σ) (kept : Set State) (number : State → State) : Prop where
  bijOn : Set.BijOn number kept (Set.Iio e.states)
  strictMonoOn : StrictMonoOn number kept
  start_mem : d.start ∈ kept
  start_eq : e.start = number d.start
  mem_finals_iff : ∀ i, i ∈ e.finals ↔ ∃ q ∈ kept, q ∈ d.finals ∧ number q = i
  step_mem : ∀ q ∈ kept, ∀ a p, d.step q a = some p → p ∈ kept
  step_eq : ∀ q ∈ kept, ∀ a, e.step (number q) a = (d.step q a).map number

namespace PartOf

theorem states_eq_ncard (h : e.PartOf d kept number) : e.states = kept.ncard := by
  have hcard := h.bijOn.injOn.ncard_image
  rwa [h.bijOn.image_eq, Set.ncard_Iio_nat] at hcard

/-- The states before a state kept get the numbers before its own. -/
theorem number_eq_ncard (h : e.PartOf d kept number) (hq : q ∈ kept) :
    number q = (kept ∩ Set.Iio q).ncard := by
  have himage : number '' (kept ∩ Set.Iio q) = Set.Iio (number q) := by
    ext i
    constructor
    · rintro ⟨p, ⟨hp, hlt⟩, rfl⟩
      exact h.strictMonoOn hp hq hlt
    · intro hi
      obtain ⟨p, hp, rfl⟩ := h.bijOn.surjOn (Set.mem_Iio.mpr (hi.trans (h.bijOn.mapsTo hq)))
      exact ⟨p, ⟨hp, (h.strictMonoOn.lt_iff_lt hp hq).mp hi⟩, rfl⟩
  have hinj : Set.InjOn number (kept ∩ Set.Iio q) := h.bijOn.injOn.mono Set.inter_subset_left
  have hcard := hinj.ncard_image
  rwa [himage, Set.ncard_Iio_nat] at hcard

/-- There is one part on given states. -/
theorem unique (h : e.PartOf d kept number) (h' : e'.PartOf d kept number') : e = e' := by
  have hstates : e.states = e'.states := h.states_eq_ncard.trans h'.states_eq_ncard.symm
  have hnumber : ∀ q ∈ kept, number q = number' q := fun q hq =>
    (h.number_eq_ncard hq).trans (h'.number_eq_ncard hq).symm
  refine eq_of_step_eq hstates ?_ (fun i a => ?_) fun i => ?_
  · rw [h.start_eq, h'.start_eq, hnumber _ h.start_mem]
  · -- a number below the number of states is that of a state kept; no other one moves
    by_cases hi : i < e.states
    · obtain ⟨q, hq, rfl⟩ := h.bijOn.surjOn hi
      rw [h.step_eq q hq, hnumber q hq, h'.step_eq q hq]
      exact Option.map_congr fun p hp => hnumber p (h.step_mem q hq a p hp)
    · rw [step_eq_none hi, step_eq_none (hstates ▸ hi)]
  · rw [h.mem_finals_iff, h'.mem_finals_iff]
    refine exists_congr fun q => and_congr_right fun hq => and_congr_right' ?_
    rw [hnumber q hq]

end PartOf

/-- An automaton is the part of itself on all its states. -/
theorem WellFormed.partOf_self (hd : d.WellFormed) : d.PartOf d (Set.Iio d.states) id where
  bijOn := Set.bijOn_id _
  strictMonoOn := strictMonoOn_id
  start_mem := hd.start_lt
  start_eq := rfl
  mem_finals_iff i := by
    constructor
    · exact fun hi => ⟨i, hd.finals_lt i hi, hi, rfl⟩
    · rintro ⟨_, _, hi, rfl⟩
      exact hi
  step_mem q _ a p hp := hd.step_lt q a p hp
  step_eq q _ a := Option.map_id_apply.symm

/-! ## The pruned automaton -/

/-- The states in which runs end. -/
def reached (d : Dfa σ) : Set State := {q | ∃ w, d.run w = some q}

theorem mem_reached_of_step {a : σ} {p : State} (hq : q ∈ d.reached) (h : d.step q a = some p) :
    p ∈ d.reached := by
  obtain ⟨w, hw⟩ := hq
  exact ⟨w ++ [a], by rw [run_concat, hw, Option.bind_some, h]⟩

/-- The new number of a state, if runs end in it. -/
def renumbered (d : Dfa σ) (q : State) : State := (d.newNumber q).getD 0

theorem newNumber_eq_renumbered (hq : q ∈ d.reached) : d.newNumber q = some (d.renumbered q) := by
  obtain ⟨w, hw⟩ := hq
  obtain ⟨i, hi⟩ := exists_newNumber hw
  rw [renumbered, hi, Option.getD_some]

theorem mem_reached_of_newNumber {i : State} (h : d.newNumber q = some i) :
    q ∈ d.reached ∧ d.renumbered q = i := by
  refine ⟨mem_reachable_iff.mp (isSome_newNumber.mp (Option.isSome_of_eq_some h)), ?_⟩
  rw [renumbered, h, Option.getD_some]

theorem mapsTo_renumbered (d : Dfa σ) :
    Set.MapsTo d.renumbered d.reached (Set.Iio d.prune.states) :=
  fun _ hq => newNumber_lt (newNumber_eq_renumbered hq)

theorem injOn_renumbered (d : Dfa σ) : Set.InjOn d.renumbered d.reached := by
  intro p hp q hq heq
  refine newNumber_inj (newNumber_eq_renumbered hp) ?_
  rw [newNumber_eq_renumbered hq, heq]

theorem surjOn_renumbered (d : Dfa σ) :
    Set.SurjOn d.renumbered d.reached (Set.Iio d.prune.states) := by
  intro i hi
  have hlt : i < d.reachable.size := d.states_prune ▸ hi
  exact ⟨_, mem_reached_of_newNumber (newNumber_eq_some_iff.mpr (List.getElem?_eq_getElem hlt))⟩

/-- New numbers are places in an ascending list. -/
theorem strictMonoOn_renumbered (d : Dfa σ) : StrictMonoOn d.renumbered d.reached := by
  intro p hp q hq hlt
  obtain ⟨hi, hpi⟩ :=
    List.getElem?_eq_some_iff.mp (newNumber_eq_some_iff.mp (newNumber_eq_renumbered hp))
  obtain ⟨hj, hqj⟩ :=
    List.getElem?_eq_some_iff.mp (newNumber_eq_some_iff.mp (newNumber_eq_renumbered hq))
  rcases Nat.lt_trichotomy (d.renumbered p) (d.renumbered q) with hij | heq | hji
  · exact hij
  · rw [d.injOn_renumbered hp hq heq] at hlt
    exact absurd hlt (Nat.lt_irrefl q)
  · have hsorted := List.pairwise_iff_getElem.mp d.reachable.sorted _ _ hj hi hji
    rw [hpi, hqj] at hsorted
    exact absurd (Nat.compare_eq_lt.mp hsorted) (Nat.lt_asymm hlt)

theorem partOf_prune (d : Dfa σ) : d.prune.PartOf d d.reached d.renumbered where
  bijOn := ⟨d.mapsTo_renumbered, d.injOn_renumbered, d.surjOn_renumbered⟩
  strictMonoOn := d.strictMonoOn_renumbered
  start_mem := ⟨[], rfl⟩
  start_eq := rfl
  mem_finals_iff i := by
    rw [mem_finals_prune]
    constructor
    · rintro ⟨q, hfinal, hq⟩
      exact ⟨q, (mem_reached_of_newNumber hq).1, hfinal, (mem_reached_of_newNumber hq).2⟩
    · rintro ⟨q, hq, hfinal, rfl⟩
      exact ⟨q, hfinal, newNumber_eq_renumbered hq⟩
  step_mem q hq a p hp := mem_reached_of_step hq hp
  step_eq q hq a := by
    rw [step_prune (newNumber_eq_renumbered hq)]
    cases hp : d.step q a with
    | none => rfl
    | some p => exact newNumber_eq_renumbered (mem_reached_of_step hq hp)

/-- Pruning leaves an automaton alone just if there is nothing to prune. -/
theorem prune_eq_self_iff (hd : d.WellFormed) : d.prune = d ↔ d.Reachable := by
  constructor
  · intro h
    rw [← h]
    exact d.reachable_prune
  · intro hreach
    have hall : d.reached = Set.Iio d.states := by
      ext q
      exact ⟨fun hq => hd.run_lt hq.choose_spec, hreach q⟩
    exact d.partOf_prune.unique (hall ▸ hd.partOf_self)

/-- **Pruning.** The search finds just the states in which runs end, and the pruned
automaton is the part on these: no other automaton is. The strict search and
the strict renumbering succeed with the same results. So what pruning leaves accepts
the same words and has only states in which runs end; pruning it again changes
nothing, and pruning changes nothing from the first just if runs end in all states. -/
theorem prune_leaves_reached (hd : d.WellFormed) :
    (∀ q, q ∈ d.reachable ↔ ∃ w, d.run w = some q) ∧
    (d.reachable? = some d.reachable ∧ d.prune? = some d.prune) ∧
    d.prune.states = d.reachable.size ∧
    d.prune.PartOf d d.reached d.renumbered ∧
    (∀ e number, e.PartOf d d.reached number → e = d.prune) ∧
    (∀ w, d.prune.accepts w = d.accepts w) ∧ d.prune.Reachable ∧
    d.prune.prune = d.prune ∧ (d.prune = d ↔ d.Reachable) := by
  refine ⟨fun q => mem_reachable_iff, ⟨hd.reachable?_eq, hd.prune?_eq⟩, d.states_prune,
    d.partOf_prune, fun e number h => h.unique d.partOf_prune,
    fun w => (d.sameRuns_prune.accepts_eq w).symm, d.reachable_prune, ?_, prune_eq_self_iff hd⟩
  exact (prune_eq_self_iff d.wellFormed_prune).mpr d.reachable_prune

/-- Runs go back and forth between two of the states, with an unreachable state
before each. -/
def unrooted : Dfa Char where
  rows := #[∅, .singleton 'a' 3, .singleton 'b' 0, .singleton 'a' 1]
  start := 1
  finals := ⟨[0, 3], by decide⟩

theorem mem_of_run_unrooted {w : List Char} (h : unrooted.run w = some q) : q ∈ [1, 3] := by
  have hstep : ∀ p ∈ [1, 3], ∀ r ∈ unrooted.successors p, r ∈ [1, 3] := by decide
  induction w using List.reverseRecOn generalizing q with
  | nil =>
      obtain rfl := Option.some.inj h
      decide
  | append_singleton w a ih =>
      rw [run_concat] at h
      obtain ⟨p, hp, hq⟩ := Option.bind_eq_some_iff.mp h
      exact hstep p (ih hp) q (mem_successors.mpr ⟨a, hq⟩)

theorem prune_unrooted : unrooted.WellFormed ∧
    unrooted.prune.PartOf unrooted unrooted.reached unrooted.renumbered ∧
      unrooted.prune ≠ unrooted ∧ unrooted.prune.prune = unrooted.prune := by
  have hd : unrooted.WellFormed := by decide
  obtain ⟨_, _, _, hpart, _, _, _, hagain, hsame⟩ := prune_leaves_reached hd
  refine ⟨hd, hpart, fun heq => ?_, hagain⟩
  obtain ⟨w, hw⟩ := hsame.mp heq 0 (by decide)
  exact absurd (mem_of_run_unrooted hw) (by decide)

end Dfa

end FiniteState
