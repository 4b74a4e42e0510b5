import FiniteState.Dfa.Prune
import Mathlib.Data.List.Induction
import FiniteState.Proofs.Dfa.SameRuns

/-!
# Pruning keeps runs

The search from the start finds exactly the states in which runs end
(`mem_reachable_iff`). Each of these gets its place among them as a new
number (`newNumber`), and a move of the pruned automaton is a move of the
original one between new numbers (`step_prune`). As a move from a reachable
state leads to a reachable state, nothing is lost that a run can come to:
a run of the pruned automaton ends in the new number of the state in which
the run of the original one ends (`run_prune`). Nothing is asked of the
original automaton; if it names states that it does not have, they count as
states without moves.
-/

namespace FiniteState

namespace Dfa

variable {σ : Type} [Alphabet σ] {d : Dfa σ} {p q : State} {i : Nat}

/-! ## Reachable states -/

theorem mem_successors : p ∈ d.successors q ↔ ∃ a, d.step q a = some p :=
  SortedMap.mem_values

theorem mem_reachable_iff : q ∈ d.reachable ↔ ∃ w, d.run w = some q := by
  rw [mem_reachable]
  constructor
  · intro h
    induction h with
    | refl => exact ⟨[], rfl⟩
    | step _ hz ih =>
        obtain ⟨w, hw⟩ := ih
        obtain ⟨a, ha⟩ := mem_successors.mp hz
        exact ⟨w ++ [a], by rw [run_concat, hw, Option.bind_some, ha]⟩
  · rintro ⟨w, hw⟩
    induction w using List.reverseRecOn generalizing q with
    | nil =>
        obtain rfl := Option.some.inj hw
        exact .refl
    | append_singleton w a ih =>
        rw [run_concat] at hw
        obtain ⟨p, hp, hq⟩ := Option.bind_eq_some_iff.mp hw
        exact (ih hp).step (mem_successors.mpr ⟨a, hq⟩)

/-! ## New numbers -/

/-- The number that a state has after pruning. -/
def newNumber (d : Dfa σ) (q : State) : Option Nat :=
  (Numbering.ofList d.reachable.toList).number? q

theorem newNumber_eq_some_iff : d.newNumber q = some i ↔ d.reachable.toList[i]? = some q := by
  rw [newNumber, Numbering.number?_eq_some_iff, Numbering.toList_ofList d.reachable.nodup]

theorem isSome_newNumber : (d.newNumber q).isSome = true ↔ q ∈ d.reachable := by
  rw [newNumber, Numbering.isSome_number?, Numbering.mem_ofList, SortedSet.mem_toList]

theorem newNumber_inj (hp : d.newNumber p = some i) (hq : d.newNumber q = some i) : p = q :=
  Numbering.number?_inj hp hq

theorem exists_newNumber {w : List σ} (h : d.run w = some q) : ∃ i, d.newNumber q = some i :=
  Option.isSome_iff_exists.mp (isSome_newNumber.mpr (mem_reachable_iff.mpr ⟨w, h⟩))

/-! ## The pruned automaton -/

theorem states_prune (d : Dfa σ) : d.prune.states = d.reachable.size := by
  rw [prune, restrict, states, List.size_toArray, List.length_map, SortedSet.size]

theorem newNumber_lt (h : d.newNumber q = some i) : i < d.prune.states := by
  rw [states_prune]
  exact (List.getElem?_eq_some_iff.mp (newNumber_eq_some_iff.mp h)).1

theorem newNumber_start (d : Dfa σ) : d.newNumber d.start = some d.prune.start := by
  obtain ⟨i, hi⟩ := exists_newNumber (show d.run [] = some d.start from rfl)
  have hstart : d.prune.start = (d.newNumber d.start).getD 0 := rfl
  rw [hstart, hi]
  rfl

/-- A new number moves as its state does. -/
theorem step_prune (h : d.newNumber q = some i) (a : σ) :
    d.prune.step i a = (d.step q a).bind d.newNumber := by
  have hrow : d.prune.row i = (d.row q).filterMap d.newNumber := by
    rw [row, Array.getD_eq_getD_getElem?, prune, restrict, List.getElem?_toArray,
      List.getElem?_map, newNumber_eq_some_iff.mp h]
    rfl
  rw [step, hrow, SortedMap.get?_filterMap, step]

theorem mem_finals_prune : i ∈ d.prune.finals ↔ ∃ q, q ∈ d.finals ∧ d.newNumber q = some i := by
  rw [prune, restrict]
  exact SortedSet.mem_ofList.trans List.mem_filterMap

theorem wellFormed_prune (d : Dfa σ) : d.prune.WellFormed := by
  refine ⟨newNumber_lt d.newNumber_start, fun i hi => ?_, fun i a j hij => ?_⟩
  · obtain ⟨q, _, hq⟩ := mem_finals_prune.mp hi
    exact newNumber_lt hq
  · have hi := lt_of_step hij
    rw [states_prune] at hi
    rw [step_prune (newNumber_eq_some_iff.mpr (List.getElem?_eq_getElem hi))] at hij
    obtain ⟨p, _, hp⟩ := Option.bind_eq_some_iff.mp hij
    exact newNumber_lt hp

/-! ## Runs -/

theorem run_prune (d : Dfa σ) (w : List σ) : d.prune.run w = (d.run w).bind d.newNumber := by
  induction w using List.reverseRecOn with
  | nil => exact d.newNumber_start.symm
  | append_singleton w a ih =>
      rw [run_concat, run_concat, ih]
      cases hw : d.run w with
      | none => rfl
      | some q =>
          obtain ⟨i, hi⟩ := exists_newNumber hw
          rw [Option.bind_some, Option.bind_some, hi]
          exact step_prune hi a

theorem reachable_prune (d : Dfa σ) : d.prune.Reachable := by
  intro i hi
  rw [states_prune] at hi
  have hq := newNumber_eq_some_iff.mpr (List.getElem?_eq_getElem hi)
  obtain ⟨w, hw⟩ := mem_reachable_iff.mp (isSome_newNumber.mp (Option.isSome_of_eq_some hq))
  exact ⟨w, by rw [run_prune, hw, Option.bind_some, hq]⟩

/-- Pruning changes nothing that runs can show. -/
theorem sameRuns_prune (d : Dfa σ) : SameRuns d d.prune := by
  refine .of_bind d.run_prune (fun w q hq => ?_) (fun p q i => newNumber_inj) fun q i hq => ?_
  · exact isSome_newNumber.mpr (mem_reachable_iff.mpr ⟨w, hq⟩)
  · rw [mem_finals_prune]
    constructor
    · rintro ⟨p, hp, hpi⟩
      rwa [newNumber_inj hq hpi]
    · exact fun hfinal => ⟨q, hfinal, hq⟩

end Dfa

end FiniteState
