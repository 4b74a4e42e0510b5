import FiniteState.Dfa.Basic

/-!
# Runs of deterministic automata

A well-formed automaton names no state but its own (`WellFormed`), so a
run that is defined stays among its states. Nothing more is asked: an
automaton may have moves left undefined, states that no run reaches, and
states from which no accepting state can be reached.
-/

namespace FiniteState

namespace Dfa

variable {σ : Type} [Alphabet σ] {d : Dfa σ} {p q : State} {a : σ} {v w : List σ}

/-- All states that the automaton names are its own. -/
structure WellFormed (d : Dfa σ) : Prop where
  start_lt : d.start < d.states
  finals_lt : ∀ q, q ∈ d.finals → q < d.states
  step_lt : ∀ q a p, d.step q a = some p → p < d.states

theorem wellFormed_iff :
    d.WellFormed ↔ d.start < d.states ∧ (∀ q ∈ d.finals.toList, q < d.states) ∧
      ∀ r ∈ d.rows.toList, ∀ p ∈ r.values, p < d.states := by
  constructor
  · intro hd
    refine ⟨hd.start_lt, hd.finals_lt, fun r hr p hp => ?_⟩
    obtain ⟨q, hq⟩ := List.mem_iff_getElem?.mp hr
    obtain ⟨a, ha⟩ := SortedMap.mem_values.mp hp
    refine hd.step_lt q a p ?_
    rw [Array.getElem?_toList] at hq
    rwa [step, row, Array.getD_eq_getD_getElem?, hq]
  · rintro ⟨hstart, hfinals, hrows⟩
    refine ⟨hstart, hfinals, fun q a p hp => ?_⟩
    rw [step, row, Array.getD_eq_getD_getElem?] at hp
    cases hq : d.rows[q]? with
    | none =>
        rw [hq] at hp
        cases hp
    | some r =>
        rw [hq] at hp
        rw [← Array.getElem?_toList] at hq
        exact hrows r (List.mem_of_getElem? hq) p (SortedMap.mem_values.mpr ⟨a, hp⟩)

instance (d : Dfa σ) : Decidable d.WellFormed := decidable_of_iff _ wellFormed_iff.symm

theorem lt_of_step (h : d.step q a = some p) : q < d.states := by
  refine Nat.lt_of_not_le fun hq => ?_
  have hrow : d.row q = ∅ := by
    rw [row, Array.getD_eq_getD_getElem?, Array.getElem?_eq_none hq]
    rfl
  rw [step, hrow, SortedMap.get?_empty] at h
  cases h

/-- A symbol on which some state moves is in the vocabulary. -/
theorem mem_vocabulary_of_step (h : d.step q a = some p) : a ∈ d.vocabulary := by
  have hq := lt_of_step h
  rw [step, row, Array.getD_eq_getD_getElem?, Array.getElem?_eq_getElem hq] at h
  refine SortedSet.mem_ofList.mpr (List.mem_flatMap.mpr ⟨_, Array.getElem_mem_toList hq, ?_⟩)
  exact SortedMap.mem_keys.mpr (Option.isSome_of_eq_some h)

/-- The vocabulary holds just the symbols on which some state moves. -/
theorem mem_vocabulary_iff : a ∈ d.vocabulary ↔ ∃ q p, d.step q a = some p := by
  constructor
  · intro h
    obtain ⟨r, hr, ha⟩ := List.mem_flatMap.mp (SortedSet.mem_ofList.mp h)
    obtain ⟨p, hp⟩ := Option.isSome_iff_exists.mp (SortedMap.mem_keys.mp ha)
    obtain ⟨q, hq⟩ := List.mem_iff_getElem?.mp hr
    rw [Array.getElem?_toList] at hq
    refine ⟨q, p, ?_⟩
    rwa [step, row, Array.getD_eq_getD_getElem?, hq]
  · rintro ⟨q, p, h⟩
    exact mem_vocabulary_of_step h

theorem WellFormed.runFrom_lt (hd : d.WellFormed) (hq : q < d.states)
    (h : d.runFrom q w = some p) : p < d.states := by
  induction w generalizing q with
  | nil =>
      obtain rfl := Option.some.inj h
      exact hq
  | cons a w ih =>
      obtain ⟨r, hr, hrun⟩ := Option.bind_eq_some_iff.mp h
      exact ih (hd.step_lt q a r hr) hrun

theorem WellFormed.run_lt (hd : d.WellFormed) (h : d.run w = some q) : q < d.states :=
  hd.runFrom_lt hd.start_lt h

theorem run_append (d : Dfa σ) (v w : List σ) :
    d.run (v ++ w) = (d.run v).bind fun p => d.runFrom p w := d.runFrom_append d.start v w

theorem run_concat (d : Dfa σ) (w : List σ) (a : σ) :
    d.run (w ++ [a]) = (d.run w).bind fun q => d.step q a := by
  rw [run_append]
  refine congrArg _ (funext fun q => ?_)
  rw [runFrom_cons]
  exact Option.bind_fun_some _

/-- Where single moves are mapped to moves, so are runs. -/
theorem WellFormed.runFrom_map {e : Dfa σ} {f : State → State} (hd : d.WellFormed)
    (hstep : ∀ q a, q < d.states → e.step (f q) a = (d.step q a).map f) (hq : q < d.states)
    (w : List σ) : e.runFrom (f q) w = (d.runFrom q w).map f := by
  induction w generalizing q with
  | nil => rfl
  | cons a w ih =>
      rw [runFrom_cons, runFrom_cons, hstep q a hq]
      cases hp : d.step q a with
      | none => rfl
      | some p => exact ih (hd.step_lt q a p hp)

/-- Some run ends in every state. -/
def Reachable (d : Dfa σ) : Prop := ∀ q, q < d.states → ∃ w, d.run w = some q

theorem accepts_iff : d.accepts w = true ↔ ∃ q, d.run w = some q ∧ q ∈ d.finals := by
  rw [accepts, Option.any_eq_true]
  simp only [decide_eq_true_eq]

end Dfa

end FiniteState
