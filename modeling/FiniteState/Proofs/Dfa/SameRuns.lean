import FiniteState.Proofs.Dfa.Run

/-!
# Automata with the same runs

What a run can show of an automaton without the names of its states: which
words are read to their end, which of them end in one state, and which are
accepted. Automata that agree in this may still have other states beside,
which no run reaches, and may number those that runs reach in any way.

A construction that gives the states of an automaton new names, each state
one of its own, keeps the runs (`SameRuns.of_bind`); and whenever runs are
the same, one can be read off the other by renaming (`SameRuns.exists_map`).
-/

namespace FiniteState

namespace Dfa

variable {σ : Type} [Alphabet σ] {d e f : Dfa σ}

/-- The automata read the same words to their end, in one state after the
same of them, and accept the same. -/
structure SameRuns (d e : Dfa σ) : Prop where
  isSome_run : ∀ w, (d.run w).isSome = (e.run w).isSome
  run_eq_iff : ∀ v w, (d.run v).isSome = true → (d.run v = d.run w ↔ e.run v = e.run w)
  accepts_eq : ∀ w, d.accepts w = e.accepts w

namespace SameRuns

theorem symm (h : SameRuns d e) : SameRuns e d where
  isSome_run w := (h.isSome_run w).symm
  run_eq_iff v w hv := (h.run_eq_iff v w ((h.isSome_run v).trans hv)).symm
  accepts_eq w := (h.accepts_eq w).symm

theorem trans (h : SameRuns d e) (h' : SameRuns e f) : SameRuns d f where
  isSome_run w := (h.isSome_run w).trans (h'.isSome_run w)
  run_eq_iff v w hv :=
    (h.run_eq_iff v w hv).trans (h'.run_eq_iff v w ((h.isSome_run v).symm.trans hv))
  accepts_eq w := (h.accepts_eq w).trans (h'.accepts_eq w)

/-- Runs are kept when states get new names, different ones for different
states. -/
theorem of_bind {name : State → Option State} (hrun : ∀ w, e.run w = (d.run w).bind name)
    (hname : ∀ w q, d.run w = some q → (name q).isSome = true)
    (hinj : ∀ p q i, name p = some i → name q = some i → p = q)
    (hfinals : ∀ q i, name q = some i → (i ∈ e.finals ↔ q ∈ d.finals)) : SameRuns d e := by
  have hsome : ∀ w q, d.run w = some q → ∃ i, name q = some i ∧ e.run w = some i := by
    intro w q hq
    obtain ⟨i, hi⟩ := Option.isSome_iff_exists.mp (hname w q hq)
    exact ⟨i, hi, by rw [hrun, hq, Option.bind_some, hi]⟩
  have hnone : ∀ w, d.run w = none → e.run w = none := by
    intro w hw
    rw [hrun, hw, Option.bind_none]
  constructor
  · intro w
    cases hw : d.run w with
    | none => rw [hnone w hw]
    | some q =>
        obtain ⟨i, _, hi⟩ := hsome w q hw
        rw [hi]
        rfl
  · intro v w hv
    obtain ⟨p, hp⟩ := Option.isSome_iff_exists.mp hv
    obtain ⟨i, hpi, hi⟩ := hsome v p hp
    refine ⟨fun heq => by rw [hrun, hrun, heq], fun heq => ?_⟩
    rw [hi, hrun] at heq
    obtain ⟨q, hq, hqi⟩ := Option.bind_eq_some_iff.mp heq.symm
    rw [hp, hq, hinj p q i hpi hqi]
  · intro w
    cases hw : d.run w with
    | none =>
        rw [accepts, accepts, hw, hnone w hw]
        rfl
    | some q =>
        obtain ⟨i, hqi, hi⟩ := hsome w q hw
        rw [accepts, accepts, hw, hi, Option.any_some, Option.any_some]
        exact decide_eq_decide.mpr (hfinals q i hqi).symm

/-- The runs of one automaton are those of the other with states renamed. -/
theorem exists_map (h : SameRuns d e) :
    ∃ name : State → State, ∀ w, e.run w = (d.run w).map name := by
  have hstate : ∀ q, ∃ t, ∀ w, d.run w = some q → e.run w = some t := by
    intro q
    by_cases hq : ∃ v, d.run v = some q
    · obtain ⟨v, hv⟩ := hq
      have hdefined : (d.run v).isSome = true := by rw [hv]; rfl
      obtain ⟨t, ht⟩ := Option.isSome_iff_exists.mp ((h.isSome_run v).symm.trans hdefined)
      refine ⟨t, fun w hw => ?_⟩
      rw [← (h.run_eq_iff v w hdefined).mp (hv.trans hw.symm), ht]
    · exact ⟨0, fun w hw => absurd ⟨w, hw⟩ hq⟩
  obtain ⟨name, hname⟩ := Classical.skolem.mp hstate
  refine ⟨name, fun w => ?_⟩
  cases hw : d.run w with
  | none =>
      have hdead := h.isSome_run w
      rw [hw] at hdead
      exact Option.isNone_iff_eq_none.mp (Option.isSome_eq_false_iff.mp hdead.symm)
  | some q => exact hname q w hw

end SameRuns

end Dfa

end FiniteState
