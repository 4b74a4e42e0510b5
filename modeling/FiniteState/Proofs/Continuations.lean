import FiniteState.Proofs.Coarsest
import FiniteState.Proofs.Dfa.SameRuns
import FiniteState.Proofs.Minimization

/-!
# Minimization depends on runs alone

Whether minimization joins two states shows in the runs through them. If
words lead to the states, then it joins them exactly if the words are alike
whatever is put behind them (`run_minimize_eq_iff`): both are read to their
end or neither is, both are accepted or neither is, and if accepting states
are kept apart, an accepted one ends in the same state as the other
(`EndAlike`). None of this asks for the names of states, or for states that
no run reaches. So automata with the same runs have the same runs after
minimization as well (`SameRuns.minimize`).
-/

namespace FiniteState

namespace Dfa

variable {σ : Type} [Alphabet σ] {d e : Dfa σ} {separateFinals : Bool} {v w : List σ}

/-- The runs on two words end alike, as far as the initial split tells. -/
structure EndAlike (separateFinals : Bool) (d : Dfa σ) (v w : List σ) : Prop where
  isSome_run : (d.run v).isSome = (d.run w).isSome
  accepts_eq : d.accepts v = d.accepts w
  run_eq : separateFinals = true → d.accepts v = true → d.run v = d.run w

theorem endAlike_iff : d.EndAlike separateFinals v w ↔ (d.run v).isSome = (d.run w).isSome ∧
    d.accepts v = d.accepts w ∧
      (separateFinals = true → d.accepts v = true → d.run v = d.run w) :=
  ⟨fun ⟨hsome, haccepts, hrun⟩ => ⟨hsome, haccepts, hrun⟩,
    fun ⟨hsome, haccepts, hrun⟩ => ⟨hsome, haccepts, hrun⟩⟩

theorem rel_sameBlock_iff :
    Option.Rel (d.SameBlock separateFinals) (d.run v) (d.run w) ↔
      d.EndAlike separateFinals v w := by
  rw [endAlike_iff, accepts, accepts]
  cases d.run v <;> cases d.run w <;> simp [SameBlock]

theorem isSome_run_minimize (hd : d.WellFormed) (separateFinals : Bool) (w : List σ) :
    ((d.minimize separateFinals).value.run w).isSome = (d.run w).isSome := by
  rw [run_minimize hd, Option.isSome_map]

/-- Words lead to one state of the minimized automaton exactly if they end
alike with whatever is put behind them. -/
theorem run_minimize_eq_iff (hd : d.WellFormed) (hv : (d.run v).isSome = true) :
    (d.minimize separateFinals).value.run v = (d.minimize separateFinals).value.run w ↔
      ∀ x, d.EndAlike separateFinals (v ++ x) (w ++ x) := by
  obtain ⟨p, hp⟩ := Option.isSome_iff_exists.mp hv
  -- what is put behind the words is read from the states to which they lead
  have hstates : ∀ q, d.run w = some q → (d.Indistinguishable separateFinals p q ↔
      ∀ x, d.EndAlike separateFinals (v ++ x) (w ++ x)) := by
    intro q hq
    rw [indistinguishable_iff_rel_runFrom]
    refine forall_congr' fun x => ?_
    rw [← rel_sameBlock_iff, run_append, run_append, hp, hq]
    rfl
  rw [run_minimize hd, run_minimize hd, hp]
  cases hw : d.run w with
  | none =>
      refine ⟨fun h => (Option.some_ne_none _ h).elim, fun h => ?_⟩
      have hread := (h []).isSome_run
      rw [List.append_nil, List.append_nil, hp, hw] at hread
      cases hread
  | some q =>
      rw [← hstates q hw, ← classOf_eq_classOf_iff hd (hd.run_lt hp) (hd.run_lt hw)]
      exact Option.some_inj

/-! ## Automata compared after minimization -/

/-- The runs of the minimized automata are the same if the same words are
read and accepted, and the same words end alike. -/
theorem sameRuns_minimize (hd : d.WellFormed) (he : e.WellFormed)
    (hsome : ∀ w, (d.run w).isSome = (e.run w).isSome) (haccepts : ∀ w, d.accepts w = e.accepts w)
    (halike : ∀ v w, d.EndAlike separateFinals v w ↔ e.EndAlike separateFinals v w) :
    SameRuns (d.minimize separateFinals).value (e.minimize separateFinals).value := by
  constructor
  · intro w
    rw [isSome_run_minimize hd, isSome_run_minimize he, hsome]
  · intro v w hv
    rw [isSome_run_minimize hd] at hv
    rw [run_minimize_eq_iff hd hv, run_minimize_eq_iff he (hsome v ▸ hv)]
    exact forall_congr' fun x => halike (v ++ x) (w ++ x)
  · intro w
    rw [accepts_minimize hd, accepts_minimize he, haccepts]

theorem EndAlike.of_sameRuns (h : SameRuns d e) (halike : d.EndAlike separateFinals v w) :
    e.EndAlike separateFinals v w := by
  obtain ⟨hsome, haccepts, hrun⟩ := halike
  refine ⟨?_, ?_, fun hs hv => ?_⟩
  · rwa [← h.isSome_run, ← h.isSome_run]
  · rwa [← h.accepts_eq, ← h.accepts_eq]
  · rw [← h.accepts_eq] at hv
    obtain ⟨q, hq, _⟩ := accepts_iff.mp hv
    exact (h.run_eq_iff v w (by rw [hq]; rfl)).mp (hrun hs hv)

theorem SameRuns.minimize (h : SameRuns d e) (hd : d.WellFormed) (he : e.WellFormed)
    (separateFinals : Bool) :
    SameRuns (d.minimize separateFinals).value (e.minimize separateFinals).value :=
  sameRuns_minimize hd he h.isSome_run h.accepts_eq fun _ _ =>
    ⟨.of_sameRuns h, .of_sameRuns h.symm⟩

/-- Where accepting states are not kept apart, it is enough that the same
words are read and accepted. -/
theorem sameRuns_minimize_of_accepts_eq (hd : d.WellFormed) (he : e.WellFormed)
    (hsome : ∀ w, (d.run w).isSome = (e.run w).isSome)
    (haccepts : ∀ w, d.accepts w = e.accepts w) :
    SameRuns (d.minimize false).value (e.minimize false).value := by
  refine sameRuns_minimize hd he hsome haccepts fun v w => ?_
  rw [endAlike_iff, endAlike_iff, hsome, hsome, haccepts, haccepts]
  simp

end Dfa

end FiniteState
