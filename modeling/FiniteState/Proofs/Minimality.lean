import FiniteState.Proofs.Minimization
import Mathlib.Data.Fintype.Card

/-!
# Minimality

No automaton with the same behaviour has fewer states than the minimized
one, if every state of the original is reached by some run. A competitor
is in some state after a word that leads to the first state of a class.
Two classes never share such a state: from there on the competitor knows
no difference, so the classes would be indistinguishable
(`states_minimize_le`).

There are two readings of the same behaviour. A competitor may have to
agree on which runs are defined; or, if every state of the original can
still reach an accepting state, it may do what it likes with words that
begin no accepted word. In the second case a run that is defined shows in
an accepted word, and so do differences (`indistinguishable_of_accepting`).
-/

namespace FiniteState

namespace Dfa

variable {σ : Type} [Alphabet σ] {d e : Dfa σ} {p q : State}

/-- From every state some run ends in an accepting state. -/
def Productive (d : Dfa σ) : Prop :=
  ∀ q, q < d.states → ∃ w p, d.runFrom q w = some p ∧ p ∈ d.finals

/-- Where an accepting state is never out of reach, states that accept the
same words are indistinguishable. -/
theorem indistinguishable_of_accepting (hd : d.WellFormed) (hprod : d.Productive)
    (hp : p < d.states) (hq : q < d.states)
    (h : ∀ w, d.outcome false p w = some .accepting ↔ d.outcome false q w = some .accepting) :
    d.Indistinguishable false p q := by
  have hdefined : ∀ {p q}, p < d.states →
      (∀ w, d.outcome false p w = some .accepting → d.outcome false q w = some .accepting) →
      ∀ w, (d.runFrom p w).isSome = true → (d.runFrom q w).isSome = true := by
    intro p q hp himp w hw
    obtain ⟨p', hp'⟩ := Option.isSome_iff_exists.mp hw
    obtain ⟨x, r, hr, hfinal⟩ := hprod p' (hd.runFrom_lt hp hp')
    have hthrough : d.outcome false p (w ++ x) = some .accepting := by
      rw [outcome_eq_accepting_iff, runFrom_append, hp']
      exact ⟨r, hr, hfinal⟩
    obtain ⟨s, hs, _⟩ := outcome_eq_accepting_iff.mp (himp _ hthrough)
    rw [runFrom_append] at hs
    obtain ⟨q', hq', _⟩ := Option.bind_eq_some_iff.mp hs
    rw [hq']
    rfl
  intro w
  refine outcome_ext (Bool.eq_iff_iff.mpr ⟨?_, ?_⟩) (h w)
  · exact hdefined hp (fun w => (h w).mp) w
  · exact hdefined hq (fun w => (h w).mpr) w

/-- A competitor has a state for each class if it reads all words that lead
to one, and words that lead to distinguishable states keep it apart. -/
theorem states_minimize_le (hd : d.WellFormed) (he : e.WellFormed) (hreach : d.Reachable)
    (hdefined : ∀ w, (d.run w).isSome = true → (e.run w).isSome = true)
    (hapart : ∀ v w p q t, d.run v = some p → d.run w = some q → e.run v = some t →
      e.run w = some t → d.Indistinguishable false p q) :
    (d.minimize false).value.states ≤ e.states := by
  rw [states_minimize hd]
  have hstate : ∀ i : Fin (d.firstStates false).length, ∃ w f t, d.run w = some f ∧
      d.classOf false f = i ∧ e.run w = some t := by
    intro i
    obtain ⟨f, _, hf, hclass, _⟩ := exists_firstState hd i.isLt
    obtain ⟨w, hw⟩ := hreach f hf
    obtain ⟨t, ht⟩ := Option.isSome_iff_exists.mp (hdefined w (by rw [hw]; rfl))
    exact ⟨w, f, t, hw, hclass, ht⟩
  choose word first state hrun hclass hcompetitor using hstate
  let place : Fin (d.firstStates false).length → Fin e.states := fun i =>
    ⟨state i, he.run_lt (hcompetitor i)⟩
  have hinj : Function.Injective place := by
    intro i j hij
    have hsame : state i = state j := congrArg Fin.val hij
    have halike := hapart (word i) (word j) (first i) (first j) (state i) (hrun i) (hrun j)
      (hcompetitor i) (hsame ▸ hcompetitor j)
    have hlt := fun i => hd.run_lt (hrun i)
    rw [← classOf_eq_classOf_iff hd (hlt i) (hlt j), hclass, hclass] at halike
    exact Fin.ext halike
  simpa using Fintype.card_le_of_injective place hinj

/-- What is seen of a state is what is seen of the state in which an
automaton with the same runs and the same words then is. -/
theorem outcome_eq_of_same_runs (hdefined : ∀ w, (e.run w).isSome = (d.run w).isSome)
    (haccepts : ∀ w, e.accepts w = d.accepts w) {v : List σ} {t : State} (hp : d.run v = some p)
    (ht : e.run v = some t) (w : List σ) : d.outcome false p w = e.outcome false t w := by
  refine outcome_ext ?_ ?_
  · have := hdefined (v ++ w)
    rw [run_append, run_append, hp, ht] at this
    exact this.symm
  · rw [← accepts_append_iff hp, ← accepts_append_iff ht, haccepts]

/-- **Minimality.** Where every state of an automaton is reachable, no
automaton that accepts the same words has fewer states than the minimized
one, provided that it reads the same words to their end, or else that an
accepting state can be reached from every state. -/
theorem minimize_has_fewest_states (hd : d.WellFormed) (he : e.WellFormed) (hreach : d.Reachable)
    (haccepts : ∀ w, e.accepts w = d.accepts w) :
    ((∀ w, (e.run w).isSome = (d.run w).isSome) → (d.minimize false).value.states ≤ e.states) ∧
      (d.Productive → (d.minimize false).value.states ≤ e.states) := by
  constructor
  · intro hdefined
    refine states_minimize_le hd he hreach (fun w hw => (hdefined w).trans hw) ?_
    intro v w p q t hp hq hv hw x
    exact (outcome_eq_of_same_runs hdefined haccepts hp hv x).trans
      (outcome_eq_of_same_runs hdefined haccepts hq hw x).symm
  · intro hprod
    refine states_minimize_le hd he hreach ?_ ?_
    · intro w hw
      obtain ⟨q, hq⟩ := Option.isSome_iff_exists.mp hw
      obtain ⟨x, p, hp, hfinal⟩ := hprod q (hd.run_lt hq)
      have haccept : e.accepts (w ++ x) = true := by
        rw [haccepts, accepts_append_iff hq]
        exact outcome_eq_accepting_iff.mpr ⟨p, hp, hfinal⟩
      obtain ⟨t, ht, _⟩ := accepts_iff.mp haccept
      rw [run_append] at ht
      obtain ⟨t', ht', _⟩ := Option.bind_eq_some_iff.mp ht
      rw [ht']
      rfl
    · intro v w p q t hp hq hv hw
      refine indistinguishable_of_accepting hd hprod (hd.run_lt hp) (hd.run_lt hq) fun x => ?_
      rw [← accepts_append_iff hp, ← accepts_append_iff hq, ← haccepts, ← haccepts,
        accepts_append_iff hv, accepts_append_iff hw]

/-- Two accepting states in turn. -/
def alternating : Dfa Char where
  rows := #[.singleton 'a' 1, .singleton 'a' 0]
  start := 0
  finals := ⟨[0, 1], by decide⟩

/-- One accepting state with a move to itself. -/
def loop : Dfa Char where
  rows := #[.singleton 'a' 0]
  start := 0
  finals := .singleton 0

theorem minimize_alternating_le_loop :
    (∀ w, (loop.run w).isSome = (alternating.run w).isSome) ∧ alternating.Productive ∧
      (alternating.minimize false).value.states ≤ loop.states := by
  have hd : alternating.WellFormed := by decide
  have he : loop.WellFormed := by decide
  have hcases : ∀ q, q < alternating.states → q = 0 ∨ q = 1 := fun q (hq : q < 2) => by omega
  have hfinals : ∀ q, q < alternating.states → q ∈ alternating.finals := by
    intro q hq
    rcases hcases q hq with rfl | rfl <;> decide
  have hstep : ∀ q a, q < alternating.states →
      loop.step 0 a = (alternating.step q a).map fun _ => 0 := by
    intro q a hq
    rcases hcases q hq with rfl | rfl <;>
      simp [step, row, loop, alternating, apply_ite]
  have hrun : ∀ w, loop.run w = (alternating.run w).map fun _ => 0 := fun w =>
    hd.runFrom_map hstep hd.start_lt w
  have hsome : ∀ w, (loop.run w).isSome = (alternating.run w).isSome := fun w => by
    rw [hrun, Option.isSome_map]
  have haccepts : ∀ w, loop.accepts w = alternating.accepts w := by
    intro w
    rw [Bool.eq_iff_iff, accepts_iff, accepts_iff, hrun]
    constructor
    · rintro ⟨_, hq, _⟩
      obtain ⟨q, hq, _⟩ := Option.map_eq_some_iff.mp hq
      exact ⟨q, hq, hfinals q (hd.run_lt hq)⟩
    · rintro ⟨q, hq, _⟩
      exact ⟨0, by rw [hq]; rfl, by decide⟩
  have hreach : alternating.Reachable := by
    intro q hq
    rcases hcases q hq with rfl | rfl
    · exact ⟨[], rfl⟩
    · exact ⟨['a'], by decide⟩
  have hprod : alternating.Productive := fun q hq => ⟨[], q, rfl, hfinals q hq⟩
  exact ⟨hsome, hprod, (minimize_has_fewest_states hd he hreach haccepts).1 hsome⟩

end Dfa

end FiniteState
