import FiniteState.Nfa.Basic

/-!
# Machines that agree

Two machines agree if they answer the questions about their states, their
symbols and their single moves alike (`Machine.Agree`). What follows from
single moves is then alike as well: the moves of sets of states, and their
closures, whichever worklists these are found with. Nondeterministic
automata that agree accept the same words.
-/

namespace FiniteState

variable {σ : Type} [Alphabet σ]

namespace Machine

variable {M N : Type} [Machine M σ] [Machine N σ] {m : M} {n : N}

/-- The same states, symbols and single moves. -/
structure Agree (m : M) (n : N) : Prop where
  states_eq : states m = states n
  start_eq : start m = start n
  finals_eq : finals m = finals n
  vocabulary_eq : vocabulary m = vocabulary n
  targets_eq : ∀ q a, targets m q a = targets n q a
  epsilonTargets_eq : ∀ q, epsilonTargets m q = epsilonTargets n q

namespace Agree

theorem isFinal_eq (h : Agree m n) (q : State) : isFinal m q = isFinal n q := by
  unfold isFinal
  rw [h.finals_eq]

theorem moveOn_eq (h : Agree m n) (s : StateSet) (a : σ) : moveOn m s a = moveOn n s a := by
  refine SortedSet.ext fun p => ?_
  rw [mem_moveOn, mem_moveOn]
  simp only [h.targets_eq]

theorem closureBy_eq (h : Agree m n) (ω ω' : Type) [Worklist ω State] [Worklist ω' State]
    (s : StateSet) : closureBy ω m s = closureBy ω' n s := by
  refine SortedSet.ext fun p => ?_
  rw [mem_closureBy, mem_closureBy]
  simp only [h.epsilonTargets_eq]

theorem closure_eq (h : Agree m n) (s : StateSet) : closure m s = closure n s :=
  h.closureBy_eq (Stack State) (Stack State) s

end Agree

end Machine

namespace Nfa

variable {n m : Nfa σ}

theorem live_eq_of_agree (h : Machine.Agree n m) (w : List σ) : n.live w = m.live w := by
  have hinitial : n.initial = m.initial := by
    have hstart : n.start = m.start := h.start_eq
    rw [initial, initial, h.closure_eq, hstart]
  have hadvance : n.advance = m.advance := by
    funext s a
    rw [advance, advance, h.moveOn_eq, h.closure_eq]
  rw [live, live, hinitial, hadvance]

theorem accepts_eq_of_agree (h : Machine.Agree n m) (w : List σ) : n.accepts w = m.accepts w := by
  have hfinals : n.finals = m.finals := h.finals_eq
  rw [accepts, accepts, live_eq_of_agree h, hfinals]

end Nfa

end FiniteState
