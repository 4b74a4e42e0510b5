import FiniteState.Proofs.Continuations
import FiniteState.Proofs.Dfa.Image
import FiniteState.Proofs.Pruning
import Mathlib.Data.List.Permutation

/-!
# Pruning and minimizing

Unreachable states take part in minimization. They are split into classes
and may be in one class with reachable states; a class may get its number
and its row from them; and their symbols are among those by which classes
are split. None of this touches the runs: pruning keeps them, and what
minimization makes of them depends on nothing else (`SameRuns.minimize`).
So it is the same, up to the names of states, whether pruning comes first
or last (`prune_minimize_isomorphic`). The names themselves can differ, as
an unreachable state may stand before the reachable ones of its class.
-/

namespace FiniteState

namespace Dfa

variable {σ : Type} [Alphabet σ] {d : Dfa σ}

theorem sameRuns_minimize_prune (hd : d.WellFormed) (separateFinals : Bool) :
    SameRuns (d.prune.minimize separateFinals).value (d.minimize separateFinals).value.prune := by
  have hbefore := d.sameRuns_prune.minimize hd d.wellFormed_prune separateFinals
  have hafter := (d.minimize separateFinals).value.sameRuns_prune
  exact hbefore.symm.trans hafter

/-- **Pruning commutes with minimization**, up to the names of states.
Pruning before minimization and pruning after it leave as many states, and
these have the same moves under a one-to-one renaming that takes start to
start and accepting states to accepting states, whether accepting states
are kept apart or not. -/
theorem prune_minimize_isomorphic (hd : d.WellFormed) (separateFinals : Bool) :
    let before := (d.prune.minimize separateFinals).value
    let after := (d.minimize separateFinals).value.prune
    before.states = after.states ∧ Isomorphic before after := by
  have hisomorphic : Isomorphic (d.prune.minimize separateFinals).value
      (d.minimize separateFinals).value.prune :=
    (sameRuns_minimize_prune hd separateFinals).isomorphic
      (wellFormed_minimize d.wellFormed_prune separateFinals) (wellFormed_prune _)
      (reachable_minimize d.wellFormed_prune d.reachable_prune separateFinals) (reachable_prune _)
  exact ⟨hisomorphic.states_eq, hisomorphic⟩

/-- The start moves to an accepting state. An unreachable state before it
is like that one, and an unreachable state behind them is the only one to
move on a symbol of its own. -/
def strays : Dfa Char where
  rows := #[∅, .singleton 'a' 2, ∅, .singleton 'z' 2]
  start := 1
  finals := ⟨[0, 2], by decide⟩

/-- The unreachable state makes its class the first one, so that the start
keeps its number if pruning comes last. -/
theorem strays_prune_minimize : strays.WellFormed ∧
    strays.classOf false 0 = strays.classOf false 2 ∧
      (strays.prune.minimize false).value ≠ (strays.minimize false).value.prune ∧
        Isomorphic (strays.prune.minimize false).value (strays.minimize false).value.prune := by
  have hd : strays.WellFormed := by decide
  have hbefore : (strays.prune.minimize false).value.start = 0 := by cbv
  have hafter : (strays.minimize false).value.prune.start = 1 := by
    have hrows : (strays.minimize false).value.rows =
        #[∅, .singleton 'a' 0, .singleton 'z' 0] := by decide +kernel
    have hstart : (strays.minimize false).value.start = 1 := by decide +kernel
    generalize (strays.minimize false).value = m at hrows hstart
    obtain ⟨rows, start, finals⟩ := m
    subst hrows hstart
    cbv
  refine ⟨hd, by decide +kernel, fun heq => ?_, (prune_minimize_isomorphic hd false).2⟩
  have hstart := congrArg Dfa.start heq
  rw [hbefore, hafter] at hstart
  cases hstart

end Dfa

end FiniteState
