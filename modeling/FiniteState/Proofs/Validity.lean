import FiniteState.Proofs.Made
import FiniteState.Proofs.Strict.Dfa
import FiniteState.Proofs.Strict.Nfa

/-!
# Valid throughout

What was proved of automata that can be made, put together. They are valid,
so every construction on them finds whatever it looks up by number: the
strict forms of pruning, of every round of refinement, of minimization and
of the regular operations succeed, with the same results. And a symbol that
no state moves on, which an epsilon symbol always is, cannot be read.
-/

namespace FiniteState

open UnionFind

variable {σ : Type} [Alphabet σ]

/-- **Whatever is made is valid.** An automaton made by any number of
operations has a state, names no state but its own and stores nothing under
an epsilon symbol; its vocabulary holds just the symbols with a target, also
where it was taken from a nondeterministic automaton. So no construction
looks up a number that is out of range, and no word with a symbol outside the
vocabulary is accepted. -/
theorem made_valid_throughout {n m : Nfa σ} {d : Dfa σ} (hn : n.Made) (hm : m.Made)
    (hd : d.Made) :
    (0 < n.states ∧ n.Valid ∧ ∀ a, a ∈ n.vocabulary ↔ ∃ q p, p ∈ (n.node q).targets a) ∧
    (0 < d.states ∧ d.Valid ∧ ∀ a, a ∈ d.vocabulary ↔ ∃ q p, d.step q a = some p) ∧
    (∀ e, Dfa.ofNfa n = .ok e → e.vocabulary = n.vocabulary) ∧
    (d.reachable? = some d.reachable ∧ d.prune? = some d.prune ∧
      (∀ u : UnionFind, u.Sound → u.elements = d.states → d.refine? u = some (d.refine u)) ∧
      ∀ separateFinals,
        d.minimize? separateFinals = some (d.minimize separateFinals).value) ∧
    (n.union? m = some (n.union m) ∧ n.concatenate? m = some (n.concatenate m) ∧
      n.star? = some n.star) ∧
    (∀ a w, a ∈ w → (¬ a ∈ n.vocabulary → n.accepts w = false) ∧
      (¬ a ∈ d.vocabulary → d.accepts w = false)) ∧
    ∀ a, Alphabet.isEpsilon a = true → ¬ a ∈ n.vocabulary ∧ ¬ a ∈ d.vocabulary := by
  have hnv := hn.valid
  have hmv := hm.valid
  have hdv := hd.valid
  refine ⟨⟨hnv.states_pos, hnv, fun _ => Nfa.mem_vocabulary_iff⟩,
    ⟨hdv.states_pos, hdv, fun _ => Dfa.mem_vocabulary_iff⟩,
    fun _ => Dfa.vocabulary_of_ofNfa, ⟨hdv.reachable?_eq, hdv.prune?_eq, ?_, hdv.minimize?_eq⟩,
    ⟨hnv.union?_eq hmv.toWellFormed, hnv.concatenate?_eq hmv.toWellFormed, hnv.star?_eq⟩, ?_, ?_⟩
  · exact fun u hsound helements => Dfa.Partitions.refine?_eq hdv.toWellFormed ⟨hsound, helements⟩
  · exact fun a w hw => ⟨fun ha => Nfa.accepts_eq_false ha hw, fun ha => Dfa.accepts_eq_false ha hw⟩
  · exact fun a ha => ⟨hnv.not_mem_vocabulary ha, hdv.not_mem_vocabulary ha⟩

/-- Any number of tokens. -/
def Nfa.tokens : Nfa String := (Nfa.symbol "token").star

/-- An epsilon move that was asked for as a token. -/
def Nfa.skip : Nfa String := Nfa.symbol ""

theorem tokens_valid_throughout :
    Nfa.tokens.Valid ∧ Nfa.tokens.union? Nfa.skip = some (Nfa.tokens.union Nfa.skip) ∧
      Nfa.tokens.toDfa.minimize? true = some (Nfa.tokens.toDfa.minimize true).value ∧
      Nfa.tokens.accepts ["token", "", "token"] = false ∧
      Nfa.tokens.toDfa.accepts ["token", "", "token"] = false := by
  have htokens : Nfa.tokens.Made := .star (.symbol "token")
  obtain ⟨⟨_, hvalid, _⟩, _, _, ⟨_, _, _, hminimize⟩, ⟨hunion, _⟩, hreject, hepsilon⟩ :=
    made_valid_throughout htokens (.symbol "") (.toDfa htokens)
  have hsymbols := hepsilon "" (by decide)
  have hwords := hreject "" ["token", "", "token"] (by decide)
  exact ⟨hvalid, hunion, hminimize true, hwords.1 hsymbols.1, hwords.2 hsymbols.2⟩

end FiniteState
