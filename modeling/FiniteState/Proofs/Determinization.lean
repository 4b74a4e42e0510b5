import FiniteState.Determinization
import FiniteState.Proofs.BreadthFirst
import FiniteState.Proofs.Dfa.Run
import FiniteState.Proofs.Nfa.Path

/-!
# Subset construction is a simulation

A run of the constructed automaton is in the number of the set of live
states (`run_toDfa`), and dies when that set becomes empty, since the
empty set gets no number. Two facts make the step: the search closes the
numbered sets under all symbols, and a symbol outside the vocabulary
leaves no state alive (`advance_eq_empty`), so trying the vocabulary is
enough. No set of states is special; nothing is asked of the automaton,
and its start may even be a state that it does not have.

The sets are numbered in the order of the least words after which they
are alive (`subsets_leastWords`), as the search goes breadth first.
-/

namespace FiniteState

namespace Nfa

open Std

variable {σ : Type} [Alphabet σ] {n : Nfa σ} {s : StateSet} {a : σ} {w : List σ} {i : Nat}

/-! ## The sets that are met -/

/-- The set that one more symbol leads to, if that is not the empty set. -/
def advance? (n : Nfa σ) (s : StateSet) (a : σ) : Option StateSet :=
  (some (n.advance s a)).filter fun t => !t.isEmpty

theorem advance?_eq_some_iff {t : StateSet} :
    n.advance? s a = some t ↔ n.advance s a = t ∧ t ≠ ∅ := by
  rw [advance?, Option.filter_eq_some_iff, Option.some.injEq, Bool.not_eq_true',
    ← Bool.not_eq_true, SortedSet.isEmpty_iff]

theorem successors_eq (n : Nfa σ) (symbols : SortedSet σ) (s : StateSet) :
    n.successors symbols s = symbols.toList.filterMap (n.advance? s) := by
  rw [successors, ← List.filterMap_eq_filter, List.filterMap_map]
  rfl

theorem mem_vocabulary_of_advance? (h : (n.advance? s a).isSome = true) : a ∈ n.vocabulary := by
  obtain ⟨t, ht⟩ := Option.isSome_iff_exists.mp h
  obtain ⟨rfl, hne⟩ := advance?_eq_some_iff.mp ht
  exact Decidable.not_not.mp fun ha => hne (advance_eq_empty s ha)

/-- The walk through sets follows the live states as long as there are
some. -/
theorem walk_advance?_eq_some_iff :
    Search.walk n.advance? n.initial w = some s ↔ n.live w = s ∧ s ≠ ∅ := by
  induction w using List.reverseRecOn generalizing s with
  | nil =>
      constructor
      · intro h
        obtain rfl := Option.some.inj h
        exact ⟨rfl, n.initial_ne_empty⟩
      · rintro ⟨rfl, _⟩
        rfl
  | append_singleton w a ih =>
      rw [Search.walk_concat, Option.bind_eq_some_iff, live_concat]
      constructor
      · rintro ⟨t, ht, hs⟩
        obtain ⟨rfl, _⟩ := ih.mp ht
        exact advance?_eq_some_iff.mp hs
      · rintro ⟨rfl, hne⟩
        refine ⟨n.live w, ih.mpr ⟨rfl, fun h => hne ?_⟩, advance?_eq_some_iff.mpr ⟨rfl, hne⟩⟩
        rw [h, advance_empty]

/-- The sets are numbered by the least words after which they are alive. -/
theorem subsets_leastWords (n : Nfa σ) :
    ∃ words, LeastWords (Search.walk n.advance? n.initial) words ∧
      words.map (Search.walk n.advance? n.initial) = (n.subsets none).toList.map some :=
  Search.search_leastWords (n.successors_eq n.vocabulary) (fun _ _ => mem_vocabulary_of_advance?)
    (n.successors_bounded n.vocabulary) n.initial

/-- Exactly the sets that are alive after some word are numbered, without
the empty one. -/
theorem mem_subsets : s ∈ n.subsets none ↔ ∃ w, n.live w = s ∧ s ≠ ∅ := by
  obtain ⟨words, hwords, heq⟩ := n.subsets_leastWords
  have hmem : s ∈ n.subsets none ↔ some s ∈ words.map (Search.walk n.advance? n.initial) := by
    rw [heq, ← Numbering.mem_toList]
    simp
  simp only [hmem, ← walk_advance?_eq_some_iff, List.mem_map]
  constructor
  · rintro ⟨w, _, hw⟩
    exact ⟨w, hw⟩
  · rintro ⟨w, hw⟩
    obtain ⟨v, hv, hvw⟩ := hwords.complete w (by rw [hw]; rfl)
    exact ⟨v, hv, hvw.trans hw⟩

theorem number?_empty (n : Nfa σ) : (n.subsets none).number? ∅ = none :=
  Numbering.number?_eq_none_iff.mpr fun h => (mem_subsets.mp h).elim fun _ hw => hw.2 rfl

/-- The search starts with the initial set. -/
theorem number?_initial (n : Nfa σ) : (n.subsets none).number? n.initial = some 0 := by
  obtain ⟨words, hwords, heq⟩ := n.subsets_leastWords
  have hnil : [] ∈ words := by
    refine hwords.mem_iff.mpr ⟨rfl, fun w _ => ?_⟩
    cases w with
    | nil => exact .inl rfl
    | cons a w => exact .inr (.of_length_lt (Nat.succ_pos _))
  cases words with
  | nil => cases hnil
  | cons v words =>
      have hv : v = [] := by
        rcases List.mem_cons.mp hnil with hv | hmem
        · exact hv.symm
        · have := (List.pairwise_cons.mp hwords.ascending).1 [] hmem
          rcases precedes_iff.mp this with h | ⟨h, _⟩
          · cases h
          · exact List.length_eq_zero_iff.mp h
      subst hv
      rw [Numbering.number?_eq_some_iff]
      cases hl : (n.subsets none).toList with
      | nil =>
          rw [hl] at heq
          cases heq
      | cons s l =>
          rw [hl] at heq
          exact (List.cons.inj heq).1.symm

/-! ## The automaton on the sets -/

theorem states_toDfa (n : Nfa σ) : n.toDfa.states = (n.subsets none).size := Array.size_map ..

/-- A number moves as its set does. -/
theorem step_toDfa (h : (n.subsets none).number? s = some i) (a : σ) :
    n.toDfa.step i a = (n.subsets none).number? (n.advance s a) := by
  have hitem : (n.subsets none).items[i]? = some s := by
    rw [← Array.getElem?_toList]
    exact Numbering.number?_eq_some_iff.mp h
  have hrow : n.toDfa.row i =
      .ofKeys n.vocabulary fun a => (n.subsets none).number? (n.advance s a) := by
    rw [Dfa.row, Array.getD_eq_getD_getElem?]
    show (((n.subsets none).items.map _)[i]?).getD ∅ = _
    rw [Array.getElem?_map, hitem]
    rfl
  rw [Dfa.step, hrow, SortedMap.get?_ofKeys]
  by_cases ha : a ∈ n.vocabulary
  · rw [if_pos ha]
  · rw [if_neg ha, advance_eq_empty s ha, number?_empty]

theorem mem_finals_toDfa :
    i ∈ n.toDfa.finals ↔ ∃ s, (n.subsets none).number? s = some i ∧ s.meets n.finals = true := by
  show i ∈ SortedSet.ofList _ ↔ _
  simp only [SortedSet.mem_ofList, List.mem_map, List.mem_filter, Numbering.number?_eq_some_iff]
  constructor
  · rintro ⟨⟨s, j⟩, ⟨hmem, hmeets⟩, rfl⟩
    exact ⟨s, List.mem_zipIdx_iff_getElem?.mp hmem, hmeets⟩
  · rintro ⟨s, hs, hmeets⟩
    exact ⟨(s, i), ⟨List.mem_zipIdx_iff_getElem?.mpr hs, hmeets⟩, rfl⟩

theorem wellFormed_toDfa (n : Nfa σ) : n.toDfa.WellFormed := by
  constructor
  · rw [states_toDfa]
    exact Numbering.number?_lt n.number?_initial
  · intro i hi
    obtain ⟨s, hs, _⟩ := mem_finals_toDfa.mp hi
    rw [states_toDfa]
    exact Numbering.number?_lt hs
  · intro i a j hij
    have hi := Dfa.lt_of_step hij
    rw [states_toDfa, ← Numbering.length_toList] at hi
    have hs := Numbering.number?_eq_some_iff.mpr (List.getElem?_eq_getElem hi)
    rw [step_toDfa hs] at hij
    rw [states_toDfa]
    exact Numbering.number?_lt hij

/-- Without a limit the construction does not fail. -/
theorem determinize_none (n : Nfa σ) : (n.determinize none).value = .ok n.toDfa := rfl

/-- A limit that is not outgrown changes nothing. -/
theorem determinize_of_not_outgrown {limit : Option Nat}
    (h : Search.outgrown limit (n.subsets limit) = false) :
    n.determinize limit = n.determinize none := by
  have hfilter : limit.filter (· < (n.subsets limit).size) = none := by
    rw [← Option.not_isSome_iff_eq_none, Option.isSome_filter]
    exact Bool.eq_false_iff.mp h
  have hsubsets : n.subsets limit = n.subsets none := Search.search_eq_of_not_outgrown h
  rw [determinize, hfilter, hsubsets]
  rfl

theorem determinize_of_outgrown {bound : Nat}
    (h : Search.outgrown (some bound) (n.subsets (some bound)) = true) :
    n.determinize (some bound) = ⟨.error (.stateLimitExceeded bound),
      ((n.subsets (some bound)).toList.mapIdx .subsetFound).take bound⟩ := by
  have hfilter : (some bound).filter (· < (n.subsets (some bound)).size) = some bound :=
    Option.filter_eq_some_iff.mpr ⟨rfl, h⟩
  rw [determinize, hfilter]

/-! ## Runs -/

/-- A run is in the number of the set of live states, if that is not
empty. -/
theorem run_toDfa (n : Nfa σ) (w : List σ) :
    n.toDfa.run w = (n.subsets none).number? (n.live w) := by
  induction w using List.reverseRecOn with
  | nil => exact n.number?_initial.symm
  | append_singleton w a ih =>
      rw [Dfa.run_concat, ih, live_concat]
      cases hi : (n.subsets none).number? (n.live w) with
      | some i => exact step_toDfa hi a
      | none =>
          have hempty : n.live w = ∅ := Decidable.not_not.mp fun hne =>
            Numbering.number?_eq_none_iff.mp hi (mem_subsets.mpr ⟨w, rfl, hne⟩)
          rw [hempty, advance_empty, number?_empty]
          rfl

/-- A run is defined as long as some state is alive. -/
theorem isSome_run_toDfa : (n.toDfa.run w).isSome = true ↔ n.live w ≠ ∅ := by
  rw [run_toDfa, Numbering.isSome_number?, mem_subsets]
  constructor
  · exact fun ⟨_, _, hne⟩ => hne
  · exact fun hne => ⟨w, rfl, hne⟩

theorem accepts_toDfa (n : Nfa σ) (w : List σ) : n.toDfa.accepts w = n.accepts w := by
  rw [Bool.eq_iff_iff, Dfa.accepts_iff, accepts, run_toDfa]
  constructor
  · rintro ⟨i, hi, hfinal⟩
    obtain ⟨s, hs, hmeets⟩ := mem_finals_toDfa.mp hfinal
    rwa [Numbering.number?_inj hi hs]
  · intro hmeets
    obtain ⟨q, hq, _⟩ := SortedSet.meets_iff.mp hmeets
    have hne : n.live w ≠ ∅ := fun h => SortedSet.not_mem_empty (h ▸ hq)
    obtain ⟨i, hi⟩ := Option.isSome_iff_exists.mp
      (Numbering.isSome_number?.mpr (mem_subsets.mpr ⟨w, rfl, hne⟩))
    exact ⟨i, hi, mem_finals_toDfa.mpr ⟨n.live w, hi, hmeets⟩⟩

/-- **Subset construction preserves the language, step by step.** The run
of the constructed automaton on a word is defined exactly if the set of
live states is empty after no beginning of the word, and the two automata
accept the same words. -/
theorem toDfa_simulates (n : Nfa σ) (w : List σ) :
    ((n.toDfa.run w).isSome = true ↔ ∀ u, u <+: w → n.live u ≠ ∅) ∧
      n.toDfa.accepts w = n.accepts w :=
  ⟨isSome_run_toDfa.trans live_ne_empty_iff, n.accepts_toDfa w⟩

end Nfa

end FiniteState
