import FiniteState.Proofs.Continuations
import FiniteState.Proofs.Determinization
import FiniteState.Proofs.Dfa.Ordered
import FiniteState.Proofs.Nfa.Combine
import Mathlib.Data.List.Permutation

/-!
# A canonical form

Determinizing and then minimizing gives equal automata, numbers included,
for automata that accept the same words and are alive after the same
words. Subset construction numbers its states by least words
(`ordered_toDfa`). Minimization numbers a class by its smallest state, so
that it keeps this order (`Ordered.minimize`), and which words lead to one
state of the minimized automaton is known from the words that are read and
accepted (`sameRuns_minimize_of_accepts_eq`). An ordered automaton is
determined by its runs, so the minimized one is determined by what words it
reads and accepts (`minimize_eq_iff`).

In a trim automaton the words after which it is alive are known from
those that it accepts, and all automata made by the regular operations
are trim: of these the form decides whether they accept the same words.
-/

namespace FiniteState

namespace Dfa

variable {σ : Type} [Alphabet σ] {d e : Dfa σ} {separateFinals : Bool} {v w : List σ}
  {words : List (List σ)} {q : State}

/-! ## Minimized automata -/

/-- The word of a state leads to its class. -/
theorem OrderedBy.run_minimize (hd : d.WellFormed) (h : d.OrderedBy words) (hq : q < d.states) :
    (d.minimize separateFinals).value.run (words.getD q []) =
      some (d.classOf separateFinals q) := by
  rw [Dfa.run_minimize hd, h.run_eq (h.getElem?_eq hq)]
  rfl

/-- The least words to the classes are those to their first states. -/
theorem OrderedBy.leastWords_minimize (hd : d.WellFormed) (h : d.OrderedBy words)
    (separateFinals : Bool) : LeastWords (d.minimize separateFinals).value.run
      ((d.firstStates separateFinals).map (words.getD · [])) := by
  constructor
  · refine List.pairwise_map.mpr ?_
    refine (sorted_firstStates separateFinals d).imp_of_mem fun {f g} hf hg hfg => ?_
    exact h.precedes_of_lt (h.getElem?_eq (firstState_spec hd hf).1)
      (h.getElem?_eq (firstState_spec hd hg).1) hfg
  · intro v hv
    obtain ⟨f, hf, rfl⟩ := List.mem_map.mp hv
    obtain ⟨hlt, hle⟩ := firstState_spec hd hf
    rw [h.run_minimize hd hlt]
    refine ⟨rfl, fun w hw => ?_⟩
    rw [Dfa.run_minimize hd] at hw
    obtain ⟨q, hq, hclass⟩ := Option.map_eq_some_iff.mp hw
    have hword := h.getElem?_eq (hd.run_lt hq)
    -- the first state of the class comes no later than the one that the word leads to
    exact (h.le_of_le (h.getElem?_eq hlt) hword (hle q (hd.run_lt hq) hclass)).trans
      (h.le_of_run_eq hword hq)
  · intro w hw
    rw [Dfa.run_minimize hd, Option.isSome_map] at hw
    obtain ⟨q, hq⟩ := Option.isSome_iff_exists.mp hw
    obtain ⟨f, hf, hlt, hclass, _⟩ :=
      exists_firstState hd (classOf_lt hd separateFinals (hd.run_lt hq))
    refine ⟨_, List.mem_map.mpr ⟨f, List.mem_of_getElem? hf, rfl⟩, ?_⟩
    rw [h.run_minimize hd hlt, Dfa.run_minimize hd, hq, hclass]
    rfl

/-- Minimization keeps the order, as a class is numbered by its first
state. -/
theorem Ordered.minimize (hd : d.WellFormed) (h : d.Ordered) (separateFinals : Bool) :
    (d.minimize separateFinals).value.Ordered := by
  obtain ⟨words, hwords⟩ := h
  refine ⟨_, hwords.leastWords_minimize hd separateFinals, List.ext_getElem? fun i => ?_⟩
  rw [List.map_map, List.getElem?_map, List.getElem?_map, states_minimize hd]
  by_cases hi : i < (d.firstStates separateFinals).length
  · obtain ⟨f, hf, hlt, hclass, _⟩ := exists_firstState hd hi
    rw [hf, Option.map_some, Function.comp_apply, hwords.run_minimize hd hlt, hclass,
      List.getElem?_range hi]
    rfl
  · rw [List.getElem?_eq_none (Nat.le_of_not_lt hi), List.getElem?_eq_none]
    · rfl
    · rw [List.length_range]
      exact Nat.le_of_not_lt hi

/-- Minimizing ordered automata gives equal ones exactly if they read and
accept the same words. -/
theorem minimize_eq_iff (hd : d.WellFormed) (he : e.WellFormed) (hdo : d.Ordered)
    (heo : e.Ordered) :
    (d.minimize false).value = (e.minimize false).value ↔
      ∀ w, (d.run w).isSome = (e.run w).isSome ∧ d.accepts w = e.accepts w := by
  constructor
  · intro heq w
    rw [← isSome_run_minimize hd false, ← isSome_run_minimize he false,
      ← accepts_minimize hd false, ← accepts_minimize he false, heq]
    exact ⟨rfl, rfl⟩
  · intro hsame
    refine eq_of_ordered (wellFormed_minimize hd false) (wellFormed_minimize he false)
      (hdo.minimize hd false) (heo.minimize he false) ?_
    exact sameRuns_minimize_of_accepts_eq hd he (fun w => (hsame w).1) fun w => (hsame w).2

end Dfa

namespace Nfa

variable {σ : Type} [Alphabet σ]

/-! ## The canonical form -/

/-- A run is in the number of the set to which the search has walked. -/
theorem run_toDfa_eq_bind (n : Nfa σ) (w : List σ) :
    n.toDfa.run w = (Search.walk n.advance? n.initial w).bind (n.subsets none).number? := by
  rw [run_toDfa]
  cases hs : Search.walk n.advance? n.initial w with
  | some s =>
      obtain ⟨rfl, _⟩ := walk_advance?_eq_some_iff.mp hs
      rfl
  | none =>
      have hempty : n.live w = ∅ := Decidable.not_not.mp fun hne =>
        Option.some_ne_none _ ((walk_advance?_eq_some_iff.mpr ⟨rfl, hne⟩).symm.trans hs)
      rw [hempty, number?_empty]
      rfl

/-- Subset construction numbers its states by the least words to them. -/
theorem ordered_toDfa (n : Nfa σ) : n.toDfa.Ordered := by
  obtain ⟨words, hwords, hmap⟩ := n.subsets_leastWords
  have hrun : n.toDfa.run = fun w =>
      (Search.walk n.advance? n.initial w).bind (n.subsets none).number? :=
    funext n.run_toDfa_eq_bind
  refine ⟨words, ?_, ?_⟩
  · rw [hrun]
    refine hwords.bind (fun w s hs => ?_) (fun s t i hs ht => ?_)
    · obtain ⟨hlive, hne⟩ := walk_advance?_eq_some_iff.mp hs
      exact Numbering.isSome_number?.mpr (mem_subsets.mpr ⟨w, hlive, hne⟩)
    · exact Numbering.number?_inj hs ht
  · have hnumbers : words.map n.toDfa.run =
        (n.subsets none).toList.map (n.subsets none).number? := by
      have := congrArg (List.map (·.bind (n.subsets none).number?)) hmap
      rw [List.map_map, List.map_map] at this
      rw [hrun]
      exact this
    rw [hnumbers, states_toDfa, Numbering.map_number?_toList]

/-- Automata have one form exactly if they accept the same words and are
alive after the same words. -/
theorem minimize_toDfa_eq_iff (n m : Nfa σ) :
    (n.toDfa.minimize false).value = (m.toDfa.minimize false).value ↔
      ∀ w, n.accepts w = m.accepts w ∧ (n.live w ≠ ∅ ↔ m.live w ≠ ∅) := by
  rw [Dfa.minimize_eq_iff n.wellFormed_toDfa m.wellFormed_toDfa n.ordered_toDfa m.ordered_toDfa]
  refine forall_congr' fun w => ?_
  rw [accepts_toDfa, accepts_toDfa, ← isSome_run_toDfa, ← isSome_run_toDfa, Bool.eq_iff_iff,
    and_comm]

/-- For trim automata the accepted words decide. -/
theorem minimize_toDfa_eq_iff_of_trim {n m : Nfa σ} (hn : n.Trim) (hm : m.Trim) :
    (n.toDfa.minimize false).value = (m.toDfa.minimize false).value ↔
      ∀ w, n.accepts w = m.accepts w := by
  rw [minimize_toDfa_eq_iff]
  constructor
  · exact fun h w => (h w).1
  · intro h w
    refine ⟨h w, ?_⟩
    rw [hn.live_ne_empty_iff, hm.live_ne_empty_iff]
    exact exists_congr fun v => by rw [h]

/-- **Canonical form.** Determinizing and minimizing gives equal automata,
numbering included, exactly for automata that accept the same words and
are alive after the same words. For automata that can accept from wherever
they can be, the first condition is enough; and all automata made by the
regular operations alone are of this kind, so that for these equality of
the results decides equality of languages. -/
theorem minimize_toDfa_canonical (n m : Nfa σ) :
    let canonical := fun n : Nfa σ => (n.toDfa.minimize false).value
    (canonical n = canonical m ↔
        ∀ w, n.accepts w = m.accepts w ∧ (n.live w ≠ ∅ ↔ m.live w ≠ ∅)) ∧
      (n.Trim → m.Trim → (canonical n = canonical m ↔ ∀ w, n.accepts w = m.accepts w)) ∧
      (n.Composed → n.Trim) ∧
      (n.Composed → m.Composed →
        (canonical n = canonical m ↔ ∀ w, n.accepts w = m.accepts w)) :=
  ⟨minimize_toDfa_eq_iff n m, minimize_toDfa_eq_iff_of_trim, Composed.trim,
    fun hn hm => minimize_toDfa_eq_iff_of_trim hn.trim hm.trim⟩

/-- Repeating a repetition adds no words, as the forms of the two automata
are found to be equal. -/
theorem canonical_star_star :
    (symbol 'a').star.Trim ∧ (symbol 'a').star.star.Trim ∧
      ∀ w, (symbol 'a').star.accepts w = (symbol 'a').star.star.accepts w := by
  have hn : (symbol 'a').star.Composed := .star (.symbol 'a')
  have hm : (symbol 'a').star.star.Composed := .star hn
  obtain ⟨_, _, hcomposed, hdecides⟩ :=
    minimize_toDfa_canonical (symbol 'a').star (symbol 'a').star.star
  have heq : ((symbol 'a').star.toDfa.minimize false).value =
      ((symbol 'a').star.star.toDfa.minimize false).value := by cbv
  exact ⟨hcomposed hn, hm.trim, (hdecides hn hm).mp heq⟩

end Nfa

end FiniteState
