import FiniteState.Proofs.Conversion
import FiniteState.Proofs.Enumeration
import FiniteState.Proofs.Nfa.Combine
import FiniteState.Proofs.Passes

/-!
# Vocabularies of what is made from automata

A symbol is in the vocabulary just if some node moves on it, so it is enough to know
which nodes an operation keeps, and what becomes of their moves:

- A combination keeps the nodes of its operands, each move with its targets shifted; the
  fresh states and the exits have epsilon moves only (`Node.moves_shift`,
  `exists_mem_embed_moves`). The vocabularies are put together.
- Minimization keeps one state of each class. No symbol is lost with the others, since
  the members of a class move on the same symbols: the result is an image
  (`ImageUnder.vocabulary_eq`).
- Subset construction and pruning make automata all of whose states are reached. There a
  symbol is in the vocabulary just if it can be read after some word
  (`Reachable.mem_vocabulary_iff`), and what can be read is the same as before.
-/

namespace FiniteState

/-! ## Moves of nodes -/

namespace Nfa

variable {σ : Type} [Alphabet σ] {n m : Nfa σ} {v : Nfa.Node σ} {offset : Nat} {exits : StateSet}
  {a : σ}

/-- Whether a node has a target on a symbol. -/
def Node.Moves (v : Node σ) (a : σ) : Prop := ∃ p, p ∈ v.targets a

theorem Node.not_moves_silent (s : StateSet) : ¬ ({ epsilon := s } : Node σ).Moves a :=
  fun ⟨_, hp⟩ => SortedSet.not_mem_empty hp

theorem Node.moves_shift : (v.shift offset).Moves a ↔ v.Moves a := by
  constructor
  · rintro ⟨p, hp⟩
    obtain ⟨r, hr, _⟩ := mem_targets_shift.mp hp
    exact ⟨r, hr⟩
  · rintro ⟨r, hr⟩
    exact ⟨r + offset, mem_targets_shift.mpr ⟨r, hr, rfl⟩⟩

theorem Node.moves_withExits : (v.withExits exits).Moves a ↔ v.Moves a := Iff.rfl

theorem mem_vocabulary_iff_moves : a ∈ n.vocabulary ↔ ∃ v ∈ n.nodes, v.Moves a := by
  rw [mem_vocabulary_iff]
  constructor
  · rintro ⟨q, hq⟩
    rcases n.node_mem_or_eq q with hmem | hdefault
    · exact ⟨n.node q, hmem, hq⟩
    · rw [hdefault] at hq
      exact absurd hq (Node.not_moves_silent ∅)
  · rintro ⟨v, hv, hmoves⟩
    obtain ⟨q, hq, rfl⟩ := Array.mem_iff_getElem.mp hv
    rw [getElem_nodes hq] at hmoves
    exact ⟨q, hmoves⟩

/-! ## Combinations -/

/-- An operand brings its vocabulary. -/
theorem exists_mem_embed_moves : (∃ v ∈ n.embed offset exits, v.Moves a) ↔ a ∈ n.vocabulary := by
  constructor
  · rintro ⟨v, hv, hmoves⟩
    rw [mem_vocabulary_iff]
    obtain ⟨q, rfl | rfl⟩ := exists_of_mem_embed hv
    · exact ⟨q, Node.moves_shift.mp hmoves⟩
    · exact ⟨q, Node.moves_shift.mp (Node.moves_withExits.mp hmoves)⟩
  · intro ha
    obtain ⟨v, hv, hmoves⟩ := mem_vocabulary_iff_moves.mp ha
    obtain ⟨q, hq, rfl⟩ := Array.mem_iff_getElem.mp hv
    rw [getElem_nodes hq] at hmoves
    refine ⟨_, Array.mem_of_getElem? (getElem?_embed offset exits hq), ?_⟩
    split
    · exact Node.moves_withExits.mpr (Node.moves_shift.mpr hmoves)
    · exact Node.moves_shift.mpr hmoves

theorem vocabulary_union (n m : Nfa σ) : (n.union m).vocabulary = n.vocabulary ∪ m.vocabulary := by
  refine SortedSet.ext fun a => ?_
  rw [mem_vocabulary_iff_moves, SortedSet.mem_union]
  simp only [mem_nodes_union, or_and_right, exists_or, exists_eq_left, exists_mem_embed_moves,
    Node.not_moves_silent, false_or, or_false]

theorem vocabulary_concatenate (n m : Nfa σ) :
    (n.concatenate m).vocabulary = n.vocabulary ∪ m.vocabulary := by
  refine SortedSet.ext fun a => ?_
  rw [mem_vocabulary_iff_moves, SortedSet.mem_union]
  simp only [mem_nodes_concatenate, or_and_right, exists_or, exists_eq_left,
    exists_mem_embed_moves, Node.not_moves_silent, or_false]

theorem vocabulary_star (n : Nfa σ) : n.star.vocabulary = n.vocabulary := by
  refine SortedSet.ext fun a => ?_
  rw [mem_vocabulary_iff_moves]
  simp only [mem_nodes_star, or_and_right, exists_or, exists_eq_left, exists_mem_embed_moves,
    Node.not_moves_silent, false_or, or_false]

end Nfa

/-! ## Deterministic automata -/

namespace Dfa

variable {σ : Type} [Alphabet σ] {d e : Dfa σ} {a : σ} {w : List σ}

/-- The members of a class move on the symbols on which the class moves. -/
theorem ImageUnder.vocabulary_eq {name : State → State} (h : e.ImageUnder d name) :
    e.vocabulary = d.vocabulary := by
  refine SortedSet.ext fun a => ?_
  rw [mem_vocabulary_iff, mem_vocabulary_iff]
  constructor
  · rintro ⟨i, j, hij⟩
    obtain ⟨q, hq, rfl⟩ := (h.lt_states_iff i).mp (lt_of_step hij)
    rw [h.step_eq q a hq] at hij
    obtain ⟨p, hp, _⟩ := Option.map_eq_some_iff.mp hij
    exact ⟨q, p, hp⟩
  · rintro ⟨q, p, hp⟩
    refine ⟨name q, name p, ?_⟩
    rw [h.step_eq q a (lt_of_step hp), hp, Option.map_some]

theorem isSome_run_concat : (d.run (w ++ [a])).isSome = true ↔
    ∃ q p, d.run w = some q ∧ d.step q a = some p := by
  rw [run_concat, Option.isSome_iff_exists]
  constructor
  · rintro ⟨p, hp⟩
    obtain ⟨q, hq, hqp⟩ := Option.bind_eq_some_iff.mp hp
    exact ⟨q, p, hq, hqp⟩
  · rintro ⟨q, p, hq, hqp⟩
    exact ⟨p, Option.bind_eq_some_iff.mpr ⟨q, hq, hqp⟩⟩

/-- Where runs end in all states, a symbol is in the vocabulary just if it can be read
after some word. -/
theorem Reachable.mem_vocabulary_iff (h : d.Reachable) :
    a ∈ d.vocabulary ↔ ∃ w, (d.run (w ++ [a])).isSome = true := by
  rw [Dfa.mem_vocabulary_iff]
  constructor
  · rintro ⟨q, p, hp⟩
    obtain ⟨w, hw⟩ := h q (lt_of_step hp)
    exact ⟨w, isSome_run_concat.mpr ⟨q, p, hw, hp⟩⟩
  · rintro ⟨w, hw⟩
    obtain ⟨q, p, _, hp⟩ := isSome_run_concat.mp hw
    exact ⟨q, p, hp⟩

theorem mem_vocabulary_prune :
    a ∈ d.prune.vocabulary ↔ ∃ w q p, d.run w = some q ∧ d.step q a = some p := by
  rw [d.reachable_prune.mem_vocabulary_iff]
  refine exists_congr fun w => ?_
  rw [← d.sameRuns_prune.isSome_run, isSome_run_concat]

end Dfa

namespace Nfa

variable {σ : Type} [Alphabet σ] {n : Nfa σ} {w : List σ} {a : σ}

theorem live_concat_ne_empty_iff : n.live (w ++ [a]) ≠ ∅ ↔
    ∃ q p, n.Path n.start w q ∧ p ∈ (n.node q).targets a := by
  rw [live_concat]
  constructor
  · intro hne
    by_contra hnone
    refine hne (SortedSet.eq_empty_iff.mpr fun r hr => hnone ?_)
    obtain ⟨q, p, hq, hp, _⟩ := mem_advance_iff.mp hr
    exact ⟨q, p, mem_live_iff.mp hq, hp⟩
  · rintro ⟨q, p, hq, hp⟩ hempty
    exact SortedSet.eq_empty_iff.mp hempty p
      (mem_advance_iff.mpr ⟨q, p, mem_live_iff.mpr hq, hp, .refl⟩)

theorem mem_vocabulary_toDfa : a ∈ n.toDfa.vocabulary ↔
    ∃ w q p, n.Path n.start w q ∧ p ∈ (n.node q).targets a := by
  have hreach : n.toDfa.Reachable := (represents_toDfa n).reachable
  rw [hreach.mem_vocabulary_iff]
  exact exists_congr fun w => isSome_run_toDfa.trans live_concat_ne_empty_iff

end Nfa

/-- **Vocabularies.** Union and concatenation put the vocabularies of their operands
together; repetition, conversion in both directions and minimization leave the
vocabulary as it is. Subset construction keeps just the symbols on which some state has
a target that a path from the start leads to, and pruning those on which some state
moves in which a run ends. -/
theorem vocabulary_transformed {σ : Type} [Alphabet σ] (n m : Nfa σ) {d : Dfa σ}
    (hd : d.WellFormed) :
    (n.union m).vocabulary = n.vocabulary ∪ m.vocabulary ∧
    (n.concatenate m).vocabulary = n.vocabulary ∪ m.vocabulary ∧
    n.star.vocabulary = n.vocabulary ∧
    d.toNfa.vocabulary = d.vocabulary ∧
    (∀ e, Dfa.ofNfa n = .ok e → e.vocabulary = n.vocabulary) ∧
    (∀ separateFinals, (d.minimize separateFinals).value.vocabulary = d.vocabulary) ∧
    (∀ a, a ∈ n.toDfa.vocabulary ↔
      ∃ w q p, n.Path n.start w q ∧ p ∈ (n.node q).targets a) ∧
    ∀ a, a ∈ d.prune.vocabulary ↔ ∃ w q p, d.run w = some q ∧ d.step q a = some p :=
  ⟨n.vocabulary_union m, n.vocabulary_concatenate m, n.vocabulary_star, d.vocabulary_toNfa,
    fun _ => Dfa.vocabulary_of_ofNfa,
    fun separateFinals => (Dfa.imageUnder_minimize hd separateFinals).vocabulary_eq,
    fun _ => Nfa.mem_vocabulary_toDfa, fun _ => Dfa.mem_vocabulary_prune⟩

/-- A loop at the start, and a state with a move of its own that nothing leads to. -/
def Dfa.stray : Dfa Char where
  rows := #[.singleton 'a' 0, .singleton 'b' 0]
  start := 0
  finals := .singleton 0

theorem Dfa.run_stray {w : List Char} {q : State} (h : stray.run w = some q) : q = 0 := by
  have hstay : ∀ r ∈ stray.successors 0, r = 0 := by decide
  induction w using List.reverseRecOn generalizing q with
  | nil => exact (Option.some.inj h).symm
  | append_singleton w a ih =>
      rw [run_concat] at h
      obtain ⟨p, hp, hq⟩ := Option.bind_eq_some_iff.mp h
      obtain rfl := ih hp
      exact hstay q (mem_successors.mpr ⟨a, hq⟩)

/-- The symbol of the stray state is lost by pruning, and by nothing else. -/
theorem vocabulary_stray : Dfa.stray.WellFormed ∧
    Dfa.ofNfa Dfa.stray.toNfa = .ok Dfa.stray ∧
    'b' ∈ (Dfa.stray.minimize true).value.vocabulary ∧ 'b' ∈ Dfa.stray.toNfa.star.vocabulary ∧
    'a' ∈ Dfa.stray.toNfa.toDfa.vocabulary ∧
    'a' ∈ Dfa.stray.prune.vocabulary ∧ ¬ 'b' ∈ Dfa.stray.prune.vocabulary := by
  have hd : Dfa.stray.WellFormed := by decide
  have hb : 'b' ∈ Dfa.stray.vocabulary := Dfa.mem_vocabulary_iff.mpr ⟨1, 0, by decide⟩
  have hback := Dfa.stray.ofNfa_toNfa
  obtain ⟨_, _, hstar, _, hof, hminimize, hsubsets, hprune⟩ :=
    vocabulary_transformed Dfa.stray.toNfa Dfa.stray.toNfa hd
  refine ⟨hd, hback, ?_, ?_, ?_, ?_, ?_⟩
  · rwa [hminimize true]
  · rwa [hstar, ← hof _ hback]
  · exact (hsubsets 'a').mpr ⟨[], 0, 0, .refl, Dfa.mem_targets_toNfa.mpr (by decide)⟩
  · exact (hprune 'a').mpr ⟨[], 0, 0, rfl, by decide⟩
  · rw [hprune]
    rintro ⟨w, q, p, hw, hp⟩
    obtain rfl := Dfa.run_stray hw
    have hnone : Dfa.stray.step 0 'b' = none := by decide
    rw [hnone] at hp
    cases hp

end FiniteState
