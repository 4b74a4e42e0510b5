import FiniteState.Proofs.Conversion
import FiniteState.Proofs.Minimization
import FiniteState.Proofs.Nfa.Build

/-!
# Automata that can be made

Everything that the library makes, from descriptions and single symbols by
any number of operations (`Nfa.Made`, `Dfa.Made`), is valid: it names no
state but its own, and no row holds a symbol that consumes nothing
(`Nfa.Made.valid`, `Dfa.Made.valid`). Only the descriptions are checked;
every other operation relies on its operands and has one lemma here that it
passes validity on.

The vocabulary is not kept but read off the rows, and holds just the symbols
with a target somewhere (`mem_vocabulary_iff`); an automaton that is valid
reads nothing else. The one operation that could carry a vocabulary over,
taking a nondeterministic automaton as a deterministic one, does not change
it (`Dfa.vocabulary_of_ofNfa`).
-/

namespace FiniteState

variable {σ : Type} [Alphabet σ]

/-! ## Nondeterministic automata -/

namespace Nfa

variable {n m : Nfa σ} {d : Description σ} {q p : State} {a : σ} {w : List σ} {offset : Nat}
  {exits : StateSet}

namespace Node

variable {v : Node σ}

/-- No symbol in the row consumes nothing. -/
def Visible (v : Node σ) : Prop := ∀ a, v.Remembers a → Alphabet.isEpsilon a = false

theorem visible_silent (s : StateSet) : ({ epsilon := s } : Node σ).Visible :=
  fun _ h => nomatch h

theorem Visible.add (h : v.Visible) (label : Option σ) (l : List State) :
    (v.add label l).Visible := by
  intro a ha
  rcases remembers_add.mp ha with hlabel | ha
  · exact (Alphabet.visible?_eq_some_iff.mp hlabel).2
  · exact h a ha

theorem Visible.shift (h : v.Visible) (offset : Nat) : (v.shift offset).Visible := by
  intro a ha
  unfold Remembers Node.shift at ha
  rw [SortedMap.get?_map, Option.isSome_map] at ha
  exact h a ha

theorem Visible.withExits (h : v.Visible) (exits : StateSet) : (v.withExits exits).Visible := h

end Node

/-- Well-formed, and without epsilon symbols in its rows. -/
structure Valid (n : Nfa σ) : Prop extends n.WellFormed where
  visible : ∀ v ∈ n.nodes, v.Visible

theorem Valid.states_pos (hn : n.Valid) : 0 < n.states := Nat.zero_lt_of_lt hn.start_lt

theorem Valid.node_visible (hn : n.Valid) (q : State) : (n.node q).Visible := by
  rcases n.node_mem_or_eq q with hq | hq
  · exact hn.visible _ hq
  · rw [hq]
    exact Node.visible_silent ∅

theorem valid_assemble (h : d.fault? = none) : (assemble d).Valid := by
  refine ⟨wellFormed_assemble h, fun v hv a ha => ?_⟩
  obtain ⟨q, hq, rfl⟩ := Array.mem_iff_getElem.mp hv
  rw [getElem_nodes hq, remembers_assemble (states_assemble d ▸ hq)] at ha
  obtain ⟨e, _, _, hlabel⟩ := ha
  exact (Alphabet.visible?_eq_some_iff.mp hlabel).2

theorem valid_oneMove (label : Option σ) : (oneMove label).Valid := by
  refine ⟨(productive_oneMove label).toWellFormed, fun v hv => ?_⟩
  have hv : v = Node.add {} label [1] ∨ v = {} := by simpa [oneMove] using hv
  rcases hv with rfl | rfl
  · exact (Node.visible_silent ∅).add label [1]
  · exact Node.visible_silent ∅

theorem Valid.visible_of_mem_embed (hn : n.Valid) {v : Node σ} (hv : v ∈ n.embed offset exits) :
    v.Visible := by
  obtain ⟨q, rfl | rfl⟩ := exists_of_mem_embed hv
  · exact (hn.node_visible q).shift offset
  · exact ((hn.node_visible q).shift offset).withExits exits

theorem Valid.union (hn : n.Valid) (hm : m.Valid) : (n.union m).Valid := by
  refine ⟨hn.toWellFormed.union hm.toWellFormed, fun v hv => ?_⟩
  rcases mem_nodes_union.mp hv with rfl | hv | hv | rfl
  · exact Node.visible_silent _
  · exact hn.visible_of_mem_embed hv
  · exact hm.visible_of_mem_embed hv
  · exact Node.visible_silent _

theorem Valid.concatenate (hn : n.Valid) (hm : m.Valid) : (n.concatenate m).Valid := by
  refine ⟨hn.toWellFormed.concatenate hm.toWellFormed, fun v hv => ?_⟩
  rcases mem_nodes_concatenate.mp hv with hv | hv | rfl
  · exact hn.visible_of_mem_embed hv
  · exact hm.visible_of_mem_embed hv
  · exact Node.visible_silent _

theorem Valid.star (hn : n.Valid) : n.star.Valid := by
  refine ⟨hn.toWellFormed.star, fun v hv => ?_⟩
  rcases mem_nodes_star.mp hv with rfl | hv | rfl
  · exact Node.visible_silent _
  · exact hn.visible_of_mem_embed hv
  · exact Node.visible_silent _

/-- Symbols that consume nothing are no symbols of a valid automaton. -/
theorem Valid.not_mem_vocabulary (hn : n.Valid) (ha : Alphabet.isEpsilon a = true) :
    ¬ a ∈ n.vocabulary := by
  intro h
  obtain ⟨q, p, hp⟩ := mem_vocabulary_iff.mp h
  rw [hn.node_visible q a (Node.remembers_of_mem_targets hp)] at ha
  cases ha

/-- No automaton reads past a symbol outside its vocabulary. -/
theorem accepts_eq_false (ha : ¬ a ∈ n.vocabulary) (hw : a ∈ w) : n.accepts w = false := by
  obtain ⟨u, v, rfl⟩ := List.append_of_mem hw
  rw [← Bool.not_eq_true]
  intro haccepts
  refine live_ne_empty_of_accepts haccepts ?_
  rw [List.append_cons]
  refine live_append_eq_empty ?_ v
  rw [live_concat, advance_eq_empty _ ha]

end Nfa

/-! ## Deterministic automata -/

namespace Dfa

variable {d : Dfa σ} {n : Nfa σ} {q p : State} {a : σ} {w : List σ}

/-- Well-formed, and without moves on epsilon symbols. -/
structure Valid (d : Dfa σ) : Prop extends d.WellFormed where
  visible : ∀ q a p, d.step q a = some p → Alphabet.isEpsilon a = false

theorem Valid.states_pos (hd : d.Valid) : 0 < d.states := Nat.zero_lt_of_lt hd.start_lt

theorem valid_toNfa_iff : d.toNfa.Valid ↔ d.Valid := by
  have hremembers : ∀ q a, (d.toNfa.node q).Remembers a ↔ (d.step q a).isSome = true := by
    intro q a
    rw [node_toNfa, Nfa.Node.Remembers, SortedMap.get?_map, Option.isSome_map, step]
  constructor
  · intro h
    refine ⟨⟨?_, ?_, fun q a p hp => ?_⟩, fun q a p hp => ?_⟩
    · rw [← d.states_toNfa]
      exact h.start_lt
    · rw [← d.states_toNfa]
      exact h.finals_lt
    · rw [← d.states_toNfa]
      exact (h.node_below q).2 a p (mem_targets_toNfa.mpr hp)
    · exact h.node_visible q a ((hremembers q a).mpr (Option.isSome_of_eq_some hp))
  · intro h
    refine ⟨⟨?_, ?_, fun v hv => ?_⟩, fun v hv a ha => ?_⟩
    · rw [d.states_toNfa]
      exact h.start_lt
    · rw [d.states_toNfa]
      exact h.finals_lt
    · obtain ⟨q, hq, rfl⟩ := Array.mem_iff_getElem.mp hv
      rw [Nfa.getElem_nodes hq, d.states_toNfa]
      exact ⟨fun p hp => absurd hp not_mem_epsilon_toNfa,
        fun a p hp => h.step_lt q a p (mem_targets_toNfa.mp hp)⟩
    · obtain ⟨q, hq, rfl⟩ := Array.mem_iff_getElem.mp hv
      rw [Nfa.getElem_nodes hq, hremembers, Option.isSome_iff_exists] at ha
      obtain ⟨p, hp⟩ := ha
      exact h.visible q a p hp

theorem valid_of_ofNfa (hn : n.Valid) (h : ofNfa n = .ok d) : d.Valid := by
  rw [← valid_toNfa_iff, ofNfa_eq_ok_iff.mp h]
  exact hn

theorem valid_of_build {l : Description σ} (h : build l = .ok d) : d.Valid := by
  unfold build at h
  split at h
  · cases h
  · split at h
    · cases h
    · next n hn =>
      obtain ⟨hfault, rfl⟩ := Nfa.build_eq_ok_iff.mp hn
      exact valid_of_ofNfa (Nfa.valid_assemble hfault) h

theorem valid_toDfa (hn : n.Valid) : n.toDfa.Valid := by
  refine ⟨n.wellFormed_toDfa, fun i a j hij => ?_⟩
  have hi := lt_of_step hij
  rw [Nfa.states_toDfa, ← Numbering.length_toList] at hi
  rw [Nfa.step_toDfa (Numbering.number?_eq_some_iff.mpr (List.getElem?_eq_getElem hi))] at hij
  have hmem := Numbering.isSome_number?.mp (Option.isSome_of_eq_some hij)
  obtain ⟨_, _, hne⟩ := Nfa.mem_subsets.mp hmem
  obtain ⟨p, hp⟩ : ∃ p, p ∈ n.advance _ a := by
    by_contra hempty
    exact hne (SortedSet.eq_empty_iff.mpr fun p hp => hempty ⟨p, hp⟩)
  obtain ⟨q, r, _, hr, _⟩ := Nfa.mem_advance_iff.mp hp
  exact hn.node_visible q a (Nfa.Node.remembers_of_mem_targets hr)

/-- What a limit lets pass is what the construction makes without one. -/
theorem eq_toDfa_of_determinize {limit : Option Nat} (h : (n.determinize limit).value = .ok d) :
    d = n.toDfa := by
  cases hout : Search.outgrown limit (n.subsets limit) with
  | false =>
      rw [Nfa.determinize_of_not_outgrown hout, Nfa.determinize_none] at h
      exact (Except.ok.inj h).symm
  | true =>
      cases limit with
      | none => cases hout
      | some bound =>
          rw [Nfa.determinize_of_outgrown hout] at h
          cases h

theorem Valid.minimize (hd : d.Valid) (separateFinals : Bool) :
    (d.minimize separateFinals).value.Valid := by
  refine ⟨wellFormed_minimize hd.toWellFormed separateFinals, fun i a j hij => ?_⟩
  have hi := lt_of_step hij
  rw [states_minimize hd.toWellFormed] at hi
  obtain ⟨f, _, hf, rfl, _⟩ := exists_firstState hd.toWellFormed hi
  rw [step_minimize hd.toWellFormed hf] at hij
  obtain ⟨p, hp, _⟩ := Option.map_eq_some_iff.mp hij
  exact hd.visible f a p hp

theorem Valid.prune (hd : d.Valid) : d.prune.Valid := by
  refine ⟨d.wellFormed_prune, fun i a j hij => ?_⟩
  have hi := lt_of_step hij
  rw [states_prune] at hi
  rw [step_prune (newNumber_eq_some_iff.mpr (List.getElem?_eq_getElem hi))] at hij
  obtain ⟨p, hp, _⟩ := Option.bind_eq_some_iff.mp hij
  exact hd.visible _ a p hp

theorem Valid.not_mem_vocabulary (hd : d.Valid) (ha : Alphabet.isEpsilon a = true) :
    ¬ a ∈ d.vocabulary := by
  intro h
  obtain ⟨q, p, hp⟩ := mem_vocabulary_iff.mp h
  rw [hd.visible q a p hp] at ha
  cases ha

theorem accepts_eq_false (ha : ¬ a ∈ d.vocabulary) (hw : a ∈ w) : d.accepts w = false := by
  rw [← accepts_toNfa]
  exact Nfa.accepts_eq_false (d.vocabulary_toNfa ▸ ha) hw

end Dfa

/-! ## Everything that can be made -/

mutual

/-- Nondeterministic automata made by any number of operations. -/
inductive Nfa.Made : Nfa σ → Prop where
  | build {d : Description σ} {n : Nfa σ} : Nfa.build d = .ok n → Nfa.Made n
  | symbol (a : σ) : Nfa.Made (Nfa.symbol a)
  | emptyWord : Nfa.Made Nfa.emptyWord
  | union {n m : Nfa σ} : Nfa.Made n → Nfa.Made m → Nfa.Made (n.union m)
  | concatenate {n m : Nfa σ} : Nfa.Made n → Nfa.Made m → Nfa.Made (n.concatenate m)
  | star {n : Nfa σ} : Nfa.Made n → Nfa.Made n.star
  | toNfa {d : Dfa σ} : Dfa.Made d → Nfa.Made d.toNfa

/-- Deterministic automata made by any number of operations. -/
inductive Dfa.Made : Dfa σ → Prop where
  | build {d : Description σ} {e : Dfa σ} : Dfa.build d = .ok e → Dfa.Made e
  | ofTable {states : Nat} {finals : List State} {moves : List (Move σ)} {start : State}
      {e : Dfa σ} : Dfa.ofTable states finals moves start = .ok e → Dfa.Made e
  | toDfa {n : Nfa σ} : Nfa.Made n → Dfa.Made n.toDfa
  | determinize {n : Nfa σ} {limit : Option Nat} {d : Dfa σ} :
      Nfa.Made n → (n.determinize limit).value = .ok d → Dfa.Made d
  | ofNfa {n : Nfa σ} {d : Dfa σ} : Nfa.Made n → Dfa.ofNfa n = .ok d → Dfa.Made d
  | minimize {d : Dfa σ} (separateFinals : Bool) :
      Dfa.Made d → Dfa.Made (d.minimize separateFinals).value
  | prune {d : Dfa σ} : Dfa.Made d → Dfa.Made d.prune

end

mutual

theorem Nfa.Made.valid : ∀ {n : Nfa σ}, n.Made → n.Valid
  | _, .build h => by
      obtain ⟨hfault, rfl⟩ := Nfa.build_eq_ok_iff.mp h
      exact Nfa.valid_assemble hfault
  | _, .symbol a => Nfa.valid_oneMove (some a)
  | _, .emptyWord => Nfa.valid_oneMove none
  | _, .union hn hm => hn.valid.union hm.valid
  | _, .concatenate hn hm => hn.valid.concatenate hm.valid
  | _, .star hn => hn.valid.star
  | _, .toNfa hd => Dfa.valid_toNfa_iff.mpr hd.valid

theorem Dfa.Made.valid : ∀ {d : Dfa σ}, d.Made → d.Valid
  | _, .build h => Dfa.valid_of_build h
  | _, .ofTable h => Dfa.valid_of_build h
  | _, .toDfa hn => Dfa.valid_toDfa hn.valid
  | _, .determinize hn h => Dfa.eq_toDfa_of_determinize h ▸ Dfa.valid_toDfa hn.valid
  | _, .ofNfa hn h => Dfa.valid_of_ofNfa hn.valid h
  | _, .minimize separateFinals hd => hd.valid.minimize separateFinals
  | _, .prune hd => hd.valid.prune

end

end FiniteState
