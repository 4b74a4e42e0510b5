import FiniteState.Proofs.Determinization
import FiniteState.Proofs.Nfa.Combine
import Mathlib.Data.Finset.Powerset

/-!
# What subset construction enumerates

The states of the constructed automaton stand for the sets of states that
are alive after some word, the empty one left out: each such set has one
state (`Enumerates`), a run is in the state of its live set (`Represents`),
and the log lists the sets in the order of their states. Every set has a
least word that makes it alive, where a shorter word comes before a longer
one and words of one length are ordered by the alphabet, and the sets are
numbered in the order of these words.

That the construction ends needs no proof here: it is a search, which ends
because finitely many sets can be led to. How many there can be at most is a
count of the nonempty subsets of the states (`length_le_of_nodup`).
-/

namespace FiniteState

open Std

/-- Different nonempty sets of numbers below a bound are at most as many as
that bound has nonempty subsets. -/
theorem StateSet.length_le_of_nodup {sets : List StateSet} {bound : Nat} (hnodup : sets.Nodup)
    (hne : ∀ s ∈ sets, s ≠ ∅) (hlt : ∀ s ∈ sets, ∀ q, q ∈ s → q < bound) :
    sets.length ≤ 2 ^ bound - 1 := by
  let members : StateSet → Finset Nat := fun s => s.toList.toFinset
  have hmem : ∀ s q, q ∈ members s ↔ q ∈ s := fun s q => List.mem_toFinset
  have hinj : Function.Injective members := fun s t hst => SortedSet.ext fun q => by
    rw [← hmem, ← hmem, hst]
  have hsubset : (sets.map members).toFinset ⊆ (Finset.range bound).powerset.erase ∅ := by
    intro t ht
    obtain ⟨s, hs, rfl⟩ := List.mem_map.mp (List.mem_toFinset.mp ht)
    refine Finset.mem_erase.mpr ⟨fun hempty => hne s hs ?_, Finset.mem_powerset.mpr fun q hq => ?_⟩
    · refine SortedSet.eq_empty_iff.mpr fun q hq => ?_
      rw [← hmem, hempty] at hq
      exact absurd hq (Finset.notMem_empty q)
    · exact Finset.mem_range.mpr (hlt s hs q ((hmem s q).mp hq))
  calc sets.length
      = (sets.map members).toFinset.card := by
        rw [List.toFinset_card_of_nodup (hnodup.map hinj), List.length_map]
    _ ≤ ((Finset.range bound).powerset.erase ∅).card := Finset.card_le_card hsubset
    _ = 2 ^ bound - 1 := by
        rw [Finset.card_erase_of_mem (Finset.empty_mem_powerset _), Finset.card_powerset,
          Finset.card_range]

namespace Nfa

variable {σ : Type} [Alphabet σ] {n : Nfa σ} {sets : List StateSet} {words : List (List σ)}
  {w : List σ}

/-! ## The sets and their words -/

/-- The sets that are alive after some word, without the empty one, and in
the order of the least words after which they are alive. -/
structure Enumerates (n : Nfa σ) (sets : List StateSet) (words : List (List σ)) : Prop where
  nodup : sets.Nodup
  mem_iff : ∀ s, s ∈ sets ↔ s ≠ ∅ ∧ ∃ w, n.live w = s
  closed : ∀ s ∈ sets, Machine.closure n s = s
  map_live : words.map n.live = sets
  ascending : words.Pairwise Precedes
  least : ∀ v ∈ words, ∀ w, n.live w = n.live v → PrecedesOrEq v w

/-- Nothing is alive that closing under epsilon moves would add to. -/
theorem closure_live (n : Nfa σ) (w : List σ) : Machine.closure n (n.live w) = n.live w := by
  refine SortedSet.ext fun p => ?_
  rw [Machine.mem_closure]
  constructor
  · rintro ⟨q, hq, hreach⟩
    induction hreach with
    | refl => exact hq
    | step _ hz ih => exact mem_live_of_mem_epsilon ih hz
  · exact fun hp => ⟨p, hp, .refl⟩

theorem exists_enumerates (n : Nfa σ) :
    ∃ words, n.Enumerates (n.subsets none).toList words := by
  obtain ⟨words, hwords, hmap⟩ := n.subsets_leastWords
  have hlive : ∀ v ∈ words, n.live v ≠ ∅ ∧
      Search.walk n.advance? n.initial v = some (n.live v) := by
    intro v hv
    obtain ⟨s, hs⟩ := Option.isSome_iff_exists.mp (hwords.least v hv).1
    obtain ⟨rfl, hne⟩ := walk_advance?_eq_some_iff.mp hs
    exact ⟨hne, hs⟩
  have hmem : ∀ s, s ∈ (n.subsets none).toList ↔ s ≠ ∅ ∧ ∃ w, n.live w = s := by
    intro s
    rw [Numbering.mem_toList, mem_subsets]
    exact ⟨fun ⟨w, hw, hne⟩ => ⟨hne, w, hw⟩, fun ⟨hne, w, hw⟩ => ⟨w, hw, hne⟩⟩
  refine ⟨words, (n.subsets none).nodup_toList, hmem, fun s hs => ?_, ?_, hwords.ascending,
    fun v hv w hw => ?_⟩
  · obtain ⟨_, w, rfl⟩ := (hmem s).mp hs
    exact n.closure_live w
  · refine List.map_injective_iff.mpr (Option.some_injective _) ?_
    rw [List.map_map, ← hmap]
    exact List.map_congr_left fun v hv => (hlive v hv).2.symm
  · obtain ⟨hne, hwalk⟩ := hlive v hv
    refine (hwords.least v hv).2 w ?_
    rw [hwalk]
    exact walk_advance?_eq_some_iff.mpr ⟨hw, hne⟩

theorem WellFormed.lt_of_mem_live (hn : n.WellFormed) {q : State} (hq : q ∈ n.live w) :
    q < n.states := hn.path_lt hn.start_lt (mem_live_iff.mp hq)

theorem Enumerates.length_le (h : n.Enumerates sets words) (hn : n.WellFormed) :
    sets.length ≤ 2 ^ n.states - 1 := by
  refine StateSet.length_le_of_nodup h.nodup (fun s hs => ((h.mem_iff s).mp hs).1)
    fun s hs q hq => ?_
  obtain ⟨_, w, rfl⟩ := (h.mem_iff s).mp hs
  exact hn.lt_of_mem_live hq

/-! ## The automaton and the log -/

/-- The states of an automaton are the places of some sets: it starts in the
first one, every word leads to the place of its live set, some word leads
to each, and those of sets with an accepting state accept. -/
structure Represents (d : Dfa σ) (n : Nfa σ) (sets : List StateSet) : Prop where
  start_eq : d.start = 0
  states_eq : d.states = sets.length
  run_eq_some_iff : ∀ w i, d.run w = some i ↔ sets[i]? = some (n.live w)
  reachable : ∀ i, i < d.states → ∃ w, d.run w = some i
  mem_finals_iff : ∀ i s, sets[i]? = some s → (i ∈ d.finals ↔ ∃ q, q ∈ s ∧ q ∈ n.finals)

theorem represents_toDfa (n : Nfa σ) : Represents n.toDfa n (n.subsets none).toList := by
  have hrun : ∀ w i, n.toDfa.run w = some i ↔ (n.subsets none).toList[i]? = some (n.live w) := by
    intro w i
    rw [run_toDfa, Numbering.number?_eq_some_iff]
  refine ⟨rfl, n.states_toDfa, hrun, fun i hi => ?_, fun i s hs => ?_⟩
  · rw [states_toDfa, ← Numbering.length_toList] at hi
    obtain ⟨w, hw, _⟩ := mem_subsets.mp (List.getElem_mem hi)
    exact ⟨w, (hrun w i).mpr (hw ▸ List.getElem?_eq_getElem hi)⟩
  · rw [mem_finals_toDfa, ← SortedSet.meets_iff]
    constructor
    · rintro ⟨t, ht, hmeets⟩
      rw [Numbering.number?_eq_some_iff, hs] at ht
      rwa [Option.some.inj ht]
    · exact fun hmeets => ⟨s, Numbering.number?_eq_some_iff.mpr hs, hmeets⟩

theorem events_determinize_none (n : Nfa σ) : (n.determinize none).events =
    (n.subsets none).toList.mapIdx .subsetFound ++
      [.subsetsExhausted n.states n.toDfa.states] := by
  rw [states_toDfa]
  rfl

/-- **What subset construction enumerates.** Without a limit it succeeds.
The states of the automaton represent the different nonempty sets that are
alive after some word, each closed under epsilon moves, and they are
numbered in the order of the least words after which the sets are alive.
The log tells of these sets, with their members ascending, in the order of
the numbers, and then counts the states. From `k` states come at most
`2 ^ k - 1`. -/
theorem toDfa_enumerates_live_sets (n : Nfa σ) :
    ∃ sets words, n.Enumerates sets words ∧ Represents n.toDfa n sets ∧
      (n.determinize none).value = .ok n.toDfa ∧
      (n.determinize none).events =
        sets.mapIdx .subsetFound ++ [.subsetsExhausted n.states n.toDfa.states] ∧
      ((n.determinize none).events.map fun e => (e.message, e.fields)) =
        sets.mapIdx (fun i s =>
          ("new dfa state", [("id", .number i), ("states", .text (StateSet.text s))])) ++
        [("subset construction finished",
          [("nfa_states", .number n.states), ("dfa_states", .number n.toDfa.states)])] ∧
      (∀ s ∈ sets, s.toList.Pairwise (· < ·)) ∧
      (n.WellFormed → n.toDfa.states ≤ 2 ^ n.states - 1) := by
  obtain ⟨words, hwords⟩ := n.exists_enumerates
  have hrepresents := n.represents_toDfa
  refine ⟨_, words, hwords, hrepresents, n.determinize_none, n.events_determinize_none, ?_,
    fun s _ => s.sorted.imp Nat.compare_eq_lt.mp, fun hn => ?_⟩
  · rw [events_determinize_none, List.map_append, List.mapIdx_eq_zipIdx_map,
      List.mapIdx_eq_zipIdx_map, List.map_map]
    rfl
  · rw [hrepresents.states_eq]
    exact hwords.length_le hn

/-- A start and a silent cycle of two states, to which two symbols lead, so
that one set is alive after different words. -/
def cyclic : Nfa Char where
  nodes := #[{ moves := ⟨[('a', .singleton 1), ('b', ⟨[1, 2], by decide⟩)], by decide⟩ },
    { epsilon := .singleton 2 }, { epsilon := .singleton 1, moves := .singleton 'a' (.singleton 0) }]
  start := 0
  finals := .singleton 2

theorem states_toDfa_cyclic_le :
    cyclic.WellFormed ∧ cyclic.toDfa.states ≤ 2 ^ cyclic.states - 1 := by
  have hn : cyclic.WellFormed := by decide
  obtain ⟨_, _, _, _, _, _, _, _, hle⟩ := toDfa_enumerates_live_sets cyclic
  exact ⟨hn, hle hn⟩

end Nfa

end FiniteState
