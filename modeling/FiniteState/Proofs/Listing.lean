import FiniteState.Proofs.Made

/-!
# Listing and making again

The listing of an automaton is a description without fault, and making it
again gives an automaton that answers everything alike. Listing forgets only
one thing: a symbol remembered without targets is not listed. So what is
made again is the original just if it remembers no such symbol
(`assemble_description_eq_iff`). A deterministic automaton remembers none;
its moves are the entries of its nondeterministic view (`map_entry_moves`),
from which it is taken back without loss.

Entries stand in a strict order (`pairwise_entries`): by origin, the epsilon
entry of an origin first, and then by symbols. None is empty.
-/

namespace FiniteState

variable {σ : Type} [Alphabet σ]

/-- The order of the labels of one origin: no symbol before every symbol, and
symbols in the order of the alphabet. -/
def labelBefore : Option σ → Option σ → Prop
  | none, some _ => True
  | some a, some b => compare a b = .lt
  | _, none => False

/-- The order in which entries are listed. -/
def Entry.Before (e f : Entry σ) : Prop :=
  e.origin < f.origin ∨ e.origin = f.origin ∧ labelBefore e.label f.label

namespace Nfa

variable {n : Nfa σ} {q p : State} {a : σ} {e : Entry σ}

/-! ## What is listed -/

theorem Node.mem_entries {v : Node σ} : e ∈ v.entries q ↔
    (v.epsilon ≠ ∅ ∧ e = ⟨q, none, v.epsilon.toList⟩) ∨
      ∃ a s, v.moves.get? a = some s ∧ s ≠ ∅ ∧ e = ⟨q, some a, s.toList⟩ := by
  have hsilent : e ∈ (if v.epsilon.isEmpty then [] else [⟨q, none, v.epsilon.toList⟩] :
      List (Entry σ)) ↔ v.epsilon ≠ ∅ ∧ e = ⟨q, none, v.epsilon.toList⟩ := by
    by_cases h : v.epsilon = ∅
    · rw [if_pos (SortedSet.isEmpty_iff.mpr h)]
      simp [h]
    · rw [if_neg (mt SortedSet.isEmpty_iff.mp h), List.mem_singleton, and_iff_right h]
  rw [Node.entries, List.mem_append, hsilent, List.mem_map]
  refine or_congr_right ⟨?_, ?_⟩
  · rintro ⟨⟨a, s⟩, has, rfl⟩
    obtain ⟨hget, hne⟩ := Node.mem_proper.mp has
    exact ⟨a, s, hget, hne, rfl⟩
  · rintro ⟨a, s, hget, hne, rfl⟩
    exact ⟨(a, s), Node.mem_proper.mpr ⟨hget, hne⟩, rfl⟩

theorem Node.origin_of_mem_entries {v : Node σ} (he : e ∈ v.entries q) : e.origin = q := by
  rcases Node.mem_entries.mp he with ⟨_, rfl⟩ | ⟨_, _, _, _, rfl⟩ <;> rfl

theorem entries_eq (n : Nfa σ) :
    n.entries = (List.range n.states).flatMap fun q => (n.node q).entries q := by
  rw [entries, zipIdx_nodes, List.flatMap_map]

theorem mem_entries : e ∈ n.entries ↔ e.origin < n.states ∧
    e ∈ (n.node e.origin).entries e.origin := by
  rw [entries_eq, List.mem_flatMap]
  constructor
  · rintro ⟨q, hq, he⟩
    obtain rfl := Node.origin_of_mem_entries he
    exact ⟨List.mem_range.mp hq, he⟩
  · rintro ⟨hq, he⟩
    exact ⟨e.origin, List.mem_range.mpr hq, he⟩

theorem targets_ne_nil_of_mem_entries (he : e ∈ n.entries) : e.targets ≠ [] := by
  have hne : ∀ s : StateSet, s ≠ ∅ → s.toList ≠ [] :=
    fun s hs hnil => hs (SortedSet.eq_of_toList_eq hnil)
  rcases Node.mem_entries.mp (mem_entries.mp he).2 with ⟨h, heq⟩ | ⟨_, s, _, h, heq⟩
  · rw [heq]
    exact hne _ h
  · rw [heq]
    exact hne s h

/-- What a node leads to under a label. -/
def Node.under (v : Node σ) : Option σ → StateSet
  | none => v.epsilon
  | some a => v.targets a

theorem lt_of_mem_under {label : Option σ} (h : p ∈ (n.node q).under label) : q < n.states := by
  refine Nat.lt_of_not_le fun hq => ?_
  rw [node_eq_default hq] at h
  cases label with
  | none => exact SortedSet.not_mem_empty h
  | some a => exact SortedSet.not_mem_empty h

theorem Node.targets_of_mem_entries {v : Node σ} (he : e ∈ v.entries q) :
    e.targets = (v.under e.label).toList := by
  rcases Node.mem_entries.mp he with ⟨_, rfl⟩ | ⟨a, s, hget, _, rfl⟩
  · rfl
  · exact congrArg SortedSet.toList (Node.targets_of_get? hget).symm

/-- The listing says where every state leads under every label. -/
theorem exists_entry_iff {label : Option σ} :
    (∃ e ∈ n.entries, e.origin = q ∧ e.label = label ∧ p ∈ e.targets) ↔
      p ∈ (n.node q).under label := by
  constructor
  · rintro ⟨e, he, rfl, rfl, hp⟩
    rwa [Node.targets_of_mem_entries (mem_entries.mp he).2] at hp
  · intro hp
    have hne : (n.node q).under label ≠ ∅ := fun h => SortedSet.not_mem_empty (h ▸ hp)
    suffices h : ⟨q, label, ((n.node q).under label).toList⟩ ∈ (n.node q).entries q from
      ⟨_, mem_entries.mpr ⟨lt_of_mem_under hp, h⟩, rfl, rfl, hp⟩
    refine Node.mem_entries.mpr ?_
    cases label with
    | none => exact .inl ⟨hne, rfl⟩
    | some a =>
        obtain ⟨s, hs⟩ := Option.isSome_iff_exists.mp (Node.remembers_of_mem_targets hp)
        have htargets : (n.node q).under (some a) = s := Node.targets_of_get? hs
        rw [htargets] at hne ⊢
        exact .inr ⟨a, s, hs, hne, rfl⟩

/-! ## The order of the listing -/

theorem Node.pairwise_entries (v : Node σ) (q : State) : (v.entries q).Pairwise Entry.Before := by
  rw [Node.entries]
  refine List.pairwise_append.mpr ⟨?_, ?_, fun e he f hf => ?_⟩
  · split
    · exact .nil
    · exact List.pairwise_singleton _ _
  · exact List.pairwise_map.mpr <| (v.moves.sorted.filter _).imp fun h => .inr ⟨rfl, h⟩
  · obtain ⟨_, _, rfl⟩ := List.mem_map.mp hf
    split at he
    · cases he
    · rw [List.mem_singleton.mp he]
      exact .inr ⟨rfl, trivial⟩

theorem pairwise_entries (n : Nfa σ) : n.entries.Pairwise Entry.Before := by
  rw [entries_eq]
  refine List.pairwise_flatMap.mpr ⟨fun q _ => (n.node q).pairwise_entries q, ?_⟩
  refine List.pairwise_lt_range.imp fun {q r} hqr e he f hf => .inl ?_
  rwa [Node.origin_of_mem_entries he, Node.origin_of_mem_entries hf]

/-! ## Made again -/

theorem Valid.fault?_description (hn : n.Valid) : n.description.fault? = none := by
  refine Description.fault?_eq_none_iff.mpr ⟨hn.start_lt, fun q hq => ?_⟩
  rcases List.mem_append.mp hq with hq | hq
  · exact hn.finals_lt q hq
  · obtain ⟨e, he, hq⟩ := List.mem_flatMap.mp hq
    obtain ⟨horigin, he⟩ := mem_entries.mp he
    rcases List.mem_cons.mp hq with rfl | hq
    · exact horigin
    · rw [Node.targets_of_mem_entries he] at hq
      have hbelow := hn.node_below e.origin
      cases hlabel : e.label with
      | none =>
          rw [hlabel] at hq
          exact hbelow.1 q hq
      | some a =>
          rw [hlabel] at hq
          exact hbelow.2 a q hq

/-- No label in the listing is normalized. -/
theorem Valid.visible?_of_mem_entries (hn : n.Valid) (he : e ∈ n.entries) :
    Alphabet.visible? e.label = e.label := by
  cases hlabel : e.label with
  | none => rfl
  | some a =>
      rcases Node.mem_entries.mp (mem_entries.mp he).2 with ⟨_, heq⟩ | ⟨b, s, hget, _, heq⟩
      · rw [heq] at hlabel
        cases hlabel
      · rw [heq] at hlabel
        obtain rfl := Option.some.inj hlabel
        exact Alphabet.visible?_eq_some_iff.mpr
          ⟨rfl, hn.node_visible e.origin b (Option.isSome_of_eq_some hget)⟩

theorem Valid.exists_visible_iff (hn : n.Valid) {label : Option σ} :
    (∃ e ∈ n.entries, e.origin = q ∧ Alphabet.visible? e.label = label ∧ p ∈ e.targets) ↔
      p ∈ (n.node q).under label := by
  rw [← exists_entry_iff]
  refine exists_congr fun e => and_congr_right fun he => ?_
  rw [hn.visible?_of_mem_entries he]

theorem Valid.epsilon_relist (hn : n.Valid) (q : State) :
    ((assemble n.description).node q).epsilon = (n.node q).epsilon := by
  rcases Nat.lt_or_ge q n.states with hq | hq
  · exact SortedSet.ext fun p => (mem_epsilon_assemble hq).trans hn.exists_visible_iff
  · rw [node_eq_default hq, node_eq_default ((states_assemble n.description).symm ▸ hq)]

theorem Valid.targets_relist (hn : n.Valid) (q : State) (a : σ) :
    ((assemble n.description).node q).targets a = (n.node q).targets a := by
  rcases Nat.lt_or_ge q n.states with hq | hq
  · exact SortedSet.ext fun p => (mem_targets_assemble hq).trans hn.exists_visible_iff
  · rw [node_eq_default hq, node_eq_default ((states_assemble n.description).symm ▸ hq)]

/-- Only symbols with a target are still remembered. -/
theorem Valid.remembers_relist (hn : n.Valid) (hq : q < n.states) :
    ((assemble n.description).node q).Remembers a ↔ (n.node q).targets a ≠ ∅ := by
  rw [remembers_assemble hq]
  constructor
  · rintro ⟨e, he, horigin, hlabel⟩ hempty
    obtain ⟨p, hp⟩ := List.exists_mem_of_ne_nil _ (targets_ne_nil_of_mem_entries he)
    have hmem := hn.exists_visible_iff.mp ⟨e, he, horigin, hlabel, hp⟩
    exact SortedSet.eq_empty_iff.mp hempty p hmem
  · intro hne
    by_contra hnone
    refine hne (SortedSet.eq_empty_iff.mpr fun p hp => hnone ?_)
    obtain ⟨e, he, horigin, hlabel, _⟩ := hn.exists_visible_iff.mpr
      (show p ∈ (n.node q).under (some a) from hp)
    exact ⟨e, he, horigin, hlabel⟩

theorem Valid.agree_relist (hn : n.Valid) : Machine.Agree (assemble n.description) n where
  states_eq := states_assemble _
  start_eq := rfl
  finals_eq := SortedSet.ofList_toList _
  vocabulary_eq := SortedSet.ext fun a => by
    show a ∈ (assemble n.description).vocabulary ↔ a ∈ n.vocabulary
    rw [mem_vocabulary_iff, mem_vocabulary_iff]
    simp only [hn.targets_relist]
  targets_eq := hn.targets_relist
  epsilonTargets_eq := hn.epsilon_relist

theorem Valid.assemble_description_eq_iff (hn : n.Valid) : assemble n.description = n ↔
    ∀ q a s, (n.node q).moves.get? a = some s → s ≠ ∅ := by
  constructor
  · intro h q a s hs hempty
    have hq : q < n.states := by
      refine Nat.lt_of_not_le fun hq => ?_
      rw [node_eq_default hq] at hs
      cases hs
    have hremembers : ((assemble n.description).node q).Remembers a :=
      h.symm ▸ Option.isSome_of_eq_some hs
    refine (hn.remembers_relist hq).mp hremembers ?_
    rw [Node.targets_of_get? hs, hempty]
  · intro h
    have hnode : ∀ q, q < n.states → (assemble n.description).node q = n.node q := by
      intro q hq
      refine Node.eq_of_same (hn.epsilon_relist q) (hn.targets_relist q) fun a => ?_
      rw [hn.remembers_relist hq]
      constructor
      · intro hne
        by_contra hnone
        exact hne (Node.targets_of_not_remembers hnone)
      · intro hremembers
        obtain ⟨s, hs⟩ := Option.isSome_iff_exists.mp hremembers
        rw [Node.targets_of_get? hs]
        exact h q a s hs
    have hnodes : (assemble n.description).nodes = n.nodes := by
      refine Array.ext (states_assemble n.description) fun q hq hq' => ?_
      rw [getElem_nodes hq, getElem_nodes hq', hnode q hq']
    have hfinals : (assemble n.description).finals = n.finals := SortedSet.ofList_toList _
    obtain ⟨nodes, start, finals⟩ := n
    exact congr (congrArg (Nfa.mk · start) hnodes) hfinals

end Nfa

namespace Dfa

variable {d : Dfa σ}

/-! ## Deterministic automata -/

/-- The moves are the entries of the nondeterministic view. -/
theorem map_entry_moves (d : Dfa σ) : d.moves.map Move.entry = d.toNfa.entries := by
  have hrow : ∀ (r : SortedMap σ State) (q : State),
      (r.toList.map fun e => (⟨q, e.1, e.2⟩ : Move σ)).map Move.entry =
        Nfa.Node.entries { moves := r.map SortedSet.singleton } q := by
    intro r q
    have hproper : Nfa.Node.proper { moves := r.map SortedSet.singleton } =
        (r.map SortedSet.singleton).toList := by
      refine List.filter_eq_self.mpr fun e he => ?_
      obtain ⟨_, _, rfl⟩ := List.mem_map.mp he
      rfl
    rw [Nfa.Node.entries, hproper, SortedMap.map, List.map_map, List.map_map]
    rfl
  rw [moves, List.map_flatMap, Nfa.entries, toNfa, Array.toList_map, List.zipIdx_map,
    List.flatMap_map]
  exact congrArg (List.flatMap · _) (funext fun e => hrow e.1 e.2)

theorem pairwise_moves (d : Dfa σ) : d.moves.Pairwise fun m k =>
    m.origin < k.origin ∨ m.origin = k.origin ∧ compare m.symbol k.symbol = .lt := by
  have hentries := d.toNfa.pairwise_entries
  rw [← map_entry_moves] at hentries
  exact List.pairwise_map.mp hentries

theorem Valid.ofTable_moves (hd : d.Valid) :
    ofTable d.states d.finals.toList d.moves d.start = .ok d := by
  have hn := valid_toNfa_iff.mpr hd
  have hlisting : (⟨d.states, d.finals.toList, d.moves.map Move.entry, d.start⟩ : Description σ) =
      d.toNfa.description := by
    rw [map_entry_moves, ← d.states_toNfa]
    rfl
  have hlabels : ∀ e ∈ d.toNfa.entries, Alphabet.visible? e.label ≠ none := by
    intro e he
    rw [hn.visible?_of_mem_entries he]
    rw [← map_entry_moves] at he
    obtain ⟨_, _, rfl⟩ := List.mem_map.mp he
    exact Option.some_ne_none _
  have hsame : Nfa.assemble d.toNfa.description = d.toNfa := by
    refine hn.assemble_description_eq_iff.mpr fun q a s hs hempty => ?_
    have hsize := (d.determined_toNfa q).size_eq a s hs
    rw [hempty] at hsize
    cases hsize
  have hbuild : Nfa.build d.toNfa.description = .ok d.toNfa :=
    Nfa.build_eq_ok_iff.mpr ⟨hn.fault?_description, hsame⟩
  rw [ofTable, hlisting, build_eq_bind hlabels, hbuild]
  exact d.ofNfa_toNfa

end Dfa

/-- **Listing and making again.** An automaton that the library can make is
made again from its listing: a deterministic one is the same automaton, and a
nondeterministic one answers every question alike and accepts the same words,
and is the same just if it remembers no symbol without targets. Listings are
in strict order and have no empty entries. -/
theorem build_of_listing {n : Nfa σ} {d : Dfa σ} (hn : n.Made) (hd : d.Made) :
    (Dfa.ofTable d.states d.finals.toList d.moves d.start = .ok d ∧
      d.moves.Pairwise fun m k =>
        m.origin < k.origin ∨ m.origin = k.origin ∧ compare m.symbol k.symbol = .lt) ∧
    (∃ m, Nfa.build ⟨n.states, n.finals.toList, n.entries, n.start⟩ = .ok m ∧
      Machine.Agree m n ∧ (∀ w, m.accepts w = n.accepts w) ∧
      (m = n ↔ ∀ q a s, (n.node q).moves.get? a = some s → s ≠ ∅)) ∧
    n.entries.Pairwise Entry.Before ∧ ∀ e ∈ n.entries, e.targets ≠ [] := by
  have hvalid := hn.valid
  refine ⟨⟨hd.valid.ofTable_moves, d.pairwise_moves⟩, ⟨Nfa.assemble n.description, ?_⟩,
    n.pairwise_entries, fun e => Nfa.targets_ne_nil_of_mem_entries⟩
  exact ⟨Nfa.build_eq_ok_iff.mpr ⟨hvalid.fault?_description, rfl⟩, hvalid.agree_relist,
    Nfa.accepts_eq_of_agree hvalid.agree_relist, hvalid.assemble_description_eq_iff⟩

/-- A move on one symbol, and another symbol that leads nowhere. -/
def Nfa.mindful : Nfa Char :=
  Nfa.assemble ⟨2, [1], [⟨0, some 'b', [1]⟩, ⟨0, some 'a', []⟩], 0⟩

/-- Any number of those moves, one after the other. -/
def Dfa.repeated : Dfa Char := Nfa.mindful.star.toDfa

theorem build_of_listing_mindful :
    Nfa.build ⟨2, [1], [⟨0, some 'b', [1]⟩, ⟨0, some 'a', []⟩], 0⟩ = .ok Nfa.mindful ∧
      Dfa.ofTable Dfa.repeated.states Dfa.repeated.finals.toList Dfa.repeated.moves
        Dfa.repeated.start = .ok Dfa.repeated ∧
      ∃ m, Nfa.build ⟨2, [1], [⟨0, some 'b', [1]⟩], 0⟩ = .ok m ∧ Machine.Agree m Nfa.mindful ∧
        m ≠ Nfa.mindful := by
  have hbuild : Nfa.build ⟨2, [1], [⟨0, some 'b', [1]⟩, ⟨0, some 'a', []⟩], 0⟩ =
      .ok Nfa.mindful := rfl
  have hd : Dfa.repeated.Made := .toDfa (.star (.build hbuild))
  obtain ⟨⟨htable, _⟩, ⟨m, hm, hagree, _, hsame⟩, _⟩ := build_of_listing (.build hbuild) hd
  refine ⟨hbuild, htable, m, ?_, hagree, fun h => ?_⟩
  · rw [← hm]
    cbv
  · exact hsame.mp h 0 'a' ∅ (by cbv) rfl

end FiniteState
