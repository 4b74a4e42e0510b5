import FiniteState.Proofs.Agreement
import FiniteState.Proofs.Redeterminization

/-!
# There and back

A deterministic automaton and its view as a nondeterministic one answer
everything alike (`agree_toNfa`), and the view is taken back without loss
(`ofNfa_toNfa`). The other way round a nondeterministic automaton is taken
just if each of its nodes is determined: no epsilon move, and one target
for every symbol that it remembers. It then is the view of what is made of
it (`ofNfa_eq_ok_iff`), symbols remembered included.

Otherwise the fault is that of the first node that is not determined
(`ofNfa_eq_error_iff`). Nodes are looked at in the order of their states and
the symbols of a node in the order of the alphabet, so what comes before the
fault is what is smaller.
-/

namespace FiniteState

variable {σ : Type} [Alphabet σ]

namespace Nfa

variable {n : Nfa σ} {q : State} {f : Fault σ}

/-! ## Determined nodes -/

/-- No epsilon move, and one target for every symbol remembered. -/
structure Node.Determined (v : Node σ) : Prop where
  epsilon_eq : v.epsilon = ∅
  size_eq : ∀ a s, v.moves.get? a = some s → s.size = 1

/-- The fault that a node is charged with: its epsilon moves, or else the
smallest of its symbols without exactly one target. -/
inductive Node.Charged (v : Node σ) (q : State) : Fault σ → Prop where
  | epsilon : v.epsilon ≠ ∅ → Charged v q (.epsilonTransition q)
  | symbol {a : σ} {s : StateSet} : v.epsilon = ∅ → v.moves.get? a = some s → s.size ≠ 1 →
    (∀ b t, v.moves.get? b = some t → compare b a = .lt → t.size = 1) →
    Charged v q (.nonDeterministic q a s.size)

namespace Node

variable {v : Node σ}

theorem fault?_eq_none_iff : v.fault? q = none ↔ v.Determined := by
  unfold fault?
  by_cases he : v.epsilon = ∅
  · rw [if_pos (SortedSet.isEmpty_iff.mpr he), List.findSome?_eq_none_iff]
    constructor
    · intro h
      refine ⟨he, fun a s hs => ?_⟩
      by_contra hsize
      have hfault := h (a, s) (SortedMap.mem_toList_iff.mpr hs)
      dsimp only at hfault
      rw [if_neg hsize] at hfault
      cases hfault
    · rintro hv ⟨a, s⟩ hs
      exact if_pos (hv.size_eq a s (SortedMap.mem_toList_iff.mp hs))
  · rw [if_neg (mt SortedSet.isEmpty_iff.mp he)]
    exact iff_of_false (Option.some_ne_none _) fun hv => he hv.epsilon_eq

theorem fault?_eq_some_iff : v.fault? q = some f ↔ v.Charged q f := by
  unfold fault?
  by_cases he : v.epsilon = ∅
  · rw [if_pos (SortedSet.isEmpty_iff.mpr he), List.findSome?_eq_some_iff]
    constructor
    · rintro ⟨l, ⟨a, s⟩, l', hl, hf, hbefore⟩
      have hs : v.moves.get? a = some s := SortedMap.mem_toList_iff.mp (by simp [hl])
      dsimp only at hf
      by_cases hsize : s.size = 1
      · rw [if_pos hsize] at hf
        cases hf
      · rw [if_neg hsize] at hf
        obtain rfl := Option.some.inj hf
        refine .symbol he hs hsize fun b t ht hlt => ?_
        have hb := hbefore (b, t)
          ((SortedMap.mem_left_iff hl).mpr ⟨SortedMap.mem_toList_iff.mpr ht, hlt⟩)
        dsimp only at hb
        by_contra hne
        rw [if_neg hne] at hb
        cases hb
    · intro h
      cases h with
      | epsilon hne => exact absurd he hne
      | @symbol a s _ hs hsize hbefore =>
          obtain ⟨l, l', hl⟩ := List.append_of_mem (SortedMap.mem_toList_iff.mpr hs)
          refine ⟨l, (a, s), l', hl, if_neg hsize, ?_⟩
          rintro ⟨b, t⟩ hbt
          obtain ⟨ht, hlt⟩ := (SortedMap.mem_left_iff hl).mp hbt
          exact if_pos (hbefore b t (SortedMap.mem_toList_iff.mp ht) hlt)
  · rw [if_neg (mt SortedSet.isEmpty_iff.mp he)]
    constructor
    · intro h
      obtain rfl := Option.some.inj h
      exact .epsilon he
    · intro h
      cases h with
      | epsilon _ => rfl
      | symbol h _ _ _ => exact absurd h he

/-- A determined node is made of its sole targets. -/
theorem Determined.eq_sole (hv : v.Determined) :
    ({ moves := (v.moves.filterMap SortedSet.sole?).map SortedSet.singleton } : Node σ) = v := by
  have hmoves : (v.moves.filterMap SortedSet.sole?).map SortedSet.singleton = v.moves := by
    refine SortedMap.ext fun a => ?_
    rw [SortedMap.get?_map, SortedMap.get?_filterMap]
    cases hs : v.moves.get? a with
    | none => rfl
    | some s =>
        obtain ⟨p, rfl⟩ := SortedSet.size_eq_one_iff.mp (hv.size_eq a s hs)
        rfl
  rw [hmoves, ← hv.epsilon_eq]

end Node

end Nfa

/-! ## Things listed by number -/

theorem zipIdx_toList_eq_map_range {α : Type} (xs : Array α) (x : α) :
    xs.toList.zipIdx = (List.range xs.size).map fun i => (xs.getD i x, i) := by
  refine List.ext_getElem (by simp) fun i hi _ => ?_
  have hlt : i < xs.size := by simpa using hi
  simp [Array.getD, hlt]

theorem findSome?_range_eq_some_iff {β : Type} {g : Nat → Option β} {k : Nat} {b : β} :
    (List.range k).findSome? g = some b ↔
      ∃ i, i < k ∧ (∀ j, j < i → g j = none) ∧ g i = some b := by
  induction k with
  | zero => simp
  | succ k ih =>
      rw [List.range_succ, List.findSome?_append, Option.or_eq_some_iff, ih,
        List.findSome?_eq_none_iff]
      simp only [List.mem_range, List.findSome?_singleton]
      constructor
      · rintro (⟨i, hi, h⟩ | ⟨hbefore, hk⟩)
        · exact ⟨i, Nat.lt_succ_of_lt hi, h⟩
        · exact ⟨k, Nat.lt_succ_self k, hbefore, hk⟩
      · rintro ⟨i, hi, hbefore, hg⟩
        rcases Nat.lt_succ_iff_lt_or_eq.mp hi with hi | rfl
        · exact .inl ⟨i, hi, hbefore, hg⟩
        · exact .inr ⟨hbefore, hg⟩

namespace Nfa

variable {n : Nfa σ} {f : Fault σ}

/-! ## The first fault -/

theorem zipIdx_nodes (n : Nfa σ) :
    n.nodes.toList.zipIdx = (List.range n.states).map fun q => (n.node q, q) :=
  zipIdx_toList_eq_map_range n.nodes default

theorem nondeterminism?_eq (n : Nfa σ) :
    n.nondeterminism? = (List.range n.states).findSome? fun q => (n.node q).fault? q := by
  rw [nondeterminism?, zipIdx_nodes, List.findSome?_map]
  rfl

theorem nondeterminism?_eq_none_iff :
    n.nondeterminism? = none ↔ ∀ q, q < n.states → (n.node q).Determined := by
  rw [nondeterminism?_eq, List.findSome?_eq_none_iff]
  simp only [List.mem_range, Node.fault?_eq_none_iff]

theorem nondeterminism?_eq_some_iff : n.nondeterminism? = some f ↔
    ∃ q, q < n.states ∧ (∀ p, p < q → (n.node p).Determined) ∧ (n.node q).Charged q f := by
  rw [nondeterminism?_eq, findSome?_range_eq_some_iff]
  simp only [Node.fault?_eq_none_iff, Node.fault?_eq_some_iff]

end Nfa

namespace Dfa

variable {d : Dfa σ} {n : Nfa σ} {f : Fault σ} {p q : State} {a : σ}

/-! ## A deterministic automaton as a nondeterministic one -/

theorem targets_toNfa (d : Dfa σ) (q : State) (a : σ) :
    Machine.targets d.toNfa q a = Machine.targets d q a := by
  refine SortedSet.ext fun p => ?_
  have hview : p ∈ Machine.targets d q a ↔ d.step q a = some p := by
    simp only [Machine.targets]
    cases d.step q a with
    | none => exact iff_of_false SortedSet.not_mem_empty (Option.some_ne_none _).symm
    | some r => rw [SortedSet.mem_singleton, Option.some.injEq, eq_comm]
  exact mem_targets_toNfa.trans hview.symm

theorem vocabulary_toNfa (d : Dfa σ) : d.toNfa.vocabulary = d.vocabulary := by
  refine SortedSet.ext fun a => ?_
  rw [Nfa.mem_vocabulary_iff, mem_vocabulary_iff]
  simp only [mem_targets_toNfa]

theorem states_toNfa (d : Dfa σ) : d.toNfa.states = d.states := Array.size_map

theorem agree_toNfa (d : Dfa σ) : Machine.Agree d.toNfa d where
  states_eq := d.states_toNfa
  start_eq := rfl
  finals_eq := rfl
  vocabulary_eq := d.vocabulary_toNfa
  targets_eq := d.targets_toNfa
  epsilonTargets_eq _ := SortedSet.eq_empty_iff.mpr fun _ => not_mem_epsilon_toNfa

/-- The live states of the view are those of the one run. -/
theorem accepts_toNfa (d : Dfa σ) (w : List σ) : d.toNfa.accepts w = d.accepts w := by
  rw [Bool.eq_iff_iff, Nfa.accepts_iff, accepts_iff]
  exact exists_congr fun q => and_congr_left' path_toNfa_iff

theorem determined_toNfa (d : Dfa σ) (q : State) : (d.toNfa.node q).Determined := by
  rw [node_toNfa]
  refine ⟨rfl, fun a s hs => ?_⟩
  rw [SortedMap.get?_map, Option.map_eq_some_iff] at hs
  obtain ⟨p, _, rfl⟩ := hs
  rfl

theorem ofSoleTargets_toNfa (d : Dfa σ) : ofSoleTargets d.toNfa = d := by
  have hrow : ∀ r : SortedMap σ State,
      (r.map SortedSet.singleton).filterMap SortedSet.sole? = r := by
    intro r
    refine SortedMap.ext fun a => ?_
    rw [SortedMap.get?_filterMap, SortedMap.get?_map, Option.bind_map]
    simp only [Function.comp_def, SortedSet.sole?_singleton, Option.bind_fun_some]
  obtain ⟨rows, start, finals⟩ := d
  simp only [ofSoleTargets, toNfa, Array.map_map, Function.comp_def, hrow, Array.map_id']

theorem ofNfa_toNfa (d : Dfa σ) : ofNfa d.toNfa = .ok d := by
  have hnone := Nfa.nondeterminism?_eq_none_iff.mpr fun q _ => d.determined_toNfa q
  rw [ofNfa, hnone, ofSoleTargets_toNfa]

/-! ## A nondeterministic automaton as a deterministic one -/

theorem toNfa_ofSoleTargets (h : ∀ q, q < n.states → (n.node q).Determined) :
    (ofSoleTargets n).toNfa = n := by
  have hnodes : (ofSoleTargets n).toNfa.nodes = n.nodes := by
    refine Array.ext (by simp [toNfa, ofSoleTargets]) fun q _ hq => ?_
    simp only [toNfa, ofSoleTargets, Array.getElem_map, Nfa.getElem_nodes hq]
    exact (h q hq).eq_sole
  obtain ⟨nodes, start, finals⟩ := n
  exact congrArg (Nfa.mk · start finals) hnodes

theorem ofNfa_eq_ok_iff : ofNfa n = .ok d ↔ d.toNfa = n := by
  constructor
  · intro h
    unfold ofNfa at h
    split at h
    · cases h
    · next hnone =>
      obtain rfl := Except.ok.inj h
      exact toNfa_ofSoleTargets (Nfa.nondeterminism?_eq_none_iff.mp hnone)
  · rintro rfl
    exact d.ofNfa_toNfa

theorem exists_ofNfa_eq_ok_iff :
    (∃ d, ofNfa n = .ok d) ↔ ∀ q, q < n.states → (n.node q).Determined := by
  constructor
  · rintro ⟨d, h⟩ q _
    rw [← ofNfa_eq_ok_iff.mp h]
    exact d.determined_toNfa q
  · exact fun h => ⟨ofSoleTargets n, ofNfa_eq_ok_iff.mpr (toNfa_ofSoleTargets h)⟩

theorem ofNfa_eq_error_iff : ofNfa n = .error f ↔
    ∃ q, q < n.states ∧ (∀ p, p < q → (n.node p).Determined) ∧ (n.node q).Charged q f := by
  rw [← Nfa.nondeterminism?_eq_some_iff, ofNfa]
  cases n.nondeterminism? with
  | none => simp
  | some g => simp

/-- Where every label is a symbol, only the nondeterministic automaton matters. -/
theorem build_eq_bind {l : Description σ}
    (hlabels : ∀ e ∈ l.entries, Alphabet.visible? e.label ≠ none) :
    build l = Nfa.build l >>= ofNfa := by
  have hnone : (l.entries.find? fun e => (Alphabet.visible? e.label).isNone) = none := by
    refine List.find?_eq_none.mpr fun e he => ?_
    rw [Option.isNone_iff_eq_none]
    exact hlabels e he
  rw [build, hnone]
  cases Nfa.build l with
  | error f => rfl
  | ok n => rfl

/-- What is taken keeps its symbols. -/
theorem vocabulary_of_ofNfa (h : ofNfa n = .ok d) : d.vocabulary = n.vocabulary := by
  rw [← ofNfa_eq_ok_iff.mp h, vocabulary_toNfa]

/-- **Conversion.** A deterministic automaton and its nondeterministic view
answer every question alike and accept the same words, and the view is taken
back to the automaton itself. A nondeterministic automaton is taken just if
every node is determined, and it is the view of what is made of it;
otherwise the fault is what the first node that is not determined is charged
with. -/
theorem toNfa_ofNfa_lossless (d : Dfa σ) (n : Nfa σ) :
    (ofNfa d.toNfa = .ok d ∧ (∀ w, d.toNfa.accepts w = d.accepts w) ∧
      Machine.Agree d.toNfa d ∧
      (∀ q, Machine.isFinal d.toNfa q = Machine.isFinal d q) ∧
      (∀ s a, Machine.moveOn d.toNfa s a = Machine.moveOn d s a) ∧
      (∀ s, Machine.closure d.toNfa s = Machine.closure d s) ∧
      ∀ (ω : Type) [Worklist ω State] (s : StateSet),
        Machine.closureBy ω d.toNfa s = Machine.closureBy ω d s) ∧
    ((∃ e, ofNfa n = .ok e) ↔ ∀ q, q < n.states → (n.node q).Determined) ∧
    (∀ e, ofNfa n = .ok e ↔ e.toNfa = n) ∧
    (∀ e, ofNfa n = .ok e → e.vocabulary = n.vocabulary) ∧
    ∀ f, ofNfa n = .error f ↔
      ∃ q, q < n.states ∧ (∀ p, p < q → (n.node p).Determined) ∧ (n.node q).Charged q f := by
  have hagree := d.agree_toNfa
  refine ⟨⟨d.ofNfa_toNfa, d.accepts_toNfa, hagree, hagree.isFinal_eq, hagree.moveOn_eq,
    hagree.closure_eq, fun ω _ => hagree.closureBy_eq ω ω⟩, ?_⟩
  exact ⟨exists_ofNfa_eq_ok_iff, fun _ => ofNfa_eq_ok_iff, fun _ => vocabulary_of_ofNfa,
    fun _ => ofNfa_eq_error_iff⟩

/-- Both states leave something open; the first one has two targets under a
larger symbol as well. -/
def undetermined : Nfa Char :=
  Nfa.assemble ⟨2, [], [⟨1, some 'a', []⟩, ⟨0, some 'c', [0, 1]⟩, ⟨0, some 'b', []⟩], 0⟩

example : ofNfa undetermined = .error (.nonDeterministic 0 'b' 0) := by cbv

end Dfa

end FiniteState
