import FiniteState.Nfa.Build
import FiniteState.Proofs.Nfa.Combine

/-!
# What a description makes

Entries only ever add to an automaton, so their order does not matter: a
state of what is made has the epsilon targets, the targets and the
remembered symbols that some entry for it names, and no others
(`mem_epsilon_assemble`, `mem_targets_assemble`, `remembers_assemble`). These
three determine a node (`Node.eq_of_same`).

A description is without fault just if it has its start and every state that
it names (`fault?_eq_none_iff`). What is made of it then names no state but
its own.
-/

namespace FiniteState

theorem Alphabet.visible?_eq_some_iff {σ : Type} [Alphabet σ] {label : Option σ} {a : σ} :
    Alphabet.visible? label = some a ↔ label = some a ∧ Alphabet.isEpsilon a = false := by
  rw [Alphabet.visible?, Option.filter_eq_some_iff, Bool.not_eq_true']

namespace Description

variable {σ : Type} {d : Description σ}

theorem fault?_eq_none_iff :
    d.fault? = none ↔ d.start < d.states ∧ ∀ q ∈ d.named, q < d.states := by
  unfold fault?
  by_cases hnone : d.states = 0
  · rw [if_pos hnone, hnone]
    exact iff_of_false (Option.some_ne_none _) fun h => absurd h.1 (Nat.not_lt_zero _)
  · rw [if_neg hnone]
    by_cases hstart : d.states ≤ d.start
    · rw [if_pos hstart]
      exact iff_of_false (Option.some_ne_none _) fun h => absurd h.1 (Nat.not_lt.mpr hstart)
    · rw [if_neg hstart, Option.map_eq_none_iff, List.find?_eq_none]
      simp only [decide_eq_true_eq, Nat.not_le] at hstart ⊢
      exact (and_iff_right hstart).symm

theorem lt_of_mem_targets (h : d.fault? = none) {e : Entry σ} (he : e ∈ d.entries) {p : State}
    (hp : p ∈ e.targets) : p < d.states :=
  (fault?_eq_none_iff.mp h).2 p <| List.mem_append_right _ <|
    List.mem_flatMap.mpr ⟨e, he, List.mem_cons_of_mem _ hp⟩

end Description

namespace Nfa

variable {σ : Type} [Alphabet σ] {d : Description σ} {n : Nfa σ} {q p : State} {a : σ}

/-! ## Adding to a node -/

namespace Node

variable {v v' : Node σ} {l : List (Entry σ)}

/-- A symbol stands in the row of a node, with targets or without. -/
def Remembers (v : Node σ) (a : σ) : Prop := (v.moves.get? a).isSome = true

theorem targets_of_get? {s : StateSet} (h : v.moves.get? a = some s) : v.targets a = s := by
  rw [targets, h, Option.getD_some]

theorem targets_of_not_remembers (h : ¬ v.Remembers a) : v.targets a = ∅ := by
  rw [targets, Option.not_isSome_iff_eq_none.mp h, Option.getD_none]

theorem remembers_of_mem_targets (h : p ∈ v.targets a) : v.Remembers a := by
  by_contra hnone
  rw [targets_of_not_remembers hnone] at h
  exact SortedSet.not_mem_empty h

/-- A node is known by its targets and the symbols that it remembers. -/
theorem eq_of_same (hepsilon : v.epsilon = v'.epsilon) (htargets : ∀ a, v.targets a = v'.targets a)
    (hremembers : ∀ a, v.Remembers a ↔ v'.Remembers a) : v = v' := by
  have hmoves : v.moves = v'.moves := by
    refine SortedMap.ext fun a => ?_
    have hiff := hremembers a
    have hsame := htargets a
    unfold Remembers at hiff
    unfold targets at hsame
    cases hs : v.moves.get? a with
    | none =>
        cases ht : v'.moves.get? a with
        | none => rfl
        | some t => simp [hs, ht] at hiff
    | some s =>
        cases ht : v'.moves.get? a with
        | none => simp [hs, ht] at hiff
        | some t =>
            rw [hs, ht] at hsame
            exact congrArg some hsame
  obtain ⟨epsilon, moves⟩ := v
  obtain ⟨epsilon', moves'⟩ := v'
  exact congr (congrArg Node.mk hepsilon) hmoves

theorem remembers_add {label : Option σ} {targets : List State} :
    (v.add label targets).Remembers a ↔ Alphabet.visible? label = some a ∨ v.Remembers a := by
  unfold add Remembers
  cases Alphabet.visible? label with
  | none => simp
  | some b =>
      by_cases hab : a = b
      · subst hab
        simp [SortedMap.get?_alter_self]
      · simp [SortedMap.get?_alter_of_ne hab, Ne.symm hab]

/-- Adds what some entries say, whatever their origins. -/
def addAll (v : Node σ) (l : List (Entry σ)) : Node σ :=
  l.foldl (fun v e => v.add e.label e.targets) v

/-- What an entry can bring about holds of the result if some entry brought
it about or it held before. -/
theorem addAll_iff {P : Node σ → Prop} {Q : Entry σ → Prop}
    (h : ∀ (v : Node σ) (e : Entry σ), P (v.add e.label e.targets) ↔ Q e ∨ P v) :
    P (v.addAll l) ↔ (∃ e ∈ l, Q e) ∨ P v := by
  induction l generalizing v with
  | nil => simp [addAll]
  | cons e l ih =>
      change P ((v.add e.label e.targets).addAll l) ↔ _
      rw [ih, h, ← or_assoc, or_comm (b := Q e)]
      simp only [List.mem_cons, exists_eq_or_imp]

end Node

/-! ## The nodes of what is made -/

theorem size_foldl_addEntry (l : List (Entry σ)) (nodes : Array (Node σ)) :
    (l.foldl addEntry nodes).size = nodes.size := by
  induction l generalizing nodes with
  | nil => rfl
  | cons e l ih => rw [List.foldl_cons, ih, addEntry, Array.size_modify]

theorem states_assemble (d : Description σ) : (assemble d).states = d.states := by
  rw [states, assemble, size_foldl_addEntry, Array.size_replicate]

/-- The entries of one origin reach its node, and no others do. -/
theorem getElem?_foldl_addEntry (l : List (Entry σ)) (nodes : Array (Node σ)) (q : State) :
    (l.foldl addEntry nodes)[q]? =
      nodes[q]?.map fun v => v.addAll (l.filter fun e => e.origin = q) := by
  induction l generalizing nodes with
  | nil => simp [Node.addAll]
  | cons e l ih =>
      rw [List.foldl_cons, ih, addEntry, Array.getElem?_modify, List.filter_cons]
      by_cases hq : e.origin = q
      · rw [if_pos hq, if_pos (decide_eq_true hq), Option.map_map]
        rfl
      · rw [if_neg hq, if_neg (by simpa using hq)]

theorem node_assemble (hq : q < d.states) :
    (assemble d).node q = Node.addAll {} (d.entries.filter fun e => e.origin = q) := by
  rw [node, Array.getD_eq_getD_getElem?, assemble, getElem?_foldl_addEntry,
    Array.getElem?_replicate, if_pos hq]
  rfl

theorem mem_epsilon_assemble (hq : q < d.states) : p ∈ ((assemble d).node q).epsilon ↔
    ∃ e ∈ d.entries, e.origin = q ∧ Alphabet.visible? e.label = none ∧ p ∈ e.targets := by
  rw [node_assemble hq, Node.addAll_iff (P := fun v => p ∈ v.epsilon) fun _ _ =>
    Node.mem_epsilon_add]
  simp [and_assoc]

theorem mem_targets_assemble (hq : q < d.states) : p ∈ ((assemble d).node q).targets a ↔
    ∃ e ∈ d.entries, e.origin = q ∧ Alphabet.visible? e.label = some a ∧ p ∈ e.targets := by
  rw [node_assemble hq, Node.addAll_iff (P := fun v => p ∈ v.targets a) fun _ _ =>
    Node.mem_targets_add]
  simp [and_assoc, Node.targets]

theorem remembers_assemble (hq : q < d.states) : ((assemble d).node q).Remembers a ↔
    ∃ e ∈ d.entries, e.origin = q ∧ Alphabet.visible? e.label = some a := by
  rw [node_assemble hq, Node.addAll_iff (P := fun v => v.Remembers a) fun _ _ =>
    Node.remembers_add]
  simp [and_assoc, Node.Remembers]

/-! ## Without fault -/

theorem build_eq_ok_iff : build d = .ok n ↔ d.fault? = none ∧ assemble d = n := by
  unfold build
  cases d.fault? with
  | none => simp
  | some f => simp

theorem wellFormed_assemble (h : d.fault? = none) : (assemble d).WellFormed := by
  obtain ⟨hstart, hnamed⟩ := Description.fault?_eq_none_iff.mp h
  have hbelow : ∀ q, ((assemble d).node q).Below d.states := by
    intro q
    rcases Nat.lt_or_ge q d.states with hq | hq
    · constructor
      · intro p hp
        obtain ⟨e, he, _, _, hp⟩ := (mem_epsilon_assemble hq).mp hp
        exact d.lt_of_mem_targets h he hp
      · intro a p hp
        obtain ⟨e, he, _, _, hp⟩ := (mem_targets_assemble hq).mp hp
        exact d.lt_of_mem_targets h he hp
    · rw [node_eq_default ((states_assemble d).symm ▸ hq)]
      exact Node.below_default _
  constructor
  · rwa [states_assemble]
  · intro q hq
    rw [states_assemble]
    exact hnamed q (List.mem_append_left _ (SortedSet.mem_ofList.mp hq))
  · intro v hv
    obtain ⟨q, hq, rfl⟩ := Array.mem_iff_getElem.mp hv
    rw [states_assemble, getElem_nodes hq]
    exact hbelow q

end Nfa

end FiniteState
