import FiniteState.Nfa.Basic
import Mathlib.Data.List.Induction

/-!
# Live states and paths

The moves of an automaton one at a time: a path makes epsilon moves and
moves on symbols, and the symbols in their order are the word it reads.
The states that are alive after a word are those in which a path from the
start ends (`mem_live_iff`). The search that closes a set under epsilon
moves has disappeared from this view, so facts about automata that are
put together from others are proved of paths.

Once no state is alive none will be again (`live_append_eq_empty`). An
automaton is trim if from every state that it can be in it can still
accept; then it is alive exactly after the beginnings of the words that
it accepts (`Trim.live_ne_empty_iff`).
-/

namespace FiniteState

namespace Nfa

variable {σ : Type} [Alphabet σ] {n : Nfa σ} {s : StateSet} {q p r : State} {a : σ} {v w : List σ}

/-! ## The node of a state -/

theorem getElem_nodes (hq : q < n.nodes.size) : n.nodes[q] = n.node q := by
  rw [node, Array.getD_eq_getD_getElem?, Array.getElem?_eq_getElem hq]
  rfl

theorem node_eq_default (hq : n.states ≤ q) : n.node q = default := by
  rw [node, Array.getD_eq_getD_getElem?, Array.getElem?_eq_none hq]
  rfl

/-! ## One more symbol -/

theorem mem_initial_iff : p ∈ n.initial ↔
    Search.Reaches (fun q => (n.node q).epsilon.toList) n.start p := by
  rw [initial, Machine.mem_closure]
  constructor
  · rintro ⟨q, hq, hp⟩
    rwa [← SortedSet.mem_singleton.mp hq]
  · exact fun h => ⟨n.start, SortedSet.mem_singleton.mpr rfl, h⟩

theorem initial_ne_empty (n : Nfa σ) : n.initial ≠ ∅ :=
  fun h => SortedSet.eq_empty_iff.mp h n.start (mem_initial_iff.mpr .refl)

theorem mem_advance_iff : p ∈ n.advance s a ↔ ∃ q r, q ∈ s ∧ r ∈ (n.node q).targets a ∧
    Search.Reaches (fun q => (n.node q).epsilon.toList) r p := by
  rw [advance, Machine.mem_closure]
  constructor
  · rintro ⟨r, hr, hp⟩
    obtain ⟨q, hq, hqr⟩ := Machine.mem_moveOn.mp hr
    exact ⟨q, r, hq, hqr, hp⟩
  · rintro ⟨q, r, hq, hqr, hp⟩
    exact ⟨r, Machine.mem_moveOn.mpr ⟨q, hq, hqr⟩, hp⟩

theorem advance_empty (n : Nfa σ) (a : σ) : n.advance ∅ a = ∅ := by
  refine SortedSet.eq_empty_iff.mpr fun p hp => ?_
  obtain ⟨q, _, hq, _⟩ := mem_advance_iff.mp hp
  exact SortedSet.not_mem_empty hq

theorem Node.mem_proper {v : Node σ} :
    (a, s) ∈ v.proper ↔ v.moves.get? a = some s ∧ s ≠ ∅ := by
  rw [proper, List.mem_filter, SortedMap.mem_toList_iff, Bool.not_eq_true', ← Bool.not_eq_true,
    SortedSet.isEmpty_iff]

/-- A symbol with a target is in the vocabulary. -/
theorem mem_vocabulary_of_mem_targets (h : p ∈ (n.node q).targets a) : a ∈ n.vocabulary := by
  rcases n.node_mem_or_eq q with hq | hq
  · refine SortedSet.mem_ofList.mpr (List.mem_flatMap.mpr ⟨n.node q, hq.val, ?_⟩)
    unfold Node.targets at h
    cases hs : (n.node q).moves.get? a with
    | none =>
        rw [hs] at h
        exact absurd h SortedSet.not_mem_empty
    | some s =>
        rw [hs] at h
        have hne : s ≠ ∅ := fun he => SortedSet.not_mem_empty (he ▸ h)
        exact List.mem_map.mpr ⟨(a, s), Node.mem_proper.mpr ⟨hs, hne⟩, rfl⟩
  · rw [hq] at h
    exact absurd h SortedSet.not_mem_empty

/-- The vocabulary holds just the symbols with a target. -/
theorem mem_vocabulary_iff : a ∈ n.vocabulary ↔ ∃ q p, p ∈ (n.node q).targets a := by
  constructor
  · intro h
    obtain ⟨v, hv, hav⟩ := List.mem_flatMap.mp (SortedSet.mem_ofList.mp h)
    obtain ⟨⟨_, s⟩, hs, rfl⟩ := List.mem_map.mp hav
    obtain ⟨hget, hne⟩ := Node.mem_proper.mp hs
    obtain ⟨q, hq⟩ := List.mem_iff_getElem?.mp hv
    rw [Array.getElem?_toList] at hq
    obtain ⟨p, hp⟩ : ∃ p, p ∈ s := by
      by_contra hempty
      exact hne (SortedSet.eq_empty_iff.mpr fun p hp => hempty ⟨p, hp⟩)
    refine ⟨q, p, ?_⟩
    rw [node, Array.getD_eq_getD_getElem?, hq, Option.getD_some, Node.targets, hget]
    exact hp
  · rintro ⟨q, p, h⟩
    exact mem_vocabulary_of_mem_targets h

/-- A symbol outside the vocabulary leaves no state alive. -/
theorem advance_eq_empty (s : StateSet) (ha : ¬ a ∈ n.vocabulary) : n.advance s a = ∅ := by
  refine SortedSet.eq_empty_iff.mpr fun p hp => ?_
  obtain ⟨_, _, _, h, _⟩ := mem_advance_iff.mp hp
  exact ha (mem_vocabulary_of_mem_targets h)

/-! ## Live states -/

theorem live_concat (n : Nfa σ) (w : List σ) (a : σ) :
    n.live (w ++ [a]) = n.advance (n.live w) a := by
  rw [live, List.foldl_append]
  rfl

theorem live_append_eq_empty (h : n.live v = ∅) (w : List σ) : n.live (v ++ w) = ∅ := by
  induction w using List.reverseRecOn with
  | nil => rwa [List.append_nil]
  | append_singleton w a ih => rw [← List.append_assoc, live_concat, ih, advance_empty]

/-- States are alive after a word only if some were all along. -/
theorem live_ne_empty_iff : n.live w ≠ ∅ ↔ ∀ u, u <+: w → n.live u ≠ ∅ := by
  constructor
  · rintro hw u ⟨v, rfl⟩ hu
    exact hw (live_append_eq_empty hu v)
  · exact fun h => h w (List.prefix_refl w)

theorem live_ne_empty_of_accepts (h : n.accepts w = true) : n.live w ≠ ∅ := by
  obtain ⟨q, hq, _⟩ := SortedSet.meets_iff.mp h
  exact fun hempty => SortedSet.eq_empty_iff.mp hempty q hq

/-! ## Paths -/

/-- From one state to another by moves that read a word. -/
inductive Path (n : Nfa σ) (q : State) : List σ → State → Prop where
  | refl : Path n q [] q
  | silent {w : List σ} {p r : State} : Path n q w p → r ∈ (n.node p).epsilon → Path n q w r
  | move {w : List σ} {p r : State} {a : σ} :
    Path n q w p → r ∈ (n.node p).targets a → Path n q (w ++ [a]) r

theorem Path.trans (h : n.Path q v p) (h' : n.Path p w r) : n.Path q (v ++ w) r := by
  induction h' with
  | refl => rwa [List.append_nil]
  | silent _ hr ih => exact ih.silent hr
  | move _ hr ih =>
      rw [← List.append_assoc]
      exact ih.move hr

theorem Path.of_reaches (h : n.Path q w p)
    (hr : Search.Reaches (fun q => (n.node q).epsilon.toList) p r) : n.Path q w r := by
  induction hr with
  | refl => exact h
  | step _ hz ih => exact ih.silent hz

/-- Live states stay alive under epsilon moves. -/
theorem mem_live_of_mem_epsilon (hq : q ∈ n.live w) (h : p ∈ (n.node q).epsilon) :
    p ∈ n.live w := by
  cases w using List.reverseRecOn with
  | nil => exact mem_initial_iff.mpr ((mem_initial_iff.mp hq).step h)
  | append_singleton w a =>
      rw [live_concat] at hq ⊢
      obtain ⟨q', r, hq', hr, hreach⟩ := mem_advance_iff.mp hq
      exact mem_advance_iff.mpr ⟨q', r, hq', hr, hreach.step h⟩

/-- The live states after a word are the ends of the paths that read it. -/
theorem mem_live_iff : p ∈ n.live w ↔ n.Path n.start w p := by
  constructor
  · intro hp
    induction w using List.reverseRecOn generalizing p with
    | nil => exact Path.refl.of_reaches (mem_initial_iff.mp hp)
    | append_singleton w a ih =>
        rw [live_concat] at hp
        obtain ⟨q, r, hq, hr, hreach⟩ := mem_advance_iff.mp hp
        exact ((ih hq).move hr).of_reaches hreach
  · intro hp
    induction hp with
    | refl => exact mem_initial_iff.mpr .refl
    | silent _ hr ih => exact mem_live_of_mem_epsilon ih hr
    | move _ hr ih =>
        rw [live_concat]
        exact mem_advance_iff.mpr ⟨_, _, ih, hr, .refl⟩

theorem accepts_iff : n.accepts w = true ↔ ∃ q, n.Path n.start w q ∧ q ∈ n.finals := by
  rw [accepts, SortedSet.meets_iff]
  simp only [mem_live_iff]

/-! ## Trim automata -/

/-- An accepting state can be reached from a state. -/
def CanAccept (n : Nfa σ) (q : State) : Prop := ∃ w p, n.Path q w p ∧ p ∈ n.finals

theorem CanAccept.of_path (h : n.CanAccept p) (hqp : n.Path q v p) : n.CanAccept q := by
  obtain ⟨w, r, hpr, hr⟩ := h
  exact ⟨v ++ w, r, hqp.trans hpr, hr⟩

/-- Wherever the automaton can be, it can still accept. -/
def Trim (n : Nfa σ) : Prop := ∀ w q, n.Path n.start w q → n.CanAccept q

/-- A trim automaton is alive after the beginnings of the words that it
accepts. -/
theorem Trim.live_ne_empty_iff (hn : n.Trim) : n.live w ≠ ∅ ↔ ∃ v, n.accepts (w ++ v) = true := by
  constructor
  · intro hne
    obtain ⟨q, hq⟩ : ∃ q, q ∈ n.live w := by
      by_contra h
      exact hne (SortedSet.eq_empty_iff.mpr fun q hq => h ⟨q, hq⟩)
    have hpath := mem_live_iff.mp hq
    obtain ⟨v, p, hqp, hp⟩ := hn w q hpath
    exact ⟨v, accepts_iff.mpr ⟨p, hpath.trans hqp, hp⟩⟩
  · rintro ⟨v, hv⟩ hempty
    exact live_ne_empty_of_accepts hv (live_append_eq_empty hempty v)

end Nfa

end FiniteState
