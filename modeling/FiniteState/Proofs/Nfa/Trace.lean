import FiniteState.Proofs.Nfa.Path

/-!
# Traces

A path, written out: the transitions that are taken, one after the other,
each with its label and the state to which it leads. Whether an automaton
can take them is asked of it by the two questions that every machine
answers, where the moves of a state on a symbol lead and where its epsilon
moves lead. Nothing else of the automaton enters, neither closures nor sets
of live states, so this is what acceptance means without any way to compute
it.

Reading a word computes it: a word is accepted exactly if some trace from
the start to an accepting state consumes it (`accepts_iff_exists_trace`).
Traces and the relation `Nfa.Path` are built from opposite ends, so a path
becomes a trace by appending its moves (`Path.exists_trace`), and a trace
becomes a path by putting the rest behind its first move
(`path_of_follows`).

Reading may also stop as soon as no state is alive, with the same answer
(`readFrom_initial`).
-/

namespace FiniteState

namespace Machine

variable {M σ : Type} [Alphabet σ] [Machine M σ] {m : M} {q p : State} {t u : List (Option σ × State)}

/-- The transitions, given by their labels and targets, lead from one state
to another. An epsilon move has no label. -/
def Follows (m : M) (q : State) : List (Option σ × State) → State → Prop
  | [], p => q = p
  | (none, r) :: t, p => r ∈ epsilonTargets m q ∧ Follows m r t p
  | (some a, r) :: t, p => r ∈ targets m q a ∧ Follows m r t p

/-- The symbols that the transitions consume, in their order. -/
def consumed (t : List (Option σ × State)) : List σ := t.filterMap Prod.fst

theorem follows_append : Follows m q (t ++ u) p ↔ ∃ r, Follows m q t r ∧ Follows m r u p := by
  induction t generalizing q with
  | nil => simp [Follows]
  | cons e t ih =>
      obtain ⟨label, r⟩ := e
      cases label with
      | none => simp [Follows, ih, and_assoc]
      | some a => simp [Follows, ih, and_assoc]

end Machine

namespace Nfa

open Machine

variable {σ : Type} [Alphabet σ] {n : Nfa σ} {s : StateSet} {q p : State} {w : List σ}
  {t : List (Option σ × State)}

/-! ## Paths and traces -/

theorem Path.exists_trace (h : n.Path q w p) : ∃ t, Follows n q t p ∧ consumed t = w := by
  induction h with
  | refl => exact ⟨[], rfl, rfl⟩
  | @silent w p r _ hr ih =>
      obtain ⟨t, ht, rfl⟩ := ih
      exact ⟨t ++ [(none, r)], follows_append.mpr ⟨p, ht, hr, rfl⟩, by simp [consumed]⟩
  | @move w p r a _ hr ih =>
      obtain ⟨t, ht, rfl⟩ := ih
      exact ⟨t ++ [(some a, r)], follows_append.mpr ⟨p, ht, hr, rfl⟩, by simp [consumed]⟩

theorem path_of_follows (h : Follows n q t p) : n.Path q (consumed t) p := by
  induction t generalizing q with
  | nil =>
      obtain rfl : q = p := h
      exact .refl
  | cons e t ih =>
      obtain ⟨label, r⟩ := e
      cases label with
      | none => exact (Path.refl.silent h.1).trans (ih h.2)
      | some a => exact (Path.refl.move h.1).trans (ih h.2)

/-- The live states after a word are the ends of the traces that consume
it. -/
theorem mem_live_iff_exists_trace :
    p ∈ n.live w ↔ ∃ t, Follows n n.start t p ∧ consumed t = w := by
  rw [mem_live_iff]
  constructor
  · exact Path.exists_trace
  · rintro ⟨t, ht, rfl⟩
    exact path_of_follows ht

/-! ## Stopping early -/

/-- Reads a word from a set of live states, and gives up as soon as no state
is alive. -/
def readFrom (n : Nfa σ) (s : StateSet) : List σ → Bool
  | [] => s.meets n.finals
  | a :: w =>
    let next := n.advance s a
    if next.isEmpty then false else n.readFrom next w

theorem foldl_advance_empty (n : Nfa σ) (w : List σ) : w.foldl n.advance ∅ = ∅ := by
  induction w with
  | nil => rfl
  | cons a w ih => rw [List.foldl_cons, advance_empty, ih]

theorem readFrom_eq (n : Nfa σ) (s : StateSet) (w : List σ) :
    n.readFrom s w = (w.foldl n.advance s).meets n.finals := by
  induction w generalizing s with
  | nil => rfl
  | cons a w ih =>
      unfold readFrom
      dsimp only
      split
      · next hempty =>
        -- the rest of the word is not read, but could not bring a state back
        have hnone : ¬ SortedSet.meets ∅ n.finals = true := fun h =>
          (SortedSet.meets_iff.mp h).elim fun _ hq => SortedSet.not_mem_empty hq.1
        rw [List.foldl_cons, SortedSet.isEmpty_iff.mp hempty, foldl_advance_empty]
        exact (Bool.eq_false_iff.mpr hnone).symm
      · exact ih _

theorem readFrom_initial (n : Nfa σ) (w : List σ) : n.readFrom n.initial w = n.accepts w :=
  n.readFrom_eq n.initial w

/-- **Following sets of states finds exactly the traces.** A word is
accepted if and only if finitely many epsilon moves and moves on symbols lead
from the start to an accepting state and consume the word, symbol by symbol;
and giving up once no state is alive answers the same. -/
theorem accepts_iff_exists_trace (n : Nfa σ) (w : List σ) :
    (n.accepts w = true ↔
        ∃ t p, Follows n n.start t p ∧ p ∈ n.finals ∧ consumed t = w) ∧
      n.readFrom n.initial w = n.accepts w := by
  refine ⟨?_, n.readFrom_initial w⟩
  rw [accepts, SortedSet.meets_iff]
  constructor
  · rintro ⟨p, hlive, hfinal⟩
    obtain ⟨t, ht, hw⟩ := mem_live_iff_exists_trace.mp hlive
    exact ⟨t, p, ht, hfinal, hw⟩
  · rintro ⟨t, p, ht, hfinal, hw⟩
    exact ⟨p, mem_live_iff_exists_trace.mpr ⟨t, ht, hw⟩, hfinal⟩

end Nfa

end FiniteState
