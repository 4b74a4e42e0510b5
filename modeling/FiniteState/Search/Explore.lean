import FiniteState.Numbering
import FiniteState.Search.Worklist

/-!
# Exploration

The search that everything reachable is found by: closing a set of states
under silent moves, the states that a deterministic automaton can be in,
and the sets of states that subset construction numbers. It starts from
some seeds, takes pending things off a worklist, and whatever a thing
leads to that was not met before is noted and becomes pending in turn.

The result numbers what was met **in the order of meeting it**, seeds
first. A limit on the number of things met may stop the search early; it
then has met more than the limit, and up to there the same things in the
same order as without it.

Each thing is pushed once, when it is met, so what is pending and what
can still be met shrink together. This bounds the search whenever only
finitely many things are ever led to (`Bounded`).
-/

namespace FiniteState

open Std

namespace Search

variable {α : Type}

/-- Only finitely many things are ever led to. -/
def Bounded (next : α → List α) : Prop := ∃ all : List α, ∀ x, ∀ y ∈ next x, y ∈ all

variable [Ord α] [TransOrd α] [LawfulEqOrd α]

/-! ## Meeting things -/

/-- What a list holds that was not met before, once each, in the order of
the list. -/
def fresh (seen : Numbering α) : List α → List α
  | [] => []
  | y :: l => if y ∈ seen then fresh seen l else y :: fresh (seen.add y) l

variable {ω : Type} [Worklist ω α]

/-- Meets the things of a list one after the other: each one that was not
met before is numbered and becomes pending. -/
def meet (seen : Numbering α) (work : ω) : List α → Numbering α × ω
  | [] => (seen, work)
  | y :: l => if y ∈ seen then meet seen work l else meet (seen.add y) (Worklist.push work y) l

theorem mem_fresh {z : α} {seen : Numbering α} {l : List α} :
    z ∈ fresh seen l ↔ z ∈ l ∧ ¬ z ∈ seen := by
  induction l generalizing seen with
  | nil => simp [fresh]
  | cons y l ih =>
    unfold fresh
    split <;> grind [Numbering.mem_add]

theorem toList_meet (seen : Numbering α) (work : ω) (l : List α) :
    (meet seen work l).1.toList = seen.toList ++ fresh seen l := by
  fun_induction meet seen work l with
  | case1 => simp [fresh]
  | case2 _ _ _ _ h ih => rw [ih, fresh, if_pos h]
  | case3 _ _ _ _ h ih =>
    rw [ih, fresh, if_neg h, Numbering.toList_add, if_neg h, List.append_assoc]
    rfl

theorem mem_pending_meet {seen : Numbering α} {work : ω} {l : List α} {z : α} :
    z ∈ Worklist.pending (meet seen work l).2 ↔
      (z ∈ l ∧ ¬ z ∈ seen) ∨ z ∈ Worklist.pending work := by
  rw [← mem_fresh]
  fun_induction meet seen work l with
  | case1 => simp [fresh]
  | case2 _ _ _ _ h ih => rw [ih, fresh, if_pos h]
  | case3 _ work _ _ h ih =>
    rw [ih, fresh, if_neg h, Worklist.mem_pending_push, List.mem_cons, or_left_comm, or_assoc]

/-- No more becomes pending than is met. -/
theorem length_pending_meet_le (seen : Numbering α) (work : ω) (l : List α) :
    (Worklist.pending (meet seen work l).2).length ≤
      (fresh seen l).length + (Worklist.pending work).length := by
  fun_induction meet seen work l with
  | case1 => exact Nat.le_add_left _ _
  | case2 _ _ _ _ h ih => rwa [fresh, if_pos h]
  | case3 _ work y _ h ih =>
    have hpush := Worklist.length_pending_push_le work y
    rw [fresh, if_neg h, List.length_cons]
    omega

theorem mem_meet {seen : Numbering α} {work : ω} {l : List α} {z : α} :
    z ∈ (meet seen work l).1 ↔ z ∈ seen ∨ z ∈ l := by
  rw [← Numbering.mem_toList, toList_meet, List.mem_append, mem_fresh, Numbering.mem_toList]
  by_cases h : z ∈ seen <;> simp [h]

/-! ## What is left to meet -/

/-- How many of a list of things have not been met. -/
def unseen (all : List α) (seen : Numbering α) : Nat := all.countP fun x => ¬ x ∈ seen

theorem unseen_add_le (all : List α) (seen : Numbering α) (y : α) :
    unseen all (seen.add y) ≤ unseen all seen :=
  List.countP_mono_left fun x _ => by simp +contextual

/-- Meeting one more thing leaves at least one less. -/
theorem unseen_add_lt {all : List α} {seen : Numbering α} {y : α} (hy : y ∈ all)
    (hn : ¬ y ∈ seen) : unseen all (seen.add y) < unseen all seen := by
  induction all with
  | nil => simp at hy
  | cons x all ih =>
    by_cases hxy : x = y
    · have hle := unseen_add_le all seen y
      simp only [unseen, List.countP_cons] at *
      rw [hxy, if_pos (decide_eq_true hn), if_neg (by simp)]
      omega
    · have := ih ((List.mem_cons.mp hy).resolve_left (Ne.symm hxy))
      simp only [unseen, List.countP_cons] at *
      simpa [hxy] using this

theorem unseen_meet {all l : List α} (seen : Numbering α) (work : ω) (h : ∀ y ∈ l, y ∈ all) :
    unseen all (meet seen work l).1 + (fresh seen l).length ≤ unseen all seen := by
  fun_induction meet seen work l with
  | case1 => simp [fresh]
  | case2 _ _ _ _ hy ih =>
    rw [fresh, if_pos hy]
    exact ih fun z hz => h z (List.mem_cons_of_mem _ hz)
  | case3 _ _ _ _ hy ih =>
    have h1 := ih fun z hz => h z (List.mem_cons_of_mem _ hz)
    have h2 := unseen_add_lt (h _ List.mem_cons_self) hy
    rw [fresh, if_neg hy, List.length_cons]
    omega

/-! ## The search -/

/-- Whether more has been met than a limit allows. -/
def outgrown (limit : Option Nat) (seen : Numbering α) : Bool := limit.any (· < seen.size)

/-- Searches on from what was met and what of it is pending. -/
def explore (limit : Option Nat) (next : α → List α) (h : Bounded next) (seen : Numbering α)
    (work : ω) : Numbering α :=
  if outgrown limit seen then seen
  else
    match _ : Worklist.pop? work with
    | none => seen
    | some (x, rest) =>
      let met := meet seen rest (next x)
      explore limit next h met.1 met.2
termination_by (Worklist.pending work).length + unseen h.choose seen
decreasing_by
  have hwork := Worklist.length_pending_of_pop?_some ‹_›
  have hpush := length_pending_meet_le seen rest (next x)
  have hseen := unseen_meet seen rest (h.choose_spec x)
  omega

/-- Everything that is met from some seeds, in the order of meeting it,
when what is pending is kept in a worklist of type `ω`. -/
def search (ω : Type) [Worklist ω α] (limit : Option Nat) (next : α → List α)
    (h : Bounded next) (seeds : List α) : Numbering α :=
  let met := meet ∅ (Worklist.empty : ω) seeds
  explore limit next h met.1 met.2

end Search

end FiniteState
