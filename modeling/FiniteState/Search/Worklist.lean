import FiniteState.Sorted.Set

/-!
# Worklists

What is still pending in a search, and which of it comes next. A worklist
is known by its `pending` view. Pushing a thing makes it pending, popping
takes a pending thing away, and popping finds nothing only when nothing is
pending. *Which* thing is popped is left open, so a fact proved from these
laws holds for every order of search. So is how often a thing is pending
that is pushed while it is: the laws say what is pending, and about its
number only that a push adds at most one and a pop takes away at least
one. In a stack or a queue a thing that was pushed twice is pending twice,
in a set once.

For a queue the order is known as well (`Queue.toList_push`,
`Queue.pop?_eq`).
-/

namespace FiniteState

open Std

/-- A collection of pending things that decides by itself which one is
next. -/
class Worklist (ω : Type) (α : outParam Type) where
  empty : ω
  push : ω → α → ω
  pop? : ω → Option (α × ω)
  /-- What has been pushed and not been popped since. -/
  pending : ω → List α
  pending_empty : pending empty = []
  mem_pending_push (w : ω) (x y : α) : y ∈ pending (push w x) ↔ y = x ∨ y ∈ pending w
  length_pending_push_le (w : ω) (x : α) :
    (pending (push w x)).length ≤ (pending w).length + 1
  pending_of_pop?_none {w : ω} : pop? w = none → pending w = []
  mem_pending_of_pop?_some {w rest : ω} {x : α} :
    pop? w = some (x, rest) → ∀ y, y ∈ pending w ↔ y = x ∨ y ∈ pending rest
  length_pending_of_pop?_some {w rest : ω} {x : α} :
    pop? w = some (x, rest) → (pending rest).length < (pending w).length

namespace Worklist

variable {ω α : Type} [Worklist ω α]

/-- Pushes the members of a list, the first one first. -/
def pushAll (w : ω) (l : List α) : ω := l.foldl push w

/-- What is popped was pending. -/
theorem mem_pending_of_pop? {w rest : ω} {x : α} (h : pop? w = some (x, rest)) :
    x ∈ pending w :=
  (mem_pending_of_pop?_some h x).mpr (.inl rfl)

end Worklist

/-! ## Last in, first out -/

/-- A worklist that continues from what was found last. -/
structure Stack (α : Type) where
  toList : List α

namespace Stack

variable {α : Type} {w rest : Stack α} {x : α}

def pop? (w : Stack α) : Option (α × Stack α) :=
  match w.toList with
  | [] => none
  | x :: rest => some (x, ⟨rest⟩)

theorem toList_of_pop?_none (h : w.pop? = none) : w.toList = [] := by
  obtain ⟨_ | _⟩ := w
  · rfl
  · simp [pop?] at h

theorem toList_of_pop?_some (h : w.pop? = some (x, rest)) : w.toList = x :: rest.toList := by
  obtain ⟨_ | ⟨y, l⟩⟩ := w
  · simp [pop?] at h
  · obtain ⟨rfl, rfl⟩ : y = x ∧ ⟨l⟩ = rest := by simpa [pop?] using h
    rfl

instance : Worklist (Stack α) α where
  empty := ⟨[]⟩
  push w x := ⟨x :: w.toList⟩
  pop? := pop?
  pending := toList
  pending_empty := rfl
  mem_pending_push _ _ _ := List.mem_cons
  length_pending_push_le _ _ := Nat.le_refl _
  pending_of_pop?_none := toList_of_pop?_none
  mem_pending_of_pop?_some h y := by
    rw [toList_of_pop?_some h, List.mem_cons]
  length_pending_of_pop?_some h := by
    rw [toList_of_pop?_some h]
    exact Nat.lt_succ_self _

end Stack

/-! ## First in, first out -/

/-- A worklist that takes things in the order in which they were found:
those in `back` were pushed after those in `front`, the last one first. -/
structure Queue (α : Type) where
  front : List α
  back : List α

namespace Queue

variable {α : Type}

/-- What is pending, in the order in which it will be popped. -/
def toList (q : Queue α) : List α := q.front ++ q.back.reverse

def push (q : Queue α) (x : α) : Queue α := { q with back := x :: q.back }

def pop? (q : Queue α) : Option (α × Queue α) :=
  match q.front with
  | x :: front => some (x, { q with front })
  | [] =>
    match q.back.reverse with
    | [] => none
    | x :: front => some (x, ⟨front, []⟩)

theorem toList_push (q : Queue α) (x : α) : (q.push x).toList = q.toList ++ [x] := by
  simp [toList, push]

/-- Popping splits off the head of the queue. -/
theorem pop?_eq (q : Queue α) :
    (q.pop?).map (fun p => p.1 :: p.2.toList) =
      if q.toList = [] then none else some q.toList := by
  obtain ⟨_ | ⟨x, front⟩, back⟩ := q
  · cases h : back.reverse <;> simp [pop?, toList, h]
  · simp [pop?, toList]

theorem toList_of_pop?_none {q : Queue α} (h : q.pop? = none) : q.toList = [] := by
  have hpop := q.pop?_eq
  rw [h] at hpop
  simpa using hpop

theorem toList_of_pop?_some {q rest : Queue α} {x : α} (h : q.pop? = some (x, rest)) :
    q.toList = x :: rest.toList := by
  have hpop := q.pop?_eq
  rw [h] at hpop
  split at hpop
  · cases hpop
  · exact (Option.some.inj hpop).symm

instance : Worklist (Queue α) α where
  empty := ⟨[], []⟩
  push := push
  pop? := pop?
  pending := toList
  pending_empty := rfl
  mem_pending_push q x y := by
    rw [toList_push, List.mem_append, List.mem_singleton, or_comm]
  length_pending_push_le q x := Nat.le_of_eq <| by
    rw [toList_push, List.length_append, List.length_singleton]
  pending_of_pop?_none := toList_of_pop?_none
  mem_pending_of_pop?_some h y := by
    rw [toList_of_pop?_some h, List.mem_cons]
  length_pending_of_pop?_some h := by
    rw [toList_of_pop?_some h]
    exact Nat.lt_succ_self _

end Queue

/-! ## Smallest first -/

namespace SortedSet

variable {α : Type} [Ord α] [TransOrd α] [LawfulEqOrd α]

/-- A set is a worklist that continues from its smallest member. -/
instance : Worklist (SortedSet α) α where
  empty := ∅
  push s x := s.insert x
  pop? := pop?
  pending := toList
  pending_empty := rfl
  mem_pending_push _ _ _ := mem_insert
  length_pending_push_le s x := s.length_insert_le x
  pending_of_pop?_none := toList_of_pop?_none
  mem_pending_of_pop?_some h y := by
    rw [toList_of_pop?_some h, List.mem_cons]
  length_pending_of_pop?_some h := by
    rw [toList_of_pop?_some h]
    exact Nat.lt_succ_self _

end SortedSet

end FiniteState
