import Std.Data.TreeMap.Lemmas

/-!
# Numberings

Different things, numbered 0, 1, 2, … in the order in which they were
added: what a search has met, or the states that are left after pruning.
The number of a thing is its place in the list of all of them (`toList`),
and `number?_eq_some_iff` says that looking it up finds just that place.

Adding a thing that has a number already changes nothing, so nothing is
listed twice (`nodup_toList`).
-/

universe u

namespace FiniteState

open Std

/-- Different things in an order, and for each of them its place. -/
structure Numbering (α : Type u) [Ord α] where
  items : Array α
  places : TreeMap α Nat
  places_eq_some_iff (x : α) (i : Nat) : places[x]? = some i ↔ items[i]? = some x

namespace Numbering

variable {α : Type u} [Ord α]

/-- All things that have a number, in the order of their numbers. -/
def toList (s : Numbering α) : List α := s.items.toList

/-- The number of things that have a number. -/
def size (s : Numbering α) : Nat := s.items.size

/-- The number of a thing. -/
def number? (s : Numbering α) (x : α) : Option Nat := s.places[x]?

theorem length_toList (s : Numbering α) : s.toList.length = s.size := rfl

theorem number?_eq_some_iff {s : Numbering α} {x : α} {i : Nat} :
    s.number? x = some i ↔ s.toList[i]? = some x := by
  rw [number?, s.places_eq_some_iff, toList, Array.getElem?_toList]

theorem number?_inj {s : Numbering α} {x y : α} {i : Nat} (hx : s.number? x = some i)
    (hy : s.number? y = some i) : x = y :=
  Option.some.inj ((number?_eq_some_iff.mp hx).symm.trans (number?_eq_some_iff.mp hy))

/-- The numbers of all things are 0, 1, 2, … -/
theorem map_number?_toList (s : Numbering α) :
    s.toList.map s.number? = (List.range s.size).map some := by
  refine List.ext_getElem (by simp [length_toList]) fun i hi _ => ?_
  rw [List.getElem_map, List.getElem_map, List.getElem_range]
  exact number?_eq_some_iff.mpr (List.getElem?_eq_getElem _)

/-- A number belongs to one thing, and a thing has one number. -/
theorem nodup_toList (s : Numbering α) : s.toList.Nodup := by
  refine List.pairwise_iff_getElem.mpr fun i j hi hj hij h => ?_
  have h1 := number?_eq_some_iff.mpr (List.getElem?_eq_getElem hi)
  have h2 := number?_eq_some_iff.mpr (List.getElem?_eq_getElem hj)
  rw [h, h2] at h1
  exact Nat.ne_of_lt hij (Option.some.inj h1).symm

instance : Membership α (Numbering α) := ⟨fun s x => x ∈ s.toList⟩

@[simp] theorem mem_toList {s : Numbering α} {x : α} : x ∈ s.toList ↔ x ∈ s := Iff.rfl

theorem isSome_number? {s : Numbering α} {x : α} : (s.number? x).isSome = true ↔ x ∈ s := by
  rw [← mem_toList, List.mem_iff_getElem?, Option.isSome_iff_exists]
  exact exists_congr fun i => number?_eq_some_iff

theorem number?_eq_none_iff {s : Numbering α} {x : α} : s.number? x = none ↔ ¬ x ∈ s := by
  rw [← isSome_number?, Option.not_isSome_iff_eq_none]

/-- Numbers are below the number of things. -/
theorem number?_lt {s : Numbering α} {x : α} {i : Nat} (h : s.number? x = some i) :
    i < s.size :=
  s.length_toList ▸ (List.getElem?_eq_some_iff.mp (number?_eq_some_iff.mp h)).1

instance (x : α) (s : Numbering α) : Decidable (x ∈ s) := decidable_of_iff _ isSome_number?

/-! ## Adding -/

variable [TransOrd α] [LawfulEqOrd α]

instance : EmptyCollection (Numbering α) :=
  ⟨⟨#[], ∅, fun x i => by rw [TreeMap.getElem?_emptyc]; simp⟩⟩

omit [LawfulEqOrd α] in
@[simp] theorem toList_empty : (∅ : Numbering α).toList = [] := rfl

omit [LawfulEqOrd α] in
@[simp] theorem not_mem_empty {x : α} : ¬ x ∈ (∅ : Numbering α) := List.not_mem_nil

/-- Gives the next number to a thing that has none. -/
def add (s : Numbering α) (x : α) : Numbering α :=
  if h : x ∈ s then s
  else
    let next := s.items.size
    { items := s.items.push x
      places := s.places.insert x next
      places_eq_some_iff := fun y i => by
        have hx : ∀ j, s.items[j]? ≠ some x := fun j hj =>
          h (isSome_number?.mp (Option.isSome_of_eq_some ((s.places_eq_some_iff x j).mpr hj)))
        rw [TreeMap.getElem?_insert, Array.getElem?_push]
        by_cases hxy : x = y
        · subst hxy
          by_cases hi : i = s.items.size
          · simp [hi, next]
          · simp [hi, next, hx i, Ne.symm hi]
        · have hy := s.places_eq_some_iff y i
          rw [if_neg (mt LawfulEqCmp.compare_eq_iff_eq.mp hxy), hy]
          by_cases hi : i = s.items.size
          · simp [hi, hxy]
          · simp [hi] }

theorem toList_add (s : Numbering α) (x : α) :
    (s.add x).toList = if x ∈ s then s.toList else s.toList ++ [x] := by
  unfold add
  split <;> simp [toList]

@[simp] theorem mem_add {s : Numbering α} {x y : α} : y ∈ s.add x ↔ y ∈ s ∨ y = x := by
  rw [← mem_toList, toList_add]
  split
  · next h =>
    rw [mem_toList]
    exact ⟨.inl, fun hy => hy.elim id fun hyx => hyx ▸ h⟩
  · simp

/-- The things of a list, numbered in the order in which they first occur
there. -/
def ofList (l : List α) : Numbering α := l.foldl add ∅

theorem mem_ofList {l : List α} {x : α} : x ∈ ofList l ↔ x ∈ l := by
  have h : ∀ (l : List α) (s : Numbering α), x ∈ l.foldl add s ↔ x ∈ s ∨ x ∈ l := by
    intro l
    induction l with
    | nil => simp
    | cons y l ih => simp [ih, or_assoc]
  simp [ofList, h]

/-- Where nothing occurs twice, the numbers are the places in the list. -/
theorem toList_ofList {l : List α} (hl : l.Nodup) : (ofList l).toList = l := by
  have h : ∀ (l : List α) (s : Numbering α), (∀ x ∈ l, ¬ x ∈ s) → l.Nodup →
      (l.foldl add s).toList = s.toList ++ l := by
    intro l
    induction l with
    | nil => simp
    | cons y l ih =>
      intro s hs hl
      obtain ⟨hy, hl⟩ := List.nodup_cons.mp hl
      rw [List.foldl_cons, ih _ (fun x hx => ?_) hl, toList_add, if_neg (hs y List.mem_cons_self)]
      · simp
      · rw [mem_add]
        exact fun h => h.elim (hs x (List.mem_cons_of_mem _ hx)) fun hxy => hy (hxy ▸ hx)
  rw [ofList, h l ∅ (fun _ _ => not_mem_empty) hl, toList_empty, List.nil_append]

end Numbering

end FiniteState
