import FiniteState.Search.Reach
import FiniteState.Sorted.Map
import Mathlib.Data.List.Basic

/-!
# Strict look-ups

The definitions of the library look things up by number, and take a default
or change nothing where the number is out of range. A strict construction
fails there instead. The strict forms of the library's constructions are
defined beside these lemmas and differ from them in nothing else, so where
one succeeds no default has been taken.

Each comes with one lemma, which says that with all numbers in range it
succeeds, with the result of the construction. Here are the common parts: a
write into a table, a row whose values are looked up, and a search whose
things are looked up when they are popped.
-/

universe u v w

namespace FiniteState

/-! ## Tables -/

/-- Changes the value at a place, which has to be there. -/
def modify? {α : Type u} (xs : Array α) (i : Nat) (f : α → α) : Option (Array α) :=
  if i < xs.size then some (xs.modify i f) else none

/-- Writes to a place, which has to be there. -/
def write? {α : Type u} (xs : Array α) (i : Nat) (x : α) : Option (Array α) :=
  if i < xs.size then some (xs.setIfInBounds i x) else none

section Tables

variable {α : Type u} {xs left right : Array α} {i : Nat}

theorem modify?_of_lt (h : i < xs.size) (f : α → α) : modify? xs i f = some (xs.modify i f) :=
  if_pos h

theorem write?_of_lt (h : i < xs.size) (x : α) : write? xs i x = some (xs.setIfInBounds i x) :=
  if_pos h

/-- Where there is a value, no default is taken for it. -/
theorem getElem?_eq_some_getD (h : i < xs.size) (x : α) : xs[i]? = some (xs.getD i x) := by
  rw [Array.getD_eq_getD_getElem?, Array.getElem?_eq_getElem h]
  rfl

theorem modify_id (xs : Array α) (i : Nat) : xs.modify i id = xs := by
  rw [← Array.toList_inj, Array.toList_modify, List.modify_id]

theorem modify_modify (xs : Array α) (i : Nat) (f g : α → α) :
    (xs.modify i f).modify i g = xs.modify i (g ∘ f) := by
  rw [← Array.toList_inj, Array.toList_modify, Array.toList_modify, Array.toList_modify,
    List.modify_modify_eq]

theorem modify_append_left (h : i < left.size) (f : α → α) :
    (left ++ right).modify i f = left.modify i f ++ right := by
  refine Array.ext_getElem? fun j => ?_
  rcases Nat.lt_or_ge j left.size with hj | hj
  · rw [Array.getElem?_modify, Array.getElem?_append_left hj, Array.getElem?_append_left,
      Array.getElem?_modify]
    rwa [Array.size_modify]
  · rw [Array.getElem?_modify, if_neg (by omega), Array.getElem?_append_right hj,
      Array.getElem?_append_right, Array.size_modify]
    rwa [Array.size_modify]

theorem modify_append_right (f : α → α) :
    (left ++ right).modify (i + left.size) f = left ++ right.modify i f := by
  refine Array.ext_getElem? fun j => ?_
  rcases Nat.lt_or_ge j left.size with hj | hj
  · rw [Array.getElem?_modify, if_neg (by omega), Array.getElem?_append_left hj,
      Array.getElem?_append_left hj]
  · obtain ⟨k, rfl⟩ := Nat.exists_eq_add_of_le' hj
    simp only [Array.getElem?_modify, Array.getElem?_append_right hj, Nat.add_sub_cancel,
      Nat.add_right_cancel_iff]

end Tables

/-! ## Lists -/

theorem mapM_eq_some {α β : Type} {f : α → Option β} {g : α → β} {l : List α}
    (h : ∀ a ∈ l, f a = some (g a)) : l.mapM f = some (l.map g) := by
  induction l with
  | nil => rfl
  | cons a l ih =>
      rw [List.mapM_cons, h a List.mem_cons_self, ih fun b hb => h b (List.mem_cons_of_mem _ hb)]
      rfl

/-- A fold whose steps succeed as long as something holds that they keep. -/
theorem foldlM_eq_some {α β : Type} {f : β → α → Option β} {g : β → α → β} {P : β → Prop}
    {l : List α} {b : β} (hstep : ∀ b, P b → ∀ a ∈ l, f b a = some (g b a) ∧ P (g b a))
    (hb : P b) : l.foldlM f b = some (l.foldl g b) ∧ P (l.foldl g b) := by
  induction l generalizing b with
  | nil => exact ⟨rfl, hb⟩
  | cons a l ih =>
      obtain ⟨hsome, hkept⟩ := hstep b hb a List.mem_cons_self
      rw [List.foldlM_cons, hsome]
      exact ih (fun b hb c hc => hstep b hb c (List.mem_cons_of_mem _ hc)) hkept

/-! ## Rows -/

namespace SortedMap

variable {κ : Type u} {ν : Type v} {μ : Type w} [Ord κ]

/-- Replaces each value by what is found for it, and drops the entry where
that is nothing; fails if nothing can be looked up for some value. -/
def filterMap? (f : ν → Option (Option μ)) (m : SortedMap κ ν) : Option (SortedMap κ μ) :=
  if m.values.all fun v => (f v).isSome then some (m.filterMap fun v => (f v).join) else none

/-- Replaces each value by what is found for it, which has to be there. -/
def map? (f : ν → Option μ) (m : SortedMap κ ν) : Option (SortedMap κ μ) :=
  m.filterMap? fun v => (f v).map some

theorem filterMap?_eq_some {f : ν → Option (Option μ)} {g : ν → Option μ} {m : SortedMap κ ν}
    (h : ∀ v ∈ m.values, f v = some (g v)) : m.filterMap? f = some (m.filterMap g) := by
  have hall : m.values.all (fun v => (f v).isSome) = true :=
    List.all_eq_true.mpr fun v hv => by rw [h v hv]; rfl
  have hsame : (m.filterMap fun v => (f v).join) = m.filterMap g := by
    refine eq_of_toList_eq (List.filterMap_congr fun e he => ?_)
    dsimp only
    rw [h e.2 (List.mem_map_of_mem he), Option.join_some]
  rw [filterMap?, if_pos hall, hsame]

theorem map?_eq_some {f : ν → Option μ} {g : ν → μ} {m : SortedMap κ ν}
    (h : ∀ v ∈ m.values, f v = some (g v)) : m.map? f = some (m.map g) := by
  have hsame : (m.filterMap fun v => some (g v)) = m.map g :=
    eq_of_toList_eq (congrFun List.filterMap_eq_map' m.toList)
  rw [map?, filterMap?_eq_some (g := fun v => some (g v)) fun v hv => by rw [h v hv]; rfl, hsame]

end SortedMap

/-! ## Searches -/

namespace Search

variable {α : Type} [Ord α] [Std.TransOrd α] [Std.LawfulEqOrd α] {ω : Type} [Worklist ω α]

/-- Searches on; what a thing leads to has to be found. -/
def explore? (next? : α → Option (List α)) (h : Bounded fun x => (next? x).getD [])
    (seen : Numbering α) (work : ω) : Option (Numbering α) :=
  match _ : Worklist.pop? work with
  | none => some seen
  | some (x, rest) =>
    match _ : next? x with
    | none => none
    | some l =>
      let met := meet seen rest l
      explore? next? h met.1 met.2
termination_by (Worklist.pending work).length + unseen h.choose seen
decreasing_by
  have hwork := Worklist.length_pending_of_pop?_some ‹_›
  have hpush := length_pending_meet_le seen rest l
  have hnext : ∀ y ∈ l, y ∈ h.choose := fun y hy =>
    h.choose_spec x y (by simpa only [‹next? x = some l›, Option.getD_some] using hy)
  have hseen := unseen_meet seen rest hnext
  omega

/-- Everything that is met from some seeds, if all that is met can be looked
up. -/
def search? (ω : Type) [Worklist ω α] (next? : α → Option (List α))
    (h : Bounded fun x => (next? x).getD []) (seeds : List α) : Option (Numbering α) :=
  let met := meet ∅ (Worklist.empty : ω) seeds
  explore? next? h met.1 met.2

theorem explore?_eq_some {next? : α → Option (List α)} {h : Bounded fun x => (next? x).getD []}
    {seen : Numbering α} {work : ω} {P : α → Prop}
    (hnext : ∀ x, P x → ∃ l, next? x = some l ∧ ∀ y ∈ l, P y)
    (hwork : ∀ x ∈ Worklist.pending work, P x) :
    explore? next? h seen work = some (explore none (fun x => (next? x).getD []) h seen work) := by
  fun_induction explore? next? h seen work with
  | case1 seen work hpop =>
    rw [explore, outgrown_none, if_neg Bool.false_ne_true]
    split
    · rfl
    · next hsome =>
      rw [hpop] at hsome
      cases hsome
  | case2 seen work x rest hpop hnone =>
    obtain ⟨l, hl, _⟩ := hnext x (hwork x (Worklist.mem_pending_of_pop? hpop))
    rw [hnone] at hl
    cases hl
  | case3 seen work x rest hpop l hl met ih =>
    obtain ⟨l', hl', hP⟩ := hnext x (hwork x (Worklist.mem_pending_of_pop? hpop))
    obtain rfl := Option.some.inj (hl.symm.trans hl')
    rw [ih fun y hy => ?_, explore.eq_def none _ h seen work, outgrown_none,
      if_neg Bool.false_ne_true]
    · split
      · next hnone =>
        rw [hpop] at hnone
        cases hnone
      · next hsome =>
        rw [hpop] at hsome
        obtain ⟨rfl, rfl⟩ := Prod.mk.inj (Option.some.inj hsome)
        simp only [hl, Option.getD_some]
        rfl
    · rcases mem_pending_meet.mp hy with ⟨hy, _⟩ | hy
      · exact hP y hy
      · exact hwork y ((Worklist.mem_pending_of_pop?_some hpop y).mpr (.inr hy))

theorem search?_eq_some {next? : α → Option (List α)} {h : Bounded fun x => (next? x).getD []}
    {seeds : List α} {P : α → Prop} (hnext : ∀ x, P x → ∃ l, next? x = some l ∧ ∀ y ∈ l, P y)
    (hseeds : ∀ x ∈ seeds, P x) :
    search? ω next? h seeds = some (search ω none (fun x => (next? x).getD []) h seeds) := by
  refine explore?_eq_some hnext fun x hx => ?_
  rcases mem_pending_meet.mp hx with ⟨hx, _⟩ | hx
  · exact hseeds x hx
  · rw [Worklist.pending_empty] at hx
    exact absurd hx List.not_mem_nil

end Search

end FiniteState
