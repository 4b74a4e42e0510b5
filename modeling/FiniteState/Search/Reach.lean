import FiniteState.Search.Explore

/-!
# What a search meets

A search without a limit meets exactly what its seeds reach, whatever the
worklist (`mem_search`). Both halves are invariants of `explore`:

- whatever holds of the seeds and passes on to what a thing leads to
  holds of everything met (`of_mem_explore`, also under a limit);
- what is met but no longer pending leads only to what is met
  (`explore_closed`), and at the end nothing is pending.

A search starts from where meeting its seeds leaves it: they are numbered
first, and all of them are pending.

Under a limit it meets the same things in the same order, up to where it
stops (`search_prefix`), and if it does not outgrow the limit it is the search
without one (`search_eq_of_not_outgrown`).
-/

namespace FiniteState

open Std

namespace Search

variable {α : Type}

/-- A thing is reached from another by being led to, any number of
times. -/
inductive Reaches (next : α → List α) (x : α) : α → Prop where
  | refl : Reaches next x x
  | step {y z : α} : Reaches next x y → z ∈ next y → Reaches next x z

variable [Ord α] [TransOrd α] [LawfulEqOrd α] {ω : Type} [Worklist ω α] {limit : Option Nat}
  {next : α → List α} {h : Bounded next} {seen : Numbering α} {work : ω}

/-! ## Nothing else is met -/

theorem of_mem_explore {P : α → Prop} (hnext : ∀ y, P y → ∀ z ∈ next y, P z)
    (hseen : ∀ y, y ∈ seen → P y) (hwork : ∀ y ∈ Worklist.pending work, P y) :
    ∀ y, y ∈ explore limit next h seen work → P y := by
  fun_induction explore limit next h seen work with
  | case1 | case2 => exact hseen
  | case3 seen work _ x rest hpop met ih =>
    have hx : P x := hwork x (Worklist.mem_pending_of_pop? hpop)
    refine ih (fun y hy => ?_) (fun y hy => ?_)
    · exact (mem_meet.mp hy).elim (hseen y) (hnext x hx y)
    · rcases mem_pending_meet.mp hy with ⟨hy, _⟩ | hy
      · exact hnext x hx y hy
      · exact hwork y ((Worklist.mem_pending_of_pop?_some hpop y).mpr (.inr hy))

theorem mem_explore_of_mem_seen : ∀ y, y ∈ seen → y ∈ explore limit next h seen work := by
  fun_induction explore limit next h seen work with
  | case1 | case2 => exact fun _ hy => hy
  | case3 _ _ _ _ _ _ _ ih => exact fun y hy => ih y (mem_meet.mpr (.inl hy))

/-! ## Nothing is missed -/

/-- What was met either leads to nothing new or is still pending. -/
def Settled (next : α → List α) (seen : Numbering α) (pending : List α) : Prop :=
  ∀ y, y ∈ seen → y ∈ pending ∨ ∀ z ∈ next y, z ∈ seen

theorem explore_closed (hset : Settled next seen (Worklist.pending work)) :
    ∀ y, y ∈ explore none next h seen work →
      ∀ z ∈ next y, z ∈ explore none next h seen work := by
  fun_induction explore none next h seen work with
  | case1 _ _ hout => simp [outgrown] at hout
  | case2 seen work _ hpop =>
    intro y hy
    have hnil := Worklist.pending_of_pop?_none hpop
    exact (hset y hy).resolve_left (by simp [hnil])
  | case3 seen work _ x rest hpop met ih =>
    refine ih fun y hy => ?_
    by_cases hys : y ∈ seen
    · rcases hset y hys with hp | hp
      · rcases (Worklist.mem_pending_of_pop?_some hpop y).mp hp with rfl | hp
        · exact .inr fun z hz => mem_meet.mpr (.inr hz)
        · exact .inl (mem_pending_meet.mpr (.inr hp))
      · exact .inr fun z hz => mem_meet.mpr (.inl (hp z hz))
    · exact .inl (mem_pending_meet.mpr (.inl ⟨(mem_meet.mp hy).resolve_left hys, hys⟩))

/-! ## The whole search -/

theorem of_mem_search {P : α → Prop} {seeds : List α} (hnext : ∀ y, P y → ∀ z ∈ next y, P z)
    (hseeds : ∀ y ∈ seeds, P y) : ∀ y, y ∈ search ω limit next h seeds → P y := by
  refine of_mem_explore hnext (fun y hy => ?_) (fun y hy => ?_)
  · exact hseeds y ((mem_meet.mp hy).resolve_left Numbering.not_mem_empty)
  · rcases mem_pending_meet.mp hy with ⟨hy, _⟩ | hy
    · exact hseeds y hy
    · rw [Worklist.pending_empty] at hy
      exact absurd hy List.not_mem_nil

theorem mem_search_of_mem_seeds {seeds : List α} {x : α} (hx : x ∈ seeds) :
    x ∈ search ω limit next h seeds :=
  mem_explore_of_mem_seen x (mem_meet.mpr (.inr hx))

theorem search_closed {seeds : List α} :
    ∀ y, y ∈ search ω none next h seeds → ∀ z ∈ next y, z ∈ search ω none next h seeds := by
  refine explore_closed fun y hy => .inl (mem_pending_meet.mpr (.inl ⟨?_, ?_⟩))
  · exact (mem_meet.mp hy).resolve_left Numbering.not_mem_empty
  · exact Numbering.not_mem_empty

/-- A search meets exactly what its seeds reach. -/
theorem mem_search {seeds : List α} {y : α} :
    y ∈ search ω none next h seeds ↔ ∃ x ∈ seeds, Reaches next x y := by
  constructor
  · intro hy
    refine of_mem_search (P := fun y => ∃ x ∈ seeds, Reaches next x y)
      (fun y ⟨x, hx, hxy⟩ z hz => ⟨x, hx, hxy.step hz⟩) (fun y hy => ⟨y, hy, .refl⟩) y hy
  · rintro ⟨x, hx, hxy⟩
    induction hxy with
    | refl => exact mem_search_of_mem_seeds hx
    | step _ hz ih => exact search_closed _ ih _ hz

/-! ## One round of the search -/

theorem explore_of_pop?_none (hpop : Worklist.pop? work = none) :
    explore limit next h seen work = seen := by
  rw [explore]
  split
  · rfl
  · split
    · rfl
    · next hsome =>
      rw [hpop] at hsome
      cases hsome

theorem explore_of_pop?_some {x : α} {rest : ω} (hroom : outgrown limit seen = false)
    (hpop : Worklist.pop? work = some (x, rest)) : explore limit next h seen work =
      explore limit next h (meet seen rest (next x)).1 (meet seen rest (next x)).2 := by
  rw [explore, if_neg (Bool.eq_false_iff.mp hroom)]
  split
  · next hnone =>
    rw [hpop] at hnone
    cases hnone
  · next hsome =>
    rw [hpop] at hsome
    obtain ⟨rfl, rfl⟩ := Prod.mk.inj (Option.some.inj hsome)
    rfl

/-! ## Under a limit -/

omit [TransOrd α] [LawfulEqOrd α] in
theorem outgrown_none (seen : Numbering α) : outgrown none seen = false := rfl

/-- A limit that is not outgrown changes nothing. -/
theorem explore_eq_of_not_outgrown
    (hlimit : outgrown limit (explore limit next h seen work) = false) :
    explore limit next h seen work = explore none next h seen work := by
  fun_induction explore limit next h seen work with
  | case1 seen work hout =>
    rw [hout] at hlimit
    cases hlimit
  | case2 seen work _ hpop => rw [explore_of_pop?_none hpop]
  | case3 seen work _ x rest hpop met ih =>
    rw [ih hlimit, explore_of_pop?_some (outgrown_none seen) hpop]

theorem search_eq_of_not_outgrown {seeds : List α}
    (hlimit : outgrown limit (search ω limit next h seeds) = false) :
    search ω limit next h seeds = search ω none next h seeds :=
  explore_eq_of_not_outgrown hlimit

theorem prefix_meet (seen : Numbering α) (work : ω) (l : List α) :
    seen.toList <+: (meet seen work l).1.toList := by
  rw [toList_meet]
  exact List.prefix_append ..

theorem prefix_explore : seen.toList <+: (explore limit next h seen work).toList := by
  fun_induction explore limit next h seen work with
  | case1 | case2 => exact List.prefix_refl _
  | case3 _ _ _ _ _ _ _ ih => exact (prefix_meet ..).trans ih

/-- A limit cuts off the end of what is met. -/
theorem explore_prefix :
    (explore limit next h seen work).toList <+: (explore none next h seen work).toList := by
  fun_induction explore limit next h seen work with
  | case1 | case2 => exact prefix_explore
  | case3 seen work _ x rest hpop met ih =>
    rw [explore_of_pop?_some (outgrown_none seen) hpop]
    exact ih

theorem search_prefix (seeds : List α) :
    (search ω limit next h seeds).toList <+: (search ω none next h seeds).toList :=
  explore_prefix

end Search

end FiniteState
