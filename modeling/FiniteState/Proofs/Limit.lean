import FiniteState.Proofs.Enumeration

/-!
# The limit on subset construction

Subset construction looks at its limit after it has met all sets that one set
leads to, and then cuts its report to the limit. Here it is compared with two
other constructions.

One has no limit. A limited search meets the same things in the same order, up
to where it stops (`search_prefix`); it stops early exactly if the unlimited
one meets more than the limit allows, and otherwise it is the unlimited one.

The other checks the limit for each thing by itself (`searchWithin`): something
that has a number is left alone, and before something new is numbered there must
be room for it. Such a search fails at once when it is full, with what it has
met until then, which is as much as the limit allows. It is the limited search
(`exploreWithin_spec`), and the construction on it reports nothing beyond what it
has numbered, so cutting the report is right (`determinizeWithin_eq`).
-/

namespace FiniteState

open Std

namespace Search

variable {α : Type} [Ord α] [TransOrd α] [LawfulEqOrd α] {ω : Type} [Worklist ω α]
  {limit : Option Nat} {next : α → List α} {hb : Bounded next} {seen : Numbering α} {work : ω}

/-! ## A check for each thing -/

/-- How a search ends that has no room for something new: the limit, and all
that was met. -/
structure Full (α : Type) [Ord α] where
  limit : Nat
  met : Numbering α

/-- Meets the things of a list one after the other, while there is room for
those that were not met before. -/
def meetWithin (limit : Option Nat) (seen : Numbering α) (work : ω) :
    List α → Except (Full α) (Numbering α × ω)
  | [] => .ok (seen, work)
  | y :: l =>
    if y ∈ seen then meetWithin limit seen work l
    else
      match limit.filter (· ≤ seen.size) with
      | some bound => .error ⟨bound, seen⟩
      | none => meetWithin limit (seen.add y) (Worklist.push work y) l

theorem meetWithin_eq_ok {l : List α} {met : Numbering α × ω}
    (h : meetWithin limit seen work l = .ok met) : met = meet seen work l := by
  fun_induction meetWithin limit seen work l with
  | case1 => exact (Except.ok.inj h).symm
  | case2 _ _ _ _ hy ih => rw [ih h, meet, if_pos hy]
  | case3 => cases h
  | case4 _ _ _ _ hy _ ih => rw [ih h, meet, if_neg hy]

/-- Searches on while there is room. -/
def exploreWithin (limit : Option Nat) (next : α → List α) (hb : Bounded next)
    (seen : Numbering α) (work : ω) : Except (Full α) (Numbering α) :=
  match _ : Worklist.pop? work with
  | none => .ok seen
  | some (x, rest) =>
    match _ : meetWithin limit seen rest (next x) with
    | .error full => .error full
    | .ok met => exploreWithin limit next hb met.1 met.2
termination_by (Worklist.pending work).length + unseen hb.choose seen
decreasing_by
  have hmet := meetWithin_eq_ok ‹_›
  have hwork := Worklist.length_pending_of_pop?_some ‹_›
  have hpush := length_pending_meet_le seen rest (next x)
  have hseen := unseen_meet seen rest (hb.choose_spec x)
  rw [← hmet] at hpush hseen
  omega

/-- Everything that is met from some seeds, as long as there is room. -/
def searchWithin (ω : Type) [Worklist ω α] (limit : Option Nat) (next : α → List α)
    (hb : Bounded next) (seeds : List α) : Except (Full α) (Numbering α) := do
  let met ← meetWithin limit ∅ (Worklist.empty : ω) seeds
  exploreWithin limit next hb met.1 met.2

/-- A search has ended with as much as the limit allows, and without a limit it
meets that first and then more. -/
structure Full.EndOf (full : Full α) (limit : Option Nat) (found : Numbering α) : Prop where
  limit_eq : limit = some full.limit
  size_eq : full.met.size = full.limit
  met_prefix : full.met.toList <+: found.toList
  limit_lt : full.limit < found.size

omit [TransOrd α] [LawfulEqOrd α] in
theorem Full.EndOf.mono {full : Full α} {found more : Numbering α}
    (h : full.EndOf limit found) (hmore : found.toList <+: more.toList) :
    full.EndOf limit more :=
  ⟨h.limit_eq, h.size_eq, h.met_prefix.trans hmore,
    Nat.lt_of_lt_of_le h.limit_lt hmore.length_le⟩

/-- Something new outgrows the limit if there is no room for it. -/
theorem outgrown_add {y : α} (hy : ¬ y ∈ seen) :
    outgrown limit (seen.add y) = (limit.filter (· ≤ seen.size)).isSome := by
  have hsize : (seen.add y).size = seen.size + 1 := by
    rw [← Numbering.length_toList, Numbering.toList_add, if_neg hy, List.length_append,
      Numbering.length_toList, List.length_singleton]
  rw [outgrown, Option.isSome_filter, hsize]
  exact congrArg limit.any (funext fun bound => decide_eq_decide.mpr Nat.lt_succ_iff)

/-- Meeting the things of a list one by one meets them all, or as many of them
as there is room for. -/
theorem meetWithin_spec (work : ω) (l : List α) (hroom : outgrown limit seen = false) :
    match meetWithin limit seen work l with
    | .ok met => met = meet seen work l ∧ outgrown limit met.1 = false
    | .error full => full.EndOf limit (meet seen work l).1 := by
  fun_induction meetWithin limit seen work l with
  | case1 => exact ⟨rfl, hroom⟩
  | case2 _ _ _ _ hy ih =>
      rw [meet, if_pos hy]
      exact ih hroom
  | case3 seen work y l hy bound hbound =>
      -- there are as many things as the limit allows, and one more is to come
      obtain ⟨hlimit, hle⟩ := Option.filter_eq_some_iff.mp hbound
      have hsize : seen.size = bound :=
        Nat.le_antisymm (by simpa [hlimit, outgrown] using hroom) (by simpa using hle)
      have hprefix := prefix_meet (seen.add y) (Worklist.push work y) l
      rw [Numbering.toList_add, if_neg hy] at hprefix
      rw [meet, if_neg hy]
      refine ⟨hlimit, hsize, (List.prefix_append ..).trans hprefix, ?_⟩
      have hlength := hprefix.length_le
      rw [List.length_append, Numbering.length_toList, Numbering.length_toList,
        hsize] at hlength
      exact hlength
  | case4 seen work y l hy hbound ih =>
      rw [meet, if_neg hy]
      exact ih (by rw [outgrown_add hy, hbound, Option.isSome_none])

/-- Checking the limit for each thing by itself finds what the limited search
finds, or ends with the beginning of it. -/
theorem exploreWithin_spec (hroom : outgrown limit seen = false) :
    match exploreWithin limit next hb seen work with
    | .ok found => found = explore limit next hb seen work ∧ outgrown limit found = false
    | .error full => full.EndOf limit (explore limit next hb seen work) := by
  fun_induction exploreWithin limit next hb seen work with
  | case1 seen work hpop =>
      exact ⟨(explore_of_pop?_none hpop).symm, hroom⟩
  | case2 seen work x rest hpop full hfull =>
      have hend := meetWithin_spec rest (next x) hroom
      rw [hfull] at hend
      rw [explore_of_pop?_some hroom hpop]
      exact hend.mono prefix_explore
  | case3 seen work x rest hpop met hmet ih =>
      obtain ⟨heq, hmore⟩ : met = meet seen rest (next x) ∧ outgrown limit met.1 = false := by
        have hspec := meetWithin_spec rest (next x) hroom
        rwa [hmet] at hspec
      rw [explore_of_pop?_some hroom hpop, ← heq]
      exact ih hmore

theorem searchWithin_spec (ω : Type) [Worklist ω α] (limit : Option Nat) (hb : Bounded next)
    (seeds : List α) :
    match searchWithin ω limit next hb seeds with
    | .ok found => found = search ω limit next hb seeds ∧ outgrown limit found = false
    | .error full => full.EndOf limit (search ω limit next hb seeds) := by
  have hroom : outgrown limit (∅ : Numbering α) = false := by
    cases limit with
    | none => rfl
    | some bound => exact decide_eq_false (Nat.not_lt_zero bound)
  have hseeds := meetWithin_spec (Worklist.empty : ω) seeds hroom
  rw [searchWithin, search]
  cases hmet : meetWithin limit ∅ (Worklist.empty : ω) seeds with
  | error full =>
      rw [hmet] at hseeds
      exact hseeds.mono prefix_explore
  | ok met =>
      rw [hmet] at hseeds
      obtain ⟨rfl, hmore⟩ := hseeds
      exact exploreWithin_spec hmore

end Search

namespace Nfa

variable {σ : Type} [Alphabet σ] {n : Nfa σ} {limit : Option Nat}

/-- Subset construction that checks the limit for each set that it meets,
before it numbers the set and reports it. -/
def determinizeWithin (limit : Option Nat) (n : Nfa σ) : Logged (Except (Fault σ) (Dfa σ)) :=
  let symbols := n.vocabulary
  match Search.searchWithin (Queue StateSet) limit (n.successors symbols)
      (n.successors_bounded symbols) [n.initial] with
  | .error full => ⟨.error (.stateLimitExceeded full.limit), full.met.toList.mapIdx .subsetFound⟩
  | .ok found =>
    ⟨.ok (n.onSubsets found),
      found.toList.mapIdx .subsetFound ++ [.subsetsExhausted n.states found.size]⟩

/-- The report of a beginning is the beginning of the report. -/
theorem take_mapIdx_of_prefix {β : Type} {sets more : List StateSet} (f : Nat → StateSet → β)
    (h : sets <+: more) : (more.mapIdx f).take sets.length = sets.mapIdx f := by
  obtain ⟨rest, rfl⟩ := h
  rw [List.mapIdx_append]
  exact List.take_left' List.length_mapIdx

theorem determinizeWithin_eq (n : Nfa σ) (limit : Option Nat) :
    n.determinizeWithin limit = n.determinize limit := by
  have hspec := Search.searchWithin_spec (Queue StateSet) limit
    (n.successors_bounded n.vocabulary) [n.initial]
  unfold determinizeWithin
  dsimp only
  split
  · next full hfull =>
    rw [hfull] at hspec
    obtain ⟨rfl, hsize, hprefix, hlt⟩ := hspec
    rw [determinize_of_outgrown (decide_eq_true hlt), ← take_mapIdx_of_prefix _ hprefix,
      Numbering.length_toList, hsize]
    rfl
  · next found hfound =>
    rw [hfound] at hspec
    obtain ⟨rfl, hroom⟩ := hspec
    rw [determinize_of_not_outgrown hroom, Search.search_eq_of_not_outgrown hroom]
    rfl

/-- Of the events without a limit, those that tell of a set. -/
theorem filter_events_determinize_none (n : Nfa σ) :
    (n.determinize none).events.filter (·.message = "new dfa state") =
      (n.subsets none).toList.mapIdx .subsetFound := by
  have hfound : ∀ e ∈ (n.subsets none).toList.mapIdx Event.subsetFound,
      e.message = "new dfa state" := by
    intro e he
    obtain ⟨i, _, rfl⟩ := List.mem_mapIdx.mp he
    rfl
  rw [events_determinize_none, List.filter_append,
    List.filter_eq_self.mpr fun e he => decide_eq_true (hfound e he)]
  exact List.append_nil _

/-- The sets met under a limit are the first ones of all. -/
theorem subsets_prefix (n : Nfa σ) (limit : Option Nat) :
    (n.subsets limit).toList <+: (n.subsets none).toList :=
  Search.search_prefix [n.initial]

/-- A limit is outgrown if it is too small for the automaton without a limit. -/
theorem outgrown_subsets_iff (n : Nfa σ) (bound : Nat) :
    Search.outgrown (some bound) (n.subsets (some bound)) = true ↔ bound < n.toDfa.states := by
  rw [states_toDfa]
  constructor
  · intro hout
    have hmet : bound < (n.subsets (some bound)).size := of_decide_eq_true hout
    have hmore := (n.subsets_prefix (some bound)).length_le
    rw [Numbering.length_toList, Numbering.length_toList] at hmore
    exact Nat.lt_of_lt_of_le hmet hmore
  · intro hlt
    by_contra hout
    have hroom := Bool.eq_false_of_not_eq_true hout
    have hsubsets : n.subsets (some bound) = n.subsets none :=
      Search.search_eq_of_not_outgrown hroom
    rw [hsubsets] at hroom
    exact of_decide_eq_false hroom hlt

/-- **The limit is exact.** Subset construction under a limit is the one without
a limit if that makes no more states than the limit allows: it succeeds with the
same automaton and reports the same. Otherwise it fails and names the limit, and
it has reported as many sets as the limit allows, which are the first ones that
are reported without a limit, and nothing else. And it is the construction that
checks the limit for each set by itself. -/
theorem determinize_limit_exact (n : Nfa σ) (bound : Nat) :
    let found := (n.determinize none).events.filter (·.message = "new dfa state")
    (n.determinize none).value = .ok n.toDfa ∧ found.length = n.toDfa.states ∧
      n.determinize (some bound) =
        (if n.toDfa.states ≤ bound then n.determinize none
        else ⟨.error (.stateLimitExceeded bound), found.take bound⟩) ∧
      n.determinizeWithin (some bound) = n.determinize (some bound) := by
  refine ⟨n.determinize_none, ?_, ?_, n.determinizeWithin_eq (some bound)⟩
  · rw [filter_events_determinize_none, List.length_mapIdx, states_toDfa, Numbering.length_toList]
  split
  · next hle =>
    exact determinize_of_not_outgrown
      (Bool.eq_false_iff.mpr fun h => Nat.not_lt_of_le hle ((outgrown_subsets_iff n bound).mp h))
  · next hlt =>
    have hout := (outgrown_subsets_iff n bound).mpr (Nat.lt_of_not_le hlt)
    have hmet : bound ≤ (n.subsets (some bound)).size := Nat.le_of_lt (of_decide_eq_true hout)
    rw [determinize_of_outgrown hout, filter_events_determinize_none,
      ← take_mapIdx_of_prefix _ (n.subsets_prefix (some bound)), List.take_take,
      Numbering.length_toList, Nat.min_eq_left hmet]

end Nfa

end FiniteState
