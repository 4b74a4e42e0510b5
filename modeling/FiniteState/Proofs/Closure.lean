import FiniteState.Nfa.Basic
import Mathlib.Data.List.Perm.Subperm

/-!
# Closing sets of states

A closure is computed by a loop over pending states: whatever a popped state leads to by
an epsilon move is entered into the set, and what was not in it before becomes pending.
`Closes` is this loop as it goes turn after turn, with the set that it returns and the
number of its turns.

The set is at all times what the search for the closure has met, and the two worklists
are the same (`enter_meet`). So the loop ends because the search does (`exists_closes`),
for every worklist, and after as many turns as the closure has members: every member is
popped once. For that it does not matter what a worklist makes of things that are pushed
while they are pending, since no such thing is ever pushed (`Search.Tidy`). Which one is
popped is for the worklist to say, and the result does not depend on it, since it is the
least closed set that holds the seeds.

The rest is what closing under any relation is like: `subset_closureBy`,
`epsilonClosed_closureBy` and `closureBy_subset` say all there is to know, and the laws
of closures follow from these three.
-/

namespace FiniteState

open Std

/-! ## Worklists without repetition -/

namespace Worklist

variable {α ω : Type} [Worklist ω α] {w rest : ω} {x : α}

/-- As long as nothing is pending twice, pushing what is not pending adds just that. -/
theorem pending_push_perm (hw : (pending w).Nodup) (hx : x ∉ pending w) :
    (pending (push w x)).Perm (x :: pending w) := by
  have hsub : x :: pending w ⊆ pending (push w x) := fun y hy =>
    (mem_pending_push w x y).mpr (List.mem_cons.mp hy)
  have hsubperm := List.subperm_of_subset (List.nodup_cons.mpr ⟨hx, hw⟩) hsub
  exact (hsubperm.perm_of_length_le (length_pending_push_le w x)).symm

/-- Then popping takes away just what is popped. -/
theorem pending_pop_perm (hw : (pending w).Nodup) (h : pop? w = some (x, rest)) :
    (pending w).Perm (x :: pending rest) := by
  have hsub : pending w ⊆ x :: pending rest := fun y hy =>
    List.mem_cons.mpr ((mem_pending_of_pop?_some h y).mp hy)
  exact (List.subperm_of_subset hw hsub).perm_of_length_le (length_pending_of_pop?_some h)

end Worklist

variable {α : Type} [Ord α] [TransOrd α] [LawfulEqOrd α]

omit [TransOrd α] in
/-- A set has as many members as a list of them without repetition. -/
theorem SortedSet.size_eq_length {s : SortedSet α} {l : List α} (hl : l.Nodup)
    (h : ∀ a, a ∈ s ↔ a ∈ l) : s.size = l.length :=
  ((List.perm_ext_iff_of_nodup s.nodup hl).mpr h).length_eq

/-- In a search what is pending was met, and it is pending once. -/
structure Search.Tidy {ω : Type} [Worklist ω α] (seen : Numbering α) (work : ω) : Prop where
  nodup : (Worklist.pending work).Nodup
  met : ∀ x ∈ Worklist.pending work, x ∈ seen

namespace Search.Tidy

variable {ω : Type} [Worklist ω α] {seen : Numbering α} {work rest : ω} {x : α}

omit [TransOrd α] [LawfulEqOrd α] in
theorem empty (seen : Numbering α) : Tidy seen (Worklist.empty : ω) := by
  have hempty : Worklist.pending (Worklist.empty : ω) = [] := Worklist.pending_empty
  exact ⟨hempty ▸ List.nodup_nil, fun x hx => absurd (hempty ▸ hx) List.not_mem_nil⟩

theorem push (h : Tidy seen work) (hx : ¬ x ∈ seen) :
    Tidy (seen.add x) (Worklist.push work x) ∧
      (Worklist.pending (Worklist.push work x)).length = (Worklist.pending work).length + 1 := by
  have hnew : x ∉ Worklist.pending work := fun hmem => hx (h.met x hmem)
  have hperm := Worklist.pending_push_perm h.nodup hnew
  refine ⟨⟨hperm.nodup_iff.mpr (List.nodup_cons.mpr ⟨hnew, h.nodup⟩), fun y hy => ?_⟩,
    hperm.length_eq⟩
  rcases (Worklist.mem_pending_push work x y).mp hy with rfl | hy
  · exact Numbering.mem_add.mpr (.inr rfl)
  · exact Numbering.mem_add.mpr (.inl (h.met y hy))

omit [TransOrd α] [LawfulEqOrd α] in
theorem pop (h : Tidy seen work) (hpop : Worklist.pop? work = some (x, rest)) :
    Tidy seen rest ∧
      (Worklist.pending work).length = (Worklist.pending rest).length + 1 := by
  have hperm := Worklist.pending_pop_perm h.nodup hpop
  refine ⟨⟨(List.nodup_cons.mp (hperm.nodup_iff.mp h.nodup)).2, fun y hy => ?_⟩,
    hperm.length_eq⟩
  exact h.met y ((Worklist.mem_pending_of_pop?_some hpop y).mpr (.inr hy))

/-- As much becomes pending as is met. -/
theorem meet (h : Tidy seen work) (l : List α) :
    Tidy (Search.meet seen work l).1 (Search.meet seen work l).2 ∧
      (Worklist.pending (Search.meet seen work l).2).length + seen.size =
        (Worklist.pending work).length + (Search.meet seen work l).1.size := by
  fun_induction Search.meet seen work l with
  | case1 => exact ⟨h, rfl⟩
  | case2 _ _ _ _ _ ih => exact ih h
  | case3 seen work y l hy ih =>
      obtain ⟨hpushed, hlength⟩ := h.push hy
      obtain ⟨htidy, hcount⟩ := ih hpushed
      have hadd := congrArg List.length (seen.toList_add y)
      rw [if_neg hy, List.length_append, List.length_singleton, Numbering.length_toList,
        Numbering.length_toList] at hadd
      exact ⟨htidy, by omega⟩

end Search.Tidy

/-- Meeting different things for the first time pushes them all. -/
theorem Search.meet_of_nodup {ω : Type} [Worklist ω α] {seen : Numbering α} (work : ω)
    {l : List α} (hl : l.Nodup) (hseen : ∀ a ∈ l, ¬ a ∈ seen) :
    (meet seen work l).2 = Worklist.pushAll work l := by
  fun_induction meet seen work l with
  | case1 => rfl
  | case2 _ _ y _ hy => exact absurd hy (hseen y List.mem_cons_self)
  | case3 seen work y l hy ih =>
      obtain ⟨hnot, hl⟩ := List.nodup_cons.mp hl
      have hrest : ∀ a ∈ l, ¬ a ∈ seen.add y := by
        intro a ha hadd
        rcases Numbering.mem_add.mp hadd with hold | rfl
        · exact hseen a (List.mem_cons_of_mem y ha) hold
        · exact hnot ha
      exact ih hl hrest

namespace Machine

variable {M σ ω : Type} [Alphabet σ] [Machine M σ] [Worklist ω State] {m : M}
  {s t set : StateSet} {work : ω} {p q : State}

/-! ## The loop -/

/-- Enters states into a set one after the other; those that were not in it become
pending. -/
def enter (set : StateSet) (work : ω) : List State → StateSet × ω
  | [] => (set, work)
  | p :: l => if p ∈ set then enter set work l else enter (set.insert p) (Worklist.push work p) l

/-- From a set and what of it is pending, the loop stops after some turns and returns
the last set. -/
inductive Closes (m : M) : StateSet → ω → Nat → StateSet → Prop where
  | done {set : StateSet} {work : ω} : Worklist.pop? work = none → Closes m set work 0 set
  | turn {set closed : StateSet} {work rest : ω} {q : State} {turns : Nat} :
      Worklist.pop? work = some (q, rest) →
      Closes m (enter set rest (epsilonTargets m q).toList).1
        (enter set rest (epsilonTargets m q).toList).2 turns closed →
      Closes m set work (turns + 1) closed

/-- The loop has one result. -/
theorem Closes.unique {turns turns' : Nat} (h : Closes m set work turns s)
    (h' : Closes m set work turns' t) : turns = turns' ∧ s = t := by
  induction h generalizing turns' with
  | done hnone =>
      cases h' with
      | done => exact ⟨rfl, rfl⟩
      | turn hsome =>
          rw [hnone] at hsome
          cases hsome
  | turn hpop _ ih =>
      cases h' with
      | done hnone =>
          rw [hnone] at hpop
          cases hpop
      | turn hpop' h' =>
          rw [hpop] at hpop'
          cases hpop'
          obtain ⟨rfl, rfl⟩ := ih h'
          exact ⟨rfl, rfl⟩

/-! ## The loop and the search -/

/-- Entering is meeting: the set goes on holding what was met, and the same becomes
pending. -/
theorem enter_meet {seen : Numbering State} (hset : ∀ p, p ∈ set ↔ p ∈ seen) (work : ω)
    (l : List State) : (∀ p, p ∈ (enter set work l).1 ↔ p ∈ (Search.meet seen work l).1) ∧
      (enter set work l).2 = (Search.meet seen work l).2 := by
  induction l generalizing set seen work with
  | nil => exact ⟨hset, rfl⟩
  | cons y l ih =>
      by_cases hy : y ∈ seen
      · rw [enter, if_pos ((hset y).mpr hy), Search.meet, if_pos hy]
        exact ih hset work
      · rw [enter, if_neg (mt (hset y).mp hy), Search.meet, if_neg hy]
        have hadd : ∀ p, p ∈ set.insert y ↔ p ∈ seen.add y := fun p => by
          rw [SortedSet.mem_insert, Numbering.mem_add, hset, or_comm]
        exact ih hadd _

/-- The loop stops where the search stops. Every turn takes away what was pending first,
and adds what the search meets. -/
theorem exists_closes (h : Search.Bounded fun q => (epsilonTargets m q).toList)
    (seen : Numbering State) (work : ω) : Search.Tidy seen work →
      ∀ set : StateSet, (∀ p, p ∈ set ↔ p ∈ seen) →
      ∃ turns closed, Closes m set work turns closed ∧
        (∀ p, p ∈ closed ↔
          p ∈ Search.explore none (fun q => (epsilonTargets m q).toList) h seen work) ∧
        turns + seen.size = (Worklist.pending work).length +
          (Search.explore none (fun q => (epsilonTargets m q).toList) h seen work).size := by
  fun_induction Search.explore none (fun q => (epsilonTargets m q).toList) h seen work with
  | case1 _ _ hout => simp [Search.outgrown] at hout
  | case2 seen work _ hpop =>
      intro _ set hset
      refine ⟨0, set, .done hpop, hset, ?_⟩
      rw [Worklist.pending_of_pop?_none hpop, List.length_nil]
  | case3 seen work _ q rest hpop met ih =>
      intro htidy set hset
      obtain ⟨htidy, hpopped⟩ := htidy.pop hpop
      obtain ⟨htidy, hpushed⟩ : Search.Tidy met.1 met.2 ∧ (Worklist.pending met.2).length +
          seen.size = (Worklist.pending rest).length + met.1.size := htidy.meet _
      obtain ⟨hmem, hwork⟩ := enter_meet hset rest (epsilonTargets m q).toList
      obtain ⟨turns, closed, hrun, hclosed, hcount⟩ := ih htidy _ hmem
      rw [← hwork] at hrun
      exact ⟨turns + 1, closed, .turn hpop hrun, hclosed, by omega⟩

/-- The loop that starts with all seeds pending returns the closure, and has one turn
for each of its members. -/
theorem closes_closureBy (ω : Type) [Worklist ω State] (m : M) (s : StateSet) :
    Closes m s (Worklist.pushAll (Worklist.empty : ω) s.toList) (closureBy ω m s).size
      (closureBy ω m s) := by
  have hfresh : ∀ p ∈ s.toList, ¬ p ∈ (∅ : Numbering State) := fun _ _ => Numbering.not_mem_empty
  have hwork := Search.meet_of_nodup (Worklist.empty : ω) s.nodup hfresh
  have hset : ∀ p, p ∈ s ↔ p ∈ (Search.meet ∅ (Worklist.empty : ω) s.toList).1 := by
    simp [Search.mem_meet]
  have hempty : Search.Tidy ∅ (Worklist.empty : ω) := .empty ∅
  obtain ⟨htidy, hpending⟩ := hempty.meet s.toList
  obtain ⟨turns, closed, hrun, hmem, hcount⟩ :=
    exists_closes (epsilonTargets_bounded m) _ _ htidy s hset
  have hclosed : closed = closureBy ω m s :=
    SortedSet.ext fun p => (hmem p).trans SortedSet.mem_ofList.symm
  have hlength := SortedSet.size_eq_length (Numbering.nodup_toList _) hmem
  have hturns : turns = closed.size := by
    have hnone : (∅ : Numbering State).size = 0 := rfl
    rw [Worklist.pending_empty, List.length_nil] at hpending
    rw [hlength, Numbering.length_toList]
    omega
  rw [hwork] at hrun
  rwa [hturns, hclosed] at hrun

/-! ## Least closed sets -/

/-- No epsilon move leaves the set. -/
def EpsilonClosed (m : M) (s : StateSet) : Prop :=
  ∀ q p, q ∈ s → p ∈ epsilonTargets m q → p ∈ s

theorem subset_closureBy (hp : p ∈ s) : p ∈ closureBy ω m s :=
  mem_closureBy.mpr ⟨p, hp, .refl⟩

theorem epsilonClosed_closureBy : EpsilonClosed m (closureBy ω m s) := by
  intro q p hq hp
  obtain ⟨x, hx, hreach⟩ := mem_closureBy.mp hq
  exact mem_closureBy.mpr ⟨x, hx, hreach.step hp⟩

theorem closureBy_subset (ht : EpsilonClosed m t) (hst : ∀ p, p ∈ s → p ∈ t)
    (hp : p ∈ closureBy ω m s) : p ∈ t := by
  obtain ⟨x, hx, hreach⟩ := mem_closureBy.mp hp
  induction hreach with
  | refl => exact hst x hx
  | step hxy hz ih => exact ht _ _ (ih (mem_closureBy.mpr ⟨x, hx, hxy⟩)) hz

theorem EpsilonClosed.closureBy_eq (ht : EpsilonClosed m t) : closureBy ω m t = t :=
  SortedSet.ext fun _ => ⟨closureBy_subset ht fun _ h => h, subset_closureBy⟩

theorem EpsilonClosed.union (hs : EpsilonClosed m s) (ht : EpsilonClosed m t) :
    EpsilonClosed m (s ∪ t) := by
  intro q p hq hp
  rcases SortedSet.mem_union.mp hq with hq | hq
  · exact SortedSet.mem_union.mpr (.inl (hs q p hq hp))
  · exact SortedSet.mem_union.mpr (.inr (ht q p hq hp))

theorem closureBy_mono (hst : ∀ p, p ∈ s → p ∈ t) (hp : p ∈ closureBy ω m s) :
    p ∈ closureBy ω m t :=
  closureBy_subset epsilonClosed_closureBy (fun q hq => subset_closureBy (hst q hq)) hp

theorem closureBy_union : closureBy ω m (s ∪ t) = closureBy ω m s ∪ closureBy ω m t := by
  refine SortedSet.ext fun p => ⟨?_, fun hp => ?_⟩
  · refine closureBy_subset (epsilonClosed_closureBy.union epsilonClosed_closureBy) fun q hq => ?_
    rcases SortedSet.mem_union.mp hq with hq | hq
    · exact SortedSet.mem_union.mpr (.inl (subset_closureBy hq))
    · exact SortedSet.mem_union.mpr (.inr (subset_closureBy hq))
  · rcases SortedSet.mem_union.mp hp with hp | hp
    · exact closureBy_mono (fun q hq => SortedSet.mem_union.mpr (.inl hq)) hp
    · exact closureBy_mono (fun q hq => SortedSet.mem_union.mpr (.inr hq)) hp

/-- **Closing.** For every machine, every set of seeds and every worklist, the loop
comes to an end, with one turn for each state of the set it returns, and it returns
exactly what the seeds reach by epsilon moves: the least set that holds them and is
closed. So the order of the worklist does not show in the result, closing a closure
again changes nothing, more seeds have more in their closure, and seeds may be closed
apart. -/
theorem closureBy_least (ω : Type) [Worklist ω State] (m : M) (s : StateSet) :
    (∀ turns closed, Closes m s (Worklist.pushAll (Worklist.empty : ω) s.toList) turns closed ↔
      turns = (closureBy ω m s).size ∧ closed = closureBy ω m s) ∧
    (∀ p, p ∈ closureBy ω m s ↔
      ∃ q, q ∈ s ∧ Search.Reaches (fun q => (epsilonTargets m q).toList) q p) ∧
    ((∀ p, p ∈ s → p ∈ closureBy ω m s) ∧ EpsilonClosed m (closureBy ω m s) ∧
      ∀ t, (∀ p, p ∈ s → p ∈ t) → EpsilonClosed m t → ∀ p, p ∈ closureBy ω m s → p ∈ t) ∧
    (∀ (ω' : Type) [Worklist ω' State], closureBy ω' m s = closureBy ω m s) ∧
    closureBy ω m (closureBy ω m s) = closureBy ω m s ∧
    (∀ t, (∀ p, p ∈ s → p ∈ t) → ∀ p, p ∈ closureBy ω m s → p ∈ closureBy ω m t) ∧
    ∀ t, closureBy ω m (s ∪ t) = closureBy ω m s ∪ closureBy ω m t := by
  refine ⟨fun turns closed => ⟨fun h => h.unique (closes_closureBy ω m s), ?_⟩,
    fun p => mem_closureBy, ⟨fun p => subset_closureBy, epsilonClosed_closureBy,
      fun t hst ht p => closureBy_subset ht hst⟩, fun ω' _ => ?_,
    epsilonClosed_closureBy.closureBy_eq, fun t hst p => closureBy_mono hst,
    fun t => closureBy_union⟩
  · rintro ⟨rfl, rfl⟩
    exact closes_closureBy ω m s
  · exact SortedSet.ext fun p => mem_closureBy.trans mem_closureBy.symm

/-- A cycle of three epsilon moves, and one more that leads into it. -/
def whirl : Nfa Char where
  nodes := #[{ epsilon := .singleton 1 }, { epsilon := .singleton 2 }, { epsilon := .singleton 0 },
    { epsilon := .singleton 1 }, {}]
  start := 3
  finals := .singleton 4

/-- One of the seeds is not a state of the automaton. The cycle is gone around once. -/
theorem closureBy_whirl :
    closureBy (Queue State) whirl ⟨[3, 9], by decide⟩ = ⟨[0, 1, 2, 3, 9], by decide⟩ ∧
      Closes whirl ⟨[3, 9], by decide⟩ (Worklist.pushAll (Worklist.empty : Stack State) [3, 9]) 5
        ⟨[0, 1, 2, 3, 9], by decide⟩ ∧
      0 ∈ closureBy (Queue State) whirl ⟨[3, 4, 9], by decide⟩ := by
  obtain ⟨_, _, ⟨hseeds, hclosed, hleast⟩, hsame, _, hmono, _⟩ :=
    closureBy_least (Queue State) whirl ⟨[3, 9], by decide⟩
  have hall : closureBy (Queue State) whirl ⟨[3, 9], by decide⟩ = ⟨[0, 1, 2, 3, 9], by decide⟩ := by
    have hsub : ∀ p ∈ [3, 9], p ∈ [0, 1, 2, 3, 9] := by decide
    have hleave : ∀ q ∈ [0, 1, 2, 3, 9], ∀ p ∈ (epsilonTargets whirl q).toList,
        p ∈ [0, 1, 2, 3, 9] := by decide
    refine SortedSet.ext fun p => ⟨hleast _ hsub (fun q p hq => hleave q hq p) p, fun hp => ?_⟩
    have h3 := hseeds 3 (by decide)
    have h1 := hclosed 3 1 h3 (by decide)
    have h2 := hclosed 1 2 h1 (by decide)
    have h0 := hclosed 2 0 h2 (by decide)
    have h9 := hseeds 9 (by decide)
    have hcases : p ∈ [0, 1, 2, 3, 9] := hp
    simp only [List.mem_cons, List.not_mem_nil, or_false] at hcases
    rcases hcases with rfl | rfl | rfl | rfl | rfl <;> assumption
  have hsub : ∀ p ∈ [3, 9], p ∈ [3, 4, 9] := by decide
  have h0 : 0 ∈ closureBy (Queue State) whirl ⟨[3, 9], by decide⟩ := by
    rw [hall]
    decide
  have hstack := (hsame (Stack State)).trans hall
  obtain ⟨hruns, _⟩ := closureBy_least (Stack State) whirl ⟨[3, 9], by decide⟩
  refine ⟨hall, (hruns 5 _).mpr ⟨?_, hstack.symm⟩, hmono _ hsub 0 h0⟩
  rw [hstack]
  rfl

/-- A set as worklist takes the smallest pending state first. -/
example : closureBy (SortedSet State) whirl ⟨[3, 9], by decide⟩ = ⟨[0, 1, 2, 3, 9], by decide⟩ := by
  cbv

end Machine

end FiniteState
