import FiniteState.Proofs.Words
import FiniteState.Search.Reach
import FiniteState.Sorted.Set
import Mathlib.Data.List.Induction
import Mathlib.Data.List.Nodup

/-!
# Breadth-first search by words

In a search that follows a deterministic step on symbols, every word
leads to at most one thing (`walk`). If the search takes what is pending
in the order of meeting it, and tries the symbols in their order, it
meets things in the order of the least words that lead to them
(`search_leastWords`).

In the course of the search each thing is paired with the word on which
it was met (`Frontier`). Three facts carry the induction. What is met is
in the order of its words; whatever follows from a finished thing was met
on a word that is no later than the obvious one; and a word that was met
is by at most a symbol longer than that of a finished thing, so that the
words found next come after all others.
-/

namespace FiniteState

open Std

variable {σ α : Type}

namespace Search

/-! ## Walks -/

/-- Where a word leads. -/
def walk (step : α → σ → Option α) (x : α) (w : List σ) : Option α := w.foldlM step x

theorem walk_concat (step : α → σ → Option α) (x : α) (w : List σ) (a : σ) :
    walk step x (w ++ [a]) = (walk step x w).bind fun y => step y a := by
  rw [walk, List.foldlM_append]
  refine congrArg _ (funext fun y => ?_)
  simp

variable [Ord α] [TransOrd α] [LawfulEqOrd α]

/-- Meeting things appends them to a queue. -/
theorem toList_meet_queue (seen : Numbering α) (work : Queue α) (l : List α) :
    (meet seen work l).2.toList = work.toList ++ fresh seen l := by
  fun_induction meet seen work l with
  | case1 => rw [fresh, List.append_nil]
  | case2 _ _ _ _ h ih => rw [ih, fresh, if_pos h]
  | case3 _ work y _ h ih =>
      rw [ih, fresh, if_neg h]
      show (work.push y).toList ++ _ = _
      rw [Queue.toList_push, List.append_assoc]
      rfl

/-! ## What one thing adds -/

/-- What is met when the symbols of a list are tried in turn, with the
first symbol that leads to it. -/
def discover (next : σ → Option α) (seen : Numbering α) : List σ → List (α × σ)
  | [] => []
  | a :: l =>
    match next a with
    | none => discover next seen l
    | some y => if y ∈ seen then discover next seen l else (y, a) :: discover next (seen.add y) l

variable {next : σ → Option α} {seen : Numbering α} {l : List σ}

theorem map_fst_discover (next : σ → Option α) (seen : Numbering α) (l : List σ) :
    (discover next seen l).map Prod.fst = fresh seen (l.filterMap next) := by
  fun_induction discover next seen l with
  | case1 => rfl
  | case2 _ _ _ hnone ih => rw [ih, List.filterMap_cons_none hnone]
  | case3 _ _ _ _ hsome hy ih => rw [ih, List.filterMap_cons_some hsome, fresh, if_pos hy]
  | case4 _ _ _ _ hsome hy ih =>
      rw [List.map_cons, ih, List.filterMap_cons_some hsome, fresh, if_neg hy]

theorem map_snd_discover (next : σ → Option α) (seen : Numbering α) (l : List σ) :
    ((discover next seen l).map Prod.snd).Sublist l := by
  fun_induction discover next seen l with
  | case1 => exact .slnil
  | case2 _ _ _ _ ih => exact ih.cons _
  | case3 _ _ _ _ _ _ ih => exact ih.cons _
  | case4 _ _ _ _ _ _ ih => exact ih.cons_cons _

theorem next_of_mem_discover {e : α × σ} (h : e ∈ discover next seen l) :
    next e.2 = some e.1 := by
  fun_induction discover next seen l with
  | case1 => cases h
  | case2 _ _ _ _ ih => exact ih h
  | case3 _ _ _ _ _ _ ih => exact ih h
  | case4 _ _ _ _ hsome _ ih =>
      rcases List.mem_cons.mp h with rfl | h
      · exact hsome
      · exact ih h

/-- Where a symbol leads was met before, or is met on no later symbol. -/
theorem exists_mem_discover [Ord σ] (hl : l.Pairwise fun a b => compare a b = .lt) {a : σ}
    (ha : a ∈ l) {y : α} (hy : next a = some y) :
    y ∈ seen ∨ ∃ b, (y, b) ∈ discover next seen l ∧ (b = a ∨ compare b a = .lt) := by
  fun_induction discover next seen l with
  | case1 => cases ha
  | case2 seen b l hnone ih =>
      obtain ⟨_, hl⟩ := List.pairwise_cons.mp hl
      rcases List.mem_cons.mp ha with rfl | ha
      · rw [hnone] at hy
        cases hy
      · exact ih hl ha
  | case3 seen b l z hsome hz ih =>
      obtain ⟨_, hl⟩ := List.pairwise_cons.mp hl
      rcases List.mem_cons.mp ha with rfl | ha
      · obtain rfl := Option.some.inj (hsome.symm.trans hy)
        exact .inl hz
      · exact ih hl ha
  | case4 seen b l z hsome hz ih =>
      obtain ⟨hb, hl⟩ := List.pairwise_cons.mp hl
      rcases List.mem_cons.mp ha with rfl | ha
      · obtain rfl := Option.some.inj (hsome.symm.trans hy)
        exact .inr ⟨a, List.mem_cons_self, .inl rfl⟩
      · rcases ih hl ha with hseen | ⟨c, hc, hca⟩
        · rcases Numbering.mem_add.mp hseen with hseen | rfl
          · exact .inl hseen
          · exact .inr ⟨b, List.mem_cons_self, .inr (hb a ha)⟩
        · exact .inr ⟨c, List.mem_cons_of_mem _ hc, hca⟩

end Search

variable [Alphabet σ]

namespace Search

variable {step : α → σ → Option α} {x : α}

/-! ## What is met, by words -/

/-- What a breadth-first search has finished and what is pending, each
thing with the word on which it was met. -/
structure Frontier (step : α → σ → Option α) (x : α) (done todo : List (α × List σ)) : Prop where
  seed : (x, []) ∈ done ++ todo
  walk_eq : ∀ e ∈ done ++ todo, walk step x e.2 = some e.1
  ascending : (done ++ todo).Pairwise fun e f => Precedes e.2 f.2
  closed : ∀ e ∈ done, ∀ a y, step e.1 a = some y →
    ∃ v, (y, v) ∈ done ++ todo ∧ PrecedesOrEq v (e.2 ++ [a])
  near : ∀ e ∈ done ++ todo, e.2 = [] ∨ ∃ f ∈ done, ∃ a, e.2 = f.2 ++ [a]

namespace Frontier

variable {done todo : List (α × List σ)} {y : α} {v : List σ}

/-- Before anything is finished, the seed is pending. -/
theorem init (step : α → σ → Option α) (x : α) : Frontier step x [] [(x, [])] where
  seed := List.mem_singleton.mpr rfl
  walk_eq e he := by
    obtain rfl := List.mem_singleton.mp he
    rfl
  ascending := List.pairwise_singleton _ _
  closed e he := absurd he List.not_mem_nil
  near e he := by
    obtain rfl := List.mem_singleton.mp he
    exact .inl rfl

/-- The words found next come after those of everything that was met. -/
theorem concat_precedes (h : Frontier step x done ((y, v) :: todo)) {e : α × List σ}
    (he : e ∈ done ++ (y, v) :: todo) (a : σ) : Precedes e.2 (v ++ [a]) := by
  rcases h.near e he with hnil | ⟨f, hf, b, hb⟩
  · rw [hnil]
    exact .of_length_lt (by simp)
  · have hfv := (List.pairwise_append.mp h.ascending).2.2 f hf (y, v) List.mem_cons_self
    rw [hb]
    exact hfv.concat b a

/-- When nothing is pending, every word has led to something that was met
on no later word. -/
theorem exists_le (h : Frontier step x done []) {w : List σ} {z : α}
    (hw : walk step x w = some z) : ∃ u, (z, u) ∈ done ∧ PrecedesOrEq u w := by
  induction w using List.reverseRecOn generalizing z with
  | nil =>
      obtain rfl := Option.some.inj hw
      have hseed := h.seed
      rw [List.append_nil] at hseed
      exact ⟨[], hseed, .inl rfl⟩
  | append_singleton w a ih =>
      rw [walk_concat] at hw
      obtain ⟨y, hy, hz⟩ := Option.bind_eq_some_iff.mp hw
      obtain ⟨u, hu, huw⟩ := ih hy
      obtain ⟨u', hu', hle⟩ := h.closed _ hu a z hz
      rw [List.append_nil] at hu'
      exact ⟨u', hu', hle.trans (huw.concat a)⟩

/-- The words on which things were met are the least ones in the end. -/
theorem leastWords (h : Frontier step x done []) (hnodup : (done.map Prod.fst).Nodup) :
    LeastWords (walk step x) (done.map Prod.snd) := by
  have hwalk : ∀ e ∈ done, walk step x e.2 = some e.1 := fun e he =>
    h.walk_eq e (List.mem_append_left _ he)
  constructor
  · have := h.ascending
    rw [List.append_nil] at this
    exact List.pairwise_map.mpr this
  · intro v hv
    obtain ⟨e, he, rfl⟩ := List.mem_map.mp hv
    refine ⟨by rw [hwalk e he]; rfl, fun w hw => ?_⟩
    rw [hwalk e he] at hw
    obtain ⟨u, hu, hle⟩ := h.exists_le hw
    -- nothing was met twice, so the earlier word is the one of `e`
    have hue := List.inj_on_of_nodup_map hnodup hu he rfl
    rwa [← hue]
  · intro w hw
    obtain ⟨z, hz⟩ := Option.isSome_iff_exists.mp hw
    obtain ⟨u, hu, _⟩ := h.exists_le hz
    exact ⟨u, List.mem_map.mpr ⟨_, hu, rfl⟩, (hwalk _ hu).trans hz.symm⟩

end Frontier

/-! ## The search -/

variable [Ord α] [TransOrd α] [LawfulEqOrd α] {seen : Numbering α} {y : α} {v : List σ}
  {done todo : List (α × List σ)} {symbols : SortedSet σ}

/-- What a thing leads to and was not met before, on its word with one more
symbol. -/
def continuations (step : α → σ → Option α) (seen : Numbering α) (symbols : SortedSet σ) (y : α)
    (v : List σ) : List (α × List σ) :=
  (discover (step y) seen symbols.toList).map fun e => (e.1, v ++ [e.2])

theorem map_fst_continuations (step : α → σ → Option α) (seen : Numbering α)
    (symbols : SortedSet σ) (y : α) (v : List σ) :
    (continuations step seen symbols y v).map Prod.fst =
      fresh seen (symbols.toList.filterMap (step y)) := by
  rw [← map_fst_discover, continuations, List.map_map]
  rfl

theorem of_mem_continuations {e : α × List σ} (h : e ∈ continuations step seen symbols y v) :
    ∃ a, step y a = some e.1 ∧ e.2 = v ++ [a] := by
  obtain ⟨⟨z, a⟩, hz, rfl⟩ := List.mem_map.mp h
  exact ⟨a, next_of_mem_discover hz, rfl⟩

theorem ascending_continuations :
    (continuations step seen symbols y v).Pairwise fun e f => Precedes e.2 f.2 := by
  refine List.pairwise_map.mpr ?_
  have hsorted := symbols.sorted.sublist (map_snd_discover (step y) seen symbols.toList)
  exact (List.pairwise_map.mp hsorted).imp fun hab => precedes_concat hab v

theorem exists_mem_continuations {a : σ} {z : α} (ha : a ∈ symbols) (hz : step y a = some z) :
    z ∈ seen ∨ ∃ u, (z, u) ∈ continuations step seen symbols y v ∧
      PrecedesOrEq u (v ++ [a]) := by
  rcases exists_mem_discover symbols.sorted ha hz with hmet | ⟨b, hb, hba⟩
  · exact .inl hmet
  · refine .inr ⟨v ++ [b], List.mem_map.mpr ⟨(z, b), hb, rfl⟩, ?_⟩
    rcases hba with rfl | hba
    · exact .inl rfl
    · exact .inr (precedes_concat hba v)

/-- One thing is finished: its continuations become pending. -/
theorem Frontier.finish (h : Frontier step x done ((y, v) :: todo))
    (hsymbols : ∀ a, (step y a).isSome = true → a ∈ symbols)
    (hseen : ∀ z, z ∈ seen → ∃ u, (z, u) ∈ done ++ (y, v) :: todo) :
    Frontier step x (done ++ [(y, v)]) (todo ++ continuations step seen symbols y v) := by
  have hsplit : (done ++ [(y, v)]) ++ (todo ++ continuations step seen symbols y v) =
      (done ++ (y, v) :: todo) ++ continuations step seen symbols y v := by simp
  have hlast : (y, v) ∈ done ++ (y, v) :: todo := List.mem_append_right _ List.mem_cons_self
  constructor <;> rw [hsplit]
  · exact List.mem_append_left _ h.seed
  · intro e he
    rcases List.mem_append.mp he with he | he
    · exact h.walk_eq e he
    · obtain ⟨a, ha, hv⟩ := of_mem_continuations he
      rw [hv, walk_concat, h.walk_eq _ hlast]
      exact ha
  · refine List.pairwise_append.mpr ⟨h.ascending, ascending_continuations, fun e he f hf => ?_⟩
    obtain ⟨a, _, hv⟩ := of_mem_continuations hf
    rw [hv]
    exact h.concat_precedes he a
  · intro e he a z hz
    rcases List.mem_append.mp he with he | he
    · obtain ⟨u, hu, hle⟩ := h.closed e he a z hz
      exact ⟨u, List.mem_append_left _ hu, hle⟩
    · obtain rfl := List.mem_singleton.mp he
      rcases exists_mem_continuations (hsymbols a (by rw [hz]; rfl)) hz with hmet | ⟨u, hu, hle⟩
      · obtain ⟨u, hu⟩ := hseen z hmet
        exact ⟨u, List.mem_append_left _ hu, .inr (h.concat_precedes hu a)⟩
      · exact ⟨u, List.mem_append_right _ hu, hle⟩
  · intro e he
    rcases List.mem_append.mp he with he | he
    · refine (h.near e he).imp_right ?_
      rintro ⟨f, hf, a, hfa⟩
      exact ⟨f, List.mem_append_left _ hf, a, hfa⟩
    · obtain ⟨a, _, hv⟩ := of_mem_continuations he
      exact .inr ⟨(y, v), List.mem_append_right _ (List.mem_singleton.mpr rfl), a, hv⟩

variable {next : α → List α} {hb : Bounded next} {work : Queue α}

theorem explore_leastWords (hnext : ∀ y, next y = symbols.toList.filterMap (step y))
    (hsymbols : ∀ y a, (step y a).isSome = true → a ∈ symbols) (h : Frontier step x done todo)
    (hseen : seen.toList = (done ++ todo).map Prod.fst) (hwork : work.toList = todo.map Prod.fst) :
    ∃ words, LeastWords (walk step x) words ∧
      words.map (walk step x) = (explore none next hb seen work).toList.map some := by
  fun_induction explore none next hb seen work generalizing done todo with
  | case1 seen work hout => cases hout
  | case2 seen work _ hpop =>
      have hnil : todo = [] := by
        have := Worklist.pending_of_pop?_none hpop
        exact List.map_eq_nil_iff.mp (hwork.symm.trans this)
      subst hnil
      rw [List.append_nil] at hseen
      refine ⟨done.map Prod.snd, h.leastWords (hseen ▸ seen.nodup_toList), ?_⟩
      rw [hseen, List.map_map, List.map_map]
      exact List.map_congr_left fun e he => h.walk_eq e (List.mem_append_left _ he)
  | case3 seen work _ y rest hpop met =>
      rename_i ih
      rw [Queue.toList_of_pop?_some hpop] at hwork
      cases todo with
      | nil => cases hwork
      | cons e todo =>
          obtain ⟨z, v⟩ := e
          obtain ⟨rfl, hrest⟩ := List.cons.inj hwork
          have hmet : ∀ z, z ∈ seen → ∃ u, (z, u) ∈ done ++ (y, v) :: todo := by
            intro z hz
            rw [← Numbering.mem_toList, hseen] at hz
            obtain ⟨⟨z, u⟩, hu, rfl⟩ := List.mem_map.mp hz
            exact ⟨u, hu⟩
          refine ih (h.finish (hsymbols y) hmet) ?_ ?_
          · rw [toList_meet, hseen, hnext, ← map_fst_continuations step seen symbols y v]
            simp
          · rw [toList_meet_queue, hrest, hnext, ← map_fst_continuations step seen symbols y v,
              List.map_append]

/-- A breadth-first search meets things in the order of the least words
that lead to them. -/
theorem search_leastWords (hnext : ∀ y, next y = symbols.toList.filterMap (step y))
    (hsymbols : ∀ y a, (step y a).isSome = true → a ∈ symbols) (hb : Bounded next) (x : α) :
    ∃ words, LeastWords (walk step x) words ∧
      words.map (walk step x) = (search (Queue α) none next hb [x]).toList.map some := by
  refine explore_leastWords hnext hsymbols (Frontier.init step x) ?_ ?_
  · rw [toList_meet]
    rfl
  · rw [toList_meet_queue]
    rfl

end Search

end FiniteState
