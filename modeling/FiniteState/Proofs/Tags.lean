import FiniteState.Proofs.Passes

/-!
# Tags on accepting states

Accepting states are told apart by those who attach something to them:
which token a word is, which of several patterns it matches. A tag hangs
on the number of an accepting state, and minimization gives new numbers.
If accepting states are kept apart this does no harm. An accepting state
is then alone in its class (`eq_of_classOf_eq`), and as classes are
numbered in the order of first use, larger accepting states get larger
numbers, however many other states are joined between them
(`classOf_lt_classOf`). So the accepting states of the minimized automaton,
in their order, are the classes of the original ones in theirs
(`toList_finals_minimize`), and tags are carried over from one list to the
other.
-/

namespace FiniteState

namespace Dfa

variable {σ : Type} [Alphabet σ] {d : Dfa σ} {p q : State}

/-- The run on a word ends in the accepting state with a given place in the
order of all of them, counted from 0. -/
def AcceptsAt (d : Dfa σ) (i : Nat) (w : List σ) : Prop :=
  ∃ q, d.run w = some q ∧ d.finals.toList[i]? = some q

/-- The tag of the accepting state in which the run on a word ends. -/
def tagOf {τ : Type} (d : Dfa σ) (tag : State → τ) (w : List σ) : Option τ :=
  ((d.run w).filter (· ∈ d.finals)).map tag

/-! ## Accepting states stay alone and in order -/

theorem eq_of_classOf_eq (hd : d.WellFormed) (hp : p < d.states) (hq : q ∈ d.finals)
    (h : d.classOf true p = d.classOf true q) : p = q := by
  have halike := (classOf_eq_classOf_iff hd hp (hd.finals_lt q hq)).mp h
  have hblock := block_eq_block_iff.mp (Option.some.inj (halike []))
  exact hblock.2 rfl (hblock.1.mpr hq)

theorem classOf_lt_classOf (hd : d.WellFormed) (hp : p ∈ d.finals) (hq : q ∈ d.finals)
    (hpq : p < q) : d.classOf true p < d.classOf true q := by
  have hplt := hd.finals_lt p hp
  refine Nat.lt_of_not_le fun hle => ?_
  rcases Nat.eq_or_lt_of_le hle with heq | hlt
  · exact Nat.ne_of_lt hpq (eq_of_classOf_eq hd hplt hq heq.symm)
  · -- a smaller number would have been used before `p`, but only `q` has it
    obtain ⟨r, hr, hclass⟩ := firstUse_classOf hd true p hplt _ hlt
    obtain rfl := eq_of_classOf_eq hd (Nat.lt_trans hr hplt) hq hclass
    exact Nat.lt_asymm hr hpq

theorem toList_finals_minimize (hd : d.WellFormed) :
    (d.minimize true).value.finals.toList = d.finals.toList.map (d.classOf true) := by
  have hsorted : (d.finals.toList.map (d.classOf true)).Pairwise
      fun i j => compare i j = .lt := by
    refine List.pairwise_map.mpr (d.finals.sorted.imp_of_mem fun {p q} hp hq hpq => ?_)
    exact Nat.compare_eq_lt.mpr (classOf_lt_classOf hd hp hq (Nat.compare_eq_lt.mp hpq))
  have heq : (d.minimize true).value.finals = ⟨_, hsorted⟩ := by
    refine SortedSet.ext fun i => ?_
    rw [mem_finals_minimize hd]
    exact List.mem_map.symm
  rw [heq]

/-! ## What is carried over -/

theorem acceptsAt_minimize_iff (hd : d.WellFormed) (i : Nat) (w : List σ) :
    (d.minimize true).value.AcceptsAt i w ↔ d.AcceptsAt i w := by
  rw [AcceptsAt, AcceptsAt, run_minimize hd, toList_finals_minimize hd, List.getElem?_map]
  constructor
  · rintro ⟨_, hrun, hplace⟩
    obtain ⟨q, hq, rfl⟩ := Option.map_eq_some_iff.mp hrun
    obtain ⟨f, hf, hclass⟩ := Option.map_eq_some_iff.mp hplace
    obtain rfl := eq_of_classOf_eq hd (hd.run_lt hq) (List.mem_of_getElem? hf) hclass.symm
    exact ⟨q, hq, hf⟩
  · rintro ⟨q, hrun, hplace⟩
    rw [hrun, hplace]
    exact ⟨_, rfl, rfl⟩

theorem tagOf_minimize {τ : Type} {tag tag' : State → τ} (hd : d.WellFormed)
    (htags : (d.minimize true).value.finals.toList.map tag' = d.finals.toList.map tag)
    (w : List σ) : (d.minimize true).value.tagOf tag' w = d.tagOf tag w := by
  rw [toList_finals_minimize hd, List.map_map, List.map_inj_left] at htags
  rw [tagOf, tagOf, run_minimize hd]
  cases hrun : d.run w with
  | none => rfl
  | some q =>
      have hiff : d.classOf true q ∈ (d.minimize true).value.finals ↔ q ∈ d.finals :=
        classOf_mem_finals_iff hd (hd.run_lt hrun)
      by_cases hq : q ∈ d.finals
      · simp [Option.filter, hiff, hq, ← htags q hq]
      · simp [Option.filter, hiff, hq]

/-- Tags can be carried over, as no accepting states are joined. -/
theorem exists_tags_minimize {τ : Type} (hd : d.WellFormed) (tag : State → τ) :
    ∃ tag' : State → τ,
      (d.minimize true).value.finals.toList.map tag' = d.finals.toList.map tag := by
  refine ⟨fun i => tag ((d.firstStates true).getD i 0), ?_⟩
  rw [toList_finals_minimize hd, List.map_map]
  refine List.map_congr_left fun q hq => ?_
  obtain ⟨f, hf, hlt, hclass, _⟩ :=
    exists_firstState hd (classOf_lt hd true (hd.finals_lt q hq))
  rw [Function.comp_apply, List.getD_eq_getElem?_getD, hf, Option.getD_some,
    eq_of_classOf_eq hd hlt hq hclass]

/-- **Tags survive minimization.** If accepting states are kept apart, the
minimized automaton has as many of them. It accepts a word in the accepting
state with some place in their order exactly if the original automaton
does. So tags, attached to accepting states by their numbers, can be carried
over in this order, and are then the same for every word. -/
theorem minimize_keeps_tags (hd : d.WellFormed) :
    let m := (d.minimize true).value
    m.finals.size = d.finals.size ∧
      (∀ i w, d.AcceptsAt i w ↔ m.AcceptsAt i w) ∧
      ∀ (τ : Type) (tag : State → τ),
        (∃ tag' : State → τ, m.finals.toList.map tag' = d.finals.toList.map tag) ∧
          ∀ tag' : State → τ, m.finals.toList.map tag' = d.finals.toList.map tag →
            ∀ w, m.tagOf tag' w = d.tagOf tag w := by
  refine ⟨?_, fun i w => (acceptsAt_minimize_iff hd i w).symm, fun τ tag =>
    ⟨exists_tags_minimize hd tag, fun tag' htags w => tagOf_minimize hd htags w⟩⟩
  rw [SortedSet.size, toList_finals_minimize hd, List.length_map, SortedSet.size]

/-- Two kinds of words with an accepting state each, to one of which two
states lead that no word tells apart. -/
def lexer : Dfa Char where
  rows := #[⟨[('0', 4), ('a', 1), ('b', 3)], by decide⟩, .singleton 'a' 2, .singleton 'a' 2,
    .singleton 'a' 2, .singleton '0' 4]
  start := 0
  finals := ⟨[2, 4], by decide⟩

/-- Minimization numbers the accepting states 2 and 3 instead of 2 and 4, and
tags that follow them are found again. -/
theorem minimize_lexer_keeps_tags : lexer.WellFormed ∧
    (lexer.minimize true).value.finals.toList = [2, 3] ∧
      (lexer.minimize true).value.AcceptsAt 0 ['b', 'a'] ∧
      (lexer.minimize true).value.tagOf (fun q => if q = 2 then "name" else "number") ['0'] =
        some "number" := by
  have hd : lexer.WellFormed := by decide
  have hfinals : (lexer.minimize true).value.finals.toList = [2, 3] := by
    rw [toList_finals_minimize hd]
    decide +kernel
  obtain ⟨_, hplaces, htags⟩ := minimize_keeps_tags hd
  refine ⟨hd, hfinals, (hplaces 0 ['b', 'a']).mp ⟨2, by decide, by decide⟩, ?_⟩
  rw [(htags String fun q => if q = 2 then "name" else "number").2 _ (by rw [hfinals]; decide)]
  decide

end Dfa

end FiniteState
