import FiniteState.Proofs.Dfa.SameRuns
import FiniteState.Proofs.Words

/-!
# Automata numbered by words

An automaton is ordered if its states are numbered in the order of the
least words that lead to them. Nothing about it is then left to choice:
which words have a run, which of these end in the same state, and which
are accepted determine the automaton (`eq_of_ordered`). For the least
words are known from the first two, and the places of these words are the
states (`SameRuns.run_eq`); the rest can be read off the runs.
-/

namespace FiniteState

namespace Dfa

variable {σ : Type} [Alphabet σ] {d e : Dfa σ} {words : List (List σ)} {p q : State}
  {v w : List σ}

/-- The words are the least ones to the states, in the order of the
states. -/
structure OrderedBy (d : Dfa σ) (words : List (List σ)) : Prop where
  leastWords : LeastWords d.run words
  map_run : words.map d.run = (List.range d.states).map some

/-- The states are numbered by the least words that lead to them. -/
def Ordered (d : Dfa σ) : Prop := ∃ words, d.OrderedBy words

/-! ## The words of the states -/

namespace OrderedBy

theorem run_eq (h : d.OrderedBy words) (hq : words[q]? = some v) : d.run v = some q := by
  have hmap := congrArg (·[q]?) h.map_run
  simp only [List.getElem?_map, hq, Option.map_some] at hmap
  cases hrange : (List.range d.states)[q]? with
  | none =>
      rw [hrange] at hmap
      cases hmap
  | some p =>
      obtain ⟨_, rfl⟩ := List.getElem?_eq_some_iff.mp hrange
      rw [hrange] at hmap
      simpa using hmap

theorem length_eq (h : d.OrderedBy words) : words.length = d.states := by
  simpa using congrArg List.length h.map_run

theorem getElem?_eq (h : d.OrderedBy words) (hq : q < d.states) :
    words[q]? = some (words.getD q []) := by
  rw [List.getD_eq_getElem?_getD, List.getElem?_eq_getElem (h.length_eq ▸ hq)]
  rfl

/-- A state has the least of the words that lead to it. -/
theorem le_of_run_eq (h : d.OrderedBy words) (hq : words[q]? = some v) (hw : d.run w = some q) :
    PrecedesOrEq v w :=
  (h.leastWords.least v (List.mem_of_getElem? hq)).2 w (hw.trans (h.run_eq hq).symm)

theorem precedes_of_lt (h : d.OrderedBy words) (hp : words[p]? = some v)
    (hq : words[q]? = some w) (hpq : p < q) : Precedes v w := by
  obtain ⟨hplt, rfl⟩ := List.getElem?_eq_some_iff.mp hp
  obtain ⟨hqlt, rfl⟩ := List.getElem?_eq_some_iff.mp hq
  exact List.pairwise_iff_getElem.mp h.leastWords.ascending p q hplt hqlt hpq

theorem le_of_le (h : d.OrderedBy words) (hp : words[p]? = some v) (hq : words[q]? = some w)
    (hpq : p ≤ q) : PrecedesOrEq v w := by
  rcases Nat.eq_or_lt_of_le hpq with rfl | hlt
  · exact .inl (Option.some.inj (hp.symm.trans hq))
  · exact .inr (h.precedes_of_lt hp hq hlt)

end OrderedBy

theorem Ordered.reachable (h : d.Ordered) : d.Reachable := by
  obtain ⟨_, hwords⟩ := h
  exact fun q hq => ⟨_, hwords.run_eq (hwords.getElem?_eq hq)⟩

/-! ## What determines an automaton -/

/-- An automaton is known from its moves, its start and its accepting
states. -/
theorem eq_of_step_eq (hstates : d.states = e.states) (hstart : d.start = e.start)
    (hstep : ∀ q a, d.step q a = e.step q a) (hfinals : ∀ q, q ∈ d.finals ↔ q ∈ e.finals) :
    d = e := by
  have hrows : d.rows = e.rows := by
    refine Array.ext hstates fun q hq hq' => SortedMap.ext fun a => ?_
    have := hstep q a
    rw [step, step, row, row, Array.getD_eq_getD_getElem?, Array.getD_eq_getD_getElem?,
      Array.getElem?_eq_getElem hq, Array.getElem?_eq_getElem hq'] at this
    exact this
  obtain ⟨rows, start, finals⟩ := d
  obtain ⟨rows', start', finals'⟩ := e
  obtain rfl := hrows
  obtain rfl := hstart
  obtain rfl : finals = finals' := SortedSet.ext hfinals
  rfl

theorem step_eq_none (hq : ¬ q < d.states) (a : σ) : d.step q a = none :=
  Option.eq_none_iff_forall_not_mem.mpr fun _ h => hq (lt_of_step h)

/-- An automaton is known from its runs, if one ends in each of its states,
and from the words it accepts. -/
theorem eq_of_run_eq (hd : d.WellFormed) (he : e.WellFormed) (hstates : d.states = e.states)
    (hreach : d.Reachable) (hrun : ∀ w, d.run w = e.run w)
    (haccepts : ∀ w, d.accepts w = e.accepts w) : d = e := by
  refine eq_of_step_eq hstates (Option.some.inj (hrun [])) (fun q a => ?_) fun q => ?_
  · by_cases hq : q < d.states
    · obtain ⟨w, hw⟩ := hreach q hq
      have hconcat := hrun (w ++ [a])
      rw [run_concat, run_concat, ← hrun w, hw] at hconcat
      exact hconcat
    · rw [step_eq_none hq, step_eq_none (hstates ▸ hq)]
  · by_cases hq : q < d.states
    · obtain ⟨w, hw⟩ := hreach q hq
      have hboth := haccepts w
      rw [accepts, accepts, ← hrun w, hw] at hboth
      simpa using hboth
    · exact iff_of_false (mt (hd.finals_lt q) hq) (mt (he.finals_lt q) (hstates ▸ hq))

/-- Ordered automata with the same runs are in the same state after each
word. -/
theorem SameRuns.run_eq (h : SameRuns d e) (hd : d.OrderedBy words) (he : e.OrderedBy words)
    (w : List σ) : d.run w = e.run w := by
  cases hw : d.run w with
  | none =>
      have := h.isSome_run w
      rw [hw] at this
      exact (Option.isNone_iff_eq_none.mp (Option.isSome_eq_false_iff.mp this.symm)).symm
  | some q =>
      obtain ⟨v, hv, hvw⟩ := hd.leastWords.complete w (by rw [hw]; rfl)
      obtain ⟨i, hi⟩ := List.mem_iff_getElem?.mp hv
      have hdv := hd.run_eq hi
      rw [← (h.run_eq_iff v w (by rw [hdv]; rfl)).mp hvw, he.run_eq hi, ← hdv, hvw, hw]

/-- An ordered automaton is determined by its runs: which words have one,
which of them end in the same state, and which are accepted. -/
theorem eq_of_ordered (hd : d.WellFormed) (he : e.WellFormed) (hdo : d.Ordered) (heo : e.Ordered)
    (h : SameRuns d e) : d = e := by
  have hreach := hdo.reachable
  obtain ⟨words, hdw⟩ := hdo
  obtain ⟨words', hew⟩ := heo
  have hwords : words = words' := by
    refine LeastWords.unique ?_ hew.leastWords
    exact hdw.leastWords.congr (fun w => (h.isSome_run w).symm)
      fun v w hv => (h.run_eq_iff v w hv).symm
  subst hwords
  exact eq_of_run_eq hd he (hdw.length_eq.symm.trans hew.length_eq) hreach
    (h.run_eq hdw hew) h.accepts_eq

end Dfa

end FiniteState
