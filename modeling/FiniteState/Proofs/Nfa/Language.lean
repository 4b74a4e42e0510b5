import FiniteState.Proofs.Nfa.Combine
import Mathlib.Computability.Language
import Mathlib.Data.List.Permutation
import Mathlib.Order.CompletePartialOrder

/-!
# Languages of combinations

Each regular operation on automata is the operation of the same name on the
languages that they accept, where a language is a set of words as in the
library, with sum, product and star.

One direction is a path through the combination: where an operand is entered,
an accepted word leads on to its exits (`Embedded.exit_le`). For a repetition
this says that the words which lead to the start of the operand, multiplied by
its language, are again such words, and the star is the least language of that
kind.

For the other direction a run of the combination is cut where it leaves an
operand. An operand is entered in its start only, but it may be entered again,
from its own accepting states. So a run inside it has read an *entry* word, and
what it read since then leads the operand itself to where it is (`Inside`). A
move stays inside, or it is an exit behind an entry word and an accepted word
(`Embedded.inside_silent`, `Embedded.inside_move`); and if the exit is the start
once more, these two words together are an entry word. By induction from the
end of the path, it is inside all along or has left the operand for good
(`Embedded.escape`). For an operand that is not entered again the only entry
word is the empty one; in a repetition the entry words are those of the star.

The operands are well-formed, as all automata are that can be made: a state
that an operand names but does not have would be one of the states behind it.
-/

namespace FiniteState

namespace Nfa

open Computability

variable {σ : Type} [Alphabet σ] {n m c : Nfa σ} {q p s : State} {a : σ} {w : List σ}
  {offset : Nat} {exits : StateSet} {entry : Language σ}

/-! ## Words between states -/

/-- The accepted words. -/
def language (n : Nfa σ) : Language σ := {w | n.accepts w = true}

/-- The words that lead from one state to another. -/
def between (n : Nfa σ) (q p : State) : Language σ := {w | n.Path q w p}

theorem mem_language : w ∈ n.language ↔ n.accepts w = true := Iff.rfl

theorem mem_between : w ∈ n.between q p ↔ n.Path q w p := Iff.rfl

theorem one_le_between (h : n.Path q [] p) : 1 ≤ n.between q p := by
  intro w hw
  obtain rfl := (Language.mem_one w).mp hw
  exact h

/-- A combination accepts the words that lead to its only accepting state. -/
theorem language_eq_between (hstart : c.start = s) (hfinals : c.finals = .singleton p) :
    c.language = c.between s p := by
  ext w
  rw [mem_language, accepts_iff, hstart, hfinals, mem_between]
  constructor
  · rintro ⟨f, hpath, hf⟩
    rwa [← SortedSet.mem_singleton.mp hf]
  · exact fun hpath => ⟨p, hpath, SortedSet.mem_singleton.mpr rfl⟩

/-! ## Fresh states -/

/-- From a state without moves on symbols a path begins with an epsilon
move, if it is not over. -/
theorem Path.of_silent (h : n.Path q w p) (hq : n.node q = { epsilon := exits }) :
    (w = [] ∧ p = q) ∨ ∃ r, r ∈ exits ∧ n.Path r w p := by
  induction h with
  | refl => exact .inl ⟨rfl, rfl⟩
  | silent _ hr ih =>
      rcases ih with ⟨rfl, rfl⟩ | ⟨t, ht, hpath⟩
      · rw [hq] at hr
        exact .inr ⟨_, hr, .refl⟩
      · exact .inr ⟨t, ht, hpath.silent hr⟩
  | move _ hr ih =>
      rcases ih with ⟨rfl, rfl⟩ | ⟨t, ht, hpath⟩
      · rw [hq] at hr
        exact absurd hr SortedSet.not_mem_empty
      · exact .inr ⟨t, ht, hpath.move hr⟩

/-- A state without moves is left on no word. -/
theorem Path.of_stuck (h : n.Path q w p) (hq : n.node q = {}) : w = [] := by
  rcases h.of_silent hq with ⟨hw, _⟩ | ⟨r, hr, _⟩
  · exact hw
  · exact absurd hr SortedSet.not_mem_empty

/-! ## Inside an operand -/

/-- A combination has entered an operand on an entry word, and the rest of
what it read leads the operand to where it is now. -/
def Inside (n : Nfa σ) (offset : Nat) (entry : Language σ) (w : List σ) (q : State) : Prop :=
  ∃ u ∈ entry, ∃ v p, n.Path n.start v p ∧ u ++ v = w ∧ p + offset = q

theorem inside_start (hw : w ∈ entry) : Inside n offset entry w (n.start + offset) :=
  ⟨w, hw, [], n.start, .refl, List.append_nil w, rfl⟩

theorem Inside.lt {q : Nat} (h : Inside n offset entry w q) (hn : n.WellFormed) :
    q < n.states + offset := by
  obtain ⟨_, _, _, p, hp, _, rfl⟩ := h
  exact Nat.add_lt_add_right (hn.path_lt hn.start_lt hp) offset

namespace Embedded

/-- An epsilon move stays inside, or it is an exit behind an accepted word. -/
theorem inside_silent (h : Embedded n c offset exits) (hn : n.WellFormed)
    (hq : Inside n offset entry w q) (hp : p ∈ (c.node q).epsilon) :
    Inside n offset entry w p ∨ w ∈ entry * n.language ∧ p ∈ exits := by
  obtain ⟨u, hu, v, r, hr, rfl, rfl⟩ := hq
  rcases (h.mem_epsilon_iff r p (hn.path_lt hn.start_lt hr)).mp hp with ⟨t, ht, rfl⟩ | ⟨hf, hexit⟩
  · exact .inl ⟨u, hu, v, t, hr.silent ht, rfl, rfl⟩
  · exact .inr ⟨Language.append_mem_mul hu (accepts_iff.mpr ⟨r, hr, hf⟩), hexit⟩

/-- A move on a symbol stays inside. -/
theorem inside_move (h : Embedded n c offset exits) (hn : n.WellFormed)
    (hq : Inside n offset entry w q) (hp : p ∈ (c.node q).targets a) :
    Inside n offset entry (w ++ [a]) p := by
  obtain ⟨u, hu, v, r, hr, rfl, rfl⟩ := hq
  obtain ⟨t, ht, rfl⟩ := (h.mem_targets_iff r a p (hn.path_lt hn.start_lt hr)).mp hp
  exact ⟨u, hu, v ++ [a], t, hr.move ht, (List.append_assoc u v [a]).symm, rfl⟩

/-- A path from the start of an operand is inside it, or has left it for good:
after an entry word and an accepted word it took an exit other than the
start. -/
theorem escape (h : Embedded n c offset exits) (hn : n.WellFormed) (hone : 1 ≤ entry)
    (hagain : n.start + offset ∈ exits → entry * n.language ≤ entry)
    (hpath : c.Path (n.start + offset) w q) :
    Inside n offset entry w q ∨
      ∃ u ∈ entry * n.language, ∃ v x, x ∈ exits ∧ x ≠ n.start + offset ∧ u ++ v = w ∧
        c.Path x v q := by
  induction hpath with
  | refl => exact .inl (inside_start (hone Language.nil_mem_one))
  | @silent w q p _ hp ih =>
      rcases ih with hinside | ⟨u, hu, v, x, hx, hne, rfl, hrest⟩
      · rcases h.inside_silent hn hinside hp with hinside | ⟨hw, hexit⟩
        · exact .inl hinside
        · by_cases hstart : p = n.start + offset
          · subst hstart
            exact .inl (inside_start (hagain hexit hw))
          · exact .inr ⟨w, hw, [], p, hexit, hstart, List.append_nil w, .refl⟩
      · exact .inr ⟨u, hu, v, x, hx, hne, rfl, hrest.silent hp⟩
  | @move w q p a _ hp ih =>
      rcases ih with hinside | ⟨u, hu, v, x, hx, hne, rfl, hrest⟩
      · exact .inl (h.inside_move hn hinside hp)
      · exact .inr ⟨u, hu, v ++ [a], x, hx, hne, (List.append_assoc u v [a]).symm, hrest.move hp⟩

/-- An operand that is entered once is left after one of its words. -/
theorem leave (h : Embedded n c offset (.singleton p)) (hn : n.WellFormed)
    (hoffset : n.states + offset ≤ p) (hpath : c.Path (n.start + offset) w q)
    (hq : n.states + offset ≤ q) : ∃ u ∈ n.language, ∃ v, u ++ v = w ∧ c.Path p v q := by
  have hstart : ¬ n.start + offset ∈ SortedSet.singleton p := fun hmem =>
    Nat.ne_of_lt (Nat.lt_of_lt_of_le (Nat.add_lt_add_right hn.start_lt offset) hoffset)
      (SortedSet.mem_singleton.mp hmem)
  rcases h.escape hn (le_refl 1) (absurd · hstart) hpath with
    hinside | ⟨u, hu, v, x, hx, _, hw, hrest⟩
  · exact absurd (hinside.lt hn) (Nat.not_lt_of_le hq)
  · rw [one_mul] at hu
    rw [SortedSet.mem_singleton.mp hx] at hrest
    exact ⟨u, hu, v, hw, hrest⟩

/-- If nothing can be read behind an operand, all that was read is one of its
words. -/
theorem mem_language_of_stuck (h : Embedded n c offset (.singleton p)) (hn : n.WellFormed)
    (hoffset : n.states + offset ≤ p) (hstuck : c.node p = {})
    (hpath : c.Path (n.start + offset) w p) : w ∈ n.language := by
  obtain ⟨u, hu, v, rfl, hrest⟩ := h.leave hn hoffset hpath hoffset
  rwa [hrest.of_stuck hstuck, List.append_nil]

/-- Where an operand is entered, an accepted word leads on to its exits. -/
theorem exit_le (h : Embedded n c offset exits) (hn : n.WellFormed)
    (hentry : entry ≤ c.between s (n.start + offset)) (hp : p ∈ exits) :
    entry * n.language ≤ c.between s p := by
  intro w hw
  obtain ⟨u, hu, v, hv, rfl⟩ := Language.mem_mul.mp hw
  obtain ⟨f, hpath, hf⟩ := accepts_iff.mp hv
  have hexit := (h.mem_epsilon_iff f p (hn.path_lt hn.start_lt hpath)).mpr (.inr ⟨hf, hp⟩)
  exact (Path.trans (hentry hu) (h.path hn hn.start_lt hpath)).silent hexit

end Embedded

/-! ## Union -/

theorem language_union (hn : n.WellFormed) (hm : m.WellFormed) :
    (n.union m).language = n.language + m.language := by
  have hlanguage : (n.union m).language = (n.union m).between 0 (1 + n.states + m.states) :=
    language_eq_between rfl rfl
  rw [hlanguage]
  refine le_antisymm (fun w hw => ?_) (sup_le ?_ ?_)
  · rcases Path.of_silent hw (node_zero_union n m) with ⟨_, hq⟩ | ⟨r, hr, hpath⟩
    · exact absurd hq (Nat.ne_of_gt (by omega))
    · have hr : r = n.start + 1 ∨ r = m.start + (1 + n.states) := by simpa using hr
      rcases hr with rfl | rfl
      · exact .inl ((embedded_union_left n m).mem_language_of_stuck hn (by omega)
          (node_last_union n m) hpath)
      · exact .inr ((embedded_union_right n m).mem_language_of_stuck hm (by omega)
          (node_last_union n m) hpath)
  · have hentry : 1 ≤ (n.union m).between 0 (n.start + 1) :=
      one_le_between (Path.refl.silent (start_mem_epsilon_union n m))
    simpa using (embedded_union_left n m).exit_le hn hentry (SortedSet.mem_singleton.mpr rfl)
  · have hentry : 1 ≤ (n.union m).between 0 (m.start + (1 + n.states)) :=
      one_le_between (Path.refl.silent (by simp [node_zero_union]))
    simpa using (embedded_union_right n m).exit_le hm hentry (SortedSet.mem_singleton.mpr rfl)

/-- **A union accepts what one of its operands accepts**, whatever moves its
operands have, whatever states they start and accept in, and whether they read
the same symbols or not. -/
theorem accepts_union (hn : n.WellFormed) (hm : m.WellFormed) (w : List σ) :
    (n.union m).accepts w = (n.accepts w || m.accepts w) := by
  rw [Bool.eq_iff_iff, Bool.or_eq_true, ← mem_language, ← mem_language, ← mem_language,
    language_union hn hm, Language.mem_add]

/-- Accepts where it starts, and comes back there on every other symbol. The
start has an epsilon move and a move on a symbol. -/
def ticking : Nfa Char where
  nodes := #[{ moves := .singleton 'b' (.singleton 1) },
    { epsilon := .singleton 1, moves := .singleton 'a' (.singleton 0) }]
  start := 1
  finals := .singleton 1

/-- Goes round on a symbol, and accepts nothing. -/
def barren : Nfa Char where
  nodes := #[{ moves := .singleton 'a' (.singleton 0) }]
  start := 0
  finals := ∅

theorem accepts_union_ticking_barren : ticking.WellFormed ∧ barren.WellFormed ∧
    (ticking.union barren).accepts ['a', 'b'] = true ∧
    (ticking.union barren).accepts ['a', 'a'] = false := by
  have hn : ticking.WellFormed := by decide
  have hm : barren.WellFormed := by decide
  refine ⟨hn, hm, (accepts_union hn hm _).trans ?_, (accepts_union hn hm _).trans ?_⟩
  · cbv
  · cbv

/-! ## Concatenation -/

theorem language_concatenate (hn : n.WellFormed) (hm : m.WellFormed) :
    (n.concatenate m).language = n.language * m.language := by
  have hlanguage : (n.concatenate m).language =
      (n.concatenate m).between (n.start + 0) (n.states + m.states) :=
    language_eq_between rfl rfl
  rw [hlanguage]
  refine le_antisymm (fun w hw => ?_) ?_
  · obtain ⟨u, hu, v, rfl, hbridge⟩ :=
      (embedded_concatenate_left n m).leave hn (by omega) hw (by omega)
    exact Language.append_mem_mul hu ((embedded_concatenate_right n m).mem_language_of_stuck hm
      (by omega) (node_last_concatenate n m) hbridge)
  · have hentry : n.language ≤
        (n.concatenate m).between (n.start + 0) (m.start + n.states) := by
      have hstart := (embedded_concatenate_left n m).exit_le hn (one_le_between .refl)
        (SortedSet.mem_singleton.mpr rfl)
      simpa using hstart
    exact (embedded_concatenate_right n m).exit_le hm hentry (SortedSet.mem_singleton.mpr rfl)

/-- **A concatenation accepts a word of its first operand that is followed by a
word of its second**, wherever in the word that may be, and also where the two
operands are the same automaton. -/
theorem accepts_concatenate_iff (hn : n.WellFormed) (hm : m.WellFormed) (w : List σ) :
    (n.concatenate m).accepts w = true ↔
      ∃ u v, u ++ v = w ∧ n.accepts u = true ∧ m.accepts v = true := by
  rw [← mem_language, language_concatenate hn hm, Language.mem_mul]
  constructor
  · rintro ⟨u, hu, v, hv, hw⟩
    exact ⟨u, v, hw, hu, hv⟩
  · rintro ⟨u, v, hw, hu, hv⟩
    exact ⟨u, hu, v, hv, hw⟩

theorem accepts_concatenate_ticking : ticking.WellFormed ∧ barren.WellFormed ∧
    (ticking.concatenate ticking).accepts ['a', 'b', 'a', 'b'] = true ∧
    (ticking.concatenate barren).accepts ['a', 'b', 'a'] = false := by
  have hn : ticking.WellFormed := by decide
  have hm : barren.WellFormed := by decide
  refine ⟨hn, hm, ?_, Bool.eq_false_iff.mpr fun h => ?_⟩
  · exact (accepts_concatenate_iff hn hn _).mpr ⟨['a', 'b'], ['a', 'b'], rfl, by cbv, by cbv⟩
  · obtain ⟨_, _, _, _, hbarren⟩ := (accepts_concatenate_iff hn hm _).mp h
    obtain ⟨q, _, hq⟩ := accepts_iff.mp hbarren
    exact SortedSet.not_mem_empty hq

/-! ## Repetition -/

theorem language_star (hn : n.WellFormed) : n.star.language = n.language∗ := by
  have hlanguage : n.star.language = n.star.between 0 (1 + n.states) := language_eq_between rfl rfl
  have hexits : ∀ p, p ∈ SortedSet.ofList [n.start + 1, 1 + n.states] ↔
      p = n.start + 1 ∨ p = 1 + n.states := fun p => by simp
  rw [hlanguage]
  refine le_antisymm (fun w hw => ?_) ?_
  · have hagain : n.language∗ * n.language ≤ n.language∗ := kstar_mul_le_kstar
    rcases Path.of_silent hw (node_zero_star n) with ⟨_, hq⟩ | ⟨r, hr, hpath⟩
    · exact absurd hq (Nat.ne_of_gt (by omega))
    rcases (hexits r).mp hr with rfl | rfl
    · rcases (embedded_star n).escape hn one_le_kstar (fun _ => hagain) hpath with
        hinside | ⟨u, hu, v, x, hx, hne, rfl, hrest⟩
      · exact absurd (hinside.lt hn) (by omega)
      · rw [((hexits x).mp hx).resolve_left hne] at hrest
        rw [hrest.of_stuck (node_last_star n), List.append_nil]
        exact hagain hu
    · rw [hpath.of_stuck (node_last_star n)]
      exact Language.nil_mem_kstar _
  · -- the words that lead to the start of the operand can be continued by any accepted word
    have hentry : n.language∗ ≤ n.star.between 0 (n.start + 1) :=
      kstar_le_of_mul_le_left (one_le_between (Path.refl.silent (by simp [node_zero_star])))
        ((embedded_star n).exit_le hn (le_refl _) ((hexits _).mpr (.inl rfl)))
    have hlast := (embedded_star n).exit_le hn hentry ((hexits _).mpr (.inr rfl))
    rw [← Language.one_add_kstar_mul_self_eq_kstar]
    exact sup_le (one_le_between (Path.refl.silent (last_mem_epsilon_star n))) hlast

/-- **A repetition accepts the words that are any number of words of its
operand, one after the other**, none of them included, also where the operand
accepts in its start, comes back to it, goes on from accepting states or
accepts nothing at all. -/
theorem accepts_star_iff (hn : n.WellFormed) (w : List σ) :
    n.star.accepts w = true ↔
      ∃ words : List (List σ), words.flatten = w ∧ ∀ v ∈ words, n.accepts v = true := by
  rw [← mem_language, language_star hn, Language.mem_kstar]
  exact exists_congr fun words => and_congr_left fun _ => eq_comm

theorem accepts_star_ticking_barren : ticking.WellFormed ∧ barren.WellFormed ∧
    ticking.star.accepts ['a', 'b', 'a', 'b'] = true ∧ barren.star.accepts [] = true := by
  have hn : ticking.WellFormed := by decide
  have hm : barren.WellFormed := by decide
  refine ⟨hn, hm, ?_, (accepts_star_iff hm _).mpr ⟨[], rfl, List.forall_mem_nil _⟩⟩
  refine (accepts_star_iff hn _).mpr ⟨[['a', 'b'], ['a', 'b']], rfl, ?_⟩
  exact List.forall_mem_cons.mpr ⟨by cbv, List.forall_mem_singleton.mpr (by cbv)⟩

end Nfa

end FiniteState
