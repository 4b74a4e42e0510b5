import FiniteState.Alphabet
import Mathlib.Data.List.Shortlex

/-!
# The order of words

A shorter word comes first, and words of one length are compared symbol
by symbol in the order of the alphabet. It is the order in which a
breadth-first search comes upon words when it tries the symbols in their
order: whatever one more symbol is put behind them, an earlier word stays
earlier (`Precedes.concat`), and behind the same word the symbols decide
(`precedes_concat`).

Where words lead to things, each thing has at most one least word. The
list of these (`LeastWords`) depends only on which words lead somewhere
and which of them lead to the same thing, and not on what the things are
(`LeastWords.congr`, `LeastWords.unique`).
-/

namespace FiniteState

open Std

variable {σ : Type} [Alphabet σ] {u v w : List σ} {a b : σ}

/-- A word comes before another: it is shorter, or as long and smaller at
the first place where they differ. -/
def Precedes (v w : List σ) : Prop := List.Shortlex (fun a b => compare a b = .lt) v w

/-- A word comes before another or is the same. -/
def PrecedesOrEq (v w : List σ) : Prop := v = w ∨ Precedes v w

theorem precedes_iff :
    Precedes v w ↔ v.length < w.length ∨
      v.length = w.length ∧ List.Lex (fun a b => compare a b = .lt) v w := List.shortlex_def

theorem Precedes.of_length_lt (h : v.length < w.length) : Precedes v w :=
  List.Shortlex.of_length_lt h

theorem not_precedes_self (w : List σ) : ¬ Precedes w w := by
  intro h
  rcases precedes_iff.mp h with h | ⟨_, h⟩
  · exact Nat.lt_irrefl _ h
  · refine List.lex_irrefl (fun a => ?_) w h
    simp

theorem Precedes.trans (huv : Precedes u v) (hvw : Precedes v w) : Precedes u w := by
  rcases precedes_iff.mp huv with h1 | ⟨h1, hl1⟩
  · refine .of_length_lt (Nat.lt_of_lt_of_le h1 ?_)
    rcases precedes_iff.mp hvw with h2 | ⟨h2, _⟩ <;> omega
  · rcases precedes_iff.mp hvw with h2 | ⟨h2, hl2⟩
    · exact .of_length_lt (h1 ▸ h2)
    · have hsymbols : ∀ {a b c : σ}, compare a b = .lt → compare b c = .lt → compare a c = .lt :=
        fun hab hbc => TransCmp.lt_trans hab hbc
      exact precedes_iff.mpr (.inr ⟨h1.trans h2, List.lex_trans hsymbols hl1 hl2⟩)

theorem precedes_concat (h : compare a b = .lt) (w : List σ) : Precedes (w ++ [a]) (w ++ [b]) :=
  List.Shortlex.append_left ((List.shortlex_singleton_iff a b).mpr h) w

omit [Alphabet σ] in
/-- Between words of one length the first difference decides, whatever
follows. -/
theorem lex_append {r : σ → σ → Prop} (h : List.Lex r v w) (hlen : v.length = w.length)
    (s t : List σ) : List.Lex r (v ++ s) (w ++ t) := by
  induction h with
  | nil => simp at hlen
  | rel hab => exact .rel hab
  | cons _ ih => exact .cons (ih (Nat.succ.inj hlen))

theorem Precedes.concat (h : Precedes v w) (a b : σ) : Precedes (v ++ [a]) (w ++ [b]) := by
  rcases precedes_iff.mp h with h | ⟨hlen, h⟩
  · refine .of_length_lt ?_
    simpa using h
  · refine precedes_iff.mpr (.inr ⟨?_, lex_append h hlen [a] [b]⟩)
    simpa using hlen

/-! ## Up to equality -/

theorem PrecedesOrEq.trans (huv : PrecedesOrEq u v) (hvw : PrecedesOrEq v w) :
    PrecedesOrEq u w := by
  rcases huv with rfl | huv
  · exact hvw
  · rcases hvw with rfl | hvw
    · exact .inr huv
    · exact .inr (huv.trans hvw)

theorem PrecedesOrEq.concat (h : PrecedesOrEq v w) (a : σ) :
    PrecedesOrEq (v ++ [a]) (w ++ [a]) := by
  rcases h with rfl | h
  · exact .inl rfl
  · exact .inr (h.concat a a)

theorem PrecedesOrEq.antisymm (hvw : PrecedesOrEq v w) (hwv : PrecedesOrEq w v) : v = w := by
  rcases hvw with rfl | hvw
  · rfl
  · rcases hwv with rfl | hwv
    · rfl
    · exact absurd (hvw.trans hwv) (not_precedes_self v)

/-! ## Least words -/

variable {α β : Type} {leads : List σ → Option α} {leads' : List σ → Option β}
  {words words' : List (List σ)}

/-- For everything that some word leads to the least word that does, and
these words in their order. -/
structure LeastWords (leads : List σ → Option α) (words : List (List σ)) : Prop where
  ascending : words.Pairwise Precedes
  least : ∀ v ∈ words, (leads v).isSome = true ∧ ∀ w, leads w = leads v → PrecedesOrEq v w
  complete : ∀ w, (leads w).isSome = true → ∃ v ∈ words, leads v = leads w

namespace LeastWords

theorem mem_iff (h : LeastWords leads words) :
    v ∈ words ↔ (leads v).isSome = true ∧ ∀ w, leads w = leads v → PrecedesOrEq v w := by
  refine ⟨h.least v, fun ⟨hsome, hleast⟩ => ?_⟩
  obtain ⟨u, hu, huv⟩ := h.complete v hsome
  have hle := (h.least u hu).2 v huv.symm
  rwa [(hleast u huv).antisymm hle]

theorem nodup (h : LeastWords leads words) : words.Nodup :=
  h.ascending.imp fun {v w} (hvw : Precedes v w) (heq : v = w) => not_precedes_self v (heq ▸ hvw)

/-- Least words are listed in one way. -/
theorem unique (h : LeastWords leads words) (h' : LeastWords leads words') : words = words' := by
  have hperm := (List.perm_ext_iff_of_nodup h.nodup h'.nodup).mpr fun v => by
    rw [h.mem_iff, h'.mem_iff]
  refine hperm.eq_of_pairwise (fun v w _ _ hvw hwv => ?_) h.ascending h'.ascending
  exact absurd (hvw.trans hwv) (not_precedes_self v)

/-- Least words are known from which words lead somewhere and which lead to
the same thing. -/
theorem congr (h : LeastWords leads words)
    (hsome : ∀ w, (leads' w).isSome = (leads w).isSome)
    (hsame : ∀ v w, (leads v).isSome = true → (leads' v = leads' w ↔ leads v = leads w)) :
    LeastWords leads' words := by
  refine ⟨h.ascending, fun v hv => ?_, fun w hw => ?_⟩
  · obtain ⟨hdefined, hleast⟩ := h.least v hv
    refine ⟨(hsome v).trans hdefined, fun w hw => hleast w ?_⟩
    exact ((hsame v w hdefined).mp hw.symm).symm
  · obtain ⟨v, hv, hvw⟩ := h.complete w ((hsome w).symm.trans hw)
    exact ⟨v, hv, (hsame v w (h.least v hv).1).mpr hvw⟩

/-- Least words stay so when the things are named apart. -/
theorem bind (h : LeastWords leads words) {name : α → Option β}
    (hname : ∀ w x, leads w = some x → (name x).isSome = true)
    (hinj : ∀ x y i, name x = some i → name y = some i → x = y) :
    LeastWords (fun w => (leads w).bind name) words := by
  refine h.congr (fun w => ?_) (fun v w hv => ⟨fun heq => ?_, fun heq => by rw [heq]⟩)
  · cases hx : leads w with
    | none => rfl
    | some x => exact hname w x hx
  · obtain ⟨x, hx⟩ := Option.isSome_iff_exists.mp hv
    obtain ⟨i, hi⟩ := Option.isSome_iff_exists.mp (hname v x hx)
    rw [hx] at heq ⊢
    obtain ⟨y, hy, hyi⟩ := Option.bind_eq_some_iff.mp (heq.symm.trans hi)
    rw [hy, hinj x y i hi hyi]

end LeastWords

end FiniteState
