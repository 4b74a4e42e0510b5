import FiniteState.Proofs.Dfa.Run

/-!
# Indistinguishable states

Which states of a deterministic automaton no word tells apart, said
without any partition. What is seen of a state on a word is its
`outcome`: whether the run is defined, and if so in which of the initial
blocks it ends - among the accepting states or the others, or, when
accepting states are kept apart, in which accepting state.

`AlikeFor k` limits the words to those of length `k`. One step further
means that the blocks agree and all moves lead to states that are alike
one step less (`alikeFor_succ_iff`). Once a step further changes nothing,
no later step does (`indistinguishable_of_stable`).
-/

namespace FiniteState

theorem optionRel_iff {α β : Type} {r : α → β → Prop} {x : Option α} {y : Option β} :
    Option.Rel r x y ↔ x.isSome = y.isSome ∧ ∀ a b, x = some a → y = some b → r a b := by
  cases x <;> cases y <;> simp

theorem optionRel_imp {α β : Type} {r s : α → β → Prop} {x : Option α} {y : Option β}
    (h : Option.Rel r x y) (himp : ∀ a b, x = some a → y = some b → r a b → s a b) :
    Option.Rel s x y := by
  cases h with
  | none => exact .none
  | some hr => exact .some (himp _ _ rfl rfl hr)

theorem optionRel_congr {α β : Type} {r s : α → β → Prop} {x : Option α} {y : Option β}
    (hiff : ∀ a b, x = some a → y = some b → (r a b ↔ s a b)) :
    Option.Rel r x y ↔ Option.Rel s x y :=
  ⟨fun h => optionRel_imp h fun a b ha hb => (hiff a b ha hb).mp,
    fun h => optionRel_imp h fun a b ha hb => (hiff a b ha hb).mpr⟩

theorem map_eq_map_iff_rel {α β γ : Type} {x : Option α} {y : Option β} {f : α → γ} {g : β → γ} :
    x.map f = y.map g ↔ Option.Rel (fun a b => f a = g b) x y := by
  cases x <;> cases y <;> simp

theorem optionRel_map {α β γ δ : Type} {r : γ → δ → Prop} {x : Option α} {y : Option β}
    {f : α → γ} {g : β → δ} :
    Option.Rel r (x.map f) (y.map g) ↔ Option.Rel (fun a b => r (f a) (g b)) x y := by
  cases x <;> cases y <;> simp

theorem optionRel_bind {α β γ δ : Type} {r : α → β → Prop} {s : γ → δ → Prop} {x : Option α}
    {y : Option β} {f : α → Option γ} {g : β → Option δ} (h : Option.Rel r x y)
    (hfg : ∀ a b, x = some a → y = some b → r a b → Option.Rel s (f a) (g b)) :
    Option.Rel s (x.bind f) (y.bind g) := by
  cases h with
  | none => exact .none
  | some hr => exact hfg _ _ rfl rfl hr

namespace Dfa

variable {σ : Type} [Alphabet σ] {d : Dfa σ} {separateFinals : Bool} {k : Nat} {p q : State}
  {w : List σ}

/-- A part of the split that refinement starts from. -/
inductive Block where
  | others
  | accepting
  /-- An accepting state that is kept apart. -/
  | alone (q : State)
deriving DecidableEq

/-- The part that a state belongs to. -/
def block (separateFinals : Bool) (d : Dfa σ) (q : State) : Block :=
  if q ∈ d.finals then if separateFinals then .alone q else .accepting else .others

/-- What is seen of a state on a word: nothing where the run is undefined,
else the block in which it ends. -/
def outcome (separateFinals : Bool) (d : Dfa σ) (q : State) (w : List σ) : Option Block :=
  (d.runFrom q w).map (d.block separateFinals)

/-- No word tells the states apart. -/
def Indistinguishable (separateFinals : Bool) (d : Dfa σ) (p q : State) : Prop :=
  ∀ w, d.outcome separateFinals p w = d.outcome separateFinals q w

/-- No word up to some length tells the states apart. -/
def AlikeFor (separateFinals : Bool) (d : Dfa σ) (k : Nat) (p q : State) : Prop :=
  ∀ w, w.length ≤ k → d.outcome separateFinals p w = d.outcome separateFinals q w

theorem mem_finals_iff_block (separateFinals : Bool) :
    q ∈ d.finals ↔ d.block separateFinals q ≠ .others := by
  unfold block
  cases separateFinals <;> by_cases hq : q ∈ d.finals <;> simp [hq]

theorem outcome_cons (a : σ) :
    d.outcome separateFinals q (a :: w) =
      (d.step q a).bind fun r => d.outcome separateFinals r w := by
  rw [outcome, runFrom_cons, Option.map_bind]
  rfl

theorem outcome_eq_accepting_iff :
    d.outcome false q w = some .accepting ↔ ∃ p, d.runFrom q w = some p ∧ p ∈ d.finals := by
  rw [outcome, Option.map_eq_some_iff]
  refine exists_congr fun p => and_congr_right fun _ => ?_
  by_cases hp : p ∈ d.finals <;> simp [block, hp]

/-- What is seen of a state shows in what words through it are accepted. -/
theorem accepts_append_iff {v : List σ} (h : d.run v = some q) :
    d.accepts (v ++ w) = true ↔ d.outcome false q w = some .accepting := by
  rw [accepts_iff, run_append, h, outcome_eq_accepting_iff]
  rfl

theorem isSome_outcome (separateFinals : Bool) :
    (d.outcome separateFinals q w).isSome = (d.runFrom q w).isSome :=
  Option.isSome_map

/-- With accepting states in one block, an outcome is known by whether it
is there and whether it is accepting. -/
theorem outcome_ext {e : Dfa σ} {t : State} {v : List σ}
    (hsome : (d.runFrom q w).isSome = (e.runFrom t v).isSome)
    (haccepting : d.outcome false q w = some .accepting ↔ e.outcome false t v = some .accepting) :
    d.outcome false q w = e.outcome false t v := by
  rw [← isSome_outcome false, ← isSome_outcome false] at hsome
  have hblock : ∀ (f : Dfa σ) (r : State) (x : List σ) (b : Block),
      f.outcome false r x = some b → b = .others ∨ b = .accepting := by
    intro f r x b hb
    obtain ⟨p, _, rfl⟩ := Option.map_eq_some_iff.mp hb
    by_cases hp : p ∈ f.finals <;> simp [block, hp]
  cases hq : d.outcome false q w with
  | none =>
      rw [hq] at hsome
      exact (Option.isNone_iff_eq_none.mp (Option.isSome_eq_false_iff.mp hsome.symm)).symm
  | some b =>
      rw [hq] at hsome haccepting
      obtain ⟨c, ht⟩ := Option.isSome_iff_exists.mp hsome.symm
      rw [ht] at haccepting ⊢
      rcases hblock d q w b hq with rfl | rfl
      · rcases hblock e t v c ht with rfl | rfl
        · rfl
        · exact haccepting.mpr rfl
      · exact (haccepting.mp rfl).symm

theorem alikeFor_zero_iff :
    d.AlikeFor separateFinals 0 p q ↔ d.block separateFinals p = d.block separateFinals q := by
  constructor
  · exact fun h => Option.some.inj (h [] (Nat.le_refl 0))
  · intro h w hw
    rw [List.length_eq_zero_iff.mp (Nat.le_zero.mp hw)]
    exact congrArg some h

theorem AlikeFor.mono {m : Nat} (h : d.AlikeFor separateFinals k p q) (hm : m ≤ k) :
    d.AlikeFor separateFinals m p q := fun w hw => h w (Nat.le_trans hw hm)

theorem alikeFor_succ_iff :
    d.AlikeFor separateFinals (k + 1) p q ↔
      d.block separateFinals p = d.block separateFinals q ∧
        ∀ a, Option.Rel (d.AlikeFor separateFinals k) (d.step p a) (d.step q a) := by
  constructor
  · intro h
    refine ⟨alikeFor_zero_iff.mp (h.mono (Nat.zero_le _)), fun a => ?_⟩
    have hword : ∀ w, w.length ≤ k →
        ((d.step p a).bind fun r => d.outcome separateFinals r w) =
          (d.step q a).bind fun r => d.outcome separateFinals r w := by
      intro w hw
      rw [← outcome_cons, ← outcome_cons]
      exact h (a :: w) (Nat.succ_le_succ hw)
    refine optionRel_iff.mpr ⟨?_, fun p' q' hp hq w hw => ?_⟩
    · -- whether a move is there shows on the word of one symbol
      have := congrArg Option.isSome (hword [] (Nat.zero_le k))
      simpa [outcome, Option.isSome_bind] using this
    · have := hword w hw
      rwa [hp, hq] at this
  · rintro ⟨hblock, hstep⟩ w hw
    cases w with
    | nil => exact congrArg some hblock
    | cons a w =>
        rw [outcome_cons, outcome_cons]
        generalize d.step p a = p', d.step q a = q', hstep a = hrel
        cases hrel with
        | none => rfl
        | some h => exact h w (Nat.le_of_succ_le_succ hw)

theorem indistinguishable_iff :
    d.Indistinguishable separateFinals p q ↔ ∀ k, d.AlikeFor separateFinals k p q :=
  ⟨fun h _ w _ => h w, fun h w => h w.length w (Nat.le_refl _)⟩

/-- States that are alike stay so for longer words, once that holds of one
step for all states of the automaton. -/
theorem indistinguishable_of_stable (hd : d.WellFormed)
    (hstable : ∀ p q, p < d.states → q < d.states →
      d.AlikeFor separateFinals k p q → d.AlikeFor separateFinals (k + 1) p q)
    (hp : p < d.states) (hq : q < d.states) (h : d.AlikeFor separateFinals k p q) :
    d.Indistinguishable separateFinals p q := by
  have hlater : ∀ n p q, p < d.states → q < d.states →
      d.AlikeFor separateFinals k p q → d.AlikeFor separateFinals (k + n) p q := by
    intro n
    induction n with
    | zero => exact fun p q _ _ h => h
    | succ n ih =>
        intro p q hp hq h
        obtain ⟨hblock, hstep⟩ := alikeFor_succ_iff.mp (hstable p q hp hq h)
        refine alikeFor_succ_iff.mpr ⟨hblock, fun a => ?_⟩
        refine optionRel_imp (hstep a) fun p' q' hp' hq' => ?_
        exact ih p' q' (hd.step_lt p a p' hp') (hd.step_lt q a q' hq')
  exact indistinguishable_iff.mpr fun m =>
    (hlater m p q hp hq h).mono (Nat.le_add_left m k)

/-- Indistinguishable states move to indistinguishable states. -/
theorem Indistinguishable.step (h : d.Indistinguishable separateFinals p q) (a : σ) :
    Option.Rel (d.Indistinguishable separateFinals) (d.step p a) (d.step q a) := by
  have hrel := fun k =>
    optionRel_iff.mp ((alikeFor_succ_iff.mp (indistinguishable_iff.mp h (k + 1))).2 a)
  exact optionRel_iff.mpr ⟨(hrel 0).1, fun p' q' hp hq =>
    indistinguishable_iff.mpr fun k => (hrel k).2 p' q' hp hq⟩

end Dfa

end FiniteState
