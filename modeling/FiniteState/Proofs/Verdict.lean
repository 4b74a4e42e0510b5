import FiniteState.Proofs.Conversion
import FiniteState.Proofs.Nfa.Described
import Mathlib.Data.Set.Card

/-!
# Deciding determinism

What becomes of a description from which a deterministic automaton is to be
made. Three things can go wrong, and each has an order of its own in which its
first instance is looked for: an entry that consumes nothing, in the order of
the entries; a number that names no state, in the order of reading; a symbol
that leaves open where to go, in the order of states and then of symbols.
The first kind hides the second and both hide the third (`Verdict`).

For the last kind only the targets count that all entries of a state and a
symbol name together (`Description.targetsOf`). The nondeterministic automaton has
gathered them already: where no entry is silent, a node is determined just if
the description leaves nothing open for its state (`determined_iff`), and charged
with the first symbol for which it does (`charged_iff`).
-/

namespace FiniteState

theorem SortedSet.size_eq_ncard {α : Type} [Ord α] [Std.LawfulEqOrd α] (s : SortedSet α) :
    s.size = {a | a ∈ s}.ncard := by
  classical
  have hset : {a | a ∈ s} = (s.toList.toFinset : Set α) := by
    ext a
    simp
  rw [hset, Set.ncard_coe_finset, List.toFinset_card_of_nodup s.nodup, SortedSet.size]

variable {σ : Type}

/-! ## What entries leave open -/

/-- Moves from one state under one symbol have one target. -/
def Move.Functional (moves : List (Move σ)) : Prop :=
  ∀ m ∈ moves, ∀ m' ∈ moves, m.origin = m'.origin → m.symbol = m'.symbol → m.target = m'.target

namespace Description

variable {l l' : Description σ} {states : Nat} {finals : List State} {moves : List (Move σ)}
  {start q : State} {a : σ}

/-- The targets of a state under a symbol, whichever entries name them. -/
def targetsOf (l : Description σ) (q : State) (a : σ) : Set State :=
  {p | ∃ e ∈ l.entries, e.origin = q ∧ e.label = some a ∧ p ∈ e.targets}

/-- Some entry is about a state and a symbol, with targets or without. -/
def Mentions (l : Description σ) (q : State) (a : σ) : Prop :=
  ∃ e ∈ l.entries, e.origin = q ∧ e.label = some a

/-- A symbol is mentioned that has no target in the end, or several. -/
def LeavesOpen (l : Description σ) (q : State) (a : σ) : Prop :=
  l.Mentions q a ∧ (l.targetsOf q a).ncard ≠ 1

theorem mentions_of_mem_targetsOf {p : State} (h : p ∈ l.targetsOf q a) : l.Mentions q a := by
  obtain ⟨e, he, hq, hlabel, _⟩ := h
  exact ⟨e, he, hq, hlabel⟩

/-- What a table of moves says. -/
def tabulated (states : Nat) (finals : List State) (moves : List (Move σ)) (start : State) :
    Description σ :=
  ⟨states, finals, moves.map Move.entry, start⟩

theorem named_tabulated_lt_iff : (∀ q ∈ (tabulated states finals moves start).named, q < states) ↔
    (∀ q ∈ finals, q < states) ∧ ∀ m ∈ moves, m.origin < states ∧ m.target < states := by
  unfold named tabulated
  rw [List.forall_mem_append, List.flatMap_map]
  simp only [List.forall_mem_flatMap, Move.entry, List.forall_mem_cons, List.not_mem_nil,
    IsEmpty.forall_iff, implies_true, and_true]

theorem targetsOf_tabulated (q : State) (a : σ) :
    (tabulated states finals moves start).targetsOf q a = {p | ⟨q, a, p⟩ ∈ moves} := by
  ext p
  constructor
  · rintro ⟨_, he, rfl, hlabel, hp⟩
    obtain ⟨⟨o, b, r⟩, hm, rfl⟩ := List.mem_map.mp he
    obtain rfl := Option.some.inj hlabel
    obtain rfl := List.mem_singleton.mp hp
    exact hm
  · intro hm
    exact ⟨_, List.mem_map.mpr ⟨_, hm, rfl⟩, rfl, rfl, List.mem_singleton.mpr rfl⟩

/-- Every move is a target, so a symbol is left open just if there are two. -/
theorem not_leavesOpen_tabulated_iff :
    (∀ q a, ¬ (tabulated states finals moves start).LeavesOpen q a) ↔ Move.Functional moves := by
  simp only [LeavesOpen, not_and, not_not, targetsOf_tabulated, Set.ncard_eq_one]
  constructor
  · rintro h ⟨q, a, p⟩ hm ⟨q', a', p'⟩ hm' rfl rfl
    obtain ⟨r, hr⟩ := h q a ⟨_, List.mem_map.mpr ⟨_, hm, rfl⟩, rfl, rfl⟩
    have hp : p = r := hr.subset hm
    exact hp.trans (hr.subset hm').symm
  · rintro h _ _ ⟨_, he, rfl, hlabel⟩
    obtain ⟨⟨q, a, p⟩, hm, rfl⟩ := List.mem_map.mp he
    obtain rfl := Option.some.inj hlabel
    refine ⟨p, Set.eq_singleton_iff_unique_mem.mpr ⟨hm, fun r hr => ?_⟩⟩
    exact h _ hr _ hm rfl rfl

variable [Alphabet σ]

/-- The smallest state for which something is left open, and the smallest symbol
for which it is. -/
structure FirstOpen (l : Description σ) (q : State) (a : σ) : Prop where
  leavesOpen : l.LeavesOpen q a
  origin_le : ∀ p b, l.LeavesOpen p b → q ≤ p
  symbol_le : ∀ b, l.LeavesOpen q b → (compare a b).isLE = true

/-- No entry consumes nothing. -/
def Visible (l : Description σ) : Prop := ∀ e ∈ l.entries, ¬ e.Silent

theorem visible_tabulated_iff : (tabulated states finals moves start).Visible ↔
    ∀ m ∈ moves, Alphabet.isEpsilon m.symbol = false := by
  refine List.forall_mem_map.trans (forall₂_congr fun m _ => ?_)
  simp [Move.entry, Entry.Silent]

theorem Visible.isEpsilon_eq (hl : l.Visible) (h : l.Mentions q a) :
    Alphabet.isEpsilon a = false := by
  obtain ⟨e, he, _, hlabel⟩ := h
  exact Bool.eq_false_iff.mpr fun ha => hl e he (.inr ⟨a, hlabel, ha⟩)

theorem SaysSame.visible (h : l.SaysSame l') (hl : l.Visible) : l'.Visible := by
  intro e he hsilent
  obtain ⟨e', he', hsilent'⟩ :=
    (h.rearranged.exists_iff (P := Entry.Silent) fun _ _ _ _ => or_self_iff.symm).mpr
      ⟨e, he, hsilent⟩
  exact hl e' he' hsilent'

end Description

variable [Alphabet σ] {l : Description σ} {q : State} {f : Fault σ}

/-! ## What nodes are charged with -/

namespace Nfa

namespace Node

variable {v : Node σ}

/-- Rows are looked through symbol by symbol that they remember. -/
theorem forall_get?_iff {P : σ → StateSet → Prop} :
    (∀ a s, v.moves.get? a = some s → P a s) ↔ ∀ a, v.Remembers a → P a (v.targets a) := by
  constructor
  · intro h a ha
    obtain ⟨s, hs⟩ := Option.isSome_iff_exists.mp ha
    rw [targets_of_get? hs]
    exact h a s hs
  · intro h a s hs
    rw [← targets_of_get? hs]
    exact h a (Option.isSome_of_eq_some hs)

theorem determined_iff (hepsilon : v.epsilon = ∅) :
    v.Determined ↔ ∀ a, v.Remembers a → (v.targets a).size = 1 := by
  rw [← forall_get?_iff (P := fun _ s => s.size = 1)]
  exact ⟨fun hv => hv.size_eq, fun h => ⟨hepsilon, h⟩⟩

theorem charged_iff (hepsilon : v.epsilon = ∅) : v.Charged q f ↔
    ∃ a, (v.Remembers a ∧ (v.targets a).size ≠ 1) ∧
      (∀ b, v.Remembers b → compare b a = .lt → (v.targets b).size = 1) ∧
      f = .nonDeterministic q a (v.targets a).size := by
  constructor
  · intro h
    cases h with
    | epsilon hne => exact absurd hepsilon hne
    | @symbol a s _ hs hsize hbefore =>
        rw [← targets_of_get? hs] at hsize ⊢
        refine ⟨a, ⟨Option.isSome_of_eq_some hs, hsize⟩, fun b => ?_, rfl⟩
        exact forall_get?_iff.mp hbefore b
  · rintro ⟨a, ⟨ha, hsize⟩, hbefore, rfl⟩
    obtain ⟨s, hs⟩ := Option.isSome_iff_exists.mp ha
    rw [targets_of_get? hs] at hsize ⊢
    exact .symbol hepsilon hs hsize (forall_get?_iff.mpr hbefore)

end Node

namespace DescribedBy

variable {n : Nfa σ} (hn : n.DescribedBy l) (hl : l.Visible)

include hn hl

theorem epsilon_eq (q : State) : (n.node q).epsilon = ∅ := by
  refine SortedSet.eq_empty_iff.mpr fun p hp => ?_
  obtain ⟨e, he, _, hsilent, _⟩ := (hn.mem_epsilonTargets_iff q p).mp hp
  exact hl e he hsilent

theorem remembers_iff_mentions (q : State) (a : σ) :
    (n.node q).Remembers a ↔ l.Mentions q a := by
  rw [hn.remembers_iff]
  exact and_iff_right_of_imp hl.isEpsilon_eq

theorem mem_targetsOf_iff (q : State) (a : σ) (p : State) :
    p ∈ (n.node q).targets a ↔ p ∈ l.targetsOf q a := by
  by_cases h : l.Mentions q a
  · exact hn.mem_targets_iff q a (hl.isEpsilon_eq h) p
  · rw [Node.targets_of_not_remembers (mt (hn.remembers_iff_mentions hl q a).mp h)]
    exact iff_of_false SortedSet.not_mem_empty (mt Description.mentions_of_mem_targetsOf h)

theorem size_targets (q : State) (a : σ) :
    ((n.node q).targets a).size = (l.targetsOf q a).ncard := by
  rw [SortedSet.size_eq_ncard]
  exact congrArg Set.ncard (Set.ext (hn.mem_targetsOf_iff hl q a))

theorem leavesOpen_iff (q : State) (a : σ) :
    l.LeavesOpen q a ↔ (n.node q).Remembers a ∧ ((n.node q).targets a).size ≠ 1 := by
  rw [hn.remembers_iff_mentions hl, hn.size_targets hl, Description.LeavesOpen]

theorem determined_iff (q : State) : (n.node q).Determined ↔ ∀ a, ¬ l.LeavesOpen q a := by
  rw [Node.determined_iff (hn.epsilon_eq hl q)]
  simp only [hn.leavesOpen_iff hl, not_and, not_not]

theorem charged_iff (q : State) : (n.node q).Charged q f ↔
    ∃ a, l.LeavesOpen q a ∧ (∀ b, l.LeavesOpen q b → (compare a b).isLE = true) ∧
      f = .nonDeterministic q a (l.targetsOf q a).ncard := by
  rw [Node.charged_iff (hn.epsilon_eq hl q)]
  refine exists_congr fun a => ?_
  rw [← hn.leavesOpen_iff hl, hn.size_targets hl]
  refine and_congr_right' (and_congr_left' (forall_congr' fun b => ?_))
  rw [hn.leavesOpen_iff hl]
  constructor
  · rintro h ⟨hb, hsize⟩
    by_contra hle
    exact hsize (h hb (Std.OrientedCmp.lt_of_not_isLE hle))
  · intro h hb hlt
    by_contra hsize
    exact Std.OrientedCmp.not_isLE_of_lt hlt (h ⟨hb, hsize⟩)

end DescribedBy

end Nfa

/-! ## Deterministic automata and their descriptions -/

namespace Dfa

variable {d e : Dfa σ} {n : Nfa σ} {r : Except (Fault σ) (Dfa σ)}

/-- The automaton moves from a state on a symbol to the one target that entries
name, and does not move where they name none. -/
structure DescribedBy (d : Dfa σ) (l : Description σ) : Prop where
  states_eq : d.states = l.states
  start_eq : d.start = l.start
  mem_finals_iff : ∀ q, q ∈ d.finals ↔ q ∈ l.finals
  step_eq_some_iff : ∀ q a p, d.step q a = some p ↔ l.targetsOf q a = {p}
  step_eq_none_iff : ∀ q a, d.step q a = none ↔ l.targetsOf q a = ∅

/-- No two automata are described by one description. -/
theorem DescribedBy.unique (hd : d.DescribedBy l) (he : e.DescribedBy l) : d = e := by
  refine eq_of_step_eq (hd.states_eq.trans he.states_eq.symm) (hd.start_eq.trans he.start_eq.symm)
    (fun q a => Option.ext fun p => ?_)
    fun q => (hd.mem_finals_iff q).trans (he.mem_finals_iff q).symm
  exact (hd.step_eq_some_iff q a p).trans (he.step_eq_some_iff q a p).symm

theorem DescribedBy.mem_targetsOf_iff (hd : d.DescribedBy l) {p : State} {a : σ} :
    p ∈ l.targetsOf q a ↔ d.step q a = some p := by
  cases h : d.step q a with
  | none =>
      rw [(hd.step_eq_none_iff q a).mp h]
      exact iff_of_false (Set.notMem_empty p) (Option.some_ne_none p).symm
  | some r =>
      rw [(hd.step_eq_some_iff q a r).mp h, Set.mem_singleton_iff, Option.some.injEq, eq_comm]

theorem describedBy_of_ofNfa (hn : n.DescribedBy l) (hl : l.Visible) (h : ofNfa n = .ok d) :
    d.DescribedBy l := by
  obtain rfl := ofNfa_eq_ok_iff.mp h
  have hstep : ∀ q a p, p ∈ l.targetsOf q a ↔ d.step q a = some p := fun q a p =>
    (hn.mem_targetsOf_iff hl q a p).symm.trans mem_targets_toNfa
  refine ⟨d.states_toNfa ▸ hn.states_eq, hn.start_eq, hn.mem_finals_iff, fun q a p => ?_,
    fun q a => ?_⟩
  · constructor
    · intro h
      ext r
      rw [hstep, h, Option.some.injEq, Set.mem_singleton_iff, eq_comm]
    · intro h
      rw [← hstep, h]
      exact Set.mem_singleton p
  · rw [Option.eq_none_iff_forall_ne_some, Set.eq_empty_iff_forall_notMem]
    exact forall_congr' fun p => not_congr (hstep q a p).symm

/-- A nondeterministic automaton is taken if its description leaves nothing open. -/
theorem ofNfa_eq_ok_iff_describedBy (hn : n.DescribedBy l) (hl : l.Visible) :
    ofNfa n = .ok d ↔ (∀ q a, ¬ l.LeavesOpen q a) ∧ d.DescribedBy l := by
  constructor
  · intro h
    refine ⟨fun q => (hn.determined_iff hl q).mp ?_, describedBy_of_ofNfa hn hl h⟩
    rw [← ofNfa_eq_ok_iff.mp h]
    exact d.determined_toNfa q
  · rintro ⟨hnothing, hd⟩
    obtain ⟨e, he⟩ :=
      exists_ofNfa_eq_ok_iff.mpr fun q _ => (hn.determined_iff hl q).mpr (hnothing q)
    rw [he, hd.unique (describedBy_of_ofNfa hn hl he)]

/-- Otherwise the fault is what is left open first. -/
theorem ofNfa_eq_error_iff_firstOpen (hn : n.DescribedBy l) (hl : l.Visible) :
    ofNfa n = .error f ↔
      ∃ q a, l.FirstOpen q a ∧ f = .nonDeterministic q a (l.targetsOf q a).ncard := by
  rw [ofNfa_eq_error_iff]
  simp only [hn.determined_iff hl, hn.charged_iff hl]
  constructor
  · rintro ⟨q, _, hbefore, a, hopen, hle, rfl⟩
    refine ⟨q, a, ⟨hopen, fun p b hp => ?_, hle⟩, rfl⟩
    exact Nat.le_of_not_lt fun hlt => hbefore p hlt b hp
  · rintro ⟨q, a, h, rfl⟩
    refine ⟨q, ?_, fun p hlt b hp => ?_, a, h.leavesOpen, h.symbol_le, rfl⟩
    · -- a symbol that is mentioned is remembered, and only states remember any
      by_contra hq
      have hremembers := (hn.remembers_iff_mentions hl q a).mpr h.leavesOpen.1
      rw [Nfa.node_eq_default (Nat.le_of_not_lt hq)] at hremembers
      cases hremembers
    · exact Nat.not_lt.mpr (h.origin_le p b hp) hlt

/-! ## The verdict -/

/-- What becomes of a description, case by case. -/
inductive Verdict (l : Description σ) : Except (Fault σ) (Dfa σ) → Prop where
  | silent {before after : List (Entry σ)} {e : Entry σ} : l.entries = before ++ e :: after →
    (∀ e' ∈ before, ¬ e'.Silent) → e.Silent → Verdict l (.error (.epsilonTransition e.origin))
  | faulty {f : Fault σ} : l.Visible → Nfa.build l = .error f → Verdict l (.error f)
  | undetermined {n : Nfa σ} {q : State} {a : σ} : l.Visible → Nfa.build l = .ok n →
    l.FirstOpen q a → Verdict l (.error (.nonDeterministic q a (l.targetsOf q a).ncard))
  | made {n : Nfa σ} {d : Dfa σ} : l.Visible → Nfa.build l = .ok n →
    (∀ q a, ¬ l.LeavesOpen q a) → d.DescribedBy l → Verdict l (.ok d)

theorem build_of_visible (hl : l.Visible) : build l = Nfa.build l >>= ofNfa :=
  build_eq_bind fun e he hsilent => hl e he (Entry.silent_iff.mpr hsilent)

theorem build_of_silent {before after : List (Entry σ)} {e : Entry σ}
    (h : l.entries = before ++ e :: after) (hbefore : ∀ e' ∈ before, ¬ e'.Silent)
    (he : e.Silent) : build l = .error (.epsilonTransition e.origin) := by
  have hfind : (l.entries.find? fun e => (Alphabet.visible? e.label).isNone) = some e := by
    refine List.find?_eq_some_iff_append.mpr ⟨?_, before, after, h, fun e' he' => ?_⟩
    · rw [Entry.silent_iff.mp he, Option.isNone_none]
    · rw [Bool.not_eq_true', Option.isNone_eq_false_iff, Option.isSome_iff_ne_none]
      exact mt Entry.silent_iff.mpr (hbefore e' he')
  rw [build, hfind]

theorem Verdict.build_eq (h : Verdict l r) : build l = r := by
  cases h with
  | silent h hbefore he => exact build_of_silent h hbefore he
  | faulty hl hf =>
      rw [build_of_visible hl, hf]
      rfl
  | undetermined hl hn hopen =>
      rw [build_of_visible hl, hn]
      exact (ofNfa_eq_error_iff_firstOpen (Nfa.describedBy_of_build hn) hl).mpr ⟨_, _, hopen, rfl⟩
  | made hl hn hnothing hd =>
      rw [build_of_visible hl, hn]
      exact (ofNfa_eq_ok_iff_describedBy (Nfa.describedBy_of_build hn) hl).mpr ⟨hnothing, hd⟩

/-- The cases are all that there are. -/
theorem verdict_build (l : Description σ) : Verdict l (build l) := by
  classical
  by_cases hl : l.Visible
  · cases hn : Nfa.build l with
    | error f =>
        have hverdict := Verdict.faulty hl hn
        rwa [hverdict.build_eq]
    | ok n =>
        have hdescribed := Nfa.describedBy_of_build hn
        have hbuild : build l = ofNfa n := by
          rw [build_of_visible hl, hn]
          rfl
        rw [hbuild]
        cases h : ofNfa n with
        | error f =>
            obtain ⟨q, a, hopen, rfl⟩ := (ofNfa_eq_error_iff_firstOpen hdescribed hl).mp h
            exact .undetermined hl hn hopen
        | ok d =>
            obtain ⟨hnothing, hd⟩ := (ofNfa_eq_ok_iff_describedBy hdescribed hl).mp h
            exact .made hl hn hnothing hd
  · -- some entry is silent, so there is a first one
    obtain ⟨e, hfind⟩ : ∃ e, l.entries.find? (decide <| Entry.Silent ·) = some e := by
      rw [← Option.isSome_iff_exists, List.find?_isSome]
      unfold Description.Visible at hl
      push Not at hl
      simpa using hl
    obtain ⟨he, before, after, h, hbefore⟩ := List.find?_eq_some_iff_append.mp hfind
    have hverdict := Verdict.silent h (by simpa using hbefore) (of_decide_eq_true he)
    rwa [hverdict.build_eq]

theorem build_eq_iff_verdict : build l = r ↔ Verdict l r := by
  constructor
  · rintro rfl
    exact verdict_build l
  · exact Verdict.build_eq

/-- An automaton is made just if nothing of the three kinds goes wrong. -/
theorem exists_build_eq_ok_iff : (∃ d, build l = .ok d) ↔
    l.Visible ∧ (∃ n, Nfa.build l = .ok n) ∧ ∀ q a, ¬ l.LeavesOpen q a := by
  constructor
  · rintro ⟨d, hd⟩
    cases build_eq_iff_verdict.mp hd with
    | made hl hn hnothing _ => exact ⟨hl, ⟨_, hn⟩, hnothing⟩
  · rintro ⟨hl, ⟨n, hn⟩, hnothing⟩
    have hdescribed := Nfa.describedBy_of_build hn
    obtain ⟨d, hd⟩ :=
      exists_ofNfa_eq_ok_iff.mpr fun q _ => (hdescribed.determined_iff hl q).mpr (hnothing q)
    refine ⟨d, ?_⟩
    rw [build_of_visible hl, hn]
    exact hd

theorem build_eq_of_saysSame {l' : Description σ} (h : l.SaysSame l') (hl : l.Visible)
    (hn : Nfa.build l = .ok n) : build l' = build l := by
  rw [build_of_visible (h.visible hl), build_of_visible hl, hn, Nfa.build_of_saysSame h hn]

/-- A table is a description, and leaves nothing open if its moves are functional. -/
theorem exists_ofTable_eq_ok_iff {states : Nat} {finals : List State} {moves : List (Move σ)}
    {start : State} : (∃ d, ofTable states finals moves start = .ok d) ↔
      (start < states ∧ (∀ q ∈ finals, q < states) ∧
        ∀ m ∈ moves, m.origin < states ∧ m.target < states) ∧
      (∀ m ∈ moves, Alphabet.isEpsilon m.symbol = false) ∧ Move.Functional moves := by
  have hbuild : ofTable states finals moves start =
      build (.tabulated states finals moves start) := rfl
  rw [hbuild, exists_build_eq_ok_iff, Nfa.exists_build_eq_ok_iff,
    Description.visible_tabulated_iff, Description.not_leavesOpen_tabulated_iff, and_left_comm]
  exact and_congr_left' (and_congr_right' Description.named_tabulated_lt_iff)

theorem step_of_ofTable {states : Nat} {finals : List State} {moves : List (Move σ)}
    {start : State} (h : ofTable states finals moves start = .ok d) (q : State) (a : σ)
    (p : State) : d.step q a = some p ↔ ⟨q, a, p⟩ ∈ moves := by
  have hbuild : build (.tabulated states finals moves start) = .ok d := h
  cases build_eq_iff_verdict.mp hbuild with
  | made _ _ _ hd =>
      rw [← hd.mem_targetsOf_iff, Description.targetsOf_tabulated]
      rfl

/-- **Deciding determinism.** What becomes of a description is what the cases of
`Verdict` say, and these are all. Without silent entries and numbers that name
no state, entries may be exchanged, divided or repeated. A table is a description
of entries with one target each: an automaton is made of it just if its numbers
name states, its symbols consume something and its moves are functional, and it
then has these moves. -/
theorem build_decides_determinism (l : Description σ) (states : Nat) (finals : List State)
    (moves : List (Move σ)) (start : State) :
    (∀ r, build l = r ↔ Verdict l r) ∧
    (∀ l', l.SaysSame l' → l.Visible → (∃ n, Nfa.build l = .ok n) → build l' = build l) ∧
    (∀ r, ofTable states finals moves start = r ↔
      Verdict (.tabulated states finals moves start) r) ∧
    ((∃ d, ofTable states finals moves start = .ok d) ↔
      (start < states ∧ (∀ q ∈ finals, q < states) ∧
        ∀ m ∈ moves, m.origin < states ∧ m.target < states) ∧
      (∀ m ∈ moves, Alphabet.isEpsilon m.symbol = false) ∧ Move.Functional moves) ∧
    ∀ d, ofTable states finals moves start = .ok d →
      ∀ q a p, d.step q a = some p ↔ ⟨q, a, p⟩ ∈ moves := by
  refine ⟨fun r => build_eq_iff_verdict, fun l' hsame hl hn => ?_,
    fun r => build_eq_iff_verdict, exists_ofTable_eq_ok_iff, fun d hd => step_of_ofTable hd⟩
  obtain ⟨n, hn⟩ := hn
  exact build_eq_of_saysSame hsame hl hn

/-- Two entries agree, two others do not, and one has no target. -/
def conflicting : Description String :=
  ⟨2, [1], [⟨1, some "b", []⟩, ⟨0, some "b", [1]⟩, ⟨0, some "a", [0]⟩, ⟨0, some "b", [1]⟩,
    ⟨0, some "a", [1, 0]⟩], 0⟩

/-- The same entries in another order. -/
def conflictingReversed : Description String :=
  { conflicting with entries := conflicting.entries.reverse }

theorem ncard_targetsOf_conflicting : (conflicting.targetsOf 0 "a").ncard = 2 := by
  have htargets : conflicting.targetsOf 0 "a" = {0, 1} := by
    ext p
    simp [Description.targetsOf, conflicting]
    tauto
  rw [htargets]
  exact Set.ncard_pair Nat.zero_ne_one

theorem firstOpen_conflicting : conflicting.FirstOpen 0 "a" := by
  refine ⟨⟨⟨⟨0, some "a", [0]⟩, by simp [conflicting], rfl, rfl⟩, ?_⟩, fun p _ _ => Nat.zero_le p,
    ?_⟩
  · rw [ncard_targetsOf_conflicting]
    decide
  · rintro b ⟨⟨e, he, _, hlabel⟩, _⟩
    have hlabels : ∀ e ∈ conflicting.entries, e.label = some "a" ∨ e.label = some "b" := by decide
    rcases hlabels e he with h | h
    · obtain rfl := Option.some.inj (h.symm.trans hlabel)
      decide
    · obtain rfl := Option.some.inj (h.symm.trans hlabel)
      decide

theorem conflicting_build : conflicting.SaysSame conflictingReversed ∧
    build conflictingReversed = .error (.nonDeterministic 0 "a" 2) ∧
    ∃ d, ofTable 2 [1] [⟨0, "a", 1⟩, ⟨1, "b", 0⟩, ⟨0, "a", 1⟩] 0 = .ok d ∧
      d.step 0 "a" = some 1 := by
  obtain ⟨hverdict, hsame, _, htable, hstep⟩ := build_decides_determinism conflicting 2 [1]
    [⟨0, "a", 1⟩, ⟨1, "b", 0⟩, ⟨0, "a", 1⟩] 0
  have hequal : conflicting.SaysSame conflictingReversed :=
    ⟨rfl, rfl, fun _ => Iff.rfl, .perm (List.reverse_perm _).symm⟩
  have hvisible : conflicting.Visible := by
    simp [Description.Visible, conflicting, Entry.Silent, Alphabet.isEpsilon]
  have hbuild := (hverdict _).mpr (.undetermined hvisible rfl firstOpen_conflicting)
  rw [ncard_targetsOf_conflicting] at hbuild
  obtain ⟨d, hd⟩ := htable.mpr
    ⟨by decide, by simp [Alphabet.isEpsilon], by simp [Move.Functional]⟩
  exact ⟨hequal, (hsame _ hequal hvisible ⟨_, rfl⟩).trans hbuild, d, hd,
    (hstep d hd 0 "a" 1).mpr (by simp)⟩

end Dfa

end FiniteState
