import FiniteState.Proofs.Nfa.Reading

/-!
# What a description says

When a description makes no automaton, and which one it makes otherwise. It has
a fault if a number in it names no state, and the fault that is found is the
first one in the order of reading (`build_eq_error_iff`). Without a fault its
automaton is described by it: the moves of a state under a label are those that
some entry names, in whatever order entries come and however many say so
(`DescribedBy`).

No two automata are described by one description (`DescribedBy.unique`). What
`DescribedBy` asks of entries is that there is one of some kind, and this does
not change when entries are exchanged, divided or repeated
(`Rearranged.exists_iff`); so the automaton does not change either.
-/

namespace FiniteState

/-! ## Entries, rearranged -/

namespace Entry

variable {σ : Type} {l m : List (Entry σ)}

/-- Entries are exchanged, divided among entries for some of the targets each, or
repeated, any number of times and backwards as well. -/
inductive Rearranged : List (Entry σ) → List (Entry σ) → Prop where
  | perm {l m : List (Entry σ)} : l.Perm m → Rearranged l m
  | divided (origin : State) (label : Option σ) (s t : List State) (l : List (Entry σ)) :
    Rearranged (⟨origin, label, s ++ t⟩ :: l) (⟨origin, label, s⟩ :: ⟨origin, label, t⟩ :: l)
  | repeated {e : Entry σ} {l : List (Entry σ)} : e ∈ l → Rearranged l (e :: l)
  | symm {l m : List (Entry σ)} : Rearranged l m → Rearranged m l
  | trans {l m k : List (Entry σ)} : Rearranged l m → Rearranged m k → Rearranged l k

/-- Whether there is an entry of some kind stays the same, if an entry is of that
kind just if one of its parts is. -/
theorem Rearranged.exists_iff {P : Entry σ → Prop}
    (hP : ∀ origin label s t,
      P ⟨origin, label, s ++ t⟩ ↔ P ⟨origin, label, s⟩ ∨ P ⟨origin, label, t⟩)
    (h : Rearranged l m) : (∃ e ∈ l, P e) ↔ ∃ e ∈ m, P e := by
  induction h with
  | perm h => exact exists_congr fun e => and_congr_left' h.mem_iff
  | divided origin label s t l =>
      simp only [List.mem_cons, exists_eq_or_imp, hP, or_assoc]
  | @repeated e l he =>
      simp only [List.mem_cons, exists_eq_or_imp]
      exact ⟨.inr, fun h => h.elim (fun hPe => ⟨e, he, hPe⟩) id⟩
  | symm _ ih => exact ih.symm
  | trans _ _ ih ih' => exact ih.trans ih'

/-- An entry that consumes nothing: it has no label, or an epsilon symbol. -/
def Silent [Alphabet σ] (e : Entry σ) : Prop :=
  e.label = none ∨ ∃ a, e.label = some a ∧ Alphabet.isEpsilon a = true

theorem silent_iff [Alphabet σ] {e : Entry σ} : e.Silent ↔ Alphabet.visible? e.label = none := by
  unfold Silent Alphabet.visible?
  cases e.label with
  | none => simp
  | some a => simp

end Entry

namespace Description

variable {σ : Type} {d d' : Description σ} {f : Fault σ}

/-! ## Faults -/

/-- The fault of a description that is met first: it has no state, or its start
is none of its states, or else a number that names no state, where all numbers
before it do. Accepting states come first, then every entry with its origin
before its targets. -/
inductive FirstFault (d : Description σ) : Fault σ → Prop where
  | noStates : d.states = 0 → FirstFault d .noStates
  | start : d.states ≠ 0 → d.states ≤ d.start → FirstFault d (.startOutOfRange d.start d.states)
  | named {before after : List State} {q : State} : d.start < d.states →
    (d.finals ++ d.entries.flatMap fun e => e.origin :: e.targets) = before ++ q :: after →
    (∀ p ∈ before, p < d.states) → d.states ≤ q → FirstFault d (.stateOutOfRange q d.states)

theorem fault?_eq_some_iff : d.fault? = some f ↔ d.FirstFault f := by
  unfold fault?
  by_cases hnone : d.states = 0
  · rw [if_pos hnone]
    constructor
    · rintro ⟨⟩
      exact .noStates hnone
    · rintro (_ | ⟨hstates, _⟩ | ⟨hstart, _⟩)
      · rfl
      · exact absurd hnone hstates
      · exact absurd hstart (hnone ▸ Nat.not_lt_zero _)
  rw [if_neg hnone]
  by_cases hstart : d.states ≤ d.start
  · rw [if_pos hstart]
    constructor
    · rintro ⟨⟩
      exact .start hnone hstart
    · rintro (hzero | _ | ⟨hlt, _⟩)
      · exact absurd hzero hnone
      · rfl
      · exact absurd hlt (Nat.not_lt.mpr hstart)
  rw [if_neg hstart, Option.map_eq_some_iff]
  constructor
  · rintro ⟨q, hq, rfl⟩
    obtain ⟨hmissing, before, after, hnamed, hbefore⟩ := List.find?_eq_some_iff_append.mp hq
    refine .named (Nat.lt_of_not_le hstart) hnamed (fun p hp => ?_) (of_decide_eq_true hmissing)
    simpa using hbefore p hp
  · rintro (hzero | ⟨_, hle⟩ | ⟨_, hnamed, hbefore, hmissing⟩)
    · exact absurd hzero hnone
    · exact absurd hle hstart
    · refine ⟨_, List.find?_eq_some_iff_append.mpr ?_, rfl⟩
      exact ⟨decide_eq_true hmissing, _, _, hnamed, fun p hp => by simpa using hbefore p hp⟩

theorem origin_lt (h : d.fault? = none) {e : Entry σ} (he : e ∈ d.entries) :
    e.origin < d.states :=
  (fault?_eq_none_iff.mp h).2 _ <| List.mem_append_right _ <|
    List.mem_flatMap.mpr ⟨e, he, List.mem_cons_self⟩

/-- The descriptions have the same states, start and accepting states, and the
same entries up to rearrangement. -/
structure SaysSame (d d' : Description σ) : Prop where
  states_eq : d'.states = d.states
  start_eq : d'.start = d.start
  mem_finals_iff : ∀ q, q ∈ d'.finals ↔ q ∈ d.finals
  rearranged : Entry.Rearranged d.entries d'.entries

theorem SaysSame.mem_named_iff (h : d.SaysSame d') (q : State) : q ∈ d'.named ↔ q ∈ d.named := by
  rw [named, named, List.mem_append, List.mem_append, h.mem_finals_iff, List.mem_flatMap,
    List.mem_flatMap, h.rearranged.exists_iff fun origin label s t => ?_]
  simp only [List.mem_cons, List.mem_append]
  tauto

theorem SaysSame.fault?_eq_none_iff (h : d.SaysSame d') : d'.fault? = none ↔ d.fault? = none := by
  rw [Description.fault?_eq_none_iff, Description.fault?_eq_none_iff, h.states_eq, h.start_eq]
  simp only [h.mem_named_iff]

end Description

namespace Nfa

variable {σ : Type} [Alphabet σ] {n m : Nfa σ} {d d' : Description σ} {f : Fault σ}

/-! ## Automata and their descriptions -/

/-- The automaton has what some entry of the description says, and nothing else.
A symbol is remembered if it is the label of an entry, with targets or without. -/
structure DescribedBy (n : Nfa σ) (d : Description σ) : Prop where
  states_eq : n.states = d.states
  start_eq : n.start = d.start
  mem_finals_iff : ∀ q, q ∈ n.finals ↔ q ∈ d.finals
  mem_targets_iff : ∀ q a, Alphabet.isEpsilon a = false → ∀ p, p ∈ Machine.targets n q a ↔
    ∃ e ∈ d.entries, e.origin = q ∧ e.label = some a ∧ p ∈ e.targets
  mem_epsilonTargets_iff : ∀ q p, p ∈ Machine.epsilonTargets n q ↔
    ∃ e ∈ d.entries, e.origin = q ∧ e.Silent ∧ p ∈ e.targets
  mem_vocabulary_iff : ∀ a, a ∈ n.vocabulary ↔
    Alphabet.isEpsilon a = false ∧ ∃ e ∈ d.entries, e.label = some a ∧ e.targets ≠ []
  remembers_iff : ∀ q a, (n.node q).Remembers a ↔
    Alphabet.isEpsilon a = false ∧ ∃ e ∈ d.entries, e.origin = q ∧ e.label = some a

/-- What entries bring about in a node, no node has in the beginning, and no entry
is about a number past the last state. So a node has it just if an entry says so. -/
theorem node_assemble_iff (h : d.fault? = none) {P : Node σ → Prop} {Q : Entry σ → Prop}
    (hdefault : ¬ P default)
    (hadd : ∀ (v : Node σ) (e : Entry σ), P (v.add e.label e.targets) ↔ Q e ∨ P v) (q : State) :
    P ((assemble d).node q) ↔ ∃ e ∈ d.entries, e.origin = q ∧ Q e := by
  rcases Nat.lt_or_ge q d.states with hq | hq
  · rw [node_assemble hq, Node.addAll_iff hadd]
    refine (or_iff_left hdefault).trans (exists_congr fun e => ?_)
    rw [List.mem_filter, decide_eq_true_iff, and_assoc]
  · rw [node_eq_default ((states_assemble d).symm ▸ hq)]
    refine iff_of_false hdefault ?_
    rintro ⟨e, he, rfl, _⟩
    exact absurd (d.origin_lt h he) (Nat.not_lt.mpr hq)

/-- What a description without fault makes is described by it. -/
theorem describedBy_assemble (h : d.fault? = none) : (assemble d).DescribedBy d := by
  have htargets : ∀ q a p, p ∈ ((assemble d).node q).targets a ↔
      ∃ e ∈ d.entries, e.origin = q ∧ Alphabet.visible? e.label = some a ∧ p ∈ e.targets :=
    fun q a p => node_assemble_iff h (P := fun v => p ∈ v.targets a) SortedSet.not_mem_empty
      (fun _ _ => Node.mem_targets_add) q
  have hremembers : ∀ q a, ((assemble d).node q).Remembers a ↔
      ∃ e ∈ d.entries, e.origin = q ∧ Alphabet.visible? e.label = some a :=
    fun q a => node_assemble_iff h (P := fun v => v.Remembers a) (fun hnot => nomatch hnot)
      (fun _ _ => Node.remembers_add) q
  refine ⟨states_assemble d, rfl, fun q => SortedSet.mem_ofList, fun q a ha p => ?_,
    fun q p => ?_, fun a => ?_, fun q a => ?_⟩
  · change p ∈ ((assemble d).node q).targets a ↔ _
    simp only [htargets, Alphabet.visible?_eq_some_iff, ha, and_true]
  · simp only [Entry.silent_iff]
    exact node_assemble_iff h (P := fun v => p ∈ v.epsilon) SortedSet.not_mem_empty
      (fun _ _ => Node.mem_epsilon_add) q
  · rw [mem_vocabulary_iff]
    simp only [htargets, Alphabet.visible?_eq_some_iff]
    constructor
    · rintro ⟨_, p, e, he, _, ⟨hlabel, ha⟩, hp⟩
      exact ⟨ha, e, he, hlabel, List.ne_nil_of_mem hp⟩
    · rintro ⟨ha, e, he, hlabel, hne⟩
      obtain ⟨p, hp⟩ := List.exists_mem_of_ne_nil _ hne
      exact ⟨e.origin, p, e, he, rfl, ⟨hlabel, ha⟩, hp⟩
  · rw [hremembers]
    simp only [Alphabet.visible?_eq_some_iff]
    tauto

/-- No two automata are described by one description. -/
theorem DescribedBy.unique (hn : n.DescribedBy d) (hm : m.DescribedBy d) : n = m := by
  have hremembers : ∀ q a, (n.node q).Remembers a ↔ (m.node q).Remembers a := fun q a =>
    (hn.remembers_iff q a).trans (hm.remembers_iff q a).symm
  have hnodes : n.nodes = m.nodes := by
    refine Array.ext (hn.states_eq.trans hm.states_eq.symm) fun q hqn hqm => ?_
    rw [getElem_nodes hqn, getElem_nodes hqm]
    refine Node.eq_of_same (SortedSet.ext fun p => ?_) (fun a => ?_) (hremembers q)
    · exact (hn.mem_epsilonTargets_iff q p).trans (hm.mem_epsilonTargets_iff q p).symm
    · by_cases ha : Alphabet.isEpsilon a = true
      -- an epsilon symbol has no row on either side
      · have hnot : ¬ (n.node q).Remembers a := fun h =>
          Bool.false_ne_true (((hn.remembers_iff q a).mp h).1.symm.trans ha)
        rw [Node.targets_of_not_remembers hnot,
          Node.targets_of_not_remembers (mt (hremembers q a).mpr hnot)]
      · have ha := Bool.eq_false_iff.mpr ha
        exact SortedSet.ext fun p =>
          (hn.mem_targets_iff q a ha p).trans (hm.mem_targets_iff q a ha p).symm
  have hfinals : n.finals = m.finals := SortedSet.ext fun q =>
    (hn.mem_finals_iff q).trans (hm.mem_finals_iff q).symm
  have hstart : n.start = m.start := hn.start_eq.trans hm.start_eq.symm
  cases n
  cases m
  cases hnodes
  cases hstart
  cases hfinals
  rfl

/-- An automaton is described by everything that says the same. -/
theorem DescribedBy.of_saysSame (hn : n.DescribedBy d) (h : d.SaysSame d') :
    n.DescribedBy d' where
  states_eq := hn.states_eq.trans h.states_eq.symm
  start_eq := hn.start_eq.trans h.start_eq.symm
  mem_finals_iff q := (hn.mem_finals_iff q).trans (h.mem_finals_iff q).symm
  mem_targets_iff q a ha p := (hn.mem_targets_iff q a ha p).trans <|
    h.rearranged.exists_iff fun _ _ _ _ => by simp only [List.mem_append, and_or_left]
  mem_epsilonTargets_iff q p := (hn.mem_epsilonTargets_iff q p).trans <|
    h.rearranged.exists_iff fun _ _ _ _ => by
      simp only [Entry.Silent, List.mem_append, and_or_left]
  mem_vocabulary_iff a := (hn.mem_vocabulary_iff a).trans <| and_congr_right' <|
    h.rearranged.exists_iff fun _ _ _ _ => by
      simp only [ne_eq, List.append_eq_nil_iff, not_and_or, and_or_left]
  remembers_iff q a := (hn.remembers_iff q a).trans <| and_congr_right' <|
    h.rearranged.exists_iff fun _ _ _ _ => (or_self_iff).symm

/-! ## What is made -/

theorem build_eq_error_iff : build d = .error f ↔ d.FirstFault f := by
  rw [← Description.fault?_eq_some_iff, build]
  cases d.fault? with
  | none => simp
  | some g => simp

theorem build_eq_ok_iff_describedBy :
    build d = .ok n ↔ d.fault? = none ∧ n.DescribedBy d := by
  rw [build_eq_ok_iff]
  refine and_congr_right fun h => ⟨?_, (describedBy_assemble h).unique⟩
  rintro rfl
  exact describedBy_assemble h

theorem describedBy_of_build (h : build d = .ok n) : n.DescribedBy d :=
  (build_eq_ok_iff_describedBy.mp h).2

theorem exists_build_eq_ok_iff :
    (∃ n, build d = .ok n) ↔ d.start < d.states ∧ ∀ q ∈ d.named, q < d.states := by
  rw [← Description.fault?_eq_none_iff]
  constructor
  · rintro ⟨n, hn⟩
    exact (build_eq_ok_iff.mp hn).1
  · exact fun h => ⟨assemble d, build_eq_ok_iff.mpr ⟨h, rfl⟩⟩

theorem build_of_saysSame (h : d.SaysSame d') (hn : build d = .ok n) : build d' = .ok n := by
  obtain ⟨hnone, hdescribed⟩ := build_eq_ok_iff_describedBy.mp hn
  exact build_eq_ok_iff_describedBy.mpr
    ⟨h.fault?_eq_none_iff.mpr hnone, hdescribed.of_saysSame h⟩

/-- **Reading a description.** Making an automaton fails with the first fault of
its description and not otherwise. It succeeds just if the start and all numbers
in the description name states, and what is made then has what the entries say and
nothing else. Whether numbers are checked before everything or one by one while
the automaton is made comes to the same. Entries that are exchanged, divided or
repeated make the same automaton. -/
theorem build_reads_description (d : Description σ) :
    (∀ f, build d = .error f ↔ d.FirstFault f) ∧
    (∀ n, build d = .ok n ↔
      (d.start < d.states ∧ ∀ q ∈ d.named, q < d.states) ∧ n.DescribedBy d) ∧
    ((∃ n, build d = .ok n) ↔ d.start < d.states ∧ ∀ q ∈ d.named, q < d.states) ∧
    buildInOrder d = build d ∧
    ∀ d', d.SaysSame d' → ∀ n, build d = .ok n → build d' = .ok n := by
  refine ⟨fun f => build_eq_error_iff, fun n => ?_, exists_build_eq_ok_iff, buildInOrder_eq d,
    fun d' hsame n hn => build_of_saysSame hsame hn⟩
  rw [build_eq_ok_iff_describedBy, Description.fault?_eq_none_iff]

/-- An epsilon entry, two targets under one symbol, and a symbol without any. -/
def terse : Description String :=
  ⟨2, [1], [⟨0, some "", [1]⟩, ⟨0, some "a", [0, 1]⟩, ⟨0, some "b", []⟩], 0⟩

/-- The same in another order, with one target each, and in part twice. -/
def verbose : Description String :=
  ⟨2, [1, 1], [⟨0, some "b", []⟩, ⟨0, some "a", [1]⟩, ⟨0, some "", [1]⟩, ⟨0, some "a", [0]⟩,
    ⟨0, some "", [1]⟩], 0⟩

theorem terse_saysSame_verbose : terse.SaysSame verbose := by
  refine ⟨rfl, rfl, fun q => by simp [terse, verbose], ?_⟩
  have hfront : terse.entries.Perm
      [⟨0, some "a", [0, 1]⟩, ⟨0, some "", [1]⟩, ⟨0, some "b", []⟩] := by decide
  refine .trans (.perm hfront) <| .trans (.divided 0 (some "a") [0] [1] _) <|
    .trans (.repeated (e := ⟨0, some "", [1]⟩) (by decide)) (.perm ?_)
  decide

theorem verbose_build : terse.SaysSame verbose ∧ build terse = .ok (assemble terse) ∧
    build verbose = .ok (assemble terse) := by
  obtain ⟨_, _, _, _, hsame⟩ := build_reads_description terse
  have hterse : build terse = .ok (assemble terse) := rfl
  exact ⟨terse_saysSame_verbose, hterse, hsame verbose terse_saysSame_verbose _ hterse⟩

end Nfa

end FiniteState
