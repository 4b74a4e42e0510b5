import FiniteState.Minimization
import FiniteState.Proofs.Partition

/-!
# Minimization keeps runs

The minimized automaton has one state for each class, numbered by
`classOf`, the place of the class in the list of all classes. Its rows
are those of the representatives only; but the members of a class are
indistinguishable, so the row of any member leads to the same classes
(`step_minimize`). From this one equation a run of the minimized
automaton is the run of the original one, read in classes
(`run_minimize`), and as a class lies in one block it accepts the same
words (`accepts_minimize`).

The classes are numbered in the order of their first states
(`exists_firstState`, `sorted_firstStates`).
-/

namespace FiniteState

namespace Dfa

open UnionFind

variable {σ : Type} [Alphabet σ] {d : Dfa σ} {separateFinals : Bool} {p q : State} {i j : Nat}

/-- The number of the class of a state: the place of the first class that
holds it in the list of the classes. -/
def classOf (separateFinals : Bool) (d : Dfa σ) (q : State) : Nat :=
  (d.partition separateFinals).value.classNumber q

/-- The smallest states of the classes, in the order of the classes. -/
def firstStates (separateFinals : Bool) (d : Dfa σ) : List State :=
  (d.partition separateFinals).value.firsts

/-! ## Classes -/

theorem classOf_eq_classOf_iff (hd : d.WellFormed) (hp : p < d.states) (hq : q < d.states) :
    d.classOf separateFinals p = d.classOf separateFinals q ↔
      d.Indistinguishable separateFinals p q := by
  obtain ⟨⟨hsound, he⟩, hjoined⟩ := partitions_partition hd separateFinals
  rw [classOf, classOf, hsound.classNumber_eq_classNumber_iff (he ▸ hp) (he ▸ hq),
    hjoined p q hp hq]

theorem exists_group_iff (hd : d.WellFormed) (hq : q < d.states) :
    (∃ group, (d.partition separateFinals).value.groups.1[i]? = some group ∧ q ∈ group) ↔
      d.classOf separateFinals q = i := by
  obtain ⟨⟨hsound, he⟩, _⟩ := partitions_partition hd separateFinals
  exact hsound.exists_group_iff (he ▸ hq)

theorem classOf_lt (hd : d.WellFormed) (separateFinals : Bool) (hq : q < d.states) :
    d.classOf separateFinals q < (d.firstStates separateFinals).length := by
  obtain ⟨⟨hsound, he⟩, _⟩ := partitions_partition hd separateFinals
  rw [classOf, firstStates]
  exact hsound.classNumber_lt (he ▸ hq)

/-- A class has a first state, and this is the smallest one in it. -/
theorem exists_firstState (hd : d.WellFormed) (hi : i < (d.firstStates separateFinals).length) :
    ∃ f, (d.firstStates separateFinals)[i]? = some f ∧ f < d.states ∧
      d.classOf separateFinals f = i ∧
        ∀ q, q < d.states → d.classOf separateFinals q = i → f ≤ q := by
  obtain ⟨⟨hsound, he⟩, _⟩ := partitions_partition hd separateFinals
  simp only [classOf, firstStates] at hi ⊢
  obtain ⟨f, hf⟩ : ∃ f, (d.partition separateFinals).value.firsts[i]? = some f :=
    ⟨_, List.getElem?_eq_getElem hi⟩
  have hmem := List.mem_of_getElem? hf
  have hlt := lt_of_mem_firsts hmem
  refine ⟨f, hf, he ▸ hlt, (hsound.classNumber_eq_iff hlt).mpr ⟨f, hf, rfl⟩, ?_⟩
  intro q hq hclass
  obtain ⟨f', hf', hjoined⟩ := (hsound.classNumber_eq_iff (he ▸ hq)).mp hclass
  obtain rfl := Option.some.inj (hf.symm.trans hf')
  exact first_le hmem (he ▸ hq) hjoined

theorem firstState_spec (hd : d.WellFormed) (hp : p ∈ d.firstStates separateFinals) :
    p < d.states ∧ ∀ q, q < d.states →
      d.classOf separateFinals q = d.classOf separateFinals p → p ≤ q := by
  obtain ⟨i, hi⟩ := List.mem_iff_getElem?.mp hp
  obtain ⟨f, hf, hlt, rfl, hle⟩ := exists_firstState hd (List.getElem?_eq_some_iff.mp hi).1
  obtain rfl := Option.some.inj (hi.symm.trans hf)
  exact ⟨hlt, hle⟩

theorem sorted_firstStates (separateFinals : Bool) (d : Dfa σ) :
    (d.firstStates separateFinals).Pairwise (· < ·) := sorted_firsts _

/-! ## The collapsed automaton -/

/-- How the collapsed automaton is put together: rows are those of some
members of the classes, and targets are numbered by their classes. -/
theorem Partitions.quotient {u : UnionFind} (hu : Partitions u d) :
    ∃ number : State → Nat, (∀ q, q < d.states → number q = u.classNumber q) ∧
      d.quotient u.groups.1 u.groups.2.representatives.1 =
        { rows := (u.firsts.map fun f => (d.row (u.root f)).map number).toArray
          start := number d.start
          finals := d.finals.image number } := by
  obtain ⟨hgroups, hsame⟩ := hu.sound.groups
  refine ⟨fun q => (groupNumbers d.states u.groups.1).getD q 0, fun q hq => ?_, ?_⟩
  · rw [← hu.elements_eq] at hq ⊢
    exact hu.sound.getD_groupNumbers hq
  · have hrepresentatives : u.groups.2.representatives.1 = (u.firsts.map u.root).toArray := by
      rw [← @Array.toArray_toList _ u.groups.2.representatives.1, hgroups.representatives_eq,
        hsame.firsts_eq]
      exact congrArg _ (List.map_congr_left fun f _ => hsame.root_eq f)
    rw [Dfa.quotient, hrepresentatives]
    simp only [List.map_toArray, List.map_map, Function.comp_def]

theorem minimize_eq (hd : d.WellFormed) (separateFinals : Bool) :
    ∃ number : State → Nat, (∀ q, q < d.states → number q = d.classOf separateFinals q) ∧
      (d.minimize separateFinals).value =
        { rows := ((d.firstStates separateFinals).map fun f =>
            (d.row ((d.partition separateFinals).value.root f)).map number).toArray
          start := number d.start
          finals := d.finals.image number } := by
  obtain ⟨hu, _⟩ := partitions_partition hd separateFinals
  rw [minimize]
  simp only [classOf, firstStates]
  cases hp : d.partition separateFinals with
  | mk u events =>
      rw [hp] at hu
      exact hu.quotient

theorem states_minimize (hd : d.WellFormed) (separateFinals : Bool) :
    (d.minimize separateFinals).value.states = (d.firstStates separateFinals).length := by
  obtain ⟨_, _, hm⟩ := minimize_eq hd separateFinals
  rw [hm, states, List.size_toArray, List.length_map]

/-- The class moves as every one of its members does. -/
theorem step_minimize (hd : d.WellFormed) (hq : q < d.states) (a : σ) :
    (d.minimize separateFinals).value.step (d.classOf separateFinals q) a =
      (d.step q a).map (d.classOf separateFinals) := by
  obtain ⟨⟨hsound, he⟩, hjoined⟩ := partitions_partition hd separateFinals
  obtain ⟨number, hnumber, hm⟩ := minimize_eq hd separateFinals
  obtain ⟨f, hf, hqf⟩ := (hsound.classNumber_eq_iff (he ▸ hq)).mp rfl
  have hflt := lt_of_mem_firsts (List.mem_of_getElem? hf)
  obtain ⟨r, hroot⟩ : ∃ r, (d.partition separateFinals).value.root f = r := ⟨_, rfl⟩
  have hr : r < d.states := hroot ▸ he ▸ hsound.root_lt hflt
  -- the row is that of the root, which is indistinguishable from `q`
  have hrow : (d.minimize separateFinals).value.row (d.classOf separateFinals q) =
      (d.row r).map number := by
    rw [hm, row, Array.getD_eq_getD_getElem?, List.getElem?_toArray, List.getElem?_map,
      firstStates, classOf, hf, Option.map_some, Option.getD_some, hroot]
  have hrq : d.Indistinguishable separateFinals r q := by
    rw [← hjoined r q hr hq, ← hroot]
    exact (hsound.root_root f).trans hqf.symm
  rw [step, hrow, SortedMap.get?_map]
  refine map_eq_map_iff_rel.mpr (optionRel_imp (hrq.step a) fun r' q' hr' hq' halike => ?_)
  have hrlt := hd.step_lt r a r' hr'
  rw [hnumber r' hrlt, classOf_eq_classOf_iff hd hrlt (hd.step_lt q a q' hq')]
  exact halike

theorem start_minimize (hd : d.WellFormed) :
    (d.minimize separateFinals).value.start = d.classOf separateFinals d.start := by
  obtain ⟨_, hnumber, hm⟩ := minimize_eq hd separateFinals
  rw [hm]
  exact hnumber _ hd.start_lt

theorem mem_finals_minimize (hd : d.WellFormed) :
    i ∈ (d.minimize separateFinals).value.finals ↔
      ∃ q, q ∈ d.finals ∧ d.classOf separateFinals q = i := by
  obtain ⟨_, hnumber, hm⟩ := minimize_eq hd separateFinals
  rw [hm, SortedSet.mem_image]
  refine exists_congr fun q => and_congr_right fun hq => ?_
  rw [hnumber q (hd.finals_lt q hq)]

/-- A class is accepting if its members are. -/
theorem classOf_mem_finals_iff (hd : d.WellFormed) (hq : q < d.states) :
    d.classOf separateFinals q ∈ (d.minimize separateFinals).value.finals ↔ q ∈ d.finals := by
  rw [mem_finals_minimize hd]
  constructor
  · rintro ⟨p, hp, hclass⟩
    have halike := (classOf_eq_classOf_iff hd (hd.finals_lt p hp) hq).mp hclass
    have hblock : d.block separateFinals p = d.block separateFinals q :=
      Option.some.inj (halike [])
    rw [mem_finals_iff_block separateFinals, ← hblock]
    exact (mem_finals_iff_block separateFinals).mp hp
  · exact fun h => ⟨q, h, rfl⟩

theorem wellFormed_minimize (hd : d.WellFormed) (separateFinals : Bool) :
    (d.minimize separateFinals).value.WellFormed := by
  have hstates := states_minimize hd separateFinals
  constructor
  · rw [start_minimize hd, hstates]
    exact classOf_lt hd separateFinals hd.start_lt
  · intro i hi
    obtain ⟨q, hq, rfl⟩ := (mem_finals_minimize hd).mp hi
    rw [hstates]
    exact classOf_lt hd separateFinals (hd.finals_lt q hq)
  · intro i a j hij
    have hi := hstates ▸ lt_of_step hij
    obtain ⟨f, _, hf, rfl, _⟩ := exists_firstState hd hi
    rw [step_minimize hd hf] at hij
    obtain ⟨p, hp, rfl⟩ := Option.map_eq_some_iff.mp hij
    rw [hstates]
    exact classOf_lt hd separateFinals (hd.step_lt f a p hp)

/-! ## Runs -/

/-- The minimized automaton runs through the classes of the states that
the original one runs through. -/
theorem run_minimize (hd : d.WellFormed) (w : List σ) :
    (d.minimize separateFinals).value.run w = (d.run w).map (d.classOf separateFinals) := by
  rw [run, start_minimize hd]
  exact hd.runFrom_map (fun q a hq => step_minimize hd hq a) hd.start_lt w

theorem accepts_minimize (hd : d.WellFormed) (separateFinals : Bool) (w : List σ) :
    (d.minimize separateFinals).value.accepts w = d.accepts w := by
  rw [Bool.eq_iff_iff, accepts_iff, accepts_iff, run_minimize hd]
  constructor
  · rintro ⟨i, hi, hfinal⟩
    obtain ⟨q, hq, rfl⟩ := Option.map_eq_some_iff.mp hi
    exact ⟨q, hq, (classOf_mem_finals_iff hd (hd.run_lt hq)).mp hfinal⟩
  · rintro ⟨q, hq, hfinal⟩
    rw [hq]
    exact ⟨_, rfl, (classOf_mem_finals_iff hd (hd.run_lt hq)).mpr hfinal⟩

/-- A class is reached as soon as one of its members is. -/
theorem reachable_minimize (hd : d.WellFormed) (hreach : d.Reachable) (separateFinals : Bool) :
    (d.minimize separateFinals).value.Reachable := by
  intro i hi
  rw [states_minimize hd] at hi
  obtain ⟨f, _, hf, rfl, _⟩ := exists_firstState hd hi
  obtain ⟨w, hw⟩ := hreach f hf
  exact ⟨w, by rw [run_minimize hd, hw]; rfl⟩

/-- **Minimization preserves behaviour.** Whatever accepting states are
kept apart, a state lies in exactly one of the listed classes; the
minimized automaton reads a word exactly if the original one does, ends
in the class of the state in which that ends, and accepts the same words;
and a class moves as every one of its members does, not only as the one
whose row it was given. -/
theorem minimize_preserves_runs (hd : d.WellFormed) (separateFinals : Bool) :
    let m := (d.minimize separateFinals).value
    let groups := (d.partition separateFinals).value.groups.1
    let classOf := d.classOf separateFinals
    (∀ q, q < d.states → ∀ i, (∃ group, groups[i]? = some group ∧ q ∈ group) ↔ classOf q = i) ∧
      (∀ w, (m.run w).isSome = (d.run w).isSome ∧ m.run w = (d.run w).map classOf ∧
        m.accepts w = d.accepts w) ∧
      ∀ q a, q < d.states → m.step (classOf q) a = (d.step q a).map classOf := by
  refine ⟨fun q hq i => exists_group_iff hd hq, fun w => ⟨?_, run_minimize hd w, ?_⟩,
    fun q a hq => step_minimize hd hq a⟩
  · rw [run_minimize hd w, Option.isSome_map]
  · exact accepts_minimize hd separateFinals w

/-- Two ways to an accepting state, another state beside them that no run
reaches, and an unreachable state without a way out. -/
def diamond : Dfa Char where
  rows := #[⟨[('a', 1), ('b', 2)], by decide⟩, .singleton 'a' 3, .singleton 'a' 3, ∅,
    .singleton 'a' 3, .singleton 'b' 5]
  start := 0
  finals := .singleton 3

theorem minimize_diamond_runs :
    diamond.WellFormed ∧ (diamond.minimize true).value.accepts ['b', 'a'] = true ∧
      (diamond.minimize true).value.run ['b'] = some (diamond.classOf true 2) := by
  have hd : diamond.WellFormed := by decide
  have h := (minimize_preserves_runs hd true).2.1
  exact ⟨hd, (h ['b', 'a']).2.2.trans (by decide), (h ['b']).2.1⟩

end Dfa

end FiniteState
