import FiniteState.Proofs.Minimization
import FiniteState.Proofs.Pruning
import FiniteState.Proofs.Strict.Classes

/-!
# Pruning and minimization by strict look-ups

What is made of a deterministic automaton reads its rows, and tables that
are made on the way: new numbers, marks of accepting states, roots and
numbers of classes. A well-formed automaton names no state but its own, and
every table has an entry for each of these. So the strict constructions
succeed, with the results of the library's own
(`WellFormed.prune?_eq`, `Partitions.refine?_eq`, `WellFormed.minimize?_eq`).

A round of refinement succeeds for every partition of the states, not only
for those that rounds lead to. Rounds are counted here; as many as there are
states are more than enough, since each but the last makes a class more.
-/

namespace FiniteState

open UnionFind

namespace Dfa

variable {σ : Type} [Alphabet σ] {d : Dfa σ} {u : UnionFind} {p q : State}

theorem getElem?_rows (hq : q < d.states) : d.rows[q]? = some (d.row q) :=
  getElem?_eq_some_getD hq ∅

theorem WellFormed.lt_of_mem_values (hd : d.WellFormed) (hp : p ∈ (d.row q).values) :
    p < d.states := by
  obtain ⟨a, ha⟩ := SortedMap.mem_values.mp hp
  exact hd.step_lt q a p ha

/-! ## Pruning -/

def successors? (d : Dfa σ) (q : State) : Option (List State) := d.rows[q]?.map SortedMap.values

theorem getD_successors? (d : Dfa σ) : (fun q => (d.successors? q).getD []) = d.successors := by
  funext q
  rw [successors?, successors, row, Array.getD_eq_getD_getElem?]
  cases d.rows[q]? <;> rfl

theorem successors?_bounded (d : Dfa σ) : Search.Bounded fun q => (d.successors? q).getD [] :=
  d.getD_successors? ▸ d.successors_bounded

/-- The states in which some run ends. -/
def reachable? (d : Dfa σ) : Option StateSet := do
  let met ← Search.search? (Queue State) d.successors? d.successors?_bounded [d.start]
  return .ofList met.toList

/-- For every state its new number, if it is kept. -/
def renumbering? (states : Nat) (kept : List State) : Option (Array (Option Nat)) :=
  kept.zipIdx.foldlM (fun table (q, i) => write? table q (some i)) (.replicate states none)

/-- The automaton restricted to some of its states. -/
def restrict? (d : Dfa σ) (kept : StateSet) : Option (Dfa σ) := do
  let numbers ← renumbering? d.states kept.toList
  let rows ← kept.toList.mapM fun q => do
    let r ← d.rows[q]?
    r.filterMap? fun p => numbers[p]?
  let start ← numbers[d.start]?
  let finals ← d.finals.toList.mapM fun q => numbers[q]?
  return {
    rows := rows.toArray
    start := start.getD 0
    finals := .ofList (finals.filterMap id) }

def prune? (d : Dfa σ) : Option (Dfa σ) := do
  let kept ← d.reachable?
  d.restrict? kept

theorem WellFormed.reachable?_eq (hd : d.WellFormed) : d.reachable? = some d.reachable := by
  have hsame : ∀ (next : State → List State) (h : Search.Bounded next), next = d.successors →
      Search.search (Queue State) none next h [d.start] =
        Search.search (Queue State) none d.successors d.successors_bounded [d.start] := by
    rintro _ _ rfl
    rfl
  have hnext : ∀ q, q < d.states → ∃ l, d.successors? q = some l ∧ ∀ p ∈ l, p < d.states := by
    intro q hq
    refine ⟨(d.row q).values, ?_, fun p => hd.lt_of_mem_values⟩
    rw [successors?, getElem?_rows hq, Option.map_some]
  have hseeds : ∀ q ∈ [d.start], q < d.states := by
    intro q hq
    rw [List.mem_singleton.mp hq]
    exact hd.start_lt
  rw [reachable?, Search.search?_eq_some hnext hseeds, hsame _ _ d.getD_successors?]
  rfl

/-- A place of the table holds the last number written there. -/
theorem getElem?_foldl_zipIdx {kept : List State} (hnodup : kept.Nodup) (k : Nat)
    {table : Array (Option Nat)} (hq : q < table.size) :
    ((kept.zipIdx k).foldl (fun table e => table.setIfInBounds e.1 (some e.2)) table)[q]? =
      if q ∈ kept then some (some (k + kept.idxOf q)) else table[q]? := by
  induction kept generalizing k table with
  | nil => simp
  | cons r kept ih =>
      obtain ⟨hr, hkept⟩ := List.nodup_cons.mp hnodup
      rw [List.zipIdx_cons, List.foldl_cons, ih hkept (k + 1) (by simpa using hq)]
      by_cases hqr : r = q
      · subst hqr
        simp [hr, hq]
      · have hcons : (r :: kept).idxOf q = kept.idxOf q + 1 := List.idxOf_cons_ne _ hqr
        simp [hqr, Ne.symm hqr, hcons, Nat.add_comm, Nat.add_left_comm]

theorem renumbering?_eq {kept : StateSet} {n : Nat} (hkept : ∀ q : Nat, q ∈ kept → q < n) :
    ∃ table, renumbering? n kept.toList = some table ∧
      ∀ q, q < n → table[q]? = some ((Numbering.ofList kept.toList).number? q) := by
  have hwrite : ∀ table : Array (Option Nat), table.size = n → ∀ e ∈ kept.toList.zipIdx,
      write? table e.1 (some e.2) = some (table.setIfInBounds e.1 (some e.2)) ∧
        (table.setIfInBounds e.1 (some e.2)).size = n := by
    intro table hsize e he
    have hlt := hkept e.1 (List.fst_mem_of_mem_zipIdx he)
    exact ⟨write?_of_lt (hsize.symm ▸ hlt) _, Array.size_setIfInBounds.trans hsize⟩
  refine ⟨_, (foldlM_eq_some hwrite Array.size_replicate).1, fun q hq => ?_⟩
  rw [getElem?_foldl_zipIdx kept.nodup 0 (by simpa using hq)]
  by_cases hmem : q ∈ kept.toList
  · have hnumber : (Numbering.ofList kept.toList).number? q = some (kept.toList.idxOf q) := by
      rw [Numbering.number?_eq_some_iff, Numbering.toList_ofList kept.nodup]
      exact List.getElem?_idxOf hmem
    rw [if_pos hmem, hnumber, Nat.zero_add]
  · have hnumber : (Numbering.ofList kept.toList).number? q = none :=
      Numbering.number?_eq_none_iff.mpr (mt Numbering.mem_ofList.mp hmem)
    rw [if_neg hmem, hnumber]
    simp [hq]

theorem WellFormed.restrict?_eq (hd : d.WellFormed) {kept : StateSet}
    (hkept : ∀ q : Nat, q ∈ kept → q < d.states) : d.restrict? kept = some (d.restrict kept) := by
  obtain ⟨numbers, hnumbers, hget⟩ := renumbering?_eq hkept
  have hrows : ∀ q ∈ kept.toList, (d.rows[q]?.bind fun r => r.filterMap? fun p => numbers[p]?) =
      some ((d.row q).filterMap (Numbering.ofList kept.toList).number?) := by
    intro q hq
    rw [getElem?_rows (hkept q hq), Option.bind_some]
    exact SortedMap.filterMap?_eq_some fun p hp => hget p (hd.lt_of_mem_values hp)
  have hfinals : ∀ q ∈ d.finals.toList,
      numbers[q]? = some ((Numbering.ofList kept.toList).number? q) :=
    fun q hq => hget q (hd.finals_lt q hq)
  rw [restrict?, hnumbers]
  simp only [Option.bind_eq_bind, Option.bind_some]
  rw [mapM_eq_some hrows, Option.bind_some, hget _ hd.start_lt, Option.bind_some,
    mapM_eq_some hfinals, Option.bind_some, List.filterMap_map]
  rfl

theorem WellFormed.prune?_eq (hd : d.WellFormed) : d.prune? = some d.prune := by
  rw [prune?, hd.reachable?_eq, Option.bind_eq_bind, Option.bind_some, hd.restrict?_eq, prune]
  intro q hq
  obtain ⟨w, hw⟩ := mem_reachable_iff.mp hq
  exact hd.run_lt hw

/-! ## Refinement -/

/-- For every state below a bound whether it is a member; members have to be
below the bound. -/
def marks? (s : StateSet) (bound : Nat) : Option (Array Bool) :=
  s.toList.foldlM (fun table q => write? table q true) (.replicate bound false)

/-- The split that refinement starts from. -/
def blocks? (separateFinals : Bool) (d : Dfa σ) : Option UnionFind := do
  let table ← marks? d.finals d.states
  let marked ← (List.range d.states).mapM fun q => table[q]?.map fun b => (q, b)
  let u ← (singletons d.states).merge? ((marked.filter fun e => !e.2).map (·.1))
  if separateFinals then return u else u.merge? ((marked.filter fun e => e.2).map (·.1))

/-- How a state moves, with the entry of a table for each state that it
leads to. -/
def signature? (d : Dfa σ) (classOf : Array Nat) (q : State) : Option (SortedMap σ Nat) := do
  let r ← d.rows[q]?
  r.map? fun p => classOf[p]?

/-- One round. Returns the new partition, and the old one with its paths
shortened. -/
def refine? (d : Dfa σ) (u : UnionFind) : Option (UnionFind × UnionFind) := do
  let (roots, u) ← u.findEach? (List.range d.states)
  let (groups, u) ← u.groups?
  let next ← groups.foldlM (fun next group => joinAlike? (d.signature? roots) ∅ group next)
    (singletons d.states)
  return (next, u)

/-- Refines a partition until a round splits nothing; gives up after so many
rounds. -/
def stabilize? (d : Dfa σ) : Nat → UnionFind → Option UnionFind
  | 0, _ => none
  | rounds + 1, u => do
    let (next, u') ← d.refine? u
    if u.classes < next.classes then d.stabilize? rounds next else return u'

def partition? (separateFinals : Bool) (d : Dfa σ) : Option UnionFind := do
  let u ← d.blocks? separateFinals
  d.stabilize? (d.states + 1) u

theorem marks?_eq {s : StateSet} {n : Nat} (h : ∀ q : Nat, q ∈ s → q < n) :
    marks? s n = some (s.flags n) :=
  (foldlM_eq_some (P := fun (table : Array Bool) => table.size = n)
    (fun _ hsize q hq => ⟨write?_of_lt (hsize.symm ▸ h q hq) true,
      Array.size_setIfInBounds.trans hsize⟩) Array.size_replicate).1

/-- What is marked, chosen by its marks. -/
theorem map_filter_marked (f : State → Bool) (g : Bool → Bool) (l : List State) :
    ((l.map fun q => (q, f q)).filter fun e => g e.2).map (·.1) = l.filter fun q => g (f q) := by
  rw [List.filter_map, List.map_map]
  exact List.map_id _

theorem WellFormed.blocks?_eq (hd : d.WellFormed) (separateFinals : Bool) :
    d.blocks? separateFinals = some (d.blocks separateFinals) := by
  have hmarked : ∀ q ∈ List.range d.states,
      ((d.finals.flags d.states)[q]?.map fun b => (q, b)) =
        some (q, (d.finals.flags d.states).getD q false) := by
    intro q hq
    have hq := List.mem_range.mp hq
    rw [StateSet.getElem?_flags d.finals hq, StateSet.getD_flags d.finals hq, Option.map_some]
  have hlt : ∀ g : State → Bool, ∀ q ∈ (List.range d.states).filter g,
      q < (singletons d.states).elements := by
    intro g q hq
    rw [elements_singletons]
    exact List.mem_range.mp (List.mem_filter.mp hq).1
  have hsingle := sound_singletons d.states
  have haccepting := map_filter_marked ((d.finals.flags d.states).getD · false) (fun b => b)
    (List.range d.states)
  rw [blocks?, marks?_eq hd.finals_lt]
  simp only [Option.bind_eq_bind, Option.bind_some]
  rw [mapM_eq_some hmarked, Option.bind_some, map_filter_marked, haccepting,
    hsingle.merge?_eq (hlt _), Option.bind_some, blocks, List.partition_eq_filter_filter]
  cases separateFinals with
  | true => rfl
  | false =>
      obtain ⟨hsound, helements, _⟩ := hsingle.merge (hlt _)
      exact hsound.merge?_eq fun q hq => helements.symm ▸ hlt _ q hq

theorem WellFormed.signature?_eq (hd : d.WellFormed) {classOf : Array Nat}
    {number : State → Nat} (hclassOf : ∀ p, p < d.states → classOf[p]? = some (number p))
    (hq : q < d.states) : d.signature? classOf q = some (d.signature number q) := by
  rw [signature?, getElem?_rows hq, Option.bind_eq_bind, Option.bind_some]
  exact SortedMap.map?_eq_some fun p hp => hclassOf p (hd.lt_of_mem_values hp)

theorem Partitions.refine?_eq (hd : d.WellFormed) (hu : Partitions u d) :
    d.refine? u = some (d.refine u) := by
  have hfind : u.findEach? (List.range d.states) = some u.findAll := by
    rw [← hu.elements_eq]
    exact hu.sound.findAll?_eq
  obtain ⟨_, hsound, hsame⟩ := hu.sound.findAll
  have hroots : ∀ p, p < d.states → u.findAll.1[p]? = some (u.findAll.1.getD p p) := by
    intro p hp
    rw [← hu.elements_eq, ← hu.sound.size_findAll] at hp
    exact getElem?_eq_some_getD hp p
  have hgroup : ∀ group ∈ u.findAll.2.groups.1, ∀ q ∈ group, q < d.states := by
    intro group hgroup q hq
    obtain ⟨f, _, rfl⟩ := hsound.mem_groups.mp hgroup
    rw [← hu.elements_eq, ← hsame.elements_eq]
    exact (mem_classList.mp hq).1
  have hsplit := foldlM_eq_some (l := u.findAll.2.groups.1)
    (f := fun next group => joinAlike? (d.signature? u.findAll.1) ∅ group next)
    (g := fun next group => joinAlike (d.signature fun q => u.findAll.1.getD q q) ∅ group next)
    (P := fun next => next.Sound ∧ next.elements = d.states)
    (fun next hnext group hmem => ?_) ⟨sound_singletons d.states, elements_singletons d.states⟩
  · rw [refine?, hfind]
    simp only [Option.bind_eq_bind, Option.bind_some]
    rw [hsound.groups?_eq, Option.bind_some, hsplit.1]
    rfl
  · obtain ⟨heq, hnext', helements⟩ := hnext.1.joinAlike?_eq ∅
      (fun q hq => hnext.2.symm ▸ hgroup group hmem q hq)
      (fun q hq => hd.signature?_eq hroots (hgroup group hmem q hq))
      (fun k y hy => by simp at hy)
    exact ⟨heq, hnext', helements.trans hnext.2⟩

theorem Partitions.stabilize?_eq (hd : d.WellFormed) {rounds : Nat} (hu : Partitions u d)
    (hrounds : d.states - u.classes < rounds) :
    d.stabilize? rounds u = some (d.stabilize u).1 := by
  induction rounds generalizing u with
  | zero => omega
  | succ rounds ih =>
      cases hrefine : d.refine u with
      | mk next u' =>
          have hnext := hu.refine.1
          have hle := d.classes_refine_le u
          rw [hrefine] at hnext hle
          dsimp only at hnext hle
          rw [stabilize?, hu.refine?_eq hd, hrefine, stabilize_fst hrefine]
          simp only [Option.bind_eq_bind, Option.bind_some]
          split
          · exact ih hnext (by omega)
          · rfl

theorem WellFormed.partition?_eq (hd : d.WellFormed) (separateFinals : Bool) :
    d.partition? separateFinals = some (d.partition separateFinals).value := by
  rw [partition?, hd.blocks?_eq, Option.bind_eq_bind, Option.bind_some,
    (partitions_blocks separateFinals d).1.stabilize?_eq hd (by omega)]
  rfl

/-! ## Minimization -/

/-- The automaton on some classes of states, of which one row each is taken
from a representative. -/
def quotient? (d : Dfa σ) (groups : List (List State)) (representatives : Array State) :
    Option (Dfa σ) := do
  let classOf ← groupNumbers? d.states groups
  let rows ← representatives.toList.mapM (d.signature? classOf)
  let start ← classOf[d.start]?
  let finals ← d.finals.toList.mapM fun q => classOf[q]?
  return { rows := rows.toArray, start, finals := .ofList finals }

def minimize? (separateFinals : Bool) (d : Dfa σ) : Option (Dfa σ) := do
  let u ← d.partition? separateFinals
  let (groups, u) ← u.groups?
  let (representatives, _) ← u.representatives?
  d.quotient? groups representatives

theorem WellFormed.quotient?_eq (hd : d.WellFormed) {groups : List (List State)}
    {representatives : Array State} (hgroups : ∀ group ∈ groups, ∀ q ∈ group, q < d.states)
    (hrepresentatives : ∀ q ∈ representatives.toList, q < d.states) :
    d.quotient? groups representatives = some (d.quotient groups representatives) := by
  obtain ⟨hnumbers, hsize⟩ := groupNumbers?_eq hgroups
  have hget : ∀ q, q < d.states → (groupNumbers d.states groups)[q]? =
      some ((groupNumbers d.states groups).getD q 0) :=
    fun q hq => getElem?_eq_some_getD (hsize.symm ▸ hq) 0
  rw [quotient?, hnumbers]
  simp only [Option.bind_eq_bind, Option.bind_some]
  rw [mapM_eq_some fun q hq => hd.signature?_eq hget (hrepresentatives q hq), Option.bind_some,
    hget _ hd.start_lt, Option.bind_some, mapM_eq_some fun q hq => hget q (hd.finals_lt q hq),
    Option.bind_some, ← Array.toList_map, Array.toArray_toList]
  rfl

theorem WellFormed.minimize?_eq (hd : d.WellFormed) (separateFinals : Bool) :
    d.minimize? separateFinals = some (d.minimize separateFinals).value := by
  obtain ⟨⟨hsound, helements⟩, _⟩ := partitions_partition hd separateFinals
  obtain ⟨hsound', hsame⟩ := hsound.groups
  rw [minimize?, hd.partition?_eq]
  simp only [Option.bind_eq_bind, Option.bind_some]
  rw [hsound.groups?_eq]
  simp only [Option.bind_some]
  rw [hsound'.representatives?_eq]
  simp only [Option.bind_some]
  refine hd.quotient?_eq (fun group hgroup q hq => ?_) fun q hq => ?_
  · obtain ⟨f, _, rfl⟩ := hsound.mem_groups.mp hgroup
    rw [← helements]
    exact (mem_classList.mp hq).1
  · rw [hsound'.representatives_eq] at hq
    obtain ⟨f, hf, rfl⟩ := List.mem_map.mp hq
    rw [← helements, ← hsame.elements_eq]
    exact hsound'.root_lt (lt_of_mem_firsts hf)

end Dfa

end FiniteState
