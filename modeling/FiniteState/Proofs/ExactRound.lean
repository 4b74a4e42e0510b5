import FiniteState.Proofs.Coarsest
import FiniteState.Proofs.Strict.Dfa
import FiniteState.Proofs.UnionFind.Grown

/-!
# One round, from any partition

A round of refinement looks up the leader of a state by its signature. It can also be
found by comparing: a state joins the first of the leaders of its class that it moves
alike with, symbol by symbol of the vocabulary, and becomes a leader itself if there is
none (`refineByLeaders`). This is a greedy search that never takes a decision back. That
it finds the classes all the same is due to moving alike being an equivalence, namely
having the same signature: a leader is alike then just if the signature leads to it
(`joinAlike_eq_joinFirst`), so both ways to make a round give the same forest
(`refine_eq_refineByLeaders`).

Nothing here asks where the partition before the round comes from. Its classes and its
roots are read and then left as they are (`Partitions.twins_refine`), and the next one is
built from single states (`Partitions.grown_refine`). It is finer, so it has more classes
or is the same partition; the loop may therefore stop as soon as the numbers of classes
are equal (`Partitions.classes_refine_eq_iff`).
-/

namespace FiniteState

open Std

namespace UnionFind

/-! ## Joining by comparison -/

/-- Joins every element of a list with the first leader that it is like, or makes it one
more leader. -/
def joinFirst (alike : Nat → Nat → Bool) : List Nat → List Nat → UnionFind → UnionFind
  | _, [], u => u
  | leaders, x :: l, u =>
    match leaders.find? (alike x) with
    | some y => joinFirst alike leaders l (u.unite y x).2
    | none => joinFirst alike (leaders ++ [x]) l u

section Keys

variable {κ : Type} [Ord κ] [TransOrd κ] [LawfulEqOrd κ] {key : Nat → κ}
  {alike : Nat → Nat → Bool} {table : TreeMap κ Nat} {leaders : List Nat} {x : Nat}

/-- A table of leaders stays one when both get a leader with a new key. -/
theorem find?_concat (halike : ∀ x y, alike x y = true ↔ key x = key y)
    (hfind : ∀ z, table[key z]? = leaders.find? (alike z)) (hnew : leaders.find? (alike x) = none)
    (z : Nat) : (table.insert (key x) x)[key z]? = (leaders ++ [x]).find? (alike z) := by
  rw [TreeMap.getElem?_insert, List.find?_append, ← hfind]
  by_cases hkey : key x = key z
  · -- no leader was like `x`, so none was like `z`, which has the same key
    have hnone : table[key z]? = none := by rw [← hkey, hfind, hnew]
    rw [if_pos (LawfulEqCmp.compare_eq_iff_eq.mpr hkey), hnone, Option.none_or,
      List.find?_cons_of_pos ((halike z x).mpr hkey.symm)]
  · have hapart : ¬ alike z x = true := fun h => hkey ((halike z x).mp h).symm
    rw [if_neg (mt LawfulEqCmp.compare_eq_iff_eq.mp hkey), List.find?_cons_of_neg hapart,
      List.find?_nil, Option.or_none]

/-- If being alike is having one key, the table leads to the leader that a comparison
with all of them finds first. -/
theorem joinAlike_eq_joinFirst (halike : ∀ x y, alike x y = true ↔ key x = key y)
    (hfind : ∀ z, table[key z]? = leaders.find? (alike z)) (items : List Nat) (u : UnionFind) :
    joinAlike key table items u = joinFirst alike leaders items u := by
  induction items generalizing table leaders u with
  | nil => rfl
  | cons x items ih =>
      unfold joinAlike joinFirst
      dsimp only
      rw [hfind]
      cases hx : leaders.find? (alike x) with
      | some y => exact ih hfind _
      | none => exact ih (find?_concat halike hfind hx) _

end Keys

end UnionFind

namespace Dfa

open UnionFind

variable {σ : Type} [Alphabet σ] {d : Dfa σ} {u : UnionFind} {p q : State}

/-- On every symbol of the vocabulary both states move into one class, or both have no
move. -/
def movesAlike (d : Dfa σ) (classOf : State → Nat) (p q : State) : Bool :=
  d.vocabulary.toList.all fun a => (d.step p a).map classOf == (d.step q a).map classOf

/-- One round, with leaders found by comparison. -/
def refineByLeaders (d : Dfa σ) (u : UnionFind) : UnionFind × UnionFind :=
  let (roots, u) := u.findAll
  let (groups, u) := u.groups
  let alike := d.movesAlike fun q => roots.getD q q
  let split := fun next group => UnionFind.joinFirst alike [] group next
  (groups.foldl split (.singletons d.states), u)

theorem movesAlike_iff {f : State → Nat} :
    d.movesAlike f p q = true ↔ d.signature f p = d.signature f q := by
  rw [movesAlike, List.all_eq_true, signature_eq_iff]
  simp only [beq_iff_eq]
  exact forall_mem_vocabulary_iff (r := fun x y => x.map f = y.map f) rfl

theorem refine_eq_refineByLeaders (d : Dfa σ) (u : UnionFind) :
    d.refine u = d.refineByLeaders u := by
  have hsplit : ∀ f : State → Nat,
      (fun (next : UnionFind) group => joinAlike (d.signature f) ∅ group next) =
        fun next group => joinFirst (d.movesAlike f) [] group next := by
    intro f
    funext next group
    exact joinAlike_eq_joinFirst (fun p q => movesAlike_iff) (fun z => by simp) group next
  unfold Dfa.refine refineByLeaders
  simp only [hsplit]

/-! ## What a round leaves and what it makes -/

/-- To the partition before it a round is two queries. -/
theorem snd_refine (d : Dfa σ) (u : UnionFind) :
    (d.refine u).2 = ((u.perform .findAll).2.perform .groups).2 := rfl

theorem Partitions.twins_refine (hu : Partitions u d) : Twins (d.refine u).2 u :=
  ⟨hu.refine.2.1.sound, hu.sound, hu.refine.2.2.1⟩

theorem Partitions.grown_refine (hu : Partitions u d) :
    Grown d.states (List.range d.states) (d.refine u).1 := by
  obtain ⟨_, hsound, hsame⟩ := hu.sound.findAll
  rw [hu.fst_refine, ← hu.elements_eq, ← hsame.elements_eq]
  exact hsound.grown_split _

/-! ## Exactness -/

theorem partitions_after (d : Dfa σ) (calls : List Call) : Partitions (after d.states calls) d :=
  ⟨(sound_after d.states calls).1, (sound_after d.states calls).2⟩

theorem Partitions.sameClass_refine_iff (hu : Partitions u d) (hp : p < d.states)
    (hq : q < d.states) : ((d.refine u).1.sameClass p q).1 = true ↔
      (u.sameClass p q).1 = true ∧ ∀ a, a ∈ d.vocabulary →
        Option.Rel (fun p q => (u.sameClass p q).1 = true) (d.step p a) (d.step q a) := by
  obtain ⟨hnext, _, _, hjoined⟩ := hu.refine
  rw [(hnext.sound.sameClass p q).1, hjoined p q hp hq]
  simp only [(hu.sound.sameClass _ _).1, map_eq_map_iff_rel]
  exact and_congr_right fun _ => (forall_mem_vocabulary_iff .none).symm

/-- A round that makes no more classes has split nothing. -/
theorem Partitions.classes_refine_eq_iff (hu : Partitions u d) :
    (d.refine u).1.classes = u.classes ↔ ∀ p q : Fin d.states,
      (((d.refine u).1.sameClass p q).1 = true ↔ (u.sameClass p q).1 = true) := by
  have hnext := hu.refine.1
  simp only [hu.refines_refine.classes_eq_iff hu.sound hnext.sound, hu.elements_eq,
    (hnext.sound.sameClass _ _).1, (hu.sound.sameClass _ _).1]
  exact ⟨fun h p q => h p q p.isLt q.isLt, fun h p q hp hq => h ⟨p, hp⟩ ⟨q, hq⟩⟩

/-- **A round is exact.** Let a partition of the states be made by any run of calls. If
all moves lead to states, a round never reads or writes outside a table. It joins every
state with the first leader of its class that it moves alike with, and so makes a
partition in which two states are together exactly if they were together and on every
symbol of the vocabulary neither moves or both move to states that were together. So it
is finer; it has at least as many classes, and has as many only if it is the same
partition, and the listed classes are as many as are counted. To the partition before it
the round is two queries: it keeps its classes and roots, and answers all later calls as
it would have without the round. -/
theorem round_is_exact (d : Dfa σ) (calls : List Call) :
    let u := after d.states calls
    let next := (d.refine u).1
    let previous := (d.refine u).2
    let together := fun (v : UnionFind) p q => (v.sameClass p q).1 = true
    (d.WellFormed → d.refine? u = some (d.refine u)) ∧
      (d.refine u = d.refineByLeaders u ∧ ∃ unions, next = after d.states unions) ∧
      (∀ p q : Fin d.states, together next p q ↔ together u p q ∧
        ∀ a, a ∈ d.vocabulary → Option.Rel (together u) (d.step p a) (d.step q a)) ∧
      (∀ p q : Fin d.states, together next p q → together u p q) ∧
      (next.classes = next.groups.1.length ∧ u.classes = u.groups.1.length ∧
        u.classes ≤ next.classes) ∧
      (next.classes = u.classes ↔ ∀ p q : Fin d.states, together next p q ↔ together u p q) ∧
      previous = after d.states (calls ++ [.findAll, .groups]) ∧
      previous.classes = u.classes ∧
      (∀ p q : Fin d.states, together previous p q ↔ together u p q) ∧
      (∀ p : Fin d.states, (previous.find p).1 = (u.find p).1) ∧
      ∀ later, previous.responses later = u.responses later := by
  intro u next previous together
  have hu : Partitions u d := d.partitions_after calls
  have hnext : Partitions next d := hu.refine.1
  have htwins : Twins previous u := hu.twins_refine
  have hexact : ∀ p q : Fin d.states, together next p q ↔ together u p q ∧
      ∀ a, a ∈ d.vocabulary → Option.Rel (together u) (d.step p a) (d.step q a) :=
    fun p q => hu.sameClass_refine_iff p.isLt q.isLt
  have hprevious : previous = after d.states (calls ++ [.findAll, .groups]) := by
    rw [after, List.foldl_append]
    exact d.snd_refine u
  have hkept : ∀ p q : Fin d.states, together previous p q ↔ together u p q := by
    intro p q
    show (previous.sameClass p q).1 = true ↔ (u.sameClass p q).1 = true
    rw [(htwins.left.sameClass p q).1, (hu.sound.sameClass p q).1, htwins.same.joined_iff]
  refine ⟨?_, ⟨?_, ?_⟩, hexact, ?_, ⟨?_, ?_, ?_⟩, ?_, hprevious, ?_, hkept, ?_, ?_⟩
  · exact fun hd => hu.refine?_eq hd
  · exact d.refine_eq_refineByLeaders u
  · exact hu.grown_refine.exists_calls
  · exact fun p q hpq => ((hexact p q).mp hpq).1
  · exact hnext.sound.listsClasses.length_eq.symm
  · exact hu.sound.listsClasses.length_eq.symm
  · exact hu.refines_refine.classes_le hu.sound hnext.sound
  · exact hu.classes_refine_eq_iff
  · exact htwins.same.classes_eq
  · exact fun p => htwins.same.root_eq p
  · exact htwins.responses_eq

end Dfa

end FiniteState
