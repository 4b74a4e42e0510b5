import FiniteState.UnionFind.Basic
import Std.Data.TreeMap.Lemmas

/-!
# Classes

The classes of a partition, written out. A class is listed with its
members ascending, and classes are listed by their smallest members, so
the list is the same however the classes were joined; only the
representatives, which are the roots, tell how. `groupNumbers` leads back,
from an element to the place of its class in the list.

The other way round, elements are joined into classes by a key
(`joinAlike`): going through a list of elements, each one is joined with
its *leader*, the first one with the same key, and an element with a new
key becomes a leader.
-/

namespace FiniteState

open Std

namespace UnionFind

/-- For every label below the number of labels, where it stands,
ascending. -/
def positions (labels : Array Nat) : Array (List Nat) :=
  (List.range labels.size).foldr
    (fun x table => table.modify (labels.getD x x) (x :: ·)) (.replicate labels.size [])

/-- The classes, ordered by their smallest members, and each ascending. -/
def groups (u : UnionFind) : List (List Nat) × UnionFind :=
  let (roots, u) := u.findAll
  let classes := positions roots
  let groups := (List.range roots.size).filterMap fun x =>
    (classes[roots.getD x x]?).filter fun members => members.head? == some x
  (groups, u)

/-- The roots of the classes, in the order of the classes. -/
def representatives (u : UnionFind) : Array Nat × UnionFind :=
  let (groups, u) := u.groups
  u.findEach (groups.filterMap List.head?)

/-- For every element the number of the group that holds it. -/
def groupNumbers (elements : Nat) (groups : List (List Nat)) : Array Nat :=
  groups.zipIdx.foldl (fun table (group, i) => group.foldl (·.setIfInBounds · i) table)
    (.replicate elements 0)

/-! ## Joining by a key -/

/-- Joins every element of a list with the leader that has its key, or
makes it the leader of the key. -/
def joinAlike {κ : Type} [Ord κ] (key : Nat → κ) :
    TreeMap κ Nat → List Nat → UnionFind → UnionFind
  | _, [], u => u
  | leaders, x :: l, u =>
    let k := key x
    match leaders[k]? with
    | some y => joinAlike key leaders l (u.unite y x).2
    | none => joinAlike key (leaders.insert k x) l u

theorem classes_shorten (r steps x : Nat) (u : UnionFind) :
    (shorten r steps x u).classes = u.classes := by
  induction steps generalizing x u with
  | zero => rfl
  | succ steps ih =>
    unfold shorten
    split
    · rfl
    · rw [ih]

theorem classes_find (u : UnionFind) (x : Nat) : (u.find x).2.classes = u.classes :=
  classes_shorten ..

/-- Joining never makes more classes. -/
theorem classes_unite_le (u : UnionFind) (x y : Nat) : (u.unite x y).2.classes ≤ u.classes := by
  unfold unite
  dsimp only
  split
  · exact Nat.le_of_eq (by rw [classes_find, classes_find])
  · unfold link
    split <;> simp [hang, classes_find]

theorem classes_joinAlike_le {κ : Type} [Ord κ] (key : Nat → κ) (leaders : TreeMap κ Nat)
    (l : List Nat) (u : UnionFind) : (joinAlike key leaders l u).classes ≤ u.classes := by
  fun_induction joinAlike key leaders l u with
  | case1 => exact Nat.le_refl _
  | case2 _ _ _ u _ y _ ih => exact Nat.le_trans ih (classes_unite_le u y _)
  | case3 _ _ _ _ _ _ ih => exact ih

end UnionFind

end FiniteState
