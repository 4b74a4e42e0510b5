/-!
# Union-find

A partition of the numbers `0 … n - 1`, kept as a forest: every element
has a parent, a root is its own parent, and two elements are in one class
when they have the same root. Classes are joined by size, so that no path
to a root is long, and looking up a root shortens the path that was
climbed.

`root` is the meaning of the forest. Looking up changes the forest but no
root, so every operation returns what it found together with the forest
it leaves behind.

The sizes of elements that are no longer roots are left as they were
when their class was joined to another.
-/

namespace FiniteState

/-- A partition of the numbers below the number of parents. -/
structure UnionFind where
  parent : Array Nat
  /-- For a root, the number of elements of its class. -/
  size : Array Nat
  /-- The number of classes. -/
  classes : Nat
deriving DecidableEq

namespace UnionFind

/-- The partition of `n` elements into classes of one. -/
def singletons (n : Nat) : UnionFind := ⟨.range n, .replicate n 1, n⟩

/-- The number of elements. -/
def elements (u : UnionFind) : Nat := u.parent.size

def isEmpty (u : UnionFind) : Bool := u.classes == 0

/-- The parent of an element; a number that is no element is its own. -/
def parentOf (u : UnionFind) (x : Nat) : Nat := u.parent.getD x x

/-- Climbs at most so many steps, and stops at a root. -/
def climb (u : UnionFind) : Nat → Nat → Nat
  | 0, x => x
  | steps + 1, x => if u.parentOf x = x then x else u.climb steps (u.parentOf x)

/-- The root of the class of an element. A path holds no element twice,
so as many steps as there are elements are enough. -/
def root (u : UnionFind) (x : Nat) : Nat := u.climb u.elements x

/-- Makes the root `r` the parent of everything on the path from `x` to
it. -/
def shorten (r : Nat) : Nat → Nat → UnionFind → UnionFind
  | 0, _, u => u
  | steps + 1, x, u =>
    if u.parentOf x = r then u
    else shorten r steps (u.parentOf x) { u with parent := u.parent.setIfInBounds x r }

/-- The root of the class of an element, with the path to it shortened. -/
def find (u : UnionFind) (x : Nat) : Nat × UnionFind :=
  (u.root x, shorten (u.root x) u.elements x u)

/-- Looks up one more element, after some whose roots are listed. -/
def findNext : Array Nat × UnionFind → Nat → Array Nat × UnionFind
  | (roots, u), x =>
    let (r, u) := u.find x
    (roots.push r, u)

/-- The roots of a list of elements, looked up one after the other. -/
def findEach (u : UnionFind) (l : List Nat) : Array Nat × UnionFind := l.foldl findNext (#[], u)

/-- The roots of all elements. -/
def findAll (u : UnionFind) : Array Nat × UnionFind := u.findEach (List.range u.elements)

/-- Whether two elements are in one class. -/
def sameClass (u : UnionFind) (x y : Nat) : Bool × UnionFind :=
  let (r, u) := u.find x
  let (s, u) := u.find y
  (r == s, u)

/-! ## Joining classes -/

/-- Makes the root `r` the parent of the root `s`. -/
def hang (u : UnionFind) (r s : Nat) : UnionFind where
  parent := u.parent.setIfInBounds s r
  size := u.size.setIfInBounds r (u.size.getD r 0 + u.size.getD s 0)
  classes := u.classes - 1

/-- Joins the classes of two roots. The root of the larger class stays a
root; of two classes of one size it is the first. -/
def link (u : UnionFind) (r s : Nat) : UnionFind :=
  if u.size.getD r 0 < u.size.getD s 0 then u.hang s r else u.hang r s

/-- Joins the classes of two elements, and tells whether they were
apart. -/
def unite (u : UnionFind) (x y : Nat) : Bool × UnionFind :=
  let (r, u) := u.find x
  let (s, u) := u.find y
  if r = s then (false, u) else (true, u.link r s)

/-- Joins the classes of all listed elements with that of the first. -/
def merge (u : UnionFind) : List Nat → UnionFind
  | [] => u
  | x :: l => l.foldl (fun u y => (u.unite x y).2) u

end UnionFind

end FiniteState
