import FiniteState.UnionFind.Groups

/-!
# Histories of a partition

The operations on a partition as data, so that a run of them is a list.

An operation fails where a number is looked up that is no element, and
what it has done before it fails stays done: the paths that it has climbed
are shortened, and of a merge the joins before the failing one are made. A
partition is never left half changed otherwise, as two classes are joined
after both look-ups.

Joining gives up a class. The count of classes can go no lower than zero,
so this too would be a failure if there were none.
-/

namespace FiniteState

namespace UnionFind

/-! ## Operations that may fail -/

/-- Why an operation fails. -/
inductive Failure where
  /-- A number was used as an element that is none. -/
  | outOfBounds (elements index : Nat)
  /-- A class was given up where none was counted. -/
  | underflow
deriving DecidableEq

def Failure.message : Failure → String
  | outOfBounds elements index =>
    s!"index out of bounds: the len is {elements} but the index is {index}"
  | underflow => "attempt to subtract with overflow"

/-- An operation on a partition. If it fails, the partition is left as it
had become by then. -/
abbrev Operation (α : Type) := ExceptT Failure (StateM UnionFind) α

/-- Carries out an operation on a partition. -/
def Operation.on {α : Type} (m : Operation α) (u : UnionFind) : Except Failure α × UnionFind :=
  m.run.run u

/-- Looks up the root of a number, which has to be an element. -/
def tryFind (x : Nat) : Operation Nat := do
  let u ← get
  if x < u.elements then modifyGet (·.find x) else throw (.outOfBounds u.elements x)

/-- Joins the classes of two roots, and gives up one class. -/
def tryLink (r s : Nat) : Operation Unit := do
  let u ← get
  set (u.link r s)
  if u.classes = 0 then throw .underflow else return ()

/-- Joins the classes of two numbers, and tells whether they were apart. -/
def tryUnion (x y : Nat) : Operation Bool := do
  let r ← tryFind x
  let s ← tryFind y
  if r = s then return false else
    tryLink r s
    return true

/-- Whether two numbers are in one class. -/
def trySameClass (x y : Nat) : Operation Bool := do
  let r ← tryFind x
  let s ← tryFind y
  return r == s

/-- Joins the classes of listed numbers, one after the other, with that of
a given one. -/
def tryUnions (x : Nat) : List Nat → Operation Unit
  | [] => return ()
  | y :: l => do
    let _ ← tryUnion x y
    tryUnions x l

/-- Joins the classes of all listed numbers with that of the first. -/
def tryMerge : List Nat → Operation Unit
  | [] => return ()
  | x :: l => tryUnions x l

/-! ## Calls -/

/-- One operation on a partition. -/
inductive Call where
  | find (x : Nat)
  | union (x y : Nat)
  | sameClass (x y : Nat)
  | merge (items : List Nat)
  | groups
  | representatives
  | elements
  | isEmpty
  | findAll
deriving DecidableEq

/-- What an operation answers. -/
inductive Answer where
  | done
  | flag (b : Bool)
  | number (n : Nat)
  | numbers (l : List Nat)
  | groups (l : List (List Nat))
deriving DecidableEq

/-- What a call does. Only elements are looked up in the calls without
arguments, so these cannot fail. -/
def Call.operation : Call → Operation Answer
  | find x => do return .number (← tryFind x)
  | union x y => do return .flag (← tryUnion x y)
  | sameClass x y => do return .flag (← trySameClass x y)
  | merge items => do
    tryMerge items
    return .done
  | groups => do return .groups (← modifyGet UnionFind.groups)
  | representatives => do return .numbers (← modifyGet UnionFind.representatives).toList
  | elements => do return .number (← get).elements
  | isEmpty => do return .flag (← get).isEmpty
  | findAll => do return .numbers (← modifyGet UnionFind.findAll).toList

/-- Carries out a call; what it answers, or why it fails, and the partition
that it leaves behind. -/
def perform (u : UnionFind) (c : Call) : Except Failure Answer × UnionFind := c.operation.on u

end UnionFind

end FiniteState
