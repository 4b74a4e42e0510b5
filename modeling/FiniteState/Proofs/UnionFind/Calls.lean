import FiniteState.Proofs.UnionFind.Classes
import FiniteState.UnionFind.Call

/-!
# What calls do

On a sound partition an operation that is given elements does what the
operation without failures does, and there always is a class to be given up
(`Sound.on_tryUnion`). Where a number is no element, the look-up of the first
such number makes the operation fail; the look-ups before it leave the
classes as they are.

Both sides of this are put together in one form for all calls
(`Sound.performs`). A call makes one class of all classes that hold some of
the numbers that it joins, failing or not, and it fails exactly if one of
its items is no element, at the first one (`Performs`).
-/

namespace FiniteState

namespace UnionFind

/-! ## Arguments -/

/-- The numbers that a call is given to look up, in order. A merge of fewer
than two numbers looks up none. -/
def Call.items : Call → List Nat
  | find x => [x]
  | union x y | sameClass x y => [x, y]
  | merge (x :: y :: l) => x :: y :: l
  | merge _ | groups | representatives | elements | isEmpty | findAll => []

/-- The numbers whose classes become one by a call on a partition of so
many elements. -/
def Call.joins (n : Nat) : Call → List Nat
  | union x y => if x < n ∧ y < n then [x, y] else []
  | merge (x :: y :: l) => (x :: y :: l).takeWhile (· < n)
  | merge _ | find _ | sameClass _ _ | groups | representatives | elements | isEmpty | findAll => []

variable {u v : UnionFind} {x y z : Nat} {items joined l : List Nat} {α β : Type}

namespace Operation

variable {m : Operation α} {f : α → Operation β}

theorem on_bind_of_ok {a : α} (h : m.on u = (.ok a, v)) : (m >>= f).on u = (f a).on v := by
  rw [on, ExceptT.run_bind, StateT.run_bind, show m.run.run u = _ from h]
  rfl

theorem on_bind_of_error {e : Failure} (h : m.on u = (.error e, v)) :
    (m >>= f).on u = (.error e, v) := by
  rw [on, ExceptT.run_bind, StateT.run_bind, show m.run.run u = _ from h]
  rfl

end Operation

open Operation

/-! ## Looking up -/

theorem on_tryFind_of_lt (hx : x < u.elements) :
    (tryFind x).on u = (.ok (u.root x), (u.find x).2) := by
  show (if x < u.elements then modifyGet (·.find x) else throw _ : Operation Nat).on u = _
  rw [if_pos hx]
  rfl

theorem on_tryFind_of_le (hx : u.elements ≤ x) :
    (tryFind x).on u = (.error (.outOfBounds u.elements x), u) := by
  show (if x < u.elements then modifyGet (·.find x) else throw _ : Operation Nat).on u = _
  rw [if_neg (Nat.not_lt.mpr hx)]
  rfl

/-- Two look-ups before anything else find both roots. -/
theorem Sound.on_tryFind_tryFind (h : u.Sound) (hx : x < u.elements) (hy : y < u.elements)
    (f : Nat → Nat → Operation α) :
    (tryFind x >>= fun r => tryFind y >>= f r).on u =
      (f (u.root x) (u.root y)).on ((u.find x).2.find y).2 := by
  obtain ⟨_, hs⟩ := h.find x
  rw [on_bind_of_ok (on_tryFind_of_lt hx), on_bind_of_ok (on_tryFind_of_lt (hs.elements_eq ▸ hy)),
    hs.root_eq]

/-- Two look-ups, one of which fails, leave the classes as they are. -/
theorem Sound.on_tryFind_tryFind_error (h : u.Sound)
    (hz : [x, y].find? (u.elements ≤ ·) = some z) (f : Nat → Nat → Operation α) :
    ∃ v, v.Sound ∧ v.SameRoots u ∧ (tryFind x >>= fun r => tryFind y >>= f r).on u =
      (.error (.outOfBounds u.elements z), v) := by
  by_cases hx : x < u.elements
  · obtain ⟨hv, hs⟩ := h.find x
    rw [List.find?_cons_of_neg (by simpa using hx), List.find?_singleton] at hz
    obtain ⟨hy, rfl⟩ : u.elements ≤ y ∧ y = z := by simpa using hz
    refine ⟨_, hv, hs, ?_⟩
    rw [on_bind_of_ok (on_tryFind_of_lt hx),
      on_bind_of_error (on_tryFind_of_le (hs.elements_eq ▸ hy)), hs.elements_eq]
  · obtain rfl : x = z := by simpa [List.find?_cons, Nat.not_lt.mp hx] using hz
    exact ⟨u, h, .refl u, on_bind_of_error (on_tryFind_of_le (Nat.not_lt.mp hx))⟩

/-! ## Joining -/

theorem on_tryLink_of_pos (hpos : 0 < u.classes) (r s : Nat) :
    (tryLink r s).on u = (.ok (), u.link r s) := by
  show (set (u.link r s) >>= fun _ => if u.classes = 0 then throw _ else return ()
    : Operation Unit).on u = _
  rw [if_neg (Nat.ne_of_gt hpos)]
  rfl

theorem Sound.classes_pos (h : u.Sound) (hx : x < u.elements) : 0 < u.classes := by
  rw [h.classes_eq]
  exact Finset.card_pos.mpr ⟨u.root x, h.root_mem_roots hx⟩

/-- Joining elements does not fail. -/
theorem Sound.on_tryUnion (h : u.Sound) (hx : x < u.elements) (hy : y < u.elements) :
    (tryUnion x y).on u = (.ok (u.unite x y).1, (u.unite x y).2) := by
  obtain ⟨_, hs, hunite⟩ := h.unite_eq x y
  rw [tryUnion, h.on_tryFind_tryFind hx hy, hunite]
  by_cases hxy : u.root x = u.root y
  · rw [if_pos hxy, if_pos hxy]
    rfl
  · have hpos : 0 < ((u.find x).2.find y).2.classes := by
      rw [hs.classes_eq]
      exact h.classes_pos hx
    rw [if_neg hxy, if_neg hxy, on_bind_of_ok (on_tryLink_of_pos hpos _ _)]
    rfl

/-- Joining numbers that are not all elements changes no class. -/
theorem Sound.on_tryUnion_error (h : u.Sound) (hz : [x, y].find? (u.elements ≤ ·) = some z) :
    ∃ v, v.Sound ∧ v.SameRoots u ∧
      (tryUnion x y).on u = (.error (.outOfBounds u.elements z), v) :=
  h.on_tryFind_tryFind_error hz _

theorem Sound.on_trySameClass (h : u.Sound) (hx : x < u.elements) (hy : y < u.elements) :
    (trySameClass x y).on u = (.ok (u.sameClass x y).1, (u.sameClass x y).2) := by
  rw [trySameClass, h.on_tryFind_tryFind hx hy, ← (h.find x).2.root_eq y]
  rfl

/-! ## All operations in one form -/

theorem SameRoots.merged (hs : SameRoots v u) (hv : v.Sound) {w : UnionFind}
    (h : u.Merged w items) : v.Merged w items :=
  ⟨hv, hs.elements_eq.trans h.elements_eq, fun p q => hs.joined_iff.trans (h.joined_iff p q)⟩

theorem Sound.merged_nil (h : u.Sound) : u.Merged u [] :=
  ⟨h, rfl, fun p q => by simp⟩

/-- The operation fails exactly if an item is no element, at the first one,
and makes one class of all classes that hold a joined number. -/
structure Performs (m : Operation α) (u : UnionFind) (items joined : List Nat) : Prop where
  error_iff : ∀ e, (m.on u).1 = .error e ↔
    ∃ z, items.find? (u.elements ≤ ·) = some z ∧ e = .outOfBounds u.elements z
  merged : (m.on u).2.Merged u joined

namespace Performs

variable {m : Operation α}

theorem of_ok {a : α} (hok : m.on u = (.ok a, v)) (hitems : items.find? (u.elements ≤ ·) = none)
    (hv : v.Merged u joined) : Performs m u items joined := by
  constructor
  · simp [hok, hitems]
  · rwa [hok]

theorem of_error (herror : m.on u = (.error (.outOfBounds u.elements z), v))
    (hitems : items.find? (u.elements ≤ ·) = some z) (hv : v.Merged u joined) :
    Performs m u items joined := by
  constructor
  · intro e
    simp [herror, hitems, eq_comm]
  · rwa [herror]

/-- It does not matter what is made of the answer. -/
theorem map (h : Performs m u items joined) (f : α → β) :
    Performs (m >>= fun a => pure (f a)) u items joined := by
  obtain ⟨herror, hmerged⟩ := h
  cases hm : m.on u with
  | mk result v =>
      rw [hm] at herror hmerged
      cases result with
      | ok a =>
          have hok : (m >>= fun a => pure (f a)).on u = (.ok (f a), v) := on_bind_of_ok hm
          constructor
          · intro e
            rw [hok, ← herror e]
            simp
          · rwa [hok]
      | error e =>
          have hfail : (m >>= fun a => pure (f a)).on u = (.error e, v) := on_bind_of_error hm
          constructor
          · intro e'
            rw [hfail, ← herror e']
            simp
          · rwa [hfail]

end Performs

theorem Sound.performs_tryFind (h : u.Sound) (x : Nat) : Performs (tryFind x) u [x] [] := by
  by_cases hx : x < u.elements
  · obtain ⟨hv, hs⟩ := h.find x
    exact .of_ok (on_tryFind_of_lt hx) (by simpa using hx) (hs.merged hv h.merged_nil)
  · exact .of_error (on_tryFind_of_le (Nat.not_lt.mp hx)) (by simpa using hx) h.merged_nil

theorem Sound.performs_trySameClass (h : u.Sound) (x y : Nat) :
    Performs (trySameClass x y) u [x, y] [] := by
  cases hz : [x, y].find? (u.elements ≤ ·) with
  | none =>
      obtain ⟨hx, hy⟩ : x < u.elements ∧ y < u.elements := by simpa using hz
      obtain ⟨_, hv, hs⟩ := h.sameClass x y
      exact .of_ok (h.on_trySameClass hx hy) hz (hs.merged hv h.merged_nil)
  | some z =>
      obtain ⟨v, hv, hs, herror⟩ := h.on_tryFind_tryFind_error hz fun r s => return r == s
      exact .of_error herror hz (hs.merged hv h.merged_nil)

theorem Sound.performs_tryUnion (h : u.Sound) (x y : Nat) :
    Performs (tryUnion x y) u [x, y] (if x < u.elements ∧ y < u.elements then [x, y] else []) := by
  cases hz : [x, y].find? (u.elements ≤ ·) with
  | none =>
      obtain ⟨hx, hy⟩ : x < u.elements ∧ y < u.elements := by simpa using hz
      rw [if_pos ⟨hx, hy⟩]
      exact .of_ok (h.on_tryUnion hx hy) hz ((h.merged_single x).unite hx hy)
  | some z =>
      obtain ⟨v, hv, hs, herror⟩ := h.on_tryUnion_error hz
      have hout : ¬ (x < u.elements ∧ y < u.elements) := by
        rintro ⟨hx, hy⟩
        simp [hx, hy] at hz
      rw [if_neg hout]
      exact .of_error herror hz (hs.merged hv h.merged_nil)

/-- If joining fails, the joins before that are in place. -/
theorem Merged.tryUnions (h : v.Merged u (x :: items)) (hx : x < u.elements) (l : List Nat) :
    (∀ e, ((tryUnions x l).on v).1 = .error e ↔
      ∃ z, l.find? (u.elements ≤ ·) = some z ∧ e = .outOfBounds u.elements z) ∧
      ((tryUnions x l).on v).2.Merged u (x :: (items ++ l.takeWhile (· < u.elements))) := by
  -- the numbers joined so far are collected in `items`, behind the first one
  induction l generalizing v items with
  | nil =>
      rw [List.takeWhile_nil, List.append_nil]
      exact ⟨fun e => by simp [UnionFind.tryUnions, Operation.on], h⟩
  | cons y l ih =>
      have hxv : x < v.elements := h.elements_eq ▸ hx
      by_cases hy : y < u.elements
      · have hstep : (UnionFind.tryUnions x (y :: l)).on v =
            (UnionFind.tryUnions x l).on (v.unite x y).2 :=
          on_bind_of_ok (h.sound.on_tryUnion hxv (h.elements_eq ▸ hy))
        rw [hstep, List.find?_cons_of_neg (by simpa using hy),
          List.takeWhile_cons_of_pos (by simpa using hy), List.append_cons]
        exact ih (h.unite hx hy)
      · have hz : [x, y].find? (v.elements ≤ ·) = some y := by
          rw [h.elements_eq, List.find?_cons_of_neg (by simpa using hx)]
          simpa using hy
        obtain ⟨w, hw, hs, herror⟩ := h.sound.on_tryUnion_error hz
        have hfail : (UnionFind.tryUnions x (y :: l)).on v =
            (.error (.outOfBounds v.elements y), w) := on_bind_of_error herror
        rw [hfail, List.find?_cons_of_pos (by simpa using hy),
          List.takeWhile_cons_of_neg (by simpa using hy), List.append_nil, h.elements_eq]
        exact ⟨fun e => by simp [eq_comm], hs.merged hw h⟩

/-! ## Calls -/

theorem Sound.performs_tryMerge (h : u.Sound) (items : List Nat) :
    Performs (tryMerge items) u (Call.merge items).items
      ((Call.merge items).joins u.elements) := by
  match items with
  | [] | [x] => exact .of_ok rfl rfl h.merged_nil
  | x :: y :: l =>
      by_cases hx : x < u.elements
      · obtain ⟨herror, hmerged⟩ := (h.merged_single x).tryUnions hx (y :: l)
        rw [Call.joins, List.takeWhile_cons_of_pos (by simpa using hx)]
        refine ⟨fun e => ?_, hmerged⟩
        rw [Call.items, List.find?_cons_of_neg (by simpa using hx)]
        exact herror e
      · have hz : ∀ l : List Nat, (x :: l).find? (u.elements ≤ ·) = some x := fun l =>
          List.find?_cons_of_pos (by simpa using hx)
        obtain ⟨v, hv, hs, herror⟩ := h.on_tryUnion_error (hz [y])
        rw [Call.joins, List.takeWhile_cons_of_neg (by simpa using hx)]
        exact .of_error (on_bind_of_error herror) (hz _) (hs.merged hv h.merged_nil)

theorem Sound.perform_union_eq (h : u.Sound) (hx : x < u.elements) (hy : y < u.elements) :
    u.perform (.union x y) = (.ok (.flag (u.unite x y).1), (u.unite x y).2) :=
  on_bind_of_ok (h.on_tryUnion hx hy)

theorem Sound.perform_union (h : u.Sound) (hx : x < u.elements) (hy : y < u.elements) :
    (u.perform (.union x y)).1 = .ok (.flag (u.unite x y).1) := by
  rw [h.perform_union_eq hx hy]

theorem Sound.perform_sameClass (h : u.Sound) (hx : x < u.elements) (hy : y < u.elements) :
    (u.perform (.sameClass x y)).1 = .ok (.flag (u.sameClass x y).1) := by
  have hon : (Call.sameClass x y).operation.on u = _ := on_bind_of_ok (h.on_trySameClass hx hy)
  rw [perform, hon]
  rfl

/-- A call makes one class of all classes that hold a number which it
joins, and fails exactly if an item is no element, at the first one. -/
theorem Sound.performs (h : u.Sound) (c : Call) :
    Performs c.operation u c.items (c.joins u.elements) := by
  have hquery : ∀ {α : Type} (f : UnionFind → α × UnionFind), (f u).2.Sound →
      (f u).2.SameRoots u → Performs (modifyGet f) u [] [] := fun f hv hs =>
    .of_ok rfl rfl (hs.merged hv h.merged_nil)
  cases c with
  | find x => exact (h.performs_tryFind x).map Answer.number
  | union x y => exact (h.performs_tryUnion x y).map Answer.flag
  | sameClass x y => exact (h.performs_trySameClass x y).map Answer.flag
  | merge items => exact (h.performs_tryMerge items).map fun _ => Answer.done
  | groups => exact (hquery UnionFind.groups h.groups.1 h.groups.2).map Answer.groups
  | representatives =>
      obtain ⟨hv, hs⟩ := h.representatives
      exact (hquery UnionFind.representatives hv hs).map fun a => Answer.numbers a.toList
  | elements => exact .of_ok rfl rfl h.merged_nil
  | isEmpty => exact .of_ok rfl rfl h.merged_nil
  | findAll =>
      obtain ⟨_, hv, hs⟩ := h.findAll
      exact (hquery UnionFind.findAll hv hs).map fun a => Answer.numbers a.toList

end UnionFind

end FiniteState
