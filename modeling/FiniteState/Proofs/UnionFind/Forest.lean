import FiniteState.UnionFind.Groups
import Mathlib.Algebra.Order.Ring.Nat
import Mathlib.Data.Finset.Card

/-!
# The forest of a partition

What keeps a union-find structure together, and why looking up an
element changes nothing that can be seen.

`root` climbs with as many steps as there are elements. That this is
enough is a matter of *ranks*: along every path to a root some rank
grows (`Ranked`), so an element has at most as many ancestors as there
are elements of higher rank (`above`). From this follow the two
equations that everything else uses - a root is its own root, and an
element has the root of its parent - and with them an induction along
the path (`Ranked.induction`) and a criterion for what the root function
is (`Ranked.root_unique`). No later proof climbs again.

`Sound` is the invariant of all operations. It ties the ranks to the
sizes that the operations maintain: a root of rank `k` has at least
`2 ^ k` elements in its class, its size is exact, and `classes` counts
the roots. Sizes of former roots are stale and nothing is said of them.

Looking up an element (`find`) redirects elements to the root they
already have. The ranks survive, and the root function does
(`SameRoots`), so the invariant does.
-/

namespace FiniteState

namespace UnionFind

variable {u v w : UnionFind} {rank : Nat → Nat}

/-- The element is its own parent. -/
def IsRoot (u : UnionFind) (r : Nat) : Prop := u.parentOf r = r

instance (u : UnionFind) (r : Nat) : Decidable (u.IsRoot r) :=
  inferInstanceAs (Decidable (u.parentOf r = r))

theorem isRoot_of_le {x : Nat} (h : u.elements ≤ x) : u.IsRoot x := by
  rw [IsRoot, parentOf, Array.getD_eq_getD_getElem?, Array.getElem?_eq_none h]
  rfl

theorem lt_of_not_isRoot {x : Nat} (h : ¬ u.IsRoot x) : x < u.elements :=
  Nat.lt_of_not_le fun hx => h (isRoot_of_le hx)

/-- Parents after one of them was set. -/
theorem getD_setIfInBounds_self (a : Array Nat) {x r : Nat} (hx : x < a.size) (z : Nat) :
    (a.setIfInBounds x r).getD z z = if z = x then r else a.getD z z := by
  rw [Array.getD_eq_getD_getElem?, Array.getElem?_setIfInBounds, Array.getD_eq_getD_getElem?]
  by_cases h : z = x
  · subst h
    simp [hx]
  · simp [h, Ne.symm h]

/-! ## Climbing -/

/-- Parents are elements, and the rank grows on the way to a root, so no
path comes back to where it has been. -/
structure Ranked (u : UnionFind) (rank : Nat → Nat) : Prop where
  parentOf_lt : ∀ x, x < u.elements → u.parentOf x < u.elements
  rank_lt : ∀ x, ¬ u.IsRoot x → rank x < rank (u.parentOf x)

/-- The number of elements of higher rank. It bounds the length of the
path from an element. -/
def above (u : UnionFind) (rank : Nat → Nat) (x : Nat) : Nat :=
  ((Finset.range u.elements).filter fun y => rank x < rank y).card

theorem above_le (u : UnionFind) (rank : Nat → Nat) (x : Nat) : u.above rank x ≤ u.elements := by
  have h := Finset.card_filter_le (Finset.range u.elements) fun y => rank x < rank y
  rwa [Finset.card_range] at h

theorem Ranked.above_parentOf_lt (h : u.Ranked rank) {x : Nat} (hx : ¬ u.IsRoot x) :
    u.above rank (u.parentOf x) < u.above rank x := by
  have hlt := h.rank_lt x hx
  have hp := h.parentOf_lt x (lt_of_not_isRoot hx)
  refine Finset.card_lt_card (Finset.ssubset_iff_of_subset ?_ |>.mpr ⟨u.parentOf x, ?_, ?_⟩)
  · intro y hy
    rw [Finset.mem_filter] at hy ⊢
    exact ⟨hy.1, Nat.lt_trans hlt hy.2⟩
  · exact Finset.mem_filter.mpr ⟨Finset.mem_range.mpr hp, hlt⟩
  · exact fun hy => Nat.lt_irrefl _ (Finset.mem_filter.mp hy).2

theorem climb_of_isRoot {x : Nat} (h : u.IsRoot x) (steps : Nat) : u.climb steps x = x := by
  cases steps with
  | zero => rfl
  | succ steps => exact if_pos h

theorem climb_of_not_isRoot {x : Nat} (h : ¬ u.IsRoot x) (steps : Nat) :
    u.climb (steps + 1) x = u.climb steps (u.parentOf x) := if_neg h

/-- A path is followed to its end by any number of steps that is not too
small, and so it makes no difference by which. -/
theorem Ranked.climb_spec (h : u.Ranked rank) : ∀ {steps x : Nat}, u.above rank x ≤ steps →
    u.IsRoot (u.climb steps x) ∧
      ∀ more, steps ≤ more → u.climb more x = u.climb steps x := by
  intro steps
  induction steps with
  | zero =>
      intro x hx
      have hroot : u.IsRoot x := by
        by_contra hn
        have := h.above_parentOf_lt hn
        omega
      exact ⟨hroot, fun more _ => climb_of_isRoot hroot more⟩
  | succ steps ih =>
      intro x hx
      by_cases hroot : u.IsRoot x
      · rw [climb_of_isRoot hroot]
        exact ⟨hroot, fun more _ => climb_of_isRoot hroot more⟩
      · have hlt := h.above_parentOf_lt hroot
        obtain ⟨hend, hmore⟩ := ih (x := u.parentOf x) (by omega)
        rw [climb_of_not_isRoot hroot]
        refine ⟨hend, fun more hle => ?_⟩
        obtain ⟨m, rfl⟩ := Nat.exists_eq_add_of_le' (Nat.le_trans (Nat.le_add_left 1 steps) hle)
        rw [climb_of_not_isRoot hroot]
        exact hmore m (by omega)

/-- To show something of every element, show it of roots, and pass it on
from parents to children. -/
theorem Ranked.induction (h : u.Ranked rank) {P : Nat → Prop}
    (root : ∀ r, u.IsRoot r → P r)
    (child : ∀ x, ¬ u.IsRoot x → P (u.parentOf x) → P x) (x : Nat) : P x := by
  by_cases hx : u.IsRoot x
  · exact root x hx
  · exact child x hx (h.induction root child (u.parentOf x))
termination_by u.above rank x
decreasing_by exact h.above_parentOf_lt hx

/-! ## The root of an element -/

theorem root_of_isRoot {x : Nat} (h : u.IsRoot x) : u.root x = x := climb_of_isRoot h _

theorem Ranked.isRoot_root (h : u.Ranked rank) (x : Nat) : u.IsRoot (u.root x) :=
  (h.climb_spec (u.above_le rank x)).1

theorem Ranked.root_parentOf (h : u.Ranked rank) (x : Nat) :
    u.root (u.parentOf x) = u.root x := by
  by_cases hx : u.IsRoot x
  · rw [hx]
  · have hlt := h.above_parentOf_lt hx
    have hle := u.above_le rank x
    have hroot : u.root x = u.climb (u.elements - 1) (u.parentOf x) := by
      obtain ⟨m, hm⟩ : ∃ m, u.elements = m + 1 := Nat.exists_eq_add_of_le' (by omega)
      rw [root, hm, climb_of_not_isRoot hx]
      rfl
    rw [hroot]
    exact (h.climb_spec (by omega)).2 u.elements (by omega)

theorem Ranked.root_lt (h : u.Ranked rank) {x : Nat} (hx : x < u.elements) :
    u.root x < u.elements := by
  induction x using h.induction with
  | root r hr => rwa [root_of_isRoot hr]
  | child x _ ih =>
      rw [← h.root_parentOf]
      exact ih (h.parentOf_lt x hx)

theorem Ranked.rank_le_rank_root (h : u.Ranked rank) (x : Nat) : rank x ≤ rank (u.root x) := by
  induction x using h.induction with
  | root r hr => rw [root_of_isRoot hr]
  | child x hx ih =>
      rw [← h.root_parentOf]
      exact Nat.le_trans (Nat.le_of_lt (h.rank_lt x hx)) ih

theorem Ranked.isRoot_iff (h : u.Ranked rank) {x : Nat} : u.IsRoot x ↔ u.root x = x :=
  ⟨root_of_isRoot, fun hx => hx ▸ h.isRoot_root x⟩

/-- Only one function gives roots themselves and all others what it gives
their parents. -/
theorem Ranked.root_unique (h : u.Ranked rank) {f : Nat → Nat} (hroot : ∀ r, u.IsRoot r → f r = r)
    (hparent : ∀ x, ¬ u.IsRoot x → f (u.parentOf x) = f x) (x : Nat) : u.root x = f x := by
  induction x using h.induction with
  | root r hr => rw [root_of_isRoot hr, hroot r hr]
  | child x hx ih => rw [← h.root_parentOf, ih, hparent x hx]

/-! ## The invariant -/

/-- The elements with a given root. -/
def members (u : UnionFind) (r : Nat) : Finset Nat :=
  (Finset.range u.elements).filter fun x => u.root x = r

def roots (u : UnionFind) : Finset Nat := (Finset.range u.elements).filter u.IsRoot

theorem mem_members {r x : Nat} : x ∈ u.members r ↔ x < u.elements ∧ u.root x = r := by
  rw [members, Finset.mem_filter, Finset.mem_range]

theorem mem_roots {r : Nat} : r ∈ u.roots ↔ r < u.elements ∧ u.IsRoot r := by
  rw [roots, Finset.mem_filter, Finset.mem_range]

/-- The forest is one, with paths that are short for the sizes of the
classes; the sizes of roots and the number of classes are right. -/
structure Sound (u : UnionFind) : Prop where
  size_size : u.size.size = u.elements
  ranked : ∃ rank, u.Ranked rank ∧
    ∀ r, r < u.elements → u.IsRoot r → 2 ^ rank r ≤ u.size.getD r 0
  size_root : ∀ r, r < u.elements → u.IsRoot r → u.size.getD r 0 = (u.members r).card
  classes_eq : u.classes = u.roots.card

theorem Sound.isRoot_root (h : u.Sound) (x : Nat) : u.IsRoot (u.root x) :=
  let ⟨_, hr, _⟩ := h.ranked
  hr.isRoot_root x

theorem Sound.root_root (h : u.Sound) (x : Nat) : u.root (u.root x) = u.root x :=
  root_of_isRoot (h.isRoot_root x)

theorem Sound.root_lt (h : u.Sound) {x : Nat} (hx : x < u.elements) : u.root x < u.elements :=
  let ⟨_, hr, _⟩ := h.ranked
  hr.root_lt hx

theorem Sound.root_mem_roots (h : u.Sound) {x : Nat} (hx : x < u.elements) : u.root x ∈ u.roots :=
  mem_roots.mpr ⟨h.root_lt hx, h.isRoot_root x⟩

theorem elements_singletons (n : Nat) : (singletons n).elements = n := Array.size_range

theorem isRoot_singletons (n x : Nat) : (singletons n).IsRoot x := by
  by_cases hx : x < n
  · simp [IsRoot, parentOf, singletons, Array.getD_eq_getD_getElem?, hx]
  · exact isRoot_of_le (by rw [elements_singletons]; exact Nat.le_of_not_lt hx)

theorem root_singletons (n x : Nat) : (singletons n).root x = x :=
  root_of_isRoot (isRoot_singletons n x)

theorem sound_singletons (n : Nat) : (singletons n).Sound := by
  have hroot := isRoot_singletons n
  have hsize : ∀ r, r < n → (singletons n).size.getD r 0 = 1 := fun r hr => by
    simp [singletons, Array.getD_eq_getD_getElem?, hr]
  refine ⟨by simp [singletons, elements], ⟨fun _ => 0, ⟨?_, ?_⟩, ?_⟩, ?_, ?_⟩
  · intro x hx
    rwa [hroot x]
  · exact fun x hx => absurd (hroot x) hx
  · intro r hr _
    rw [elements_singletons] at hr
    simp [hsize r hr]
  · intro r hr _
    have hmem : (singletons n).members r = {r} := by
      ext x
      rw [mem_members, root_singletons, Finset.mem_singleton]
      exact ⟨And.right, fun h => ⟨h ▸ hr, h⟩⟩
    rw [elements_singletons] at hr
    rw [hmem, hsize r hr, Finset.card_singleton]
  · have hall : (singletons n).roots = Finset.range n := by
      ext x
      rw [mem_roots, elements_singletons, Finset.mem_range]
      exact ⟨And.left, fun h => ⟨h, hroot x⟩⟩
    rw [hall, Finset.card_range]
    rfl

/-! ## Looking up -/

/-- `v` differs from `u` in nothing but the paths to the roots. -/
structure SameRoots (v u : UnionFind) : Prop where
  elements_eq : v.elements = u.elements
  size_eq : v.size = u.size
  classes_eq : v.classes = u.classes
  root_eq : ∀ x, v.root x = u.root x

theorem SameRoots.refl (u : UnionFind) : SameRoots u u := ⟨rfl, rfl, rfl, fun _ => rfl⟩

theorem SameRoots.trans (h : SameRoots w v) (h' : SameRoots v u) : SameRoots w u :=
  ⟨h.elements_eq.trans h'.elements_eq, h.size_eq.trans h'.size_eq,
    h.classes_eq.trans h'.classes_eq, fun x => (h.root_eq x).trans (h'.root_eq x)⟩

/-- One redirection to the root that the element has anyway. -/
theorem Ranked.redirect (h : u.Ranked rank) {x : Nat} (hx : ¬ u.IsRoot x) :
    let v := { u with parent := u.parent.setIfInBounds x (u.root x) }
    v.Ranked rank ∧ v.SameRoots u := by
  intro v
  have hlt := lt_of_not_isRoot hx
  have helements : v.elements = u.elements := Array.size_setIfInBounds
  have hparent : ∀ z, v.parentOf z = if z = x then u.root x else u.parentOf z :=
    getD_setIfInBounds_self u.parent hlt
  have hne : u.root x ≠ x := fun he => hx (he ▸ h.isRoot_root x)
  have hroots : ∀ z, v.IsRoot z ↔ u.IsRoot z := by
    intro z
    rw [IsRoot, hparent]
    split
    · next hz =>
      subst hz
      exact ⟨fun he => absurd he hne, fun he => absurd he hx⟩
    · exact Iff.rfl
  have hranked : v.Ranked rank := by
    constructor
    · intro z hz
      rw [helements] at hz ⊢
      rw [hparent]
      split
      · exact h.root_lt hlt
      · exact h.parentOf_lt z hz
    · intro z hz
      rw [hroots] at hz
      rw [hparent]
      split
      · next hzx =>
        subst hzx
        rw [← h.root_parentOf]
        exact Nat.lt_of_lt_of_le (h.rank_lt z hz) (h.rank_le_rank_root _)
      · exact h.rank_lt z hz
  refine ⟨hranked, helements, rfl, rfl, hranked.root_unique (fun r hr => ?_) fun z hz => ?_⟩
  · exact root_of_isRoot ((hroots r).mp hr)
  · rw [hparent]
    split
    · next hzx =>
      subst hzx
      exact root_of_isRoot (h.isRoot_root z)
    · exact h.root_parentOf z

theorem Ranked.shorten (h : u.Ranked rank) {r x : Nat} (hr : u.root x = r) (steps : Nat) :
    (shorten r steps x u).Ranked rank ∧ (shorten r steps x u).SameRoots u := by
  induction steps generalizing u x with
  | zero => exact ⟨h, .refl u⟩
  | succ steps ih =>
      unfold UnionFind.shorten
      split
      · exact ⟨h, .refl u⟩
      · next hne =>
        have hx : ¬ u.IsRoot x := fun hx => hne (by rw [hx, ← hr, root_of_isRoot hx])
        subst hr
        obtain ⟨hranked, hsame⟩ := h.redirect hx
        have hnext := ih hranked (x := u.parentOf x) ((hsame.root_eq _).trans (h.root_parentOf x))
        exact ⟨hnext.1, hnext.2.trans hsame⟩

/-- The invariant speaks of a forest only through its roots. -/
theorem Sound.of_sameRoots (h : u.Sound) (hs : SameRoots v u)
    (hranked : ∀ rank, u.Ranked rank → v.Ranked rank) : v.Sound := by
  obtain ⟨rank, hr, hsize⟩ := h.ranked
  have hroots : ∀ r, v.IsRoot r ↔ u.IsRoot r := fun r => by
    rw [(hranked rank hr).isRoot_iff, hr.isRoot_iff, hs.root_eq]
  have hmembers : ∀ r, v.members r = u.members r := fun r => by
    ext x
    rw [mem_members, mem_members, hs.elements_eq, hs.root_eq]
  have hall : v.roots = u.roots := by
    ext x
    rw [mem_roots, mem_roots, hs.elements_eq, hroots]
  refine ⟨by rw [hs.size_eq, hs.elements_eq, h.size_size], ⟨rank, hranked rank hr, ?_⟩, ?_, ?_⟩
  · intro r hlt hroot
    rw [hs.size_eq]
    exact hsize r (hs.elements_eq ▸ hlt) ((hroots r).mp hroot)
  · intro r hlt hroot
    rw [hs.size_eq, hmembers]
    exact h.size_root r (hs.elements_eq ▸ hlt) ((hroots r).mp hroot)
  · rw [hs.classes_eq, hall, h.classes_eq]

theorem Sound.find (h : u.Sound) (x : Nat) :
    (u.find x).2.Sound ∧ (u.find x).2.SameRoots u := by
  obtain ⟨rank, hr, _⟩ := h.ranked
  have hs : (u.find x).2.SameRoots u := (hr.shorten rfl u.elements).2
  exact ⟨h.of_sameRoots hs fun rank hr => (hr.shorten rfl u.elements).1, hs⟩

/-- Looking up a list of elements finds their roots. -/
theorem Sound.findEach (h : u.Sound) (l : List Nat) :
    (u.findEach l).1.toList = l.map u.root ∧ (u.findEach l).2.Sound ∧
      (u.findEach l).2.SameRoots u := by
  have hfold : ∀ (l : List Nat) (found : Array Nat) (v : UnionFind), v.Sound → v.SameRoots u →
      (l.foldl findNext (found, v)).1.toList = found.toList ++ l.map u.root ∧
        (l.foldl findNext (found, v)).2.Sound ∧ (l.foldl findNext (found, v)).2.SameRoots u := by
    intro l
    induction l with
    | nil => exact fun found v hv hs => ⟨by simp, hv, hs⟩
    | cons x l ih =>
        intro found v hv hs
        obtain ⟨hv', hs'⟩ := hv.find x
        obtain ⟨hlist, hrest⟩ := ih (found.push (v.root x)) _ hv' (hs'.trans hs)
        refine ⟨?_, hrest⟩
        show (l.foldl findNext (found.push (v.root x), (v.find x).2)).1.toList = _
        simpa [hs.root_eq] using hlist
  simpa [UnionFind.findEach] using hfold l #[] u h (.refl u)

theorem Sound.findAll (h : u.Sound) :
    u.findAll.1.toList = (List.range u.elements).map u.root ∧ u.findAll.2.Sound ∧
      u.findAll.2.SameRoots u := h.findEach _

/-- The table of all roots, read at any number. -/
theorem Sound.getD_findAll (h : u.Sound) (x : Nat) : u.findAll.1.getD x x = u.root x := by
  rw [Array.getD_eq_getD_getElem?, ← Array.getElem?_toList, h.findAll.1, List.getElem?_map]
  by_cases hx : x < u.elements
  · rw [List.getElem?_range hx]
    rfl
  · rw [List.getElem?_eq_none (by simpa using hx), root_of_isRoot (isRoot_of_le (by omega))]
    rfl

end UnionFind

end FiniteState
