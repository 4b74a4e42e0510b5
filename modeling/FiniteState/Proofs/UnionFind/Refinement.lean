import FiniteState.Proofs.UnionFind.Classes

/-!
# Refining a partition

Splitting classes by a key, and counting what comes out.

`joinAlike` builds the parts of a class by a greedy search: every element
is joined with the first earlier one that has its key. The invariant
(`Gathered`) is that after any number of elements just those with equal
keys are joined, and that every key that has been seen has a leader; a
step either follows a leader or makes one. `Sound.split` puts the parts of
all classes together: two elements stay in one class exactly if they were
in one and have one key.

When a finer partition does not have more classes it is the same
partition (`Sound.joined_of_classes_le`), since the roots of the finer one
lie over all the roots of the coarser one. A round of refinement that
leaves the number of classes as it was therefore split nothing.
-/

namespace FiniteState

open Std

namespace UnionFind

variable {u v : UnionFind} {p q : Nat}

/-! ## Joining by a key -/

section Keys

variable {κ : Type} [Ord κ] [TransOrd κ] [LawfulEqOrd κ] {key : Nat → κ}

/-- What has happened when the elements of `done` have been gone through:
from `u` has come `v`, where those of one key are joined and nothing else
is that was not before, and every key has its leader. -/
structure Gathered (u : UnionFind) (key : Nat → κ) (done : List Nat) (leaders : TreeMap κ Nat)
    (v : UnionFind) : Prop where
  sound : v.Sound
  elements_eq : v.elements = u.elements
  leader : ∀ k y, leaders[k]? = some y → y ∈ done ∧ key y = k
  led : ∀ x ∈ done, (leaders[key x]?).isSome = true
  joined_iff : ∀ p q, v.Joined p q ↔ u.Joined p q ∨ (p ∈ done ∧ q ∈ done ∧ key p = key q)

namespace Gathered

variable {done : List Nat} {leaders : TreeMap κ Nat} {x y : Nat}

omit [TransOrd κ] [LawfulEqOrd κ] in
/-- An element joins the leader of its key. -/
theorem follow (h : Gathered u key done leaders v) (hy : leaders[key x]? = some y)
    (hx : x ∉ done) (hxlt : x < u.elements) (hylt : y < u.elements)
    (hxalone : ∀ z, u.Joined z x → z = x) (hyalone : ∀ z, u.Joined z y → z = y) :
    Gathered u key (done ++ [x]) leaders (v.unite y x).2 := by
  obtain ⟨hydone, hkey⟩ := h.leader _ y hy
  have hyv : y < v.elements := h.elements_eq ▸ hylt
  have hxv : x < v.elements := h.elements_eq ▸ hxlt
  refine ⟨h.sound.unite hyv hxv, (h.sound.elements_unite hyv hxv).trans h.elements_eq,
    fun k z hz => ⟨List.mem_append_left _ (h.leader k z hz).1, (h.leader k z hz).2⟩, ?_, ?_⟩
  · intro z hz
    rcases List.mem_append.mp hz with hz | hz
    · exact h.led z hz
    · obtain rfl := List.mem_singleton.mp hz
      exact Option.isSome_of_eq_some hy
  · intro p q
    have hxx : u.Joined x x := rfl
    -- in `v` the class of `x` is `x` alone, that of `y` is its key in `done`
    have hpx : ∀ z, v.Joined z x ↔ z = x := by
      intro z
      rw [h.joined_iff]
      constructor
      · exact fun hz => hz.elim (hxalone z) fun hz => absurd hz.2.1 hx
      · rintro rfl
        exact .inl rfl
    have hpy : ∀ z, v.Joined z y ↔ z ∈ done ∧ key z = key x := by
      intro z
      rw [h.joined_iff, ← hkey]
      constructor
      · rintro (hz | ⟨hz, _, hzy⟩)
        · rw [hyalone z hz]
          exact ⟨hydone, rfl⟩
        · exact ⟨hz, hzy⟩
      · exact fun hz => .inr ⟨hz.1, hydone, hz.2⟩
    rw [h.sound.joined_unite hyv hxv, hpx, hpx, hpy, hpy, h.joined_iff]
    simp only [List.mem_append, List.mem_singleton]
    grind

/-- An element with a new key becomes the leader of the key. -/
theorem lead (h : Gathered u key done leaders v) (hnone : leaders[key x]? = none) :
    Gathered u key (done ++ [x]) (leaders.insert (key x) x) v := by
  refine ⟨h.sound, h.elements_eq, ?_, ?_, ?_⟩
  · intro k z hz
    rw [TreeMap.getElem?_insert] at hz
    split at hz
    · next hk =>
      obtain rfl := Option.some.inj hz
      exact ⟨by simp, LawfulEqCmp.compare_eq_iff_eq.mp hk⟩
    · exact ⟨List.mem_append_left _ (h.leader k z hz).1, (h.leader k z hz).2⟩
  · intro z hz
    rw [TreeMap.getElem?_insert]
    split
    · rfl
    · next hk =>
      rcases List.mem_append.mp hz with hz | hz
      · exact h.led z hz
      · obtain rfl := List.mem_singleton.mp hz
        exact absurd (LawfulEqCmp.compare_eq_iff_eq.mpr rfl) hk
  · intro p q
    have hxx : u.Joined x x := rfl
    have hnew : ∀ z ∈ done, key z ≠ key x := by
      intro z hz hzx
      have := h.led z hz
      rw [hzx, hnone] at this
      cases this
    rw [h.joined_iff]
    simp only [List.mem_append, List.mem_singleton]
    grind

/-- All elements are gone through, if none is listed twice and none was
joined to another before. -/
theorem joinAlike {rest : List Nat} (h : Gathered u key done leaders v)
    (hlt : ∀ x ∈ done ++ rest, x < u.elements) (hnodup : (done ++ rest).Nodup)
    (halone : ∀ x ∈ done ++ rest, ∀ y, u.Joined y x → y = x) :
    ∃ leaders', Gathered u key (done ++ rest) leaders' (joinAlike key leaders rest v) := by
  induction rest generalizing done leaders v with
  | nil =>
      rw [List.append_nil]
      exact ⟨leaders, h⟩
  | cons x rest ih =>
      have hxmem : x ∈ done ++ x :: rest := List.mem_append_right _ List.mem_cons_self
      have hxdone : x ∉ done := fun hx =>
        (List.nodup_append.mp hnodup).2.2 x hx x List.mem_cons_self rfl
      have hassoc : done ++ x :: rest = (done ++ [x]) ++ rest := by simp
      unfold UnionFind.joinAlike
      dsimp only
      split
      · next y hy =>
        have hymem := List.mem_append_left (x :: rest) (h.leader _ y hy).1
        have hnext := h.follow hy hxdone (hlt x hxmem) (hlt y hymem) (halone x hxmem)
          (halone y hymem)
        rw [hassoc] at hlt hnodup halone ⊢
        exact ih hnext hlt hnodup halone
      · next hnone =>
        rw [hassoc] at hlt hnodup halone ⊢
        exact ih (h.lead hnone) hlt hnodup halone

end Gathered

theorem Sound.joinAlike (h : u.Sound) (key : Nat → κ) {group : List Nat}
    (hlt : ∀ x ∈ group, x < u.elements) (hnodup : group.Nodup)
    (halone : ∀ x ∈ group, ∀ y, u.Joined y x → y = x) :
    (joinAlike key ∅ group u).Sound ∧ (joinAlike key ∅ group u).elements = u.elements ∧
      ∀ p q, (UnionFind.joinAlike key ∅ group u).Joined p q ↔
        u.Joined p q ∨ (p ∈ group ∧ q ∈ group ∧ key p = key q) := by
  have hnone : Gathered u key [] ∅ u :=
    ⟨h, rfl, fun k y hy => by simp at hy, fun x hx => absurd hx List.not_mem_nil,
      fun p q => by simp⟩
  obtain ⟨_, hall⟩ := hnone.joinAlike hlt hnodup halone
  exact ⟨hall.sound, hall.elements_eq, hall.joined_iff⟩

/-- In `v` just those of `n` elements are joined that are in one group and
have one key. -/
structure Split (v : UnionFind) (n : Nat) (key : Nat → κ) (groups : List (List Nat)) : Prop where
  sound : v.Sound
  elements_eq : v.elements = n
  joined_iff : ∀ p q, v.Joined p q ↔ p = q ∨ ∃ g ∈ groups, p ∈ g ∧ q ∈ g ∧ key p = key q

omit [Ord κ] [TransOrd κ] [LawfulEqOrd κ] in
theorem split_singletons (n : Nat) (key : Nat → κ) : (singletons n).Split n key [] := by
  refine ⟨sound_singletons n, elements_singletons n, fun p q => ?_⟩
  simp [Joined, root_singletons]

/-- One more group is split. -/
theorem Split.joinAlike {n : Nat} {groups : List (List Nat)} {group : List Nat}
    (h : v.Split n key groups) (hlt : ∀ x ∈ group, x < n) (hnodup : group.Nodup)
    (hdisjoint : ∀ g ∈ groups, g.Disjoint group) :
    (UnionFind.joinAlike key ∅ group v).Split n key (groups ++ [group]) := by
  -- elements of the group are still alone: no group before holds any of them
  have halone : ∀ x ∈ group, ∀ y, v.Joined y x → y = x := by
    intro x hx y hyx
    rcases (h.joined_iff y x).mp hyx with heq | ⟨g, hg, _, hxg, _⟩
    · exact heq
    · exact absurd hx (hdisjoint g hg hxg)
  obtain ⟨hsound, he, hjoined⟩ :=
    h.sound.joinAlike key (fun x hx => h.elements_eq ▸ hlt x hx) hnodup halone
  refine ⟨hsound, he.trans h.elements_eq, fun p q => ?_⟩
  rw [hjoined, h.joined_iff]
  simp only [List.mem_append, List.mem_singleton]
  grind

/-- Groups without common elements, each split by the key. -/
theorem Split.foldl {n : Nat} {groups rest : List (List Nat)} (h : v.Split n key groups)
    (hlt : ∀ g ∈ rest, ∀ x ∈ g, x < n) (hnodup : ∀ g ∈ rest, g.Nodup)
    (hdisjoint : (groups ++ rest).Pairwise List.Disjoint) :
    (rest.foldl (fun next group => UnionFind.joinAlike key ∅ group next) v).Split n key
      (groups ++ rest) := by
  induction rest generalizing groups v with
  | nil =>
      rw [List.append_nil]
      exact h
  | cons g rest ih =>
      have hbefore : ∀ g' ∈ groups, g'.Disjoint g := fun g' hg' =>
        (List.pairwise_append.mp hdisjoint).2.2 g' hg' g List.mem_cons_self
      have hnext := h.joinAlike (hlt g List.mem_cons_self) (hnodup g List.mem_cons_self) hbefore
      have hassoc : groups ++ g :: rest = (groups ++ [g]) ++ rest := by simp
      rw [hassoc] at hdisjoint ⊢
      exact ih hnext (fun g' hg' => hlt g' (List.mem_cons_of_mem _ hg'))
        (fun g' hg' => hnodup g' (List.mem_cons_of_mem _ hg')) hdisjoint

theorem Sound.disjoint_groups (h : u.Sound) : u.groups.1.Pairwise List.Disjoint := by
  rw [h.groups_eq, List.pairwise_map]
  refine List.Pairwise.imp_of_mem (fun {f g} hf hg hlt x hx hx' => ?_) u.sorted_firsts
  have heq := first_unique hf hg ((mem_classList.mp hx).2.symm.trans (mem_classList.mp hx').2)
  exact Nat.ne_of_lt hlt heq

/-- Every class, split by the key. -/
theorem Sound.split (h : u.Sound) (key : Nat → κ) :
    let next := u.groups.1.foldl (fun next group => UnionFind.joinAlike key ∅ group next)
      (.singletons u.elements)
    next.Sound ∧ next.elements = u.elements ∧
      ∀ p q, p < u.elements → q < u.elements →
        (next.Joined p q ↔ u.Joined p q ∧ key p = key q) := by
  have hgroup : ∀ g ∈ u.groups.1, ∃ f, u.classList f = g := by
    intro g hg
    obtain ⟨f, _, hf⟩ := h.mem_groups.mp hg
    exact ⟨f, hf⟩
  have hlt : ∀ g ∈ u.groups.1, ∀ x ∈ g, x < u.elements := by
    intro g hg x hx
    obtain ⟨f, rfl⟩ := hgroup g hg
    exact (mem_classList.mp hx).1
  have hnodup : ∀ g ∈ u.groups.1, g.Nodup := by
    intro g hg
    obtain ⟨f, rfl⟩ := hgroup g hg
    exact (u.sorted_classList f).imp Nat.ne_of_lt
  obtain ⟨hsound, helements, hjoined⟩ :=
    (split_singletons u.elements key).foldl hlt hnodup h.disjoint_groups
  refine ⟨hsound, helements, fun p q hp hq => ?_⟩
  rw [hjoined]
  constructor
  · rintro (rfl | ⟨g, hg, hpg, hqg, hkey⟩)
    · exact ⟨rfl, rfl⟩
    · obtain ⟨f, rfl⟩ := hgroup g hg
      exact ⟨(mem_classList.mp hpg).2.trans (mem_classList.mp hqg).2.symm, hkey⟩
  · rintro ⟨hpq, hkey⟩
    obtain ⟨f, hf, hpf⟩ := exists_first hp
    exact .inr ⟨u.classList f, h.mem_groups.mpr ⟨f, hf, rfl⟩, mem_classList.mpr ⟨hp, hpf⟩,
      mem_classList.mpr ⟨hq, hpq.symm.trans hpf⟩, hkey⟩

end Keys

/-! ## Counting classes -/

/-- `v` tells apart whatever `u` does. -/
structure Refines (v u : UnionFind) : Prop where
  elements_eq : v.elements = u.elements
  joined : ∀ p q, p < u.elements → q < u.elements → v.Joined p q → u.Joined p q

/-- Every root of the coarser partition is the root there of some root of
the finer one. -/
theorem Refines.surjOn (h : v.Refines u) (hv : v.Sound) :
    Set.SurjOn u.root v.roots u.roots := by
  intro r hr
  obtain ⟨hlt, hroot⟩ := mem_roots.mp (Finset.mem_coe.mp hr)
  have hlt' : v.root r < v.elements := hv.root_lt (h.elements_eq ▸ hlt)
  refine ⟨v.root r, Finset.mem_coe.mpr (mem_roots.mpr ⟨hlt', hv.isRoot_root r⟩), ?_⟩
  have hjoined := h.joined (v.root r) r (h.elements_eq ▸ hlt') hlt (hv.root_root r)
  exact hjoined.trans (root_of_isRoot hroot)

theorem Refines.classes_le (h : v.Refines u) (hu : u.Sound) (hv : v.Sound) :
    u.classes ≤ v.classes := by
  rw [hu.classes_eq, hv.classes_eq]
  exact Finset.card_le_card_of_surjOn u.root (h.surjOn hv)

/-- A finer partition with no more classes is the same one. -/
theorem Refines.joined_of_classes_le (h : v.Refines u) (hu : u.Sound) (hv : v.Sound)
    (hle : v.classes ≤ u.classes) (hp : p < u.elements) (hq : q < u.elements)
    (hpq : u.Joined p q) : v.Joined p q := by
  rw [hu.classes_eq, hv.classes_eq] at hle
  have hroot : ∀ z, z < u.elements → v.root z ∈ v.roots := fun z hz =>
    hv.root_mem_roots (h.elements_eq ▸ hz)
  have hover : ∀ z, z < u.elements → u.root (v.root z) = u.root z := fun z hz =>
    h.joined _ z (h.elements_eq ▸ (mem_roots.mp (hroot z hz)).1) hz (hv.root_root z)
  have hmaps : Set.MapsTo u.root v.roots u.roots := by
    intro r hr
    have hlt := (mem_roots.mp (Finset.mem_coe.mp hr)).1
    exact Finset.mem_coe.mpr (hu.root_mem_roots (h.elements_eq ▸ hlt))
  have hinj := Finset.injOn_of_surjOn_of_card_le u.root hmaps (h.surjOn hv) hle
  exact hinj (hroot p hp) (hroot q hq) ((hover p hp).trans (hpq.trans (hover q hq).symm))

/-- So it is known by its number of classes. -/
theorem Refines.classes_eq_iff (h : v.Refines u) (hu : u.Sound) (hv : v.Sound) :
    v.classes = u.classes ↔
      ∀ p q, p < u.elements → q < u.elements → (v.Joined p q ↔ u.Joined p q) := by
  constructor
  · intro heq p q hp hq
    exact ⟨h.joined p q hp hq, h.joined_of_classes_le hu hv (Nat.le_of_eq heq) hp hq⟩
  · intro hsame
    have hback : u.Refines v := ⟨h.elements_eq.symm, fun p q hp hq =>
      (hsame p q (h.elements_eq ▸ hp) (h.elements_eq ▸ hq)).mpr⟩
    exact Nat.le_antisymm (hback.classes_le hv hu) (h.classes_le hu hv)

end UnionFind

end FiniteState
