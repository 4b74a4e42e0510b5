import FiniteState.Proofs.UnionFind.Groups

/-!
# Growing classes from their smallest elements

Joining by size does not say which element of a class becomes its root. It does if every
union puts an element that is still alone to the class of a smaller one: a class has no
fewer elements than the one that joins it, so its root stays, on a tie as well because it
comes first. A root is then the smallest element of its class.

`Grown` has this as an invariant, beside the elements that unions have touched so far and
the calls that have been made; the step is `Grown.unite`. Merging an ascending list of
untouched elements takes such steps only (`Grown.merge`). So does joining them by a key,
whatever the keys are, as an element joins a leader that was listed before it
(`Grown.joinAlike`); and so does splitting all classes of a partition by a key, whatever
its own roots are (`Sound.grown_split`).
-/

namespace FiniteState

open Std

namespace UnionFind

variable {u : UnionFind} {x y n : Nat} {touched items : List Nat}

/-- What has become of `n` single elements, if only `touched` ones were joined, and these
so that no root is above an element of its class. -/
structure Grown (n : Nat) (touched : List Nat) (u : UnionFind) : Prop where
  exists_calls : ∃ calls, u = after n calls
  alone : ∀ x, x ∉ touched → ∀ z, u.Joined z x → z = x
  root_le : ∀ x, u.root x ≤ x

theorem grown_singletons (n : Nat) : Grown n [] (singletons n) where
  exists_calls := ⟨[], rfl⟩
  alone x _ z hz := by
    rwa [Joined, root_singletons, root_singletons] at hz
  root_le x := Nat.le_of_eq (root_singletons n x)

/-- An ascending list of elements that have not been touched. -/
structure Fresh (n : Nat) (touched items : List Nat) : Prop where
  sorted : items.Pairwise (· < ·)
  lt : ∀ x ∈ items, x < n
  untouched : ∀ x ∈ items, x ∉ touched

theorem Fresh.head_lt (h : Fresh n touched (x :: items)) : ∀ y ∈ items, x < y :=
  (List.pairwise_cons.mp h.sorted).1

theorem Fresh.tail (h : Fresh n touched (x :: items)) : Fresh n (x :: touched) items := by
  refine ⟨(List.pairwise_cons.mp h.sorted).2, fun y hy => h.lt y (List.mem_cons_of_mem _ hy), ?_⟩
  intro y hy hmem
  rcases List.mem_cons.mp hmem with rfl | hmem
  · exact Nat.lt_irrefl y (h.head_lt y hy)
  · exact h.untouched y (List.mem_cons_of_mem _ hy) hmem

theorem fresh_filter_range {f : Nat → Bool} (h : ∀ x, f x = true → x ∉ touched) :
    Fresh n touched ((List.range n).filter f) where
  sorted := List.pairwise_lt_range.filter f
  lt _ hx := List.mem_range.mp (List.mem_of_mem_filter hx)
  untouched x hx := h x (List.of_mem_filter hx)

/-- A class that is joined by a lone element keeps its root. -/
theorem survivor_of_alone (hy : y < u.elements) (halone : ∀ z, u.Joined z x → z = x) :
    u.survivor y x = u.root y := by
  have hsub : u.members (u.root x) ⊆ {x} := fun z hz =>
    Finset.mem_singleton.mpr (halone z (mem_members.mp hz).2)
  have hone : (u.members (u.root x)).card ≤ 1 := Finset.card_le_card hsub
  have hpos : 0 < (u.members (u.root y)).card :=
    Finset.card_pos.mpr ⟨y, mem_members.mpr ⟨hy, rfl⟩⟩
  exact if_neg (by omega)

namespace Grown

theorem sound (h : Grown n touched u) : u.Sound := by
  obtain ⟨calls, rfl⟩ := h.exists_calls
  exact (sound_after n calls).1

theorem elements_eq (h : Grown n touched u) : u.elements = n := by
  obtain ⟨calls, rfl⟩ := h.exists_calls
  exact (sound_after n calls).2

theorem mono {touched' : List Nat} (h : Grown n touched u) (hsub : touched ⊆ touched') :
    Grown n touched' u :=
  ⟨h.exists_calls, fun x hx => h.alone x fun hmem => hx (hsub hmem), h.root_le⟩

/-- The root of an element is the smallest element of its class. -/
theorem root_le_of_joined (h : Grown n touched u) (hxy : u.Joined y x) : u.root x ≤ y :=
  hxy ▸ h.root_le y

/-- Queries change no root. -/
theorem query (h : Grown n touched u) {c : Call} (hc : c.isQuery = true) :
    Grown n touched (u.perform c).2 := by
  have hsame := (quiet_of_isQuery hc u h.sound).same
  obtain ⟨calls, hcalls⟩ := h.exists_calls
  refine ⟨⟨calls ++ [c], ?_⟩, fun x hx z hz => ?_, fun x => ?_⟩
  · rw [after_concat, ← hcalls]
  · exact h.alone x hx z (hsame.joined_iff.mp hz)
  · exact (hsame.root_eq x).trans_le (h.root_le x)

/-- An untouched element is put to the class of a smaller one. -/
theorem unite (h : Grown n touched u) (hy : y ∈ touched) (hyx : y < x) (hx : x < n)
    (hxfresh : x ∉ touched) : Grown n (x :: touched) (u.unite y x).2 := by
  have hxu : x < u.elements := h.elements_eq ▸ hx
  have hyu : y < u.elements := Nat.lt_trans hyx hxu
  have halone := h.alone x hxfresh
  have hapart : ¬ u.Joined y x := fun hjoined => Nat.ne_of_lt hyx (halone y hjoined)
  refine ⟨?_, fun z hz t ht => ?_, fun z => ?_⟩
  · obtain ⟨calls, hcalls⟩ := h.exists_calls
    refine ⟨calls ++ [.union y x], ?_⟩
    rw [after_concat, ← hcalls, h.sound.perform_union_eq hyu hxu]
  · obtain ⟨hzx, hzfresh⟩ : z ≠ x ∧ z ∉ touched := by simpa using hz
    have hzalone := h.alone z hzfresh
    -- neither of the classes that become one is that of `z`
    rcases (h.sound.joined_unite hyu hxu).mp ht with ht | ⟨_, hzjoined⟩ | ⟨_, hzjoined⟩
    · exact hzalone t ht
    · exact absurd (hzalone x hzjoined.symm).symm hzx
    · exact absurd (hzalone y hzjoined.symm ▸ hy) hzfresh
  · rw [h.sound.root_unite hyu hxu hapart, survivor_of_alone hyu halone]
    split
    · next hjoined =>
      rcases hjoined with hzy | hzx
      · exact h.root_le_of_joined hzy
      · have hle := h.root_le y
        rw [halone z hzx]
        omega
    · exact h.root_le z

/-! ## Merging -/

theorem foldl_unite (h : Grown n touched u) (hx : x ∈ touched) (hbelow : ∀ y ∈ items, x < y)
    (hitems : Fresh n touched items) :
    Grown n (items ++ touched) (items.foldl (fun u y => (u.unite x y).2) u) := by
  induction items generalizing touched u with
  | nil => exact h
  | cons y items ih =>
      have hmem := List.mem_cons_self (a := y) (l := items)
      have hnext := h.unite hx (hbelow y hmem) (hitems.lt y hmem) (hitems.untouched y hmem)
      have hall := ih hnext (List.mem_cons_of_mem y hx)
        (fun z hz => hbelow z (List.mem_cons_of_mem y hz)) hitems.tail
      exact hall.mono List.perm_middle.subset

/-- An ascending list of untouched elements is merged. -/
theorem merge (h : Grown n touched u) (hitems : Fresh n touched items) :
    Grown n (items ++ touched) (u.merge items) := by
  cases items with
  | nil => exact h
  | cons x items =>
      have hfirst : Grown n (x :: touched) u := h.mono (List.subset_cons_self x touched)
      have hall := hfirst.foldl_unite List.mem_cons_self hitems.head_lt hitems.tail
      exact hall.mono List.perm_middle.subset

/-! ## Joining by a key -/

section Keys

variable {κ : Type} [Ord κ] [TransOrd κ] {key : Nat → κ}

/-- An ascending list of untouched elements is joined by a key, behind leaders that are
smaller. -/
theorem joinAlike {leaders : TreeMap κ Nat} (h : Grown n touched u)
    (hleaders : ∀ (k : κ) (y : Nat), leaders[k]? = some y → y ∈ touched ∧ ∀ x ∈ items, y < x)
    (hitems : Fresh n touched items) :
    Grown n (items ++ touched) (joinAlike key leaders items u) := by
  induction items generalizing leaders touched u with
  | nil => exact h
  | cons x items ih =>
      have hmem := List.mem_cons_self (a := x) (l := items)
      have hbefore : ∀ (k : κ) (y : Nat), leaders[k]? = some y →
          y ∈ x :: touched ∧ ∀ z ∈ items, y < z := fun k y hy =>
        ⟨List.mem_cons_of_mem x (hleaders k y hy).1, fun z hz =>
          (hleaders k y hy).2 z (List.mem_cons_of_mem x hz)⟩
      suffices hall : Grown n (items ++ x :: touched)
          (UnionFind.joinAlike key leaders (x :: items) u) from hall.mono List.perm_middle.subset
      unfold UnionFind.joinAlike
      dsimp only
      split
      · next y hy =>
        obtain ⟨hytouched, hbelow⟩ := hleaders _ y hy
        have hnext := h.unite hytouched (hbelow x hmem) (hitems.lt x hmem)
          (hitems.untouched x hmem)
        exact ih hnext hbefore hitems.tail
      · -- `x` leads from here on, and is smaller than what is left
        refine ih (h.mono (List.subset_cons_self x touched)) (fun k y hy => ?_) hitems.tail
        rw [TreeMap.getElem?_insert] at hy
        split at hy
        · obtain rfl := Option.some.inj hy
          exact ⟨List.mem_cons_self, hitems.head_lt⟩
        · exact hbefore k y hy

/-- Groups without common elements are joined by a key, one after the other. -/
theorem foldl_joinAlike {groups : List (List Nat)} (h : Grown n touched u)
    (hsorted : ∀ g ∈ groups, g.Pairwise (· < ·)) (hlt : ∀ x ∈ groups.flatten, x < n)
    (hnodup : groups.flatten.Nodup) (hfresh : ∀ x ∈ groups.flatten, x ∉ touched) :
    Grown n (groups.flatten ++ touched)
      (groups.foldl (fun next g => UnionFind.joinAlike key ∅ g next) u) := by
  induction groups generalizing touched u with
  | nil => exact h
  | cons g groups ih =>
      rw [List.flatten_cons] at hlt hnodup hfresh
      obtain ⟨_, hnodup', hdisjoint⟩ := List.nodup_append.mp hnodup
      have hg : Fresh n touched g := ⟨hsorted g List.mem_cons_self,
        fun x hx => hlt x (List.mem_append_left _ hx),
        fun x hx => hfresh x (List.mem_append_left _ hx)⟩
      have hfresh' : ∀ x ∈ groups.flatten, x ∉ g ++ touched := by
        intro x hx hmem
        rcases List.mem_append.mp hmem with hxg | hxt
        · exact hdisjoint x hxg x hx rfl
        · exact hfresh x (List.mem_append_right _ hx) hxt
      have hnext : Grown n (g ++ touched) (UnionFind.joinAlike key ∅ g u) :=
        h.joinAlike (fun k y hy => by simp at hy) hg
      have hall := ih hnext
        (fun g' hg' => hsorted g' (List.mem_cons_of_mem _ hg'))
        (fun x hx => hlt x (List.mem_append_right _ hx)) hnodup' hfresh'
      exact hall.mono (by grind)

end Keys

/-! ## Smallest elements -/

theorem isLeast_root (h : Grown n touched u) (hx : x < n) :
    IsLeast {y | y < n ∧ u.Joined x y} (u.root x) := by
  refine ⟨⟨?_, (h.sound.root_root x).symm⟩, fun y hy => h.root_le_of_joined hy.2.symm⟩
  exact h.elements_eq ▸ h.sound.root_lt (h.elements_eq.symm ▸ hx)

/-- Put to a larger element first, the smallest one of a class is not its root. -/
example : (after 3 [.union 1 2, .union 0 1]).root 0 = 1 := by decide +kernel

/-- The first member of a class is its root. -/
theorem root_first (h : Grown n touched u) (hx : x ∈ u.firsts) : u.root x = x :=
  Nat.le_antisymm (h.root_le x)
    (first_le hx (h.sound.root_lt (lt_of_mem_firsts hx)) (h.sound.root_root x))

theorem representatives_eq (h : Grown n touched u) : u.representatives.1.toList = u.firsts := by
  rw [h.sound.representatives_eq]
  exact (List.map_congr_left fun x hx => h.root_first hx).trans (List.map_id _)

/-- The first member of a group is its smallest one and its root. -/
theorem exists_first_of_group {i : Nat} {g : List Nat} (h : Grown n touched u)
    (hg : u.groups.1[i]? = some g) :
    ∃ f, u.firsts[i]? = some f ∧ IsLeast {y | y ∈ g} f ∧ u.root f = f := by
  rw [h.sound.groups_eq, List.getElem?_map] at hg
  obtain ⟨f, hf, rfl⟩ := Option.map_eq_some_iff.mp hg
  have hmem := List.mem_of_getElem? hf
  refine ⟨f, hf, ⟨mem_classList.mpr ⟨lt_of_mem_firsts hmem, rfl⟩, fun y hy => ?_⟩,
    h.root_first hmem⟩
  obtain ⟨hlt, hjoined⟩ := mem_classList.mp hy
  exact first_le hmem hlt hjoined

end Grown

/-- Splitting classes by a key starts from single elements again, so it does not matter
what the roots of the classes are. -/
theorem Sound.grown_split {κ : Type} [Ord κ] [TransOrd κ] (hu : u.Sound)
    (key : Nat → κ) : Grown u.elements (List.range u.elements)
      (u.groups.1.foldl (fun next g => UnionFind.joinAlike key ∅ g next)
        (.singletons u.elements)) := by
  have hlists := hu.listsClasses
  refine Grown.mono ((grown_singletons u.elements).foldl_joinAlike hlists.ascending ?_ ?_ ?_) ?_
  · exact fun x hx => List.mem_range.mp (hlists.perm.mem_iff.mp hx)
  · exact hlists.perm.nodup_iff.mpr List.nodup_range
  · exact fun x _ => List.not_mem_nil
  · rw [List.append_nil]
    exact hlists.perm.subset

end UnionFind

end FiniteState
