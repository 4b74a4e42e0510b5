import FiniteState.Proofs.UnionFind.Join
import Mathlib.SetTheory.Cardinal.Finite

/-!
# The classes, listed

What `groups`, `representatives` and `groupNumbers` say of a sound
partition. All of it is read off one list: `firsts`, the smallest members
of the classes, ascending. A class is listed under its first member
(`Sound.groups_eq`), is represented by the root of that member
(`Sound.representatives_eq`), and is numbered by its place
(`Sound.classNumber_eq_iff`). So the list of classes depends on the
classes alone, and looking things up while it is made does not disturb
it.
-/

namespace FiniteState

namespace UnionFind

variable {u v : UnionFind} {x y i : Nat}

/-- The elements in one class with `x`, ascending. -/
def classList (u : UnionFind) (x : Nat) : List Nat :=
  (List.range u.elements).filter fun y => u.Joined y x

/-- The smallest members of the classes, ascending. -/
def firsts (u : UnionFind) : List Nat :=
  (List.range u.elements).filter fun x => (u.classList x).head? = some x

/-- The place, among the listed classes, of the class that holds `x`. -/
def classNumber (u : UnionFind) (x : Nat) : Nat := u.groups.1.findIdx fun group => x ∈ group

theorem mem_classList : y ∈ u.classList x ↔ y < u.elements ∧ u.Joined y x := by
  rw [classList, List.mem_filter, List.mem_range, decide_eq_true_eq]

theorem classList_congr (h : u.Joined x y) : u.classList x = u.classList y := by
  refine List.filter_congr fun z _ => decide_eq_decide.mpr ?_
  rw [Joined, Joined, h]

theorem sorted_classList (u : UnionFind) (x : Nat) : (u.classList x).Pairwise (· < ·) :=
  List.pairwise_lt_range.filter _

/-! ## First members -/

theorem sorted_firsts (u : UnionFind) : u.firsts.Pairwise (· < ·) :=
  List.pairwise_lt_range.filter _

theorem mem_firsts : x ∈ u.firsts ↔ x < u.elements ∧ (u.classList x).head? = some x := by
  rw [firsts, List.mem_filter, List.mem_range, decide_eq_true_eq]

theorem lt_of_mem_firsts (h : x ∈ u.firsts) : x < u.elements := (mem_firsts.mp h).1

/-- A first member is the smallest of its class. -/
theorem first_le (hx : x ∈ u.firsts) (hy : y < u.elements) (h : u.Joined y x) : x ≤ y := by
  have hhead := (mem_firsts.mp hx).2
  have hmem : y ∈ u.classList x := mem_classList.mpr ⟨hy, h⟩
  have hsorted := u.sorted_classList x
  cases hl : u.classList x with
  | nil => simp [hl] at hhead
  | cons z l =>
      rw [hl] at hhead hmem hsorted
      obtain rfl := Option.some.inj hhead
      rcases List.mem_cons.mp hmem with rfl | hmem
      · exact Nat.le_refl _
      · exact Nat.le_of_lt ((List.pairwise_cons.mp hsorted).1 y hmem)

theorem exists_first (hx : x < u.elements) : ∃ f ∈ u.firsts, u.Joined x f := by
  cases hl : u.classList x with
  | nil =>
      have hmem : x ∈ u.classList x := mem_classList.mpr ⟨hx, rfl⟩
      rw [hl] at hmem
      exact absurd hmem List.not_mem_nil
  | cons f l =>
      have hf : f ∈ u.classList x := hl ▸ List.mem_cons_self ..
      obtain ⟨hlt, hjoined⟩ := mem_classList.mp hf
      refine ⟨f, mem_firsts.mpr ⟨hlt, ?_⟩, hjoined.symm⟩
      rw [classList_congr hjoined, hl]
      rfl

theorem first_unique (hx : x ∈ u.firsts) (hy : y ∈ u.firsts) (h : u.Joined x y) : x = y :=
  Nat.le_antisymm (first_le hx (lt_of_mem_firsts hy) h.symm) (first_le hy (lt_of_mem_firsts hx) h)

theorem SameRoots.classList_eq (h : SameRoots v u) (x : Nat) : v.classList x = u.classList x := by
  rw [classList, classList, h.elements_eq]
  exact List.filter_congr fun z _ => decide_eq_decide.mpr h.joined_iff

theorem SameRoots.firsts_eq (h : SameRoots v u) : v.firsts = u.firsts := by
  rw [firsts, firsts, h.elements_eq]
  exact List.filter_congr fun x _ => by rw [h.classList_eq]

/-! ## The list of classes -/

/-- Writing one value at many places of a table. -/
theorem getElem?_foldl_setIfInBounds {α : Type} (a : α) (l : List Nat) (table : Array α) {x : Nat}
    (hx : x < table.size) :
    (l.foldl (·.setIfInBounds · a) table)[x]? = if x ∈ l then some a else table[x]? := by
  induction l generalizing table with
  | nil => simp
  | cons y l ih =>
      rw [List.foldl_cons, ih _ (by simpa using hx), Array.getElem?_setIfInBounds]
      by_cases hxy : y = x
      · simp [hxy, hx]
      · simp [hxy, Ne.symm hxy]

theorem size_foldl_setIfInBounds {α : Type} (a : α) (l : List Nat) (table : Array α) :
    (l.foldl (·.setIfInBounds · a) table).size = table.size := by
  induction l generalizing table with
  | nil => rfl
  | cons y l ih => exact (ih _).trans Array.size_setIfInBounds

theorem getElem?_positions (labels : Array Nat) {r : Nat} (hr : r < labels.size) :
    (positions labels)[r]? =
      some ((List.range labels.size).filter fun x => labels.getD x x = r) := by
  have hfold : ∀ (l : List Nat) (table : Array (List Nat)),
      (l.foldr (fun x table => table.modify (labels.getD x x) (x :: ·)) table)[r]? =
        (table[r]?).map ((l.filter fun x => labels.getD x x = r) ++ ·) := by
    intro l table
    induction l with
    | nil => simp
    | cons x l ih =>
        rw [List.foldr_cons, Array.getElem?_modify, ih, List.filter_cons]
        by_cases hx : labels.getD x x = r
        · rw [if_pos hx, if_pos (decide_eq_true hx), Option.map_map]
          rfl
        · rw [if_neg hx, if_neg (mt of_decide_eq_true hx)]
  rw [positions, hfold]
  simp [hr]

theorem Sound.size_findAll (h : u.Sound) : u.findAll.1.size = u.elements := by
  rw [← Array.length_toList, h.findAll.1, List.length_map, List.length_range]

theorem Sound.groups_eq (h : u.Sound) : u.groups.1 = u.firsts.map u.classList := by
  have hsize := h.size_findAll
  have hclass : ∀ x, x < u.elements →
      (positions u.findAll.1)[u.findAll.1.getD x x]? = some (u.classList x) := by
    intro x hx
    rw [getElem?_positions _ (by rw [hsize, h.getD_findAll]; exact h.root_lt hx), hsize]
    simp only [h.getD_findAll]
    rfl
  have hfilter : ∀ (l : List Nat), (∀ x ∈ l, x < u.elements) →
      l.filterMap (fun x => ((positions u.findAll.1)[u.findAll.1.getD x x]?).filter
        fun members => members.head? == some x) =
        (l.filter fun x => (u.classList x).head? = some x).map u.classList := by
    intro l hl
    induction l with
    | nil => rfl
    | cons x l ih =>
        rw [List.filterMap_cons, List.filter_cons, hclass x (hl x (List.mem_cons_self ..)),
          ih fun y hy => hl y (List.mem_cons_of_mem _ hy)]
        by_cases hx : (u.classList x).head? = some x
        · simp [hx, Option.filter]
        · simp [hx, Option.filter]
  rw [groups, firsts, ← hfilter _ fun x hx => List.mem_range.mp hx, ← hsize]

theorem Sound.groups (h : u.Sound) : u.groups.2.Sound ∧ u.groups.2.SameRoots u := h.findAll.2

theorem Sound.heads_groups (h : u.Sound) : u.groups.1.filterMap List.head? = u.firsts := by
  rw [h.groups_eq, List.filterMap_map]
  have hsome : ∀ (l : List Nat), (∀ x ∈ l, x ∈ u.firsts) →
      l.filterMap (List.head? ∘ u.classList) = l := by
    intro l hl
    induction l with
    | nil => rfl
    | cons x l ih =>
        rw [List.filterMap_cons, Function.comp_apply,
          (mem_firsts.mp (hl x (List.mem_cons_self ..))).2,
          ih fun y hy => hl y (List.mem_cons_of_mem _ hy)]
  exact hsome _ fun _ hx => hx

theorem Sound.representatives_eq (h : u.Sound) :
    u.representatives.1.toList = u.firsts.map u.root := by
  show (u.groups.2.findEach (u.groups.1.filterMap List.head?)).1.toList = _
  rw [(h.groups.1.findEach _).1, h.heads_groups]
  exact List.map_congr_left fun x _ => h.groups.2.root_eq x

theorem Sound.representatives (h : u.Sound) :
    u.representatives.2.Sound ∧ u.representatives.2.SameRoots u := by
  obtain ⟨_, hv, hs⟩ := h.groups.1.findEach (u.groups.1.filterMap List.head?)
  exact ⟨hv, hs.trans h.groups.2⟩

theorem Sound.mem_groups (h : u.Sound) {group : List Nat} :
    group ∈ u.groups.1 ↔ ∃ f ∈ u.firsts, u.classList f = group := by
  rw [h.groups_eq, List.mem_map]

/-! ## Counting classes -/

/-- Where being in one class is some equivalence of the elements, there are as
many classes as it has. -/
theorem Sound.classes_eq_card {n : Nat} (h : u.Sound) (helements : u.elements = n)
    {s : Setoid (Fin n)} (hs : ∀ x y : Fin n, u.Joined x y ↔ s.r x y) :
    u.classes = Nat.card (Quotient s) := by
  subst helements
  let classOf : u.roots → Quotient s := fun r => Quotient.mk s ⟨r, (mem_roots.mp r.2).1⟩
  have hbijective : Function.Bijective classOf := by
    constructor
    · intro r r' hrr'
      have hjoined := (hs _ _).mpr (Quotient.exact hrr')
      rw [Joined, root_of_isRoot (mem_roots.mp r.2).2, root_of_isRoot (mem_roots.mp r'.2).2]
        at hjoined
      exact Subtype.ext hjoined
    · intro k
      induction k using Quotient.ind with
      | _ x =>
          exact ⟨⟨_, h.root_mem_roots x.2⟩, Quotient.sound ((hs _ _).mp (h.root_root x))⟩
  rw [h.classes_eq, ← Nat.card_congr (Equiv.ofBijective classOf hbijective),
    Nat.card_eq_fintype_card, Fintype.card_coe]

/-! ## Numbers of classes -/

theorem Sound.classNumber_eq_iff (h : u.Sound) (hx : x < u.elements) :
    u.classNumber x = i ↔ ∃ f, u.firsts[i]? = some f ∧ u.Joined x f := by
  have hnumber : u.classNumber x = u.firsts.findIdx fun f => decide (u.Joined x f) := by
    rw [classNumber, h.groups_eq, List.findIdx_map]
    congr 1
    funext f
    simp [mem_classList, hx]
  -- the first class found is the only one
  have hplace : ∀ {i f}, u.firsts[i]? = some f → u.Joined x f → u.classNumber x = i := by
    intro i f hi hjoined
    obtain ⟨hlt, rfl⟩ := List.getElem?_eq_some_iff.mp hi
    rw [hnumber, List.findIdx_eq hlt]
    refine ⟨decide_eq_true hjoined, fun j hj => decide_eq_false fun hj' => ?_⟩
    have heq := first_unique (List.getElem_mem _) (List.getElem_mem _) (hj'.symm.trans hjoined)
    exact Nat.ne_of_lt (List.pairwise_iff_getElem.mp u.sorted_firsts j i _ hlt hj) heq
  obtain ⟨f, hf, hjoined⟩ := exists_first hx
  obtain ⟨j, hj⟩ := List.mem_iff_getElem?.mp hf
  constructor
  · rintro rfl
    rw [hplace hj hjoined]
    exact ⟨f, hj, hjoined⟩
  · rintro ⟨f', hi, hjoined'⟩
    exact hplace hi hjoined'

theorem Sound.classNumber_eq_classNumber_iff (h : u.Sound) (hx : x < u.elements)
    (hy : y < u.elements) : u.classNumber x = u.classNumber y ↔ u.Joined x y := by
  obtain ⟨f, hf, hyf⟩ := (h.classNumber_eq_iff hy).mp rfl
  rw [h.classNumber_eq_iff hx]
  constructor
  · rintro ⟨f', hf', hxf⟩
    obtain rfl := Option.some.inj (hf.symm.trans hf')
    exact hxf.trans hyf.symm
  · exact fun hxy => ⟨f, hf, hxy.trans hyf⟩

theorem Sound.classNumber_lt (h : u.Sound) (hx : x < u.elements) :
    u.classNumber x < u.firsts.length := by
  obtain ⟨f, hf, _⟩ := (h.classNumber_eq_iff hx).mp rfl
  exact (List.getElem?_eq_some_iff.mp hf).1

/-- The class with a number is the one that the list of classes has
there. -/
theorem Sound.mem_group_iff (h : u.Sound) {group : List Nat} (hg : u.groups.1[i]? = some group) :
    x ∈ group ↔ x < u.elements ∧ u.classNumber x = i := by
  rw [h.groups_eq, List.getElem?_map] at hg
  obtain ⟨f, hf, rfl⟩ := Option.map_eq_some_iff.mp hg
  rw [mem_classList]
  refine and_congr_right fun hx => ?_
  rw [h.classNumber_eq_iff hx]
  exact ⟨fun hj => ⟨f, hf, hj⟩, fun ⟨f', hf', hj⟩ => Option.some.inj (hf'.symm.trans hf) ▸ hj⟩

theorem Sound.exists_group_iff (h : u.Sound) (hx : x < u.elements) :
    (∃ group, u.groups.1[i]? = some group ∧ x ∈ group) ↔ u.classNumber x = i := by
  constructor
  · rintro ⟨group, hg, hmem⟩
    exact ((h.mem_group_iff hg).mp hmem).2
  · intro hclass
    obtain ⟨f, hf, hjoined⟩ := (h.classNumber_eq_iff hx).mp hclass
    refine ⟨u.classList f, ?_, mem_classList.mpr ⟨hx, hjoined⟩⟩
    rw [h.groups_eq, List.getElem?_map, hf]
    rfl

theorem groupNumbers_eq (elements : Nat) (groups : List (List Nat)) :
    groupNumbers elements groups = groups.zipIdx.foldl
      (fun table e => e.1.foldl (·.setIfInBounds · e.2) table) (.replicate elements 0) := rfl

/-- After all groups have been written, a place has the one number that it
was given. -/
theorem getElem?_foldl_groups {l : List (List Nat × Nat)} {table : Array Nat}
    (hx : x < table.size) (hall : ∀ e ∈ l, x ∈ e.1 → e.2 = i)
    (hsome : table[x]? = some i ∨ ∃ e ∈ l, x ∈ e.1) :
    (l.foldl (fun table e => e.1.foldl (·.setIfInBounds · e.2) table) table)[x]? = some i := by
  induction l generalizing table with
  | nil =>
      rcases hsome with hsome | ⟨_, he, _⟩
      · exact hsome
      · exact absurd he List.not_mem_nil
  | cons e l ih =>
      have hwrite := getElem?_foldl_setIfInBounds e.2 e.1 table hx
      refine ih (by rwa [size_foldl_setIfInBounds])
        (fun e' he' => hall e' (List.mem_cons_of_mem _ he')) ?_
      by_cases hxe : x ∈ e.1
      · left
        rw [hwrite, if_pos hxe, hall e List.mem_cons_self hxe]
      · rw [hwrite, if_neg hxe]
        refine hsome.imp_right ?_
        rintro ⟨e', he', hxe'⟩
        exact ⟨e', (List.mem_cons.mp he').resolve_left fun heq => hxe (heq ▸ hxe'), hxe'⟩

theorem Sound.getD_groupNumbers (h : u.Sound) (hx : x < u.elements) :
    (groupNumbers u.elements u.groups.1).getD x 0 = u.classNumber x := by
  obtain ⟨group, hg, hmem⟩ := (h.exists_group_iff hx).mpr rfl
  have hgroup : (group, u.classNumber x) ∈ u.groups.1.zipIdx :=
    List.mem_zipIdx_iff_getElem?.mpr hg
  have hall : ∀ e ∈ u.groups.1.zipIdx, x ∈ e.1 → e.2 = u.classNumber x := fun e he hxe =>
    ((h.mem_group_iff (List.mem_zipIdx_iff_getElem?.mp he)).mp hxe).2.symm
  have hsize : x < (Array.replicate u.elements 0).size := by rwa [Array.size_replicate]
  rw [groupNumbers_eq, Array.getD_eq_getD_getElem?,
    getElem?_foldl_groups hsize hall (.inr ⟨_, hgroup, hmem⟩)]
  rfl

end UnionFind

end FiniteState
