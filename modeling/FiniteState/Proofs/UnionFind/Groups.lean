import FiniteState.Proofs.UnionFind.Balance
import FiniteState.Proofs.UnionFind.Refinement
import Mathlib.Data.List.Sort

/-!
# Listing the classes in one scan

The classes can be listed by going through the elements once (`Scan.visit`): the root of
an element is looked up, and the element is put behind the others of the group that its
root has a slot for, or opens a group if the root has none yet. Every look-up changes
the forest that the next one is made in.

After the elements below `k`, the groups are the classes cut off at `k`, in the order of
their smallest members, and the slot of a root has the place of its class in this list
(`Scanned`). A step visits `k`. Either the class of `k` has a member below `k`, and so a
group that `k` belongs behind, or `k` is the first of its class and the next group to
open.

The list is canonical: no other list of nonempty ascending lists, ordered by their first
members, holds every element once and puts elements together just if they are in one
class (`ListsClasses.eq_groups`).
-/

namespace FiniteState

namespace UnionFind

variable {u : UnionFind} {x f k n i : Nat} {gs : List (List Nat)}

/-! ## Classes cut off -/

/-- The elements below `k` that are the smallest members of their classes. -/
def firstsBelow (u : UnionFind) (k : Nat) : List Nat :=
  (List.range k).filter fun x => (u.classList x).head? = some x

/-- The elements below `k` in one class with `x`. -/
def classBelow (u : UnionFind) (k x : Nat) : List Nat :=
  (List.range k).filter fun y => u.Joined y x

theorem mem_firstsBelow (hk : k ≤ u.elements) : f ∈ u.firstsBelow k ↔ f ∈ u.firsts ∧ f < k := by
  rw [firstsBelow, List.mem_filter, List.mem_range, decide_eq_true_eq, mem_firsts]
  constructor
  · exact fun ⟨hlt, hhead⟩ => ⟨⟨Nat.lt_of_lt_of_le hlt hk, hhead⟩, hlt⟩
  · exact fun ⟨⟨_, hhead⟩, hlt⟩ => ⟨hlt, hhead⟩

theorem firstsBelow_succ (hk : k < u.elements) :
    u.firstsBelow (k + 1) = u.firstsBelow k ++ if k ∈ u.firsts then [k] else [] := by
  rw [firstsBelow, List.range_succ, List.filter_append, firstsBelow, List.filter_cons,
    List.filter_nil]
  simp only [decide_eq_true_eq, mem_firsts, hk, true_and]

theorem classBelow_succ (u : UnionFind) (k x : Nat) : u.classBelow (k + 1) x =
    u.classBelow k x ++ if u.Joined k x then [k] else [] := by
  rw [classBelow, List.range_succ, List.filter_append, classBelow, List.filter_cons,
    List.filter_nil]
  simp only [decide_eq_true_eq]

/-- A first member has nothing of its class below it. -/
theorem classBelow_of_first (h : k ∈ u.firsts) : u.classBelow k k = [] := by
  refine List.filter_eq_nil_iff.mpr fun y hy hjoined => ?_
  have hlt := List.mem_range.mp hy
  have hle := first_le h (hlt.trans (lt_of_mem_firsts h)) (of_decide_eq_true hjoined)
  omega

/-! ## The scan -/

/-- Where a scan has got to: the places of the groups of the roots met so far, the
groups, and the forest. -/
structure Scan where
  slots : Array (Option Nat)
  groups : Array (List Nat)
  forest : UnionFind

/-- Puts one more element into the group of its root, which may have to be opened. -/
def Scan.visit (s : Scan) (x : Nat) : Scan :=
  let (r, u) := s.forest.find x
  match s.slots.getD r none with
  | some i => ⟨s.slots, s.groups.modify i (· ++ [x]), u⟩
  | none => ⟨s.slots.setIfInBounds r (some s.groups.size), s.groups.push [x], u⟩

theorem Scan.visit_of_some {s : Scan} (h : s.slots.getD (s.forest.root x) none = some i) :
    s.visit x = ⟨s.slots, s.groups.modify i (· ++ [x]), (s.forest.find x).2⟩ := by
  show (match s.slots.getD (s.forest.root x) none with | some _ => _ | none => _ : Scan) = _
  rw [h]
  rfl

theorem Scan.visit_of_none {s : Scan} (h : s.slots.getD (s.forest.root x) none = none) :
    s.visit x = ⟨s.slots.setIfInBounds (s.forest.root x) (some s.groups.size),
      s.groups.push [x], (s.forest.find x).2⟩ := by
  show (match s.slots.getD (s.forest.root x) none with | some _ => _ | none => _ : Scan) = _
  rw [h]
  rfl

/-- Goes through all elements. -/
def scan (u : UnionFind) : Scan :=
  (List.range u.elements).foldl Scan.visit ⟨.replicate u.elements none, #[], u⟩

/-- What a scan has found after the elements below `k`. -/
structure Scanned (u : UnionFind) (k : Nat) (s : Scan) : Prop where
  forest_eq : s.forest = (u.findEach (List.range k)).2
  size_slots : s.slots.size = u.elements
  groups_eq : s.groups.toList = (u.firstsBelow k).map (u.classBelow k)
  slot_iff : ∀ x i, x < u.elements →
    (s.slots.getD (u.root x) none = some i ↔ ∃ f, (u.firstsBelow k)[i]? = some f ∧ u.Joined x f)

namespace Scanned

variable {s : Scan}

theorem forest_succ (h : Scanned u k s) :
    (s.forest.find k).2 = (u.findEach (List.range (k + 1))).2 := by
  rw [h.forest_eq, snd_findEach, snd_findEach, List.range_succ, List.foldl_append]
  rfl

theorem size_groups (h : Scanned u k s) : s.groups.size = (u.firstsBelow k).length := by
  rw [← Array.length_toList, h.groups_eq, List.length_map]

/-- An element whose class has a group is put behind the others of it. -/
theorem append (h : Scanned u k s) (hk : k < u.elements) (hf : (u.firstsBelow k)[i]? = some f)
    (hjoined : u.Joined k f) :
    Scanned u (k + 1) ⟨s.slots, s.groups.modify i (· ++ [k]), (s.forest.find k).2⟩ := by
  have hfirst : ∀ {j f'}, (u.firstsBelow k)[j]? = some f' → f' ∈ u.firsts ∧ f' < k := fun hj =>
    (mem_firstsBelow (Nat.le_of_lt hk)).mp (List.mem_of_getElem? hj)
  have hnot : ¬ k ∈ u.firsts := fun hmem =>
    absurd (first_unique (hfirst hf).1 hmem hjoined.symm) (Nat.ne_of_lt (hfirst hf).2)
  refine ⟨h.forest_succ, h.size_slots, ?_, ?_⟩
  · rw [firstsBelow_succ hk, if_neg hnot, List.append_nil, Array.toList_modify, h.groups_eq]
    refine List.ext_getElem? fun j => ?_
    rw [List.getElem?_modify, List.getElem?_map, List.getElem?_map, Option.map_eq_map,
      Option.map_map]
    refine Option.map_congr fun f' hf' => ?_
    rw [Function.comp_apply, classBelow_succ]
    by_cases hij : i = j
    · subst hij
      obtain rfl := Option.some.inj (hf.symm.trans hf')
      rw [if_pos rfl, if_pos hjoined]
    · have hother : ¬ u.Joined k f' := by
        intro hjoined'
        obtain rfl := first_unique (hfirst hf).1 (hfirst hf').1 (hjoined.symm.trans hjoined')
        obtain ⟨hi, _⟩ := List.getElem?_eq_some_iff.mp hf
        have hnodup : (u.firstsBelow k).Nodup := List.nodup_range.filter _
        exact hij ((List.getElem?_inj hi hnodup).mp (hf.trans hf'.symm))
      rw [if_neg hij, if_neg hother, List.append_nil]
  · rw [firstsBelow_succ hk, if_neg hnot, List.append_nil]
    exact h.slot_iff

/-- An element that is the first of its class opens a group. -/
theorem extend (h : Scanned u k s) (hu : u.Sound) (hk : k < u.elements) (hfirst : k ∈ u.firsts) :
    Scanned u (k + 1) ⟨s.slots.setIfInBounds (u.root k) (some s.groups.size), s.groups.push [k],
      (s.forest.find k).2⟩ := by
  refine ⟨h.forest_succ, Array.size_setIfInBounds.trans h.size_slots, ?_, fun x i hx => ?_⟩
  · have hself : u.Joined k k := rfl
    rw [firstsBelow_succ hk, if_pos hfirst, Array.toList_push, h.groups_eq, List.map_append,
      List.map_singleton, classBelow_succ, classBelow_of_first hfirst, if_pos hself]
    refine congrArg (· ++ _) (List.map_congr_left fun f hf => ?_)
    obtain ⟨hmem, hlt⟩ := (mem_firstsBelow (Nat.le_of_lt hk)).mp hf
    have hother : ¬ u.Joined k f := fun hjoined =>
      absurd (first_unique hmem hfirst hjoined.symm) (Nat.ne_of_lt hlt)
    rw [classBelow_succ, if_neg hother, List.append_nil]
  · have hroot : u.root k < s.slots.size := h.size_slots ▸ hu.root_lt hk
    have hconcat : ∀ f, (u.firstsBelow k ++ [k])[i]? = some f ↔
        (u.firstsBelow k)[i]? = some f ∨ (u.firstsBelow k).length = i ∧ k = f := fun f => by
      grind
    rw [firstsBelow_succ hk, if_pos hfirst, Array.getD_eq_getD_getElem?,
      Array.getElem?_setIfInBounds]
    simp only [hconcat]
    by_cases hjoined : u.root k = u.root x
    · rw [if_pos hjoined, if_pos hroot, Option.getD_some, h.size_groups, Option.some.injEq]
      constructor
      · exact fun hi => ⟨k, .inr ⟨hi, rfl⟩, hjoined.symm⟩
      · -- the class had no group before, since its first member is `k`
        rintro ⟨f, hf | ⟨hi, _⟩, hxf⟩
        · obtain ⟨hmem, hlt⟩ :=
            (mem_firstsBelow (Nat.le_of_lt hk)).mp (List.mem_of_getElem? hf)
          exact absurd (first_unique hmem hfirst (hjoined.trans hxf).symm) (Nat.ne_of_lt hlt)
        · exact hi
    · rw [if_neg hjoined, ← Array.getD_eq_getD_getElem?, h.slot_iff x i hx]
      constructor
      · exact fun ⟨f, hf, hxf⟩ => ⟨f, .inl hf, hxf⟩
      · rintro ⟨f, hf | ⟨_, rfl⟩, hxf⟩
        · exact ⟨f, hf, hxf⟩
        · exact absurd hxf.symm hjoined

/-- A step of the scan. -/
theorem visit (h : Scanned u k s) (hu : u.Sound) (hk : k < u.elements) :
    Scanned u (k + 1) (s.visit k) := by
  obtain ⟨_, _, hsame⟩ := hu.findEach (List.range k)
  rw [← h.forest_eq] at hsame
  cases hslot : s.slots.getD (u.root k) none with
  | some i =>
      obtain ⟨f, hf, hjoined⟩ := (h.slot_iff k i hk).mp hslot
      rw [← hsame.root_eq] at hslot
      rw [Scan.visit_of_some hslot]
      exact h.append hk hf hjoined
  | none =>
      have hfirst : k ∈ u.firsts := by
        obtain ⟨f, hfirst, hjoined⟩ := exists_first hk
        rcases Nat.lt_or_eq_of_le (first_le hfirst hk hjoined) with hlt | rfl
        · have hmem := (mem_firstsBelow (Nat.le_of_lt hk)).mpr ⟨hfirst, hlt⟩
          obtain ⟨i, hi⟩ := List.mem_iff_getElem?.mp hmem
          rw [(h.slot_iff k i hk).mpr ⟨f, hi, hjoined⟩] at hslot
          cases hslot
        · exact hfirst
      have hnext := h.extend hu hk hfirst
      rw [← hsame.root_eq] at hslot hnext
      rwa [Scan.visit_of_none hslot]

end Scanned

theorem Sound.scanned (hu : u.Sound) : Scanned u u.elements u.scan := by
  have hrun : ∀ k, k ≤ u.elements → Scanned u k
      ((List.range k).foldl Scan.visit ⟨.replicate u.elements none, #[], u⟩) := by
    intro k
    induction k with
    | zero =>
        refine fun _ => ⟨rfl, Array.size_replicate, rfl, fun x i hx => ?_⟩
        simp [firstsBelow, Array.getD_eq_getD_getElem?, hu.root_lt hx]
    | succ k ih =>
        intro hk
        rw [List.range_succ, List.foldl_append]
        exact (ih (Nat.le_of_lt hk)).visit hu hk
  exact hrun u.elements (Nat.le_refl _)

/-- The scan lists the classes, and leaves the forest that looking up all elements leaves. -/
theorem Sound.scan_eq (hu : u.Sound) :
    u.scan.groups.toList = u.groups.1 ∧ u.scan.forest = u.groups.2 :=
  ⟨hu.scanned.groups_eq.trans hu.groups_eq.symm, hu.scanned.forest_eq⟩

/-! ## The list of classes is canonical -/

/-- A list of the classes: as many lists as classes are counted, nonempty and ascending,
and ordered by their first members; every element stands in them once, and two stand in
one list just if they are in one class. -/
structure ListsClasses (u : UnionFind) (gs : List (List Nat)) : Prop where
  length_eq : gs.length = u.classes
  ne_nil : ∀ g ∈ gs, g ≠ []
  perm : gs.flatten.Perm (List.range u.elements)
  ascending : ∀ g ∈ gs, g.Pairwise (· < ·)
  ordered : (gs.filterMap List.head?).Pairwise (· < ·)
  mem_iff : ∀ x y, x < u.elements → y < u.elements →
    ((∃ g ∈ gs, x ∈ g ∧ y ∈ g) ↔ u.Joined x y)

/-- Every class has one first member and one root. -/
theorem Sound.length_firsts (hu : u.Sound) : u.firsts.length = u.classes := by
  have hnodup : (u.firsts.map u.root).Nodup :=
    List.Nodup.map_on (fun _ hf _ hf' heq => first_unique hf hf' heq)
      (u.sorted_firsts.imp Nat.ne_of_lt)
  have hroots : (u.firsts.map u.root).toFinset = u.roots := by
    ext r
    rw [List.mem_toFinset, List.mem_map]
    constructor
    · rintro ⟨f, hf, rfl⟩
      exact hu.root_mem_roots (lt_of_mem_firsts hf)
    · intro hr
      obtain ⟨hlt, hroot⟩ := mem_roots.mp hr
      obtain ⟨f, hf, hjoined⟩ := exists_first hlt
      exact ⟨f, hf, hjoined.symm.trans (root_of_isRoot hroot)⟩
  rw [hu.classes_eq, ← hroots, List.toFinset_card_of_nodup hnodup, List.length_map]

theorem Sound.listsClasses (hu : u.Sound) : u.ListsClasses u.groups.1 := by
  have hclass : ∀ g ∈ u.groups.1, ∃ f ∈ u.firsts, u.classList f = g := fun g hg =>
    hu.mem_groups.mp hg
  have hascending : ∀ g ∈ u.groups.1, g.Pairwise (· < ·) := by
    intro g hg
    obtain ⟨f, _, rfl⟩ := hclass g hg
    exact u.sorted_classList f
  refine ⟨?_, fun g hg hnil => ?_, ?_, hascending, ?_, fun x y hx hy => ?_⟩
  · rw [hu.groups_eq, List.length_map, hu.length_firsts]
  · obtain ⟨f, hf, rfl⟩ := hclass g hg
    have hhead := (mem_firsts.mp hf).2
    rw [hnil] at hhead
    cases hhead
  · have hnodup : u.groups.1.flatten.Nodup :=
      List.nodup_flatten.mpr ⟨fun g hg => (hascending g hg).imp Nat.ne_of_lt, hu.disjoint_groups⟩
    refine (List.perm_ext_iff_of_nodup hnodup List.nodup_range).mpr fun x => ?_
    rw [List.mem_flatten, List.mem_range]
    constructor
    · rintro ⟨g, hg, hx⟩
      obtain ⟨f, _, rfl⟩ := hclass g hg
      exact (mem_classList.mp hx).1
    · intro hx
      obtain ⟨f, hf, hjoined⟩ := exists_first hx
      exact ⟨_, hu.mem_groups.mpr ⟨f, hf, rfl⟩, mem_classList.mpr ⟨hx, hjoined⟩⟩
  · rw [hu.heads_groups]
    exact u.sorted_firsts
  · constructor
    · rintro ⟨g, hg, hxg, hyg⟩
      obtain ⟨f, _, rfl⟩ := hclass g hg
      exact (mem_classList.mp hxg).2.trans (mem_classList.mp hyg).2.symm
    · intro hxy
      obtain ⟨f, hf, hyf⟩ := exists_first hy
      exact ⟨_, hu.mem_groups.mpr ⟨f, hf, rfl⟩, mem_classList.mpr ⟨hx, hxy.trans hyf⟩,
        mem_classList.mpr ⟨hy, hyf⟩⟩

namespace ListsClasses

variable {g : List Nat}

theorem exists_mem (h : u.ListsClasses gs) (hx : x < u.elements) : ∃ g ∈ gs, x ∈ g :=
  List.mem_flatten.mp (h.perm.mem_iff.mpr (List.mem_range.mpr hx))

theorem lt_of_mem (h : u.ListsClasses gs) (hg : g ∈ gs) (hx : x ∈ g) : x < u.elements :=
  List.mem_range.mp (h.perm.mem_iff.mp (List.mem_flatten.mpr ⟨g, hg, hx⟩))

theorem eq_of_mem (h : u.ListsClasses gs) {g' : List Nat} (hg : g ∈ gs) (hg' : g' ∈ gs)
    (hx : x ∈ g) (hx' : x ∈ g') : g = g' := by
  have hdisjoint := (List.nodup_flatten.mp (h.perm.nodup_iff.mpr List.nodup_range)).2
  have : Std.Symm (List.Disjoint : List Nat → List Nat → Prop) := ⟨fun _ _ hd => hd.symm⟩
  by_contra hne
  exact hdisjoint.forall hg hg' hne hx hx'

/-- A list is the class of what stands in it. -/
theorem eq_classList (h : u.ListsClasses gs) (hg : g ∈ gs) (hf : f ∈ g) : g = u.classList f := by
  refine List.Pairwise.eq_of_mem_iff (h.ascending g hg) (u.sorted_classList f) fun y => ?_
  rw [mem_classList]
  constructor
  · intro hy
    have hlt := h.lt_of_mem hg hy
    exact ⟨hlt, (h.mem_iff y f hlt (h.lt_of_mem hg hf)).mp ⟨g, hg, hy, hf⟩⟩
  · rintro ⟨hlt, hjoined⟩
    obtain ⟨g', hg', hy, hf'⟩ := (h.mem_iff y f hlt (h.lt_of_mem hg hf)).mpr hjoined
    rwa [h.eq_of_mem hg hg' hf hf']

theorem heads_eq (h : u.ListsClasses gs) : gs.filterMap List.head? = u.firsts := by
  have hfirst : ∀ g ∈ gs, ∀ f, g.head? = some f → f ∈ u.firsts := by
    intro g hg f hhead
    have hf := List.mem_of_head? hhead
    rw [h.eq_classList hg hf] at hhead
    exact mem_firsts.mpr ⟨h.lt_of_mem hg hf, hhead⟩
  refine List.Pairwise.eq_of_mem_iff h.ordered u.sorted_firsts fun f => ?_
  rw [List.mem_filterMap]
  constructor
  · exact fun ⟨g, hg, hhead⟩ => hfirst g hg f hhead
  · intro hf
    obtain ⟨g, hg, hfg⟩ := h.exists_mem (lt_of_mem_firsts hf)
    refine ⟨g, hg, ?_⟩
    rw [h.eq_classList hg hfg]
    exact (mem_firsts.mp hf).2

/-- There is one list of the classes. -/
theorem eq_groups (h : u.ListsClasses gs) (hu : u.Sound) : gs = u.groups.1 := by
  have hclass : ∀ g ∈ gs, g.head?.map u.classList = some g := by
    intro g hg
    cases g with
    | nil => exact absurd rfl (h.ne_nil [] hg)
    | cons f g => exact congrArg some (h.eq_classList hg List.mem_cons_self).symm
  calc gs = gs.filterMap some := List.filterMap_some.symm
    _ = gs.filterMap fun g => g.head?.map u.classList :=
      List.filterMap_congr fun g hg => (hclass g hg).symm
    _ = (gs.filterMap List.head?).map u.classList := List.map_filterMap.symm
    _ = u.groups.1 := by rw [h.heads_eq, hu.groups_eq]

end ListsClasses

/-! ## Any number of queries -/

theorem twins_after_queries {calls queries : List Call}
    (hqueries : ∀ c ∈ queries, c.isQuery = true) :
    Twins (after n (calls ++ queries)) (after n calls) := by
  induction queries using List.reverseRecOn with
  | nil =>
      rw [List.append_nil]
      exact .refl (sound_after n calls).1
  | append_singleton queries c ih =>
      have hprev := ih fun c' hc' => hqueries c' (List.mem_append_left _ hc')
      rw [← List.append_assoc, after_concat]
      exact (quiet_of_isQuery (hqueries c (by simp)) _ hprev.left).trans hprev

/-- A representative is the root of the class in its place. -/
theorem Sound.root_of_mem_group (hu : u.Sound) {g : List Nat} {r : Nat}
    (hg : u.groups.1[i]? = some g) (hr : u.representatives.1.toList[i]? = some r) :
    r ∈ g ∧ ∀ x ∈ g, u.root x = r := by
  rw [hu.groups_eq, List.getElem?_map] at hg
  rw [hu.representatives_eq, List.getElem?_map] at hr
  obtain ⟨f, hf, rfl⟩ := Option.map_eq_some_iff.mp hg
  rw [hf] at hr
  obtain rfl := Option.some.inj hr
  have hlt := lt_of_mem_firsts (List.mem_of_getElem? hf)
  refine ⟨mem_classList.mpr ⟨hu.root_lt hlt, hu.root_root f⟩, fun x hx => ?_⟩
  exact (mem_classList.mp hx).2

/-- **Listing the classes.** After any run of calls there is one list of the classes: of
as many lists as classes are counted, nonempty and ascending and ordered by their first
members, in which every element stands once, and two stand in one list just if they are
in one class. A scan that looks up one element after the other finds this list, and
leaves the forest as the call does. There are as many representatives, each a member of
the list in its place. All this is answered again after any number of queries: two
elements are said to be in one class just if they stand in one list, and looking up an
element finds the representative of the list that it stands in. -/
theorem groups_list_classes (n : Nat) (calls : List Call) :
    let u := after n calls
    ∃ (gs : List (List Nat)) (reps : List Nat),
      (u.ListsClasses gs ∧ ∀ gs', u.ListsClasses gs' → gs' = gs) ∧
      (u.scan.groups.toList = gs ∧ u.scan.forest = (u.perform .groups).2) ∧
      (reps.length = gs.length ∧ ∀ (i : Nat) g r, gs[i]? = some g → reps[i]? = some r → r ∈ g) ∧
      ∀ queries, (∀ c ∈ queries, c.isQuery = true) →
        let v := after n (calls ++ queries)
        v.classes = gs.length ∧
        (v.perform .groups).1 = .ok (.groups gs) ∧
        (v.perform .representatives).1 = .ok (.numbers reps) ∧
        (∀ x y : Fin n, (v.perform (.sameClass x y)).1 =
          .ok (.flag (decide (∃ g ∈ gs, (x : Nat) ∈ g ∧ (y : Nat) ∈ g)))) ∧
        ∀ (i : Nat) g r, gs[i]? = some g → reps[i]? = some r →
          ∀ x ∈ g, (v.perform (.find x)).1 = .ok (.number r) := by
  intro u
  obtain ⟨hu, helements⟩ := sound_after n calls
  have hlists := hu.listsClasses
  refine ⟨u.groups.1, u.representatives.1.toList, ⟨hlists, fun _ h => h.eq_groups hu⟩,
    hu.scan_eq, ⟨?_, fun i g r hg hr => (hu.root_of_mem_group hg hr).1⟩, fun queries hqueries => ?_⟩
  · rw [hu.representatives_eq, hu.groups_eq, List.length_map, List.length_map]
  · intro v
    have htwins : Twins v u := twins_after_queries hqueries
    have hgroups : (v.perform .groups).1 = .ok (.groups v.groups.1) := rfl
    have hreps : (v.perform .representatives).1 = .ok (.numbers v.representatives.1.toList) := rfl
    refine ⟨htwins.same.classes_eq.trans hlists.length_eq.symm,
      by rw [hgroups, htwins.groups_eq],
      by rw [hreps, htwins.representatives_eq], fun x y => ?_, fun i g r hg hr x hx => ?_⟩
    · have hx := lt_elements_after (calls ++ queries) x
      have hy := lt_elements_after (calls ++ queries) y
      rw [htwins.left.perform_sameClass hx hy]
      refine congrArg (fun b => Except.ok (Answer.flag b)) (Bool.eq_iff_iff.mpr ?_)
      rw [(htwins.left.sameClass x y).1, htwins.same.joined_iff, decide_eq_true_eq]
      exact (hlists.mem_iff x y (lt_elements_after calls x) (lt_elements_after calls y)).symm
    · have hlt := hlists.lt_of_mem (List.mem_of_getElem? hg) hx
      rw [perform_find (htwins.same.elements_eq ▸ hlt), htwins.same.root_eq,
        (hu.root_of_mem_group hg hr).2 x hx]

/-- A merge that fails half way, and a union that puts the smaller element below. -/
def tangled : List Call := [.merge [3, 0, 9, 4], .union 4 2]

/-- The representative of a class need not be its first member. -/
theorem listsClasses_tangled :
    (after 5 tangled).ListsClasses [[0, 3], [1], [2, 4]] ∧
      (after 5 tangled).scan.groups.toList = [[0, 3], [1], [2, 4]] ∧
      ((after 5 (tangled ++ [.find 0, .sameClass 1 7])).perform (.find 0)).1 =
        .ok (.number 3) := by
  obtain ⟨gs, reps, ⟨hlists, _⟩, ⟨hscan, _⟩, _, hqueries⟩ := groups_list_classes 5 tangled
  obtain ⟨_, hgroups, hreps, _, hfind⟩ := hqueries [.find 0, .sameClass 1 7] (by decide)
  have hanswer : ((after 5 (tangled ++ [.find 0, .sameClass 1 7])).perform .groups).1 =
      .ok (.groups [[0, 3], [1], [2, 4]]) := by decide +kernel
  have hanswer' : ((after 5 (tangled ++ [.find 0, .sameClass 1 7])).perform .representatives).1 =
      .ok (.numbers [3, 1, 4]) := by decide +kernel
  obtain rfl : gs = [[0, 3], [1], [2, 4]] := by simpa using hgroups.symm.trans hanswer
  obtain rfl : reps = [3, 1, 4] := by simpa using hreps.symm.trans hanswer'
  exact ⟨hlists, hscan, hfind 0 [0, 3] 3 rfl rfl 0 (by decide)⟩

end UnionFind

end FiniteState
