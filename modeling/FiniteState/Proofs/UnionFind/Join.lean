import FiniteState.Proofs.UnionFind.Forest

/-!
# Joining classes

What `unite` and `merge` do to the classes, and that they keep the
invariant. Everything happens in one step, the hanging of one root under
another: `Hung` says all that can be seen of it, and `Sound.hang` that
it keeps the forest sound as long as the smaller class is hung under the
larger one. This is where the ranks pay: a class whose rank has to grow
has at least doubled.

`Sound.unite_cases` is the inversion of `unite`, with the choice of the
new root in it; `Sound.joined_unite` and `Sound.merge` are what most uses
need, the classes without their roots.
-/

namespace FiniteState

namespace UnionFind

variable {u v : UnionFind} {r s x y p q : Nat}

/-- The elements are in one class. -/
def Joined (u : UnionFind) (x y : Nat) : Prop := u.root x = u.root y

instance (u : UnionFind) (x y : Nat) : Decidable (u.Joined x y) :=
  inferInstanceAs (Decidable (u.root x = u.root y))

theorem SameRoots.joined_iff (h : SameRoots v u) : v.Joined p q ↔ u.Joined p q := by
  rw [Joined, Joined, h.root_eq, h.root_eq]

/-- Asking whether two elements share a class answers by their roots, and
leaves the roots as they are. -/
theorem Sound.sameClass (h : u.Sound) (x y : Nat) :
    ((u.sameClass x y).1 = true ↔ u.Joined x y) ∧ (u.sameClass x y).2.Sound ∧
      (u.sameClass x y).2.SameRoots u := by
  obtain ⟨hv, hvs⟩ := h.find x
  obtain ⟨hw, hws⟩ := hv.find y
  refine ⟨?_, hw, hws.trans hvs⟩
  show (u.root x == (u.find x).2.root y) = true ↔ _
  rw [hvs.root_eq, beq_iff_eq]
  exact Iff.rfl

/-! ## Hanging one root under another -/

/-- `v` is `u` with the class of the root `s` put under the root `r`. -/
structure Hung (v u : UnionFind) (r s : Nat) : Prop where
  elements_eq : v.elements = u.elements
  root_eq : ∀ x, v.root x = if u.root x = s then r else u.root x
  classes_eq : v.classes + 1 = u.classes

theorem Hung.joined_iff (h : Hung v u r s) (hr : u.root r = r) (hs : u.root s = s) :
    v.Joined p q ↔
      u.Joined p q ∨ (u.Joined p r ∧ u.Joined q s) ∨ (u.Joined p s ∧ u.Joined q r) := by
  simp only [Joined, h.root_eq, hr, hs]
  split <;> split <;> grind

theorem elements_hang (u : UnionFind) (r s : Nat) : (u.hang r s).elements = u.elements :=
  Array.size_setIfInBounds

theorem isRoot_hang (hs : s < u.elements) (hne : r ≠ s) (z : Nat) :
    (u.hang r s).IsRoot z ↔ u.IsRoot z ∧ z ≠ s := by
  rw [IsRoot, parentOf, hang, getD_setIfInBounds_self _ hs]
  by_cases hz : z = s
  · simp [hz, hne]
  · rw [if_neg hz]
    exact ⟨fun h => ⟨h, hz⟩, And.left⟩

/-- Only the new root needs a higher rank, and only when the ranks were
equal before. -/
theorem Ranked.hang {rank : Nat → Nat} (h : u.Ranked rank) (hr : u.IsRoot r)
    (hrn : r < u.elements) (hsn : s < u.elements) (hne : r ≠ s) :
    (u.hang r s).Ranked (Function.update rank r (max (rank r) (rank s + 1))) := by
  have hparent : ∀ z, (u.hang r s).parentOf z = if z = s then r else u.parentOf z :=
    getD_setIfInBounds_self u.parent hsn
  have hup : ∀ z, rank z ≤ Function.update rank r (max (rank r) (rank s + 1)) z := by
    intro z
    by_cases hz : z = r
    · rw [hz, Function.update_self]
      exact Nat.le_max_left _ _
    · rw [Function.update_of_ne hz]
  constructor
  · intro z hz
    rw [elements_hang] at hz ⊢
    rw [hparent]
    split
    · exact hrn
    · exact h.parentOf_lt z hz
  · intro z hz
    rw [isRoot_hang hsn hne] at hz
    rw [hparent]
    split
    · next hzs =>
      rw [hzs, Function.update_self, Function.update_of_ne hne.symm]
      exact Nat.lt_of_lt_of_le (Nat.lt_succ_self _) (Nat.le_max_right _ _)
    · next hzs =>
      have hroot : ¬ u.IsRoot z := fun hroot => hz ⟨hroot, hzs⟩
      have hzr : z ≠ r := fun he => hroot (he ▸ hr)
      rw [Function.update_of_ne hzr]
      exact Nat.lt_of_lt_of_le (h.rank_lt z hroot) (hup _)

theorem Ranked.root_hang {rank : Nat → Nat} (h : u.Ranked rank) (hr : u.IsRoot r)
    (hs : u.IsRoot s) (hrn : r < u.elements) (hsn : s < u.elements) (hne : r ≠ s) (x : Nat) :
    (u.hang r s).root x = if u.root x = s then r else u.root x := by
  have hroots := isRoot_hang hsn hne
  have hparent : ∀ z, (u.hang r s).parentOf z = if z = s then r else u.parentOf z :=
    getD_setIfInBounds_self u.parent hsn
  refine (h.hang hr hrn hsn hne).root_unique (f := fun x => if u.root x = s then r else u.root x)
    (fun z hz => ?_) (fun z hz => ?_) x
  · obtain ⟨hz, hzs⟩ := (hroots z).mp hz
    show (if u.root z = s then r else u.root z) = z
    rw [root_of_isRoot hz, if_neg hzs]
  · show (if u.root ((u.hang r s).parentOf z) = s then r else _) = _
    rw [hparent]
    by_cases hzs : z = s
    · subst hzs
      rw [if_pos rfl, root_of_isRoot hr, root_of_isRoot hs, if_neg hne, if_pos rfl]
    · rw [if_neg hzs, h.root_parentOf]

theorem Sound.size_hang (h : u.Sound) (hrn : r < u.elements) (z : Nat) :
    (u.hang r s).size.getD z 0 =
      if z = r then u.size.getD r 0 + u.size.getD s 0 else u.size.getD z 0 := by
  rw [UnionFind.hang, Array.getD_eq_getD_getElem?, Array.getElem?_setIfInBounds]
  by_cases hz : z = r
  · subst hz
    simp [h.size_size, hrn]
  · simp [hz, Ne.symm hz]

theorem roots_hang (hsn : s < u.elements) (hne : r ≠ s) :
    (u.hang r s).roots = u.roots.erase s := by
  ext z
  rw [Finset.mem_erase, mem_roots, mem_roots, elements_hang, isRoot_hang hsn hne]
  exact ⟨fun h => ⟨h.2.2, h.1, h.2.1⟩, fun h => ⟨h.2.1, h.2.2, h.1⟩⟩

theorem Ranked.members_hang {rank : Nat → Nat} (h : u.Ranked rank) (hr : u.IsRoot r)
    (hs : u.IsRoot s) (hrn : r < u.elements) (hsn : s < u.elements) (hne : r ≠ s) {z : Nat}
    (hz : z ≠ s) :
    (u.hang r s).members z = if z = r then u.members r ∪ u.members s else u.members z := by
  ext x
  rw [mem_members, elements_hang, h.root_hang hr hs hrn hsn hne]
  by_cases hzr : z = r
  · rw [if_pos hzr, Finset.mem_union, mem_members, mem_members]
    split <;> grind
  · rw [if_neg hzr, mem_members]
    split <;> grind

theorem Sound.hang (h : u.Sound) (hr : u.IsRoot r) (hs : u.IsRoot s) (hrn : r < u.elements)
    (hsn : s < u.elements) (hne : r ≠ s) (hle : u.size.getD s 0 ≤ u.size.getD r 0) :
    (u.hang r s).Sound ∧ (u.hang r s).Hung u r s := by
  obtain ⟨rank, hranked, hrank⟩ := h.ranked
  have hroots := isRoot_hang hsn hne
  have hsroots : s ∈ u.roots := mem_roots.mpr ⟨hsn, hs⟩
  have hdisjoint : Disjoint (u.members r) (u.members s) :=
    Finset.disjoint_left.mpr fun x hx hx' =>
      hne ((mem_members.mp hx).2.symm.trans (mem_members.mp hx').2)
  refine ⟨⟨?_, ⟨_, hranked.hang hr hrn hsn hne, ?_⟩, ?_, ?_⟩, elements_hang u r s,
    hranked.root_hang hr hs hrn hsn hne, ?_⟩
  · rw [elements_hang, ← h.size_size]
    exact Array.size_setIfInBounds
  · intro z hzn hz
    obtain ⟨hz, hzs⟩ := (hroots z).mp hz
    rw [elements_hang] at hzn
    rw [h.size_hang hrn]
    split
    · next hzr =>
      rw [hzr, Function.update_self]
      have h1 := hrank r hrn hr
      have h2 := hrank s hsn hs
      rcases Nat.le_total (rank s + 1) (rank r) with hmax | hmax
      · rw [Nat.max_eq_left hmax]
        omega
      · rw [Nat.max_eq_right hmax, Nat.pow_succ]
        omega
    · next hzr =>
      rw [Function.update_of_ne hzr]
      exact hrank z hzn hz
  · intro z hzn hz
    obtain ⟨hz, hzs⟩ := (hroots z).mp hz
    rw [elements_hang] at hzn
    rw [h.size_hang hrn, hranked.members_hang hr hs hrn hsn hne hzs]
    split
    · rw [Finset.card_union_of_disjoint hdisjoint, ← h.size_root r hrn hr, ← h.size_root s hsn hs]
    · exact h.size_root z hzn hz
  · rw [roots_hang hsn hne, Finset.card_erase_of_mem hsroots, ← h.classes_eq]
    rfl
  · have hpos := Finset.card_pos.mpr ⟨s, hsroots⟩
    rw [← h.classes_eq] at hpos
    exact Nat.sub_add_cancel hpos

/-! ## Joining two classes -/

/-- Of two roots the one of the larger class stays a root, and on a tie the
first. -/
theorem Sound.link (h : u.Sound) (hr : u.IsRoot r) (hs : u.IsRoot s) (hrn : r < u.elements)
    (hsn : s < u.elements) (hne : r ≠ s) : (u.link r s).Sound ∧
      if u.size.getD r 0 < u.size.getD s 0 then (u.link r s).Hung u s r
      else (u.link r s).Hung u r s := by
  unfold UnionFind.link
  split
  · next hlt => exact h.hang hs hr hsn hrn hne.symm (Nat.le_of_lt hlt)
  · next hle => exact h.hang hr hs hrn hsn hne (Nat.le_of_not_lt hle)

/-- Joining looks up both roots, and then links them if they differ. -/
theorem Sound.unite_eq (h : u.Sound) (x y : Nat) :
    ((u.find x).2.find y).2.Sound ∧ ((u.find x).2.find y).2.SameRoots u ∧
      u.unite x y = if u.root x = u.root y then (false, ((u.find x).2.find y).2)
        else (true, ((u.find x).2.find y).2.link (u.root x) (u.root y)) := by
  obtain ⟨hv, hvs⟩ := h.find x
  obtain ⟨hw, hws⟩ := hv.find y
  refine ⟨hw, hws.trans hvs, ?_⟩
  rw [← hvs.root_eq y]
  rfl

theorem SameRoots.isRoot (h : SameRoots v u) (hv : v.Sound) (hr : u.root r = r) : v.IsRoot r := by
  rw [← hr, ← h.root_eq]
  exact hv.isRoot_root r

theorem Hung.of_sameRoots {w : UnionFind} (h : Hung w v r s) (hs : SameRoots v u) : Hung w u r s :=
  ⟨h.elements_eq.trans hs.elements_eq, fun z => by rw [h.root_eq, hs.root_eq],
    h.classes_eq.trans hs.classes_eq⟩

/-- All that joining can do: nothing to the classes, if the elements share
one; else the root of the smaller class is hung under that of the larger,
and on a tie the second under the first. -/
theorem Sound.unite_cases (h : u.Sound) (hx : x < u.elements) (hy : y < u.elements) :
    (u.unite x y).2.Sound ∧
      ((u.Joined x y ∧ (u.unite x y).1 = false ∧ (u.unite x y).2.SameRoots u) ∨
        (¬ u.Joined x y ∧ (u.unite x y).1 = true ∧
          if u.size.getD (u.root x) 0 < u.size.getD (u.root y) 0
          then (u.unite x y).2.Hung u (u.root y) (u.root x)
          else (u.unite x y).2.Hung u (u.root x) (u.root y))) := by
  -- `w` is the forest after both look-ups, with both paths shortened
  obtain ⟨hw, hs, hunite⟩ := h.unite_eq x y
  generalize ((u.find x).2.find y).2 = w at hw hs hunite
  have hroot : ∀ z, w.IsRoot (u.root z) := fun z => hs.isRoot hw (h.root_root z)
  have hlt : ∀ z, z < u.elements → u.root z < w.elements := fun z hz =>
    hs.elements_eq ▸ h.root_lt hz
  rw [hunite]
  by_cases hxy : u.root x = u.root y
  · rw [if_pos hxy]
    exact ⟨hw, .inl ⟨hxy, rfl, hs⟩⟩
  · rw [if_neg hxy]
    obtain ⟨hsound, hhung⟩ := hw.link (hroot x) (hroot y) (hlt x hx) (hlt y hy) hxy
    refine ⟨hsound, .inr ⟨hxy, rfl, ?_⟩⟩
    rw [hs.size_eq] at hhung
    split at hhung
    · next hlt' =>
      rw [if_pos hlt']
      exact hhung.of_sameRoots hs
    · next hle =>
      rw [if_neg hle]
      exact hhung.of_sameRoots hs

/-- Joining tells whether the elements were apart. -/
theorem Sound.unite_eq_true_iff (h : u.Sound) (hx : x < u.elements) (hy : y < u.elements) :
    (u.unite x y).1 = true ↔ ¬ u.Joined x y := by
  obtain ⟨_, ⟨hxy, hfalse, _⟩ | ⟨hxy, htrue, _⟩⟩ := h.unite_cases hx hy
  · simp [hfalse, hxy]
  · simp [htrue, hxy]

theorem Sound.unite (h : u.Sound) (hx : x < u.elements) (hy : y < u.elements) :
    (u.unite x y).2.Sound := (h.unite_cases hx hy).1

theorem Sound.elements_unite (h : u.Sound) (hx : x < u.elements) (hy : y < u.elements) :
    (u.unite x y).2.elements = u.elements := by
  obtain ⟨_, ⟨_, _, hs⟩ | ⟨_, _, hh⟩⟩ := h.unite_cases hx hy
  · exact hs.elements_eq
  · split at hh <;> exact hh.elements_eq

theorem Sound.joined_unite (h : u.Sound) (hx : x < u.elements) (hy : y < u.elements) :
    (u.unite x y).2.Joined p q ↔
      u.Joined p q ∨ (u.Joined p x ∧ u.Joined q y) ∨ (u.Joined p y ∧ u.Joined q x) := by
  obtain ⟨_, ⟨hxy, _, hs⟩ | ⟨_, _, hh⟩⟩ := h.unite_cases hx hy
  · rw [hs.joined_iff]
    simp only [Joined] at *
    grind
  · have hjoined : ∀ z t, u.Joined z (u.root t) ↔ u.Joined z t := fun z t => by
      rw [Joined, Joined, h.root_root]
    split at hh
    · rw [hh.joined_iff (h.root_root y) (h.root_root x)]
      simp only [hjoined]
      tauto
    · rw [hh.joined_iff (h.root_root x) (h.root_root y)]
      simp only [hjoined]

/-! ## Joining many classes -/

/-- `v` is `u` with one class made of all classes that hold a listed
element. -/
structure Merged (v u : UnionFind) (items : List Nat) : Prop where
  sound : v.Sound
  elements_eq : v.elements = u.elements
  joined_iff : ∀ p q, v.Joined p q ↔
    u.Joined p q ∨ (∃ a ∈ items, u.Joined p a) ∧ ∃ b ∈ items, u.Joined q b

theorem Sound.merged_single (h : u.Sound) (x : Nat) : u.Merged u [x] := by
  refine ⟨h, rfl, fun p q => ?_⟩
  simp only [List.mem_singleton, exists_eq_left, Joined]
  exact ⟨.inl, fun hpq => hpq.elim id fun hpq => hpq.1.trans hpq.2.symm⟩

/-- One more element joins. -/
theorem Merged.unite {items : List Nat} (h : v.Merged u (x :: items)) (hx : x < u.elements)
    (hy : y < u.elements) : (v.unite x y).2.Merged u (x :: (items ++ [y])) := by
  have hxv : x < v.elements := h.elements_eq ▸ hx
  have hyv : y < v.elements := h.elements_eq ▸ hy
  refine ⟨h.sound.unite hxv hyv, (h.sound.elements_unite hxv hyv).trans h.elements_eq,
    fun p q => ?_⟩
  rw [h.sound.joined_unite hxv hyv]
  simp only [h.joined_iff, List.mem_cons, List.mem_append, List.not_mem_nil, or_false]
  simp only [Joined]
  grind

theorem Merged.foldl {items rest : List Nat} (h : v.Merged u (x :: items)) (hx : x < u.elements)
    (hrest : ∀ y ∈ rest, y < u.elements) :
    (rest.foldl (fun u y => (u.unite x y).2) v).Merged u (x :: (items ++ rest)) := by
  induction rest generalizing items v with
  | nil =>
      rw [List.append_nil]
      exact h
  | cons y rest ih =>
      have hnext := h.unite hx (hrest y List.mem_cons_self)
      have hall := ih hnext fun z hz => hrest z (List.mem_cons_of_mem _ hz)
      rwa [List.append_assoc] at hall

/-- Merging makes one class of all classes that hold a listed element. -/
theorem Sound.merge (h : u.Sound) {items : List Nat} (hitems : ∀ x ∈ items, x < u.elements) :
    (u.merge items).Sound ∧ (u.merge items).elements = u.elements ∧
      ∀ p q, (u.merge items).Joined p q ↔
        u.Joined p q ∨ (∃ a ∈ items, u.Joined p a) ∧ ∃ b ∈ items, u.Joined q b := by
  cases items with
  | nil => exact ⟨h, rfl, fun p q => by simp [UnionFind.merge]⟩
  | cons x rest =>
      have hall := (h.merged_single x).foldl (hitems x List.mem_cons_self)
        fun y hy => hitems y (List.mem_cons_of_mem _ hy)
      exact ⟨hall.sound, hall.elements_eq, hall.joined_iff⟩

end UnionFind

end FiniteState
