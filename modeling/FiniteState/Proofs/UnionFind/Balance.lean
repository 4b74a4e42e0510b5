import FiniteState.Proofs.UnionFind.Queries
import Mathlib.Algebra.Order.BigOperators.Group.Finset

/-!
# Balance

How far the elements of a partition are from their roots. A look-up is two loops: the
first climbs from an element to its root (`Climbs`), the second goes the same way once
more and makes the root the parent of what it passes (`Redirects`). Ranks grow along a
path, so neither loop makes more turns than the rank of the root is above that of the
element (`Ranked.exists_climbs`, `Ranked.exists_redirects`). A root of rank `k` has at
least `2 ^ k` elements under it, and a path therefore is no longer than the logarithm of
their number.

Every element is counted in the size of one root, so the sizes of all roots add up to
the number of elements (`Sound.sum_sizes`). Two roots always leave room for the sum of
their sizes, and there is a class to give up.

A call looks up and links in forests that are themselves left by runs of calls
(`perform_union_after_finds`, `perform_merge_cons`), so what is said of these holds in
the middle of a call as well.
-/

namespace FiniteState

namespace UnionFind

variable {u v : UnionFind} {rank : Nat → Nat} {x y r s h k n : Nat}

/-! ## The loops of a look-up -/

/-- From an element to a root, by following parents so many times. -/
inductive Climbs (u : UnionFind) : Nat → Nat → Nat → Prop where
  | root {r : Nat} : u.IsRoot r → Climbs u r 0 r
  | child {x h r : Nat} : ¬ u.IsRoot x → Climbs u (u.parentOf x) h r → Climbs u x (h + 1) r

/-- Going from an element towards the root `r` and making it the parent of what is
passed, until something has it as its parent already. -/
inductive Redirects (r : Nat) : UnionFind → Nat → Nat → UnionFind → Prop where
  | done {u : UnionFind} {x : Nat} : u.parentOf x = r → Redirects r u x 0 u
  | turn {u v : UnionFind} {x k : Nat} : u.parentOf x ≠ r →
      Redirects r { u with parent := u.parent.setIfInBounds x r } (u.parentOf x) k v →
      Redirects r u x (k + 1) v

/-- Following parents leads to one root, in one number of steps. -/
theorem Climbs.unique (hx : u.Climbs x h r) (hx' : u.Climbs x k s) : h = k ∧ r = s := by
  induction hx generalizing k with
  | root hroot =>
      cases hx' with
      | root => exact ⟨rfl, rfl⟩
      | child hnot => exact absurd hroot hnot
  | child hnot _ ih =>
      cases hx' with
      | root hroot => exact absurd hroot hnot
      | child _ hrest =>
          obtain ⟨rfl, rfl⟩ := ih hrest
          exact ⟨rfl, rfl⟩

theorem Ranked.exists_climbs (hu : u.Ranked rank) (x : Nat) :
    ∃ h, u.Climbs x h (u.root x) ∧ rank x + h ≤ rank (u.root x) := by
  induction x using hu.induction with
  | root r hr =>
      rw [root_of_isRoot hr]
      exact ⟨0, .root hr, Nat.le_refl _⟩
  | child x hx ih =>
      obtain ⟨h, hclimbs, hle⟩ := ih
      rw [hu.root_parentOf] at hclimbs hle
      have hlt := hu.rank_lt x hx
      exact ⟨h + 1, .child hx hclimbs, by omega⟩

/-- The forest changes under the second loop, but what is redirected is behind it. -/
theorem Ranked.exists_redirects (hu : u.Ranked rank) (hr : u.root x = r) (steps : Nat)
    (hsteps : rank r ≤ rank x + steps) :
    ∃ k, Redirects r u x k (UnionFind.shorten r steps x u) ∧ rank x + k ≤ rank r := by
  have hle : rank x ≤ rank r := hr ▸ hu.rank_le_rank_root x
  induction steps generalizing u x with
  | zero =>
      have hroot : u.IsRoot x := by
        by_contra hx
        have hlt := hu.rank_lt x hx
        have hup := hu.rank_le_rank_root (u.parentOf x)
        rw [hu.root_parentOf, hr] at hup
        omega
      exact ⟨0, .done (hroot.trans ((root_of_isRoot hroot).symm.trans hr)), hle⟩
  | succ steps ih =>
      unfold UnionFind.shorten
      split
      · next hparent => exact ⟨0, .done hparent, hle⟩
      · next hparent =>
        have hx : ¬ u.IsRoot x := fun hx => hparent (by rw [hx, ← hr, root_of_isRoot hx])
        have hlt := hu.rank_lt x hx
        have hup := hu.rank_le_rank_root (u.parentOf x)
        rw [hu.root_parentOf] at hup
        subst hr
        obtain ⟨hranked, hsame⟩ := hu.redirect hx
        have hroot := (hsame.root_eq (u.parentOf x)).trans (hu.root_parentOf x)
        obtain ⟨k, hredirects, hk⟩ := ih hranked hroot (by omega) hup
        exact ⟨k + 1, .turn hparent hredirects, by omega⟩

/-! ## Sizes -/

theorem Sound.size_le (hu : u.Sound) (hr : r ∈ u.roots) : u.size.getD r 0 ≤ u.elements := by
  obtain ⟨hlt, hroot⟩ := mem_roots.mp hr
  have hcard := Finset.card_filter_le (Finset.range u.elements) fun x => u.root x = r
  rw [Finset.card_range] at hcard
  exact (hu.size_root r hlt hroot).le.trans hcard

/-- Every element is counted in the size of one root. -/
theorem Sound.sum_sizes (hu : u.Sound) : ∑ r ∈ u.roots, u.size.getD r 0 = u.elements := by
  have hmaps : ∀ x ∈ Finset.range u.elements, u.root x ∈ u.roots := fun x hx =>
    hu.root_mem_roots (Finset.mem_range.mp hx)
  calc ∑ r ∈ u.roots, u.size.getD r 0
      = ∑ r ∈ u.roots, (u.members r).card :=
        Finset.sum_congr rfl fun r hr =>
          let ⟨hlt, hroot⟩ := mem_roots.mp hr
          hu.size_root r hlt hroot
    _ = (Finset.range u.elements).card := (Finset.card_eq_sum_card_fiberwise hmaps).symm
    _ = u.elements := Finset.card_range _

/-- Linking two roots neither counts an element twice nor gives up the last class. -/
theorem Sound.room_to_link (hu : u.Sound) (hr : r ∈ u.roots) (hs : s ∈ u.roots) (hne : r ≠ s) :
    u.size.getD r 0 + u.size.getD s 0 ≤ u.elements ∧ 1 < u.classes := by
  have hpair : {r, s} ⊆ u.roots := by
    intro t ht
    rcases Finset.mem_insert.mp ht with rfl | ht
    · exact hr
    · rwa [Finset.mem_singleton.mp ht]
  constructor
  · calc u.size.getD r 0 + u.size.getD s 0
        = ∑ t ∈ {r, s}, u.size.getD t 0 :=
          (Finset.sum_pair (f := fun t => u.size.getD t 0) hne).symm
      _ ≤ ∑ t ∈ u.roots, u.size.getD t 0 := Finset.sum_le_sum_of_subset hpair
      _ = u.elements := hu.sum_sizes
  · rw [hu.classes_eq]
    exact Finset.one_lt_card.mpr ⟨r, hr, s, hs, hne⟩

/-- The arrays of a partition of `n` elements describe a forest whose paths are short:
an element that is `h` steps below its root shares it with `2 ^ h` elements. -/
structure Balanced (u : UnionFind) (n : Nat) : Prop where
  size_parent : u.parent.size = n
  size_size : u.size.size = n
  exists_climbs : ∀ x, x < n → u.root x < n ∧ ∃ h, u.Climbs x h (u.root x)
  size_root : ∀ r ∈ u.roots, u.size.getD r 0 = (u.members r).card
  classes_eq : u.classes = u.roots.card
  sum_sizes : ∑ r ∈ u.roots, u.size.getD r 0 = n
  two_pow_le : ∀ x h r, x < n → u.Climbs x h r → 2 ^ h ≤ u.size.getD r 0

theorem Sound.balanced (hu : u.Sound) (hn : u.elements = n) : u.Balanced n := by
  obtain ⟨rank, hranked, hrank⟩ := hu.ranked
  subst hn
  refine ⟨rfl, hu.size_size, fun x hx => ⟨hu.root_lt hx, ?_⟩, fun r hr => ?_, hu.classes_eq,
    hu.sum_sizes, fun x h r hx hclimbs => ?_⟩
  · obtain ⟨h, hclimbs, _⟩ := hranked.exists_climbs x
    exact ⟨h, hclimbs⟩
  · obtain ⟨hlt, hroot⟩ := mem_roots.mp hr
    exact hu.size_root r hlt hroot
  · obtain ⟨h', hclimbs', hle⟩ := hranked.exists_climbs x
    obtain ⟨rfl, rfl⟩ := hclimbs.unique hclimbs'
    calc 2 ^ h ≤ 2 ^ rank (u.root x) := Nat.pow_le_pow_right Nat.two_pos (by omega)
      _ ≤ u.size.getD (u.root x) 0 := hrank _ (hu.root_lt hx) (hu.isRoot_root x)

/-- Both loops of a look-up stop after a logarithmic number of turns. -/
theorem Sound.find_loops (hu : u.Sound) (hx : x < u.elements) :
    ∃ h k, u.Climbs x h (u.root x) ∧ Redirects (u.root x) u x k (u.find x).2 ∧
      h ≤ u.elements.log2 ∧ k ≤ u.elements.log2 := by
  obtain ⟨rank, hranked, hrank⟩ := hu.ranked
  have hpow : 2 ^ rank (u.root x) ≤ u.elements :=
    (hrank _ (hu.root_lt hx) (hu.isRoot_root x)).trans (hu.size_le (hu.root_mem_roots hx))
  have hlog : rank (u.root x) ≤ u.elements.log2 :=
    (Nat.le_log2 (Nat.ne_of_gt (Nat.zero_lt_of_lt hx))).mpr hpow
  have hsteps : rank (u.root x) < u.elements := Nat.lt_of_lt_of_le Nat.lt_two_pow_self hpow
  obtain ⟨h, hclimbs, hh⟩ := hranked.exists_climbs x
  obtain ⟨k, hredirects, hk⟩ := hranked.exists_redirects (x := x) rfl u.elements (by omega)
  exact ⟨h, k, hclimbs, hredirects, by omega, by omega⟩

/-! ## Look-ups and links inside calls -/

open Operation

/-- Looking up many elements is looking up one after the other. -/
theorem snd_findEach (u : UnionFind) (l : List Nat) :
    (u.findEach l).2 = l.foldl (fun u x => (u.find x).2) u := by
  have hfold : ∀ (l : List Nat) (found : Array Nat) (u : UnionFind),
      (l.foldl findNext (found, u)).2 = l.foldl (fun u x => (u.find x).2) u := by
    intro l
    induction l with
    | nil => exact fun _ _ => rfl
    | cons x l ih => exact fun found u => ih (found.push (u.root x)) (u.find x).2
  exact hfold l #[] u

theorem after_finds {l : List Nat} (hl : ∀ x ∈ l, x < n) (calls : List Call) :
    after n (calls ++ l.map .find) = ((after n calls).findEach l).2 := by
  rw [snd_findEach]
  induction l generalizing calls with
  | nil => rw [List.map_nil, List.append_nil, List.foldl_nil]
  | cons x l ih =>
      have hx : x < (after n calls).elements :=
        Nat.lt_of_lt_of_eq (hl x List.mem_cons_self) (sound_after n calls).2.symm
      have hnext : after n (calls ++ [.find x]) = ((after n calls).find x).2 := by
        rw [after_concat, perform_find_eq hx]
      rw [List.map_cons, List.append_cons, ih (fun y hy => hl y (List.mem_cons_of_mem x hy)),
        hnext, List.foldl_cons]

theorem find_find_after (calls : List Call) (x y : Fin n) :
    after n (calls ++ [.find x, .find y]) = (((after n calls).find x).2.find y).2 :=
  after_finds (l := [↑x, ↑y]) (by simp) calls

/-- A union looks up both elements, and links what it finds. -/
theorem perform_union_after_finds (calls : List Call) (x y : Fin n) :
    let v := after n (calls ++ [.find x, .find y])
    (after n calls).perform (.union x y) = if v.root x = v.root y then (.ok (.flag false), v)
      else (.ok (.flag true), v.link (v.root x) (v.root y)) := by
  intro v
  have hsound := (sound_after n calls).1
  obtain ⟨_, hs, hunite⟩ := hsound.unite_eq x y
  have hperform : (after n calls).perform (.union x y) = _ :=
    on_bind_of_ok (hsound.on_tryUnion (lt_elements_after calls x) (lt_elements_after calls y))
  rw [hperform, hunite, ← hs.root_eq x, ← hs.root_eq y, ← find_find_after]
  split <;> rfl

theorem perform_merge (u : UnionFind) (l : List Nat) : u.perform (.merge l) =
    match (tryMerge l).on u with
    | (.ok _, v) => (.ok .done, v)
    | (.error e, v) => (.error e, v) := by
  cases hmerge : (tryMerge l).on u with
  | mk result v =>
      cases result with
      | ok => exact on_bind_of_ok hmerge
      | error e => exact on_bind_of_error hmerge

/-- A merge is one union after the other. -/
theorem perform_merge_cons (u : UnionFind) (x y : Nat) (l : List Nat) :
    u.perform (.merge (x :: y :: l)) =
      match u.perform (.union x y) with
      | (.ok _, v) => v.perform (.merge (x :: l))
      | (.error e, v) => (.error e, v) := by
  cases hunion : (tryUnion x y).on u with
  | mk result v =>
      cases result with
      | ok joined =>
          have hperform : u.perform (.union x y) = _ := on_bind_of_ok hunion
          have hrest : (tryMerge (x :: y :: l)).on u = (tryMerge (x :: l)).on v :=
            on_bind_of_ok hunion
          rw [hperform, perform_merge, hrest, ← perform_merge]
          rfl
      | error e =>
          have hperform : u.perform (.union x y) = _ := on_bind_of_error hunion
          have hfail : (tryMerge (x :: y :: l)).on u = (.error e, v) := on_bind_of_error hunion
          rw [hperform, perform_merge, hfail]

theorem groups_after (n : Nat) (calls : List Call) :
    ((after n calls).perform .groups).2 = after n (calls ++ (List.range n).map .find) := by
  have hgroups : ((after n calls).perform .groups).2 =
      ((after n calls).findEach (List.range (after n calls).elements)).2 := rfl
  rw [hgroups, (sound_after n calls).2, after_finds fun x hx => List.mem_range.mp hx]

theorem representatives_after (n : Nat) (calls : List Call) :
    ((after n calls).perform .representatives).2 =
      after n (calls ++ .groups :: (after n calls).firsts.map .find) := by
  obtain ⟨hsound, helements⟩ := sound_after n calls
  have hlt : ∀ x ∈ (after n calls).firsts, x < n := fun x hx => helements ▸ lt_of_mem_firsts hx
  have hfinds : ((after n calls).perform .representatives).2 =
      ((after n calls).groups.2.findEach ((after n calls).groups.1.filterMap List.head?)).2 := rfl
  rw [hfinds, hsound.heads_groups, List.append_cons, after_finds hlt, after_concat]
  rfl

/-- **Balance.** After any run of calls, failing ones among them, the arrays describe a
forest: climbing from an element ends at a root, the size of a root is the number of
elements for which it does, there are as many roots as classes counted, their sizes add
up to the number of elements, and an element `h` steps below its root shares it with at
least `2 ^ h` elements. So each loop of a look-up stops after at most as many turns as
the logarithm of the number of elements. The sizes of two roots add up to no more than
there are elements, and when there are two, one class may be given up. Calls look up and
link in forests that runs of calls leave, so this holds in the middle of a call too. -/
theorem forest_stays_balanced (n : Nat) (calls : List Call) :
    let u := after n calls
    u.Balanced n ∧
      (∀ x : Fin n, ∃ h k v, u.perform (.find x) = (.ok (.number (u.root x)), v) ∧
        u.Climbs x h (u.root x) ∧ Redirects (u.root x) u x k v ∧
          h ≤ n.log2 ∧ k ≤ n.log2) ∧
      (∀ r ∈ u.roots, ∀ s ∈ u.roots, r ≠ s →
        u.size.getD r 0 + u.size.getD s 0 ≤ n ∧ 1 < u.classes) ∧
      (∀ x y : Fin n,
        let v := after n (calls ++ [.find x, .find y])
        (u.perform (.sameClass x y)).2 = v ∧
          u.perform (.union x y) = if v.root x = v.root y then (.ok (.flag false), v)
            else (.ok (.flag true), v.link (v.root x) (v.root y))) ∧
      (∀ x y l, u.perform (.merge (x :: y :: l)) =
        match u.perform (.union x y) with
        | (.ok _, v) => v.perform (.merge (x :: l))
        | (.error e, v) => (.error e, v)) ∧
      (u.perform .groups).2 = after n (calls ++ (List.range n).map .find) ∧
      (u.perform .representatives).2 = after n (calls ++ .groups :: u.firsts.map .find) ∧
      ∀ c, (u.perform c).1 ≠ .error .underflow := by
  intro u
  obtain ⟨hsound, helements⟩ := sound_after n calls
  refine ⟨hsound.balanced helements, fun x => ?_, fun r hr s hs hne => ?_,
    fun x y => ⟨?_, perform_union_after_finds calls x y⟩, perform_merge_cons u,
    groups_after n calls, representatives_after n calls, fun c hunderflow => ?_⟩
  · have hx := lt_elements_after calls x
    obtain ⟨h, k, hclimbs, hredirects, hh, hk⟩ := hsound.find_loops hx
    rw [helements] at hh hk
    exact ⟨h, k, _, perform_find_eq hx, hclimbs, hredirects, hh, hk⟩
  · rw [← helements]
    exact hsound.room_to_link hr hs hne
  · rw [find_find_after]
    have hon := hsound.on_trySameClass (lt_elements_after calls x) (lt_elements_after calls y)
    have hperform : u.perform (.sameClass x y) = _ := on_bind_of_ok hon
    rw [hperform]
    rfl
  · obtain ⟨z, _, hz⟩ := (perform_after_error_iff n calls c .underflow).mp hunderflow
    cases hz

/-- Two pairs, and a call that fails. -/
def twoPairs : List Call := [.union 0 1, .union 2 3, .find 9]

/-- Joining two classes of one size makes a path as long as the size allows. -/
theorem balanced_twoPairs :
    (after 4 twoPairs).size.getD 0 0 + (after 4 twoPairs).size.getD 2 0 ≤ 4 ∧
      1 < (after 4 twoPairs).classes ∧
      (after 4 (twoPairs ++ [.union 0 2])).Climbs 3 2 0 ∧
      2 ^ 2 ≤ (after 4 (twoPairs ++ [.union 0 2])).size.getD 0 0 := by
  obtain ⟨_, _, hroom, _⟩ := forest_stays_balanced 4 twoPairs
  obtain ⟨hbalanced, _⟩ := forest_stays_balanced 4 (twoPairs ++ [.union 0 2])
  have hroot : ∀ r ∈ [0, 2], r < (after 4 twoPairs).elements ∧ (after 4 twoPairs).IsRoot r := by
    decide +kernel
  obtain ⟨hsum, hclasses⟩ := hroom 0 (mem_roots.mpr (hroot 0 (by decide)))
    2 (mem_roots.mpr (hroot 2 (by decide))) (by decide)
  have h3 : (after 4 (twoPairs ++ [.union 0 2])).parentOf 3 = 2 := by decide +kernel
  have h2 : (after 4 (twoPairs ++ [.union 0 2])).parentOf 2 = 0 := by decide +kernel
  have h0 : (after 4 (twoPairs ++ [.union 0 2])).IsRoot 0 := by decide +kernel
  have hclimbs : (after 4 (twoPairs ++ [.union 0 2])).Climbs 3 2 0 := by
    refine .child (by rw [IsRoot, h3]; decide) ?_
    rw [h3]
    refine .child (by rw [IsRoot, h2]; decide) ?_
    rw [h2]
    exact .root h0
  exact ⟨hsum, hclasses, hclimbs, hbalanced.two_pow_le 3 2 0 (by decide) hclimbs⟩

end UnionFind

end FiniteState
