import FiniteState.Proofs.Strict.Lookup
import FiniteState.Proofs.UnionFind.Refinement

/-!
# Classes by strict look-ups

The operations on partitions with every look-up and every write in range. A
climb reads the parent of an element and goes on there, so it stays among
the elements as long as parents are elements; a sound forest has just those
parents, and shortening a path keeps them. What looks up or joins elements
only is then never refused (`Sound.find?_eq`, `Sound.unite?_eq`), and neither
is what is made of these: classes written out, their representatives, and
elements joined by a key.

The last step of a climb reads no parent in the library's definition, which
has counted the steps. Here it asks for an element too, so that there is no
look-up at all of a number that is none.
-/

namespace FiniteState

open Std

namespace UnionFind

variable {u v : UnionFind} {r s x y n : Nat} {l : List Nat}

/-! ## Looking up -/

/-- Climbs from an element, which has to be one, and so have its parents. -/
def climb? (u : UnionFind) : Nat → Nat → Option Nat
  | 0, x => u.parent[x]?.map fun _ => x
  | steps + 1, x => do
    let p ← u.parent[x]?
    if p = x then return x else u.climb? steps p

/-- Makes `r` the parent of everything on the path from `x`, all of which has
to be there. -/
def shorten? (r : Nat) : Nat → Nat → UnionFind → Option UnionFind
  | 0, _, u => some u
  | steps + 1, x, u => do
    let p ← u.parent[x]?
    if p = r then return u
    else
      let parent ← write? u.parent x r
      shorten? r steps p { u with parent }

def find? (u : UnionFind) (x : Nat) : Option (Nat × UnionFind) := do
  let r ← u.climb? u.elements x
  let u ← shorten? r u.elements x u
  return (r, u)

def findEach? (u : UnionFind) (l : List Nat) : Option (Array Nat × UnionFind) :=
  l.foldlM (fun (roots, u) x => do
    let (r, u) ← u.find? x
    return (roots.push r, u)) (#[], u)

def findAll? (u : UnionFind) : Option (Array Nat × UnionFind) := u.findEach? (List.range u.elements)

/-- Parents are elements. -/
def Closed (u : UnionFind) : Prop := ∀ x, x < u.elements → u.parentOf x < u.elements

theorem Sound.closed (h : u.Sound) : u.Closed :=
  let ⟨_, hr, _⟩ := h.ranked
  hr.parentOf_lt

theorem getElem?_parent (hx : x < u.elements) : u.parent[x]? = some (u.parentOf x) :=
  getElem?_eq_some_getD hx x

theorem Closed.climb?_eq (h : u.Closed) (hx : x < u.elements) (steps : Nat) :
    u.climb? steps x = some (u.climb steps x) := by
  induction steps generalizing x with
  | zero => rw [climb?, getElem?_parent hx, climb, Option.map_some]
  | succ steps ih =>
      simp only [climb?, climb, getElem?_parent hx, Option.bind_eq_bind, Option.bind_some]
      split
      · rfl
      · exact ih (h x hx)

theorem Closed.shorten?_eq (h : u.Closed) (hx : x < u.elements) (hr : r < u.elements)
    (steps : Nat) : shorten? r steps x u = some (shorten r steps x u) := by
  induction steps generalizing u x with
  | zero => rfl
  | succ steps ih =>
      simp only [shorten?, shorten, getElem?_parent hx, Option.bind_eq_bind, Option.bind_some,
        write?_of_lt (show x < u.parent.size from hx)]
      split
      · rfl
      · have hsize : elements { u with parent := u.parent.setIfInBounds x r } = u.elements :=
          Array.size_setIfInBounds
        refine ih (fun z hz => ?_) (hsize ▸ h x hx) (hsize ▸ hr)
        rw [hsize] at hz ⊢
        have hset := getD_setIfInBounds_self u.parent (r := r) (show x < u.parent.size from hx) z
        show (u.parent.setIfInBounds x r).getD z z < _
        rw [hset]
        split
        · exact hr
        · exact h z hz

theorem Sound.find?_eq (h : u.Sound) (hx : x < u.elements) : u.find? x = some (u.find x) := by
  rw [find?, h.closed.climb?_eq hx]
  simp only [Option.bind_eq_bind, Option.bind_some]
  rw [show u.climb u.elements x = u.root x from rfl, h.closed.shorten?_eq hx (h.root_lt hx)]
  rfl

theorem Sound.findEach?_eq (h : u.Sound) (hl : ∀ x ∈ l, x < u.elements) :
    u.findEach? l = some (u.findEach l) := by
  refine (foldlM_eq_some (P := fun e => e.2.Sound ∧ e.2.elements = u.elements)
    (fun ⟨roots, v⟩ ⟨hv, he⟩ x hx => ?_) ⟨h, rfl⟩).1
  obtain ⟨hfind, hsame⟩ := hv.find x
  dsimp only at he ⊢
  rw [hv.find?_eq (he ▸ hl x hx)]
  exact ⟨rfl, hfind, hsame.elements_eq.trans he⟩

theorem Sound.findAll?_eq (h : u.Sound) : u.findAll? = some u.findAll :=
  h.findEach?_eq fun _ => List.mem_range.mp

/-! ## Joining -/

/-- Makes the root `r` the parent of the root `s`; both have to be there. -/
def hang? (u : UnionFind) (r s : Nat) : Option UnionFind := do
  let m ← u.size[r]?
  let k ← u.size[s]?
  let parent ← write? u.parent s r
  let size ← write? u.size r (m + k)
  return ⟨parent, size, u.classes - 1⟩

def link? (u : UnionFind) (r s : Nat) : Option UnionFind := do
  let m ← u.size[r]?
  let k ← u.size[s]?
  if m < k then u.hang? s r else u.hang? r s

def unite? (u : UnionFind) (x y : Nat) : Option (Bool × UnionFind) := do
  let (r, u) ← u.find? x
  let (s, u) ← u.find? y
  if r = s then return (false, u)
  else
    let u ← u.link? r s
    return (true, u)

/-- Joins the classes of all listed elements with that of the first. -/
def merge? (u : UnionFind) : List Nat → Option UnionFind
  | [] => some u
  | x :: l => l.foldlM (fun u y => (u.unite? x y).map (·.2)) u

/-- Joins every element of a list with the leader that has its key, which
has to be found. -/
def joinAlike? {κ : Type} [Ord κ] (key? : Nat → Option κ) :
    TreeMap κ Nat → List Nat → UnionFind → Option UnionFind
  | _, [], u => some u
  | leaders, x :: l, u => do
    let k ← key? x
    match leaders[k]? with
    | some y => do
      let (_, u) ← u.unite? y x
      joinAlike? key? leaders l u
    | none => joinAlike? key? (leaders.insert k x) l u

theorem getElem?_size (h : u.Sound) (hr : r < u.elements) :
    u.size[r]? = some (u.size.getD r 0) :=
  getElem?_eq_some_getD (h.size_size.symm ▸ hr) 0

theorem Sound.hang?_eq (h : u.Sound) (hr : r < u.elements) (hs : s < u.elements) :
    u.hang? r s = some (u.hang r s) := by
  rw [hang?, getElem?_size h hr, getElem?_size h hs]
  simp only [Option.bind_eq_bind, Option.bind_some]
  rw [write?_of_lt hs, write?_of_lt (h.size_size.symm ▸ hr)]
  rfl

theorem Sound.link?_eq (h : u.Sound) (hr : r < u.elements) (hs : s < u.elements) :
    u.link? r s = some (u.link r s) := by
  rw [link?, getElem?_size h hr, getElem?_size h hs, UnionFind.link]
  simp only [Option.bind_eq_bind, Option.bind_some]
  split
  · exact h.hang?_eq hs hr
  · exact h.hang?_eq hr hs

theorem Sound.unite?_eq (h : u.Sound) (hx : x < u.elements) (hy : y < u.elements) :
    u.unite? x y = some (u.unite x y) := by
  obtain ⟨hv, hsame⟩ := h.find x
  have hy' := hsame.elements_eq.symm ▸ hy
  obtain ⟨hw, hsame'⟩ := hv.find y
  rw [unite?, h.find?_eq hx]
  simp only [Option.bind_eq_bind, Option.bind_some]
  rw [hv.find?_eq hy', UnionFind.unite]
  simp only [Option.bind_some]
  split
  · rfl
  · rw [hw.link?_eq]
    · rfl
    · rw [hsame'.elements_eq, hsame.elements_eq]
      exact h.root_lt hx
    · rw [hsame'.elements_eq]
      exact hv.root_lt hy'

theorem Sound.merge?_eq (h : u.Sound) (hl : ∀ x ∈ l, x < u.elements) :
    u.merge? l = some (u.merge l) := by
  cases l with
  | nil => rfl
  | cons x l =>
      refine (foldlM_eq_some (P := fun v => v.Sound ∧ v.elements = u.elements)
        (fun v hv y hy => ?_) ⟨h, rfl⟩).1
      have hx := hv.2.symm ▸ hl x List.mem_cons_self
      have hy := hv.2.symm ▸ hl y (List.mem_cons_of_mem _ hy)
      rw [hv.1.unite?_eq hx hy]
      exact ⟨rfl, hv.1.unite hx hy, (hv.1.elements_unite hx hy).trans hv.2⟩

theorem Sound.joinAlike?_eq {κ : Type} [Ord κ] [TransOrd κ] [LawfulEqOrd κ] {key? : Nat → Option κ}
    {key : Nat → κ} (leaders : TreeMap κ Nat) (h : u.Sound) (hl : ∀ x ∈ l, x < u.elements)
    (hkey : ∀ x ∈ l, key? x = some (key x))
    (hleaders : ∀ (k : κ) (y : Nat), leaders[k]? = some y → y < u.elements) :
    joinAlike? key? leaders l u = some (UnionFind.joinAlike key leaders l u) ∧
      (UnionFind.joinAlike key leaders l u).Sound ∧
      (UnionFind.joinAlike key leaders l u).elements = u.elements := by
  induction l generalizing leaders u with
  | nil => exact ⟨rfl, h, rfl⟩
  | cons x l ih =>
      have hx := hl x List.mem_cons_self
      have hrest := fun y hy => hl y (List.mem_cons_of_mem x hy)
      simp only [joinAlike?, UnionFind.joinAlike, hkey x List.mem_cons_self, Option.bind_eq_bind,
        Option.bind_some]
      cases hy : leaders[key x]? with
      | some y =>
          have hylt := hleaders _ y hy
          have helements := h.elements_unite hylt hx
          simp only [h.unite?_eq hylt hx, Option.bind_some]
          obtain ⟨heq, hsound, he⟩ := ih leaders (h.unite hylt hx) (helements.symm ▸ hrest)
            (fun z hz => hkey z (List.mem_cons_of_mem x hz))
            (fun k z hz => helements.symm ▸ hleaders k z hz)
          exact ⟨heq, hsound, he.trans helements⟩
      | none =>
          refine ih _ h hrest (fun z hz => hkey z (List.mem_cons_of_mem x hz)) fun k z hz => ?_
          rw [TreeMap.getElem?_insert] at hz
          split at hz
          · obtain rfl := Option.some.inj hz
            exact hx
          · exact hleaders k z hz

/-! ## Classes written out -/

/-- For every label where it stands; labels have to be below their number. -/
def positions? (labels : Array Nat) : Option (Array (List Nat)) :=
  (List.range labels.size).reverse.foldlM (fun table x => do
    let r ← labels[x]?
    modify? table r (x :: ·)) (.replicate labels.size [])

/-- The class of an element, if it is the first one in it. -/
def ledBy? (roots : Array Nat) (classes : Array (List Nat)) (x : Nat) :
    Option (Option (List Nat)) := do
  let r ← roots[x]?
  let members ← classes[r]?
  return (some members).filter fun members => members.head? == some x

def groups? (u : UnionFind) : Option (List (List Nat) × UnionFind) := do
  let (roots, u) ← u.findAll?
  let classes ← positions? roots
  let groups ← (List.range roots.size).mapM (ledBy? roots classes)
  return (groups.filterMap id, u)

/-- The roots of the classes; a class has to have a first member. -/
def representatives? (u : UnionFind) : Option (Array Nat × UnionFind) := do
  let (groups, u) ← u.groups?
  let firsts ← groups.mapM List.head?
  u.findEach? firsts

def groupNumbers? (elements : Nat) (groups : List (List Nat)) : Option (Array Nat) :=
  groups.zipIdx.foldlM (fun table (group, i) => group.foldlM (fun table x => write? table x i) table)
    (.replicate elements 0)

theorem positions?_eq {labels : Array Nat}
    (h : ∀ x, x < labels.size → labels.getD x x < labels.size) :
    positions? labels = some (positions labels) := by
  rw [positions, ← List.foldl_reverse]
  refine (foldlM_eq_some (P := fun table => table.size = labels.size)
    (fun table hsize x hx => ?_) Array.size_replicate).1
  have hx : x < labels.size := List.mem_range.mp (List.mem_reverse.mp hx)
  rw [getElem?_eq_some_getD hx x, Option.bind_eq_bind, Option.bind_some,
    modify?_of_lt (hsize ▸ h x hx)]
  exact ⟨rfl, Array.size_modify.trans hsize⟩

theorem Sound.groups?_eq (h : u.Sound) : u.groups? = some u.groups := by
  have hsize := h.size_findAll
  have hlabels : ∀ x, x < u.findAll.1.size → u.findAll.1.getD x x < u.findAll.1.size := by
    intro x hx
    rw [hsize] at hx ⊢
    rw [h.getD_findAll]
    exact h.root_lt hx
  have hled : ∀ x ∈ List.range u.findAll.1.size,
      ledBy? u.findAll.1 (positions u.findAll.1) x =
        some (((positions u.findAll.1)[u.findAll.1.getD x x]?).filter
          fun members => members.head? == some x) := by
    intro x hx
    have hx := List.mem_range.mp hx
    rw [ledBy?, getElem?_eq_some_getD hx x, Option.bind_eq_bind, Option.bind_some,
      getElem?_positions _ (hlabels x hx)]
    rfl
  rw [groups?, h.findAll?_eq]
  simp only [Option.bind_eq_bind, Option.bind_some]
  rw [positions?_eq hlabels, Option.bind_some, mapM_eq_some hled, Option.bind_some,
    List.filterMap_map]
  rfl

theorem Sound.representatives?_eq (h : u.Sound) : u.representatives? = some u.representatives := by
  have hhead : ∀ group ∈ u.groups.1, group.head? = some (group.headD 0) := by
    intro group hgroup
    obtain ⟨f, hf, rfl⟩ := h.mem_groups.mp hgroup
    rw [List.headD_eq_head?_getD, (mem_firsts.mp hf).2]
    rfl
  have hfirsts : u.groups.1.map (fun group => group.headD 0) = u.firsts := by
    rw [← h.heads_groups, ← List.filterMap_eq_map']
    exact List.filterMap_congr fun group hgroup => (hhead group hgroup).symm
  rw [representatives?, h.groups?_eq]
  simp only [Option.bind_eq_bind, Option.bind_some]
  rw [mapM_eq_some hhead, Option.bind_some, hfirsts, h.groups.1.findEach?_eq]
  · rw [← h.heads_groups]
    rfl
  · intro f hf
    rw [h.groups.2.elements_eq]
    exact lt_of_mem_firsts hf

theorem groupNumbers?_eq {groups : List (List Nat)} (h : ∀ group ∈ groups, ∀ x ∈ group, x < n) :
    groupNumbers? n groups = some (groupNumbers n groups) ∧ (groupNumbers n groups).size = n := by
  refine foldlM_eq_some (P := fun (table : Array Nat) => table.size = n)
    (fun table hsize ⟨group, i⟩ he => ?_) Array.size_replicate
  refine foldlM_eq_some (P := fun (table : Array Nat) => table.size = n)
    (fun table hsize x hx => ?_) hsize
  have hx := h group (List.fst_mem_of_mem_zipIdx he) x hx
  exact ⟨write?_of_lt (hsize.symm ▸ hx) i, Array.size_setIfInBounds.trans hsize⟩

end UnionFind

end FiniteState
