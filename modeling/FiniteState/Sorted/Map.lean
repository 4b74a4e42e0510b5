import FiniteState.Sorted.Set

/-!
# Sorted maps

A finite map over an ordered type of keys, kept as its entries in
strictly ascending order of the keys. It is the row of moves of one
state: the keys are symbols, and a row is listed in their order.

As for sets the list is canonical: `ext` says that two maps which answer
every look-up alike are equal, and each operation has one lemma on
look-up.
-/

universe u v w

namespace FiniteState

open Std

/-- A finite map, as the list of its entries with strictly ascending
keys. -/
structure SortedMap (κ : Type u) (ν : Type v) [Ord κ] where
  toList : List (κ × ν)
  sorted : toList.Pairwise fun e f => compare e.1 f.1 = .lt
deriving DecidableEq

namespace SortedMap

variable {κ : Type u} {ν : Type v} {μ : Type w} [Ord κ]

instance : EmptyCollection (SortedMap κ ν) := ⟨⟨[], .nil⟩⟩

instance : Inhabited (SortedMap κ ν) := ⟨∅⟩

theorem eq_of_toList_eq : ∀ {m n : SortedMap κ ν}, m.toList = n.toList → m = n
  | ⟨_, _⟩, ⟨_, _⟩, rfl => rfl

/-- The value under a key. -/
def get? (m : SortedMap κ ν) (k : κ) : Option ν :=
  (m.toList.find? fun e => compare k e.1 == .eq).map (·.2)

@[simp] theorem get?_empty (k : κ) : (∅ : SortedMap κ ν).get? k = none := rfl

/-- The keys of a map. -/
def keys (m : SortedMap κ ν) : SortedSet κ :=
  ⟨m.toList.map (·.1), List.pairwise_map.mpr m.sorted⟩

/-- The values, in the order of their keys. -/
def values (m : SortedMap κ ν) : List ν := m.toList.map (·.2)

/-- Replaces each value by what a function gives for it, and drops the
entry where it gives nothing. -/
def filterMap (f : ν → Option μ) (m : SortedMap κ ν) : SortedMap κ μ where
  toList := m.toList.filterMap fun e => (f e.2).map (e.1, ·)
  sorted := m.sorted.filterMap _ fun e e' h b hb b' hb' => by
    obtain ⟨_, _, rfl⟩ := Option.map_eq_some_iff.mp hb
    obtain ⟨_, _, rfl⟩ := Option.map_eq_some_iff.mp hb'
    exact h

/-- Replaces each value by what a function gives for it. -/
def map (f : ν → μ) (m : SortedMap κ ν) : SortedMap κ μ :=
  ⟨m.toList.map fun e => (e.1, f e.2), List.pairwise_map.mpr m.sorted⟩

/-- The map on a set of keys that holds what a function gives for each,
and nothing where it gives nothing. -/
def ofKeys (s : SortedSet κ) (f : κ → Option ν) : SortedMap κ ν where
  toList := s.toList.filterMap fun k => (f k).map (k, ·)
  sorted := s.sorted.filterMap _ fun k k' h b hb b' hb' => by
    obtain ⟨_, _, rfl⟩ := Option.map_eq_some_iff.mp hb
    obtain ⟨_, _, rfl⟩ := Option.map_eq_some_iff.mp hb'
    exact h

/-- The map of one entry. -/
def singleton (k : κ) (v : ν) : SortedMap κ ν := ⟨[(k, v)], List.pairwise_singleton _ _⟩

/-! ## Writing -/

/-- Writes under a key, from what stands there so far, in an ascending
list of entries. -/
def placeWith (k : κ) (f : Option ν → ν) : List (κ × ν) → List (κ × ν)
  | [] => [(k, f none)]
  | e :: l =>
    match compare k e.1 with
    | .lt => (k, f none) :: e :: l
    | .eq => (e.1, f (some e.2)) :: l
    | .gt => e :: placeWith k f l

theorem key_of_mem_placeWith {k : κ} {f : Option ν → ν} {e : κ × ν} : ∀ {l : List (κ × ν)},
    e ∈ placeWith k f l → e.1 = k ∨ ∃ e' ∈ l, e'.1 = e.1
  | [], h => .inl (by rw [List.mem_singleton.mp h])
  | d :: l, h => by
    unfold placeWith at h
    split at h
    · rcases List.mem_cons.mp h with rfl | h
      · exact .inl rfl
      · exact .inr ⟨e, h, rfl⟩
    · rcases List.mem_cons.mp h with rfl | h
      · exact .inr ⟨d, List.mem_cons_self, rfl⟩
      · exact .inr ⟨e, List.mem_cons_of_mem _ h, rfl⟩
    · rcases List.mem_cons.mp h with rfl | h
      · exact .inr ⟨_, List.mem_cons_self, rfl⟩
      · rcases key_of_mem_placeWith h with h | ⟨e', he', h⟩
        · exact .inl h
        · exact .inr ⟨e', List.mem_cons_of_mem _ he', h⟩

section Placed

variable [TransOrd κ] [LawfulEqOrd κ]

omit [LawfulEqOrd κ] in
theorem pairwise_placeWith {k : κ} {f : Option ν → ν} : ∀ {l : List (κ × ν)},
    l.Pairwise (fun e f => compare e.1 f.1 = .lt) →
      (placeWith k f l).Pairwise fun e f => compare e.1 f.1 = .lt
  | [], _ => List.pairwise_singleton _ _
  | d :: l, h => by
    obtain ⟨hd, hl⟩ := List.pairwise_cons.mp h
    unfold placeWith
    split
    · next hk =>
      refine List.pairwise_cons.mpr ⟨fun c hc => ?_, h⟩
      rcases List.mem_cons.mp hc with rfl | hc
      · exact hk
      · exact TransCmp.lt_trans hk (hd c hc)
    · exact List.pairwise_cons.mpr ⟨hd, hl⟩
    · next hk =>
      refine List.pairwise_cons.mpr ⟨fun c hc => ?_, pairwise_placeWith hl⟩
      rcases key_of_mem_placeWith hc with hc | ⟨c', hc', hc⟩
      · rw [hc]
        exact OrientedCmp.gt_iff_lt.mp hk
      · rw [← hc]
        exact hd c' hc'

/-- Writes under a key what a function makes of the value there so far. -/
def alter (k : κ) (f : Option ν → ν) (m : SortedMap κ ν) : SortedMap κ ν :=
  ⟨placeWith k f m.toList, pairwise_placeWith m.sorted⟩

end Placed

/-! ## Look-up determines the map -/

section Lookup

variable [LawfulEqOrd κ]

theorem mem_toList_iff {m : SortedMap κ ν} {k : κ} {v : ν} :
    (k, v) ∈ m.toList ↔ m.get? k = some v := by
  obtain ⟨l, h⟩ := m
  simp only [get?]
  induction l with
  | nil => simp
  | cons e l ih =>
    obtain ⟨he, hl⟩ := List.pairwise_cons.mp h
    rw [List.find?_cons]
    by_cases hk : k = e.1
    · subst hk
      have hrest : (e.1, v) ∉ l := fun hm => by
        have := he _ hm
        simp [LawfulEqCmp.compare_eq_iff_eq.mpr] at this
      simp [LawfulEqCmp.compare_eq_iff_eq.mpr, hrest, Prod.ext_iff, eq_comm]
    · have hne : (compare k e.1 == .eq) = false := by
        simp [LawfulEqCmp.compare_eq_iff_eq, hk]
      rw [hne]
      have hhead : (k, v) ≠ e := fun h => hk (by rw [← h])
      simpa [hhead] using ih hl

@[simp] theorem get?_filterMap (f : ν → Option μ) (m : SortedMap κ ν) (k : κ) :
    (m.filterMap f).get? k = (m.get? k).bind f := by
  refine Option.ext fun v => ?_
  rw [← mem_toList_iff, Option.bind_eq_some_iff]
  simp only [filterMap, List.mem_filterMap, Option.map_eq_some_iff, Prod.mk.injEq]
  constructor
  · rintro ⟨⟨k', x⟩, hx, y, hy, rfl, rfl⟩
    exact ⟨x, mem_toList_iff.mp hx, hy⟩
  · rintro ⟨x, hx, hy⟩
    exact ⟨(k, x), mem_toList_iff.mpr hx, v, hy, rfl, rfl⟩

@[simp] theorem get?_map (f : ν → μ) (m : SortedMap κ ν) (k : κ) :
    (m.map f).get? k = (m.get? k).map f := by
  refine Option.ext fun v => ?_
  rw [← mem_toList_iff, Option.map_eq_some_iff]
  simp only [map, List.mem_map, Prod.mk.injEq]
  constructor
  · rintro ⟨⟨k', x⟩, hx, rfl, rfl⟩
    exact ⟨x, mem_toList_iff.mp hx, rfl⟩
  · rintro ⟨x, hx, rfl⟩
    exact ⟨(k, x), mem_toList_iff.mpr hx, rfl, rfl⟩

@[simp] theorem get?_ofKeys (s : SortedSet κ) (f : κ → Option ν) (k : κ) :
    (ofKeys s f).get? k = if k ∈ s then f k else none := by
  refine Option.ext fun v => ?_
  rw [← mem_toList_iff]
  simp only [ofKeys, List.mem_filterMap, Option.map_eq_some_iff, Prod.mk.injEq,
    SortedSet.mem_toList]
  constructor
  · rintro ⟨k', hk, x, hx, rfl, rfl⟩
    rw [if_pos hk, hx]
  · intro h
    by_cases hk : k ∈ s
    · rw [if_pos hk] at h
      exact ⟨k, hk, v, h, rfl, rfl⟩
    · simp [hk] at h

omit [LawfulEqOrd κ] in
@[simp] theorem get?_singleton (k k' : κ) (v : ν) :
    (singleton k v).get? k' = if compare k' k == .eq then some v else none := by
  simp only [singleton, get?, List.find?_cons, List.find?_nil]
  split <;> simp_all

theorem mem_keys {m : SortedMap κ ν} {k : κ} : k ∈ m.keys ↔ (m.get? k).isSome = true := by
  rw [← SortedSet.mem_toList, Option.isSome_iff_exists]
  simp only [keys, List.mem_map]
  constructor
  · rintro ⟨⟨k', v⟩, h, rfl⟩
    exact ⟨v, mem_toList_iff.mp h⟩
  · rintro ⟨v, h⟩
    exact ⟨(k, v), mem_toList_iff.mpr h, rfl⟩

theorem mem_values {m : SortedMap κ ν} {v : ν} : v ∈ m.values ↔ ∃ k, m.get? k = some v := by
  simp only [values, List.mem_map]
  constructor
  · rintro ⟨⟨k, v⟩, h, rfl⟩
    exact ⟨k, mem_toList_iff.mp h⟩
  · rintro ⟨k, h⟩
    exact ⟨(k, v), mem_toList_iff.mpr h, rfl⟩

variable [TransOrd κ]

theorem ext {m n : SortedMap κ ν} (h : ∀ k, m.get? k = n.get? k) : m = n := by
  have nodup : ∀ {m : SortedMap κ ν}, m.toList.Nodup := fun {m} => m.sorted.imp
    fun {e f} hef heq => by
      subst heq
      simp [LawfulEqCmp.compare_eq_iff_eq.mpr] at hef
  have hp : m.toList.Perm n.toList :=
    (List.perm_ext_iff_of_nodup nodup nodup).mpr fun ⟨k, v⟩ => by
      rw [mem_toList_iff, mem_toList_iff, h]
  refine eq_of_toList_eq (hp.eq_of_pairwise (fun e f _ _ hef hfe => ?_) m.sorted n.sorted)
  exact absurd (TransCmp.lt_trans hef hfe) (by simp [LawfulEqCmp.compare_eq_iff_eq.mpr])

/-- The entries that are listed before a given one are those with a smaller
key. -/
theorem mem_left_iff {m : SortedMap κ ν} {l l' : List (κ × ν)} {e d : κ × ν}
    (h : m.toList = l ++ e :: l') : d ∈ l ↔ d ∈ m.toList ∧ compare d.1 e.1 = .lt := by
  have hsorted := m.sorted
  rw [h] at hsorted ⊢
  obtain ⟨_, hright, hleft⟩ := List.pairwise_append.mp hsorted
  constructor
  · exact fun hd => ⟨List.mem_append_left _ hd, hleft d hd e List.mem_cons_self⟩
  · rintro ⟨hd, hlt⟩
    rcases List.mem_append.mp hd with hd | hd
    · exact hd
    · rcases List.mem_cons.mp hd with rfl | hd
      · simp [LawfulEqCmp.compare_eq_iff_eq.mpr] at hlt
      · have hgt := (List.pairwise_cons.mp hright).1 d hd
        exact absurd (TransCmp.lt_trans hlt hgt) (by simp [LawfulEqCmp.compare_eq_iff_eq.mpr])

theorem get?_alter_self (k : κ) (f : Option ν → ν) (m : SortedMap κ ν) :
    (m.alter k f).get? k = some (f (m.get? k)) := by
  obtain ⟨l, h⟩ := m
  simp only [get?, alter]
  induction l with
  | nil => simp [placeWith]
  | cons e l ih =>
    unfold placeWith
    split
    · next hk =>
      have hnone : l.find? (fun e => compare k e.1 == .eq) = none := by
        refine List.find?_eq_none.mpr fun d hd => ?_
        have := TransCmp.lt_trans hk ((List.pairwise_cons.mp h).1 d hd)
        simp [this]
      simp [hk, hnone]
    · next hk => simp [hk]
    · next hk => simpa [List.find?_cons, hk] using ih (List.pairwise_cons.mp h).2

theorem get?_alter_of_ne {k k' : κ} (hne : k' ≠ k) (f : Option ν → ν) (m : SortedMap κ ν) :
    (m.alter k f).get? k' = m.get? k' := by
  have hcmp : (compare k' k == .eq) = false := by
    simp [LawfulEqCmp.compare_eq_iff_eq, hne]
  obtain ⟨l, h⟩ := m
  simp only [get?, alter]
  congr 1
  induction l with
  | nil => simp [placeWith, hcmp]
  | cons e l ih =>
    unfold placeWith
    split
    · rw [List.find?_cons, hcmp]
    · next hk =>
      have := LawfulEqCmp.compare_eq_iff_eq.mp hk
      subst this
      simp [hcmp]
    · rw [List.find?_cons, List.find?_cons, ih (List.pairwise_cons.mp h).2]

end Lookup

/-! ## Maps as keys

Maps are compared by their keys, and those with the same keys by their
values, so that things can be told apart by the map that belongs to
them. -/

section Compared

variable [Ord ν]

instance : Ord (SortedMap κ ν) :=
  ⟨compareLex (compareOn fun m => m.keys.toList) (compareOn SortedMap.values)⟩

theorem compare_def (m n : SortedMap κ ν) :
    compare m n = compareLex (compareOn fun m => m.keys.toList) (compareOn SortedMap.values) m n :=
  rfl

instance [TransOrd κ] [TransOrd ν] : TransOrd (SortedMap κ ν) where
  eq_swap {m n} := by
    rw [compare_def, compare_def]
    exact OrientedCmp.eq_swap
  isLE_trans {l m n} hlm hmn := by
    rw [compare_def] at *
    exact TransCmp.isLE_trans hlm hmn

omit [Ord ν] in
theorem eq_of_keys_of_values {m n : SortedMap κ ν} (hk : m.keys.toList = n.keys.toList)
    (hv : m.values = n.values) : m = n :=
  eq_of_toList_eq <| (List.zip_of_prod hk hv).trans (List.zip_of_prod rfl rfl).symm

instance [LawfulEqOrd κ] [LawfulEqOrd ν] : LawfulEqOrd (SortedMap κ ν) where
  compare_self {m} := by
    rw [compare_def]
    exact ReflCmp.compare_self
  eq_of_compare {m n} h := by
    rw [compare_def, compareLex_eq_eq] at h
    exact eq_of_keys_of_values (LawfulEqOrd.eq_of_compare h.1) (LawfulEqOrd.eq_of_compare h.2)

end Compared

end SortedMap

end FiniteState
