/-!
# Sorted sets

A finite set over an ordered type, kept as its members in strictly
ascending order. The order is part of the type because it is visible:
sets of states are listed ascending, and the symbols of an alphabet are
tried in the alphabet's own order.

The list is canonical, so equality of sets is equality of lists; `ext`
says that two sets with the same members are equal, and every operation
comes with one lemma on its members. After those nothing unfolds an
operation again.
-/

universe u v

namespace FiniteState

open Std

/-- A finite set, as the strictly ascending list of its members. -/
structure SortedSet (α : Type u) [Ord α] where
  toList : List α
  sorted : toList.Pairwise fun a b => compare a b = .lt
deriving DecidableEq

namespace SortedSet

variable {α : Type u} [Ord α]

instance : Membership α (SortedSet α) := ⟨fun s a => a ∈ s.toList⟩

instance : EmptyCollection (SortedSet α) := ⟨⟨[], .nil⟩⟩

instance : Inhabited (SortedSet α) := ⟨∅⟩

/-- Number of members. -/
def size (s : SortedSet α) : Nat := s.toList.length

def isEmpty (s : SortedSet α) : Bool := s.toList.isEmpty

@[simp] theorem mem_toList {a : α} {s : SortedSet α} : a ∈ s.toList ↔ a ∈ s := Iff.rfl

@[simp] theorem not_mem_empty {a : α} : ¬ a ∈ (∅ : SortedSet α) := List.not_mem_nil

@[simp] theorem toList_empty : (∅ : SortedSet α).toList = [] := rfl

theorem eq_of_toList_eq : ∀ {s t : SortedSet α}, s.toList = t.toList → s = t
  | ⟨_, _⟩, ⟨_, _⟩, rfl => rfl

theorem isEmpty_iff {s : SortedSet α} : s.isEmpty = true ↔ s = ∅ := by
  rw [isEmpty, List.isEmpty_iff]
  exact ⟨fun h => eq_of_toList_eq h, fun h => h ▸ rfl⟩

/-- The members that pass a test. -/
def filter (p : α → Bool) (s : SortedSet α) : SortedSet α :=
  ⟨s.toList.filter p, s.sorted.filter p⟩

@[simp] theorem mem_filter {p : α → Bool} {s : SortedSet α} {a : α} :
    a ∈ s.filter p ↔ a ∈ s ∧ p a = true := List.mem_filter

/-- The set of one member. -/
def singleton (a : α) : SortedSet α := ⟨[a], List.pairwise_singleton _ a⟩

@[simp] theorem mem_singleton {a b : α} : a ∈ singleton b ↔ a = b := List.mem_singleton

@[simp] theorem toList_singleton (a : α) : (singleton a).toList = [a] := rfl

/-- The only member, where there is exactly one. -/
def sole? (s : SortedSet α) : Option α :=
  match s.toList with
  | [a] => some a
  | _ => none

theorem size_eq_one_iff {s : SortedSet α} : s.size = 1 ↔ ∃ a, s = singleton a := by
  rw [size, List.length_eq_one_iff]
  exact exists_congr fun _ => ⟨fun h => eq_of_toList_eq h, fun h => h ▸ rfl⟩

@[simp] theorem sole?_singleton (a : α) : (singleton a).sole? = some a := rfl

/-- The smallest member, and the set of the others. -/
def pop? (s : SortedSet α) : Option (α × SortedSet α) :=
  match s with
  | ⟨[], _⟩ => none
  | ⟨a :: l, h⟩ => some (a, ⟨l, (List.pairwise_cons.mp h).2⟩)

theorem toList_of_pop?_none {s : SortedSet α} (h : s.pop? = none) : s.toList = [] := by
  obtain ⟨_ | _, _⟩ := s
  · rfl
  · simp [pop?] at h

theorem toList_of_pop?_some {s rest : SortedSet α} {a : α} (h : s.pop? = some (a, rest)) :
    s.toList = a :: rest.toList := by
  obtain ⟨_ | ⟨b, l⟩, hsorted⟩ := s
  · simp [pop?] at h
  · obtain ⟨rfl, rfl⟩ : b = a ∧ ⟨l, (List.pairwise_cons.mp hsorted).2⟩ = rest := by
      simpa [pop?] using h
    rfl

/-! ## Membership is decided by comparing

No equality test on the members is asked for: the order has one. -/

instance [LawfulEqOrd α] (a : α) (s : SortedSet α) : Decidable (a ∈ s) :=
  decidable_of_iff (s.toList.any fun b => compare a b == .eq) <| by
    simp [List.any_eq_true, LawfulEqCmp.compare_eq_iff_eq]

/-! ## The order, as a test -/

theorem isLE_of_lt {a b : α} (h : compare a b = .lt) : (compare a b).isLE = true := by
  rw [h]
  rfl

theorem isLE_total [OrientedOrd α] (a b : α) :
    ((compare a b).isLE || (compare b a).isLE) = true := by
  have h : compare a b = (compare b a).swap := OrientedCmp.eq_swap
  rw [h]
  cases compare b a <;> rfl

/-! ## From lists

A list becomes a set by sorting it and then keeping the first of equal
neighbours. Sets are joined by merging their lists, which are sorted
already. -/

variable [TransOrd α] [LawfulEqOrd α]

/-- Puts a member in front of an ascending list, where it is not there
yet. -/
def consNew (a : α) : List α → List α
  | [] => [a]
  | b :: l => if compare a b == .eq then b :: l else a :: b :: l

omit [TransOrd α] in
theorem mem_consNew {a c : α} {l : List α} : c ∈ consNew a l ↔ c = a ∨ c ∈ l := by
  cases l with
  | nil => simp [consNew]
  | cons b l =>
    rw [consNew]
    split
    · next h =>
      have hab : a = b := by simpa using h
      simp [hab]
    · simp

/-- The members of an ascending list once each. -/
def unrepeat (l : List α) : List α := l.foldr consNew []

omit [TransOrd α] in
theorem mem_unrepeat {a : α} {l : List α} : a ∈ unrepeat l ↔ a ∈ l := by
  induction l with
  | nil => rfl
  | cons b l ih =>
    change a ∈ consNew b (unrepeat l) ↔ _
    rw [mem_consNew, ih, List.mem_cons]

omit [TransOrd α] [LawfulEqOrd α] in
theorem length_unrepeat_le (l : List α) : (unrepeat l).length ≤ l.length := by
  induction l with
  | nil => exact Nat.le_refl _
  | cons b l ih =>
    change (consNew b (unrepeat l)).length ≤ _
    cases hl : unrepeat l with
    | nil => simp [consNew]
    | cons c m =>
      rw [hl] at ih
      rw [consNew]
      split <;> simp only [List.length_cons] at * <;> omega

theorem pairwise_unrepeat {l : List α} (h : l.Pairwise fun a b => (compare a b).isLE = true) :
    (unrepeat l).Pairwise fun a b => compare a b = .lt := by
  induction l with
  | nil => exact .nil
  | cons a l ih =>
    obtain ⟨ha, hl⟩ := List.pairwise_cons.mp h
    have hr := ih hl
    have hle : ∀ b ∈ unrepeat l, (compare a b).isLE = true := fun b hb =>
      ha b (mem_unrepeat.mp hb)
    change (consNew a (unrepeat l)).Pairwise _
    cases hu : unrepeat l with
    | nil => exact List.pairwise_singleton _ a
    | cons b m =>
      rw [hu] at hr hle
      rw [consNew]
      split
      · exact hr
      · next hab =>
        have hlt : compare a b = .lt :=
          (Ordering.isLE_iff_eq_lt_or_eq_eq.mp (hle b List.mem_cons_self)).resolve_right
            (by simpa using hab)
        refine List.pairwise_cons.mpr ⟨fun c hc => ?_, hr⟩
        rcases List.mem_cons.mp hc with rfl | hc
        · exact hlt
        · exact TransCmp.lt_trans hlt ((List.pairwise_cons.mp hr).1 c hc)

/-- The members of a list, in order and once each. -/
def ofList (l : List α) : SortedSet α where
  toList := unrepeat (l.mergeSort fun a b => (compare a b).isLE)
  sorted := pairwise_unrepeat <|
    List.pairwise_mergeSort (fun _ _ _ => TransCmp.isLE_trans) isLE_total l

@[simp] theorem mem_ofList {a : α} {l : List α} : a ∈ ofList l ↔ a ∈ l := by
  rw [← mem_toList, ofList, mem_unrepeat]
  exact (List.mergeSort_perm l _).mem_iff

/-- All members of both sets. -/
def union (s t : SortedSet α) : SortedSet α where
  toList := unrepeat (s.toList.merge t.toList fun a b => (compare a b).isLE)
  sorted := pairwise_unrepeat <|
    List.pairwise_merge (fun _ _ _ => TransCmp.isLE_trans) isLE_total _ _
      (s.sorted.imp isLE_of_lt) (t.sorted.imp isLE_of_lt)

instance : Union (SortedSet α) := ⟨union⟩

@[simp] theorem mem_union {a : α} {s t : SortedSet α} : a ∈ s ∪ t ↔ a ∈ s ∨ a ∈ t :=
  mem_unrepeat.trans List.mem_merge

/-- One more member, if it is not there yet. -/
def insert (a : α) (s : SortedSet α) : SortedSet α := singleton a ∪ s

@[simp] theorem mem_insert {a b : α} {s : SortedSet α} : b ∈ s.insert a ↔ b = a ∨ b ∈ s := by
  simp [insert]

theorem length_insert_le (s : SortedSet α) (a : α) :
    (s.insert a).toList.length ≤ s.toList.length + 1 := by
  refine Nat.le_trans (length_unrepeat_le _) (Nat.le_of_eq ?_)
  rw [List.length_merge, toList_singleton, List.length_singleton, Nat.add_comm]

/-- The set of all values of a function on the members. -/
def image {β : Type v} [Ord β] (f : β → α) (s : SortedSet β) : SortedSet α :=
  ofList (s.toList.map f)

@[simp] theorem mem_image {β : Type v} [Ord β] {f : β → α} {s : SortedSet β} {a : α} :
    a ∈ s.image f ↔ ∃ b, b ∈ s ∧ f b = a := by
  simp [image]

/-- The union of the sets that a function gives for the members. -/
def bind {β : Type v} [Ord β] (s : SortedSet β) (f : β → SortedSet α) : SortedSet α :=
  ofList (s.toList.flatMap fun b => (f b).toList)

@[simp] theorem mem_bind {β : Type v} [Ord β] {f : β → SortedSet α} {s : SortedSet β} {a : α} :
    a ∈ s.bind f ↔ ∃ b, b ∈ s ∧ a ∈ f b := by
  simp [bind]

/-! ## Common members -/

/-- Whether two ascending lists share a member: the smaller of their heads
is left out until the heads are equal. -/
def sharing : List α → List α → Bool
  | a :: l, b :: m =>
    match compare a b with
    | .lt => sharing l (b :: m)
    | .eq => true
    | .gt => sharing (a :: l) m
  | _, _ => false
termination_by l m => l.length + m.length

/-- Whether two sets share a member. -/
def meets (s t : SortedSet α) : Bool := sharing s.toList t.toList

theorem sharing_iff {l m : List α} (hl : l.Pairwise fun a b => compare a b = .lt)
    (hm : m.Pairwise fun a b => compare a b = .lt) :
    sharing l m = true ↔ ∃ a, a ∈ l ∧ a ∈ m := by
  fun_induction sharing l m with
  | case1 a l b m hab ih =>
    rw [ih (List.pairwise_cons.mp hl).2 hm]
    have hne : ¬ a ∈ b :: m := fun h => by
      rcases List.mem_cons.mp h with rfl | h
      · simp [LawfulEqCmp.compare_eq_iff_eq.mpr] at hab
      · have := TransCmp.lt_trans hab ((List.pairwise_cons.mp hm).1 a h)
        simp [LawfulEqCmp.compare_eq_iff_eq.mpr] at this
    grind
  | case2 a l b m hab =>
    have := LawfulEqCmp.compare_eq_iff_eq.mp hab
    subst this
    simp
  | case3 a l b m hab ih =>
    rw [ih hl (List.pairwise_cons.mp hm).2]
    have hba := OrientedCmp.gt_iff_lt.mp hab
    have hne : ¬ b ∈ a :: l := fun h => by
      rcases List.mem_cons.mp h with rfl | h
      · simp [LawfulEqCmp.compare_eq_iff_eq.mpr] at hba
      · have := TransCmp.lt_trans hba ((List.pairwise_cons.mp hl).1 b h)
        simp [LawfulEqCmp.compare_eq_iff_eq.mpr] at this
    grind
  | case4 l m h =>
    rcases l with _ | ⟨a, l⟩
    · simp
    · rcases m with _ | ⟨b, m⟩
      · simp
      · exact (h a l b m rfl rfl).elim

theorem meets_iff {s t : SortedSet α} : s.meets t = true ↔ ∃ a, a ∈ s ∧ a ∈ t :=
  sharing_iff s.sorted t.sorted

/-! ## The list is canonical -/

omit [TransOrd α] in
theorem nodup (s : SortedSet α) : s.toList.Nodup := by
  refine s.sorted.imp fun {a b} h hab => ?_
  subst hab
  simp [LawfulEqCmp.compare_eq_iff_eq.mpr rfl] at h

theorem ext {s t : SortedSet α} (h : ∀ a, a ∈ s ↔ a ∈ t) : s = t := by
  have hp : s.toList.Perm t.toList :=
    (List.perm_ext_iff_of_nodup s.nodup t.nodup).mpr h
  refine eq_of_toList_eq (hp.eq_of_pairwise (fun a b _ _ hab hba => ?_) s.sorted t.sorted)
  exact absurd (TransCmp.lt_trans hab hba) (by simp [LawfulEqCmp.compare_eq_iff_eq.mpr rfl])

theorem ext_iff {s t : SortedSet α} : s = t ↔ ∀ a, a ∈ s ↔ a ∈ t :=
  ⟨fun h _ => h ▸ Iff.rfl, ext⟩

theorem eq_empty_iff {s : SortedSet α} : s = ∅ ↔ ∀ a, ¬ a ∈ s :=
  ⟨fun h _ => h ▸ not_mem_empty, fun h => ext fun a => iff_of_false (h a) not_mem_empty⟩

theorem ofList_toList (s : SortedSet α) : ofList s.toList = s := ext fun _ => by simp

/-- Only finitely many sets are made of the members of a list. -/
theorem exists_all_within (l : List α) :
    ∃ all : List (SortedSet α), ∀ s, (∀ a, a ∈ s → a ∈ l) → s ∈ all := by
  induction l with
  | nil =>
    refine ⟨[∅], fun s hs => List.mem_singleton.mpr (ext fun a => ?_)⟩
    simpa using hs a
  | cons b l ih =>
    obtain ⟨all, hall⟩ := ih
    refine ⟨all ++ all.map (insert b), fun s hs => ?_⟩
    let rest := s.filter fun a => compare a b != .eq
    have mem_rest : ∀ a, a ∈ rest ↔ a ∈ s ∧ a ≠ b := fun a => by
      simp [rest, LawfulEqCmp.compare_eq_iff_eq]
    have hrest : rest ∈ all := hall rest fun a ha =>
      (List.mem_cons.mp (hs a ((mem_rest a).mp ha).1)).resolve_left ((mem_rest a).mp ha).2
    by_cases hb : b ∈ s
    · have hs' : rest.insert b = s := ext fun a => by
        rw [mem_insert, mem_rest]
        by_cases hab : a = b
        · simp [hab, hb]
        · simp [hab]
      exact List.mem_append_right _ (List.mem_map.mpr ⟨rest, hrest, hs'⟩)
    · have hs' : rest = s := ext fun a => by
        rw [mem_rest]
        exact ⟨And.left, fun ha => ⟨ha, fun hab => hb (hab ▸ ha)⟩⟩
      exact List.mem_append_left _ (hs' ▸ hrest)

/-! ## Sets as members of sets

Sets are compared like words, by the first place where they differ. -/

instance : Ord (SortedSet α) := ⟨fun s t => compare s.toList t.toList⟩

omit [TransOrd α] [LawfulEqOrd α] in
theorem compare_def (s t : SortedSet α) : compare s t = compare s.toList t.toList := rfl

instance : TransOrd (SortedSet α) where
  eq_swap {s t} := by
    rw [compare_def, compare_def]
    exact OrientedCmp.eq_swap
  isLE_trans {s t u} hst htu := by
    rw [compare_def] at *
    exact TransCmp.isLE_trans hst htu

instance : LawfulEqOrd (SortedSet α) where
  compare_self {s} := by
    rw [compare_def]
    exact ReflCmp.compare_self
  eq_of_compare {s t} h := by
    rw [compare_def] at h
    exact eq_of_toList_eq (LawfulEqOrd.eq_of_compare h)

end SortedSet

end FiniteState
