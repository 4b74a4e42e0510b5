import FiniteState.Proofs.UnionFind.Calls
import Mathlib.Combinatorics.SimpleGraph.Connectivity.Connected
import Mathlib.Data.List.Induction
import Mathlib.Data.List.TakeWhile

/-!
# Runs of calls

A partition that has gone through any run of calls, failing ones among
them, can be known without looking at its forest. The calls draw a graph on
the elements: a union of two elements draws an edge, and a merge draws an
edge from the first number to each one that stands before the first number
which is no element. Elements are in one class exactly if they are
connected (`joined_after_iff`), hence the classes are the connected
components (`classes_after`).

One more call connects what the numbers that it joins are connected with,
and on the partition it does just that (`Sound.performs`); this is the step
of an induction on the run.
-/

namespace FiniteState

namespace UnionFind

/-! ## The graph of a run -/

/-- The edges that a call draws between so many elements. A merge draws
them from its first number, so it draws none if that is no element. -/
def Call.edges (n : Nat) : Call → List (Nat × Nat)
  | union x y => if x < n ∧ y < n then [(x, y)] else []
  | merge (x :: y :: l) => ((x :: y :: l).takeWhile (· < n)).map fun z => (x, z)
  | merge _ | find _ | sameClass _ _ | groups | representatives | elements | isEmpty | findAll => []

/-- The graph that a run of calls draws on the elements. -/
def graph (n : Nat) (calls : List Call) : SimpleGraph (Fin n) :=
  .fromRel fun x y => ((x : Nat), (y : Nat)) ∈ calls.flatMap (Call.edges n)

/-- What a run of calls makes of single elements. A call that fails does not
end the run. -/
def after (n : Nat) (calls : List Call) : UnionFind :=
  calls.foldl (fun u c => (u.perform c).2) (singletons n)

variable {u : UnionFind} {n a b : Nat} {calls : List Call} {c : Call} {x y : Fin n}

/-- Either a call joins nothing and draws no edge, or it draws edges from
the first number that it joins to all others. -/
theorem Call.edges_cases (n : Nat) (c : Call) :
    (c.joins n = [] ∧ c.edges n = []) ∨
      ∃ x l, c.joins n = x :: l ∧ (∀ a ∈ x :: l, a < n) ∧
        (∀ e ∈ c.edges n, e.1 = x ∧ e.2 ∈ x :: l) ∧ ∀ a ∈ l, (x, a) ∈ c.edges n := by
  match c with
  | union x y =>
      by_cases hxy : x < n ∧ y < n
      · refine .inr ⟨x, [y], if_pos hxy, ?_⟩
        rw [edges, if_pos hxy]
        simp [hxy]
      · exact .inl ⟨if_neg hxy, if_neg hxy⟩
  | merge (x :: y :: l) =>
      -- the merge stops before it has joined anything if the first number is no element
      by_cases hx : x < n
      · have hjoins : (merge (x :: y :: l)).joins n = x :: (y :: l).takeWhile (· < n) := by
          rw [joins, List.takeWhile_cons_of_pos (by simpa using hx)]
        have hedges : (merge (x :: y :: l)).edges n =
            (x :: (y :: l).takeWhile (· < n)).map fun z => (x, z) := congrArg _ hjoins
        refine .inr ⟨x, _, hjoins, fun a ha => ?_, fun e he => ?_, fun a ha => ?_⟩
        · rw [← hjoins] at ha
          simpa using List.mem_takeWhile_imp ha
        · rw [hedges] at he
          obtain ⟨z, hz, rfl⟩ := List.mem_map.mp he
          exact ⟨rfl, hz⟩
        · rw [hedges]
          exact List.mem_map.mpr ⟨a, List.mem_cons_of_mem _ ha, rfl⟩
      · have hjoins : (merge (x :: y :: l)).joins n = [] := by
          rw [joins, List.takeWhile_cons_of_neg (by simpa using hx)]
        exact .inl ⟨hjoins, congrArg (List.map _) hjoins⟩
  | merge [] | merge [_] | find _ | sameClass _ _ | groups | representatives | elements
  | isEmpty | findAll => exact .inl ⟨rfl, rfl⟩

theorem Call.mem_joins_of_mem_edges (h : (a, b) ∈ c.edges n) : a ∈ c.joins n ∧ b ∈ c.joins n := by
  obtain ⟨_, hedges⟩ | ⟨x, l, hjoins, _, hends, _⟩ := c.edges_cases n
  · rw [hedges] at h
    cases h
  · obtain ⟨rfl, hb⟩ := hends _ h
    rw [hjoins]
    exact ⟨List.mem_cons_self, hb⟩

theorem Call.lt_of_mem_joins (h : a ∈ c.joins n) : a < n := by
  obtain ⟨hjoins, _⟩ | ⟨x, l, hjoins, hlt, _⟩ := c.edges_cases n
  · rw [hjoins] at h
    cases h
  · exact hlt a (hjoins ▸ h)

theorem adj_graph_concat : (graph n (calls ++ [c])).Adj x y ↔ (graph n calls).Adj x y ∨
    x ≠ y ∧ (((x : Nat), (y : Nat)) ∈ c.edges n ∨ ((y : Nat), (x : Nat)) ∈ c.edges n) := by
  simp only [graph, SimpleGraph.fromRel_adj, List.flatMap_append, List.mem_append,
    List.flatMap_singleton]
  tauto

/-- A call connects all numbers that it joins. -/
theorem reachable_of_mem_joins (calls : List Call) (hx : (x : Nat) ∈ c.joins n)
    (hy : (y : Nat) ∈ c.joins n) : (graph n (calls ++ [c])).Reachable x y := by
  obtain ⟨hjoins, _⟩ | ⟨z, l, hjoins, hlt, _, hedges⟩ := c.edges_cases n
  · rw [hjoins] at hx
    cases hx
  · let first : Fin n := ⟨z, hlt z List.mem_cons_self⟩
    have hfirst : ∀ x : Fin n, (x : Nat) ∈ z :: l →
        (graph n (calls ++ [c])).Reachable first x := by
      intro x hx
      by_cases hne : first = x
      · rw [hne]
      · have hmem := (List.mem_cons.mp hx).resolve_left fun heq => hne (Fin.ext heq.symm)
        exact (adj_graph_concat.mpr (.inr ⟨hne, .inl (hedges x hmem)⟩)).reachable
    rw [hjoins] at hx hy
    exact (hfirst x hx).symm.trans (hfirst y hy)

/-! ## The partition after a run -/

theorem after_concat (n : Nat) (calls : List Call) (c : Call) :
    after n (calls ++ [c]) = ((after n calls).perform c).2 := by
  rw [after, List.foldl_append]
  rfl

theorem sound_after (n : Nat) (calls : List Call) :
    (after n calls).Sound ∧ (after n calls).elements = n := by
  induction calls using List.reverseRecOn with
  | nil => exact ⟨sound_singletons n, elements_singletons n⟩
  | append_singleton calls c ih =>
      obtain ⟨hsound, helements⟩ := ih
      have hmerged := (hsound.performs c).merged
      rw [after_concat]
      exact ⟨hmerged.sound, hmerged.elements_eq.trans helements⟩

/-- One more call makes one class of the classes that hold a number which
it joins. -/
theorem joined_after_concat (n : Nat) (calls : List Call) (c : Call) (p q : Nat) :
    (after n (calls ++ [c])).Joined p q ↔ (after n calls).Joined p q ∨
      (∃ a ∈ c.joins n, (after n calls).Joined p a) ∧
        ∃ b ∈ c.joins n, (after n calls).Joined q b := by
  obtain ⟨hsound, helements⟩ := sound_after n calls
  have hmerged := (hsound.performs c).merged
  rw [helements] at hmerged
  rw [after_concat]
  exact hmerged.joined_iff p q

/-- Elements are in one class exactly if they are connected. -/
theorem joined_after_iff (n : Nat) (calls : List Call) (x y : Fin n) :
    (after n calls).Joined x y ↔ (graph n calls).Reachable x y := by
  induction calls using List.reverseRecOn generalizing x y with
  | nil =>
      have hgraph : graph n [] = ⊥ := by
        ext x y
        simp [graph]
      rw [hgraph, SimpleGraph.reachable_bot, Fin.ext_iff]
      show (singletons n).root x = (singletons n).root y ↔ _
      rw [root_singletons, root_singletons]
  | append_singleton calls c ih =>
      have hmono : graph n calls ≤ graph n (calls ++ [c]) := fun _ _ h =>
        adj_graph_concat.mpr (.inl h)
      constructor
      · intro hjoined
        rcases (joined_after_concat ..).mp hjoined with hold | ⟨⟨a, ha, hxa⟩, b, hb, hyb⟩
        · exact ((ih x y).mp hold).mono hmono
        · have hxa' := ((ih x ⟨a, Call.lt_of_mem_joins ha⟩).mp hxa).mono hmono
          have hyb' := ((ih y ⟨b, Call.lt_of_mem_joins hb⟩).mp hyb).mono hmono
          exact (hxa'.trans (reachable_of_mem_joins calls ha hb)).trans hyb'.symm
      · -- every edge of the path joins its ends
        rintro ⟨path⟩
        induction path with
        | nil => rfl
        | cons hadj _ hrest =>
            refine Eq.trans ?_ hrest
            refine (joined_after_concat ..).mpr ?_
            rcases adj_graph_concat.mp hadj with hold | ⟨_, hedge | hedge⟩
            · exact .inl ((ih _ _).mpr hold.reachable)
            · obtain ⟨hp, hq⟩ := Call.mem_joins_of_mem_edges hedge
              exact .inr ⟨⟨_, hp, rfl⟩, _, hq, rfl⟩
            · obtain ⟨hq, hp⟩ := Call.mem_joins_of_mem_edges hedge
              exact .inr ⟨⟨_, hp, rfl⟩, _, hq, rfl⟩

theorem classes_after (n : Nat) (calls : List Call) :
    (after n calls).classes = Nat.card (graph n calls).ConnectedComponent :=
  let ⟨hsound, helements⟩ := sound_after n calls
  hsound.classes_eq_card helements (s := (graph n calls).reachableSetoid) (joined_after_iff n calls)

/-! ## Answers -/

theorem lt_elements_after (calls : List Call) (x : Fin n) : (x : Nat) < (after n calls).elements :=
  Nat.lt_of_lt_of_eq x.2 (sound_after n calls).2.symm

theorem perform_sameClass_after (n : Nat) (calls : List Call) (x y : Fin n) :
    ∃ b, ((after n calls).perform (.sameClass x y)).1 = .ok (.flag b) ∧
      (b = true ↔ (graph n calls).Reachable x y) := by
  have hsound := (sound_after n calls).1
  have hok := hsound.perform_sameClass (lt_elements_after calls x) (lt_elements_after calls y)
  exact ⟨_, hok, (hsound.sameClass x y).1.trans (joined_after_iff n calls x y)⟩

theorem perform_union_after (n : Nat) (calls : List Call) (x y : Fin n) :
    ∃ b, ((after n calls).perform (.union x y)).1 = .ok (.flag b) ∧
      (b = true ↔ ¬ (graph n calls).Reachable x y) := by
  have hsound := (sound_after n calls).1
  have hx := lt_elements_after calls x
  have hy := lt_elements_after calls y
  refine ⟨_, hsound.perform_union hx hy, ?_⟩
  rw [hsound.unite_eq_true_iff hx hy, joined_after_iff]

theorem perform_after_error_iff (n : Nat) (calls : List Call) (c : Call) (e : Failure) :
    ((after n calls).perform c).1 = .error e ↔
      ∃ z, c.items.find? (n ≤ ·) = some z ∧ e = .outOfBounds n z := by
  obtain ⟨hsound, helements⟩ := sound_after n calls
  have herror := (hsound.performs c).error_iff e
  rwa [helements] at herror

/-- **Runs of calls draw a graph.** After any run of calls, failing ones
among them, two elements are found in one class exactly if they are
connected in the graph that the calls have drawn, and as many classes are
counted as it has connected components. The next union of two elements
tells whether they were not connected. The next call fails exactly if one
of its arguments is no element, and names the first that is none; it never
fails for want of a class to give up. -/
theorem history_draws_graph (n : Nat) (calls : List Call) :
    let u := after n calls
    let g := graph n calls
    (∀ x y : Fin n, ∃ b, (u.perform (.sameClass x y)).1 = .ok (.flag b) ∧
        (b = true ↔ g.Reachable x y)) ∧
      u.elements = n ∧ u.classes = Nat.card g.ConnectedComponent ∧
      (∀ x y : Fin n, ∃ b, (u.perform (.union x y)).1 = .ok (.flag b) ∧
        (b = true ↔ ¬ g.Reachable x y)) ∧
      (∀ c e, (u.perform c).1 = .error e ↔
        ∃ z, c.items.find? (n ≤ ·) = some z ∧ e = .outOfBounds n z) ∧
      ∀ c, (u.perform c).1 ≠ .error .underflow := by
  refine ⟨perform_sameClass_after n calls, (sound_after n calls).2, classes_after n calls,
    perform_union_after n calls, perform_after_error_iff n calls, fun c hunderflow => ?_⟩
  obtain ⟨z, _, hz⟩ := (perform_after_error_iff n calls c .underflow).mp hunderflow
  cases hz

/-- A merge that fails has joined what stands before the number that is no
element, and the run goes on. -/
example : ((after 5 [.merge [3, 0, 9, 4], .union 0 7]).perform (.sameClass 0 3)).1 =
    .ok (.flag true) := by decide +kernel

end UnionFind

end FiniteState
