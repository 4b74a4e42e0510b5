import FiniteState.Proofs.Nfa.Combine
import FiniteState.Proofs.Strict.Lookup

/-!
# Combinations by strict look-ups

The regular operations once more, one epsilon move at a time: operands are
laid side by side as they are, and then moves are added to nodes that are
looked up by their numbers, from the fresh start and from every accepting
state of an operand. The states that an operand accepts in are its own, and
shifted by the offset they are where its nodes were laid; so every node is
found, and what comes out is the combination (`WellFormed.union?_eq`,
`WellFormed.concatenate?_eq`, `WellFormed.star?_eq`).
-/

namespace FiniteState

namespace Nfa

variable {σ : Type} [Alphabet σ] {n m : Nfa σ} {nodes : Array (Node σ)} {offset i : Nat}

/-! ## Adding epsilon moves -/

/-- Adds an epsilon move from a state, which has to be there. -/
def addExit? (nodes : Array (Node σ)) (origin target : State) : Option (Array (Node σ)) :=
  modify? nodes origin (Node.withExits (.singleton target))

/-- Adds epsilon moves to all targets from every accepting state of an
operand. -/
def addExits? (n : Nfa σ) (offset : Nat) (targets : List State) (nodes : Array (Node σ)) :
    Option (Array (Node σ)) :=
  n.finals.toList.foldlM (fun nodes q =>
    targets.foldlM (fun nodes p => addExit? nodes (q + offset) p) nodes) nodes

theorem Node.withExits_withExits (s t : StateSet) (v : Node σ) :
    (v.withExits t).withExits s = v.withExits (s ∪ t) := by
  unfold withExits
  congr 1
  refine SortedSet.ext fun p => ?_
  rw [SortedSet.mem_union, SortedSet.mem_union, SortedSet.mem_union, SortedSet.mem_union,
    or_assoc]

theorem foldlM_addExit? (hi : i < nodes.size) (targets : List State) :
    targets.foldlM (fun nodes p => addExit? nodes i p) nodes =
      some (nodes.modify i (Node.withExits (.ofList targets))) := by
  induction targets generalizing nodes with
  | nil =>
      have hnone : Node.withExits (.ofList []) = (id : Node σ → Node σ) := funext fun v => by
        have hepsilon : SortedSet.ofList [] ∪ v.epsilon = v.epsilon :=
          SortedSet.ext fun p => by simp
        rw [Node.withExits, hepsilon, id]
      rw [hnone, modify_id]
      rfl
  | cons p targets ih =>
      have hmore : (Node.withExits (.ofList targets) : Node σ → Node σ) ∘
          Node.withExits (.singleton p) = Node.withExits (.ofList (p :: targets)) :=
        funext fun v => by
          rw [Function.comp_apply, Node.withExits_withExits]
          refine congrArg (Node.withExits · v) (SortedSet.ext fun q => ?_)
          simp [or_comm]
      rw [List.foldlM_cons, addExit?, modify?_of_lt hi, Option.bind_eq_bind, Option.bind_some,
        ih (by rwa [Array.size_modify]), modify_modify, hmore]

/-- After exits have been added from some states, the nodes of these have
them and the others are as before. -/
theorem getElem?_foldl_withExits (exits : StateSet) (l : List State) :
    (l.foldl (fun nodes q => nodes.modify q (Node.withExits exits)) nodes)[i]? =
      nodes[i]?.map fun v => if i ∈ l then v.withExits exits else v := by
  have htwice : ∀ v : Node σ, (v.withExits exits).withExits exits = v.withExits exits := by
    intro v
    rw [Node.withExits_withExits]
    refine congrArg (Node.withExits · v) (SortedSet.ext fun p => ?_)
    simp
  induction l generalizing nodes with
  | nil => simp
  | cons q l ih =>
      rw [List.foldl_cons, ih, Array.getElem?_modify]
      cases nodes[i]? with
      | none => simp
      | some v =>
          by_cases hq : q = i
          · by_cases hl : i ∈ l
            · simp [hq, hl, htwice]
            · simp [hq, hl]
          · simp [hq, Ne.symm hq]

/-- The shifted nodes with exits added are those of the operand in a
combination. -/
theorem foldl_withExits (n : Nfa σ) (offset : Nat) (exits : StateSet) :
    n.finals.toList.foldl (fun nodes q => nodes.modify q (Node.withExits exits))
      (n.nodes.map (Node.shift offset)) = n.embed offset exits := by
  refine Array.ext_getElem? fun q => ?_
  rw [getElem?_foldl_withExits, Array.getElem?_map]
  rcases Nat.lt_or_ge q n.states with hq | hq
  · rw [getElem?_embed offset exits hq, Array.getElem?_eq_getElem hq, getElem_nodes hq,
      Option.map_some, Option.map_some]
    exact congrArg some (if_congr Iff.rfl rfl rfl)
  · rw [Array.getElem?_eq_none hq, Array.getElem?_eq_none (by rwa [size_embed])]
    rfl

/-- What lies on both sides of an operand stays as it is. -/
theorem foldl_modify_append {left mid right : Array (Node σ)} {l : List State}
    (f : Node σ → Node σ) (hl : ∀ q ∈ l, q < mid.size) :
    l.foldl (fun nodes q => nodes.modify (q + left.size) f) (left ++ (mid ++ right)) =
      left ++ (l.foldl (fun nodes q => nodes.modify q f) mid ++ right) := by
  induction l generalizing mid with
  | nil => rfl
  | cons q l ih =>
      rw [List.foldl_cons, modify_append_right, modify_append_left (hl q List.mem_cons_self), ih]
      · rfl
      · intro p hp
        rw [Array.size_modify]
        exact hl p (List.mem_cons_of_mem q hp)

/-- With exits added, an operand that was laid between other nodes stands
there as in a combination. -/
theorem WellFormed.addExits?_eq (hn : n.WellFormed) {left : Array (Node σ)}
    (hleft : left.size = offset) (targets : List State) (right : Array (Node σ)) :
    n.addExits? offset targets (left ++ (n.nodes.map (Node.shift offset) ++ right)) =
      some (left ++ (n.embed offset (.ofList targets) ++ right)) := by
  subst hleft
  have hmapped : (n.nodes.map (Node.shift left.size)).size = n.states := Array.size_map
  have hadded := foldlM_eq_some (l := n.finals.toList)
    (P := fun (nodes : Array (Node σ)) => left.size + n.states ≤ nodes.size)
    (f := fun nodes q => targets.foldlM (fun nodes p => addExit? nodes (q + left.size) p) nodes)
    (g := fun nodes q => nodes.modify (q + left.size) (Node.withExits (.ofList targets)))
    (b := left ++ (n.nodes.map (Node.shift left.size) ++ right))
    (fun nodes hnodes (q : Nat) hq => by
      have hlt : q < n.states := hn.finals_lt q hq
      exact ⟨foldlM_addExit? (by omega) targets, Array.size_modify.symm ▸ hnodes⟩)
    (by rw [Array.size_append, Array.size_append, hmapped]; omega)
  rw [addExits?, hadded.1, foldl_modify_append, foldl_withExits]
  intro q hq
  rw [hmapped]
  exact hn.finals_lt q hq

/-- An exit is added to the first node. -/
theorem addExit?_zero (v : Node σ) (rest : Array (Node σ)) (p : State) :
    addExit? (#[v] ++ rest) 0 p = some (#[v.withExits (.singleton p)] ++ rest) := by
  rw [addExit?, modify?_of_lt, modify_append_left Nat.one_pos]
  · rfl
  · rw [Array.size_append]
    exact Nat.lt_of_lt_of_le Nat.one_pos (Nat.le_add_right _ _)

theorem withExits_pair (p q : State) :
    (((default : Node σ).withExits (.singleton p)).withExits (.singleton q)) =
      { epsilon := .ofList [p, q] } := by
  rw [Node.withExits_withExits]
  refine congrArg (Node.mk · ∅) (SortedSet.ext fun r => ?_)
  show r ∈ SortedSet.singleton q ∪ SortedSet.singleton p ∪ ∅ ↔ _
  simp [or_comm]

/-! ## The operations -/

def union? (n m : Nfa σ) : Option (Nfa σ) := do
  let offset := 1 + n.states
  let last := offset + m.states
  let nodes := #[default] ++ n.nodes.map (Node.shift 1) ++ m.nodes.map (Node.shift offset) ++ #[default]
  let nodes ← addExit? nodes 0 (n.start + 1)
  let nodes ← addExit? nodes 0 (m.start + offset)
  let nodes ← n.addExits? 1 [last] nodes
  let nodes ← m.addExits? offset [last] nodes
  return { nodes, start := 0, finals := .singleton last }

def concatenate? (n m : Nfa σ) : Option (Nfa σ) := do
  let offset := n.states
  let last := offset + m.states
  let nodes := n.nodes.map (Node.shift 0) ++ m.nodes.map (Node.shift offset) ++ #[default]
  let nodes ← n.addExits? 0 [m.start + offset] nodes
  let nodes ← m.addExits? offset [last] nodes
  return { nodes, start := n.start, finals := .singleton last }

def star? (n : Nfa σ) : Option (Nfa σ) := do
  let last := 1 + n.states
  let nodes := #[default] ++ n.nodes.map (Node.shift 1) ++ #[default]
  let nodes ← addExit? nodes 0 (n.start + 1)
  let nodes ← addExit? nodes 0 last
  let nodes ← n.addExits? 1 [n.start + 1, last] nodes
  return { nodes, start := 0, finals := .singleton last }

theorem ofList_singleton (p : State) : SortedSet.ofList [p] = .singleton p :=
  SortedSet.ext fun q => by simp

theorem WellFormed.union?_eq (hn : n.WellFormed) (hm : m.WellFormed) :
    n.union? m = some (n.union m) := by
  have hfirst : ∀ v : Node σ, #[v].size = 1 := fun _ => rfl
  simp only [union?, Option.bind_eq_bind, Array.append_assoc, addExit?_zero, Option.bind_some,
    withExits_pair]
  rw [hn.addExits?_eq (hfirst _), Option.bind_some, ← Array.append_assoc, hm.addExits?_eq,
    Option.bind_some, ofList_singleton, ← Array.append_assoc]
  · rfl
  · rw [Array.size_append, size_embed]
    rfl

theorem WellFormed.concatenate?_eq (hn : n.WellFormed) (hm : m.WellFormed) :
    n.concatenate? m = some (n.concatenate m) := by
  have hfirst : ∀ right, n.addExits? 0 [m.start + n.states] (n.nodes.map (Node.shift 0) ++ right) =
      some (n.embed 0 (.ofList [m.start + n.states]) ++ right) := by
    intro right
    have hnone : (#[] : Array (Node σ)).size = 0 := rfl
    have h := hn.addExits?_eq hnone [m.start + n.states] right
    rwa [Array.empty_append, Array.empty_append] at h
  simp only [concatenate?, Option.bind_eq_bind, Array.append_assoc]
  rw [hfirst, Option.bind_some, hm.addExits?_eq (size_embed ..), Option.bind_some,
    ofList_singleton, ofList_singleton, ← Array.append_assoc]
  rfl

theorem WellFormed.star?_eq (hn : n.WellFormed) : n.star? = some n.star := by
  have hfirst : ∀ v : Node σ, #[v].size = 1 := fun _ => rfl
  simp only [star?, Option.bind_eq_bind, Array.append_assoc, addExit?_zero, Option.bind_some,
    withExits_pair]
  rw [hn.addExits?_eq (hfirst _), Option.bind_some, ← Array.append_assoc]
  rfl

end Nfa

end FiniteState
