import FiniteState.Nfa.Combine
import FiniteState.Proofs.Nfa.Path

/-!
# Combined automata

What the regular operations have in common: each operand stands in the
combination with its numbering shifted, and its accepting states have
exits besides (`Embedded`). All that is proved of a combination comes from
this relation and from the two fresh states, and not from the layout of
the nodes. A path of the operand is one of the combination
(`Embedded.path`); so if an operand can accept from a state, and the
combination from an exit, then so can the combination from that state
(`Embedded.canAccept`).

The automata that are made by these operations alone are `Composed`. They
name no state but their own and can accept from each, so they are trim
(`Composed.trim`).
-/

namespace FiniteState

namespace Nfa

variable {σ : Type} [Alphabet σ] {n m c : Nfa σ} {q p : State} {a : σ} {w : List σ}
  {offset bound : Nat} {exits : StateSet}

/-! ## Well-formed automata -/

/-- All states that a node names are below a bound. -/
def Node.Below (bound : Nat) (v : Node σ) : Prop :=
  (∀ p : Nat, p ∈ v.epsilon → p < bound) ∧ ∀ (a : σ) (p : Nat), p ∈ v.targets a → p < bound

theorem Node.below_iff {v : Node σ} : v.Below bound ↔
    (∀ p ∈ v.epsilon.toList, p < bound) ∧ ∀ s ∈ v.moves.values, ∀ p ∈ s.toList, p < bound := by
  refine and_congr_right fun _ => ⟨fun h s hs p hp => ?_, fun h a p hp => ?_⟩
  · obtain ⟨a, ha⟩ := SortedMap.mem_values.mp hs
    refine h a p ?_
    rw [targets, ha]
    exact hp
  · unfold targets at hp
    cases hs : v.moves.get? a with
    | none =>
        rw [hs] at hp
        exact absurd hp SortedSet.not_mem_empty
    | some s =>
        rw [hs] at hp
        exact h s (SortedMap.mem_values.mpr ⟨a, hs⟩) p hp

instance (bound : Nat) (v : Node σ) : Decidable (v.Below bound) :=
  decidable_of_iff _ Node.below_iff.symm

/-- All states that the automaton names are its own. -/
structure WellFormed (n : Nfa σ) : Prop where
  start_lt : n.start < n.states
  finals_lt : ∀ q, q ∈ n.finals → q < n.states
  nodes_below : ∀ v ∈ n.nodes, v.Below n.states

theorem wellFormed_iff : n.WellFormed ↔ n.start < n.states ∧ (∀ q ∈ n.finals.toList, q < n.states) ∧
    ∀ v ∈ n.nodes.toList, v.Below n.states := by
  simp only [Array.mem_toList_iff]
  exact ⟨fun ⟨hstart, hfinals, hnodes⟩ => ⟨hstart, hfinals, hnodes⟩,
    fun ⟨hstart, hfinals, hnodes⟩ => ⟨hstart, hfinals, hnodes⟩⟩

instance (n : Nfa σ) : Decidable n.WellFormed := decidable_of_iff _ wellFormed_iff.symm

theorem Node.below_default (bound : Nat) : (default : Node σ).Below bound :=
  ⟨fun _ h => absurd h SortedSet.not_mem_empty, fun _ _ h => absurd h SortedSet.not_mem_empty⟩

theorem WellFormed.node_below (hn : n.WellFormed) (q : State) : (n.node q).Below n.states := by
  rcases n.node_mem_or_eq q with hq | hq
  · exact hn.nodes_below _ hq
  · rw [hq]
    exact Node.below_default _

theorem WellFormed.path_lt (hn : n.WellFormed) (hq : q < n.states) (h : n.Path q w p) :
    p < n.states := by
  cases h with
  | refl => exact hq
  | silent _ hr => exact (hn.node_below _).1 _ hr
  | move _ hr => exact (hn.node_below _).2 _ _ hr

/-! ## Shifted nodes -/

namespace Node

variable {v : Node σ}

theorem mem_epsilon_shift :
    p ∈ (v.shift offset).epsilon ↔ ∃ r, r ∈ v.epsilon ∧ r + offset = p := SortedSet.mem_image

theorem mem_targets_shift :
    p ∈ (v.shift offset).targets a ↔ ∃ r, r ∈ v.targets a ∧ r + offset = p := by
  rw [targets, shift, SortedMap.get?_map, targets]
  cases v.moves.get? a with
  | none => simp
  | some s => exact SortedSet.mem_image

theorem mem_epsilon_withExits : p ∈ (v.withExits exits).epsilon ↔ p ∈ exits ∨ p ∈ v.epsilon :=
  SortedSet.mem_union

theorem Below.shift (h : v.Below bound) (offset : Nat) :
    (v.shift offset).Below (bound + offset) := by
  constructor
  · intro p hp
    obtain ⟨r, hr, rfl⟩ := mem_epsilon_shift.mp hp
    exact Nat.add_lt_add_right (h.1 r hr) offset
  · intro a p hp
    obtain ⟨r, hr, rfl⟩ := mem_targets_shift.mp hp
    exact Nat.add_lt_add_right (h.2 a r hr) offset

theorem Below.mono {larger : Nat} (h : v.Below bound) (hle : bound ≤ larger) : v.Below larger :=
  ⟨fun p hp => Nat.lt_of_lt_of_le (h.1 p hp) hle, fun a p hp => Nat.lt_of_lt_of_le (h.2 a p hp) hle⟩

theorem Below.withExits (h : v.Below bound) (hexits : ∀ p, p ∈ exits → p < bound) :
    (v.withExits exits).Below bound := by
  refine ⟨fun p hp => ?_, h.2⟩
  rcases mem_epsilon_withExits.mp hp with hp | hp
  · exact hexits p hp
  · exact h.1 p hp

end Node

/-! ## Operands -/

theorem size_embed (n : Nfa σ) (offset : Nat) (exits : StateSet) :
    (n.embed offset exits).size = n.states := Array.size_mapIdx

theorem getElem?_embed (offset : Nat) (exits : StateSet) (hq : q < n.states) :
    (n.embed offset exits)[q]? =
    some (if q ∈ n.finals then ((n.node q).shift offset).withExits exits
      else (n.node q).shift offset) := by
  have hnode : n.nodes[q]? = some (n.node q) := by
    rw [Array.getElem?_eq_getElem hq, getElem_nodes hq]
  rw [embed, Array.getElem?_mapIdx, hnode, Option.map_some, StateSet.getD_flags n.finals hq]
  simp

theorem exists_of_mem_embed {v : Node σ} (hv : v ∈ n.embed offset exits) :
    ∃ q, v = (n.node q).shift offset ∨ v = ((n.node q).shift offset).withExits exits := by
  obtain ⟨q, hq, rfl⟩ := Array.mem_iff_getElem.mp hv
  rw [size_embed] at hq
  have hget := getElem?_embed offset exits hq
  rw [Array.getElem?_eq_getElem (by rwa [size_embed])] at hget
  refine ⟨q, ?_⟩
  rw [Option.some.inj hget]
  split
  · exact .inr rfl
  · exact .inl rfl

theorem below_of_mem_embed (hn : n.WellFormed) (hle : n.states + offset ≤ bound)
    (hexits : ∀ p, p ∈ exits → p < bound) {v : Node σ} (hv : v ∈ n.embed offset exits) :
    v.Below bound := by
  obtain ⟨q, rfl | rfl⟩ := exists_of_mem_embed hv
  · exact ((hn.node_below q).shift offset).mono hle
  · exact (((hn.node_below q).shift offset).mono hle).withExits hexits

/-- An operand stands in a combination, its states shifted, with exits from
its accepting states. -/
structure Embedded (n c : Nfa σ) (offset : Nat) (exits : StateSet) : Prop where
  mem_epsilon_iff : ∀ q p, q < n.states → (p ∈ (c.node (q + offset)).epsilon ↔
    (∃ r, r ∈ (n.node q).epsilon ∧ r + offset = p) ∨ q ∈ n.finals ∧ p ∈ exits)
  mem_targets_iff : ∀ q a p, q < n.states → (p ∈ (c.node (q + offset)).targets a ↔
    ∃ r, r ∈ (n.node q).targets a ∧ r + offset = p)

namespace Embedded

/-- An operand whose nodes are among those of a combination is embedded. -/
theorem of_nodes (left right : Array (Node σ))
    (hnodes : c.nodes = left ++ n.embed offset exits ++ right) (hsize : left.size = offset) :
    Embedded n c offset exits := by
  have hnode : ∀ q, q < n.states → c.node (q + offset) =
      if q ∈ n.finals then ((n.node q).shift offset).withExits exits
      else (n.node q).shift offset := by
    intro q hq
    have hlt : q + offset < (left ++ n.embed offset exits).size := by
      rw [Array.size_append, size_embed]
      omega
    rw [node, Array.getD_eq_getD_getElem?, hnodes, Array.getElem?_append_left hlt,
      Array.getElem?_append_right (by omega), hsize, Nat.add_sub_cancel,
      getElem?_embed _ _ hq]
    rfl
  constructor
  · intro q p hq
    rw [hnode q hq]
    split
    · rw [Node.mem_epsilon_withExits, Node.mem_epsilon_shift]
      simp [*, or_comm]
    · rw [Node.mem_epsilon_shift]
      simp [*]
  · intro q a p hq
    rw [hnode q hq]
    split
    · exact Node.mem_targets_shift
    · exact Node.mem_targets_shift

/-- A path of the operand is one of the combination. -/
theorem path (h : Embedded n c offset exits) (hn : n.WellFormed) (hq : q < n.states)
    (hpath : n.Path q w p) : c.Path (q + offset) w (p + offset) := by
  induction hpath with
  | refl => exact .refl
  | silent hp hr ih =>
      exact ih.silent ((h.mem_epsilon_iff _ _ (hn.path_lt hq hp)).mpr (.inl ⟨_, hr, rfl⟩))
  | move hp hr ih =>
      exact ih.move ((h.mem_targets_iff _ _ _ (hn.path_lt hq hp)).mpr ⟨_, hr, rfl⟩)

/-- Where the operand can accept, and the combination can from an exit, the
combination can accept. -/
theorem canAccept (h : Embedded n c offset exits) (hn : n.WellFormed) (hq : q < n.states)
    (haccept : n.CanAccept q) (hp : p ∈ exits) (hexit : c.CanAccept p) :
    c.CanAccept (q + offset) := by
  obtain ⟨w, f, hpath, hf⟩ := haccept
  have hstep := (h.mem_epsilon_iff f p (hn.path_lt hq hpath)).mpr (.inr ⟨hf, hp⟩)
  exact hexit.of_path ((h.path hn hq hpath).silent hstep)

end Embedded

/-! ## Automata that can accept from everywhere -/

/-- A well-formed automaton that can accept from each of its states. -/
structure Productive (n : Nfa σ) : Prop extends n.WellFormed where
  canAccept : ∀ q, q < n.states → n.CanAccept q

theorem Productive.trim (hn : n.Productive) : n.Trim := fun _ q hq =>
  hn.canAccept q (hn.path_lt hn.start_lt hq)

theorem canAccept_of_mem_finals (hq : q ∈ n.finals) : n.CanAccept q := ⟨[], q, .refl, hq⟩

/-- An operand that can accept from each state lets the combination do so
from all states where the operand stands, given an exit. -/
theorem Embedded.canAccept_of_le (h : Embedded n c offset exits) (hn : n.Productive)
    (hp : p ∈ exits) (hexit : c.CanAccept p) {q : Nat} (hle : offset ≤ q)
    (hlt : q < offset + n.states) : c.CanAccept q := by
  obtain ⟨r, rfl⟩ := Nat.exists_eq_add_of_le' hle
  have hr : r < n.states := by omega
  exact h.canAccept hn.toWellFormed hr (hn.canAccept r hr) hp hexit

/-! ## One move -/

theorem Node.mem_epsilon_add {v : Node σ} {label : Option σ} {l : List State} :
    p ∈ (v.add label l).epsilon ↔ Alphabet.visible? label = none ∧ p ∈ l ∨ p ∈ v.epsilon := by
  unfold add
  cases Alphabet.visible? label with
  | none => simp
  | some a => simp

theorem Node.mem_targets_add {v : Node σ} {label : Option σ} {l : List State} :
    p ∈ (v.add label l).targets a ↔
      Alphabet.visible? label = some a ∧ p ∈ l ∨ p ∈ v.targets a := by
  unfold add targets
  cases Alphabet.visible? label with
  | none => simp
  | some b =>
      by_cases hab : a = b
      · subst hab
        rw [SortedMap.get?_alter_self]
        simp
      · rw [SortedMap.get?_alter_of_ne hab]
        simp [Ne.symm hab]

theorem node_zero_oneMove (label : Option σ) : (oneMove label).node 0 = Node.add {} label [1] :=
  rfl

theorem productive_oneMove (label : Option σ) : (oneMove label).Productive := by
  have hlast : (oneMove label).CanAccept 1 :=
    canAccept_of_mem_finals (SortedSet.mem_singleton.mpr rfl)
  refine ⟨⟨Nat.two_pos, fun q hq => ?_, fun v hv => ?_⟩, fun (q : Nat) (hq : q < 2) => ?_⟩
  · rw [SortedSet.mem_singleton.mp hq]
    exact Nat.one_lt_two
  · have hv : v = Node.add {} label [1] ∨ v = {} := by simpa [oneMove] using hv
    rcases hv with rfl | rfl
    · constructor
      · intro p hp
        rcases Node.mem_epsilon_add.mp hp with ⟨_, hp⟩ | hp
        · rw [List.mem_singleton.mp hp]
          exact Nat.one_lt_two
        · exact absurd hp SortedSet.not_mem_empty
      · intro a p hp
        rcases Node.mem_targets_add.mp hp with ⟨_, hp⟩ | hp
        · rw [List.mem_singleton.mp hp]
          exact Nat.one_lt_two
        · exact absurd hp SortedSet.not_mem_empty
    · exact Node.below_default 2
  · rcases Nat.lt_or_ge q 1 with hfirst | hsecond
    · rw [Nat.lt_one_iff.mp hfirst]
      cases hlabel : Alphabet.visible? label with
      | none =>
          refine hlast.of_path (Path.refl.silent ?_)
          rw [node_zero_oneMove]
          exact Node.mem_epsilon_add.mpr (.inl ⟨hlabel, List.mem_singleton.mpr rfl⟩)
      | some a =>
          refine hlast.of_path (Path.refl.move (a := a) ?_)
          rw [node_zero_oneMove]
          exact Node.mem_targets_add.mpr (.inl ⟨hlabel, List.mem_singleton.mpr rfl⟩)
    · rw [show q = 1 by omega]
      exact hlast

/-! ## Fresh states -/

theorem Node.below_silent {s : StateSet} (h : ∀ p : Nat, p ∈ s → p < bound) :
    ({ epsilon := s } : Node σ).Below bound :=
  ⟨h, fun _ _ hp => absurd hp SortedSet.not_mem_empty⟩

theorem node_zero {v : Node σ} {rest : Array (Node σ)} (h : c.nodes = #[v] ++ rest) :
    c.node 0 = v := by
  rw [node, Array.getD_eq_getD_getElem?, h, Array.getElem?_append_left Nat.one_pos]
  rfl

theorem node_last {left : Array (Node σ)} {v : Node σ} (h : c.nodes = left ++ #[v])
    (hq : left.size = q) : c.node q = v := by
  rw [node, Array.getD_eq_getD_getElem?, h, ← hq, Array.getElem?_append_right (Nat.le_refl _),
    Nat.sub_self]
  rfl

theorem lt_of_mem_singleton {p : Nat} (h : p ∈ SortedSet.singleton bound) : p < bound + 1 := by
  rw [SortedSet.mem_singleton.mp h]
  exact Nat.lt_succ_self bound

/-! ## Union -/

theorem states_union (n m : Nfa σ) : (n.union m).states = 1 + n.states + m.states + 1 := by
  show (_ ++ _ ++ _ ++ _ : Array (Node σ)).size = _
  rw [Array.size_append, Array.size_append, Array.size_append, size_embed, size_embed]
  rfl

theorem embedded_union_left (n m : Nfa σ) :
    Embedded n (n.union m) 1 (.singleton (1 + n.states + m.states)) :=
  .of_nodes _ _ (Array.append_assoc ..) rfl

theorem embedded_union_right (n m : Nfa σ) :
    Embedded m (n.union m) (1 + n.states) (.singleton (1 + n.states + m.states)) := by
  refine .of_nodes (#[_] ++ n.embed _ _) #[default] rfl ?_
  rw [Array.size_append, size_embed]
  rfl

theorem node_zero_union (n m : Nfa σ) : (n.union m).node 0 =
    { epsilon := .ofList [n.start + 1, m.start + (1 + n.states)] } :=
  node_zero ((Array.append_assoc ..).trans (Array.append_assoc ..))

theorem node_last_union (n m : Nfa σ) : (n.union m).node (1 + n.states + m.states) = {} := by
  refine node_last rfl ?_
  rw [Array.size_append, Array.size_append, size_embed, size_embed]
  rfl

theorem start_mem_epsilon_union (n m : Nfa σ) : n.start + 1 ∈ ((n.union m).node 0).epsilon := by
  rw [node_zero_union]
  exact SortedSet.mem_ofList.mpr List.mem_cons_self

theorem mem_nodes_union {v : Node σ} : v ∈ (n.union m).nodes ↔
    v = { epsilon := .ofList [n.start + 1, m.start + (1 + n.states)] } ∨
      v ∈ n.embed 1 (.singleton (1 + n.states + m.states)) ∨
      v ∈ m.embed (1 + n.states) (.singleton (1 + n.states + m.states)) ∨ v = {} := by
  simp [Nfa.union]

theorem WellFormed.union (hn : n.WellFormed) (hm : m.WellFormed) : (n.union m).WellFormed := by
  constructor
  · rw [states_union]
    exact Nat.succ_pos _
  · rw [states_union]
    exact fun _ => lt_of_mem_singleton
  · rw [states_union]
    intro v hv
    rcases mem_nodes_union.mp hv with rfl | hv | hv | rfl
    · refine Node.below_silent fun p hp => ?_
      have hp : p = n.start + 1 ∨ p = m.start + (1 + n.states) := by simpa using hp
      rcases hp with rfl | rfl
      · exact Nat.lt_of_lt_of_le (Nat.add_lt_add_right hn.start_lt 1) (by omega)
      · exact Nat.lt_of_lt_of_le (Nat.add_lt_add_right hm.start_lt _) (by omega)
    · exact below_of_mem_embed hn (by omega) (fun _ => lt_of_mem_singleton) hv
    · exact below_of_mem_embed hm (by omega) (fun _ => lt_of_mem_singleton) hv
    · exact Node.below_default _

theorem Productive.union (hn : n.Productive) (hm : m.Productive) : (n.union m).Productive := by
  have hlast : (n.union m).CanAccept (1 + n.states + m.states) :=
    canAccept_of_mem_finals (SortedSet.mem_singleton.mpr rfl)
  refine ⟨hn.toWellFormed.union hm.toWellFormed, fun (q : Nat) hq => ?_⟩
  rw [states_union] at hq
  by_cases hfirst : q = 0
  · have hstart := (embedded_union_left n m).canAccept hn.toWellFormed hn.start_lt
      (hn.canAccept _ hn.start_lt) (SortedSet.mem_singleton.mpr rfl) hlast
    rw [hfirst]
    exact hstart.of_path (Path.refl.silent (start_mem_epsilon_union n m))
  · by_cases hleft : q < 1 + n.states
    · exact (embedded_union_left n m).canAccept_of_le hn (SortedSet.mem_singleton.mpr rfl) hlast
        (by omega) hleft
    · by_cases hright : q < 1 + n.states + m.states
      · exact (embedded_union_right n m).canAccept_of_le hm (SortedSet.mem_singleton.mpr rfl) hlast
          (by omega) hright
      · rw [show q = 1 + n.states + m.states by omega]
        exact hlast

/-! ## Concatenation -/

theorem states_concatenate (n m : Nfa σ) :
    (n.concatenate m).states = n.states + m.states + 1 := by
  show (_ ++ _ ++ _ : Array (Node σ)).size = _
  rw [Array.size_append, Array.size_append, size_embed, size_embed]
  rfl

theorem embedded_concatenate_left (n m : Nfa σ) :
    Embedded n (n.concatenate m) 0 (.singleton (m.start + n.states)) := by
  refine .of_nodes #[] (m.embed n.states (.singleton (n.states + m.states)) ++ #[default]) ?_ rfl
  rw [Array.empty_append]
  exact Array.append_assoc ..

theorem embedded_concatenate_right (n m : Nfa σ) :
    Embedded m (n.concatenate m) n.states (.singleton (n.states + m.states)) :=
  .of_nodes _ #[default] rfl (size_embed ..)

theorem node_last_concatenate (n m : Nfa σ) :
    (n.concatenate m).node (n.states + m.states) = {} := by
  refine node_last rfl ?_
  rw [Array.size_append, size_embed, size_embed]

theorem mem_nodes_concatenate {v : Node σ} : v ∈ (n.concatenate m).nodes ↔
    v ∈ n.embed 0 (.singleton (m.start + n.states)) ∨
      v ∈ m.embed n.states (.singleton (n.states + m.states)) ∨ v = {} := by
  simp [Nfa.concatenate]

theorem WellFormed.concatenate (hn : n.WellFormed) (hm : m.WellFormed) :
    (n.concatenate m).WellFormed := by
  constructor
  · rw [states_concatenate]
    exact Nat.lt_of_lt_of_le hn.start_lt (by omega)
  · rw [states_concatenate]
    exact fun _ => lt_of_mem_singleton
  · rw [states_concatenate]
    intro v hv
    rcases mem_nodes_concatenate.mp hv with hv | hv | rfl
    · refine below_of_mem_embed hn (by omega) (fun p hp => ?_) hv
      rw [SortedSet.mem_singleton.mp hp]
      exact Nat.lt_of_lt_of_le (Nat.add_lt_add_right hm.start_lt _) (by omega)
    · exact below_of_mem_embed hm (by omega) (fun _ => lt_of_mem_singleton) hv
    · exact Node.below_default _

theorem Productive.concatenate (hn : n.Productive) (hm : m.Productive) :
    (n.concatenate m).Productive := by
  have hlast : (n.concatenate m).CanAccept (n.states + m.states) :=
    canAccept_of_mem_finals (SortedSet.mem_singleton.mpr rfl)
  have hstart := (embedded_concatenate_right n m).canAccept hm.toWellFormed hm.start_lt
    (hm.canAccept _ hm.start_lt) (SortedSet.mem_singleton.mpr rfl) hlast
  refine ⟨hn.toWellFormed.concatenate hm.toWellFormed, fun (q : Nat) hq => ?_⟩
  rw [states_concatenate] at hq
  by_cases hleft : q < n.states
  · exact (embedded_concatenate_left n m).canAccept_of_le hn (SortedSet.mem_singleton.mpr rfl)
      hstart (Nat.zero_le q) (by omega)
  · by_cases hright : q < n.states + m.states
    · exact (embedded_concatenate_right n m).canAccept_of_le hm (SortedSet.mem_singleton.mpr rfl)
        hlast (by omega) hright
    · rw [show q = n.states + m.states by omega]
      exact hlast

/-! ## Repetition -/

theorem states_star (n : Nfa σ) : n.star.states = 1 + n.states + 1 := by
  show (_ ++ _ ++ _ : Array (Node σ)).size = _
  rw [Array.size_append, Array.size_append, size_embed]
  rfl

theorem embedded_star (n : Nfa σ) :
    Embedded n n.star 1 (.ofList [n.start + 1, 1 + n.states]) :=
  .of_nodes _ #[default] rfl rfl

theorem node_zero_star (n : Nfa σ) :
    n.star.node 0 = { epsilon := .ofList [n.start + 1, 1 + n.states] } :=
  node_zero (Array.append_assoc ..)

theorem node_last_star (n : Nfa σ) : n.star.node (1 + n.states) = {} := by
  refine node_last rfl ?_
  rw [Array.size_append, size_embed]
  rfl

theorem last_mem_epsilon_star (n : Nfa σ) : 1 + n.states ∈ (n.star.node 0).epsilon := by
  rw [node_zero_star]
  exact SortedSet.mem_ofList.mpr (List.mem_cons_of_mem _ List.mem_cons_self)

theorem mem_nodes_star {v : Node σ} : v ∈ n.star.nodes ↔
    v = { epsilon := .ofList [n.start + 1, 1 + n.states] } ∨
      v ∈ n.embed 1 (.ofList [n.start + 1, 1 + n.states]) ∨ v = {} := by
  simp [Nfa.star]

theorem WellFormed.star (hn : n.WellFormed) : n.star.WellFormed := by
  have honward : ∀ p : Nat, p ∈ SortedSet.ofList [n.start + 1, 1 + n.states] →
      p < 1 + n.states + 1 := by
    intro p hp
    have hp : p = n.start + 1 ∨ p = 1 + n.states := by simpa using hp
    rcases hp with rfl | rfl
    · exact Nat.lt_of_lt_of_le (Nat.add_lt_add_right hn.start_lt 1) (by omega)
    · exact Nat.lt_succ_self _
  constructor
  · rw [states_star]
    exact Nat.succ_pos _
  · rw [states_star]
    exact fun _ => lt_of_mem_singleton
  · rw [states_star]
    intro v hv
    rcases mem_nodes_star.mp hv with rfl | hv | rfl
    · exact Node.below_silent honward
    · exact below_of_mem_embed hn (by omega) honward hv
    · exact Node.below_default _

theorem Productive.star (hn : n.Productive) : n.star.Productive := by
  have hlast : n.star.CanAccept (1 + n.states) :=
    canAccept_of_mem_finals (SortedSet.mem_singleton.mpr rfl)
  have hexit : 1 + n.states ∈ SortedSet.ofList [n.start + 1, 1 + n.states] :=
    SortedSet.mem_ofList.mpr (List.mem_cons_of_mem _ List.mem_cons_self)
  refine ⟨hn.toWellFormed.star, fun (q : Nat) hq => ?_⟩
  rw [states_star] at hq
  by_cases hfirst : q = 0
  · rw [hfirst]
    exact hlast.of_path (Path.refl.silent (last_mem_epsilon_star n))
  · by_cases hinside : q < 1 + n.states
    · exact (embedded_star n).canAccept_of_le hn hexit hlast (by omega) hinside
    · rw [show q = 1 + n.states by omega]
      exact hlast

/-! ## Automata made by the operations -/

/-- Made by the regular operations alone. -/
inductive Composed : Nfa σ → Prop where
  | symbol (a : σ) : Composed (symbol a)
  | emptyWord : Composed emptyWord
  | union {n m : Nfa σ} : Composed n → Composed m → Composed (n.union m)
  | concatenate {n m : Nfa σ} : Composed n → Composed m → Composed (n.concatenate m)
  | star {n : Nfa σ} : Composed n → Composed n.star

theorem Composed.productive (h : n.Composed) : n.Productive := by
  induction h with
  | symbol a => exact productive_oneMove (some a)
  | emptyWord => exact productive_oneMove none
  | union _ _ hn hm => exact hn.union hm
  | concatenate _ _ hn hm => exact hn.concatenate hm
  | star _ hn => exact hn.star

/-- Wherever an automaton made by the operations can be, it can still
accept. -/
theorem Composed.trim (h : n.Composed) : n.Trim := h.productive.trim

end Nfa

end FiniteState
