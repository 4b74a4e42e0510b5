import FiniteState.Proofs.Nfa.Build
import FiniteState.Proofs.Strict.Lookup

/-!
# Reading a description in order

A description is looked through for faults as a whole before anything is made
of it. Here it is read once, number by number: a number that names a state is
checked when its turn comes, and what it says is added at once, a label before
the targets under it and one target after the other (`buildInOrder`). The first
number that fails ends the reading.

Both ways come to the same (`buildInOrder_eq`). Every reader adds something
unless a number fails, and this is kept along a list (`foldlM_unless`): the
numbers checked are those of all its members, one after the other. What is added
piece by piece adds up, as a label without targets adds the label
(`foldl_addTarget`).
-/

namespace FiniteState

variable {σ : Type} [Alphabet σ]

/-! ## Checked numbers -/

/-- A value, unless one of some numbers names no state: then the first such
number is the fault. -/
def unlessMissing {α : Type} (states : Nat) (named : List State) (x : α) : Except (Fault σ) α :=
  match named.find? (states ≤ ·) with
  | some q => .error (.stateOutOfRange q states)
  | none => .ok x

omit [Alphabet σ] in
/-- What is read after something else is checked after it. -/
theorem unlessMissing_bind {α β : Type} (states : Nat) (named more : List State) (x : α)
    (f : α → β) :
    (unlessMissing states named x >>= fun y => unlessMissing states more (f y)) =
      (unlessMissing states (named ++ more) (f x) : Except (Fault σ) β) := by
  unfold unlessMissing
  rw [List.find?_append]
  cases named.find? (states ≤ ·) <;> rfl

omit [Alphabet σ] in
theorem unlessMissing_pure {α β : Type} (states : Nat) (named : List State) (x : α) (f : α → β) :
    (unlessMissing states named x >>= fun y => pure (f y)) =
      (unlessMissing states named (f x) : Except (Fault σ) β) := by
  unfold unlessMissing
  cases named.find? (states ≤ ·) <;> rfl

omit [Alphabet σ] in
/-- Reading the members of a list one after the other reads the numbers of all
of them in that order. -/
theorem foldlM_unless {α β : Type} {states : Nat} {read : β → α → Except (Fault σ) β}
    {named : α → List State} {add : β → α → β}
    (h : ∀ b a, read b a = unlessMissing states (named a) (add b a)) (l : List α) (b : β) :
    l.foldlM read b = unlessMissing states (l.flatMap named) (l.foldl add b) := by
  induction l generalizing b with
  | nil => rfl
  | cons a l ih =>
      rw [List.foldlM_cons, h, List.flatMap_cons, List.foldl_cons]
      simp only [ih]
      exact unlessMissing_bind states (named a) (l.flatMap named) (add b a) (List.foldl add · l)

/-- One number that has to name a state. -/
def checkState (states : Nat) (q : State) : Except (Fault σ) Unit :=
  if q < states then .ok () else .error (.stateOutOfRange q states)

omit [Alphabet σ] in
theorem checkState_eq (states : Nat) (q : State) :
    (checkState states q : Except (Fault σ) Unit) = unlessMissing states [q] () := by
  unfold checkState unlessMissing
  by_cases hq : q < states
  · simp [hq]
  · simp [hq, Nat.le_of_not_lt hq]

namespace Nfa

/-! ## Readers -/

/-- Reads one accepting state. -/
def readFinal (states : Nat) (finals : StateSet) (q : State) : Except (Fault σ) StateSet := do
  checkState states q
  return finals.insert q

/-- Reads one target of an entry. -/
def readTarget (states : Nat) (origin : State) (label : Option σ) (nodes : Array (Node σ))
    (p : State) : Except (Fault σ) (Array (Node σ)) := do
  checkState states p
  return addEntry nodes ⟨origin, label, [p]⟩

/-- Reads one entry: its origin, its label, which is remembered from then on, and
its targets. -/
def readEntry (states : Nat) (nodes : Array (Node σ)) (e : Entry σ) :
    Except (Fault σ) (Array (Node σ)) := do
  checkState states e.origin
  e.targets.foldlM (readTarget states e.origin e.label) (addEntry nodes ⟨e.origin, e.label, []⟩)

/-- Makes an automaton while its description is read. -/
def buildInOrder (d : Description σ) : Except (Fault σ) (Nfa σ) :=
  if d.states = 0 then .error .noStates
  else if d.states ≤ d.start then .error (.startOutOfRange d.start d.states)
  else do
    let finals ← d.finals.foldlM (readFinal d.states) ∅
    let nodes ← d.entries.foldlM (readEntry d.states) (.replicate d.states {})
    return ⟨nodes, d.start, finals⟩

/-! ## What is added piece by piece -/

theorem Node.add_add (v : Node σ) (label : Option σ) (s t : List State) :
    (v.add label s).add label t = v.add label (s ++ t) := by
  refine Node.eq_of_same (SortedSet.ext fun p => ?_) (fun a => SortedSet.ext fun p => ?_)
    fun a => ?_
  · simp only [mem_epsilon_add, List.mem_append]
    tauto
  · simp only [mem_targets_add, List.mem_append]
    tauto
  · simp only [remembers_add]
    tauto

theorem addEntry_addEntry (nodes : Array (Node σ)) (origin : State) (label : Option σ)
    (s t : List State) : addEntry (addEntry nodes ⟨origin, label, s⟩) ⟨origin, label, t⟩ =
      addEntry nodes ⟨origin, label, s ++ t⟩ := by
  rw [addEntry, addEntry, modify_modify]
  exact congrArg _ (funext fun v => v.add_add label s t)

theorem foldl_addTarget (origin : State) (label : Option σ) (s t : List State)
    (nodes : Array (Node σ)) :
    t.foldl (fun nodes p => addEntry nodes ⟨origin, label, [p]⟩)
        (addEntry nodes ⟨origin, label, s⟩) =
      addEntry nodes ⟨origin, label, s ++ t⟩ := by
  induction t generalizing s with
  | nil => rw [List.foldl_nil, List.append_nil]
  | cons p t ih =>
      rw [List.foldl_cons, addEntry_addEntry, ih, List.append_assoc, List.singleton_append]

theorem foldl_insert_eq (l : List State) (s : StateSet) :
    l.foldl (fun s q => s.insert q) s = .ofList l ∪ s := by
  induction l generalizing s with
  | nil => exact SortedSet.ext fun q => by simp
  | cons p l ih =>
      rw [List.foldl_cons, ih]
      refine SortedSet.ext fun q => ?_
      simp only [SortedSet.mem_union, SortedSet.mem_ofList, SortedSet.mem_insert, List.mem_cons]
      tauto

/-! ## The whole description -/

omit [Alphabet σ] in
theorem readFinal_eq (states : Nat) (finals : StateSet) (q : State) :
    (readFinal states finals q : Except (Fault σ) StateSet) =
      unlessMissing states [q] (finals.insert q) := by
  rw [readFinal, checkState_eq]
  exact unlessMissing_pure states [q] () fun _ => finals.insert q

theorem readTarget_eq (states : Nat) (origin : State) (label : Option σ) (nodes : Array (Node σ))
    (p : State) : readTarget states origin label nodes p =
      unlessMissing states [p] (addEntry nodes ⟨origin, label, [p]⟩) := by
  rw [readTarget, checkState_eq]
  exact unlessMissing_pure states [p] () fun _ => addEntry nodes ⟨origin, label, [p]⟩

theorem readEntry_eq (states : Nat) (nodes : Array (Node σ)) (e : Entry σ) :
    readEntry states nodes e = unlessMissing states (e.origin :: e.targets) (addEntry nodes e) := by
  rw [readEntry, checkState_eq, foldlM_unless (readTarget_eq states e.origin e.label),
    foldl_addTarget, List.nil_append, List.flatMap_singleton']
  exact unlessMissing_bind states [e.origin] e.targets () fun _ => addEntry nodes e

/-- Reading in order finds the same fault, or makes the same automaton. -/
theorem buildInOrder_eq (d : Description σ) : buildInOrder d = build d := by
  unfold buildInOrder build Description.fault?
  split
  · rfl
  split
  · rfl
  have hfinals : d.finals.foldl (fun s q => s.insert q) ∅ = SortedSet.ofList d.finals := by
    rw [foldl_insert_eq]
    exact SortedSet.ext fun q => by simp
  have hnodes : ∀ finals : StateSet,
      (d.entries.foldlM (readEntry d.states) (.replicate d.states {}) >>= fun nodes =>
        pure ⟨nodes, d.start, finals⟩ : Except (Fault σ) (Nfa σ)) =
      unlessMissing d.states (d.entries.flatMap fun e => e.origin :: e.targets)
        ⟨d.entries.foldl addEntry (.replicate d.states {}), d.start, finals⟩ := by
    intro finals
    rw [foldlM_unless (readEntry_eq d.states)]
    exact unlessMissing_pure _ _ _ fun nodes => (⟨nodes, d.start, finals⟩ : Nfa σ)
  simp only [hnodes]
  rw [foldlM_unless (readFinal_eq d.states), List.flatMap_singleton', hfinals,
    unlessMissing_bind d.states d.finals _ _ fun finals =>
      (⟨d.entries.foldl addEntry (.replicate d.states {}), d.start, finals⟩ : Nfa σ)]
  unfold unlessMissing Description.named
  cases List.find? _ _ <;> rfl

end Nfa

end FiniteState
