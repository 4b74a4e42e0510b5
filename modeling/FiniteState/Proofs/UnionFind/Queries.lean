import FiniteState.Proofs.UnionFind.History

/-!
# Queries leave no trace

A query shortens paths, so a run with queries and the same run without them
go through different forests. That no later answer tells of this is a
simulation. Partitions are `Twins` if both are sound and differ in nothing
but the paths to the roots; an operation is in `Lockstep` if on twins it
answers the same, or fails in the same way, and leaves twins behind. Being in
lockstep passes through the sequencing of operations (`Lockstep.bind`), so
that only the single steps have to be looked at: looking up a root, and
joining two classes, where the choice of the root that stays depends on the
sizes of the classes and on nothing else (`Twins.link`).

All calls are in lockstep (`lockstep_call`), and a query leaves a twin of what
it found (`quiet_of_isQuery`). By induction on the run, taking queries out of
it takes their answers out of the answers (`Twins.responses`).
-/

namespace FiniteState

namespace UnionFind

variable {u v w : UnionFind} {x y z r s n : Nat} {α β : Type}

/-! ## Twins -/

/-- Sound partitions that differ in nothing but the paths to the roots. -/
structure Twins (u v : UnionFind) : Prop where
  left : u.Sound
  right : v.Sound
  same : u.SameRoots v

namespace Twins

theorem refl (h : u.Sound) : Twins u u := ⟨h, h, .refl u⟩

theorem trans (h : Twins u v) (h' : Twins v w) : Twins u w :=
  ⟨h.left, h'.right, h.same.trans h'.same⟩

theorem symm (h : Twins u v) : Twins v u :=
  ⟨h.right, h.left, h.same.elements_eq.symm, h.same.size_eq.symm, h.same.classes_eq.symm,
    fun x => (h.same.root_eq x).symm⟩

/-- What leaves twins of both behind leaves twins. -/
theorem of_twins {u' v' : UnionFind} (h : Twins u v) (hu : Twins u' u) (hv : Twins v' v) :
    Twins u' v' :=
  hu.trans (h.trans hv.symm)

end Twins

theorem Sound.twins_find (h : u.Sound) (x : Nat) : Twins (u.find x).2 u :=
  ⟨(h.find x).1, h, (h.find x).2⟩

theorem Hung.root_eq_root (h : w.Hung u r s) {w' : UnionFind} (h' : w'.Hung v r s)
    (hroot : ∀ z, u.root z = v.root z) (z : Nat) : w.root z = w'.root z := by
  rw [h.root_eq, h'.root_eq, hroot]

/-- Which of two roots stays a root, and the size that it gets, is decided by
the sizes of the roots. -/
theorem size_link_congr (h : u.size = v.size) (r s : Nat) :
    (u.link r s).size = (v.link r s).size := by
  unfold link
  rw [h]
  split <;> simp only [hang, h]

theorem classes_link (u : UnionFind) (r s : Nat) : (u.link r s).classes = u.classes - 1 := by
  unfold link
  split <;> rfl

theorem elements_link (u : UnionFind) (r s : Nat) : (u.link r s).elements = u.elements := by
  unfold link
  split <;> exact elements_hang ..

theorem Twins.link (h : Twins u v) (hr : u.IsRoot r) (hs : u.IsRoot s) (hrn : r < u.elements)
    (hsn : s < u.elements) (hne : r ≠ s) : Twins (u.link r s) (v.link r s) := by
  have hroot : ∀ {t}, u.IsRoot t → v.IsRoot t := fun ht =>
    h.symm.same.isRoot h.right (root_of_isRoot ht)
  obtain ⟨hsound, hhung⟩ := h.left.link hr hs hrn hsn hne
  obtain ⟨hsound', hhung'⟩ := h.right.link (hroot hr) (hroot hs) (h.same.elements_eq ▸ hrn)
    (h.same.elements_eq ▸ hsn) hne
  refine ⟨hsound, hsound', ?_, size_link_congr h.same.size_eq r s, ?_, fun z => ?_⟩
  · rw [elements_link, elements_link, h.same.elements_eq]
  · rw [classes_link, classes_link, h.same.classes_eq]
  · rw [h.same.size_eq] at hhung
    split at hhung
    · next hlt =>
      rw [if_pos hlt] at hhung'
      exact hhung.root_eq_root hhung' h.same.root_eq z
    · next hle =>
      rw [if_neg hle] at hhung'
      exact hhung.root_eq_root hhung' h.same.root_eq z

theorem Twins.unite (h : Twins u v) (hx : x < u.elements) (hy : y < u.elements) :
    (u.unite x y).1 = (v.unite x y).1 ∧ Twins (u.unite x y).2 (v.unite x y).2 := by
  obtain ⟨hp, hps, hu⟩ := h.left.unite_eq x y
  obtain ⟨hq, hqs, hv⟩ := h.right.unite_eq x y
  generalize ((u.find x).2.find y).2 = p at hp hps hu
  generalize ((v.find x).2.find y).2 = q at hq hqs hv
  have htwins : Twins p q := h.of_twins ⟨hp, h.left, hps⟩ ⟨hq, h.right, hqs⟩
  rw [hu, hv, ← h.same.root_eq, ← h.same.root_eq]
  by_cases hxy : u.root x = u.root y
  · rw [if_pos hxy, if_pos hxy]
    exact ⟨rfl, htwins⟩
  · have hroot : ∀ z, p.IsRoot (u.root z) := fun z => hps.isRoot hp (h.left.root_root z)
    have hlt : ∀ {z}, z < u.elements → u.root z < p.elements := fun hz =>
      hps.elements_eq ▸ h.left.root_lt hz
    rw [if_neg hxy, if_neg hxy]
    exact ⟨rfl, htwins.link (hroot x) (hroot y) (hlt hx) (hlt hy) hxy⟩

/-! ## Operations in lockstep -/

/-- On twins the operation answers the same, or fails in the same way, and
leaves twins. -/
def Lockstep (m : Operation α) : Prop :=
  ∀ u v, Twins u v → (m.on u).1 = (m.on v).1 ∧ Twins (m.on u).2 (m.on v).2

/-- The operation leaves a twin of what it found. -/
def Quiet (m : Operation α) : Prop := ∀ u : UnionFind, u.Sound → Twins (m.on u).2 u

open Operation

theorem lockstep_pure (a : α) : Lockstep (pure a) := fun _ _ h => ⟨rfl, h⟩

theorem quiet_pure (a : α) : Quiet (pure a) := fun _ h => .refl h

theorem Lockstep.bind {m : Operation α} {f : α → Operation β} (hm : Lockstep m)
    (hf : ∀ a, Lockstep (f a)) : Lockstep (m >>= f) := by
  intro u v h
  obtain ⟨hanswer, htwins⟩ := hm u v h
  cases hu : m.on u with
  | mk result u' =>
      cases hv : m.on v with
      | mk result' v' =>
          rw [hu, hv] at hanswer htwins
          obtain rfl : result = result' := hanswer
          cases result with
          | ok a =>
              rw [on_bind_of_ok hu, on_bind_of_ok hv]
              exact hf a u' v' htwins
          | error e =>
              rw [on_bind_of_error hu, on_bind_of_error hv]
              exact ⟨rfl, htwins⟩

theorem Quiet.bind {m : Operation α} {f : α → Operation β} (hm : Quiet m)
    (hf : ∀ a, Quiet (f a)) : Quiet (m >>= f) := by
  intro u h
  have htwins := hm u h
  cases hu : m.on u with
  | mk result v =>
      rw [hu] at htwins
      cases result with
      | ok a =>
          rw [on_bind_of_ok hu]
          exact (hf a v htwins.left).trans htwins
      | error e =>
          rw [on_bind_of_error hu]
          exact htwins

theorem quiet_tryFind (x : Nat) : Quiet (tryFind x) := by
  intro u h
  by_cases hx : x < u.elements
  · rw [on_tryFind_of_lt hx]
    exact h.twins_find x
  · rw [on_tryFind_of_le (Nat.le_of_not_lt hx)]
    exact .refl h

theorem lockstep_tryFind (x : Nat) : Lockstep (tryFind x) := by
  intro u v h
  refine ⟨?_, h.of_twins (quiet_tryFind x u h.left) (quiet_tryFind x v h.right)⟩
  by_cases hx : x < u.elements
  · rw [on_tryFind_of_lt hx, on_tryFind_of_lt (h.same.elements_eq ▸ hx), h.same.root_eq]
  · have hx := Nat.le_of_not_lt hx
    rw [on_tryFind_of_le hx, on_tryFind_of_le (h.same.elements_eq ▸ hx), h.same.elements_eq]

theorem quiet_trySameClass (x y : Nat) : Quiet (trySameClass x y) :=
  (quiet_tryFind x).bind fun _ => (quiet_tryFind y).bind fun _ => quiet_pure _

theorem lockstep_trySameClass (x y : Nat) : Lockstep (trySameClass x y) :=
  (lockstep_tryFind x).bind fun _ => (lockstep_tryFind y).bind fun _ => lockstep_pure _

theorem lockstep_tryUnion (x y : Nat) : Lockstep (tryUnion x y) := by
  intro u v h
  have helements := h.same.elements_eq
  cases hz : [x, y].find? (u.elements ≤ ·) with
  | none =>
      obtain ⟨hx, hy⟩ : x < u.elements ∧ y < u.elements := by simpa using hz
      obtain ⟨hflag, htwins⟩ := h.unite hx hy
      rw [h.left.on_tryUnion hx hy, h.right.on_tryUnion (helements ▸ hx) (helements ▸ hy), hflag]
      exact ⟨rfl, htwins⟩
  | some z =>
      obtain ⟨u', hu', hus, hu⟩ := h.left.on_tryUnion_error hz
      obtain ⟨v', hv', hvs, hv⟩ := h.right.on_tryUnion_error (helements ▸ hz)
      rw [hu, hv, helements]
      exact ⟨rfl, h.of_twins ⟨hu', h.left, hus⟩ ⟨hv', h.right, hvs⟩⟩

theorem lockstep_tryUnions (x : Nat) (l : List Nat) : Lockstep (tryUnions x l) := by
  induction l with
  | nil => exact lockstep_pure ()
  | cons y l ih => exact (lockstep_tryUnion x y).bind fun _ => ih

theorem lockstep_tryMerge (items : List Nat) : Lockstep (tryMerge items) := by
  cases items with
  | nil => exact lockstep_pure ()
  | cons x l => exact lockstep_tryUnions x l

/-- A query without arguments is quiet. -/
theorem quiet_modifyGet {f : UnionFind → α × UnionFind}
    (hsound : ∀ u : UnionFind, u.Sound → (f u).2.Sound ∧ (f u).2.SameRoots u) :
    Quiet (modifyGet f) := fun u h => ⟨(hsound u h).1, h, (hsound u h).2⟩

/-- If its answer depends on the roots alone, it is in lockstep too. -/
theorem lockstep_modifyGet {f : UnionFind → α × UnionFind}
    (hsound : ∀ u : UnionFind, u.Sound → (f u).2.Sound ∧ (f u).2.SameRoots u)
    (hanswer : ∀ u v : UnionFind, Twins u v → (f u).1 = (f v).1) : Lockstep (modifyGet f) := by
  intro u v h
  refine ⟨congrArg Except.ok (hanswer u v h), ?_⟩
  exact h.of_twins (quiet_modifyGet hsound u h.left) (quiet_modifyGet hsound v h.right)

theorem Twins.groups_eq (h : Twins u v) : u.groups.1 = v.groups.1 := by
  rw [h.left.groups_eq, h.right.groups_eq, h.same.firsts_eq]
  exact List.map_congr_left fun x _ => h.same.classList_eq x

theorem Twins.representatives_eq (h : Twins u v) : u.representatives.1 = v.representatives.1 := by
  refine Array.toList_inj.mp ?_
  rw [h.left.representatives_eq, h.right.representatives_eq, h.same.firsts_eq]
  exact List.map_congr_left fun x _ => h.same.root_eq x

theorem Twins.findAll_eq (h : Twins u v) : u.findAll.1 = v.findAll.1 := by
  refine Array.toList_inj.mp ?_
  rw [h.left.findAll.1, h.right.findAll.1, h.same.elements_eq]
  exact List.map_congr_left fun x _ => h.same.root_eq x

/-! ## Calls -/

/-- The call asks something and joins nothing. -/
def Call.isQuery : Call → Bool
  | union _ _ | merge _ => false
  | find _ | sameClass _ _ | groups | representatives | elements | isEmpty | findAll => true

theorem lockstep_call (c : Call) : Lockstep c.operation := by
  have hbind : ∀ {α : Type} {m : Operation α} {f : α → Answer}, Lockstep m →
      Lockstep (m >>= fun a => pure (f a)) := fun hm => hm.bind fun _ => lockstep_pure _
  cases c with
  | find x => exact hbind (lockstep_tryFind x)
  | union x y => exact hbind (lockstep_tryUnion x y)
  | sameClass x y => exact hbind (lockstep_trySameClass x y)
  | merge items => exact hbind (lockstep_tryMerge items)
  | groups =>
      exact hbind (lockstep_modifyGet (fun _ h => h.groups) fun _ _ h => h.groups_eq)
  | representatives =>
      exact hbind (lockstep_modifyGet (fun _ h => h.representatives) fun _ _ h =>
        h.representatives_eq)
  | elements =>
      intro u v h
      exact ⟨congrArg (fun n => Except.ok (Answer.number n)) h.same.elements_eq, h⟩
  | isEmpty =>
      intro u v h
      exact ⟨congrArg (fun n => Except.ok (Answer.flag (n == 0))) h.same.classes_eq, h⟩
  | findAll =>
      exact hbind (lockstep_modifyGet (fun _ h => h.findAll.2) fun _ _ h => h.findAll_eq)

theorem quiet_of_isQuery {c : Call} (hc : c.isQuery = true) : Quiet c.operation := by
  have hbind : ∀ {α : Type} {m : Operation α} {f : α → Answer}, Quiet m →
      Quiet (m >>= fun a => pure (f a)) := fun hm => hm.bind fun _ => quiet_pure _
  cases c with
  | find x => exact hbind (quiet_tryFind x)
  | sameClass x y => exact hbind (quiet_trySameClass x y)
  | groups => exact hbind (quiet_modifyGet fun _ h => h.groups)
  | representatives => exact hbind (quiet_modifyGet fun _ h => h.representatives)
  | elements | isEmpty => exact fun _ h => .refl h
  | findAll => exact hbind (quiet_modifyGet fun _ h => h.findAll.2)
  | union _ _ | merge _ => cases hc

/-! ## Runs with and without queries -/

/-- What a call comes to: its answer, or its failure, and the number of
classes after it. -/
def response (u : UnionFind) (c : Call) : Except Failure Answer × Nat :=
  ((u.perform c).1, (u.perform c).2.classes)

/-- What the calls of a run come to, one after the other. -/
def responses (u : UnionFind) : List Call → List (Except Failure Answer × Nat)
  | [] => []
  | c :: calls => u.response c :: (u.perform c).2.responses calls

/-- The members of a list that are marked to be left in. -/
def kept (marks : List Bool) (l : List α) : List α :=
  (marks.zip l).filterMap fun (mark, a) => if mark then some a else none

/-- All calls of a run are marked, and only queries are to be taken out. -/
def MarksQueries (marks : List Bool) (calls : List Call) : Prop :=
  List.Forall₂ (fun mark c => mark = true ∨ c.isQuery = true) marks calls

theorem Twins.response_eq (h : Twins u v) (c : Call) :
    u.response c = v.response c ∧ Twins (u.perform c).2 (v.perform c).2 := by
  obtain ⟨hanswer, htwins⟩ := lockstep_call c u v h
  exact ⟨Prod.ext hanswer htwins.same.classes_eq, htwins⟩

theorem Twins.responses_eq (h : Twins u v) (calls : List Call) :
    u.responses calls = v.responses calls := by
  induction calls generalizing u v with
  | nil => rfl
  | cons c calls ih =>
      obtain ⟨hresponse, htwins⟩ := h.response_eq c
      exact congrArg₂ List.cons hresponse (ih htwins)

/-- A run with queries and the run without them go through twins. -/
theorem Twins.responses {marks : List Bool} {calls : List Call} (hmarks : MarksQueries marks calls)
    (h : Twins u v) : v.responses (kept marks calls) = kept marks (u.responses calls) := by
  induction hmarks generalizing u v with
  | nil => rfl
  | @cons mark c marks calls hmark _ ih =>
      cases mark with
      | true =>
          obtain ⟨hresponse, htwins⟩ := h.response_eq c
          show v.response c :: (v.perform c).2.responses (kept marks calls) =
            u.response c :: kept marks ((u.perform c).2.responses calls)
          rw [hresponse, ih htwins]
      | false =>
          have hquery := hmark.resolve_left Bool.false_ne_true
          exact ih ((quiet_of_isQuery hquery u h.left).trans h)

/-! ## The root that stays -/

/-- The root that stays one when two classes are joined: that of the class
with more elements, and on a tie that of the first. -/
def survivor (u : UnionFind) (x y : Nat) : Nat :=
  if (u.members (u.root x)).card < (u.members (u.root y)).card then u.root y else u.root x

theorem Sound.size_root_root (h : u.Sound) (hx : x < u.elements) :
    u.size.getD (u.root x) 0 = (u.members (u.root x)).card :=
  h.size_root _ (h.root_lt hx) (h.isRoot_root x)

theorem Sound.root_unite (h : u.Sound) (hx : x < u.elements) (hy : y < u.elements)
    (hxy : ¬ u.Joined x y) (z : Nat) : (u.unite x y).2.root z =
      if u.Joined z x ∨ u.Joined z y then u.survivor x y else u.root z := by
  obtain ⟨_, ⟨hjoined, _⟩ | ⟨_, _, hhung⟩⟩ := h.unite_cases hx hy
  · exact absurd hjoined hxy
  · rw [h.size_root_root hx, h.size_root_root hy] at hhung
    rw [survivor]
    split at hhung
    · next hlt =>
      rw [hhung.root_eq, if_pos hlt]
      simp only [Joined]
      grind
    · next hle =>
      rw [hhung.root_eq, if_neg hle]
      simp only [Joined]
      grind

theorem perform_find_eq (hx : x < u.elements) :
    u.perform (.find x) = (.ok (.number (u.root x)), (u.find x).2) :=
  on_bind_of_ok (on_tryFind_of_lt hx)

theorem perform_find (hx : x < u.elements) :
    (u.perform (.find x)).1 = .ok (.number (u.root x)) := by
  rw [perform_find_eq hx]

/-- A union that answers that it has joined two classes has made the survivor
the root of all their elements, and left all other roots. -/
theorem Sound.perform_find_union (h : u.Sound) (hx : x < u.elements) (hy : y < u.elements)
    (hz : z < u.elements) (hunion : (u.perform (.union x y)).1 = .ok (.flag true)) :
    ((u.perform (.union x y)).2.perform (.find z)).1 =
      .ok (.number (if u.Joined z x ∨ u.Joined z y then u.survivor x y else u.root z)) := by
  have hjoins : (u.unite x y).1 = true := by
    rw [h.perform_union hx hy] at hunion
    simpa using hunion
  rw [h.perform_union_eq hx hy, perform_find (h.elements_unite hx hy ▸ hz),
    h.root_unite hx hy ((h.unite_eq_true_iff hx hy).mp hjoins)]

/-- **Queries leave no trace.** Two runs of calls on single elements, failing
calls among them, may differ in any number of queries anywhere: if the same
calls are left when some queries are taken out of each, then these come to the
same in both runs, with the same answers or failures and the same numbers of
classes after them. A look-up answers with the root. A union that joins two
classes makes the root of the one with more elements the root of both, and
that of its first argument if they have as many, and changes no other root. -/
theorem queries_leave_no_trace (n : Nat) :
    (∀ (marks marks' : List Bool) (calls calls' : List Call),
        MarksQueries marks calls → MarksQueries marks' calls' →
          kept marks calls = kept marks' calls' →
            kept marks ((singletons n).responses calls) =
              kept marks' ((singletons n).responses calls')) ∧
      ∀ (calls : List Call) (x y z : Fin n),
        let u := after n calls
        (u.perform (.find z)).1 = .ok (.number (u.root z)) ∧
          ((u.perform (.union x y)).1 = .ok (.flag true) →
            ((u.perform (.union x y)).2.perform (.find z)).1 =
              .ok (.number (if u.Joined z x ∨ u.Joined z y then u.survivor x y else u.root z))) := by
  constructor
  · intro marks marks' calls calls' hmarks hmarks' hkept
    have htwins := Twins.refl (sound_singletons n)
    rw [← htwins.responses hmarks, ← htwins.responses hmarks', hkept]
  · intro calls x y z
    have hlt : ∀ x : Fin n, (x : Nat) < (after n calls).elements := lt_elements_after calls
    exact ⟨perform_find (hlt z), (sound_after n calls).1.perform_find_union (hlt x) (hlt y) (hlt z)⟩

/-- Queries between two unions, one of which fails, shorten paths and change
no answer; the root of the larger class stays, though it is that of the second
argument. -/
theorem unions_leave_no_trace :
    kept [true, false, false, true, true]
        ((singletons 4).responses [.union 1 3, .sameClass 3 9, .groups, .union 0 3, .find 0]) =
      kept [true, true, true] ((singletons 4).responses [.union 1 3, .union 0 3, .find 0]) ∧
    (((after 4 [.union 1 3]).perform (.union 0 3)).2.perform (.find 0)).1 = .ok (.number 1) := by
  obtain ⟨hqueries, hroots⟩ := queries_leave_no_trace 4
  constructor
  · refine hqueries _ _ _ _ ?_ ?_ rfl
    · exact .cons (.inl rfl) (.cons (.inr rfl) (.cons (.inr rfl) (.cons (.inl rfl)
        (.cons (.inl rfl) .nil))))
    · exact .cons (.inl rfl) (.cons (.inl rfl) (.cons (.inl rfl) .nil))
  · have hjoins : ((after 4 [.union 1 3]).perform (.union 0 3)).1 = .ok (.flag true) := by
      decide +kernel
    exact ((hroots [.union 1 3] 0 3 0).2 hjoins).trans (by decide +kernel)

end UnionFind

end FiniteState
