import FiniteState.Proofs.Dfa.Ordered
import Mathlib.Data.Finset.Card
import Mathlib.Data.Set.Function

/-!
# Renaming states

An automaton is the image of another under a renaming of its states if it
has nothing that does not come from there (`ImageUnder`). States that move
alike may get one name, so a collapsed automaton is an image; a renaming
leaves no choice of the image (`ImageUnder.unique`).

If different states keep different names the two automata are isomorphic.
For automata without unreachable states this can be told from their runs
alone: if these are the same, so are the automata up to the names of their
states (`SameRuns.isomorphic`). The renaming takes the state in which a run
of one ends to that in which the run of the other on the same word does.
-/

namespace FiniteState

namespace Dfa

variable {σ : Type} [Alphabet σ] {d e : Dfa σ} {q : State}

/-! ## Images -/

/-- The automaton `m` is `d` with its states renamed, some of them to the
same name: nothing is in `m` that does not come from `d`, and all members
of a class move alike. -/
structure ImageUnder (m d : Dfa σ) (name : State → State) : Prop where
  lt_states_iff : ∀ i, i < m.states ↔ ∃ q, q < d.states ∧ name q = i
  start_eq : m.start = name d.start
  step_eq : ∀ q a, q < d.states → m.step (name q) a = (d.step q a).map name
  mem_finals_iff : ∀ i, i ∈ m.finals ↔ ∃ q, q ∈ d.finals ∧ name q = i

namespace ImageUnder

variable {m m' k : Dfa σ} {name name' : State → State}

theorem name_lt (h : m.ImageUnder d name) (hq : q < d.states) : name q < m.states :=
  (h.lt_states_iff _).mpr ⟨q, hq, rfl⟩

/-- The image of an image is one under both renamings. -/
theorem trans (h : m.ImageUnder d name) (h' : k.ImageUnder m name') :
    k.ImageUnder d fun q => name' (name q) := by
  refine ⟨fun i => ?_, by rw [h'.start_eq, h.start_eq], fun q a hq => ?_, fun i => ?_⟩
  · rw [h'.lt_states_iff]
    constructor
    · rintro ⟨j, hj, rfl⟩
      obtain ⟨q, hq, rfl⟩ := (h.lt_states_iff j).mp hj
      exact ⟨q, hq, rfl⟩
    · rintro ⟨q, hq, rfl⟩
      exact ⟨name q, h.name_lt hq, rfl⟩
  · rw [h'.step_eq _ a (h.name_lt hq), h.step_eq q a hq, Option.map_map]
    rfl
  · rw [h'.mem_finals_iff]
    constructor
    · rintro ⟨j, hj, rfl⟩
      obtain ⟨q, hq, rfl⟩ := (h.mem_finals_iff j).mp hj
      exact ⟨q, hq, rfl⟩
    · rintro ⟨q, hq, rfl⟩
      exact ⟨name q, (h.mem_finals_iff _).mpr ⟨q, hq, rfl⟩, rfl⟩

/-- Renamings that agree on all states give the same image. -/
theorem congr (hd : d.WellFormed) (h : m.ImageUnder d name)
    (hname : ∀ q, q < d.states → name q = name' q) : m.ImageUnder d name' := by
  refine ⟨fun i => ?_, by rw [h.start_eq, hname _ hd.start_lt], fun q a hq => ?_, fun i => ?_⟩
  · rw [h.lt_states_iff]
    exact exists_congr fun q => and_congr_right fun hq => by rw [hname q hq]
  · rw [← hname q hq, h.step_eq q a hq]
    exact Option.map_congr fun p hp => hname p (hd.step_lt q a p hp)
  · rw [h.mem_finals_iff]
    exact exists_congr fun q => and_congr_right fun hq => by rw [hname q (hd.finals_lt q hq)]

/-- An automaton has one image under a renaming. -/
theorem unique (h : m.ImageUnder d name) (h' : m'.ImageUnder d name) : m = m' := by
  have hlt : ∀ i, i < m.states ↔ i < m'.states := fun i =>
    (h.lt_states_iff i).trans (h'.lt_states_iff i).symm
  have hstates : m.states = m'.states := Nat.le_antisymm
    (Nat.le_of_not_lt fun hi => Nat.lt_irrefl _ ((hlt _).mp hi))
    (Nat.le_of_not_lt fun hi => Nat.lt_irrefl _ ((hlt _).mpr hi))
  refine eq_of_step_eq hstates (h.start_eq.trans h'.start_eq.symm) (fun i a => ?_) fun i => ?_
  · by_cases hi : i < m.states
    · obtain ⟨q, hq, rfl⟩ := (h.lt_states_iff i).mp hi
      rw [h.step_eq q a hq, h'.step_eq q a hq]
    · rw [step_eq_none hi, step_eq_none (hstates ▸ hi)]
  · rw [h.mem_finals_iff, h'.mem_finals_iff]

end ImageUnder

/-! ## Isomorphic automata -/

/-- The automata are the same up to the names of their states. -/
def Isomorphic (d e : Dfa σ) : Prop :=
  ∃ name : State → State, e.ImageUnder d name ∧ Set.InjOn name (Set.Iio d.states)

theorem Isomorphic.states_eq (h : Isomorphic d e) : d.states = e.states := by
  obtain ⟨name, himage, hinj⟩ := h
  have hrange : (Finset.range d.states).image name = Finset.range e.states := by
    refine Finset.ext fun i => ?_
    rw [Finset.mem_image, Finset.mem_range, himage.lt_states_iff]
    exact exists_congr fun q => and_congr_left fun _ => Finset.mem_range
  rw [← Finset.card_range e.states, ← hrange, Finset.card_image_of_injOn, Finset.card_range]
  rwa [Finset.coe_range]

/-- Automata with the same runs are isomorphic, if a run ends in each of
their states. -/
theorem SameRuns.isomorphic (h : SameRuns d e) (hd : d.WellFormed) (he : e.WellFormed)
    (hdr : d.Reachable) (her : e.Reachable) : Isomorphic d e := by
  obtain ⟨name, hname⟩ := h.exists_map
  have hrun : ∀ {w q}, d.run w = some q → e.run w = some (name q) := by
    intro w q hq
    rw [hname, hq]
    rfl
  refine ⟨name, ⟨fun i => ?_, ?_, fun q a hq => ?_, fun i => ?_⟩, fun p hp q hq hpq => ?_⟩
  · constructor
    · intro hi
      obtain ⟨w, hw⟩ := her i hi
      rw [hname] at hw
      obtain ⟨q, hq, hqi⟩ := Option.map_eq_some_iff.mp hw
      exact ⟨q, hd.run_lt hq, hqi⟩
    · rintro ⟨q, hq, rfl⟩
      obtain ⟨w, hw⟩ := hdr q hq
      exact he.run_lt (hrun hw)
  · exact Option.some.inj (hname [])
  · obtain ⟨w, hw⟩ := hdr q hq
    have hconcat := hname (w ++ [a])
    rwa [run_concat, run_concat, hw, hrun hw] at hconcat
  · constructor
    · intro hi
      obtain ⟨w, hw⟩ := her i (he.finals_lt i hi)
      have haccept := h.accepts_eq w
      rw [accepts_iff.mpr ⟨i, hw, hi⟩] at haccept
      obtain ⟨q, hq, hfinal⟩ := accepts_iff.mp haccept
      exact ⟨q, hfinal, Option.some.inj ((hrun hq).symm.trans hw)⟩
    · rintro ⟨q, hfinal, rfl⟩
      obtain ⟨w, hw⟩ := hdr q (hd.finals_lt q hfinal)
      have haccept := h.accepts_eq w
      rw [accepts_iff.mpr ⟨q, hw, hfinal⟩] at haccept
      obtain ⟨i, hi, hfinal'⟩ := accepts_iff.mp haccept.symm
      rwa [Option.some.inj ((hrun hw).symm.trans hi)]
  · obtain ⟨v, hv⟩ := hdr p hp
    obtain ⟨w, hw⟩ := hdr q hq
    have heq : e.run v = e.run w := by rw [hrun hv, hrun hw, hpq]
    have hback := (h.run_eq_iff v w (by rw [hv]; rfl)).mpr heq
    exact Option.some.inj (hv.symm.trans (hback.trans hw))

end Dfa

end FiniteState
