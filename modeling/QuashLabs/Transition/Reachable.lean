import Mathlib.Data.List.Basic

/-!
# Labelled partial steps and their reachable states

A program is given by one partial step for each label: the label says who moves,
and the step is undefined where that party is blocked. The invariant rules are the
only inductions over runs that the later modules need, with the rule for a program
that simulates another one. Where every enabled label leads to one state, what holds
of all runs from a state follows from that state and the next.
-/

namespace QuashLabs.Transition

universe u v

/-- A partial step for every label; `none` means that the label is not enabled. -/
abbrev LabelledStep (ι : Type v) (σ : Type u) :=
  ι → σ → Option σ

variable {ι : Type v} {σ : Type u} {next : LabelledStep ι σ}

/-- The states that finitely many enabled steps reach from `source`. -/
inductive Reachable (next : LabelledStep ι σ) (source : σ) : σ → Prop
  | refl : Reachable next source source
  | tail {middle target : σ} {label : ι} :
      Reachable next source middle → next label middle = some target →
      Reachable next source target

/-- A state in which no label is enabled. -/
def Quiescent (next : LabelledStep ι σ) (state : σ) : Prop :=
  ∀ label, next label state = none

namespace Reachable

theorem trans {source middle target : σ} (first : Reachable next source middle)
    (second : Reachable next middle target) : Reachable next source target := by
  induction second with
  | refl => exact first
  | tail _ last ih => exact ih.tail last

theorem single {source target : σ} {label : ι} (step : next label source = some target) :
    Reachable next source target :=
  refl.tail step

/-- A property of the first state that every enabled step preserves holds in
every reachable state. -/
theorem invariant {source state : σ} {P : σ → Prop} (reachable : Reachable next source state)
    (base : P source)
    (preserved : ∀ ⦃label middle target⦄, P middle → next label middle = some target → P target) :
    P state := by
  induction reachable with
  | refl => exact base
  | tail _ last ih => exact preserved ih last

/-- The invariant rule with the reachability of the state before the step at hand. -/
theorem invariantOfReachable {source state : σ} {P : σ → Prop}
    (reachable : Reachable next source state) (base : P source)
    (preserved : ∀ ⦃label middle target⦄, Reachable next source middle → P middle →
      next label middle = some target → P target) :
    P state := by
  induction reachable with
  | refl => exact base
  | tail before last ih => exact preserved before ih last

end Reachable

/-- The state behind a sequence of labels, if each of them is enabled in its turn. -/
def runLabels (next : LabelledStep ι σ) : List ι → σ → Option σ
  | [], state => some state
  | label :: labels, state => (next label state).bind (runLabels next labels)

/-- A run is found by its labels. -/
theorem Reachable.of_runLabels {source target : σ} {labels : List ι}
    (runs : runLabels next labels source = some target) : Reachable next source target := by
  induction labels generalizing source with
  | nil =>
      obtain rfl : source = target := Option.some.inj runs
      exact .refl
  | cons label labels ih =>
      rcases Option.bind_eq_some_iff.mp runs with ⟨middle, step, rest⟩
      exact (Reachable.single step).trans (ih rest)

/-! ## Simulation -/

/-- A program whose steps are those of another one, or are not seen there, reaches states
in which the other one can be. An invariant may be carried along. -/
theorem Reachable.simulated {κ : Type*} {τ : Type*} {above : LabelledStep κ τ} {inv : σ → Prop}
    {source state : σ} (view : σ → τ) (reachable : Reachable next source state)
    (start : inv source)
    (each : ∀ ⦃label middle target⦄, inv middle → Reachable above (view source) (view middle) →
      next label middle = some target →
        inv target ∧ (view target = view middle ∨
          ∃ event, above event (view middle) = some (view target))) :
    inv state ∧ Reachable above (view source) (view state) := by
  induction reachable with
  | refl => exact ⟨start, .refl⟩
  | tail _ last ih =>
      rcases ih with ⟨holds, before⟩
      rcases each holds before last with ⟨still, same | ⟨event, step⟩⟩
      · exact ⟨still, same ▸ before⟩
      · exact ⟨still, before.tail step⟩

/-! ## Properties of runs -/

/-- The property holds in every state that is reachable from `source`. -/
def Always (next : LabelledStep ι σ) (P : σ → Prop) (source : σ) : Prop :=
  ∀ state, Reachable next source state → P state

/-- Some run from `source` comes to an end. -/
def Terminates (next : LabelledStep ι σ) (source : σ) : Prop :=
  ∃ state, Reachable next source state ∧ Quiescent next state

/-- Where no label is enabled, a run is over. -/
theorem Reachable.eq_of_quiescent {source state : σ} (reachable : Reachable next source state)
    (quiescent : Quiescent next source) : state = source := by
  refine Reachable.invariant (P := fun state => state = source) reachable rfl ?_
  intro label middle target here step
  rw [here, quiescent label] at step
  cases step

/-- Where every enabled label leads to one state, a run goes through that state. -/
theorem Reachable.eq_or_of_next {source target state : σ} (reachable : Reachable next source state)
    (only : ∀ label state, next label source = some state → state = target) :
    state = source ∨ Reachable next target state := by
  refine Reachable.invariant (P := fun state => state = source ∨ Reachable next target state)
    reachable (.inl rfl) ?_
  rintro label middle state (rfl | later) step
  · exact .inr (only label state step ▸ .refl)
  · exact .inr (later.tail step)

/-- Runs that come to an end and in whose states the property holds, where no label is
enabled. -/
theorem always_terminates_of_quiescent {P : σ → Prop} {source : σ}
    (quiescent : Quiescent next source) :
    Always next P source ∧ Terminates next source ↔ P source := by
  constructor
  · exact fun both => both.1 source .refl
  · exact fun holds => ⟨fun state reachable => reachable.eq_of_quiescent quiescent ▸ holds,
      source, .refl, quiescent⟩

/-- Runs that come to an end and in whose states the property holds, where every enabled
label leads to one state. -/
theorem always_terminates_of_next {P : σ → Prop} {source target : σ} (label : ι)
    (enabled : next label source = some target)
    (only : ∀ label state, next label source = some state → state = target) :
    Always next P source ∧ Terminates next source ↔
      P source ∧ Always next P target ∧ Terminates next target := by
  constructor
  · rintro ⟨always, state, reachable, quiescent⟩
    have onward : Always next P target := fun state later =>
      always state ((Reachable.single enabled).trans later)
    refine ⟨always source .refl, onward, state, ?_, quiescent⟩
    rcases reachable.eq_or_of_next only with rfl | later
    · rw [quiescent label] at enabled
      cases enabled
    · exact later
  · rintro ⟨holds, always, state, later, quiescent⟩
    refine ⟨fun state reachable => ?_, state, (Reachable.single enabled).trans later, quiescent⟩
    rcases reachable.eq_or_of_next only with rfl | later
    · exact holds
    · exact always state later

/-! ## Properties of one run -/

/-- The property holds in every state of a run, which ends before the first label that is
not enabled. -/
def Throughout (next : LabelledStep ι σ) (P : σ → Prop) : List ι → σ → Prop
  | [], state => P state
  | label :: labels, state =>
      P state ∧ ∀ target, next label state = some target → Throughout next P labels target

/-- Every step of a run is admitted in the state from which it starts. -/
def Along (next : LabelledStep ι σ) (admitted : ι → σ → Prop) : List ι → σ → Prop
  | [], _ => True
  | label :: labels, state =>
      ∀ target, next label state = some target →
        admitted label state ∧ Along next admitted labels target

theorem Throughout.here {P : σ → Prop} {labels : List ι} {state : σ}
    (throughout : Throughout next P labels state) : P state := by
  cases labels with
  | nil => exact throughout
  | cons label labels => exact throughout.1

/-- A property that always holds is one that holds throughout every run. -/
theorem always_iff_throughout {P : σ → Prop} {source : σ} :
    Always next P source ↔ ∀ labels, Throughout next P labels source := by
  constructor
  · intro always labels
    induction labels generalizing source with
    | nil => exact always source .refl
    | cons label labels ih =>
        refine ⟨always source .refl, fun target step => ih fun state later => ?_⟩
        exact always state ((Reachable.single step).trans later)
  · intro throughout state reachable
    have still : ∀ labels, Throughout next P labels state := by
      apply reachable.invariant throughout
      intro label middle target before step labels
      exact (before (label :: labels)).2 target step
    exact (still []).here

/-- What is admitted in every reachable state is admitted along every run. -/
theorem along_of_reachable {admitted : ι → σ → Prop} {source : σ}
    (each : ∀ ⦃label state target⦄, Reachable next source state →
      next label state = some target → admitted label state) (labels : List ι) :
    Along next admitted labels source := by
  induction labels generalizing source with
  | nil => exact True.intro
  | cons label labels ih =>
      intro target step
      refine ⟨each .refl step, ih fun _ _ _ later => ?_⟩
      exact each ((Reachable.single step).trans later)

/-- When an invariant of the runs on which `P` has held so far says which steps keep `P`,
a run keeps `P` exactly when it is made of these steps. -/
theorem throughout_iff_along {P inv : σ → Prop} {admitted : ι → σ → Prop}
    (each : ∀ ⦃label state target⦄, inv state → next label state = some target →
      (P target ↔ admitted label state) ∧ (P target → inv target))
    {labels : List ι} {state : σ} (start : inv state) (holds : P state) :
    Throughout next P labels state ↔ Along next admitted labels state := by
  induction labels generalizing state with
  | nil => exact iff_of_true holds True.intro
  | cons label labels ih =>
      constructor
      · rintro ⟨-, throughout⟩ target step
        rcases each start step with ⟨exactly, kept⟩
        have still := (throughout target step).here
        exact ⟨exactly.mp still, (ih (kept still) still).mp (throughout target step)⟩
      · intro along
        refine ⟨holds, fun target step => ?_⟩
        rcases each start step with ⟨exactly, kept⟩
        rcases along target step with ⟨admits, later⟩
        have still := exactly.mpr admits
        exact (ih (kept still) still).mpr later

/-- A run of admitted steps keeps an invariant that admitted steps preserve, and whatever
follows from it. -/
theorem throughout_of_along {P inv : σ → Prop} {admitted : ι → σ → Prop}
    (each : ∀ ⦃label state target⦄, inv state → admitted label state →
      next label state = some target → inv target)
    (holds : ∀ ⦃state⦄, inv state → P state) {labels : List ι} {state : σ} (start : inv state)
    (along : Along next admitted labels state) : Throughout next P labels state := by
  induction labels generalizing state with
  | nil => exact holds start
  | cons label labels ih =>
      refine ⟨holds start, fun target step => ?_⟩
      rcases along target step with ⟨admits, later⟩
      exact ih (each start admits step) later

end QuashLabs.Transition
