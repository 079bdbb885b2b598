import Mathlib.Algebra.BigOperators.Group.Finset.Piecewise
import QuashLabs.Transition.Reachable

/-!
# Runs without an end

A run is endless when it takes a step at every time. A weight of the states that no step
raises cannot fall again and again, so a step that lowers it stops happening; a weight
that every step lowers rules endless runs out and bounds the others. The weights used for
families of threads are sums over their places.
-/

namespace QuashLabs.Transition

universe u v

variable {ι : Type v} {σ : Type u} {next : LabelledStep ι σ} {source : σ}

/-- A run with a step at every time. -/
structure EndlessRun (next : LabelledStep ι σ) (source : σ) where
  state : Nat → σ
  label : Nat → ι
  starts : state 0 = source
  steps : ∀ time, next (label time) (state time) = some (state (time + 1))

namespace EndlessRun

theorem reachable (run : EndlessRun next source) (time : Nat) :
    Reachable next source (run.state time) := by
  induction time with
  | zero =>
      rw [run.starts]
      exact .refl
  | succ time ih => exact ih.tail (run.steps time)

/-- From some time on no step of the kind is taken. -/
def Ceases (run : EndlessRun next source) (kind : ι → Prop) : Prop :=
  ∃ start, ∀ time, start ≤ time → ¬ kind (run.label time)

/-- Steps of the kind are taken again and again. -/
def Recurs (run : EndlessRun next source) (kind : ι → Prop) : Prop :=
  ∀ start, ∃ time, start ≤ time ∧ kind (run.label time)

/-- From some time on the label is enabled at every time, and never taken. -/
def Starves (run : EndlessRun next source) (label : ι) : Prop :=
  ∃ start, ∀ time, start ≤ time →
    (∃ target, next label (run.state time) = some target) ∧ run.label time ≠ label

theorem ceases_or_recurs (run : EndlessRun next source) (kind : ι → Prop) :
    run.Ceases kind ∨ run.Recurs kind := by
  by_cases recurs : run.Recurs kind
  · exact .inr recurs
  · left
    unfold Recurs at recurs
    push Not at recurs
    exact recurs

/-- A weight that no step raises from some time on is not above its value at that time. -/
theorem weight_le (run : EndlessRun next source) {weight : σ → Nat} {start : Nat}
    (kept : ∀ time, start ≤ time → weight (run.state (time + 1)) ≤ weight (run.state time))
    (later : Nat) : weight (run.state (start + later)) ≤ weight (run.state start) := by
  induction later with
  | zero => exact Nat.le_refl _
  | succ later ih => exact Nat.le_trans (kept (start + later) (Nat.le_add_right _ _)) ih

/-- What no step changes from some time on stays as it is at that time. -/
theorem unchanged (run : EndlessRun next source) {β : Type*} (view : σ → β) {start time : Nat}
    (same : ∀ time, start ≤ time → view (run.state (time + 1)) = view (run.state time))
    (after : start ≤ time) : view (run.state time) = view (run.state start) := by
  rcases Nat.exists_eq_add_of_le after with ⟨later, rfl⟩
  clear after
  induction later with
  | zero => rfl
  | succ later ih => exact (same (start + later) (Nat.le_add_right _ _)).trans ih

/-- No weight falls at every time from some time on. -/
theorem not_always_falls (run : EndlessRun next source) (weight : σ → Nat) {start : Nat}
    (falls : ∀ time, start ≤ time → weight (run.state (time + 1)) < weight (run.state time)) :
    False := by
  have below (later : Nat) :
      weight (run.state (start + later)) + later ≤ weight (run.state start) := by
    induction later with
    | zero => exact Nat.le_refl _
    | succ later ih =>
        have lower : weight (run.state (start + later + 1)) < weight (run.state (start + later)) :=
          falls (start + later) (Nat.le_add_right _ _)
        rw [← Nat.add_assoc start]
        omega
  have last := below (weight (run.state start) + 1)
  omega

/-- Steps that lower a weight which no step raises cease. -/
theorem ceases_of_weight (run : EndlessRun next source) (weight : σ → Nat) {kind : ι → Prop}
    (kept : ∀ time, weight (run.state (time + 1)) ≤ weight (run.state time))
    (falls : ∀ time, kind (run.label time) →
      weight (run.state (time + 1)) < weight (run.state time)) : run.Ceases kind := by
  rcases run.ceases_or_recurs kind with ceases | recurs
  · exact ceases
  -- The induction is on the weight at a time: each recurrence leaves a smaller one.
  have sinks (bound : Nat) : ∀ start, weight (run.state start) ≤ bound → False := by
    induction bound with
    | zero =>
        intro start low
        rcases recurs start with ⟨time, after, here⟩
        rcases Nat.exists_eq_add_of_le after with ⟨later, rfl⟩
        have still := run.weight_le (fun time (_ : start ≤ time) => kept time) later
        have lower := falls (start + later) here
        omega
    | succ bound ih =>
        intro start low
        rcases recurs start with ⟨time, after, here⟩
        rcases Nat.exists_eq_add_of_le after with ⟨later, rfl⟩
        have still := run.weight_le (fun time (_ : start ≤ time) => kept time) later
        have lower := falls (start + later) here
        exact ih (start + later + 1) (by omega)
  exact absurd (Nat.le_refl _) (sinks (weight (run.state 0)) 0)

end EndlessRun

/-! ## Bounded runs -/

/-- Where every step from a reachable state lowers a weight, no run is longer than the
weight at its start. -/
theorem length_le_of_weight (weight : σ → Nat)
    (falls : ∀ ⦃label state target⦄, Reachable next source state →
      next label state = some target → weight target < weight state)
    {labels : List ι} {target : σ} (runs : runLabels next labels source = some target) :
    labels.length + weight target ≤ weight source := by
  induction labels generalizing source with
  | nil =>
      obtain rfl : source = target := Option.some.inj runs
      simp
  | cons label labels ih =>
      rcases Option.bind_eq_some_iff.mp runs with ⟨middle, step, rest⟩
      have lower := falls .refl step
      have bounded := ih (fun _ _ _ later => falls ((Reachable.single step).trans later)) rest
      rw [List.length_cons]
      omega

/-! ## Sums over the places of threads -/

/-- The weights of the places of the first `count` threads together. -/
def load {L : Type*} (weight : L → Nat) (location : Nat → L) (count : Nat) : Nat :=
  ∑ thread ∈ Finset.range count, weight (location thread)

theorem load_const {L : Type*} (weight : L → Nat) (place : L) (count : Nat) :
    load weight (fun _ => place) count = count * weight place := by
  unfold load
  rw [Finset.sum_const, Finset.card_range]
  rfl

theorem load_le {L : Type*} {weight : L → Nat} {location : Nat → L} {count bound : Nat}
    (each : ∀ thread < count, weight (location thread) ≤ bound) :
    load weight location count ≤ count * bound := by
  induction count with
  | zero => exact Nat.zero_le _
  | succ count ih =>
      have before := ih fun thread inside => each thread (by omega)
      have last := each count (by omega)
      unfold load at before ⊢
      rw [Finset.sum_range_succ, Nat.succ_mul]
      omega

/-- Moving a thread replaces its weight. -/
theorem load_update {L : Type*} (weight : L → Nat) (location : Nat → L) {count thread : Nat}
    (inside : thread < count) (place : L) :
    load weight (Function.update location thread place) count + weight (location thread) =
      load weight location count + weight place := by
  have member : thread ∈ Finset.range count := Finset.mem_range.mpr inside
  have moved : (fun i => weight (Function.update location thread place i)) =
      Function.update (fun i => weight (location i)) thread (weight place) :=
    Function.comp_update weight location thread place
  unfold load
  rw [moved, Finset.sum_update_of_mem member,
    Finset.sum_eq_add_sum_sdiff_singleton_of_mem member fun i => weight (location i)]
  omega

end QuashLabs.Transition
