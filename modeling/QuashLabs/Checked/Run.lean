import Mathlib.Data.List.Basic
import QuashLabs.Checked.Outcome

/-!
# Runs of operations that answer and may stop

A machine takes operations one at a time; each answers and moves the state, or
stops the run. `runOps` collects the answers up to the stop. When every
operation of one machine answers, stops and moves as the same operation of
another machine does in the related state, so does every run.
-/

namespace QuashLabs.Checked

universe u v w x y z

variable {Op : Type u} {Answer : Type v} {ε : Type w} {σ : Type x} {τ : Type y}

/-- The answers of a run, and the state it ends in or its reason to stop. -/
def runOps (step : Op → σ → Except ε (Answer × σ)) : List Op → σ → List Answer × Except ε σ
  | [], s => ([], .ok s)
  | op :: ops, s =>
      match step op s with
      | .error e => ([], .error e)
      | .ok (answer, s') => (answer :: (runOps step ops s').1, (runOps step ops s').2)

/-- Two results that stop for the same reason, or return related values. -/
inductive Agree {α : Type x} {β : Type y} (related : α → β → Prop) :
    Except ε α → Except ε β → Prop
  | ok {a : α} {b : β} (both : related a b) : Agree related (.ok a) (.ok b)
  | error (e : ε) : Agree related (.error e) (.error e)

theorem Agree.mono {α : Type x} {β : Type y} {related wider : α → β → Prop} {a : Except ε α}
    {b : Except ε β} (agree : Agree related a b) (weaken : ∀ a b, related a b → wider a b) :
    Agree wider a b := by
  cases agree with
  | ok both => exact .ok (weaken _ _ both)
  | error e => exact .error e

/-- Every operation of the run satisfies `admitted` in the state it starts from. -/
def Along (step : Op → σ → Except ε (Answer × σ)) (admitted : Op → σ → Prop) :
    List Op → σ → Prop
  | [], _ => True
  | op :: ops, s =>
      admitted op s ∧ ∀ answer s', step op s = .ok (answer, s') → Along step admitted ops s'

theorem Along.next {step : Op → σ → Except ε (Answer × σ)} {admitted : Op → σ → Prop} {op : Op}
    {ops : List Op} {s s' : σ} {answer : Answer} (runs : step op s = .ok (answer, s'))
    (admits : admitted op s) (later : Along step admitted ops s') :
    Along step admitted (op :: ops) s := by
  refine ⟨admits, fun answer' s'' runs' => ?_⟩
  rw [runs] at runs'
  cases runs'
  exact later

/-- Every operation of the run returns, and `holds` is true after each. -/
def Throughout (step : Op → σ → Except ε (Answer × σ)) (holds : σ → Prop) : List Op → σ → Prop
  | [], _ => True
  | op :: ops, s =>
      ∃ answer s', step op s = .ok (answer, s') ∧ holds s' ∧ Throughout step holds ops s'

variable {step : Op → σ → Except ε (Answer × σ)} {step' : Op → τ → Except ε (Answer × τ)}
variable {related : σ → τ → Prop} {admitted : Op → σ → Prop}

/-- The invariant rule: what every operation preserves, together with the answers
so far, holds at the end of a run; and a run only stops as an operation may. -/
theorem runOps_invariant {inv : List Answer → σ → Prop} {stop : ε → Prop} {ops : List Op}
    (each : ∀ op ∈ ops, ∀ answers s, inv answers s →
      Ends (fun result => inv (answers ++ [result.1]) result.2) stop (step op s))
    {answers : List Answer} {s : σ} (start : inv answers s) :
    Ends (inv (answers ++ (runOps step ops s).1)) stop (runOps step ops s).2 := by
  induction ops generalizing answers s with
  | nil => simpa [runOps] using start
  | cons op ops ih =>
      have first := each op List.mem_cons_self answers s start
      simp only [runOps]
      cases runs : step op s with
      | error e => simpa [runs] using first
      | ok result =>
          rw [runs] at first
          have later := ih (fun op member => each op (List.mem_cons_of_mem _ member)) first
          simpa using later

/-- The invariant rule without answers. -/
theorem runOps_keeps {inv : σ → Prop} {stop : ε → Prop} {ops : List Op} {s : σ}
    (each : ∀ op ∈ ops, ∀ s, inv s → Ends (fun result => inv result.2) stop (step op s))
    (start : inv s) : Ends inv stop (runOps step ops s).2 := by
  have each' : ∀ op ∈ ops, ∀ (_ : List Answer) (s : σ), inv s →
      Ends (fun result => inv result.2) stop (step op s) := fun op member _ => each op member
  exact @runOps_invariant _ _ _ _ step (fun _ => inv) stop ops each' [] s start

/-- The invariant rule for runs whose operations are admitted. -/
theorem runOps_keeps_along {inv : σ → Prop} {stop : ε → Prop}
    (each : ∀ op s, inv s → admitted op s → Ends (fun result => inv result.2) stop (step op s))
    {ops : List Op} {s : σ} (start : inv s) (along : Along step admitted ops s) :
    Ends inv stop (runOps step ops s).2 := by
  induction ops generalizing s with
  | nil => exact start
  | cons op ops ih =>
      rcases along with ⟨admits, later⟩
      have first := each op s start admits
      simp only [runOps]
      cases runs : step op s with
      | error e =>
          rw [runs] at first
          exact first
      | ok result =>
          rw [runs] at first
          exact ih first (later result.1 result.2 runs)

/-- What an invariant adds to the admission of an operation holds along the run. -/
theorem Along.strengthen {inv : σ → Prop} {stop : ε → Prop} {wanted : Op → σ → Prop}
    {ops : List Op} {s : σ}
    (each : ∀ op ∈ ops, ∀ s, inv s → Ends (fun result => inv result.2) stop (step op s))
    (adds : ∀ op ∈ ops, ∀ s, inv s → admitted op s → wanted op s)
    (start : inv s) (along : Along step admitted ops s) : Along step wanted ops s := by
  induction ops generalizing s with
  | nil => exact True.intro
  | cons op ops ih =>
      rcases along with ⟨admits, later⟩
      refine ⟨adds op List.mem_cons_self s start admits, fun answer s' runs => ?_⟩
      have kept := (each op List.mem_cons_self s start).of_ok runs
      exact ih (fun op member => each op (List.mem_cons_of_mem _ member))
        (fun op member => adds op (List.mem_cons_of_mem _ member)) kept (later answer s' runs)

/-- When `sound` says exactly which admitted operations return and keep an invariant,
a run keeps the invariant exactly when all its operations are sound. -/
theorem throughout_iff_along {holds : σ → Prop} {sound : Op → σ → Prop}
    (each : ∀ op s, holds s → admitted op s →
      ((∃ answer s', step op s = .ok (answer, s') ∧ holds s') ↔ sound op s))
    {ops : List Op} {s : σ} (start : holds s) (along : Along step admitted ops s) :
    Throughout step holds ops s ↔ Along step sound ops s := by
  induction ops generalizing s with
  | nil => exact Iff.rfl
  | cons op ops ih =>
      rcases along with ⟨admits, later⟩
      constructor
      · rintro ⟨answer, s', runs, kept, rest⟩
        exact Along.next runs ((each op s start admits).mp ⟨answer, s', runs, kept⟩)
          ((ih kept (later answer s' runs)).mp rest)
      · rintro ⟨isSound, rest⟩
        rcases (each op s start admits).mpr isSound with ⟨answer, s', runs, kept⟩
        exact ⟨answer, s', runs, kept, (ih kept (later answer s' runs)).mpr (rest answer s' runs)⟩

end QuashLabs.Checked
