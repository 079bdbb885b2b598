import Mathlib.Logic.Basic

/-!
# Postconditions of computations that may stop

A computation in `Except` either returns or stops with a reason. `Ends post stop`
says which values it may return and for which reasons it may stop; the rules
below follow the structure of a `do` block.
-/

namespace QuashLabs.Checked

universe u v w

variable {ε : Type u} {α : Type v} {β : Type v}

/-! ## Running a `do` block -/

@[simp]
theorem ok_bind (a : α) (next : α → Except ε β) : (Except.ok a >>= next) = next a := rfl

@[simp]
theorem error_bind (e : ε) (next : α → Except ε β) :
    ((Except.error e : Except ε α) >>= next) = .error e := rfl

@[simp]
theorem pure_eq_ok (a : α) : (pure a : Except ε α) = .ok a := rfl

/-- A sequence returns when both parts do. -/
theorem bind_eq_ok {result : Except ε α} {next : α → Except ε β} {b : β} :
    (result >>= next) = .ok b ↔ ∃ a, result = .ok a ∧ next a = .ok b := by
  cases result with
  | error e => simp
  | ok a => simp

/-! ## Postconditions -/

/-- A returned value satisfies `post` and a reason to stop satisfies `stop`. -/
def Ends (post : α → Prop) (stop : ε → Prop) : Except ε α → Prop
  | .ok a => post a
  | .error e => stop e

namespace Ends

variable {post post' : α → Prop} {stop stop' : ε → Prop} {result : Except ε α}

@[simp]
theorem ok_iff {a : α} : Ends post stop (Except.ok a) ↔ post a := Iff.rfl

@[simp]
theorem error_iff {e : ε} : Ends post stop (Except.error e : Except ε α) ↔ stop e := Iff.rfl

/-- A returned value meets the postcondition. -/
theorem of_ok (ends : Ends post stop result) {a : α} (returns : result = .ok a) : post a := by
  simpa [returns] using ends

/-- A reason to stop is one of the admitted reasons. -/
theorem of_error (ends : Ends post stop result) {e : ε} (stops : result = .error e) : stop e := by
  simpa [stops] using ends

theorem trivial (result : Except ε α) : Ends (fun _ => True) (fun _ => True) result := by
  cases result <;> exact True.intro

theorem mono (ends : Ends post stop result) (returned : ∀ a, result = .ok a → post a → post' a)
    (stopped : ∀ e, stop e → stop' e) : Ends post' stop' result := by
  cases result with
  | ok a => exact returned a rfl ends
  | error e => exact stopped e ends

/-- The rule of sequencing. -/
theorem bind {mid : α → Prop} {after : β → Prop} {next : α → Except ε β}
    (first : Ends mid stop result) (second : ∀ a, mid a → Ends after stop (next a)) :
    Ends after stop (result >>= next) := by
  cases result with
  | ok a => exact second a first
  | error e => exact first

end Ends

end QuashLabs.Checked
