import Mathlib.Data.List.Basic
import Mathlib.Logic.Function.Basic

/-!
# How many threads stand at a program location

Token accounting needs the number of threads at each program location. The
threads of a family are numbered from zero; a location map gives the place of
each of them, and only the first `count` numbers belong to the family.
-/

namespace QuashLabs.Transition

universe u

variable {L : Type u} [DecidableEq L]

/-- The number of threads below `count` that stand at `place`. -/
def occupancy (location : Nat → L) (place : L) : Nat → Nat
  | 0 => 0
  | count + 1 => occupancy location place count + if location count = place then 1 else 0

variable {location : Nat → L} {count thread : Nat} {old new place : L}

theorem occupancy_update_of_le (outside : count ≤ thread) :
    occupancy (Function.update location thread new) place count =
      occupancy location place count := by
  induction count with
  | zero => rfl
  | succ count ih =>
      have distinct : count ≠ thread := by omega
      simp only [occupancy, ih (by omega), Function.update_of_ne distinct]

/-- Moving one thread takes one from its old place and adds one to its new place. -/
theorem occupancy_update (inside : thread < count) :
    occupancy (Function.update location thread new) place count +
        (if location thread = place then 1 else 0) =
      occupancy location place count + if new = place then 1 else 0 := by
  induction count with
  | zero => omega
  | succ count ih =>
      simp only [occupancy]
      by_cases last : thread = count
      · subst thread
        rw [occupancy_update_of_le (Nat.le_refl count), Function.update_self]
        omega
      · have before := ih (by omega)
        rw [Function.update_of_ne (Ne.symm last)]
        omega

/-- The count after a move, for a thread whose old place is known. -/
theorem occupancy_move (inside : thread < count) (stands : location thread = old) (new place : L) :
    occupancy (Function.update location thread new) place count + (if old = place then 1 else 0) =
      occupancy location place count + if new = place then 1 else 0 := by
  have moved : occupancy (Function.update location thread new) place count +
      (if location thread = place then 1 else 0) =
        occupancy location place count + if new = place then 1 else 0 := occupancy_update inside
  rwa [stands] at moved

/-- A thread that stands at a place is counted there. -/
theorem occupancy_pos (inside : thread < count) (stands : location thread = place) :
    0 < occupancy location place count := by
  induction count with
  | zero => omega
  | succ count ih =>
      simp only [occupancy]
      by_cases last : thread = count
      · subst thread
        simp [stands]
      · have before := ih (by omega)
        omega

theorem occupancy_le (location : Nat → L) (place : L) (count : Nat) :
    occupancy location place count ≤ count := by
  induction count with
  | zero => exact Nat.le_refl 0
  | succ count ih =>
      simp only [occupancy]
      split <;> omega

theorem occupancy_eq_zero (absent : ∀ thread < count, location thread ≠ place) :
    occupancy location place count = 0 := by
  induction count with
  | zero => rfl
  | succ count ih =>
      simp only [occupancy, if_neg (absent count (by omega)), Nat.add_zero]
      exact ih fun thread inside => absent thread (by omega)

/-- A family all of whose threads stand at one place is counted there in full. -/
theorem occupancy_eq_count (all : ∀ thread < count, location thread = place) :
    occupancy location place count = count := by
  induction count with
  | zero => rfl
  | succ count ih =>
      simp only [occupancy, if_pos (all count (by omega))]
      rw [ih fun thread inside => all thread (by omega)]

/-! ## Families of which an initial part has moved -/

/-- The first `moved` threads stand at `new`, all others at `old`. -/
def splitAt (moved : Nat) (new old : L) : Nat → L :=
  fun thread => if thread < moved then new else old

omit [DecidableEq L] in
theorem splitAt_of_le {moved : Nat} (outside : moved ≤ thread) :
    splitAt moved new old thread = old :=
  if_neg (by omega)

omit [DecidableEq L] in
theorem splitAt_of_lt {moved : Nat} (inside : thread < moved) :
    splitAt moved new old thread = new :=
  if_pos inside

omit [DecidableEq L] in
/-- Moving the first thread of the rest enlarges the initial part. -/
theorem update_splitAt (moved : Nat) (new old : L) :
    Function.update (splitAt moved new old) moved new = splitAt (moved + 1) new old := by
  funext thread
  by_cases same : thread = moved
  · subst thread
    rw [Function.update_self, splitAt_of_lt (by omega)]
  · rw [Function.update_of_ne same]
    unfold splitAt
    by_cases inside : thread < moved
    · rw [if_pos inside, if_pos (by omega)]
    · rw [if_neg inside, if_neg (by omega)]

omit [DecidableEq L] in
/-- Moving the last thread of the initial part back shrinks it. -/
theorem update_splitAt_succ (moved : Nat) (new old : L) :
    Function.update (splitAt (moved + 1) new old) moved old = splitAt moved new old := by
  rw [← update_splitAt, Function.update_idem]
  exact Function.update_eq_self_iff.mpr (splitAt_of_le (Nat.le_refl moved)).symm

end QuashLabs.Transition
