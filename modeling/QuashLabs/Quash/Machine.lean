import Mathlib.Algebra.Group.Int.Defs
import Mathlib.Algebra.Group.Nat.Defs

/-!
# The machine under the shell

The ways in which a function of the shell can end other than by returning, and
the arithmetic of `size_t` on a machine with 64-bit words. What the language
leaves undefined (an access outside an object, a read of storage that was never
written, a division by zero) ends the program with a failure of its own.
-/

namespace QuashLabs.Quash

/-- The ways a function fails to return. `abort` and `exit` carry the text that
is printed before them; `unfinished` is a loop that was cut off while running. -/
inductive Failure
  | assertion
  | abort (message : String)
  | exit (status : Int) (message : String)
  | outOfBounds
  | uninitialised
  | divisionByZero
  | signedOverflow
  | unfinished
  deriving Repr, DecidableEq

/-- The number of values of a `size_t`. -/
def sizeRange : Nat := 2 ^ 64

/-- `a + b` in `size_t`. -/
def addSize (a b : Nat) : Nat := (a + b) % sizeRange

/-- `a - b` in `size_t`. -/
def subSize (a b : Nat) : Nat := (a + (sizeRange - b)) % sizeRange

/-- `a * b` in `size_t`. -/
def mulSize (a b : Nat) : Nat := (a * b) % sizeRange

/-- `a % b` in `size_t`. -/
def modSize (a b : Nat) : Except Failure Nat :=
  if b = 0 then .error .divisionByZero else .ok (a % b)

/-- A `size_t` stored in an `int`. -/
def intOfSize (n : Nat) : Int :=
  if n % 2 ^ 32 < 2 ^ 31 then n % 2 ^ 32 else (n % 2 ^ 32 : Int) - 2 ^ 32

/-- `i + 1` for a nonnegative `int`. -/
def incInt (i : Nat) : Except Failure Nat :=
  if i + 1 < 2 ^ 31 then .ok (i + 1) else .error .signedOverflow

theorem intOfSize_eq {n : Nat} (small : n < 2 ^ 31) : intOfSize n = n := by
  unfold intOfSize
  rw [Nat.mod_eq_of_lt (by omega), if_pos small]
  omega

@[simp]
theorem incInt_eq {i : Nat} (small : i + 1 < 2 ^ 31) : incInt i = .ok (i + 1) :=
  if_pos small

theorem addSize_eq {a b : Nat} (fits : a + b < sizeRange) : addSize a b = a + b :=
  Nat.mod_eq_of_lt fits

theorem mulSize_eq {a b : Nat} (fits : a * b < sizeRange) : mulSize a b = a * b :=
  Nat.mod_eq_of_lt fits

theorem subSize_eq {a b : Nat} (less : b ≤ a) (fits : a < sizeRange) : subSize a b = a - b := by
  unfold subSize
  rw [← Nat.add_sub_assoc (by omega), Nat.sub_add_comm less, Nat.add_mod_right,
    Nat.mod_eq_of_lt (by omega)]

@[simp]
theorem modSize_eq {a b : Nat} (nonzero : 0 < b) : modSize a b = .ok (a % b) := by
  simp [modSize, Nat.ne_of_gt nonzero]

end QuashLabs.Quash
