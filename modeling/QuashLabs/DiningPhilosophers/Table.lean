import Mathlib.Logic.Function.Basic

/-!
# The table of laboratory 6

The parts that the programs of the laboratory share: the ring of `numPhils`
philosophers with one chopstick between two neighbours, and the loop in which `main`
watches their progress before it stops them. The loop comes to its end after so many
steps of `main`. The number of philosophers is a parameter; indices below it belong to
the table.
-/

namespace QuashLabs.DiningPhilosophers

/-! ## The ring -/

/-- `left_phil`. -/
def leftPhil (numPhils p : Nat) : Nat :=
  if p = numPhils - 1 then 0 else p + 1

/-- `right_phil`. -/
def rightPhil (numPhils p : Nat) : Nat :=
  if p = 0 then numPhils - 1 else p - 1

/-- `left_chop` and `left_chop_available`. -/
def leftChop (p : Nat) : Nat := p

/-- `right_chop` and `right_chop_available`; `NUM_CHOPS` is `NUM_PHILS`. -/
def rightChop (numPhils p : Nat) : Nat :=
  if p = 0 then numPhils - 1 else p - 1

variable {numPhils p q : Nat}

theorem leftPhil_lt (seated : p < numPhils) : leftPhil numPhils p < numPhils := by
  unfold leftPhil
  split <;> omega

theorem rightPhil_lt (seated : p < numPhils) : rightPhil numPhils p < numPhils := by
  unfold rightPhil
  split <;> omega

theorem rightChop_lt (seated : p < numPhils) : rightChop numPhils p < numPhils := by
  unfold rightChop
  split <;> omega

/-- A chopstick lies between its philosopher and the left neighbour. -/
theorem rightChop_eq_iff (seated : p < numPhils) (other : q < numPhils) :
    rightChop numPhils p = q ↔ p = leftPhil numPhils q := by
  unfold rightChop leftPhil
  split <;> split <;> omega

@[simp]
theorem rightChop_leftPhil (seated : p < numPhils) :
    rightChop numPhils (leftPhil numPhils p) = p :=
  (rightChop_eq_iff (leftPhil_lt seated) seated).mpr rfl

@[simp]
theorem leftPhil_rightChop (seated : p < numPhils) :
    leftPhil numPhils (rightChop numPhils p) = p :=
  ((rightChop_eq_iff seated (rightChop_lt seated)).mp rfl).symm

theorem leftPhil_ne (two : 2 ≤ numPhils) (p : Nat) : leftPhil numPhils p ≠ p := by
  unfold leftPhil
  split <;> omega

theorem rightChop_ne (two : 2 ≤ numPhils) (p : Nat) : rightChop numPhils p ≠ p := by
  unfold rightChop
  split <;> omega

/-- Philosophers that are not neighbours share no chopstick. -/
theorem chops_apart (seated : p < numPhils) (other : q < numPhils) (different : q ≠ p)
    (notLeft : q ≠ leftPhil numPhils p) (notRight : q ≠ rightPhil numPhils p) :
    (leftChop q ≠ p ∧ leftChop q ≠ rightChop numPhils p) ∧
      rightChop numPhils q ≠ p ∧ rightChop numPhils q ≠ rightChop numPhils p := by
  refine ⟨⟨different, notRight⟩, ?_, ?_⟩
  · rw [Ne, rightChop_eq_iff other seated]
    exact notLeft
  · rw [Ne, rightChop_eq_iff other (rightChop_lt seated), leftPhil_rightChop seated]
    exact different

/-! ## The loop of `main` -/

/-- `ITERATION_LIMIT`. -/
def iterationLimit : Nat := 10

/-- Where `main` stands. The places from `setStop` on are its shutdown; `unlock i`
exists in `dp_asymmetric.c` only. -/
inductive MainPlace
  | resetProg (iter i : Nat)
  | checkProg (iter i : Nat) (deadlock : Bool)
  | setStop
  | unlock (i : Nat)
  | join (i : Nat)
  | returned
  deriving Repr, DecidableEq

/-- What `main` shares with the philosophers besides the chopsticks, and its place. -/
structure Accounting where
  prog : Nat → Nat
  stop : Bool
  main : MainPlace

/-- `main` behind `set_table`. -/
def Accounting.start : Accounting where
  prog := fun _ => 0
  stop := false
  main := .resetProg 0 0

/-- One step of `main`, which goes on at `afterStop` once `Stop` is set. The sleep
between the two loops takes any time. -/
def Accounting.step (numPhils : Nat) (afterStop : MainPlace) (exited : Nat → Bool)
    (a : Accounting) : Option Accounting :=
  match a.main with
  | .resetProg iter i =>
      if i < numPhils then
        some { a with prog := Function.update a.prog i 0, main := .resetProg iter (i + 1) }
      else some { a with main := .checkProg iter 0 true }
  | .checkProg iter i deadlock =>
      if i < numPhils then
        some { a with main := .checkProg iter (i + 1) (deadlock && a.prog i == 0) }
      else if deadlock = false ∧ iter + 1 < iterationLimit then
        some { a with main := .resetProg (iter + 1) 0 }
      else some { a with main := .setStop }
  | .setStop => some { a with stop := true, main := afterStop }
  | .unlock _ => none
  | .join i =>
      if i < numPhils then
        if exited i then some { a with main := .join (i + 1) } else none
      else some { a with main := .returned }
  | .returned => none

/-- `me->prog++`. -/
def Accounting.progress (a : Accounting) (p : Nat) : Accounting :=
  { a with prog := Function.update a.prog p (a.prog p + 1) }

/-! ## The end of `main` -/

/-- `main` has set `Stop`. -/
def MainPlace.inShutdown : MainPlace → Bool
  | .unlock _ | .join _ | .returned => true
  | _ => false

/-- The most steps that `main` still takes from its place: the rounds of its loop, each with
two passes over the philosophers, and the two passes of the shutdown. -/
def MainPlace.remaining (numPhils : Nat) : MainPlace → Nat
  | .resetProg iter i =>
      (iterationLimit - 1 - iter) * (2 * (numPhils + 1)) + (numPhils - i) + (numPhils + 3) +
        2 * (numPhils + 1)
  | .checkProg iter i _ =>
      (iterationLimit - 1 - iter) * (2 * (numPhils + 1)) + (numPhils - i) + 2 +
        2 * (numPhils + 1)
  | .setStop => 1 + 2 * (numPhils + 1)
  | .unlock i => numPhils - i + 1 + (numPhils + 1)
  | .join i => numPhils - i + 1
  | .returned => 0

variable {afterStop : MainPlace} {exited : Nat → Bool} {a b : Accounting}

/-- What a step of `main` does to the flag and to its own place. -/
theorem Accounting.step_effect (moved : a.step numPhils afterStop exited = some b)
    (later : afterStop.remaining numPhils < MainPlace.setStop.remaining numPhils)
    (shutdown : afterStop.inShutdown = true) :
    b.main.remaining numPhils < a.main.remaining numPhils ∧
      (a.stop = a.main.inShutdown → b.stop = b.main.inShutdown) := by
  unfold Accounting.step at moved
  cases stands : a.main with
  | resetProg iter i =>
      simp only [stands] at moved
      split at moved
      · cases moved
        refine ⟨?_, id⟩
        simp only [MainPlace.remaining]
        omega
      · cases moved
        refine ⟨?_, id⟩
        simp only [MainPlace.remaining]
        omega
  | checkProg iter i deadlock =>
      simp only [stands] at moved
      split at moved
      · cases moved
        refine ⟨?_, id⟩
        simp only [MainPlace.remaining]
        omega
      · split at moved
        · rename_i goesOn
          cases moved
          refine ⟨?_, id⟩
          -- A round less is left.
          obtain ⟨left, rounds⟩ : ∃ left, iterationLimit - 1 - iter = left + 1 :=
            ⟨iterationLimit - 2 - iter, by have := goesOn.2; omega⟩
          have fewer : iterationLimit - 1 - (iter + 1) = left := by omega
          simp only [MainPlace.remaining, rounds, fewer, Nat.succ_mul]
          omega
        · cases moved
          refine ⟨?_, id⟩
          simp only [MainPlace.remaining]
          omega
  | setStop =>
      simp only [stands] at moved
      cases moved
      exact ⟨later, fun _ => shutdown.symm⟩
  | unlock i =>
      simp only [stands] at moved
      contradiction
  | join i =>
      simp only [stands] at moved
      split at moved
      · split at moved
        · cases moved
          refine ⟨?_, id⟩
          simp only [MainPlace.remaining]
          omega
        · contradiction
      · cases moved
        refine ⟨?_, id⟩
        simp only [MainPlace.remaining]
        omega
  | returned =>
      simp only [stands] at moved
      contradiction

/-- A step gets to an unlock only where the shutdown begins with one. -/
theorem Accounting.not_unlock_of_step (notFirst : ∀ i, afterStop ≠ .unlock i)
    (moved : a.step numPhils afterStop exited = some b) : ∀ i, b.main ≠ .unlock i := by
  unfold Accounting.step at moved
  cases stands : a.main with
  | setStop =>
      simp only [stands] at moved
      cases moved
      exact notFirst
  | unlock i =>
      simp only [stands] at moved
      contradiction
  | returned =>
      simp only [stands] at moved
      contradiction
  | _ =>
      simp only [stands] at moved
      grind

/-- Before it sets `Stop`, `main` can step. -/
theorem Accounting.exists_step (running : a.main.inShutdown = false) :
    ∃ b, a.step numPhils afterStop exited = some b := by
  unfold Accounting.step
  cases stands : a.main with
  | resetProg iter i => exact ⟨_, (apply_ite some _ _ _).symm⟩
  | checkProg iter i deadlock =>
      simp only [← apply_ite some]
      exact ⟨_, rfl⟩
  | setStop => exact ⟨_, rfl⟩
  | _ => simp [stands, MainPlace.inShutdown] at running

/-- Once all philosophers have exited, `main` is held up at its unlocks only. -/
theorem Accounting.returned_of_blocked (all : ∀ i < numPhils, exited i = true)
    (notUnlock : ∀ i, a.main ≠ .unlock i)
    (blocked : a.step numPhils afterStop exited = none) : a.main = .returned := by
  have shutdown : a.main.inShutdown = true := by
    by_contra running
    obtain ⟨b, moved⟩ : ∃ b, a.step numPhils afterStop exited = some b :=
      exists_step (Bool.eq_false_iff.mpr running)
    rw [blocked] at moved
    cases moved
  unfold Accounting.step at blocked
  cases stands : a.main with
  | join i =>
      simp only [stands] at blocked
      split at blocked
      · rename_i inside
        simp [all i inside] at blocked
      · contradiction
  | unlock i => exact absurd stands (notUnlock i)
  | returned => rfl
  | _ => simp [stands, MainPlace.inShutdown] at shutdown

end QuashLabs.DiningPhilosophers
