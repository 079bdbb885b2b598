import QuashLabs.DiningPhilosophers.Table
import QuashLabs.Transition.Reachable

/-!
# The asymmetric solution

`dp_asymmetric.c`: every chopstick is a mutex; a philosopher with an even number
locks its left chopstick first, one with an odd number its right chopstick. The
atomic steps are each test of `Stop`, each lock and each unlock. An unlock releases
the mutex whoever has locked it, and in its shutdown `main` unlocks all of them.
-/

namespace QuashLabs.DiningPhilosophers.Asymmetric

open QuashLabs.Transition

/-- Where a philosopher stands: the next atomic step it will take. -/
inductive Place
  | testStop
  | lockFirst
  | lockSecond
  | eating
  | unlockFirst
  | unlockSecond
  | updateProgress
  | exited
  deriving Repr, DecidableEq

/-- The chopstick that a philosopher locks and unlocks first. -/
def firstChop (numPhils p : Nat) : Nat :=
  if p % 2 = 0 then leftChop p else rightChop numPhils p

/-- The chopstick that a philosopher locks and unlocks second. -/
def secondChop (numPhils p : Nat) : Nat :=
  if p % 2 = 0 then rightChop numPhils p else leftChop p

/-- Who has locked each chopstick, the places of the philosophers and what they share
with `main`. -/
structure State where
  chopstick : Nat → Option Nat
  place : Nat → Place
  accounting : Accounting

/-- The state behind `set_table`. -/
def initialState : State where
  chopstick := fun _ => none
  place := fun _ => .testStop
  accounting := .start

/-- Philosopher `p` goes on at its next place. -/
def State.move (s : State) (p : Nat) (place : Place) : State :=
  { s with place := Function.update s.place p place }

/-- `pthread_mutex_lock` by philosopher `p`, which goes on at `place`. -/
def lock (p c : Nat) (place : Place) (s : State) : Option State :=
  if s.chopstick c = none then
    some ({ s with chopstick := Function.update s.chopstick c (some p) }.move p place)
  else none

/-- `pthread_mutex_unlock`. -/
def unlock (c : Nat) (s : State) : State :=
  { s with chopstick := Function.update s.chopstick c none }

/-- One atomic step of `dp_thread`. -/
def philosopherStep (numPhils p : Nat) (s : State) : Option State :=
  match s.place p with
  | .testStop => some (s.move p (if s.accounting.stop then .exited else .lockFirst))
  | .lockFirst => lock p (firstChop numPhils p) .lockSecond s
  | .lockSecond => lock p (secondChop numPhils p) .eating s
  | .eating => some (s.move p .unlockFirst)
  | .unlockFirst => some ((unlock (firstChop numPhils p) s).move p .unlockSecond)
  | .unlockSecond => some ((unlock (secondChop numPhils p) s).move p .updateProgress)
  | .updateProgress => some ({ s with accounting := s.accounting.progress p }.move p .testStop)
  | .exited => none

/-- One step of `main`: behind its loop it sets `Stop`, unlocks every chopstick and
joins the philosophers. -/
def mainStep (numPhils : Nat) (s : State) : Option State :=
  match s.accounting.main with
  | .unlock i =>
      if i < numPhils then
        some { unlock i s with accounting := { s.accounting with main := .unlock (i + 1) } }
      else some { s with accounting := { s.accounting with main := .join 0 } }
  | _ =>
      (s.accounting.step numPhils (.unlock 0) fun p => s.place p == .exited).map fun accounting =>
        { s with accounting := accounting }

/-- Who moves. -/
inductive Event
  | philosopher (p : Nat)
  | main
  deriving Repr, DecidableEq

/-- The program with `numPhils` philosophers. -/
def step (numPhils : Nat) : LabelledStep Event State
  | .philosopher p, s => if p < numPhils then philosopherStep numPhils p s else none
  | .main, s => mainStep numPhils s

/-- The number of chopsticks that the shutdown has unlocked. -/
def unlockedByMain (numPhils : Nat) : MainPlace → Nat
  | .unlock i => i
  | .join _ | .returned => numPhils
  | _ => 0

end QuashLabs.DiningPhilosophers.Asymmetric
