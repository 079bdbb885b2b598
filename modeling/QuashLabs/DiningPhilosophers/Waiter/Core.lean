import QuashLabs.DiningPhilosophers.Table
import QuashLabs.Transition.Reachable

/-!
# The waiter solution

`dp_waiter.c` and `dp_waiter_opt.c`: a philosopher takes and releases its chopsticks
in critical sections under the mutex `waiter`. All accesses to the flags and all
signals are inside these sections, so each section is one atomic step; a wait ends a
section, and the wake-up from it opens the next one, which tests the flags again. On
`can_eat` of a philosopher only this philosopher waits.
-/

namespace QuashLabs.DiningPhilosophers.Waiter

open QuashLabs.Transition

/-- Where a philosopher stands: the next atomic step it will take. -/
inductive Place
  /-- At `while (!Stop)`. -/
  | testStop
  /-- Before the section that takes the chopsticks. -/
  | hungry
  /-- Asleep in `pthread_cond_wait`, and not signalled. -/
  | waiting
  /-- Woken in `pthread_cond_wait`, before it has the mutex again. -/
  | woken
  /-- Between the section that takes the chopsticks and the one that releases them. -/
  | eating
  /-- At the counters behind the release. -/
  | updateProgress
  | exited
  deriving Repr, DecidableEq

/-- The two programs: `dp_waiter_opt.c` counts the waits and signals its left
neighbour first. -/
inductive Program
  | dpWaiter
  | dpWaiterOpt
  deriving Repr, DecidableEq

/-- The flags of the chopsticks, the counts of waits, the places of the philosophers
and what they share with `main`. -/
structure State where
  availableChopsticks : Nat → Nat
  count : Nat → Nat
  place : Nat → Place
  accounting : Accounting

/-- The state behind `set_table`. -/
def initialState : State where
  availableChopsticks := fun _ => 1
  count := fun _ => 0
  place := fun _ => .testStop
  accounting := .start

/-- `pthread_cond_signal(&p->can_eat)`: without a sleeper it has no effect. -/
def signal (place : Nat → Place) (p : Nat) : Nat → Place :=
  if place p = .waiting then Function.update place p .woken else place

/-- The two signals of a release. -/
def signalNeighbours (program : Program) (numPhils : Nat) (place : Nat → Place) (p : Nat) :
    Nat → Place :=
  match program with
  | .dpWaiter => signal (signal place (rightPhil numPhils p)) (leftPhil numPhils p)
  | .dpWaiterOpt => signal (signal place (leftPhil numPhils p)) (rightPhil numPhils p)

/-- Both flags of a philosopher set to `value`, the left one first. -/
def markChopsticks (numPhils : Nat) (available : Nat → Nat) (p value : Nat) : Nat → Nat :=
  Function.update (Function.update available (leftChop p) value) (rightChop numPhils p) value

/-- `me->count++` behind a wait, in `dp_waiter_opt.c`. -/
def countWait (program : Program) (p : Nat) (s : State) : State :=
  match program with
  | .dpWaiter => s
  | .dpWaiterOpt => { s with count := Function.update s.count p (s.count p + 1) }

/-- The section that takes the chopsticks, from the test of the flags up to its end or to
the next wait. -/
def takeSection (numPhils p : Nat) (s : State) : State :=
  if s.availableChopsticks (leftChop p) ≠ 1 ∧ s.availableChopsticks (rightChop numPhils p) ≠ 1 then
    { s with place := Function.update s.place p .waiting }
  else
    { s with
      availableChopsticks := markChopsticks numPhils s.availableChopsticks p 0
      place := Function.update s.place p .eating }

/-- The section that releases the chopsticks. -/
def releaseSection (program : Program) (numPhils p : Nat) (s : State) : State :=
  { s with
    availableChopsticks := markChopsticks numPhils s.availableChopsticks p 1
    place := signalNeighbours program numPhils (Function.update s.place p .updateProgress) p }

/-- One atomic step of `dp_thread`. -/
def philosopherStep (program : Program) (numPhils p : Nat) (s : State) : Option State :=
  match s.place p with
  | .testStop =>
      if s.accounting.stop then some { s with place := Function.update s.place p .exited }
      else some { s with place := Function.update s.place p .hungry }
  | .hungry => some (takeSection numPhils p s)
  | .waiting => none
  | .woken => some (takeSection numPhils p (countWait program p s))
  | .eating => some (releaseSection program numPhils p s)
  | .updateProgress =>
      some { s with
        place := Function.update s.place p .testStop
        accounting := s.accounting.progress p }
  | .exited => none

/-- A wake-up without a signal. -/
def spuriousWakeUp (p : Nat) (s : State) : Option State :=
  if s.place p = .waiting then some { s with place := Function.update s.place p .woken } else none

/-- One step of `main`, which goes to its joins once `Stop` is set. -/
def mainStep (numPhils : Nat) (s : State) : Option State :=
  (s.accounting.step numPhils (.join 0) fun p => s.place p == .exited).map fun accounting =>
    { s with accounting := accounting }

/-- Who moves. -/
inductive Event
  | philosopher (p : Nat)
  | spurious (p : Nat)
  | main
  deriving Repr, DecidableEq

/-- The program with `numPhils` philosophers. -/
def step (program : Program) (numPhils : Nat) : LabelledStep Event State
  | .philosopher p, s => if p < numPhils then philosopherStep program numPhils p s else none
  | .spurious p, s => if p < numPhils then spuriousWakeUp p s else none
  | .main, s => mainStep numPhils s

/-! ## What one step can do -/

variable {program : Program} {numPhils p : Nat} {s t : State}

/-- What an enabled step does to the flags and the places, with the guard of its branch. -/
inductive Effect (program : Program) (numPhils : Nat) (s t : State) : Prop
  | main (flags : t.availableChopsticks = s.availableChopsticks) (places : t.place = s.place)
  | quiet (p : Nat) (seated : p < numPhils) (place : Place) (before : s.place p ≠ .eating)
      (after : place ≠ .waiting ∧ place ≠ .eating)
      (flags : t.availableChopsticks = s.availableChopsticks)
      (places : t.place = Function.update s.place p place)
  | waits (p : Nat) (seated : p < numPhils) (stands : s.place p = .hungry ∨ s.place p = .woken)
      (taken : s.availableChopsticks (leftChop p) ≠ 1 ∧
        s.availableChopsticks (rightChop numPhils p) ≠ 1)
      (flags : t.availableChopsticks = s.availableChopsticks)
      (places : t.place = Function.update s.place p .waiting)
  | takes (p : Nat) (seated : p < numPhils) (stands : s.place p = .hungry ∨ s.place p = .woken)
      (free : s.availableChopsticks (leftChop p) = 1 ∨
        s.availableChopsticks (rightChop numPhils p) = 1)
      (flags : t.availableChopsticks = markChopsticks numPhils s.availableChopsticks p 0)
      (places : t.place = Function.update s.place p .eating)
  | releases (p : Nat) (seated : p < numPhils) (stands : s.place p = .eating)
      (flags : t.availableChopsticks = markChopsticks numPhils s.availableChopsticks p 1)
      (places : t.place =
        signalNeighbours program numPhils (Function.update s.place p .updateProgress) p)

/-- The counts of the waits have no part in the section. -/
theorem takeSection_effect {s' : State} (seated : p < numPhils)
    (stands : s.place p = .hungry ∨ s.place p = .woken)
    (flags : s'.availableChopsticks = s.availableChopsticks) (places : s'.place = s.place) :
    Effect program numPhils s (takeSection numPhils p s') := by
  unfold takeSection
  rw [flags, places]
  split
  · rename_i taken
    exact .waits p seated stands taken rfl rfl
  · rename_i free
    exact .takes p seated stands (by omega) rfl rfl

theorem philosopherStep_effect (seated : p < numPhils)
    (moved : philosopherStep program numPhils p s = some t) : Effect program numPhils s t := by
  unfold philosopherStep at moved
  cases stands : s.place p with
  | testStop =>
      simp only [stands] at moved
      split at moved
      · cases moved
        exact .quiet p seated .exited (by simp [stands]) (by decide) rfl rfl
      · cases moved
        exact .quiet p seated .hungry (by simp [stands]) (by decide) rfl rfl
  | hungry =>
      simp only [stands] at moved
      cases moved
      exact takeSection_effect seated (.inl stands) rfl rfl
  | waiting =>
      simp only [stands] at moved
      contradiction
  | woken =>
      simp only [stands] at moved
      cases moved
      apply takeSection_effect seated (.inr stands) <;> cases program <;> rfl
  | eating =>
      simp only [stands] at moved
      cases moved
      exact .releases p seated stands rfl rfl
  | updateProgress =>
      simp only [stands] at moved
      cases moved
      exact .quiet p seated .testStop (by simp [stands]) (by decide) rfl rfl
  | exited =>
      simp only [stands] at moved
      contradiction

/-- Every enabled step is one of the listed effects. -/
theorem step_effect {event : Event} (moved : step program numPhils event s = some t) :
    Effect program numPhils s t := by
  cases event with
  | philosopher p =>
      by_cases seated : p < numPhils
      · exact philosopherStep_effect seated (by simpa [step, seated] using moved)
      · simp [step, seated] at moved
  | spurious p =>
      by_cases seated : p < numPhils
      · simp only [step, if_pos seated, spuriousWakeUp] at moved
        split at moved
        · rename_i stands
          cases moved
          exact .quiet p seated .woken (by simp [stands]) (by decide) rfl rfl
        · contradiction
      · simp [step, seated] at moved
  | main =>
      rcases Option.map_eq_some_iff.mp moved with ⟨accounting, -, rfl⟩
      exact .main rfl rfl

theorem step_philosopher (seated : p < numPhils) :
    step program numPhils (.philosopher p) s = philosopherStep program numPhils p s :=
  if_pos seated

/-- A philosopher can step unless it sleeps or has exited. -/
theorem exists_philosopherStep (awake : s.place p ≠ .waiting) (stays : s.place p ≠ .exited) :
    ∃ t, philosopherStep program numPhils p s = some t := by
  unfold philosopherStep
  cases stands : s.place p with
  | waiting => exact absurd stands awake
  | exited => exact absurd stands stays
  | testStop => cases s.accounting.stop <;> exact ⟨_, rfl⟩
  | _ => exact ⟨_, rfl⟩

/-- The signals of a release wake the neighbours that sleep and nobody else. -/
theorem signalNeighbours_apply (place : Nat → Place) (q : Nat) :
    signalNeighbours program numPhils place p q =
      if place q = .waiting ∧ (q = leftPhil numPhils p ∨ q = rightPhil numPhils p) then .woken
      else place q := by
  have single (place : Nat → Place) (p : Nat) :
      signal place p q = if place q = .waiting ∧ q = p then .woken else place q := by
    unfold signal
    by_cases same : q = p
    · subst same
      split <;> simp [*]
    · split <;> simp [*]
  cases program <;> simp only [signalNeighbours, single] <;> grind

theorem markChopsticks_apply (available : Nat → Nat) (value c : Nat) :
    markChopsticks numPhils available p value c =
      if c = p ∨ c = rightChop numPhils p then value else available c := by
  unfold markChopsticks leftChop
  by_cases right : c = rightChop numPhils p
  · simp [right]
  · rw [Function.update_of_ne right, Function.update_apply]
    simp [right]

end QuashLabs.DiningPhilosophers.Waiter
