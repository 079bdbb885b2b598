import QuashLabs.DiningPhilosophers.Asymmetric.Ownership

/-!
# Eating during the shutdown

`main` unlocks every chopstick once `Stop` is set, so that philosophers can exit even
if they are deadlocked, and does so whoever holds them. A philosopher that eats at
that time loses its chopsticks, and a neighbour that has passed the test of `Stop`
may take them. Over a chopstick that the shutdown has not reached, neighbours still
exclude each other.
-/

namespace QuashLabs.DiningPhilosophers.Asymmetric

open QuashLabs.Transition

variable {numPhils p c : Nat} {s : State}

/-- No two neighbours eat at the same time. -/
def NeighboursExclude (numPhils : Nat) (s : State) : Prop :=
  ∀ p < numPhils, ¬(s.place p = .eating ∧ s.place (leftPhil numPhils p) = .eating)

/-- The next step of philosopher `p` unlocks chopstick `c`. -/
def Unlocks (numPhils : Nat) (s : State) (p c : Nat) : Prop :=
  s.place p = .unlockFirst ∧ c = firstChop numPhils p ∨
    s.place p = .unlockSecond ∧ c = secondChop numPhils p

/-- A philosopher that unlocks a chopstick holds it. -/
def UnlocksOwn (numPhils : Nat) (s : State) : Prop :=
  ∀ p < numPhils, ∀ c, Unlocks numPhils s p c → s.chopstick c = some p

/-- Over chopstick `c` the two neighbours exclude each other, and only its holder
unlocks it. -/
def SafeOver (numPhils : Nat) (s : State) (c : Nat) : Prop :=
  ¬(s.place c = .eating ∧ s.place (leftPhil numPhils c) = .eating) ∧
    ∀ p < numPhils, Unlocks numPhils s p c → s.chopstick c = some p

/-! ## Chopsticks that the shutdown has not reached -/

/-- A philosopher that eats or is about to unlock holds the chopstick. -/
theorem Owned.locked (owned : Owned numPhils s) (inside : c < numPhils)
    (ahead : unlockedByMain numPhils s.accounting.main ≤ c) (seated : p < numPhils)
    (uses : s.place p = .eating ∧ (c = leftChop p ∨ c = rightChop numPhils p) ∨
      Unlocks numPhils s p c) : s.chopstick c = some p := by
  refine (owned c inside ahead p).mpr ⟨seated, ?_⟩
  rcases uses with ⟨eats, mine⟩ | ⟨unlocks, rfl⟩ | ⟨unlocks, rfl⟩
  · rw [eats]
    exact (chop_cases numPhils p c).mpr mine
  · rw [unlocks]
    exact .inl rfl
  · rw [unlocks]
    exact rfl

theorem Owned.safeOver (two : 2 ≤ numPhils) (owned : Owned numPhils s) (inside : c < numPhils)
    (ahead : unlockedByMain numPhils s.accounting.main ≤ c) : SafeOver numPhils s c := by
  constructor
  · rintro ⟨eats, leftEats⟩
    have mine := owned.locked inside ahead inside (.inl ⟨eats, .inl rfl⟩)
    have theirs := owned.locked inside ahead (leftPhil_lt inside)
      (.inl ⟨leftEats, .inr (rightChop_leftPhil inside).symm⟩)
    exact leftPhil_ne two c (Option.some.inj (theirs.symm.trans mine))
  · exact fun p seated unlocks => owned.locked inside ahead seated (.inr unlocks)

/-- In every run, over every chopstick that the shutdown has not unlocked, neighbours do
not eat at the same time and only the holder unlocks. -/
theorem safe_until_unlocked (two : 2 ≤ numPhils) :
    Always (step numPhils)
      (fun s => ∀ c < numPhils, unlockedByMain numPhils s.accounting.main ≤ c →
        SafeOver numPhils s c)
      initialState := by
  intro s reachable c inside ahead
  exact (owned_of_reachable two reachable).safeOver two inside ahead

/-- The program as it is built, with five philosophers. -/
theorem safe_until_unlocked_five :
    Always (step 5)
      (fun s => ∀ c < 5, unlockedByMain 5 s.accounting.main ≤ c → SafeOver 5 s c)
      initialState :=
  safe_until_unlocked (by decide)

/-! ## Behind the shutdown -/

/-- Philosopher `0` eats and philosopher `1` has passed the test of `Stop`; `main` ends
its loop after one period without progress and unlocks chopstick `0`, which philosopher
`1` then locks. -/
def shutdownSchedule : List Event :=
  [.philosopher 0, .philosopher 0, .philosopher 0, .philosopher 1] ++ List.replicate 14 .main ++
    [.philosopher 1, .philosopher 1]

/-- Five philosophers neither exclude each other nor unlock only what they hold. -/
theorem shutdown_unsafe :
    ¬ Always (step 5) (NeighboursExclude 5) initialState ∧
      ¬ Always (step 5) (UnlocksOwn 5) initialState := by
  constructor
  · intro exclude
    have eat : (runLabels (step 5) shutdownSchedule initialState).map
        (fun s => (s.place 0, s.place 1)) = some (.eating, .eating) := by
      decide
    rcases Option.map_eq_some_iff.mp eat with ⟨s, runs, places⟩
    have both : s.place 0 = .eating ∧ s.place 1 = .eating := by simpa using places
    exact exclude s (.of_runLabels runs) 0 (by decide) both
  · intro own
    have unlock : (runLabels (step 5) (shutdownSchedule ++ [.philosopher 0]) initialState).map
        (fun s => (s.place 0, s.chopstick 0)) = some (.unlockFirst, some 1) := by
      decide
    rcases Option.map_eq_some_iff.mp unlock with ⟨s, runs, reads⟩
    have before : s.place 0 = .unlockFirst ∧ s.chopstick 0 = some 1 := by simpa using reads
    have holds := own s (.of_runLabels runs) 0 (by decide) 0 (.inl ⟨before.1, rfl⟩)
    cases holds.symm.trans before.2

end QuashLabs.DiningPhilosophers.Asymmetric
