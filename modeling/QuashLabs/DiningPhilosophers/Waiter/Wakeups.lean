import QuashLabs.DiningPhilosophers.Waiter.Core

/-!
# No wake-up is lost

A chopstick flag is down only while one of its two philosophers eats, although the
other one may eat as well. A philosopher goes to sleep when both of its flags are
down, and whoever raises one of them signals it in the same section. So a sleeper
always has an eating neighbour, which will release and signal.
-/

namespace QuashLabs.DiningPhilosophers.Waiter

open QuashLabs.Transition

variable {program : Program} {numPhils p : Nat} {s t : State}

/-- The flags are those of eating philosophers, and sleepers have both flags down. -/
structure Accounted (numPhils : Nat) (s : State) : Prop where
  flag : ∀ c < numPhils, s.availableChopsticks c = 0 ∨ s.availableChopsticks c = 1
  eater : ∀ c < numPhils, s.availableChopsticks c = 0 →
    s.place c = .eating ∨ s.place (leftPhil numPhils c) = .eating
  sleeper : ∀ p < numPhils, s.place p = .waiting →
    s.availableChopsticks (leftChop p) = 0 ∧ s.availableChopsticks (rightChop numPhils p) = 0

theorem initialState_accounted (numPhils : Nat) : Accounted numPhils initialState where
  flag _ _ := .inr rfl
  eater _ _ down := by cases down
  sleeper _ _ asleep := by cases asleep

/-- Down flags keep their eaters while a philosopher moves that did not eat. -/
theorem Accounted.eater_update (accounted : Accounted numPhils s) {place : Place}
    (before : s.place p ≠ .eating) (flags : t.availableChopsticks = s.availableChopsticks)
    (places : t.place = Function.update s.place p place) :
    ∀ c < numPhils, t.availableChopsticks c = 0 →
      t.place c = .eating ∨ t.place (leftPhil numPhils c) = .eating := by
  intro c inside down
  rw [flags] at down
  have stillEats (q : Nat) (eats : s.place q = .eating) : t.place q = .eating := by
    rw [places, Function.update_of_ne (by rintro rfl; exact before eats), eats]
  exact (accounted.eater c inside down).imp (stillEats c) (stillEats _)

/-- A move of a philosopher that neither eats nor goes to sleep. -/
theorem Accounted.quiet (accounted : Accounted numPhils s) {place : Place}
    (before : s.place p ≠ .eating) (after : place ≠ .waiting)
    (flags : t.availableChopsticks = s.availableChopsticks)
    (places : t.place = Function.update s.place p place) : Accounted numPhils t := by
  refine ⟨flags ▸ accounted.flag, accounted.eater_update before flags places, ?_⟩
  intro q seated asleep
  rw [places] at asleep
  rw [flags]
  by_cases same : q = p
  · subst same
    rw [Function.update_self] at asleep
    exact absurd asleep after
  · rw [Function.update_of_ne same] at asleep
    exact accounted.sleeper q seated asleep

/-- A philosopher that finds both flags down goes to sleep. -/
theorem Accounted.waits (accounted : Accounted numPhils s) (seated : p < numPhils)
    (before : s.place p ≠ .eating)
    (taken : s.availableChopsticks (leftChop p) ≠ 1 ∧
      s.availableChopsticks (rightChop numPhils p) ≠ 1)
    (flags : t.availableChopsticks = s.availableChopsticks)
    (places : t.place = Function.update s.place p .waiting) : Accounted numPhils t := by
  refine ⟨flags ▸ accounted.flag, accounted.eater_update before flags places, ?_⟩
  intro q otherSeated asleep
  rw [places] at asleep
  rw [flags]
  by_cases same : q = p
  · subst same
    exact ⟨(accounted.flag _ seated).resolve_right taken.1,
      (accounted.flag _ (rightChop_lt seated)).resolve_right taken.2⟩
  · rw [Function.update_of_ne same] at asleep
    exact accounted.sleeper q otherSeated asleep

/-- A philosopher that takes its chopsticks eats. -/
theorem Accounted.takes (accounted : Accounted numPhils s) (seated : p < numPhils)
    (flags : t.availableChopsticks = markChopsticks numPhils s.availableChopsticks p 0)
    (places : t.place = Function.update s.place p .eating) : Accounted numPhils t := by
  have eats : t.place p = .eating := by rw [places, Function.update_self]
  have stillEats (q : Nat) (eats : s.place q = .eating) : t.place q = .eating := by
    rw [places, Function.update_apply]
    split
    · rfl
    · exact eats
  refine ⟨?_, ?_, ?_⟩
  · intro c inside
    rw [flags, markChopsticks_apply]
    split
    · exact .inl rfl
    · exact accounted.flag c inside
  · intro c inside down
    rw [flags, markChopsticks_apply] at down
    split at down
    · rename_i mine
      rcases mine with rfl | rfl
      · exact .inl eats
      · rw [leftPhil_rightChop seated]
        exact .inr eats
    · exact (accounted.eater c inside down).imp (stillEats c) (stillEats _)
  · intro q otherSeated asleep
    rw [places] at asleep
    have other : q ≠ p := by
      rintro rfl
      rw [Function.update_self] at asleep
      cases asleep
    rw [Function.update_of_ne other] at asleep
    have down := accounted.sleeper q otherSeated asleep
    simp only [flags, markChopsticks_apply, down, ite_self, and_self]

/-- A philosopher that releases its chopsticks wakes those that slept on them. -/
theorem Accounted.releases (accounted : Accounted numPhils s) (seated : p < numPhils)
    (flags : t.availableChopsticks = markChopsticks numPhils s.availableChopsticks p 1)
    (places : t.place =
      signalNeighbours program numPhils (Function.update s.place p .updateProgress) p) :
    Accounted numPhils t := by
  have place (q : Nat) (other : q ≠ p) : t.place q =
      if s.place q = .waiting ∧ (q = leftPhil numPhils p ∨ q = rightPhil numPhils p) then .woken
      else s.place q := by
    rw [places, signalNeighbours_apply, Function.update_of_ne other]
  have stillEats (q : Nat) (other : q ≠ p) (eats : s.place q = .eating) :
      t.place q = .eating := by
    rw [place q other, if_neg (by simp [eats]), eats]
  refine ⟨?_, ?_, ?_⟩
  · intro c inside
    rw [flags, markChopsticks_apply]
    split
    · exact .inr rfl
    · exact accounted.flag c inside
  · intro c inside down
    rw [flags, markChopsticks_apply] at down
    split at down
    · cases down
    · rename_i notMine
      rw [not_or] at notMine
      have left : leftPhil numPhils c ≠ p := by
        rintro rfl
        exact notMine.2 (rightChop_leftPhil inside).symm
      exact (accounted.eater c inside down).imp (stillEats c notMine.1) (stillEats _ left)
  · intro q otherSeated asleep
    have other : q ≠ p := by
      rintro rfl
      rw [places, signalNeighbours_apply, Function.update_self] at asleep
      simp at asleep
    rw [place q other] at asleep
    split at asleep
    · cases asleep
    · rename_i unsignalled
      have far : q ≠ leftPhil numPhils p ∧ q ≠ rightPhil numPhils p := by
        rw [not_and, not_or] at unsignalled
        exact unsignalled asleep
      have down := accounted.sleeper q otherSeated asleep
      have apart := chops_apart seated otherSeated other far.1 far.2
      simp [flags, markChopsticks_apply, apart, down]

theorem Accounted.effect (accounted : Accounted numPhils s)
    (effect : Effect program numPhils s t) : Accounted numPhils t := by
  cases effect with
  | main flags places =>
      rcases accounted with ⟨flag, eater, sleeper⟩
      rw [← flags, ← places] at *
      exact ⟨flag, eater, sleeper⟩
  | quiet p seated place before after flags places =>
      exact accounted.quiet before after.1 flags places
  | waits p seated stands taken flags places =>
      have before : s.place p ≠ .eating := by rcases stands with hungry | woken <;> simp [*]
      exact accounted.waits seated before taken flags places
  | takes p seated stands free flags places => exact accounted.takes seated flags places
  | releases p seated stands flags places => exact accounted.releases seated flags places

theorem accounted_of_reachable (reachable : Reachable (step program numPhils) initialState s) :
    Accounted numPhils s :=
  reachable.invariant (initialState_accounted numPhils) fun _ _ _ accounted moved =>
    accounted.effect (step_effect moved)

/-! ## Sleepers and progress -/

/-- Whoever sleeps without a signal has both flags down and an eating neighbour. -/
def SleepersWaitForEaters (numPhils : Nat) (s : State) : Prop :=
  ∀ p < numPhils, s.place p = .waiting →
    s.availableChopsticks (leftChop p) = 0 ∧ s.availableChopsticks (rightChop numPhils p) = 0 ∧
      (s.place (leftPhil numPhils p) = .eating ∨ s.place (rightPhil numPhils p) = .eating)

/-- While a philosopher has not exited, some philosopher has an enabled step. -/
def Progresses (program : Program) (numPhils : Nat) (s : State) : Prop :=
  (∃ p < numPhils, s.place p ≠ .exited) →
    ∃ p < numPhils, ∃ t, step program numPhils (.philosopher p) s = some t

theorem Accounted.sleepers (accounted : Accounted numPhils s) :
    SleepersWaitForEaters numPhils s := by
  intro p seated asleep
  rcases accounted.sleeper p seated asleep with ⟨left, right⟩
  refine ⟨left, right, .inl ?_⟩
  have notSelf : s.place p ≠ .eating := by simp [asleep]
  exact (accounted.eater p seated left).resolve_left notSelf

/-- A philosopher that is neither asleep nor gone steps; a sleeper's neighbour does. -/
theorem SleepersWaitForEaters.progresses (sleepers : SleepersWaitForEaters numPhils s) :
    Progresses program numPhils s := by
  rintro ⟨p, seated, stays⟩
  have steps (q : Nat) (sits : q < numPhils) (awake : s.place q ≠ .waiting)
      (present : s.place q ≠ .exited) :
      ∃ q < numPhils, ∃ t, step program numPhils (.philosopher q) s = some t := by
    rcases exists_philosopherStep awake present with ⟨t, moved⟩
    exact ⟨q, sits, t, (step_philosopher sits).trans moved⟩
  by_cases asleep : s.place p = .waiting
  · rcases (sleepers p seated asleep).2.2 with eats | eats
    · exact steps _ (leftPhil_lt seated) (by simp [eats]) (by simp [eats])
    · exact steps _ (rightPhil_lt seated) (by simp [eats]) (by simp [eats])
  · exact steps p seated asleep stays

/-- In every run of either program sleepers wait for eaters, and the philosophers are
not stuck before all of them have exited. -/
theorem no_wakeup_lost (program : Program) (numPhils : Nat) :
    Always (step program numPhils)
      (fun s => SleepersWaitForEaters numPhils s ∧ Progresses program numPhils s)
      initialState := by
  intro s reachable
  have sleepers := (accounted_of_reachable reachable).sleepers
  exact ⟨sleepers, sleepers.progresses⟩

end QuashLabs.DiningPhilosophers.Waiter
