import QuashLabs.DiningPhilosophers.Waiter.Wakeups

/-!
# Neighbours that eat together

The wait condition asks for both flags to be down where one suffices, so a
philosopher goes on when only one of its chopsticks is free. As long as neighbours
exclude each other the flags are right, and then the other chopstick is the one that a
neighbour eats with. Two philosophers share both chopsticks, so their flags are equal;
around a larger table they need not be.
-/

namespace QuashLabs.DiningPhilosophers.Waiter

open QuashLabs.Transition

variable {program : Program} {numPhils : Nat} {s t : State}

/-- No two neighbours are between taking and releasing their chopsticks. -/
def NeighboursExclude (numPhils : Nat) (s : State) : Prop :=
  ∀ p < numPhils, ¬(s.place p = .eating ∧ s.place (leftPhil numPhils p) = .eating)

/-- Before the section that takes the chopsticks. -/
def AtTest (s : State) (p : Nat) : Prop :=
  s.place p = .hungry ∨ s.place p = .woken

/-- A section that may take the chopsticks does not find one of them free and the other
taken. -/
def FlagsAgree (numPhils : Nat) : Event → State → Prop
  | .philosopher p, s => AtTest s p →
      (s.availableChopsticks (leftChop p) = 1 ↔ s.availableChopsticks (rightChop numPhils p) = 1)
  | _, _ => True

/-! ## Flags of eaters -/

/-- Both flags of an eating philosopher are down. -/
def EatersTake (numPhils : Nat) (s : State) : Prop :=
  ∀ p < numPhils, s.place p = .eating →
    s.availableChopsticks (leftChop p) = 0 ∧ s.availableChopsticks (rightChop numPhils p) = 0

/-- While neighbours exclude each other, nobody raises the flags of an eater. -/
theorem EatersTake.effect (take : EatersTake numPhils s) (exclude : NeighboursExclude numPhils s)
    (effect : Effect program numPhils s t) : EatersTake numPhils t := by
  intro q sits eats
  cases effect with
  | main flags places =>
      rw [places] at eats
      rw [flags]
      exact take q sits eats
  | quiet p seated place before after flags places =>
      rw [places, Function.update_apply] at eats
      split at eats
      · exact absurd eats after.2
      · rw [flags]
        exact take q sits eats
  | waits p seated stands taken flags places =>
      rw [places, Function.update_apply] at eats
      split at eats
      · cases eats
      · rw [flags]
        exact take q sits eats
  | takes p seated stands free flags places =>
      rw [places, Function.update_apply] at eats
      split at eats
      · rename_i same
        subst same
        simp [flags, markChopsticks_apply, leftChop]
      · have down := take q sits eats
        simp only [flags, markChopsticks_apply, down, ite_self, and_self]
  | releases p seated stands flags places =>
      have other : q ≠ p := by
        rintro rfl
        simp [places, signalNeighbours_apply] at eats
      have ate : s.place q = .eating := by
        rw [places, signalNeighbours_apply, Function.update_of_ne other] at eats
        split at eats
        · cases eats
        · exact eats
      have down := take q sits ate
      -- The eaters `p` and `q` are no neighbours, so they share no chopstick.
      have notLeft : q ≠ leftPhil numPhils p := by
        rintro rfl
        exact exclude p seated ⟨stands, ate⟩
      have notRight : q ≠ rightPhil numPhils p := by
        rintro rfl
        exact exclude _ sits ⟨ate, (leftPhil_rightChop seated).symm ▸ stands⟩
      have apart := chops_apart seated sits other notLeft notRight
      simp [flags, markChopsticks_apply, apart, down]

/-! ## One step -/

theorem philosopherStep_atTest {p : Nat} (test : AtTest s p) :
    ∃ s', s'.availableChopsticks = s.availableChopsticks ∧ s'.place = s.place ∧
      philosopherStep program numPhils p s = some (takeSection numPhils p s') := by
  rcases test with hungry | woken
  · exact ⟨s, rfl, rfl, by rw [philosopherStep, hungry]⟩
  · refine ⟨countWait program p s, ?_, ?_, by rw [philosopherStep, woken]⟩
    · cases program <;> rfl
    · cases program <;> rfl

/-- Nobody starts to eat. -/
def NoneStarts (s t : State) : Prop :=
  ∀ q, t.place q = .eating → s.place q = .eating

theorem noneStarts_update {p : Nat} {place : Place} (after : place ≠ .eating)
    (places : t.place = Function.update s.place p place) : NoneStarts s t := by
  intro q eats
  rw [places, Function.update_apply] at eats
  split at eats
  · exact absurd eats after
  · exact eats

/-- Philosophers start to eat only behind the test of the flags. -/
theorem noneStarts_of_not_atTest {p : Nat} (test : ¬AtTest s p)
    (moved : philosopherStep program numPhils p s = some t) : NoneStarts s t := by
  unfold philosopherStep at moved
  cases stands : s.place p with
  | testStop =>
      simp only [stands] at moved
      split at moved <;> cases moved <;> exact noneStarts_update (by decide) rfl
  | hungry => exact absurd (.inl stands) test
  | waiting =>
      simp only [stands] at moved
      contradiction
  | woken => exact absurd (.inr stands) test
  | eating =>
      simp only [stands] at moved
      cases moved
      intro q eats
      simp only [releaseSection, signalNeighbours_apply] at eats
      split at eats
      · cases eats
      · exact noneStarts_update (t := { s with place := Function.update s.place p .updateProgress })
          (by decide) rfl q eats
  | updateProgress =>
      simp only [stands] at moved
      cases moved
      exact noneStarts_update (by decide) rfl
  | exited =>
      simp only [stands] at moved
      contradiction

/-- A step that takes chopsticks, for which one flag was up; or nobody starts to eat, and
then the section of the step did not find different flags. -/
theorem takes_or_keeps {event : Event} (moved : step program numPhils event s = some t) :
    (∃ p < numPhils, event = .philosopher p ∧ AtTest s p ∧
        (s.availableChopsticks (leftChop p) = 1 ∨
          s.availableChopsticks (rightChop numPhils p) = 1) ∧
        t.place = Function.update s.place p .eating) ∨
      NoneStarts s t ∧ FlagsAgree numPhils event s := by
  cases event with
  | main =>
      rcases Option.map_eq_some_iff.mp moved with ⟨accounting, -, rfl⟩
      exact .inr ⟨fun _ eats => eats, True.intro⟩
  | spurious p =>
      rcases Option.ite_none_right_eq_some.mp moved with ⟨-, wakes⟩
      rcases Option.ite_none_right_eq_some.mp wakes with ⟨-, wakes⟩
      cases wakes
      exact .inr ⟨noneStarts_update (by decide) rfl, True.intro⟩
  | philosopher p =>
      rcases Option.ite_none_right_eq_some.mp moved with ⟨seated, moved⟩
      by_cases test : AtTest s p
      · rcases philosopherStep_atTest test with ⟨s', flags, places, section_⟩
        obtain rfl := Option.some.inj (section_.symm.trans moved)
        by_cases taken : s.availableChopsticks (leftChop p) ≠ 1 ∧
            s.availableChopsticks (rightChop numPhils p) ≠ 1
        · have waits : (takeSection numPhils p s').place = Function.update s.place p .waiting := by
            rw [takeSection, flags, if_pos taken, places]
          exact .inr ⟨noneStarts_update (by decide) waits, fun _ => iff_of_false taken.1 taken.2⟩
        · have takes : (takeSection numPhils p s').place = Function.update s.place p .eating := by
            rw [takeSection, flags, if_neg taken, places]
          exact .inl ⟨p, seated, rfl, test, by omega, takes⟩
      · exact .inr ⟨noneStarts_of_not_atTest test moved, fun tests => absurd tests test⟩

/-- A state up to which neighbours have excluded each other. -/
structure Exclusive (numPhils : Nat) (s : State) : Prop where
  accounted : Accounted numPhils s
  take : EatersTake numPhils s
  exclude : NeighboursExclude numPhils s

theorem initialState_exclusive (numPhils : Nat) : Exclusive numPhils initialState where
  accounted := initialState_accounted numPhils
  take _ _ eats := by cases eats
  exclude _ _ both := by cases both.1

/-- While neighbours exclude each other, a step keeps that exactly when it does not take
the chopsticks on different flags. -/
theorem Exclusive.step_iff (exclusive : Exclusive numPhils s) (two : 2 ≤ numPhils)
    {event : Event} (moved : step program numPhils event s = some t) :
    NeighboursExclude numPhils t ↔ FlagsAgree numPhils event s := by
  rcases exclusive with ⟨accounted, take, exclude⟩
  rcases takes_or_keeps moved with ⟨p, seated, rfl, test, free, places⟩ | ⟨keeps, agree⟩
  · have awake : s.place p ≠ .eating := by rcases test with hungry | woken <;> simp [*]
    have eats : t.place p = .eating := by rw [places, Function.update_self]
    have others (q : Nat) (other : q ≠ p) : t.place q = s.place q := by
      rw [places, Function.update_of_ne other]
    constructor
    · -- A flag that is down belongs to a neighbour that eats.
      intro excludes _
      have leftUp : s.availableChopsticks (leftChop p) = 1 := by
        refine (accounted.flag p seated).resolve_left fun down => ?_
        have eater := (accounted.eater p seated down).resolve_left awake
        exact excludes p seated ⟨eats, by rw [others _ (leftPhil_ne two p), eater]⟩
      have rightUp : s.availableChopsticks (rightChop numPhils p) = 1 := by
        have inside := rightChop_lt seated
        refine (accounted.flag _ inside).resolve_left fun down => ?_
        have eater := accounted.eater _ inside down
        rw [leftPhil_rightChop seated] at eater
        refine excludes _ inside ⟨?_, by rw [leftPhil_rightChop seated, eats]⟩
        rw [others _ (rightChop_ne two p), eater.resolve_right awake]
      exact iff_of_true leftUp rightUp
    · intro agree q sits both
      have up : s.availableChopsticks (leftChop p) = 1 ∧
          s.availableChopsticks (rightChop numPhils p) = 1 :=
        free.elim (fun left => ⟨left, (agree test).mp left⟩)
          fun right => ⟨(agree test).mpr right, right⟩
      by_cases first : q = p
      · subst first
        have neighbour := (others _ (leftPhil_ne two q)).symm.trans both.2
        have down := (take _ (leftPhil_lt sits) neighbour).2
        rw [rightChop_leftPhil sits] at down
        exact absurd (down.symm.trans up.1) (by decide)
      · have ate := (others q first).symm.trans both.1
        by_cases second : leftPhil numPhils q = p
        · subst second
          have down := (take q sits ate).1
          rw [rightChop_leftPhil sits] at up
          exact absurd (down.symm.trans up.2) (by decide)
        · exact exclude q sits ⟨ate, (others _ second).symm.trans both.2⟩
  · refine iff_of_true (fun q sits both => ?_) agree
    exact exclude q sits ⟨keeps q both.1, keeps _ both.2⟩

/-! ## Runs -/

/-- Neighbours exclude each other throughout a run exactly when no section in it finds one
chopstick free and the other taken. -/
theorem throughout_exclude_iff (program : Program) (two : 2 ≤ numPhils) (events : List Event) :
    Throughout (step program numPhils) (NeighboursExclude numPhils) events initialState ↔
      Along (step program numPhils) (FlagsAgree numPhils) events initialState := by
  have each : ∀ ⦃event s t⦄, Exclusive numPhils s → step program numPhils event s = some t →
      (NeighboursExclude numPhils t ↔ FlagsAgree numPhils event s) ∧
        (NeighboursExclude numPhils t → Exclusive numPhils t) := by
    intro event s t exclusive moved
    have effect := step_effect moved
    exact ⟨exclusive.step_iff two moved, fun still =>
      ⟨exclusive.accounted.effect effect, exclusive.take.effect exclusive.exclude effect, still⟩⟩
  have start := initialState_exclusive numPhils
  exact throughout_iff_along each start start.exclude

/-! ## Two philosophers -/

/-- Two philosophers share both chopsticks. -/
theorem markChopsticks_two {p : Nat} (seated : p < 2) (available : Nat → Nat) (value : Nat) :
    markChopsticks 2 available p value 0 = value ∧
      markChopsticks 2 available p value 1 = value := by
  rcases (by omega : p = 0 ∨ p = 1) with rfl | rfl <;> constructor <;> rfl

/-- The flags of two philosophers are always equal. -/
theorem flags_two (reachable : Reachable (step program 2) initialState s) :
    s.availableChopsticks 0 = s.availableChopsticks 1 := by
  apply reachable.invariant (P := fun s => s.availableChopsticks 0 = s.availableChopsticks 1) rfl
  intro event s t same moved
  cases step_effect moved with
  | main flags places => rw [flags, same]
  | quiet p seated place before after flags places => rw [flags, same]
  | waits p seated stands taken flags places => rw [flags, same]
  | takes p seated stands free flags places =>
      rw [flags, (markChopsticks_two seated _ 0).1, (markChopsticks_two seated _ 0).2]
  | releases p seated stands flags places =>
      rw [flags, (markChopsticks_two seated _ 1).1, (markChopsticks_two seated _ 1).2]

theorem always_exclude_two : Always (step program 2) (NeighboursExclude 2) initialState := by
  rw [always_iff_throughout]
  intro events
  rw [throughout_exclude_iff program (Nat.le_refl 2)]
  refine along_of_reachable (fun event s t reachable moved => ?_) events
  have same := flags_two reachable
  cases event with
  | philosopher p =>
      have seated := (Option.ite_none_right_eq_some.mp moved).1
      intro _
      rcases (by omega : p = 0 ∨ p = 1) with rfl | rfl <;> simp [leftChop, rightChop, same]
  | spurious p => exact True.intro
  | main => exact True.intro

/-! ## Three philosophers and more -/

theorem takeSection_of_free {p : Nat} (free : s.availableChopsticks (leftChop p) = 1) :
    takeSection numPhils p s =
      { s with
        availableChopsticks := markChopsticks numPhils s.availableChopsticks p 0
        place := Function.update s.place p .eating } := by
  unfold takeSection
  rw [if_neg fun taken => taken.1 free]

/-- Philosopher `1` starts to eat while philosopher `0` eats. -/
theorem exists_reachable_together (program : Program) (three : 3 ≤ numPhils) :
    ∃ s, Reachable (step program numPhils) initialState s ∧ s.place 0 = .eating ∧
      s.place 1 = .eating := by
  have hungry : Reachable (step program numPhils) initialState
      { initialState with place := Function.update initialState.place 0 .hungry } :=
    Reachable.single ((step_philosopher (by omega)).trans rfl)
  have eats := hungry.tail ((step_philosopher (p := 0) (by omega)).trans rfl)
  rw [takeSection_of_free rfl] at eats
  have bothHungry := eats.tail ((step_philosopher (p := 1) (by omega)).trans rfl)
  have bothEat := bothHungry.tail ((step_philosopher (p := 1) (by omega)).trans rfl)
  -- The left chopstick of philosopher `1` is not one of philosopher `0`.
  have free : markChopsticks numPhils initialState.availableChopsticks 0 0 (leftChop 1) = 1 := by
    rw [markChopsticks_apply, if_neg]
    · rfl
    · simp only [leftChop, rightChop, if_true]
      omega
  rw [takeSection_of_free free] at bothEat
  exact ⟨_, bothEat, rfl, rfl⟩

/-- Neighbours exclude each other throughout a run exactly when no section in it finds one
chopstick free and the other taken; and they do so in every run exactly if there are two
of them. -/
theorem neighboursExclude_iff (program : Program) (two : 2 ≤ numPhils) :
    (∀ events,
        Throughout (step program numPhils) (NeighboursExclude numPhils) events initialState ↔
          Along (step program numPhils) (FlagsAgree numPhils) events initialState) ∧
      (Always (step program numPhils) (NeighboursExclude numPhils) initialState ↔
        numPhils = 2) := by
  refine ⟨throughout_exclude_iff program two, ?_, ?_⟩
  · intro exclude
    by_contra more
    rcases exists_reachable_together program (show 3 ≤ numPhils by omega) with
      ⟨s, reachable, first, second⟩
    have left : leftPhil numPhils 0 = 1 := if_neg (by omega)
    exact exclude s reachable 0 (by omega) ⟨first, by rwa [left]⟩
  · rintro rfl
    exact always_exclude_two

/-- The condition on the programs as they are built, with five philosophers. -/
theorem neighboursExclude_iff_five :
    (∀ events, Throughout (step .dpWaiter 5) (NeighboursExclude 5) events initialState ↔
        Along (step .dpWaiter 5) (FlagsAgree 5) events initialState) ∧
      (Always (step .dpWaiter 5) (NeighboursExclude 5) initialState ↔ 5 = 2) :=
  neighboursExclude_iff .dpWaiter (by decide)

/-- Five philosophers do not exclude each other. -/
theorem neighboursExclude_fails :
    ¬ Always (step .dpWaiter 5) (NeighboursExclude 5) initialState := by
  intro exclude
  rcases exists_reachable_together .dpWaiter (show 3 ≤ 5 by decide) with
    ⟨s, reachable, first, second⟩
  exact exclude s reachable 0 (by decide) ⟨first, second⟩

end QuashLabs.DiningPhilosophers.Waiter
