import QuashLabs.ProducerConsumer.Order

/-!
# When the joins of `main` can complete

In a state without enabled steps the token accounting leaves only one
possibility: every producer has left, no consumer has, and the consumers have
spent the tokens of all items and of all exits by removing more often than
items exist. The overshoot bound allows that only with more consumers than
producers, and with more consumers than producers a run gets there.
-/

namespace QuashLabs.ProducerConsumer

open QuashLabs.Transition

variable {pros cons : Nat} {s t : State}

/-! ## States without enabled steps -/

theorem Quiescent.producer (quiet : Quiescent (step pros cons) s) {i : Nat} (inside : i < pros) :
    s.producers i = .semWaitSlotsToPut ∧ s.slotsToPut = 0 ∨ s.producers i = .exited := by
  have blocked := quiet (.producer i)
  simp only [step, if_pos inside, producerStep] at blocked
  cases stands : s.producers i with
  | semWaitSlotsToPut => simpa [stands] using blocked
  | exited => exact .inr rfl
  | testTotalInserted =>
      simp only [stands] at blocked
      split at blocked <;> contradiction
  | _ => simp [stands] at blocked

theorem Quiescent.consumer (quiet : Quiescent (step pros cons) s) {i : Nat} (inside : i < cons) :
    s.consumers i = .semWaitSlotsToGet ∧ s.slotsToGet = 0 ∨ s.consumers i = .exited := by
  have blocked := quiet (.consumer i)
  simp only [step, if_pos inside, consumerStep] at blocked
  cases stands : s.consumers i with
  | semWaitSlotsToGet => simpa [stands] using blocked
  | exited => exact .inr rfl
  | testTotalConsumed =>
      simp only [stands] at blocked
      split at blocked <;> contradiction
  | _ => simp [stands] at blocked

/-- The token equations of a reached state in which nobody can move. -/
theorem quiescent_tokens (reached : Reached pros cons s) (quiet : Quiescent (step pros cons) s) :
    s.slotsToPut + s.totalInserted =
        queueSize + s.totalConsumed + s.consumersAt cons .exited ∧
      s.slotsToGet + s.totalConsumed = s.totalInserted + s.producersAt pros .exited := by
  have noProducer (pc : ProducerPc) (notWait : pc ≠ .semWaitSlotsToPut) (notOut : pc ≠ .exited) :
      s.producersAt pros pc = 0 := by
    apply occupancy_eq_zero
    intro i inside stands
    rcases Quiescent.producer quiet inside with ⟨waits, -⟩ | out
    · exact notWait (stands.symm.trans waits)
    · exact notOut (stands.symm.trans out)
  have noConsumer (pc : ConsumerPc) (notWait : pc ≠ .semWaitSlotsToGet) (notOut : pc ≠ .exited) :
      s.consumersAt cons pc = 0 := by
    apply occupancy_eq_zero
    intro i inside stands
    rcases Quiescent.consumer quiet inside with ⟨waits, -⟩ | out
    · exact notWait (stands.symm.trans waits)
    · exact notOut (stands.symm.trans out)
  have tokens := tokens_of_reached reached
  have put := tokens.put
  have get := tokens.get
  simp only [noProducer _ (by decide : ProducerPc.testTotalInserted ≠ _) (by decide),
    noProducer _ (by decide : ProducerPc.criticalSection ≠ _) (by decide),
    noProducer _ (by decide : ProducerPc.exitPostSlotsToGet ≠ _) (by decide),
    noProducer _ (by decide : ProducerPc.exitPostSlotsToPut ≠ _) (by decide),
    noConsumer _ (by decide : ConsumerPc.semPostSlotsToPut ≠ _) (by decide),
    noConsumer _ (by decide : ConsumerPc.exitPostSlotsToGet ≠ _) (by decide)] at put
  simp only [noConsumer _ (by decide : ConsumerPc.testTotalConsumed ≠ _) (by decide),
    noConsumer _ (by decide : ConsumerPc.criticalSection ≠ _) (by decide),
    noConsumer _ (by decide : ConsumerPc.exitPostSlotsToPut ≠ _) (by decide),
    noConsumer _ (by decide : ConsumerPc.exitPostSlotsToGet ≠ _) (by decide),
    noProducer _ (by decide : ProducerPc.semPostSlotsToGet ≠ _) (by decide),
    noProducer _ (by decide : ProducerPc.exitPostSlotsToPut ≠ _) (by decide)] at get
  simp only [youWillDetermineForProducers, youWillDetermineForConsumers, queueSize] at *
  omega

/-- In such a state no producer waits: its missing token would have to be held
by consumers that have all left, although additions never outrun the buffer. -/
theorem producers_exited (oneCon : 1 ≤ cons) (reached : Reached pros cons s)
    (quiet : Quiescent (step pros cons) s) {i : Nat} (inside : i < pros) :
    s.producers i = .exited := by
  rcases Quiescent.producer quiet inside with ⟨waits, noToken⟩ | out
  · exfalso
    rcases quiescent_tokens reached quiet with ⟨put, get⟩
    have room := room_of_reached reached
    unfold Room at room
    have allOut : ∀ j < cons, s.consumers j = .exited := by
      intro j member
      rcases Quiescent.consumer quiet member with ⟨-, noItem⟩ | out
      · simp only [queueSize] at put
        omega
      · exact out
    have counted : s.consumersAt cons .exited = cons := occupancy_eq_count allOut
    omega
  · exact out

/-- A stuck state needs more consumers than producers. -/
theorem pros_lt_cons_of_stuck (onePro : 1 ≤ pros) (oneCon : 1 ≤ cons)
    (reached : Reached pros cons s) (stuck : Stuck pros cons s) : pros < cons := by
  rcases stuck with ⟨alive, quiet⟩
  have out : ∀ i < pros, s.producers i = .exited :=
    fun i inside => producers_exited oneCon reached quiet inside
  have waiting : ∃ j < cons, s.consumers j ≠ .exited := by
    rcases alive with ⟨i, inside, running⟩ | waiting
    · exact absurd (out i inside) running
    · exact waiting
  rcases waiting with ⟨j, member, running⟩
  have noItem : s.slotsToGet = 0 := by
    rcases Quiescent.consumer quiet member with ⟨-, noItem⟩ | left
    · exact noItem
    · exact absurd left running
  have counted : s.producersAt pros .exited = pros := occupancy_eq_count out
  have inserted : workMax ≤ s.totalInserted :=
    (tokens_of_reached reached).producersDone (by omega)
  rcases quiescent_tokens reached quiet with ⟨-, get⟩
  have overshoot := (overshoot_of_reached reached).consumed
  omega

/-! ## A run that hangs -/

namespace Shown

/-- After thirty insertions and twenty-nine removals the first `j` producers leave. -/
theorem leave (onePro : 1 ≤ pros) (oneCon : 1 ≤ cons) {j : Nat} (few : j ≤ pros) :
    Shown pros cons
      { slotsToPut := 4
        slotsToGet := j + 1
        totalInserted := 30
        totalConsumed := 29
        producers := splitAt j .exited .semWaitSlotsToPut
        consumers := splitAt 0 .criticalSection .semWaitSlotsToGet } := by
  induction j with
  | zero =>
      have balanced := rounds (n := 29) onePro oneCon (by decide)
      exact balanced.produce (i := 0) onePro rfl (show 0 < 5 by decide) (show 29 < 30 by decide)
  | succ j ih =>
      have waited := (ih (by omega)).producerWait (i := j) (by omega)
        (splitAt_of_le (Nat.le_refl j)) (show 0 < 4 by decide)
      have tested := waited.producerLeaves (i := j) (by omega) (Function.update_self ..)
        (show 30 ≤ 30 by decide)
      have first := tested.producerExitGet (i := j) (by omega) (Function.update_self ..)
      have second := first.producerExitPut (i := j) (by omega) (Function.update_self ..)
      simpa [update_splitAt] using second

/-- Then one consumer more than there are producers passes the test, each on
one of the tokens. -/
theorem enter (onePro : 1 ≤ pros) (more : pros < cons) {j : Nat} (few : j ≤ pros + 1) :
    Shown pros cons
      { slotsToPut := 4
        slotsToGet := pros + 1 - j
        totalInserted := 30
        totalConsumed := 29
        producers := splitAt pros .exited .semWaitSlotsToPut
        consumers := splitAt j .criticalSection .semWaitSlotsToGet } := by
  induction j with
  | zero => exact leave onePro (by omega) (Nat.le_refl pros)
  | succ j ih =>
      have waited := (ih (by omega)).consumerWait (i := j) (by omega)
        (splitAt_of_le (Nat.le_refl j)) (show 0 < pros + 1 - j by omega)
      have tested := waited.consumerStays (i := j) (by omega) (Function.update_self ..)
        (show 29 < 30 by decide)
      simpa [update_splitAt, Nat.sub_sub] using tested

/-- They all remove and go back to waiting, for tokens that nobody will post. -/
theorem drain (onePro : 1 ≤ pros) (more : pros < cons) {j rest : Nat}
    (split : j + rest = pros + 1) :
    Shown pros cons
      { slotsToPut := 4 + j
        slotsToGet := 0
        totalInserted := 30
        totalConsumed := 29 + j
        producers := splitAt pros .exited .semWaitSlotsToPut
        consumers := splitAt rest .criticalSection .semWaitSlotsToGet } := by
  induction j generalizing rest with
  | zero =>
      have entered := enter onePro more (Nat.le_refl (pros + 1))
      rw [Nat.sub_self] at entered
      rwa [show rest = pros + 1 by omega]
  | succ j ih =>
      have removed := (ih (show j + (rest + 1) = pros + 1 by omega)).removes (i := rest) (by omega)
        (splitAt_of_lt (by omega))
      have posted := removed.consumerPosts (i := rest) (by omega) (Function.update_self ..)
      simpa [update_splitAt_succ, Nat.add_assoc] using posted

end Shown

/-- With more consumers than producers some run hangs. -/
theorem exists_reached_stuck (onePro : 1 ≤ pros) (more : pros < cons) :
    ∃ s, Reached pros cons s ∧ Stuck pros cons s := by
  rcases Shown.drain onePro more (Nat.add_zero (pros + 1)) with ⟨s, reached, view⟩
  have producersOut (i : Nat) (inside : i < pros) : s.producers i = .exited :=
    (congrFun (congrArg Counters.producers view) i).trans (splitAt_of_lt inside)
  have consumersWait (i : Nat) : s.consumers i = .semWaitSlotsToGet :=
    congrFun (congrArg Counters.consumers view) i
  have noToken : s.slotsToGet = 0 := congrArg Counters.slotsToGet view
  refine ⟨s, reached, .inr ⟨0, by omega, by simp [consumersWait]⟩, ?_⟩
  intro thread
  cases thread with
  | producer i =>
      by_cases inside : i < pros
      · simp [step, inside, producerStep, producersOut i inside]
      · simp [step, inside]
  | consumer i => simp [step, consumerStep, consumersWait, noToken]

/-- No reachable state is stuck exactly when the consumers do not outnumber the
producers. -/
theorem never_stuck_iff (onePro : 1 ≤ pros) (oneCon : 1 ≤ cons) :
    (∀ s, Reached pros cons s → ¬ Stuck pros cons s) ↔ cons ≤ pros := by
  constructor
  · intro free
    by_contra more
    rcases exists_reached_stuck onePro (Nat.lt_of_not_le more) with ⟨s, reached, stuck⟩
    exact free s reached stuck
  · intro few s reached stuck
    have more := pros_lt_cons_of_stuck onePro oneCon reached stuck
    omega

/-- Five producers and five consumers always finish. -/
theorem never_stuck_five_five :
    (1 ≤ 5 ∧ 1 ≤ 5) ∧ ∀ s, Reached 5 5 s → ¬ Stuck 5 5 s := by
  have five : 1 ≤ 5 := by decide
  exact ⟨⟨five, five⟩, (never_stuck_iff five five).mpr (Nat.le_refl 5)⟩

/-- One producer and five consumers can hang. -/
theorem never_stuck_fails : ¬ ∀ s, Reached 1 5 s → ¬ Stuck 1 5 s := by
  intro free
  rcases exists_reached_stuck (show 1 ≤ 1 by decide) (show 1 < 5 by decide) with
    ⟨s, reached, stuck⟩
  exact free s reached stuck

end QuashLabs.ProducerConsumer
