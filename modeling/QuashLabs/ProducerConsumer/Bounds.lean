import QuashLabs.ProducerConsumer.Schedules

/-!
# How far the two counters can rise

The limit is tested outside the mutex, so every thread of a family may pass the
test before any of them raises the counter. A counter together with the threads
of its family that already passed the test stays below the limit plus the size
of the family, and that bound is attained: the limit is kept in every run
exactly for one producer and one consumer, or when one family is missing.
-/

namespace QuashLabs.ProducerConsumer

open QuashLabs.Transition

variable {pros cons : Nat} {s t : State}

/-! ## The logs follow the counters -/

/-- The logs have one entry for each counted operation, and the items are the
values of `total_inserted`. -/
structure Logged (s : State) : Prop where
  added : s.added = List.range s.totalInserted
  removed : s.removed.length = s.totalConsumed

theorem logged_of_reached (reached : Reached pros cons s) : Logged s := by
  apply reached.invariant ⟨rfl, rfl⟩
  intro thread middle target logged moved
  cases step_effect moved with
  | inserts i inside stands =>
      refine ⟨?_, logged.removed⟩
      simp [State.moveProducer, logged.added, List.range_succ]
  | removes i inside stands =>
      refine ⟨logged.added, ?_⟩
      simp [State.moveConsumer, logged.removed]
  | _ => exact ⟨logged.added, logged.removed⟩

/-! ## Bounds in every run -/

/-- Every effect keeps the sum of insertions done and insertions decided on,
except the test that decides on one more below the limit. -/
theorem Effect.inserting (effect : Effect pros cons s t) :
    t.totalInserted + t.producersAt pros .criticalSection =
        s.totalInserted + s.producersAt pros .criticalSection ∨
      s.totalInserted < workMax ∧ t.totalInserted = s.totalInserted := by
  cases effect with
  | producerStays i inside stands more => exact .inr ⟨more, rfl⟩
  | consumerWait | consumerLeaves | consumerStays | removes | consumerPosts | consumerExitPut
  | consumerExitGet => exact .inl rfl
  | _ =>
      left
      simp only [State.producersAt, State.moveProducer]
      grind [occupancy_update]

/-- The same for removals. -/
theorem Effect.consuming (effect : Effect pros cons s t) :
    t.totalConsumed + t.consumersAt cons .criticalSection =
        s.totalConsumed + s.consumersAt cons .criticalSection ∨
      s.totalConsumed < workMax ∧ t.totalConsumed = s.totalConsumed := by
  cases effect with
  | consumerStays i inside stands more => exact .inr ⟨more, rfl⟩
  | producerWait | producerLeaves | producerStays | inserts | producerPosts | producerExitGet
  | producerExitPut => exact .inl rfl
  | _ =>
      left
      simp only [State.consumersAt, State.moveConsumer]
      grind [occupancy_update]

/-- Counting the threads that passed the test, a counter overshoots the limit
by less than the size of its family. -/
structure Overshoot (pros cons : Nat) (s : State) : Prop where
  inserted : s.totalInserted + s.producersAt pros .criticalSection + 1 ≤ workMax + pros
  consumed : s.totalConsumed + s.consumersAt cons .criticalSection + 1 ≤ workMax + cons

theorem initialState_overshoot (pros cons : Nat) : Overshoot pros cons initialState := by
  have noProducer : initialState.producersAt pros .criticalSection = 0 :=
    occupancy_eq_zero fun _ _ => ProducerPc.noConfusion
  have noConsumer : initialState.consumersAt cons .criticalSection = 0 :=
    occupancy_eq_zero fun _ _ => ConsumerPc.noConfusion
  constructor
  · rw [noProducer]
    exact Nat.le_add_right_of_le (by decide)
  · rw [noConsumer]
    exact Nat.le_add_right_of_le (by decide)

theorem Overshoot.effect (bounds : Overshoot pros cons s) (effect : Effect pros cons s t) :
    Overshoot pros cons t := by
  have inserted := bounds.inserted
  have consumed := bounds.consumed
  have producersFit : t.producersAt pros .criticalSection ≤ pros := occupancy_le _ _ _
  have consumersFit : t.consumersAt cons .criticalSection ≤ cons := occupancy_le _ _ _
  constructor
  · rcases effect.inserting with kept | ⟨below, same⟩ <;> omega
  · rcases effect.consuming with kept | ⟨below, same⟩ <;> omega

theorem overshoot_of_reached (reached : Reached pros cons s) : Overshoot pros cons s :=
  reached.invariant (initialState_overshoot pros cons) fun _ _ _ bounds moved =>
    bounds.effect (step_effect moved)

/-- Without consumers nothing is ever consumed. -/
theorem totalConsumed_eq_zero (reached : Reached pros 0 s) : s.totalConsumed = 0 := by
  refine reached.invariant (P := fun s => s.totalConsumed = 0) rfl ?_
  intro thread middle target nothing moved
  cases step_effect moved with
  | removes i inside stands => exact absurd inside (Nat.not_lt_zero i)
  | _ => exact nothing

/-- Without producers nothing is ever inserted. -/
theorem totalInserted_eq_zero (reached : Reached 0 cons s) : s.totalInserted = 0 := by
  refine reached.invariant (P := fun s => s.totalInserted = 0) rfl ?_
  intro thread middle target nothing moved
  cases step_effect moved with
  | inserts i inside stands => exact absurd inside (Nat.not_lt_zero i)
  | _ => exact nothing

/-- Without producers nothing is ever consumed either: no token is posted. -/
theorem totalConsumed_eq_zero_of_noProducer (reached : Reached 0 cons s) :
    s.totalConsumed = 0 := by
  have get := (tokens_of_reached reached).get
  have nothing := totalInserted_eq_zero reached
  simp only [State.producersAt, occupancy, youWillDetermineForConsumers] at get
  omega

/-- Without consumers the producers stop at the first full buffer. -/
theorem totalInserted_le_of_noConsumer (reached : Reached pros 0 s) :
    s.totalInserted ≤ youWillDetermineForProducers := by
  have put := (tokens_of_reached reached).put
  have nothing := totalConsumed_eq_zero reached
  simp only [State.consumersAt, occupancy] at put
  omega

/-! ## The limit -/

/-- At most `workMax` insertions were made and at most `workMax` consumptions
were counted. -/
def WithinWorkMax (s : State) : Prop :=
  s.added.length ≤ workMax ∧ s.totalConsumed ≤ workMax

/-- Two producers both pass the test at twenty-nine insertions. -/
theorem inserted_beyond (twoPros : 2 ≤ pros) (oneCon : 1 ≤ cons) :
    ∃ s, Reached pros cons s ∧ s.totalInserted = workMax + 1 := by
  have balanced := Shown.rounds (n := 29) (show 0 < pros by omega) oneCon (by decide)
  have first := balanced.producerWait (i := 0) (by omega) rfl (show 0 < 5 by decide)
  have second := first.producerWait (i := 1) (by omega) rfl (show 0 < 4 by decide)
  have firstIn := second.producerStays (i := 0) (by omega) rfl (show 29 < 30 by decide)
  have secondIn := firstIn.producerStays (i := 1) (by omega) rfl (show 29 < 30 by decide)
  have thirtieth := secondIn.inserts (i := 0) (by omega) rfl
  rcases thirtieth.inserts (i := 1) (by omega) rfl with ⟨s, reached, view⟩
  exact ⟨s, reached, congrArg Counters.totalInserted view⟩

/-- Two consumers both pass the test at twenty-nine consumptions, the second on
the token that an exiting producer posted. -/
theorem consumed_beyond (onePro : 1 ≤ pros) (twoCons : 2 ≤ cons) :
    ∃ s, Reached pros cons s ∧ s.totalInserted = workMax ∧ s.totalConsumed = workMax + 1 := by
  have balanced := Shown.rounds (n := 29) onePro (show 0 < cons by omega) (by decide)
  have full := balanced.produce (i := 0) (by omega) rfl (show 0 < 5 by decide)
    (show 29 < 30 by decide)
  have waited := full.producerWait (i := 0) (by omega) rfl (show 0 < 4 by decide)
  have leaving := waited.producerLeaves (i := 0) (by omega) rfl (show 30 ≤ 30 by decide)
  have posted := leaving.producerExitGet (i := 0) (by omega) rfl
  have first := posted.consumerWait (i := 0) (by omega) rfl (show 0 < 2 by decide)
  have second := first.consumerWait (i := 1) (by omega) rfl (show 0 < 1 by decide)
  have firstIn := second.consumerStays (i := 0) (by omega) rfl (show 29 < 30 by decide)
  have secondIn := firstIn.consumerStays (i := 1) (by omega) rfl (show 29 < 30 by decide)
  have thirtieth := secondIn.removes (i := 0) (by omega) rfl
  rcases thirtieth.removes (i := 1) (by omega) rfl with ⟨s, reached, view⟩
  exact ⟨s, reached, congrArg Counters.totalInserted view, congrArg Counters.totalConsumed view⟩

theorem withinWorkMax_of_reached (small : pros = 0 ∨ cons = 0 ∨ pros = 1 ∧ cons = 1)
    (reached : Reached pros cons s) : WithinWorkMax s := by
  have logged := logged_of_reached reached
  unfold WithinWorkMax
  rw [logged.added, List.length_range]
  rcases small with rfl | rfl | ⟨rfl, rfl⟩
  · rw [totalInserted_eq_zero reached, totalConsumed_eq_zero_of_noProducer reached]
    decide
  · have inserted := totalInserted_le_of_noConsumer reached
    rw [totalConsumed_eq_zero reached]
    exact ⟨Nat.le_trans inserted (by decide), Nat.zero_le _⟩
  · have bounds := overshoot_of_reached reached
    exact ⟨by have := bounds.inserted; omega, by have := bounds.consumed; omega⟩

/-- The limit is kept in every run exactly when a family is missing or there is
one thread of each kind. -/
theorem withinWorkMax_iff (pros cons : Nat) :
    (∀ s, Reached pros cons s → WithinWorkMax s) ↔
      pros = 0 ∨ cons = 0 ∨ pros = 1 ∧ cons = 1 := by
  constructor
  · intro within
    by_contra large
    rcases (by omega : 2 ≤ pros ∧ 1 ≤ cons ∨ 1 ≤ pros ∧ 2 ≤ cons) with
      ⟨twoPros, oneCon⟩ | ⟨onePro, twoCons⟩
    · rcases inserted_beyond twoPros oneCon with ⟨s, reached, beyond⟩
      have kept := (within s reached).1
      rw [(logged_of_reached reached).added, List.length_range, beyond] at kept
      omega
    · rcases consumed_beyond onePro twoCons with ⟨s, reached, -, beyond⟩
      have kept := (within s reached).2
      omega
  · intro small s reached
    exact withinWorkMax_of_reached small reached

/-- One producer and five consumers consume thirty-one times. -/
theorem withinWorkMax_fails : ¬ ∀ s, Reached 1 5 s → WithinWorkMax s := by
  intro within
  rcases consumed_beyond (show 1 ≤ 1 by decide) (show 2 ≤ 5 by decide) with
    ⟨s, reached, -, beyond⟩
  have kept := (within s reached).2
  omega

end QuashLabs.ProducerConsumer
