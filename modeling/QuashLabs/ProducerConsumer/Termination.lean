import QuashLabs.ProducerConsumer.Progress
import QuashLabs.Transition.Endless

/-!
# Every run is finite

No thread waits by spinning: a round of a thread either raises its counter or leaves the
loop, and the counters stay below the limit plus the size of their family. So the places
of the threads and what is left of the counters make a weight that every step lowers. With
enough producers a run therefore goes on to a state in which all threads have exited, and
the token accounting says what is left in the semaphores.
-/

namespace QuashLabs.ProducerConsumer

open QuashLabs.Transition

variable {pros cons : Nat} {s t : State}

/-! ## Weights -/

/-- The way of a producer to its exit, where an insertion takes it back to the start. -/
def ProducerPc.weight : ProducerPc → Nat
  | .exited => 0
  | .exitPostSlotsToPut => 1
  | .exitPostSlotsToGet | .criticalSection => 2
  | .testTotalInserted => 3
  | .semWaitSlotsToPut => 4
  | .semPostSlotsToGet => 5

/-- The way of a consumer to its exit, where a removal takes it back to the start. -/
def ConsumerPc.weight : ConsumerPc → Nat
  | .exited => 0
  | .exitPostSlotsToGet => 1
  | .exitPostSlotsToPut | .criticalSection => 2
  | .testTotalConsumed => 3
  | .semWaitSlotsToGet => 4
  | .semPostSlotsToPut => 5

/-- The steps that are left at most. An insertion or a removal that is still to come
counts for a round. -/
def State.weight (s : State) (pros cons : Nat) : Nat :=
  4 * (workMax + pros - s.totalInserted) + load ProducerPc.weight s.producers pros +
    (4 * (workMax + cons - s.totalConsumed) + load ConsumerPc.weight s.consumers cons)

/-- A producer that goes on without an insertion. -/
theorem weight_moveProducer {s' : State} {i : Nat} {pc : ProducerPc} (inside : i < pros)
    (producers : s'.producers = s.producers) (consumers : s'.consumers = s.consumers)
    (inserted : s'.totalInserted = s.totalInserted)
    (consumed : s'.totalConsumed = s.totalConsumed)
    (nearer : pc.weight < (s.producers i).weight) :
    (s'.moveProducer i pc).weight pros cons < s.weight pros cons := by
  have moved := load_update ProducerPc.weight s.producers inside pc
  simp only [State.weight, State.moveProducer, producers, consumers, inserted, consumed]
  omega

/-- A consumer that goes on without a removal. -/
theorem weight_moveConsumer {s' : State} {i : Nat} {pc : ConsumerPc} (inside : i < cons)
    (producers : s'.producers = s.producers) (consumers : s'.consumers = s.consumers)
    (inserted : s'.totalInserted = s.totalInserted)
    (consumed : s'.totalConsumed = s.totalConsumed)
    (nearer : pc.weight < (s.consumers i).weight) :
    (s'.moveConsumer i pc).weight pros cons < s.weight pros cons := by
  have moved := load_update ConsumerPc.weight s.consumers inside pc
  simp only [State.weight, State.moveConsumer, producers, consumers, inserted, consumed]
  omega

/-- Every step lowers the weight: the counters have room for the insertions and removals
that are decided on. -/
theorem Effect.weight_lt (bounds : Overshoot pros cons s) (effect : Effect pros cons s t) :
    t.weight pros cons < s.weight pros cons := by
  cases effect with
  | producerWait i inside stands token =>
      exact weight_moveProducer inside rfl rfl rfl rfl (by rw [stands]; decide)
  | producerLeaves i inside stands enough =>
      exact weight_moveProducer inside rfl rfl rfl rfl (by rw [stands]; decide)
  | producerStays i inside stands more =>
      exact weight_moveProducer inside rfl rfl rfl rfl (by rw [stands]; decide)
  | inserts i inside stands =>
      have room := bounds.inserted
      have moved := load_update ProducerPc.weight s.producers inside .semPostSlotsToGet
      rw [stands] at moved
      simp only [ProducerPc.weight] at moved
      simp only [State.weight, State.moveProducer]
      omega
  | producerPosts i inside stands =>
      exact weight_moveProducer inside rfl rfl rfl rfl (by rw [stands]; decide)
  | producerExitGet i inside stands =>
      exact weight_moveProducer inside rfl rfl rfl rfl (by rw [stands]; decide)
  | producerExitPut i inside stands =>
      exact weight_moveProducer inside rfl rfl rfl rfl (by rw [stands]; decide)
  | consumerWait i inside stands token =>
      exact weight_moveConsumer inside rfl rfl rfl rfl (by rw [stands]; decide)
  | consumerLeaves i inside stands enough =>
      exact weight_moveConsumer inside rfl rfl rfl rfl (by rw [stands]; decide)
  | consumerStays i inside stands more =>
      exact weight_moveConsumer inside rfl rfl rfl rfl (by rw [stands]; decide)
  | removes i inside stands =>
      have room := bounds.consumed
      have moved := load_update ConsumerPc.weight s.consumers inside .semPostSlotsToPut
      rw [stands] at moved
      simp only [ConsumerPc.weight] at moved
      simp only [State.weight, State.moveConsumer]
      omega
  | consumerPosts i inside stands =>
      exact weight_moveConsumer inside rfl rfl rfl rfl (by rw [stands]; decide)
  | consumerExitPut i inside stands =>
      exact weight_moveConsumer inside rfl rfl rfl rfl (by rw [stands]; decide)
  | consumerExitGet i inside stands =>
      exact weight_moveConsumer inside rfl rfl rfl rfl (by rw [stands]; decide)

theorem initialState_weight (pros cons : Nat) :
    initialState.weight pros cons = 8 * (workMax + pros + cons) := by
  simp only [State.weight, initialState, load_const, ProducerPc.weight, ConsumerPc.weight]
  omega

/-- Whatever the numbers of threads, no run is longer than this. -/
theorem run_length_le {labels : List Thread}
    (runs : runLabels (step pros cons) labels initialState = some s) :
    labels.length ≤ 8 * (workMax + pros + cons) := by
  have bounded := length_le_of_weight (fun s => s.weight pros cons) (fun _ _ _ reached moved =>
    (step_effect moved).weight_lt (overshoot_of_reached reached)) runs
  rw [initialState_weight] at bounded
  exact Nat.le_trans (Nat.le_add_right _ _) bounded

/-! ## The end -/

/-- All threads have exited, each family has done its work, and the semaphores hold what
the insertions, the removals and the exits have left. -/
structure Finished (pros cons : Nat) (s : State) : Prop where
  producers : ∀ i < pros, s.producers i = .exited
  consumers : ∀ i < cons, s.consumers i = .exited
  inserted : workMax ≤ s.totalInserted ∧ s.totalInserted < workMax + pros
  consumed : workMax ≤ s.totalConsumed ∧ s.totalConsumed < workMax + cons
  put : s.slotsToPut + s.totalInserted = queueSize + s.totalConsumed + cons
  get : s.slotsToGet + s.totalConsumed = s.totalInserted + pros

theorem finished_of_quiescent (onePro : 1 ≤ pros) (oneCon : 1 ≤ cons) (few : cons ≤ pros)
    (reached : Reached pros cons s) (quiet : Quiescent (step pros cons) s) :
    Finished pros cons s := by
  have out : ∀ i < pros, s.producers i = .exited :=
    fun i inside => producers_exited oneCon reached quiet inside
  have left : ∀ i < cons, s.consumers i = .exited := by
    by_contra stays
    push Not at stays
    have more := pros_lt_cons_of_stuck onePro oneCon reached ⟨.inr stays, quiet⟩
    omega
  have producersCounted : s.producersAt pros .exited = pros := occupancy_eq_count out
  have consumersCounted : s.consumersAt cons .exited = cons := occupancy_eq_count left
  have tokens := tokens_of_reached reached
  have overshoot := overshoot_of_reached reached
  rcases quiescent_tokens reached quiet with ⟨put, get⟩
  rw [consumersCounted] at put
  rw [producersCounted] at get
  exact {
    producers := out
    consumers := left
    inserted := ⟨tokens.producersDone (by omega), by have := overshoot.inserted; omega⟩
    consumed := ⟨tokens.consumersDone (by omega), by have := overshoot.consumed; omega⟩
    put := put
    get := get }

/-- With as many producers as consumers, or more, the program always ends: no run is longer
than the bound, and a run that cannot go on has finished. -/
theorem runs_finish (onePro : 1 ≤ pros) (oneCon : 1 ≤ cons) (few : cons ≤ pros) :
    (∀ labels s, runLabels (step pros cons) labels initialState = some s →
      labels.length ≤ 8 * (workMax + pros + cons)) ∧
    ∀ s, Reached pros cons s → Quiescent (step pros cons) s → Finished pros cons s :=
  ⟨fun _ _ => run_length_le, fun _ => finished_of_quiescent onePro oneCon few⟩

/-- Five producers and five consumers end after 320 steps at most. -/
theorem runs_finish_five_five :
    (∀ labels s, runLabels (step 5 5) labels initialState = some s →
      labels.length ≤ 8 * (workMax + 5 + 5)) ∧
    ∀ s, Reached 5 5 s → Quiescent (step 5 5) s → Finished 5 5 s :=
  runs_finish (by decide) (by decide) (by decide)

end QuashLabs.ProducerConsumer
