import QuashLabs.ProducerConsumer.Core

/-!
# Token accounting over all interleavings

Each semaphore value is an exact function of the two counters and of the number
of threads at each place. The two exit facts say that a thread takes the exit
branch only after its counter reached `workMax`; neither counter ever
decreases, so the facts stay true.
-/

namespace QuashLabs.ProducerConsumer

open QuashLabs.Transition

variable {pros cons : Nat} {s t : State}

/-! ## What one step can do -/

/-- The effects of the enabled atomic steps, with the guard of each branch. -/
inductive Effect (pros cons : Nat) (s : State) : State → Prop
  | producerWait (i : Nat) (inside : i < pros) (stands : s.producers i = .semWaitSlotsToPut)
      (token : 0 < s.slotsToPut) :
      Effect pros cons s
        ({ s with slotsToPut := s.slotsToPut - 1 }.moveProducer i .testTotalInserted)
  | producerLeaves (i : Nat) (inside : i < pros) (stands : s.producers i = .testTotalInserted)
      (enough : workMax ≤ s.totalInserted) :
      Effect pros cons s (s.moveProducer i .exitPostSlotsToGet)
  | producerStays (i : Nat) (inside : i < pros) (stands : s.producers i = .testTotalInserted)
      (more : s.totalInserted < workMax) :
      Effect pros cons s (s.moveProducer i .criticalSection)
  | inserts (i : Nat) (inside : i < pros) (stands : s.producers i = .criticalSection) :
      Effect pros cons s
        ({ s with
          fifo := queueAdd queueSize s.fifo s.totalInserted
          totalInserted := s.totalInserted + 1
          added := s.added ++ [s.totalInserted] }.moveProducer i .semPostSlotsToGet)
  | producerPosts (i : Nat) (inside : i < pros) (stands : s.producers i = .semPostSlotsToGet) :
      Effect pros cons s
        ({ s with slotsToGet := s.slotsToGet + 1 }.moveProducer i .semWaitSlotsToPut)
  | producerExitGet (i : Nat) (inside : i < pros) (stands : s.producers i = .exitPostSlotsToGet) :
      Effect pros cons s
        ({ s with slotsToGet := s.slotsToGet + 1 }.moveProducer i .exitPostSlotsToPut)
  | producerExitPut (i : Nat) (inside : i < pros) (stands : s.producers i = .exitPostSlotsToPut) :
      Effect pros cons s
        ({ s with slotsToPut := s.slotsToPut + 1 }.moveProducer i .exited)
  | consumerWait (i : Nat) (inside : i < cons) (stands : s.consumers i = .semWaitSlotsToGet)
      (token : 0 < s.slotsToGet) :
      Effect pros cons s
        ({ s with slotsToGet := s.slotsToGet - 1 }.moveConsumer i .testTotalConsumed)
  | consumerLeaves (i : Nat) (inside : i < cons) (stands : s.consumers i = .testTotalConsumed)
      (enough : workMax ≤ s.totalConsumed) :
      Effect pros cons s (s.moveConsumer i .exitPostSlotsToPut)
  | consumerStays (i : Nat) (inside : i < cons) (stands : s.consumers i = .testTotalConsumed)
      (more : s.totalConsumed < workMax) :
      Effect pros cons s (s.moveConsumer i .criticalSection)
  | removes (i : Nat) (inside : i < cons) (stands : s.consumers i = .criticalSection) :
      Effect pros cons s
        ({ s with
          fifo := (queueRemove queueSize s.fifo).2
          totalConsumed := s.totalConsumed + 1
          removed := s.removed ++ [(queueRemove queueSize s.fifo).1] }.moveConsumer i
            .semPostSlotsToPut)
  | consumerPosts (i : Nat) (inside : i < cons) (stands : s.consumers i = .semPostSlotsToPut) :
      Effect pros cons s
        ({ s with slotsToPut := s.slotsToPut + 1 }.moveConsumer i .semWaitSlotsToGet)
  | consumerExitPut (i : Nat) (inside : i < cons) (stands : s.consumers i = .exitPostSlotsToPut) :
      Effect pros cons s
        ({ s with slotsToPut := s.slotsToPut + 1 }.moveConsumer i .exitPostSlotsToGet)
  | consumerExitGet (i : Nat) (inside : i < cons) (stands : s.consumers i = .exitPostSlotsToGet) :
      Effect pros cons s
        ({ s with slotsToGet := s.slotsToGet + 1 }.moveConsumer i .exited)

private theorem producerStep_effect {i : Nat} (inside : i < pros)
    (moved : producerStep i s = some t) : Effect pros cons s t := by
  unfold producerStep at moved
  cases stands : s.producers i with
  | semWaitSlotsToPut =>
      simp only [stands] at moved
      split at moved
      · contradiction
      · cases moved
        exact .producerWait i inside stands (by omega)
  | testTotalInserted =>
      simp only [stands] at moved
      split at moved
      · rename_i enough
        cases moved
        exact .producerLeaves i inside stands enough
      · rename_i more
        cases moved
        exact .producerStays i inside stands (by omega)
  | criticalSection =>
      simp only [stands] at moved
      cases moved
      exact .inserts i inside stands
  | semPostSlotsToGet =>
      simp only [stands] at moved
      cases moved
      exact .producerPosts i inside stands
  | exitPostSlotsToGet =>
      simp only [stands] at moved
      cases moved
      exact .producerExitGet i inside stands
  | exitPostSlotsToPut =>
      simp only [stands] at moved
      cases moved
      exact .producerExitPut i inside stands
  | exited =>
      simp only [stands] at moved
      contradiction

private theorem consumerStep_effect {i : Nat} (inside : i < cons)
    (moved : consumerStep i s = some t) : Effect pros cons s t := by
  unfold consumerStep at moved
  cases stands : s.consumers i with
  | semWaitSlotsToGet =>
      simp only [stands] at moved
      split at moved
      · contradiction
      · cases moved
        exact .consumerWait i inside stands (by omega)
  | testTotalConsumed =>
      simp only [stands] at moved
      split at moved
      · rename_i enough
        cases moved
        exact .consumerLeaves i inside stands enough
      · rename_i more
        cases moved
        exact .consumerStays i inside stands (by omega)
  | criticalSection =>
      simp only [stands] at moved
      cases moved
      exact .removes i inside stands
  | semPostSlotsToPut =>
      simp only [stands] at moved
      cases moved
      exact .consumerPosts i inside stands
  | exitPostSlotsToPut =>
      simp only [stands] at moved
      cases moved
      exact .consumerExitPut i inside stands
  | exitPostSlotsToGet =>
      simp only [stands] at moved
      cases moved
      exact .consumerExitGet i inside stands
  | exited =>
      simp only [stands] at moved
      contradiction

/-- Every enabled step is one of the listed effects. -/
theorem step_effect {thread : Thread} (moved : step pros cons thread s = some t) :
    Effect pros cons s t := by
  cases thread with
  | producer i =>
      by_cases inside : i < pros
      · exact producerStep_effect inside (by simpa [step, inside] using moved)
      · simp [step, inside] at moved
  | consumer i =>
      by_cases inside : i < cons
      · exact consumerStep_effect inside (by simpa [step, inside] using moved)
      · simp [step, inside] at moved

/-! ## Threads at a place -/

/-- The number of producers at `pc`. -/
def State.producersAt (s : State) (pros : Nat) (pc : ProducerPc) : Nat :=
  occupancy s.producers pc pros

/-- The number of consumers at `pc`. -/
def State.consumersAt (s : State) (cons : Nat) (pc : ConsumerPc) : Nat :=
  occupancy s.consumers pc cons

/-- The exact token counts of a state, and what an exit branch implies. -/
structure Tokens (pros cons : Nat) (s : State) : Prop where
  put :
    s.slotsToPut + s.totalInserted + s.producersAt pros .testTotalInserted +
        s.producersAt pros .criticalSection + s.producersAt pros .exitPostSlotsToGet +
        s.producersAt pros .exitPostSlotsToPut + s.consumersAt cons .semPostSlotsToPut =
      youWillDetermineForProducers + s.totalConsumed + s.consumersAt cons .exitPostSlotsToGet +
        s.consumersAt cons .exited
  get :
    s.slotsToGet + s.totalConsumed + s.consumersAt cons .testTotalConsumed +
        s.consumersAt cons .criticalSection + s.consumersAt cons .exitPostSlotsToPut +
        s.consumersAt cons .exitPostSlotsToGet + s.producersAt pros .semPostSlotsToGet =
      youWillDetermineForConsumers + s.totalInserted + s.producersAt pros .exitPostSlotsToPut +
        s.producersAt pros .exited
  producersDone :
    0 < s.producersAt pros .exitPostSlotsToGet + s.producersAt pros .exitPostSlotsToPut +
        s.producersAt pros .exited → workMax ≤ s.totalInserted
  consumersDone :
    0 < s.consumersAt cons .exitPostSlotsToPut + s.consumersAt cons .exitPostSlotsToGet +
        s.consumersAt cons .exited → workMax ≤ s.totalConsumed

theorem initialState_tokens (pros cons : Nat) : Tokens pros cons initialState := by
  have noProducer (pc : ProducerPc) (later : ProducerPc.semWaitSlotsToPut ≠ pc) :
      initialState.producersAt pros pc = 0 :=
    occupancy_eq_zero fun _ _ => later
  have noConsumer (pc : ConsumerPc) (later : ConsumerPc.semWaitSlotsToGet ≠ pc) :
      initialState.consumersAt cons pc = 0 :=
    occupancy_eq_zero fun _ _ => later
  constructor <;> simp [noProducer, noConsumer] <;> rfl

/-- One effect keeps the accounting: it moves one thread and the tokens and
counters of its branch. -/
theorem Tokens.effect (tokens : Tokens pros cons s) (effect : Effect pros cons s t) :
    Tokens pros cons t := by
  rcases tokens with ⟨put, get, producersDone, consumersDone⟩
  simp only [State.producersAt, State.consumersAt] at *
  cases effect with
  | producerWait i inside stands token =>
      have moved := occupancy_move inside stands ProducerPc.testTotalInserted
      constructor <;> simp only [State.producersAt, State.consumersAt, State.moveProducer] <;> grind
  | producerLeaves i inside stands enough =>
      have moved := occupancy_move inside stands ProducerPc.exitPostSlotsToGet
      constructor <;> simp only [State.producersAt, State.consumersAt, State.moveProducer] <;> grind
  | producerStays i inside stands more =>
      have moved := occupancy_move inside stands ProducerPc.criticalSection
      constructor <;> simp only [State.producersAt, State.consumersAt, State.moveProducer] <;> grind
  | inserts i inside stands =>
      have moved := occupancy_move inside stands ProducerPc.semPostSlotsToGet
      constructor <;> simp only [State.producersAt, State.consumersAt, State.moveProducer] <;> grind
  | producerPosts i inside stands =>
      have moved := occupancy_move inside stands ProducerPc.semWaitSlotsToPut
      constructor <;> simp only [State.producersAt, State.consumersAt, State.moveProducer] <;> grind
  | producerExitGet i inside stands =>
      have moved := occupancy_move inside stands ProducerPc.exitPostSlotsToPut
      constructor <;> simp only [State.producersAt, State.consumersAt, State.moveProducer] <;> grind
  | producerExitPut i inside stands =>
      have moved := occupancy_move inside stands ProducerPc.exited
      constructor <;> simp only [State.producersAt, State.consumersAt, State.moveProducer] <;> grind
  | consumerWait i inside stands token =>
      have moved := occupancy_move inside stands ConsumerPc.testTotalConsumed
      constructor <;> simp only [State.producersAt, State.consumersAt, State.moveConsumer] <;> grind
  | consumerLeaves i inside stands enough =>
      have moved := occupancy_move inside stands ConsumerPc.exitPostSlotsToPut
      constructor <;> simp only [State.producersAt, State.consumersAt, State.moveConsumer] <;> grind
  | consumerStays i inside stands more =>
      have moved := occupancy_move inside stands ConsumerPc.criticalSection
      constructor <;> simp only [State.producersAt, State.consumersAt, State.moveConsumer] <;> grind
  | removes i inside stands =>
      have moved := occupancy_move inside stands ConsumerPc.semPostSlotsToPut
      constructor <;> simp only [State.producersAt, State.consumersAt, State.moveConsumer] <;> grind
  | consumerPosts i inside stands =>
      have moved := occupancy_move inside stands ConsumerPc.semWaitSlotsToGet
      constructor <;> simp only [State.producersAt, State.consumersAt, State.moveConsumer] <;> grind
  | consumerExitPut i inside stands =>
      have moved := occupancy_move inside stands ConsumerPc.exitPostSlotsToGet
      constructor <;> simp only [State.producersAt, State.consumersAt, State.moveConsumer] <;> grind
  | consumerExitGet i inside stands =>
      have moved := occupancy_move inside stands ConsumerPc.exited
      constructor <;> simp only [State.producersAt, State.consumersAt, State.moveConsumer] <;> grind

/-- The accounting holds in every state that any interleaving reaches. -/
theorem tokens_of_reached (reached : Reached pros cons s) : Tokens pros cons s :=
  reached.invariant (initialState_tokens pros cons) fun _ _ _ tokens moved =>
    tokens.effect (step_effect moved)

end QuashLabs.ProducerConsumer
