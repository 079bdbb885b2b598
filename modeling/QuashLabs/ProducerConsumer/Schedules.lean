import QuashLabs.ProducerConsumer.Tokens

/-!
# Runs of the counter view

The control flow of the threads never looks at the queue, so a run is
determined by the semaphores, the counters and the places of the threads. This
file gives the step rules of that counter view and the common prefix of the
runs that go wrong: twenty-nine items inserted and consumed by the first
producer and the first consumer while every other thread is still waiting.
-/

namespace QuashLabs.ProducerConsumer

open QuashLabs.Transition

/-- The part of the state that decides which steps are enabled. -/
structure Counters where
  slotsToPut : Nat
  slotsToGet : Nat
  totalInserted : Nat
  totalConsumed : Nat
  producers : Nat → ProducerPc
  consumers : Nat → ConsumerPc

/-- The counter view of a state. -/
def State.counters (s : State) : Counters where
  slotsToPut := s.slotsToPut
  slotsToGet := s.slotsToGet
  totalInserted := s.totalInserted
  totalConsumed := s.totalConsumed
  producers := s.producers
  consumers := s.consumers

/-- A producer at another place of its loop. -/
def Counters.moveProducer (c : Counters) (i : Nat) (pc : ProducerPc) : Counters :=
  { c with producers := Function.update c.producers i pc }

/-- A consumer at another place of its loop. -/
def Counters.moveConsumer (c : Counters) (i : Nat) (pc : ConsumerPc) : Counters :=
  { c with consumers := Function.update c.consumers i pc }

/-- What a step of a producer does to the view. -/
def Counters.producerStep (i : Nat) (c : Counters) : Option Counters :=
  match c.producers i with
  | .semWaitSlotsToPut =>
      if c.slotsToPut = 0 then none
      else some ({ c with slotsToPut := c.slotsToPut - 1 }.moveProducer i .testTotalInserted)
  | .testTotalInserted =>
      if workMax ≤ c.totalInserted then some (c.moveProducer i .exitPostSlotsToGet)
      else some (c.moveProducer i .criticalSection)
  | .criticalSection =>
      some ({ c with totalInserted := c.totalInserted + 1 }.moveProducer i .semPostSlotsToGet)
  | .semPostSlotsToGet =>
      some ({ c with slotsToGet := c.slotsToGet + 1 }.moveProducer i .semWaitSlotsToPut)
  | .exitPostSlotsToGet =>
      some ({ c with slotsToGet := c.slotsToGet + 1 }.moveProducer i .exitPostSlotsToPut)
  | .exitPostSlotsToPut =>
      some ({ c with slotsToPut := c.slotsToPut + 1 }.moveProducer i .exited)
  | .exited => none

/-- What a step of a consumer does to the view. -/
def Counters.consumerStep (i : Nat) (c : Counters) : Option Counters :=
  match c.consumers i with
  | .semWaitSlotsToGet =>
      if c.slotsToGet = 0 then none
      else some ({ c with slotsToGet := c.slotsToGet - 1 }.moveConsumer i .testTotalConsumed)
  | .testTotalConsumed =>
      if workMax ≤ c.totalConsumed then some (c.moveConsumer i .exitPostSlotsToPut)
      else some (c.moveConsumer i .criticalSection)
  | .criticalSection =>
      some ({ c with totalConsumed := c.totalConsumed + 1 }.moveConsumer i .semPostSlotsToPut)
  | .semPostSlotsToPut =>
      some ({ c with slotsToPut := c.slotsToPut + 1 }.moveConsumer i .semWaitSlotsToGet)
  | .exitPostSlotsToPut =>
      some ({ c with slotsToPut := c.slotsToPut + 1 }.moveConsumer i .exitPostSlotsToGet)
  | .exitPostSlotsToGet =>
      some ({ c with slotsToGet := c.slotsToGet + 1 }.moveConsumer i .exited)
  | .exited => none

/-- The view of a step of a producer is a step of the view. -/
theorem counters_producerStep (i : Nat) (s : State) :
    (producerStep i s).map State.counters = s.counters.producerStep i := by
  have stands : s.counters.producers i = s.producers i := rfl
  rw [producerStep, Counters.producerStep, stands]
  cases s.producers i with
  | semWaitSlotsToPut | testTotalInserted =>
      simp only [apply_ite (Option.map State.counters)]
      rfl
  | _ => rfl

/-- The view of a step of a consumer is a step of the view. -/
theorem counters_consumerStep (i : Nat) (s : State) :
    (consumerStep i s).map State.counters = s.counters.consumerStep i := by
  have stands : s.counters.consumers i = s.consumers i := rfl
  rw [consumerStep, Counters.consumerStep, stands]
  cases s.consumers i with
  | semWaitSlotsToGet | testTotalConsumed =>
      simp only [apply_ite (Option.map State.counters)]
      rfl
  | _ => rfl

/-- Some interleaving shows the counter view `c`. -/
def Shown (pros cons : Nat) (c : Counters) : Prop :=
  ∃ s, Reached pros cons s ∧ s.counters = c

namespace Shown

variable {pros cons i : Nat} {c : Counters}

theorem start (pros cons : Nat) : Shown pros cons initialState.counters :=
  ⟨initialState, .refl, rfl⟩

/-- A step of a producer on the view extends the run. -/
theorem producer {d : Counters} (shown : Shown pros cons c) (inside : i < pros)
    (moves : c.producerStep i = some d) : Shown pros cons d := by
  rcases shown with ⟨s, reached, rfl⟩
  rw [← counters_producerStep] at moves
  rcases Option.map_eq_some_iff.mp moves with ⟨t, moved, rfl⟩
  have stepped : step pros cons (.producer i) s = some t := (if_pos inside).trans moved
  exact ⟨t, reached.tail stepped, rfl⟩

/-- A step of a consumer on the view extends the run. -/
theorem consumer {d : Counters} (shown : Shown pros cons c) (inside : i < cons)
    (moves : c.consumerStep i = some d) : Shown pros cons d := by
  rcases shown with ⟨s, reached, rfl⟩
  rw [← counters_consumerStep] at moves
  rcases Option.map_eq_some_iff.mp moves with ⟨t, moved, rfl⟩
  have stepped : step pros cons (.consumer i) s = some t := (if_pos inside).trans moved
  exact ⟨t, reached.tail stepped, rfl⟩

theorem producerWait (shown : Shown pros cons c) (inside : i < pros)
    (stands : c.producers i = .semWaitSlotsToPut) (token : 0 < c.slotsToPut) :
    Shown pros cons { c with
      slotsToPut := c.slotsToPut - 1
      producers := Function.update c.producers i .testTotalInserted } := by
  apply shown.producer inside
  rw [Counters.producerStep, stands]
  exact if_neg (by omega)

theorem producerStays (shown : Shown pros cons c) (inside : i < pros)
    (stands : c.producers i = .testTotalInserted) (more : c.totalInserted < workMax) :
    Shown pros cons { c with producers := Function.update c.producers i .criticalSection } := by
  apply shown.producer inside
  rw [Counters.producerStep, stands]
  exact if_neg (by omega)

theorem producerLeaves (shown : Shown pros cons c) (inside : i < pros)
    (stands : c.producers i = .testTotalInserted) (enough : workMax ≤ c.totalInserted) :
    Shown pros cons
      { c with producers := Function.update c.producers i .exitPostSlotsToGet } := by
  apply shown.producer inside
  rw [Counters.producerStep, stands]
  exact if_pos enough

theorem inserts (shown : Shown pros cons c) (inside : i < pros)
    (stands : c.producers i = .criticalSection) :
    Shown pros cons { c with
      totalInserted := c.totalInserted + 1
      producers := Function.update c.producers i .semPostSlotsToGet } := by
  apply shown.producer inside
  rw [Counters.producerStep, stands]
  rfl

theorem producerPosts (shown : Shown pros cons c) (inside : i < pros)
    (stands : c.producers i = .semPostSlotsToGet) :
    Shown pros cons { c with
      slotsToGet := c.slotsToGet + 1
      producers := Function.update c.producers i .semWaitSlotsToPut } := by
  apply shown.producer inside
  rw [Counters.producerStep, stands]
  rfl

theorem producerExitGet (shown : Shown pros cons c) (inside : i < pros)
    (stands : c.producers i = .exitPostSlotsToGet) :
    Shown pros cons { c with
      slotsToGet := c.slotsToGet + 1
      producers := Function.update c.producers i .exitPostSlotsToPut } := by
  apply shown.producer inside
  rw [Counters.producerStep, stands]
  rfl

theorem producerExitPut (shown : Shown pros cons c) (inside : i < pros)
    (stands : c.producers i = .exitPostSlotsToPut) :
    Shown pros cons { c with
      slotsToPut := c.slotsToPut + 1
      producers := Function.update c.producers i .exited } := by
  apply shown.producer inside
  rw [Counters.producerStep, stands]
  rfl

theorem consumerWait (shown : Shown pros cons c) (inside : i < cons)
    (stands : c.consumers i = .semWaitSlotsToGet) (token : 0 < c.slotsToGet) :
    Shown pros cons { c with
      slotsToGet := c.slotsToGet - 1
      consumers := Function.update c.consumers i .testTotalConsumed } := by
  apply shown.consumer inside
  rw [Counters.consumerStep, stands]
  exact if_neg (by omega)

theorem consumerStays (shown : Shown pros cons c) (inside : i < cons)
    (stands : c.consumers i = .testTotalConsumed) (more : c.totalConsumed < workMax) :
    Shown pros cons { c with consumers := Function.update c.consumers i .criticalSection } := by
  apply shown.consumer inside
  rw [Counters.consumerStep, stands]
  exact if_neg (by omega)

theorem removes (shown : Shown pros cons c) (inside : i < cons)
    (stands : c.consumers i = .criticalSection) :
    Shown pros cons { c with
      totalConsumed := c.totalConsumed + 1
      consumers := Function.update c.consumers i .semPostSlotsToPut } := by
  apply shown.consumer inside
  rw [Counters.consumerStep, stands]
  rfl

theorem consumerPosts (shown : Shown pros cons c) (inside : i < cons)
    (stands : c.consumers i = .semPostSlotsToPut) :
    Shown pros cons { c with
      slotsToPut := c.slotsToPut + 1
      consumers := Function.update c.consumers i .semWaitSlotsToGet } := by
  apply shown.consumer inside
  rw [Counters.consumerStep, stands]
  rfl

/-! ## Whole passes through the loops -/

/-- A waiting producer runs through its loop once and waits again. -/
theorem produce (shown : Shown pros cons c) (inside : i < pros)
    (stands : c.producers i = .semWaitSlotsToPut) (token : 0 < c.slotsToPut)
    (more : c.totalInserted < workMax) :
    Shown pros cons { c with
      slotsToPut := c.slotsToPut - 1
      slotsToGet := c.slotsToGet + 1
      totalInserted := c.totalInserted + 1 } := by
  have waited := shown.producerWait inside stands token
  have tested := waited.producerStays inside (Function.update_self ..) more
  have inserted := tested.inserts inside (Function.update_self ..)
  have posted := inserted.producerPosts inside (Function.update_self ..)
  simpa [← stands] using posted

/-- A waiting consumer runs through its loop once and waits again. -/
theorem consume (shown : Shown pros cons c) (inside : i < cons)
    (stands : c.consumers i = .semWaitSlotsToGet) (token : 0 < c.slotsToGet)
    (more : c.totalConsumed < workMax) :
    Shown pros cons { c with
      slotsToPut := c.slotsToPut + 1
      slotsToGet := c.slotsToGet - 1
      totalConsumed := c.totalConsumed + 1 } := by
  have waited := shown.consumerWait inside stands token
  have tested := waited.consumerStays inside (Function.update_self ..) more
  have removed := tested.removes inside (Function.update_self ..)
  have posted := removed.consumerPosts inside (Function.update_self ..)
  simpa [← stands] using posted

/-- After `n` rounds of one insertion and one removal all threads wait again. -/
theorem rounds (onePro : 0 < pros) (oneCon : 0 < cons) {n : Nat} (few : n < workMax) :
    Shown pros cons { initialState.counters with totalInserted := n, totalConsumed := n } := by
  induction n with
  | zero => exact start pros cons
  | succ n ih =>
      have before := ih (by omega)
      have inserted := before.produce onePro rfl (show 0 < 5 by decide) (show n < workMax by omega)
      exact inserted.consume oneCon rfl (show 0 < 0 + 1 by decide) (show n < workMax by omega)

end Shown

end QuashLabs.ProducerConsumer
