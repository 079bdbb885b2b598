import QuashLabs.Transition.Reachable
import QuashLabs.Transition.Occupancy

/-!
# The bounded-buffer program of laboratory 7

Producers and consumers share one circular queue, two counting semaphores and
two counters. The atomic steps of a thread are each `sem_wait`, each test of a
shared counter, each section under the mutex and each `sem_post`. Thread
numbers are unbounded in the state; the step function lets only the threads
move that `main` created.

The two logs are observations, not program state: they record the values given
to `queueAdd` and the values that `queueRemove` stored in `*out`.
-/

namespace QuashLabs.ProducerConsumer

open QuashLabs.Transition

universe u

/-- `QUEUESIZE`. -/
def queueSize : Nat := 5

/-- `WORK_MAX`. -/
def workMax : Nat := 30

/-- `YOU_WILL_DETERMINE_FOR_PRODUCERS`, the first value of `slotsToPut`. -/
def youWillDetermineForProducers : Nat := 5

/-- `YOU_WILL_DETERMINE_FOR_CONSUMERS`, the first value of `slotsToGet`. -/
def youWillDetermineForConsumers : Nat := 0

/-! ## The shared queue -/

variable {α : Type u}

/-- The data part of `queue`, for any type of items. A slot that was never written holds no
value. -/
structure Queue (α : Type u) where
  buf : List (Option α)
  head : Nat
  tail : Nat
  full : Bool
  empty : Bool
  deriving Repr, DecidableEq

/-- The queue part of `queueInit` for a buffer of `size` slots. -/
def queueInit (size : Nat) : Queue α where
  buf := List.replicate size none
  head := 0
  tail := 0
  full := false
  empty := true

/-- `queueAdd`: store at the tail, advance it around the buffer, set the flags. -/
def queueAdd (size : Nat) (q : Queue α) (item : α) : Queue α :=
  let tail := if q.tail + 1 = size then 0 else q.tail + 1
  { q with
    buf := q.buf.set q.tail (some item)
    tail := tail
    full := if tail = q.head then true else q.full
    empty := false }

/-- `queueRemove`: the value copied to `*out` and the queue left behind. -/
def queueRemove (size : Nat) (q : Queue α) : Option α × Queue α :=
  let head := if q.head + 1 = size then 0 else q.head + 1
  ((q.buf[q.head]?).join,
    { q with
      head := head
      empty := if head = q.tail then true else q.empty
      full := false })

/-! ## Threads -/

/-- Where a producer stands: the next atomic step it will take. -/
inductive ProducerPc
  | semWaitSlotsToPut
  | testTotalInserted
  | criticalSection
  | semPostSlotsToGet
  | exitPostSlotsToGet
  | exitPostSlotsToPut
  | exited
  deriving Repr, DecidableEq

/-- Where a consumer stands. -/
inductive ConsumerPc
  | semWaitSlotsToGet
  | testTotalConsumed
  | criticalSection
  | semPostSlotsToPut
  | exitPostSlotsToPut
  | exitPostSlotsToGet
  | exited
  deriving Repr, DecidableEq

/-- The shared memory, the places of all threads and the two observation logs. -/
structure State where
  slotsToPut : Nat
  slotsToGet : Nat
  totalInserted : Nat
  totalConsumed : Nat
  fifo : Queue Nat
  producers : Nat → ProducerPc
  consumers : Nat → ConsumerPc
  added : List Nat
  removed : List (Option Nat)

/-- The state in which `main` starts the threads. -/
def initialState : State where
  slotsToPut := youWillDetermineForProducers
  slotsToGet := youWillDetermineForConsumers
  totalInserted := 0
  totalConsumed := 0
  fifo := queueInit queueSize
  producers := fun _ => .semWaitSlotsToPut
  consumers := fun _ => .semWaitSlotsToGet
  added := []
  removed := []

/-- Put producer `i` at its next place. -/
def State.moveProducer (s : State) (i : Nat) (pc : ProducerPc) : State :=
  { s with producers := Function.update s.producers i pc }

/-- Put consumer `i` at its next place. -/
def State.moveConsumer (s : State) (i : Nat) (pc : ConsumerPc) : State :=
  { s with consumers := Function.update s.consumers i pc }

/-- One atomic step of `producer`. -/
def producerStep (i : Nat) (s : State) : Option State :=
  match s.producers i with
  | .semWaitSlotsToPut =>
      if s.slotsToPut = 0 then none
      else some ({ s with slotsToPut := s.slotsToPut - 1 }.moveProducer i .testTotalInserted)
  | .testTotalInserted =>
      if workMax ≤ s.totalInserted then some (s.moveProducer i .exitPostSlotsToGet)
      else some (s.moveProducer i .criticalSection)
  | .criticalSection =>
      -- The item is the value of the shared counter before it is raised.
      some ({ s with
        fifo := queueAdd queueSize s.fifo s.totalInserted
        totalInserted := s.totalInserted + 1
        added := s.added ++ [s.totalInserted] }.moveProducer i .semPostSlotsToGet)
  | .semPostSlotsToGet =>
      some ({ s with slotsToGet := s.slotsToGet + 1 }.moveProducer i .semWaitSlotsToPut)
  | .exitPostSlotsToGet =>
      some ({ s with slotsToGet := s.slotsToGet + 1 }.moveProducer i .exitPostSlotsToPut)
  | .exitPostSlotsToPut =>
      some ({ s with slotsToPut := s.slotsToPut + 1 }.moveProducer i .exited)
  | .exited => none

/-- One atomic step of `consumer`. -/
def consumerStep (i : Nat) (s : State) : Option State :=
  match s.consumers i with
  | .semWaitSlotsToGet =>
      if s.slotsToGet = 0 then none
      else some ({ s with slotsToGet := s.slotsToGet - 1 }.moveConsumer i .testTotalConsumed)
  | .testTotalConsumed =>
      if workMax ≤ s.totalConsumed then some (s.moveConsumer i .exitPostSlotsToPut)
      else some (s.moveConsumer i .criticalSection)
  | .criticalSection =>
      some ({ s with
        fifo := (queueRemove queueSize s.fifo).2
        totalConsumed := s.totalConsumed + 1
        removed := s.removed ++ [(queueRemove queueSize s.fifo).1] }.moveConsumer i
          .semPostSlotsToPut)
  | .semPostSlotsToPut =>
      some ({ s with slotsToPut := s.slotsToPut + 1 }.moveConsumer i .semWaitSlotsToGet)
  | .exitPostSlotsToPut =>
      some ({ s with slotsToPut := s.slotsToPut + 1 }.moveConsumer i .exitPostSlotsToGet)
  | .exitPostSlotsToGet =>
      some ({ s with slotsToGet := s.slotsToGet + 1 }.moveConsumer i .exited)
  | .exited => none

/-- A thread that `main` may have created. -/
inductive Thread
  | producer (i : Nat)
  | consumer (i : Nat)
  deriving Repr, DecidableEq

/-- The program with `pros` producers and `cons` consumers. -/
def step (pros cons : Nat) : LabelledStep Thread State
  | .producer i, s => if i < pros then producerStep i s else none
  | .consumer i, s => if i < cons then consumerStep i s else none

/-- The states that some interleaving of the threads reaches. -/
abbrev Reached (pros cons : Nat) (s : State) : Prop :=
  Reachable (step pros cons) initialState s

/-- Some thread has not exited, yet no thread can take a step. -/
def Stuck (pros cons : Nat) (s : State) : Prop :=
  ((∃ i < pros, s.producers i ≠ .exited) ∨ (∃ i < cons, s.consumers i ≠ .exited)) ∧
    Quiescent (step pros cons) s

end QuashLabs.ProducerConsumer
