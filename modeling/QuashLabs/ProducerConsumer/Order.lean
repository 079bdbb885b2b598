import QuashLabs.ProducerConsumer.Bounds
import QuashLabs.ProducerConsumer.Buffer
import Mathlib.Data.List.Nodup

/-!
# First in, first out

The tokens that exiting threads post stand for no item. Additions are never at
risk: a thread exits only after all additions were decided on, so an extra
`slotsToPut` token can never back one. Removals are at risk as soon as two
consumers exist, because the second of them may pass its test on the extra
`slotsToGet` token of an exiting producer.
-/

namespace QuashLabs.ProducerConsumer

open QuashLabs.Transition

variable {pros cons : Nat} {s t : State}

/-! ## Every addition has a free slot -/

/-- The insertions done and decided on fit into the buffer beside the removals. -/
def Room (pros : Nat) (s : State) : Prop :=
  s.totalInserted + s.producersAt pros .criticalSection ≤ queueSize + s.totalConsumed

/-- A consumption counter at its limit implies an insertion counter at its limit. -/
theorem Tokens.inserted_enough (tokens : Tokens pros cons s)
    (consumed : workMax ≤ s.totalConsumed) : workMax ≤ s.totalInserted := by
  have get := tokens.get
  have done := tokens.producersDone
  simp only [youWillDetermineForConsumers] at get
  by_cases gone : 0 < s.producersAt pros .exitPostSlotsToPut + s.producersAt pros .exited
  · exact done (by omega)
  · omega

/-- While insertions are still being decided on, no consumer has posted an
extra token, and the exact count of `slotsToPut` leaves room for each of them. -/
theorem Tokens.room (tokens : Tokens pros cons s) (more : s.totalInserted < workMax) :
    Room pros s := by
  have put := tokens.put
  have consumersDone := tokens.consumersDone
  have below : ¬ workMax ≤ s.totalConsumed := fun enough => by
    have := tokens.inserted_enough enough
    omega
  have noneGone : ¬ 0 < s.consumersAt cons .exitPostSlotsToPut +
      s.consumersAt cons .exitPostSlotsToGet + s.consumersAt cons .exited :=
    fun gone => below (consumersDone gone)
  simp only [youWillDetermineForProducers] at put
  unfold Room
  simp only [queueSize]
  omega

theorem room_of_reached (reached : Reached pros cons s) : Room pros s := by
  refine reached.invariantOfReachable (P := Room pros) ?_ ?_
  · exact (initialState_tokens pros 0).room (by decide)
  · intro thread middle target before room moved
    have effect := step_effect moved
    by_cases more : target.totalInserted < workMax
    · have after := tokens_of_reached (before.tail moved)
      exact after.room more
    · have grows : middle.totalConsumed ≤ target.totalConsumed := by
        cases effect <;> simp [State.moveProducer, State.moveConsumer]
      unfold Room at room ⊢
      rcases effect.inserting with kept | ⟨below, same⟩
      · omega
      · omega

/-! ## Removals behind one consumer -/

/-- Below the limit a removal is backed by an item. -/
theorem Tokens.removal_backed (tokens : Tokens pros cons s) {i : Nat} (inside : i < cons)
    (stands : s.consumers i = .criticalSection) (below : s.totalConsumed < workMax) :
    s.totalConsumed < s.totalInserted := by
  have get := tokens.get
  have done := tokens.producersDone
  have counted : 0 < s.consumersAt cons .criticalSection := occupancy_pos inside stands
  simp only [youWillDetermineForConsumers] at get
  by_cases gone : 0 < s.producersAt pros .exitPostSlotsToPut + s.producersAt pros .exited
  · have inserted := done (by omega)
    omega
  · omega

/-- With at most one consumer a removal is backed by an item. -/
theorem removal_backed (single : cons ≤ 1) (reached : Reached pros cons s) {i : Nat}
    (inside : i < cons) (stands : s.consumers i = .criticalSection) :
    s.totalConsumed < s.totalInserted := by
  have overshoot := (overshoot_of_reached reached).consumed
  have counted : 0 < s.consumersAt cons .criticalSection := occupancy_pos inside stands
  have below : s.totalConsumed < workMax := by omega
  exact (tokens_of_reached reached).removal_backed inside stands below

/-- The buffer stores the added items that were not removed yet, in order. -/
def Ordered (s : State) : Prop :=
  ∃ stored, Stores queueSize s.fifo stored ∧ s.added.map some = s.removed ++ stored.map some

theorem ordered_of_reached (single : cons ≤ 1) (reached : Reached pros cons s) : Ordered s := by
  refine reached.invariantOfReachable (P := Ordered) ?_ ?_
  · exact ⟨[], queueInit_stores (by decide), rfl⟩
  · rintro thread middle target before ⟨stored, stores, order⟩ moved
    have logged := logged_of_reached before
    have length : middle.totalInserted = middle.totalConsumed + stored.length := by
      have lengths := congrArg List.length order
      simpa [logged.added, logged.removed] using lengths
    cases step_effect moved with
    | inserts i inside stands =>
        have counted : 0 < middle.producersAt pros .criticalSection := occupancy_pos inside stands
        have room := room_of_reached before
        unfold Room at room
        refine ⟨stored ++ [middle.totalInserted], queueAdd_stores stores (by omega), ?_⟩
        simp [State.moveProducer, order]
    | removes i inside stands =>
        have backed := removal_backed single before inside stands
        cases stored with
        | nil =>
            rw [List.length_nil] at length
            omega
        | cons oldest later =>
            rcases queueRemove_stores stores with ⟨returned, rest⟩
            refine ⟨later, rest, ?_⟩
            simp [State.moveConsumer, order, returned]
    | _ => exact ⟨stored, stores, order⟩

/-! ## The order over all families -/

/-- The values returned by the removals so far are the values put by the first
additions, in the same order, and no item was returned twice. A removal from an
empty buffer would make the first log longer than the second. -/
def FirstInFirstOut (s : State) : Prop :=
  s.removed <+: s.added.map some ∧ s.removed.Nodup

theorem firstInFirstOut_of_reached (few : pros = 0 ∨ cons ≤ 1) (reached : Reached pros cons s) :
    FirstInFirstOut s := by
  have logged := logged_of_reached reached
  have distinct : (s.added.map some).Nodup := by
    rw [logged.added]
    exact List.nodup_range.map (Option.some_injective Nat)
  have isPrefix : s.removed <+: s.added.map some := by
    rcases few with rfl | single
    · have nothing := totalConsumed_eq_zero_of_noProducer reached
      have empty : s.removed = [] := List.eq_nil_of_length_eq_zero (logged.removed.trans nothing)
      rw [empty]
      exact List.nil_prefix
    · rcases ordered_of_reached single reached with ⟨stored, -, order⟩
      exact ⟨stored.map some, order.symm⟩
  exact ⟨isPrefix, distinct.sublist isPrefix.sublist⟩

/-- Two consumers and a producer can remove once more than anything was added. -/
theorem exists_reached_not_firstInFirstOut (onePro : 1 ≤ pros) (twoCons : 2 ≤ cons) :
    ∃ s, Reached pros cons s ∧ ¬ FirstInFirstOut s := by
  rcases consumed_beyond onePro twoCons with ⟨s, reached, inserted, consumed⟩
  refine ⟨s, reached, fun order => ?_⟩
  have logged := logged_of_reached reached
  have lengths := order.1.length_le
  rw [List.length_map, logged.added, List.length_range, logged.removed] at lengths
  omega

/-- Removals return the added items in order in every run exactly when nothing
is produced or at most one consumer exists. -/
theorem firstInFirstOut_iff (pros cons : Nat) :
    (∀ s, Reached pros cons s → FirstInFirstOut s) ↔ pros = 0 ∨ cons ≤ 1 := by
  constructor
  · intro order
    by_contra many
    rcases exists_reached_not_firstInFirstOut (show 1 ≤ pros by omega) (show 2 ≤ cons by omega)
      with ⟨s, reached, disorder⟩
    exact disorder (order s reached)
  · intro few s reached
    exact firstInFirstOut_of_reached few reached

/-- One producer and two consumers already break the order. -/
theorem firstInFirstOut_fails : ¬ ∀ s, Reached 1 2 s → FirstInFirstOut s := by
  intro order
  rcases exists_reached_not_firstInFirstOut (show 1 ≤ 1 by decide) (show 2 ≤ 2 by decide) with
    ⟨s, reached, disorder⟩
  exact disorder (order s reached)

end QuashLabs.ProducerConsumer
