import Mathlib.Data.List.Perm.Subperm
import QuashLabs.ProducerConsumer.Order

/-!
# No item is overwritten before it was removed

The buffer holds the latest `queueSize` insertions at their own places, whatever the
consumers do. Up to `workMax` every removal is backed by an item, so the first
`workMax` removals return the first items in order; the few insertions behind the
limit are then too young to reach a place that is still waited for.
-/

namespace QuashLabs.ProducerConsumer

open QuashLabs.Ring QuashLabs.Transition

variable {pros cons : Nat} {s t : State}

/-- The inserted items that no removal has returned. The items are the values of
`total_inserted`, so they are distinct. -/
def State.unremoved (s : State) : List Nat :=
  s.added.filter fun item => some item ∉ s.removed

/-- A producer that is about to call `queueAdd` finds fewer than `queueSize` unremoved
items, and none of them at the place that it writes to. -/
def AddsIntoFreeSlot (pros : Nat) (s : State) : Prop :=
  ∀ i < pros, s.producers i = .criticalSection →
    s.unremoved.length < queueSize ∧
      ∀ item ∈ s.unremoved, s.fifo.buf[s.fifo.tail]? ≠ some (some item)

/-! ## What the buffer holds -/

/-- Head and tail follow the two counters, and the buffer holds the latest insertions,
each at its own place. -/
structure Laid (s : State) : Prop where
  length : s.fifo.buf.length = queueSize
  head : s.fifo.head = s.totalConsumed % queueSize
  tail : s.fifo.tail = s.totalInserted % queueSize
  slot : ∀ place item, s.fifo.buf[place]? = some (some item) ↔
    item < s.totalInserted ∧ s.totalInserted ≤ item + queueSize ∧ place = item % queueSize

theorem initialState_laid : Laid initialState where
  length := rfl
  head := rfl
  tail := rfl
  slot place item := by
    simp [initialState, queueInit, List.getElem?_replicate]

theorem Laid.effect (laid : Laid s) (effect : Effect pros cons s t) : Laid t := by
  rcases laid with ⟨length, head, tail, slot⟩
  cases effect with
  | inserts i inside stands =>
      have below : s.fifo.tail < queueSize := tail ▸ Nat.mod_lt _ (by decide)
      refine ⟨?_, head, ?_, ?_⟩
      · simp [State.moveProducer, queueAdd, length]
      · change (if s.fifo.tail + 1 = queueSize then 0 else s.fifo.tail + 1) =
          (s.totalInserted + 1) % queueSize
        rw [wrap_eq_mod below, tail, Nat.mod_add_mod]
      · intro place item
        change (s.fifo.buf.set s.fifo.tail (some s.totalInserted))[place]? = some (some item) ↔
          item < s.totalInserted + 1 ∧ s.totalInserted + 1 ≤ item + queueSize ∧
            place = item % queueSize
        rw [List.getElem?_set, length, if_pos below]
        by_cases written : s.fifo.tail = place
        · rw [if_pos written, Option.some.injEq, Option.some.injEq]
          simp only [queueSize] at tail ⊢
          omega
        · rw [if_neg written, slot]
          simp only [queueSize] at tail ⊢
          omega
  | removes i inside stands =>
      have below : s.fifo.head < queueSize := head ▸ Nat.mod_lt _ (by decide)
      refine ⟨length, ?_, tail, slot⟩
      change (if s.fifo.head + 1 = queueSize then 0 else s.fifo.head + 1) =
        (s.totalConsumed + 1) % queueSize
      rw [wrap_eq_mod below, head, Nat.mod_add_mod]
  | _ => exact ⟨length, head, tail, slot⟩

theorem laid_of_reached (reached : Reached pros cons s) : Laid s :=
  reached.invariant initialState_laid fun _ _ _ laid moved => laid.effect (step_effect moved)

/-! ## The first removals -/

/-- The first `workMax` removals returned the first items. -/
def ReturnsFirst (s : State) : Prop :=
  ∀ item < s.totalConsumed, item < workMax → s.removed[item]? = some (some item)

theorem returnsFirst_of_reached (reached : Reached pros cons s) : ReturnsFirst s := by
  refine reached.invariantOfReachable (P := ReturnsFirst) ?_ ?_
  · intro item consumed
    exact absurd consumed (Nat.not_lt_zero item)
  · intro thread middle target before returns moved
    cases step_effect moved with
    | removes i inside stands =>
        intro item consumed limited
        have logged := (logged_of_reached before).removed
        change (middle.removed ++ [(queueRemove queueSize middle.fifo).1])[item]? = _
        rcases Nat.lt_succ_iff_lt_or_eq.mp consumed with earlier | rfl
        · rw [List.getElem?_append_left (by omega)]
          exact returns item earlier limited
        · have laid := laid_of_reached before
          have backed := (tokens_of_reached before).removal_backed inside stands limited
          have room := room_of_reached before
          unfold Room at room
          have stored : middle.fifo.buf[middle.fifo.head]? = some (some middle.totalConsumed) :=
            (laid.slot _ _).mpr ⟨backed, by omega, laid.head⟩
          rw [← logged, List.getElem?_concat_length, logged]
          simp [queueRemove, stored]
    | _ => exact returns

/-! ## Insertions behind the limit -/

/-- The insertions done and decided on stay close to the limit. -/
def NearLimit (pros : Nat) (s : State) : Prop :=
  s.totalInserted + s.producersAt pros .criticalSection < workMax + queueSize

theorem Tokens.nearLimit (tokens : Tokens pros cons s) (more : s.totalInserted < workMax) :
    NearLimit pros s := by
  have room := tokens.room more
  have below : ¬ workMax ≤ s.totalConsumed := fun enough => by
    have inserted := tokens.inserted_enough enough
    omega
  unfold Room at room
  unfold NearLimit
  omega

theorem nearLimit_of_reached (reached : Reached pros cons s) : NearLimit pros s := by
  refine reached.invariantOfReachable (P := NearLimit pros) ?_ ?_
  · exact (initialState_tokens pros 0).nearLimit (by decide)
  · intro thread middle target before near moved
    rcases (step_effect moved).inserting with kept | ⟨below, same⟩
    · unfold NearLimit at near ⊢
      omega
    · have after := tokens_of_reached (before.tail moved)
      exact after.nearLimit (by omega)

/-! ## Additions -/

/-- An item that was never returned is younger than the removals or than the limit. -/
theorem ReturnsFirst.young (returns : ReturnsFirst s) {item : Nat}
    (waiting : item ∈ s.unremoved) : s.totalConsumed ≤ item ∨ workMax ≤ item := by
  by_contra old
  rw [not_or, Nat.not_le, Nat.not_le] at old
  have returned := List.mem_of_getElem? (returns item old.1 old.2)
  simp [State.unremoved, returned] at waiting

/-- The items below `bound` that lie at `low` or above it are few. -/
theorem length_filter_range_le {low bound : Nat} {p : Nat → Bool}
    (above : ∀ item < bound, p item = true → low ≤ item) :
    ((List.range bound).filter p).length ≤ bound - low := by
  have inside : (List.range bound).filter p ⊆ List.range' low (bound - low) := by
    intro item kept
    rw [List.mem_filter, List.mem_range] at kept
    have atLeast := above item kept.1 kept.2
    rw [List.mem_range'_1]
    omega
  have fewer := (List.subperm_of_subset (List.nodup_range.filter p) inside).length_le
  rwa [List.length_range'] at fewer

/-- In every run of any number of producers and consumers an addition goes to a free
slot. -/
theorem adds_into_free_slot (pros cons : Nat) :
    Always (step pros cons) (AddsIntoFreeSlot pros) initialState := by
  intro s reached i inside stands
  have counted : 0 < s.producersAt pros .criticalSection := occupancy_pos inside stands
  have room := room_of_reached reached
  have near := nearLimit_of_reached reached
  have returns := returnsFirst_of_reached reached
  unfold Room at room
  unfold NearLimit at near
  constructor
  · have few : s.unremoved.length ≤ s.totalInserted - min s.totalConsumed workMax := by
      have added := (logged_of_reached reached).added
      rw [State.unremoved, added]
      apply length_filter_range_le
      intro item bound kept
      have waiting : item ∈ s.unremoved := by
        rw [State.unremoved, added]
        exact List.mem_filter.mpr ⟨List.mem_range.mpr bound, kept⟩
      have young := returns.young waiting
      omega
    have positive : 0 < queueSize := by decide
    omega
  · intro item waiting stored
    have laid := laid_of_reached reached
    have young := returns.young waiting
    rw [laid.slot, laid.tail] at stored
    simp only [queueSize] at stored room near
    omega

end QuashLabs.ProducerConsumer
