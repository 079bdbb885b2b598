import Mathlib.Data.List.Induction
import QuashLabs.ProducerConsumer.Core
import QuashLabs.Ring.Window

/-!
# The shared queue stores a list

The queue structure represents the list of items that were added and not yet
removed. Every slot may be used, so head and tail coincide both when the queue
is empty and when it is full; the two flags tell the cases apart.
-/

namespace QuashLabs.ProducerConsumer

open QuashLabs.Ring

universe u

variable {α : Type u} {size : Nat} {q : Queue α} {items : List α} {item : α}

/-- The queue of `size` slots holds exactly `items`, the oldest first. -/
structure Stores (size : Nat) (q : Queue α) (items : List α) : Prop where
  length_buf : q.buf.length = size
  head_lt : q.head < size
  tail_eq : q.tail = (q.head + items.length) % size
  fits : items.length ≤ size
  window : Window q.buf size q.head items
  full_iff : q.full = true ↔ items.length = size
  empty_iff : q.empty = true ↔ items = []

theorem queueInit_stores (positive : 0 < size) : Stores size (queueInit size : Queue α) [] where
  length_buf := by simp [queueInit]
  head_lt := positive
  tail_eq := by simp [queueInit]
  fits := Nat.zero_le size
  window := Window.nil
  full_iff := by simp [queueInit]; omega
  empty_iff := by simp [queueInit]

theorem Stores.tail_lt (stores : Stores size q items) : q.tail < size := by
  rw [stores.tail_eq]
  exact Nat.mod_lt _ (Nat.zero_lt_of_lt stores.head_lt)

/-- The tail after one more addition. -/
theorem Stores.queueAdd_tail (stores : Stores size q items) :
    (queueAdd size q item).tail = (q.head + (items.length + 1)) % size := by
  calc
    (queueAdd size q item).tail = (q.tail + 1) % size := wrap_eq_mod stores.tail_lt
    _ = (q.head + items.length + 1) % size := by rw [stores.tail_eq, Nat.mod_add_mod]
    _ = (q.head + (items.length + 1)) % size := by rw [Nat.add_assoc]

/-- Adding to a queue with room appends the item. -/
theorem queueAdd_stores (stores : Stores size q items) (room : items.length < size) :
    Stores size (queueAdd size q item) (items ++ [item]) where
  length_buf := by simp [queueAdd, stores.length_buf]
  head_lt := stores.head_lt
  tail_eq := by
    rw [stores.queueAdd_tail, List.length_append, List.length_singleton]
    rfl
  fits := by
    rw [List.length_append, List.length_singleton]
    exact room
  window := by
    simp only [queueAdd, stores.tail_eq]
    exact stores.window.append room stores.length_buf.ge
  full_iff := by
    have notFull : q.full = false := by
      cases flag : q.full with
      | false => rfl
      | true => exact absurd (stores.full_iff.mp flag) (Nat.ne_of_lt room)
    -- The advanced tail meets the head exactly when the last free slot was used.
    have meets : (queueAdd size q item).tail = q.head ↔ items.length + 1 = size := by
      rw [stores.queueAdd_tail, add_mod_eq_start_iff stores.head_lt room]
      omega
    rw [List.length_append, List.length_singleton, ← meets]
    simp [queueAdd, notFull]
  empty_iff := by simp [queueAdd]

/-- Removing from a nonempty queue returns its oldest item. -/
theorem queueRemove_stores (stores : Stores size q (item :: items)) :
    (queueRemove size q).1 = some item ∧ Stores size (queueRemove size q).2 items := by
  have head_eq : (queueRemove size q).2.head = (q.head + 1) % size :=
    wrap_eq_mod stores.head_lt
  have head_lt : (queueRemove size q).2.head < size := by
    rw [head_eq]
    exact Nat.mod_lt _ (Nat.zero_lt_of_lt stores.head_lt)
  have tail_eq : q.tail = ((queueRemove size q).2.head + items.length) % size := by
    rw [head_eq, Nat.mod_add_mod, stores.tail_eq, List.length_cons]
    congr 1
    omega
  have shorter : items.length < size := stores.fits
  have returned : (queueRemove size q).1 = some item := by
    simp only [queueRemove, stores.window.head stores.head_lt]
    rfl
  refine ⟨returned, stores.length_buf, head_lt, tail_eq, shorter.le, ?_, ?_, ?_⟩
  · rw [head_eq]
    exact stores.window.tail
  · simp [queueRemove, Nat.ne_of_lt shorter]
  · have notEmpty : q.empty = false := by
      cases flag : q.empty with
      | false => rfl
      | true => exact absurd (stores.empty_iff.mp flag) (List.cons_ne_nil _ _)
    -- The advanced head meets the tail exactly when the last item was taken.
    have meets : (queueRemove size q).2.head = q.tail ↔ items = [] := by
      rw [tail_eq, eq_comm, add_mod_eq_start_iff head_lt shorter.le, ← List.length_eq_zero_iff]
      omega
    rw [← meets]
    simp [queueRemove, notEmpty]

/-! ## Calls in any order -/

/-- A call of a client of the queue. -/
inductive Call (α : Type u)
  | add (item : α)
  | remove
  deriving Repr, DecidableEq

/-- One call: the queue behind it, and the values stored in `*out` so far. -/
def Call.exec (size : Nat) : Queue α × List (Option α) → Call α → Queue α × List (Option α)
  | (q, out), .add item => (queueAdd size q item, out)
  | (q, out), .remove => ((queueRemove size q).2, out ++ [(queueRemove size q).1])

/-- The calls one after the other on a new queue. -/
def runCalls (size : Nat) (calls : List (Call α)) : Queue α × List (Option α) :=
  calls.foldl (Call.exec size) (queueInit size, [])

/-- The value that a call adds. -/
def Call.added? : Call α → Option α
  | .add item => some item
  | .remove => none

/-- The added values in order. -/
def addedBy (calls : List (Call α)) : List α := calls.filterMap Call.added?

/-- The number of removals. -/
def removals (calls : List (Call α)) : Nat := calls.countP fun call => call.added?.isNone

/-- The number of items stored behind the calls. -/
def storedBehind (calls : List (Call α)) : Nat := (addedBy calls).length - removals calls

/-- The call finds room for the item that it adds, or an item that it can remove. -/
def Call.Fitting (size stored : Nat) : Call α → Prop
  | .add _ => stored < size
  | .remove => 0 < stored

/-- Every call fits the number of items stored before it. -/
def Admitted (size : Nat) (calls : List (Call α)) : Prop :=
  ∀ before call after, calls = before ++ call :: after → call.Fitting size (storedBehind before)

theorem Admitted.of_prefix {before calls : List (Call α)} (admitted : Admitted size calls)
    (starts : before <+: calls) : Admitted size before := by
  rcases starts with ⟨after, rfl⟩
  rintro before' call after' rfl
  exact admitted before' call (after' ++ after) (by simp)

/-- The queue holds the added values that were not removed yet, the removed ones were added
before them. -/
structure Serves (size : Nat) (calls : List (Call α)) (items : List α) : Prop where
  stores : Stores size (runCalls size calls).1 items
  order : (runCalls size calls).2 ++ items.map some = (addedBy calls).map some
  count : (runCalls size calls).2.length = removals calls

theorem Serves.stored {calls : List (Call α)} (serves : Serves size calls items) :
    items.length = storedBehind calls := by
  have lengths := congrArg List.length serves.order
  rw [List.length_append, List.length_map, List.length_map, serves.count] at lengths
  rw [storedBehind, ← lengths, Nat.add_sub_cancel_left]

/-- One more call keeps the order. -/
theorem Serves.exec {calls : List (Call α)} {call : Call α} (serves : Serves size calls items)
    (fitting : call.Fitting size (storedBehind calls)) :
    ∃ items', Serves size (calls ++ [call]) items' := by
  have run : runCalls size (calls ++ [call]) = call.exec size (runCalls size calls) := by
    simp [runCalls]
  rw [← serves.stored] at fitting
  rcases serves with ⟨stores, order, count⟩
  rcases start : runCalls size calls with ⟨q, out⟩
  rw [start] at run stores order count
  cases call with
  | add item =>
      refine ⟨items ++ [item], ?_, ?_, ?_⟩
      · rw [run]
        exact queueAdd_stores stores fitting
      · rw [run, Call.exec, List.map_append, ← List.append_assoc, order]
        simp [addedBy, Call.added?]
      · rw [run, Call.exec, count]
        simp [removals, Call.added?]
  | remove =>
      cases items with
      | nil => exact absurd fitting (Nat.lt_irrefl 0)
      | cons first items =>
          obtain ⟨returned, stores'⟩ := queueRemove_stores stores
          refine ⟨items, ?_, ?_, ?_⟩
          · rw [run]
            exact stores'
          · rw [run, Call.exec, returned, List.append_assoc, List.singleton_append]
            rw [List.map_cons] at order
            simp [order, addedBy, Call.added?]
          · rw [run, Call.exec, List.length_append, count]
            simp [removals, Call.added?]

theorem exists_serves (positive : 0 < size) {calls : List (Call α)}
    (admitted : Admitted size calls) : ∃ items, Serves size calls items := by
  induction calls using List.reverseRecOn with
  | nil => exact ⟨[], queueInit_stores positive, rfl, rfl⟩
  | append_singleton calls call ih =>
      obtain ⟨items, serves⟩ := ih (admitted.of_prefix (List.prefix_append calls [call]))
      exact serves.exec (admitted calls call [] rfl)

/-- Behind every call of an admitted sequence the removed values are the first added ones in
their order, `full` says that all slots are used, `empty` that none is, and `head` and `tail`
are indices of slots. -/
theorem calls_in_order (positive : 0 < size) {calls before : List (Call α)}
    (admitted : Admitted size calls) (starts : before <+: calls) :
    let behind := runCalls size before
    behind.2 = ((addedBy before).take (removals before)).map some ∧
      (behind.1.full = true ↔ storedBehind before = size) ∧
      (behind.1.empty = true ↔ storedBehind before = 0) ∧
      behind.1.head < size ∧ behind.1.tail < size := by
  obtain ⟨items, serves⟩ := exists_serves positive (admitted.of_prefix starts)
  have stored := serves.stored
  refine ⟨?_, ?_, ?_, serves.stores.head_lt, serves.stores.tail_lt⟩
  · rw [List.map_take, ← serves.order, ← serves.count, List.take_left]
  · rw [serves.stores.full_iff, stored]
  · rw [serves.stores.empty_iff, ← List.length_eq_zero_iff, stored]

/-- One slot: an addition fills it and a removal empties it. -/
theorem calls_in_order_one :
    let behind := runCalls 1 [.add (-7), .remove, .add (3 : Int)]
    behind.2 = ((addedBy [.add (-7), .remove, .add (3 : Int)]).take
        (removals [.add (-7), .remove, .add (3 : Int)])).map some ∧
      (behind.1.full = true ↔ storedBehind [.add (-7), .remove, .add (3 : Int)] = 1) ∧
      (behind.1.empty = true ↔ storedBehind [.add (-7), .remove, .add (3 : Int)] = 0) ∧
      behind.1.head < 1 ∧ behind.1.tail < 1 := by
  have admitted : Admitted 1 [.add (-7), .remove, .add (3 : Int)] := by
    intro before call after split
    rcases before with _ | ⟨_, _ | ⟨_, _ | ⟨_, before⟩⟩⟩
    · obtain ⟨rfl, -⟩ := List.cons.inj split
      exact Nat.one_pos
    · simp only [List.cons_append, List.nil_append, List.cons.injEq] at split
      obtain ⟨rfl, rfl, -⟩ := split
      exact Nat.one_pos
    · simp only [List.cons_append, List.nil_append, List.cons.injEq] at split
      obtain ⟨rfl, rfl, rfl, -⟩ := split
      exact Nat.one_pos
    · simp at split
  exact calls_in_order Nat.one_pos admitted (List.prefix_refl _)

end QuashLabs.ProducerConsumer
