import QuashLabs.Quash.Deque.Core
import QuashLabs.Ring.Window

/-!
# What a deque holds

`Represents` relates a generated structure to the list of its elements. The
array is a circular buffer with one slot kept free, so that `front = back` only
when the list is empty. A deque made with capacity zero has `cap = 1` and an
array without slots; it is full from the start, so its array is replaced before
it is touched.
-/

namespace QuashLabs.Quash

open QuashLabs.Checked QuashLabs.Ring

variable {α M σ : Type}

/-- A capacity below `2^63` whose array size is a value of `size_t`. -/
structure Allocation.Fits (mem : Allocation M) (cap : Nat) : Prop where
  small : cap < 2 ^ 63
  bytes : cap * mem.elementSize < sizeRange

/-- The array has room for the capacity, unless the capacity is one. -/
def Block.Covers (block : Block α) (cap : Nat) : Prop :=
  cap ≤ block.slots.length ∨ cap = 1

/-- `deq` is valid, its array is `block`, and it holds `items` from front to back. -/
structure Deque.Represents (mem : Allocation M) (deq : Deque α M) (block : Block α)
    (items : List α) : Prop where
  data : deq.data = some block
  fits : mem.Fits deq.cap
  frontInside : deq.front < deq.cap
  backAt : deq.back = (deq.front + items.length) % deq.cap
  room : items.length < deq.cap
  window : Window block.slots deq.cap deq.front items
  covers : block.Covers deq.cap

theorem Allocation.array_eq {mem : Allocation M} {count : Nat} (fits : mem.Fits count) (m : M) :
    mem.array α count m = (mem.alloc (count * mem.elementSize) m).map fun answer =>
      (answer.1.map fun address =>
        { address := address, slots := List.replicate count none }, answer.2) := by
  rw [array, mulSize_eq fits.bytes, Nat.mul_div_cancel _ mem.elementSizePos]
  cases mem.alloc (count * mem.elementSize) m <;> rfl

namespace Deque

variable {mem : Allocation M} {deq : Deque α M} {block : Block α} {items : List α}

/-! ## Indices and loops -/

/-- `(back - front + cap) % cap` is the number of elements. -/
theorem length_eq (rep : Represents mem deq block items) : deq.length = .ok items.length := by
  have capSmall := rep.fits.small
  have frontInside := rep.frontInside
  have room := rep.room
  have backAt := rep.backAt
  simp only [length, validData, rep.data, ok_bind]
  rw [modSize_eq (by omega)]
  congr 1
  rcases Nat.lt_or_ge (deq.front + items.length) deq.cap with straight | wrapped
  · rw [Nat.mod_eq_of_lt straight] at backAt
    rw [subSize_eq (by omega) (by unfold sizeRange; omega),
      addSize_eq (by unfold sizeRange; omega), backAt, Nat.add_sub_cancel_left,
      Nat.add_mod_right, Nat.mod_eq_of_lt room]
  · rw [Nat.mod_eq_sub_mod wrapped, Nat.mod_eq_of_lt (by omega)] at backAt
    have distance : addSize (subSize deq.back deq.front) deq.cap = items.length := by
      unfold addSize subSize sizeRange
      omega
    rw [distance, Nat.mod_eq_of_lt room]

theorem back_inside (rep : Represents mem deq block items) : deq.back < deq.cap := by
  rw [rep.backAt]
  exact Nat.mod_lt _ (Nat.zero_lt_of_lt rep.room)

/-- `front == back` only when the deque holds nothing. -/
theorem isEmpty_eq (rep : Represents mem deq block items) :
    deq.isEmpty = .ok (decide (items = [])) := by
  have fullCircle := add_mod_eq_start_iff rep.frontInside (Nat.le_of_lt rep.room)
  have notFull := Nat.ne_of_lt rep.room
  have same : deq.front = deq.back ↔ items = [] := by
    rw [eq_comm, rep.backAt, fullCircle, ← List.length_eq_zero_iff]
    omega
  simp [isEmpty, validData, rep.data, same]

theorem validData_eq (rep : Represents mem deq block items) : deq.validData = .ok block := by
  rw [validData, rep.data]

/-- The array is full when one more element would close the circle. -/
theorem onPush_test (rep : Represents mem deq block items) :
    modSize (addSize deq.back 1) deq.cap =
      .ok ((deq.front + (items.length + 1)) % deq.cap) := by
  have capSmall := rep.fits.small
  have backInside := back_inside rep
  rw [addSize_eq (by unfold sizeRange; omega), modSize_eq (by omega), rep.backAt,
    Nat.mod_add_mod, Nat.add_assoc]

theorem full_iff (rep : Represents mem deq block items) :
    deq.front = (deq.front + (items.length + 1)) % deq.cap ↔ items.length + 1 = deq.cap := by
  rw [eq_comm, add_mod_eq_start_iff rep.frontInside rep.room]
  omega

/-- The index of the slot before `index`. -/
theorem before_eq {cap index : Nat} (capSmall : cap < 2 ^ 63) (inside : index < cap) :
    modSize (subSize (addSize index cap) 1) cap = .ok ((index + cap - 1) % cap) := by
  rw [addSize_eq (by unfold sizeRange; omega), subSize_eq (by omega) (by unfold sizeRange; omega),
    modSize_eq (by omega)]

theorem read_window {i : Nat} (rep : Represents mem deq block items) (inside : i < items.length) :
    modSize (addSize deq.front i) deq.cap = .ok ((deq.front + i) % deq.cap) ∧
      block.read ((deq.front + i) % deq.cap) = .ok items[i] := by
  have capSmall := rep.fits.small
  have frontInside := rep.frontInside
  have room := rep.room
  constructor
  · rw [addSize_eq (by unfold sizeRange; omega), modSize_eq (by omega)]
  · rw [Block.read, rep.window i inside]

/-- The loop of `apply` visits the elements from the front to the back. -/
theorem applyLoop_eq (rep : Represents mem deq block items) (func : α → σ → Except Failure σ)
    {i count : Nat} (rounds : i + count = items.length) (s : σ) :
    applyLoop func block deq.front deq.cap count i s =
      (items.drop i).foldlM (fun s element => func element s) s := by
  induction count generalizing i s with
  | zero =>
      rw [List.drop_eq_nil_of_le (by omega)]
      rfl
  | succ count ih =>
      have inside : i < items.length := by omega
      rcases read_window rep inside with ⟨slot, element⟩
      rw [List.drop_eq_getElem_cons inside, List.foldlM_cons]
      simp only [applyLoop, slot, element, ok_bind]
      exact congrArg _ (funext fun s => ih (by omega) s)

theorem apply_eq (rep : Represents mem deq block items) (func : α → σ → Except Failure σ) (s : σ) :
    deq.apply func s = items.foldlM (fun s element => func element s) s := by
  simp only [apply, validData_eq rep, length_eq rep, ok_bind]
  exact applyLoop_eq rep func (by omega) s

/-- The copying loop writes the elements from the front to the back at the
start of the new array. -/
theorem copyLoop_spec (rep : Represents mem deq block items) {i count : Nat}
    (rounds : i + count = items.length) (target : Block α)
    (covers : items.length ≤ target.slots.length)
    (done : Window target.slots target.slots.length 0 (items.take i)) :
    ∃ copied, copyLoop block deq.front deq.cap count i target = .ok copied ∧
      copied.address = target.address ∧ copied.slots.length = target.slots.length ∧
      Window copied.slots copied.slots.length 0 items := by
  induction count generalizing i target with
  | zero =>
      have all : items.take i = items := List.take_of_length_le (by omega)
      exact ⟨target, rfl, rfl, rfl, all ▸ done⟩
  | succ count ih =>
      have inside : i < items.length := by omega
      rcases read_window rep inside with ⟨slot, element⟩
      have bound : i < target.slots.length := by omega
      have written := done.append (x := items[i]) (by simp; omega) le_rfl
      have position : (0 + (items.take i).length) % target.slots.length = i := by
        rw [List.length_take, Nat.min_eq_left (by omega), Nat.zero_add, Nat.mod_eq_of_lt bound]
      rw [position, List.take_append_getElem inside] at written
      obtain ⟨copied, runs, address, size, window⟩ :=
        ih (i := i + 1) (by omega) { target with slots := target.slots.set i (some items[i]) }
          (by simpa using covers) (by simpa using written)
      refine ⟨copied, ?_, address, by simpa using size, window⟩
      simp only [copyLoop, slot, element, ok_bind, Block.write, if_pos bound, runs]

end Deque

end QuashLabs.Quash
