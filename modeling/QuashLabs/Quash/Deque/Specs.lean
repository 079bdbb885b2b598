import QuashLabs.Quash.Deque.Represents

/-!
# What the deque operations do

One specification for each generated function, in terms of the list that the
deque holds. Operations that may allocate return, or stop because memory has run
out; the others are equations.
-/

namespace QuashLabs.Quash

open QuashLabs.Checked QuashLabs.Ring

variable {α M σ : Type}

/-- An array is kept with its capacity, or a new one for `cap` elements is
allocated and the old one released after that. -/
inductive Allocation.Moved (mem : Allocation M) (oldCap cap : Nat) :
    Block α → M → Block α → M → Prop
  | kept {old new : Block α} {m : M} (same : cap = oldCap) (address : new.address = old.address) :
      Moved mem oldCap cap old m new m
  | replaced {old new : Block α} {m m' : M}
      (answer : mem.alloc (cap * mem.elementSize) m = .ok (some new.address, m')) :
      Moved mem oldCap cap old m new (mem.release old.address m')

/-- Writing to the array moves nothing. -/
theorem Allocation.Moved.write {mem : Allocation M} {oldCap cap : Nat} {old new : Block α}
    {m m' : M} (moved : mem.Moved oldCap cap old m new m') (slots : List (Option α)) :
    mem.Moved oldCap cap old m { new with slots := slots } m' := by
  cases moved with
  | kept same address => exact .kept same address
  | replaced answer => exact .replaced answer

namespace Deque

variable {mem : Allocation M} {deq : Deque α M} {block : Block α} {items : List α} {m : M}

/-- The capacity that a push leaves. -/
def pushCap (deq : Deque α M) : Nat :=
  if deq.front = (deq.back + 1) % deq.cap then 2 * deq.cap else deq.cap

/-- A deque that holds `items` after an operation on one with the array `block`. -/
def HoldsAfter (mem : Allocation M) (deq : Deque α M) (block : Block α) (m : M) (items : List α)
    (after : Deque α M × M) : Prop :=
  ∃ block', after.1.Represents mem block' items ∧ after.1.destructor = deq.destructor ∧
    mem.Moved deq.cap after.1.cap block m block' after.2

theorem fits_one (mem : Allocation M) : mem.Fits 1 :=
  ⟨by omega, by simpa using mem.elementSizeFits⟩

theorem new_ends {initCap : Nat} (fits : mem.Fits initCap) (m : M) :
    Ends (fun made : Deque α M × M => ∃ block, made.1.Represents mem block [] ∧
        made.1.cap = max initCap 1 ∧ made.1.destructor = none ∧
        mem.alloc (initCap * mem.elementSize) m = .ok (some block.address, made.2))
      Failure.OutOfMemory (new mem initCap m) := by
  rw [new, Allocation.array_eq fits]
  cases answer : mem.alloc (initCap * mem.elementSize) m with
  | error failure => exact mem.allocStops _ _ _ answer
  | ok result =>
      rcases result with ⟨_ | address, m'⟩
      · exact mem.newStops
      · have cap : (if 0 < initCap then initCap else 1) = max initCap 1 := by
          split <;> omega
        simp only [Except.map, Option.map_some, ok_bind, Ends.ok_iff, cap]
        refine ⟨_, ⟨rfl, ?_, ?_, ?_, ?_, .nil, ?_⟩, trivial, trivial, rfl⟩
        · rcases Nat.le_total initCap 1 with small | large
          · simpa [Nat.max_eq_right small] using fits_one mem
          · simpa [Nat.max_eq_left large] using fits
        · exact Nat.lt_of_lt_of_le Nat.zero_lt_one (Nat.le_max_right _ _)
        · simp
        · exact Nat.lt_of_lt_of_le Nat.zero_lt_one (Nat.le_max_right _ _)
        · simp only [Block.Covers, List.length_replicate]
          omega

theorem pushCap_eq (rep : Represents mem deq block items) :
    deq.pushCap = if items.length + 1 = deq.cap then 2 * deq.cap else deq.cap := by
  unfold pushCap
  rw [rep.backAt, Nat.mod_add_mod, Nat.add_assoc]
  simp only [full_iff rep]

/-- The elements are copied to the start of a new array with room for more of them, which
takes the place of the old one. -/
theorem copied_spec (rep : Represents mem deq block items) {cap : Nat} (fits : mem.Fits cap)
    (larger : items.length < cap) {address : Nat} {m' : M}
    (answer : mem.alloc (cap * mem.elementSize) m = .ok (some address, m')) :
    ∃ copied, copyLoop block deq.front deq.cap items.length 0
        { address := address, slots := List.replicate cap none } = .ok copied ∧
      HoldsAfter mem deq block m items
        ({ deq with data := some copied, cap := cap, front := 0, back := items.length },
          mem.release block.address m') := by
  obtain ⟨copied, runs, sameAddress, size, window⟩ := copyLoop_spec rep
    (Nat.zero_add items.length) { address := address, slots := List.replicate cap none }
    (by simp; omega) (by simp)
  rw [List.length_replicate] at size
  refine ⟨copied, runs, copied, ⟨rfl, fits, Nat.zero_lt_of_lt larger, ?_, larger, ?_, ?_⟩, rfl, ?_⟩
  · simp [Nat.mod_eq_of_lt larger]
  · simpa [size] using window
  · exact .inl (by simp [size])
  · exact .replaced (by rw [answer, sameAddress])

/-- `__on_push` leaves a free slot beside the one that is always free. -/
theorem onPush_ends (rep : Represents mem deq block items) (fits : mem.Fits deq.pushCap) (m : M) :
    Ends (fun after => HoldsAfter mem deq block m items after ∧
        items.length + 1 < after.1.cap ∧ after.1.cap = deq.pushCap)
      Failure.OutOfMemory (deq.onPush mem m) := by
  have capSmall := rep.fits.small
  have room := rep.room
  have capAfter := pushCap_eq rep
  simp only [onPush, validData_eq rep, onPush_test rep, ok_bind]
  by_cases full : items.length + 1 = deq.cap
  · rw [if_pos full] at capAfter
    rw [capAfter] at fits
    have count : subSize deq.cap 1 = items.length := by
      rw [subSize_eq (by omega) (by unfold sizeRange; omega)]
      omega
    rw [if_pos ((full_iff rep).mpr full), mulSize_eq (by unfold sizeRange; omega),
      Allocation.array_eq fits, count]
    cases answer : mem.alloc (2 * deq.cap * mem.elementSize) m with
    | error failure => exact mem.allocStops _ _ _ answer
    | ok result =>
        rcases result with ⟨_ | address, m'⟩
        · exact show Failure.OutOfMemory
            (.abort "ERROR: Failed to reallocate struct_name contents\n") by decide
        · have larger : items.length + 1 < 2 * deq.cap := by omega
          obtain ⟨copied, runs, holds⟩ := copied_spec rep fits (Nat.lt_of_succ_lt larger) answer
          simp only [Except.map, Option.map_some, ok_bind, runs, pure_eq_ok, Ends.ok_iff]
          exact ⟨holds, larger, capAfter.symm⟩
  · rw [if_neg full] at capAfter
    rw [if_neg (mt (full_iff rep).mp full)]
    have free : items.length + 1 < deq.cap := by omega
    exact ⟨⟨block, rep, rfl, .kept rfl rfl⟩, free, capAfter.symm⟩

/-- With a free slot beside the one that is always free, the array covers the capacity. -/
theorem covers_of_room (rep : Represents mem deq block items) (free : items.length + 1 < deq.cap) :
    deq.cap ≤ block.slots.length :=
  rep.covers.resolve_right (by omega)

theorem pushBack_ends (rep : Represents mem deq block items) (fits : mem.Fits deq.pushCap)
    (element : α) (m : M) :
    Ends (fun after => HoldsAfter mem deq block m (items ++ [element]) after ∧
        after.1.cap = deq.pushCap)
      Failure.OutOfMemory (deq.pushBack mem element m) := by
  simp only [pushBack, validData_eq rep, ok_bind]
  apply (onPush_ends rep fits m).bind
  rintro ⟨grown, m'⟩ pushed
  rcases pushed with ⟨⟨block', rep', destructor, moved⟩, free, cap⟩
  have covers := covers_of_room rep' free
  have backInside := back_inside rep'
  have capSmall := rep'.fits.small
  have index : modSize (addSize grown.back 1) grown.cap =
      .ok ((grown.front + (items ++ [element]).length) % grown.cap) := by
    simpa using onPush_test rep'
  simp only [validData_eq rep', ok_bind, Block.write,
    if_pos (Nat.lt_of_lt_of_le backInside covers), index, pure_eq_ok, Ends.ok_iff]
  refine ⟨⟨_, ⟨rfl, rep'.fits, rep'.frontInside, rfl, by simpa using free, ?_, ?_⟩, destructor, ?_⟩,
    cap⟩
  · change Window (block'.slots.set grown.back (some element)) _ _ _
    rw [rep'.backAt]
    exact rep'.window.append rep'.room covers
  · exact .inl (by simpa using covers)
  · exact moved.write _

theorem pushFront_ends (rep : Represents mem deq block items) (fits : mem.Fits deq.pushCap)
    (element : α) (m : M) :
    Ends (fun after => HoldsAfter mem deq block m (element :: items) after ∧
        after.1.cap = deq.pushCap)
      Failure.OutOfMemory (deq.pushFront mem element m) := by
  simp only [pushFront, validData_eq rep, ok_bind]
  apply (onPush_ends rep fits m).bind
  rintro ⟨grown, m'⟩ pushed
  rcases pushed with ⟨⟨block', rep', destructor, moved⟩, free, cap⟩
  have covers := covers_of_room rep' free
  have slot : (grown.front + grown.cap - 1) % grown.cap < grown.cap :=
    Nat.mod_lt _ (Nat.zero_lt_of_lt free)
  simp only [before_eq rep'.fits.small rep'.frontInside, validData_eq rep', ok_bind, Block.write,
    if_pos (Nat.lt_of_lt_of_le slot covers), pure_eq_ok, Ends.ok_iff]
  refine ⟨⟨_, ⟨rfl, rep'.fits, slot, ?_, by simpa using free, ?_, ?_⟩, destructor, ?_⟩, cap⟩
  · rw [List.length_cons, pred_add_mod rep'.frontInside]
    exact rep'.backAt
  · exact rep'.window.cons rep'.room rep'.frontInside covers
  · exact .inl (by simpa using covers)
  · exact moved.write _

/-- `__reallign` moves the elements to the start of an array. -/
theorem reallign_ends (rep : Represents mem deq block items) (m : M) :
    Ends (fun after => HoldsAfter mem deq block m items after ∧ after.1.front = 0)
      Failure.OutOfMemory (deq.reallign mem m) := by
  have room := rep.room
  simp only [reallign, validData_eq rep, length_eq rep, ok_bind]
  by_cases aligned : deq.front = 0
  · rw [if_neg (by simpa using aligned)]
    exact ⟨⟨block, rep, rfl, .kept rfl rfl⟩, aligned⟩
  · rw [if_pos aligned, Allocation.array_eq rep.fits]
    cases answer : mem.alloc (deq.cap * mem.elementSize) m with
    | error failure => exact mem.allocStops _ _ _ answer
    | ok result =>
        rcases result with ⟨_ | address, m'⟩
        · exact show Failure.OutOfMemory
            (.abort "ERROR: Failed to reallocate struct_name contents") by decide
        · obtain ⟨copied, runs, holds⟩ := copied_spec rep rep.fits room answer
          simp only [Except.map, Option.map_some, ok_bind, runs, pure_eq_ok, Ends.ok_iff]
          exact ⟨holds, trivial⟩

/-- `as_array` returns the elements at the start of an array that it gives away. -/
theorem asArray_ends (rep : Represents mem deq block items) (len : Bool) (m : M) :
    Ends (fun result =>
        result.1.1.slots.take items.length = items.map some ∧
        result.1.2 = (if len then some items.length else none) ∧
        ∃ cap, mem.Moved deq.cap cap block m result.1.1 result.2.2)
      Failure.OutOfMemory (deq.asArray mem len m) := by
  simp only [asArray, validData_eq rep, ok_bind]
  apply (reallign_ends rep m).bind
  rintro ⟨moved, m'⟩ alligned
  rcases alligned with ⟨⟨block', rep', -, effect⟩, front⟩
  have array : block'.slots.take items.length = items.map some := by
    have window := rep'.window
    rw [front] at window
    exact window.take_eq (Nat.le_of_lt rep'.room)
  cases len <;>
    simpa [validData_eq rep', length_eq rep', array] using ⟨_, effect⟩

/-! ## Operations on one end of a deque -/

theorem assertNonempty_of_ne_nil (rep : Represents mem deq block items) (nonempty : items ≠ []) :
    deq.assertNonempty = .ok () := by
  simp [assertNonempty, isEmpty_eq rep, nonempty]

/-- The slot before `back` holds the last element. -/
theorem read_last {element : α} (rep : Represents mem deq block (items ++ [element])) :
    (deq.back + deq.cap - 1) % deq.cap = (deq.front + items.length) % deq.cap ∧
      block.read ((deq.back + deq.cap - 1) % deq.cap) = .ok element := by
  have capPos : 0 < deq.cap := Nat.zero_lt_of_lt rep.room
  have slot : (deq.back + deq.cap - 1) % deq.cap = (deq.front + items.length) % deq.cap := by
    have behind := rep.backAt
    rw [List.length_append, List.length_singleton] at behind
    rw [behind, Nat.add_sub_assoc capPos, Nat.mod_add_mod,
      show deq.front + (items.length + 1) + (deq.cap - 1) =
        deq.front + items.length + deq.cap by omega, Nat.add_mod_right]
  exact ⟨slot, by rw [slot, Block.read, rep.window.last]⟩

theorem read_first {element : α} (rep : Represents mem deq block (element :: items)) :
    block.read deq.front = .ok element := by
  rw [Block.read, rep.window.head rep.frontInside]

/-- A nonempty deque has its whole capacity in the array. -/
theorem covers_of_ne_nil (rep : Represents mem deq block items) (nonempty : items ≠ []) :
    deq.cap ≤ block.slots.length := by
  have room := rep.room
  have some_ := List.length_pos_iff.mpr nonempty
  exact rep.covers.resolve_right (by omega)

theorem peekFront_eq {element : α} (rep : Represents mem deq block (element :: items)) :
    deq.peekFront = .ok element := by
  simp [peekFront, validData_eq rep, assertNonempty_of_ne_nil rep, read_first rep]

theorem peekBack_eq {element : α} (rep : Represents mem deq block (items ++ [element])) :
    deq.peekBack = .ok element := by
  simp [peekBack, validData_eq rep, assertNonempty_of_ne_nil rep,
    before_eq rep.fits.small (back_inside rep), (read_last rep).2]

theorem updateBack_eq {old : α} (element : α) (rep : Represents mem deq block (items ++ [old])) :
    ∃ after block', deq.updateBack element = .ok after ∧
      after.Represents mem block' (items ++ [element]) ∧ block'.address = block.address ∧
      after.destructor = deq.destructor ∧ after.cap = deq.cap := by
  have covers := covers_of_ne_nil rep (by simp)
  rcases read_last rep with ⟨slot, -⟩
  have inside : (deq.back + deq.cap - 1) % deq.cap < block.slots.length :=
    Nat.lt_of_lt_of_le (Nat.mod_lt _ (Nat.zero_lt_of_lt rep.room)) covers
  have room := rep.room
  rw [List.length_append, List.length_singleton] at room
  let block' : Block α :=
    { block with slots := block.slots.set ((deq.back + deq.cap - 1) % deq.cap) (some element) }
  refine ⟨{ deq with data := some block' }, block', ?_, ?_, rfl, rfl, rfl⟩
  · simp [updateBack, validData_eq rep, assertNonempty_of_ne_nil rep, Block.write, inside,
      before_eq rep.fits.small (back_inside rep), block']
  · have window := rep.window.setLast (y := element) (Nat.lt_of_succ_lt room) covers
    rw [← slot] at window
    exact ⟨rfl, rep.fits, rep.frontInside, by simpa using rep.backAt, by simpa using room, window,
      by simpa [Block.Covers, block'] using rep.covers⟩

end Deque

end QuashLabs.Quash
