import QuashLabs.Quash.Deque.Runs

/-!
# Where a deque reads and writes

No call of a client ends with an access outside the array of the deque or with a modulus by
zero. The indices stay below the capacity, and the array has a slot for each index unless
the capacity is one; then no element is stored, so that nothing is read, and a push
replaces the array before it writes. What the memory holds in slots that were never
written is the choice of the environment before each call, so that reading such a slot
does not end a run.
-/

namespace QuashLabs.Quash

open QuashLabs.Checked

variable {α M σ : Type}

/-- How an access outside an array, a read of a slot without a value and a modulus by zero
end. -/
def accessFailures : List Failure := [.outOfBounds, .uninitialised, .divisionByZero]

/-- A computation that ends with none of these, and with `post` if it returns. -/
abbrev Accesses {β : Type} (post : β → Prop) : Except Failure β → Prop :=
  Ends post fun failure => failure ∉ accessFailures

/-- A callback ends with none of these. -/
def OwnFailures (func : α → σ → Except Failure σ) : Prop :=
  ∀ element s, Accesses (fun _ => True) (func element s)

/-- Every slot holds a value. -/
def Block.Settled (block : Block α) : Prop := ∀ slot ∈ block.slots, slot ≠ none

/-- The array with the contents of the memory where nothing was written. -/
def Block.settle (contents : Nat → α) (block : Block α) : Block α :=
  { block with slots := block.slots.mapIdx fun i slot => some (slot.getD (contents i)) }

theorem Block.settled_settle (contents : Nat → α) (block : Block α) :
    (block.settle contents).Settled := by
  intro slot member
  obtain ⟨i, inside, rfl⟩ := List.mem_mapIdx.mp member
  exact Option.some_ne_none _

theorem not_access_of_outOfMemory {failure : Failure} (out : failure.OutOfMemory) :
    failure ∉ accessFailures := by
  have apart : ∀ failure ∈ memoryFailures, failure ∉ accessFailures := by decide
  exact apart failure out

/-! ## Arrays -/

theorem Block.read_accesses {block : Block α} {i : Nat} (settled : block.Settled)
    (inside : i < block.slots.length) : Accesses (fun _ => True) (block.read i) := by
  have found := List.getElem?_eq_getElem inside
  have written := settled _ (List.getElem_mem inside)
  unfold Block.read
  rw [found]
  cases slot : block.slots[i] with
  | none => exact absurd slot written
  | some element => exact True.intro

theorem Block.write_accesses {block : Block α} {i : Nat} (inside : i < block.slots.length)
    (element : α) :
    Accesses (fun after => after.slots.length = block.slots.length) (block.write i element) := by
  rw [Block.write, if_pos inside]
  exact List.length_set

theorem Allocation.array_accesses (mem : Allocation M) {count : Nat}
    (bytes : count * mem.elementSize < sizeRange) (m : M) :
    Accesses (fun result => ∀ block, result.1 = some block → block.slots.length = count)
      (mem.array α count m) := by
  rw [Allocation.array, mulSize_eq bytes, Nat.mul_div_cancel _ mem.elementSizePos]
  cases answer : mem.alloc (count * mem.elementSize) m with
  | error failure => exact not_access_of_outOfMemory (mem.allocStops _ _ _ answer)
  | ok result =>
      rcases result with ⟨address, m'⟩
      intro block made
      obtain ⟨_, -, rfl⟩ := Option.map_eq_some_iff.mp made
      exact List.length_replicate

theorem modSize_accesses {a cap : Nat} (positive : 0 < cap) :
    Accesses (fun index => index < cap) (modSize a cap) := by
  rw [modSize_eq positive]
  exact Nat.mod_lt a positive

/-- A slot below the capacity is read where the array covers the capacity. -/
theorem slot_accesses {block : Block α} {a cap : Nat} (settled : block.Settled)
    (positive : 0 < cap) (covers : cap ≤ block.slots.length) {β : Type} {post : β → Prop}
    {next : α → Except Failure β} (ends : ∀ element, Accesses post (next element)) :
    Accesses post (modSize a cap >>= fun slot => block.read slot >>= next) := by
  apply (modSize_accesses positive).bind
  intro slot inside
  apply (Block.read_accesses settled (Nat.lt_of_lt_of_le inside covers)).bind
  intro element _
  exact ends element

namespace Deque

/-- Copying reads inside the old array and writes inside the new one. -/
theorem copyLoop_accesses {old block : Block α} {front cap count i : Nat} (settled : old.Settled)
    (positive : 0 < cap) (covers : count = 0 ∨ cap ≤ old.slots.length)
    (room : i + count ≤ block.slots.length) :
    Accesses (fun copied => copied.slots.length = block.slots.length)
      (copyLoop old front cap count i block) := by
  induction count generalizing i block with
  | zero => exact rfl
  | succ count ih =>
      have covers : cap ≤ old.slots.length := covers.resolve_left (Nat.succ_ne_zero count)
      apply slot_accesses settled positive covers
      intro element
      apply (Block.write_accesses (by omega) element).bind
      intro written length
      rw [← length]
      exact ih (.inr covers) (by omega)

/-- The loop of `apply` reads inside the array. -/
theorem applyLoop_accesses {func : α → σ → Except Failure σ} (own : OwnFailures func)
    {block : Block α} {front cap count i : Nat} (settled : block.Settled) (positive : 0 < cap)
    (covers : count = 0 ∨ cap ≤ block.slots.length) (s : σ) :
    Accesses (fun _ => True) (applyLoop func block front cap count i s) := by
  induction count generalizing i s with
  | zero => exact True.intro
  | succ count ih =>
      have covers : cap ≤ block.slots.length := covers.resolve_left (Nat.succ_ne_zero count)
      apply slot_accesses settled positive covers
      intro element
      apply (own element s).bind
      intro s' _
      exact ih (.inr covers) s'

/-! ## The invariant -/

/-- The indices of a deque with an array are below its capacity, the array has a slot for
each unless the capacity is one, and its size is a `size_t`. -/
structure Bounded (mem : Allocation M) (deq : Deque α M) (block : Block α) : Prop where
  data : deq.data = some block
  bytes : deq.cap * mem.elementSize < sizeRange
  frontInside : deq.front < deq.cap
  backInside : deq.back < deq.cap
  covers : block.Covers deq.cap

/-- A deque with an array is bounded. -/
structure Safe (mem : Allocation M) (deq : Deque α M) : Prop where
  bounded : ∀ block, deq.data = some block → deq.Bounded mem block
  destructor : ∀ func, deq.destructor = some func → OwnFailures func

variable {mem : Allocation M} {deq : Deque α M} {block : Block α}

theorem Bounded.capPos (bounded : deq.Bounded mem block) : 0 < deq.cap :=
  Nat.zero_lt_of_lt bounded.frontInside

theorem Bounded.validData_eq (bounded : deq.Bounded mem block) : deq.validData = .ok block := by
  rw [validData, bounded.data]

/-- The capacity of an array that may hold nothing is one, and then the deque is empty. -/
theorem Bounded.covers_of_ne (bounded : deq.Bounded mem block) (other : deq.front ≠ deq.back) :
    deq.cap ≤ block.slots.length := by
  have frontInside := bounded.frontInside
  have backInside := bounded.backInside
  exact bounded.covers.resolve_right (by omega)

theorem Bounded.length_accesses (bounded : deq.Bounded mem block) :
    Accesses (fun len => len < deq.cap ∧ (len = 0 ∨ deq.cap ≤ block.slots.length)) deq.length := by
  simp only [length, bounded.validData_eq, ok_bind]
  apply (modSize_accesses bounded.capPos).mono
  · intro len _ inside
    refine ⟨inside, ?_⟩
    rcases bounded.covers with covers | single
    · exact .inr covers
    · exact .inl (by omega)
  · exact fun _ notAccess => notAccess

theorem Bounded.apply_accesses (bounded : deq.Bounded mem block) (settled : block.Settled)
    {func : α → σ → Except Failure σ} (own : OwnFailures func) (s : σ) :
    Accesses (fun _ => True) (deq.apply func s) := by
  simp only [apply, bounded.validData_eq, ok_bind]
  apply bounded.length_accesses.bind
  rintro len ⟨-, covers⟩
  exact applyLoop_accesses own settled bounded.capPos covers s

/-- A deque with an array that covers its capacity. -/
def Covered (mem : Allocation M) (deq after : Deque α M) : Prop :=
  ∃ block, after.Bounded mem block ∧ after.cap ≤ block.slots.length ∧
    after.destructor = deq.destructor

theorem Bounded.cap_small (bounded : deq.Bounded mem block) : deq.cap < sizeRange :=
  Nat.lt_of_le_of_lt (Nat.le_mul_of_pos_right deq.cap mem.elementSizePos) bounded.bytes

/-- Behind `__on_push` the array covers the capacity, also when it was one. -/
theorem Bounded.onPush_accesses (bounded : deq.Bounded mem block) (settled : block.Settled)
    (bytes : deq.pushCap * mem.elementSize < sizeRange) (m : M) :
    Accesses (fun after => Covered mem deq after.1) (deq.onPush mem m) := by
  have frontInside := bounded.frontInside
  have backInside := bounded.backInside
  have capSmall := bounded.cap_small
  have positive := bounded.capPos
  have next : addSize deq.back 1 = deq.back + 1 := addSize_eq (by omega)
  simp only [onPush, bounded.validData_eq, next, modSize_eq positive, ok_bind]
  by_cases full : deq.front = (deq.back + 1) % deq.cap
  · rw [pushCap, if_pos full] at bytes
    have doubled : 2 * deq.cap < sizeRange :=
      Nat.lt_of_le_of_lt (Nat.le_mul_of_pos_right _ mem.elementSizePos) bytes
    have count : subSize deq.cap 1 = deq.cap - 1 := subSize_eq positive capSmall
    rw [if_pos full, mulSize_eq doubled, count]
    apply (mem.array_accesses bytes m).bind
    rintro ⟨data, m'⟩ made
    cases data with
    | none => exact not_access_of_outOfMemory (by decide)
    | some fresh =>
        have length := made fresh rfl
        have covers : deq.cap - 1 = 0 ∨ deq.cap ≤ block.slots.length := by
          rcases bounded.covers with covers | single
          · exact .inr covers
          · exact .inl (by omega)
        apply (copyLoop_accesses settled positive covers (by omega)).bind
        intro copied same
        have enough : 2 * deq.cap ≤ copied.slots.length := by omega
        exact ⟨copied, ⟨rfl, bytes, show 0 < 2 * deq.cap by omega,
          show deq.cap - 1 < 2 * deq.cap by omega, .inl enough⟩, enough, rfl⟩
  · rw [if_neg full]
    have several : deq.cap ≠ 1 := by
      intro single
      rw [single, Nat.mod_one] at full
      omega
    exact ⟨block, bounded, bounded.covers.resolve_right several, rfl⟩

/-! ## The operations -/

/-- A bounded deque with the destructor of a safe one. -/
theorem Bounded.safe {after : Deque α M} (bounded : after.Bounded mem block)
    (safe : deq.Safe mem) (same : after.destructor = deq.destructor) : after.Safe mem := by
  refine ⟨fun block' data => ?_, same ▸ safe.destructor⟩
  obtain rfl := Option.some.inj (bounded.data.symm.trans data)
  exact bounded

theorem Covered.safe {after : Deque α M} (covered : Covered mem deq after)
    (safe : deq.Safe mem) : after.Safe mem := by
  rcases covered with ⟨block, bounded, -, same⟩
  exact bounded.safe safe same

theorem Bounded.pushFront_accesses (bounded : deq.Bounded mem block) (settled : block.Settled)
    (bytes : deq.pushCap * mem.elementSize < sizeRange) (element : α) (m : M) :
    Accesses (fun after => Covered mem deq after.1) (deq.pushFront mem element m) := by
  simp only [pushFront, bounded.validData_eq, ok_bind]
  apply (bounded.onPush_accesses settled bytes m).bind
  rintro ⟨grown, m'⟩ ⟨block', bounded', covers, same⟩
  apply (modSize_accesses bounded'.capPos).bind
  intro front inside
  simp only [bounded'.validData_eq, ok_bind]
  apply (Block.write_accesses (Nat.lt_of_lt_of_le inside covers) element).bind
  intro written length
  rw [← length] at covers
  exact ⟨written, ⟨rfl, bounded'.bytes, inside, bounded'.backInside, .inl covers⟩, covers, same⟩

theorem Bounded.pushBack_accesses (bounded : deq.Bounded mem block) (settled : block.Settled)
    (bytes : deq.pushCap * mem.elementSize < sizeRange) (element : α) (m : M) :
    Accesses (fun after => Covered mem deq after.1) (deq.pushBack mem element m) := by
  simp only [pushBack, bounded.validData_eq, ok_bind]
  apply (bounded.onPush_accesses settled bytes m).bind
  rintro ⟨grown, m'⟩ ⟨block', bounded', covers, same⟩
  simp only [bounded'.validData_eq, ok_bind]
  apply (Block.write_accesses (Nat.lt_of_lt_of_le bounded'.backInside covers) element).bind
  intro written length
  rw [← length] at covers
  apply (modSize_accesses bounded'.capPos).bind
  intro back inside
  exact ⟨written, ⟨rfl, bounded'.bytes, bounded'.frontInside, inside, .inl covers⟩, covers, same⟩

/-- A deque with elements has its whole capacity in the array, and so has what an
operation at one of its ends leaves. -/
theorem Bounded.covered_of_ne (bounded : deq.Bounded mem block) (other : deq.front ≠ deq.back)
    {front back : Nat} (frontInside : front < deq.cap) (backInside : back < deq.cap) :
    Covered mem deq { deq with front := front, back := back } :=
  ⟨block, ⟨bounded.data, bounded.bytes, frontInside, backInside, bounded.covers⟩,
    bounded.covers_of_ne other, rfl⟩

theorem Bounded.isEmpty_eq (bounded : deq.Bounded mem block) :
    deq.isEmpty = .ok (decide (deq.front = deq.back)) := by
  rw [isEmpty, bounded.validData_eq]
  rfl

/-- The test before an element is taken or read ends the program itself. -/
theorem Bounded.nonempty_accesses (bounded : deq.Bounded mem block) {failure : Failure}
    (own : failure ∉ accessFailures) :
    Accesses (fun _ => deq.front ≠ deq.back)
      (deq.isEmpty >>= fun empty => if empty then .error failure else pure ()) := by
  simp only [bounded.isEmpty_eq, ok_bind, decide_eq_true_eq]
  split
  · exact own
  · rename_i other
    exact other

theorem Bounded.onPop_accesses (bounded : deq.Bounded mem block) :
    Accesses (fun _ => deq.front ≠ deq.back) deq.onPop :=
  bounded.nonempty_accesses (by decide)

theorem Bounded.assertNonempty_accesses (bounded : deq.Bounded mem block) :
    Accesses (fun _ => deq.front ≠ deq.back) deq.assertNonempty :=
  bounded.nonempty_accesses (by decide)

theorem Bounded.popFront_accesses (bounded : deq.Bounded mem block) (settled : block.Settled) :
    Accesses (fun popped => Covered mem deq popped.2) deq.popFront := by
  simp only [popFront, bounded.validData_eq, ok_bind]
  apply bounded.onPop_accesses.bind
  intro _ other
  have covers := bounded.covers_of_ne other
  apply (modSize_accesses bounded.capPos).bind
  intro front inside
  apply (Block.read_accesses settled (Nat.lt_of_lt_of_le bounded.frontInside covers)).bind
  intro element _
  exact bounded.covered_of_ne other inside bounded.backInside

theorem Bounded.popBack_accesses (bounded : deq.Bounded mem block) (settled : block.Settled) :
    Accesses (fun popped => Covered mem deq popped.2) deq.popBack := by
  simp only [popBack, bounded.validData_eq, ok_bind]
  apply bounded.onPop_accesses.bind
  intro _ other
  have covers := bounded.covers_of_ne other
  apply (modSize_accesses bounded.capPos).bind
  intro back inside
  apply (Block.read_accesses settled (Nat.lt_of_lt_of_le inside covers)).bind
  intro element _
  exact bounded.covered_of_ne other bounded.frontInside inside

theorem Bounded.peekFront_accesses (bounded : deq.Bounded mem block) (settled : block.Settled) :
    Accesses (fun _ => True) deq.peekFront := by
  simp only [peekFront, bounded.validData_eq, ok_bind]
  apply bounded.assertNonempty_accesses.bind
  intro _ other
  exact Block.read_accesses settled
    (Nat.lt_of_lt_of_le bounded.frontInside (bounded.covers_of_ne other))

theorem Bounded.peekBack_accesses (bounded : deq.Bounded mem block) (settled : block.Settled) :
    Accesses (fun _ => True) deq.peekBack := by
  simp only [peekBack, bounded.validData_eq, ok_bind]
  apply bounded.assertNonempty_accesses.bind
  intro _ other
  apply (modSize_accesses bounded.capPos).bind
  intro last inside
  exact Block.read_accesses settled (Nat.lt_of_lt_of_le inside (bounded.covers_of_ne other))

/-- A deque with a value written into its array. -/
theorem Bounded.covered_of_write (bounded : deq.Bounded mem block) {written : Block α}
    (covers : deq.cap ≤ written.slots.length) :
    Covered mem deq { deq with data := some written } :=
  ⟨written, ⟨rfl, bounded.bytes, bounded.frontInside, bounded.backInside, .inl covers⟩, covers,
    rfl⟩

theorem Bounded.updateFront_accesses (bounded : deq.Bounded mem block) (element : α) :
    Accesses (Covered mem deq) (deq.updateFront element) := by
  simp only [updateFront, bounded.validData_eq, ok_bind]
  apply bounded.assertNonempty_accesses.bind
  intro _ other
  have covers := bounded.covers_of_ne other
  apply (Block.write_accesses (Nat.lt_of_lt_of_le bounded.frontInside covers) element).bind
  intro written length
  exact bounded.covered_of_write (length ▸ covers)

theorem Bounded.updateBack_accesses (bounded : deq.Bounded mem block) (element : α) :
    Accesses (Covered mem deq) (deq.updateBack element) := by
  simp only [updateBack, bounded.validData_eq, ok_bind]
  apply bounded.assertNonempty_accesses.bind
  intro _ other
  have covers := bounded.covers_of_ne other
  apply (modSize_accesses bounded.capPos).bind
  intro last inside
  apply (Block.write_accesses (Nat.lt_of_lt_of_le inside covers) element).bind
  intro written length
  exact bounded.covered_of_write (length ▸ covers)

/-- Realigning copies fewer elements than the new array has slots. -/
theorem Bounded.reallign_accesses (bounded : deq.Bounded mem block) (settled : block.Settled)
    (m : M) :
    Accesses (fun after => (∃ block', after.1.Bounded mem block') ∧
      after.1.destructor = deq.destructor) (deq.reallign mem m) := by
  simp only [reallign, bounded.validData_eq, ok_bind]
  split
  · apply bounded.length_accesses.bind
    rintro len ⟨inside, covers⟩
    apply (mem.array_accesses bounded.bytes m).bind
    rintro ⟨data, m'⟩ made
    cases data with
    | none => exact not_access_of_outOfMemory (by decide)
    | some fresh =>
        have length := made fresh rfl
        apply (copyLoop_accesses settled bounded.capPos covers (by omega)).bind
        intro copied same
        have enough : deq.cap ≤ copied.slots.length := by omega
        exact ⟨⟨copied, rfl, bounded.bytes, bounded.capPos, inside, .inl enough⟩, rfl⟩
  · exact ⟨⟨block, bounded⟩, rfl⟩

/-- A deque that has given its array away. -/
def Gone (deq after : Deque α M) : Prop :=
  after.data = none ∧ after.destructor = deq.destructor

theorem Gone.safe {after : Deque α M} (gone : Gone deq after) (safe : deq.Safe mem) :
    after.Safe mem := by
  refine ⟨fun block data => ?_, gone.2 ▸ safe.destructor⟩
  rw [gone.1] at data
  cases data

theorem Bounded.asArray_accesses (bounded : deq.Bounded mem block) (settled : block.Settled)
    (len : Bool) (m : M) :
    Accesses (fun result => Gone deq result.2.1) (deq.asArray mem len m) := by
  simp only [asArray, bounded.validData_eq, ok_bind]
  apply (bounded.reallign_accesses settled m).bind
  rintro ⟨moved, m'⟩ ⟨⟨block', bounded'⟩, same⟩
  simp only [bounded'.validData_eq, ok_bind]
  cases len with
  | false => exact ⟨rfl, same⟩
  | true =>
      have stored : Accesses (fun _ => True) (some <$> moved.length) := by
        cases runs : moved.length with
        | ok len => exact True.intro
        | error failure => exact bounded'.length_accesses.of_error runs
      apply stored.bind
      intro len _
      exact ⟨rfl, same⟩

theorem destroy_accesses (safe : deq.Safe mem)
    (settled : ∀ block, deq.data = some block → block.Settled) (m : M) :
    Accesses (fun after => Gone deq after.1) (deq.destroy mem m) := by
  unfold destroy Gone
  cases data : deq.data with
  | none => exact ⟨data, rfl⟩
  | some block =>
      have bounded := safe.bounded block data
      cases destructor : deq.destructor with
      | none => exact ⟨rfl, rfl⟩
      | some func =>
          have calls := safe.destructor func destructor
          apply (bounded.apply_accesses (settled block data) calls m).bind
          intro m' _
          exact ⟨rfl, rfl⟩

/-! ## Runs -/

/-- The operation calls back a function with failures of its own only. -/
def Op.OwnFailures : Op α σ → Prop
  | .apply func => Quash.OwnFailures func
  | _ => True

theorem validData_none (gone : deq.data = none) : deq.validData = .error .assertion := by
  rw [validData, gone]

/-- A deque without an array violates an assertion. -/
theorem exec_gone (gone : deq.data = none) (op : Op α σ) (m : M) (s : σ) :
    exec mem op (deq, m, s) = .error .assertion := by
  cases op <;>
    simp [exec, pushFront, pushBack, popFront, popBack, peekFront, peekBack, updateFront,
      updateBack, empty, isEmpty, length, apply, validData_none gone]

/-- An operation between the constructor and the end accesses slots of the array. -/
theorem exec_accesses (safe : deq.Safe mem)
    (settled : ∀ block, deq.data = some block → block.Settled) {op : Op α σ}
    (own : op.OwnFailures) (bytes : op.capAfter deq * mem.elementSize < sizeRange) (m : M) (s : σ) :
    Accesses (fun result => result.2.1.Safe mem) (exec mem op (deq, m, s)) := by
  cases data : deq.data with
  | none =>
      rw [exec_gone data]
      exact show _ ∉ accessFailures by decide
  | some block =>
      have bounded := safe.bounded block data
      have settled := settled block data
      cases op with
      | pushFront element =>
          apply (bounded.pushFront_accesses settled bytes element m).bind
          exact fun after covered => covered.safe safe
      | pushBack element =>
          apply (bounded.pushBack_accesses settled bytes element m).bind
          exact fun after covered => covered.safe safe
      | popFront =>
          apply (bounded.popFront_accesses settled).bind
          exact fun popped covered => covered.safe safe
      | popBack =>
          apply (bounded.popBack_accesses settled).bind
          exact fun popped covered => covered.safe safe
      | peekFront =>
          apply (bounded.peekFront_accesses settled).bind
          exact fun element _ => safe
      | peekBack =>
          apply (bounded.peekBack_accesses settled).bind
          exact fun element _ => safe
      | updateFront element =>
          apply (bounded.updateFront_accesses element).bind
          exact fun after covered => covered.safe safe
      | updateBack element =>
          apply (bounded.updateBack_accesses element).bind
          exact fun after covered => covered.safe safe
      | empty =>
          simp only [exec, empty, bounded.validData_eq, ok_bind]
          have emptied : ({ deq with front := 0, back := 0 } : Deque α M).Bounded mem block :=
            ⟨bounded.data, bounded.bytes, bounded.capPos, bounded.capPos, bounded.covers⟩
          exact emptied.safe safe rfl
      | isEmpty =>
          simp only [exec, bounded.isEmpty_eq, ok_bind]
          exact safe
      | length =>
          apply bounded.length_accesses.bind
          exact fun len _ => safe
      | apply func =>
          apply (bounded.apply_accesses settled own s).bind
          exact fun s' _ => safe

/-- The calls of a client behind the constructor. -/
inductive Call (α σ : Type)
  | operate (op : Op α σ)
  | asArray (len : Bool)
  | destroy

/-- One call; the array of `as_array` is given away. -/
def Call.perform (mem : Allocation M) :
    Call α σ → Client α M σ → Except Failure (Answer α × Client α M σ)
  | .operate op, client => exec mem op client
  | .asArray len, (deq, m, s) => do
      let (_, deq, m) ← deq.asArray mem len m
      return (.done, deq, m, s)
  | .destroy, (deq, m, s) => do
      let (deq, m) ← deq.destroy mem m
      return (.done, deq, m, s)

/-- The deque with the contents of the memory where nothing was written. -/
def settle (contents : Nat → α) (deq : Deque α M) : Deque α M :=
  { deq with data := deq.data.map (Block.settle contents) }

/-- One call, with what the memory holds at its time. -/
def callIn (mem : Allocation M) (call : (Nat → α) × Call α σ) (client : Client α M σ) :
    Except Failure (Answer α × Client α M σ) :=
  call.2.perform mem (client.1.settle call.1, client.2)

/-- The size of the array that a call needs is a `size_t`, and a callback has failures of
its own only. -/
def Call.Allowed (mem : Allocation M) : Call α σ → Deque α M → Prop
  | .operate op, deq => op.capAfter deq * mem.elementSize < sizeRange ∧ op.OwnFailures
  | _, _ => True

/-- The constructors. -/
def construct (mem : Allocation M) (initCap : Nat)
    (destructor : Option (α → M → Except Failure M)) (m : M) : Except Failure (Deque α M × M) :=
  match destructor with
  | none => new mem initCap m
  | some func => newDestructable mem initCap func m

theorem new_accesses {initCap : Nat} (bytes : initCap * mem.elementSize < sizeRange) (m : M) :
    Accesses (fun made : Deque α M × M => (∃ block, made.1.Bounded mem block) ∧
      made.1.destructor = none) (new mem initCap m) := by
  apply (mem.array_accesses bytes m).bind
  rintro ⟨data, m'⟩ made
  cases data with
  | none => exact not_access_of_outOfMemory mem.newStops
  | some block =>
      have length := made block rfl
      by_cases positive : 0 < initCap
      · simp only [if_pos positive, Ends.ok_iff]
        exact ⟨⟨block, rfl, bytes, positive, positive, .inl length.ge⟩, True.intro⟩
      · simp only [if_neg positive, Ends.ok_iff]
        have single : 1 * mem.elementSize < sizeRange := by simpa using mem.elementSizeFits
        exact ⟨⟨block, rfl, single, Nat.one_pos, Nat.one_pos, .inr rfl⟩, True.intro⟩

theorem construct_accesses {initCap : Nat} (bytes : initCap * mem.elementSize < sizeRange)
    {destructor : Option (α → M → Except Failure M)}
    (own : ∀ func, destructor = some func → OwnFailures func) (m : M) :
    Accesses (fun made : Deque α M × M => made.1.Safe mem)
      (construct mem initCap destructor m) := by
  have safe {made : Deque α M} {block : Block α} (bounded : made.Bounded mem block)
      (same : made.destructor = destructor) : made.Safe mem := by
    refine ⟨fun block' data => ?_, fun func isFunc => own func (same.symm.trans isFunc)⟩
    obtain rfl := Option.some.inj (bounded.data.symm.trans data)
    exact bounded
  cases destructor with
  | none =>
      apply (new_accesses bytes m).mono
      · rintro made - ⟨⟨block, bounded⟩, same⟩
        exact safe bounded same
      · exact fun _ notAccess => notAccess
  | some func =>
      apply (new_accesses bytes m).bind
      rintro ⟨made, m'⟩ ⟨⟨block, bounded⟩, -⟩
      have destructable : ({ made with destructor := some func } : Deque α M).Bounded mem block :=
        ⟨bounded.data, bounded.bytes, bounded.frontInside, bounded.backInside, bounded.covers⟩
      exact safe destructable rfl

theorem settle_safe (contents : Nat → α) (safe : deq.Safe mem) :
    (deq.settle contents).Safe mem ∧
      ∀ block, (deq.settle contents).data = some block → block.Settled := by
  constructor
  · refine ⟨fun block data => ?_, safe.destructor⟩
    obtain ⟨old, oldData, rfl⟩ := Option.map_eq_some_iff.mp data
    have bounded := safe.bounded old oldData
    refine ⟨data, bounded.bytes, bounded.frontInside, bounded.backInside, ?_⟩
    have covers := bounded.covers
    unfold Block.Covers at covers ⊢
    simpa [Block.settle, settle] using covers
  · intro block data
    obtain ⟨old, -, rfl⟩ := Option.map_eq_some_iff.mp data
    exact Block.settled_settle contents old

/-- One call accesses slots of the array, whatever the memory holds. -/
theorem callIn_accesses (call : (Nat → α) × Call α σ) (client : Client α M σ)
    (safe : client.1.Safe mem) (allowed : call.2.Allowed mem client.1) :
    Accesses (fun result => result.2.1.Safe mem) (callIn mem call client) := by
  rcases call with ⟨contents, call⟩
  rcases client with ⟨deq, m, s⟩
  rcases settle_safe contents safe with ⟨safe, settled⟩
  cases call with
  | operate op =>
      rcases allowed with ⟨bytes, own⟩
      have same : op.capAfter (deq.settle contents) = op.capAfter deq := by
        cases op <;> rfl
      exact exec_accesses safe settled own (same ▸ bytes) m s
  | asArray len =>
      cases data : (deq.settle contents).data with
      | none =>
          have stops : callIn mem (contents, Call.asArray len) (deq, m, s) =
              .error .assertion := by
            simp [callIn, Call.perform, asArray, validData_none data]
          rw [stops]
          exact show _ ∉ accessFailures by decide
      | some block =>
          apply ((safe.bounded block data).asArray_accesses (settled block data) len m).bind
          exact fun result gone => gone.safe safe
  | destroy =>
      apply (destroy_accesses safe settled m).bind
      exact fun result gone => gone.safe safe

/-- No run of calls on a deque of any capacity accesses its array where there is no slot or
takes a modulus by zero, as long as the sizes of its arrays are values of `size_t`; and
where it returns the indices are below the capacity. -/
theorem accesses_inside (mem : Allocation M) {initCap : Nat}
    (bytes : initCap * mem.elementSize < sizeRange)
    {destructor : Option (α → M → Except Failure M)}
    (own : ∀ func, destructor = some func → OwnFailures func) {m m' : M} {deq : Deque α M}
    (made : construct mem initCap destructor m = .ok (deq, m')) (s : σ)
    (calls : List ((Nat → α) × Call α σ))
    (allowed : Along (callIn mem) (fun call client => call.2.Allowed mem client.1) calls
      (deq, m', s)) :
    Accesses (fun client => client.1.Safe mem) (runOps (callIn mem) calls (deq, m', s)).2 := by
  have safe : deq.Safe mem := (construct_accesses bytes own m).of_ok made
  exact runOps_keeps_along callIn_accesses safe allowed

/-- A deque made with capacity zero: a push, which replaces the array without slots, and
the array. -/
theorem accesses_inside_zero :
    Accesses (fun client => client.1.Safe intDeques)
      (runOps (callIn intDeques)
        [(fun _ => 0, .operate (.pushFront 7)), (fun _ => 0, .asArray true)]
        ((⟨some ⟨16, []⟩, 1, 0, 0, none⟩, 16, ()) : Client Nat Nat Unit)).2 := by
  have made : construct (α := Nat) intDeques 0 none 16 =
      .ok (⟨some ⟨16, []⟩, 1, 0, 0, none⟩, 16) := by
    simp [construct, new, Allocation.array, mulSize, intDeques]
  have pushed : callIn intDeques
      ((fun _ => 0, .operate (.pushFront 7)) : (Nat → Nat) × Call Nat Unit)
      (⟨some ⟨16, []⟩, 1, 0, 0, none⟩, 16, ()) =
      .ok (.done, ⟨some ⟨16, [none, some 7]⟩, 2, 1, 0, none⟩, 24, ()) := by
    simp [callIn, Call.perform, settle, Block.settle, exec, pushFront, onPush, validData, modSize,
      addSize, subSize, mulSize, sizeRange, Allocation.array, copyLoop, Block.write, intDeques]
  apply accesses_inside intDeques (by decide) (fun _ none => by cases none) made ()
  exact .next pushed ⟨by decide, True.intro⟩ ⟨True.intro, fun _ _ _ => True.intro⟩

end Deque

end QuashLabs.Quash
