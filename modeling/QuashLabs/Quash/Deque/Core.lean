import QuashLabs.Checked.Outcome
import QuashLabs.Quash.Machine

/-!
# The double ended queues of `deque.h`

`IMPLEMENT_DEQUE` and `IMPLEMENT_DEQUE_MEMORY_POOL` generate the same functions
for an element type; they differ in where `data` comes from, in whether it is
given back, and in how the constructor fails. These three are the parameters
of `Allocation`. The pointer that every function takes is the argument and the
result `deq`; the state `m` is the memory that the allocator works on.
-/

namespace QuashLabs.Quash

/-- An allocated array of elements; a slot is `none` until it is written. -/
structure Block (α : Type) where
  address : Nat
  slots : List (Option α)
  deriving Repr, DecidableEq

/-- `data[i]` as a value. -/
def Block.read {α : Type} (block : Block α) (i : Nat) : Except Failure α :=
  match block.slots[i]? with
  | some (some element) => .ok element
  | some none => .error .uninitialised
  | none => .error .outOfBounds

/-- `data[i] = element`. -/
def Block.write {α : Type} (block : Block α) (i : Nat) (element : α) :
    Except Failure (Block α) :=
  if i < block.slots.length then
    .ok { block with slots := block.slots.set i (some element) }
  else .error .outOfBounds

/-- The ways in which a program that is out of memory stops. -/
def memoryFailures : List Failure :=
  [.exit (-1) "ERROR: Failed to allocate struct_name contents",
    .abort "ERROR: Failed to reallocate struct_name contents",
    .abort "ERROR: Failed to reallocate struct_name contents\n",
    .exit (-1) "ERROR: Unable to allocate more memory to the memory pool.\n"]

/-- The program stopped because it was out of memory. -/
def Failure.OutOfMemory (failure : Failure) : Prop :=
  failure ∈ memoryFailures

instance : DecidablePred Failure.OutOfMemory :=
  fun failure => inferInstanceAs (Decidable (failure ∈ memoryFailures))

/-- The constructor over `malloc` stops so. -/
theorem outOfMemory_new :
    (Failure.exit (-1) "ERROR: Failed to allocate struct_name contents").OutOfMemory := by
  decide

/-- The storage of a deque: the size of one element, the allocator (`malloc` or
`memory_pool_alloc`) with its null result as `none`, the release of an array
(`free`, or nothing) and the failure of the constructor. -/
structure Allocation (M : Type) where
  elementSize : Nat
  elementSizePos : 0 < elementSize
  elementSizeFits : elementSize < sizeRange
  alloc : Nat → M → Except Failure (Option Nat × M)
  allocStops : ∀ bytes m failure, alloc bytes m = .error failure → failure.OutOfMemory
  release : Nat → M → M
  newFails : Failure
  newStops : newFails.OutOfMemory

/-- An array of `count` elements, obtained as `count * sizeof(type)` bytes. -/
def Allocation.array {M : Type} (mem : Allocation M) (α : Type) (count : Nat) (m : M) :
    Except Failure (Option (Block α) × M) := do
  let bytes := mulSize count mem.elementSize
  let (address, m) ← mem.alloc bytes m
  return (address.map fun address =>
    { address := address, slots := List.replicate (bytes / mem.elementSize) none }, m)

/-- The generated structure. `data` is `none` for the null pointer. -/
structure Deque (α : Type) (M : Type) where
  data : Option (Block α)
  cap : Nat
  front : Nat
  back : Nat
  destructor : Option (α → M → Except Failure M)

namespace Deque

variable {α : Type} {M : Type} {σ : Type}

/-- `new`. -/
def new (mem : Allocation M) (initCap : Nat) (m : M) : Except Failure (Deque α M × M) := do
  let (data, m) ← mem.array α initCap m
  match data with
  | none => .error mem.newFails
  | some block =>
      .ok ({ data := some block
             cap := if 0 < initCap then initCap else 1
             front := 0
             back := 0
             destructor := none }, m)

/-- `new_destructable`. -/
def newDestructable (mem : Allocation M) (initCap : Nat) (destructor : α → M → Except Failure M)
    (m : M) : Except Failure (Deque α M × M) := do
  let (ret, m) ← new mem initCap m
  return ({ ret with destructor := some destructor }, m)

/-- `assert(deq->data != NULL)`, with the array that `data` points to. -/
def validData (deq : Deque α M) : Except Failure (Block α) :=
  match deq.data with
  | some block => .ok block
  | none => .error .assertion

/-- `empty`. -/
def empty (deq : Deque α M) : Except Failure (Deque α M) := do
  let _ ← deq.validData
  return { deq with front := 0, back := 0 }

/-- `is_empty`. -/
def isEmpty (deq : Deque α M) : Except Failure Bool := do
  let _ ← deq.validData
  return decide (deq.front = deq.back)

/-- `length`. -/
def length (deq : Deque α M) : Except Failure Nat := do
  let _ ← deq.validData
  modSize (addSize (subSize deq.back deq.front) deq.cap) deq.cap

/-- The loop `data[i] = old_data[(front + i) % cap]` with `count` rounds left. -/
def copyLoop (old : Block α) (front cap : Nat) : Nat → Nat → Block α → Except Failure (Block α)
  | 0, _, block => .ok block
  | count + 1, i, block => do
      let slot ← modSize (addSize front i) cap
      let element ← old.read slot
      let block ← block.write i element
      copyLoop old front cap count (i + 1) block

/-- `__reallign`. -/
def reallign (mem : Allocation M) (deq : Deque α M) (m : M) :
    Except Failure (Deque α M × M) := do
  let oldData ← deq.validData
  if deq.front ≠ 0 then
    let len ← deq.length
    let (data, m) ← mem.array α deq.cap m
    match data with
    | none => .error (.abort "ERROR: Failed to reallocate struct_name contents")
    | some block =>
        let block ← copyLoop oldData deq.front deq.cap len 0 block
        return ({ deq with data := some block, front := 0, back := len },
          mem.release oldData.address m)
  else return (deq, m)

/-- `as_array`: the array, and the length when `len` is not null. -/
def asArray (mem : Allocation M) (deq : Deque α M) (len : Bool) (m : M) :
    Except Failure ((Block α × Option Nat) × Deque α M × M) := do
  let _ ← deq.validData
  let (deq, m) ← deq.reallign mem m
  let ret ← deq.validData
  let stored ← if len then some <$> deq.length else pure none
  return ((ret, stored), { deq with data := none, cap := 0, front := 0, back := 0 }, m)

/-- The loop `func(data[(front + i) % cap])` with `count` rounds left. -/
def applyLoop (func : α → σ → Except Failure σ) (block : Block α) (front cap : Nat) :
    Nat → Nat → σ → Except Failure σ
  | 0, _, s => .ok s
  | count + 1, i, s => do
      let slot ← modSize (addSize front i) cap
      let element ← block.read slot
      let s ← func element s
      applyLoop func block front cap count (i + 1) s

/-- `apply`; `func` works on a state of its own. -/
def apply (deq : Deque α M) (func : α → σ → Except Failure σ) (s : σ) : Except Failure σ := do
  let block ← deq.validData
  let len ← deq.length
  applyLoop func block deq.front deq.cap len 0 s

/-- `destroy`. -/
def destroy (mem : Allocation M) (deq : Deque α M) (m : M) : Except Failure (Deque α M × M) := do
  match deq.data with
  | none => return (deq, m)
  | some block =>
      let m ← match deq.destructor with
        | none => pure m
        | some destructor => deq.apply destructor m
      return ({ deq with data := none, cap := 0, front := 0, back := 0 },
        mem.release block.address m)

/-- `__on_push`. -/
def onPush (mem : Allocation M) (deq : Deque α M) (m : M) : Except Failure (Deque α M × M) := do
  let oldData ← deq.validData
  let next ← modSize (addSize deq.back 1) deq.cap
  if deq.front = next then
    let cap := mulSize 2 deq.cap
    let (data, m) ← mem.array α cap m
    match data with
    | none => .error (.abort "ERROR: Failed to reallocate struct_name contents\n")
    | some block =>
        let count := subSize deq.cap 1
        let block ← copyLoop oldData deq.front deq.cap count 0 block
        return ({ deq with data := some block, cap := cap, front := 0, back := count },
          mem.release oldData.address m)
  else return (deq, m)

/-- `__on_pop`. -/
def onPop (deq : Deque α M) : Except Failure Unit := do
  if ← deq.isEmpty then
    .error (.abort "ERROR: Cannot pop from of struct_name while it is empty\n")
  else return ()

/-- `push_front`. -/
def pushFront (mem : Allocation M) (deq : Deque α M) (element : α) (m : M) :
    Except Failure (Deque α M × M) := do
  let _ ← deq.validData
  let (deq, m) ← deq.onPush mem m
  let front ← modSize (subSize (addSize deq.front deq.cap) 1) deq.cap
  let block ← deq.validData
  let block ← block.write front element
  return ({ deq with data := some block, front := front }, m)

/-- `push_back`. -/
def pushBack (mem : Allocation M) (deq : Deque α M) (element : α) (m : M) :
    Except Failure (Deque α M × M) := do
  let _ ← deq.validData
  let (deq, m) ← deq.onPush mem m
  let block ← deq.validData
  let block ← block.write deq.back element
  let back ← modSize (addSize deq.back 1) deq.cap
  return ({ deq with data := some block, back := back }, m)

/-- `pop_front`. -/
def popFront (deq : Deque α M) : Except Failure (α × Deque α M) := do
  let block ← deq.validData
  deq.onPop
  let front ← modSize (addSize deq.front 1) deq.cap
  let element ← block.read deq.front
  return (element, { deq with front := front })

/-- `pop_back`. -/
def popBack (deq : Deque α M) : Except Failure (α × Deque α M) := do
  let block ← deq.validData
  deq.onPop
  let back ← modSize (subSize (addSize deq.back deq.cap) 1) deq.cap
  let element ← block.read back
  return (element, { deq with back := back })

/-- `assert(!is_empty(deq))`. -/
def assertNonempty (deq : Deque α M) : Except Failure Unit := do
  if ← deq.isEmpty then .error .assertion else return ()

/-- `peek_front`. -/
def peekFront (deq : Deque α M) : Except Failure α := do
  let block ← deq.validData
  deq.assertNonempty
  block.read deq.front

/-- `peek_back`. -/
def peekBack (deq : Deque α M) : Except Failure α := do
  let block ← deq.validData
  deq.assertNonempty
  let last ← modSize (subSize (addSize deq.back deq.cap) 1) deq.cap
  block.read last

/-- `update_front`. -/
def updateFront (deq : Deque α M) (element : α) : Except Failure (Deque α M) := do
  let block ← deq.validData
  deq.assertNonempty
  let block ← block.write deq.front element
  return { deq with data := some block }

/-- `update_back`. -/
def updateBack (deq : Deque α M) (element : α) : Except Failure (Deque α M) := do
  let block ← deq.validData
  deq.assertNonempty
  let last ← modSize (subSize (addSize deq.back deq.cap) 1) deq.cap
  let block ← block.write last element
  return { deq with data := some block }

end Deque

end QuashLabs.Quash
