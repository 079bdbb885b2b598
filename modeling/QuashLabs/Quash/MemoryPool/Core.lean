import QuashLabs.Memory.Malloc
import QuashLabs.Quash.Deque.Specs

/-!
# The memory pool of `memory_pool.c`

Requests are served from the last record of a deque of blocks. A request that
does not fit gets a new record, larger by a power of two; records of size zero
only lengthen the deque, and when memory is short the new block is made smaller.
A pointer is its address, and the null pointer is zero.
-/

namespace QuashLabs.Quash

open QuashLabs.Memory

/-- `malloc` on a 64-bit machine: objects are smaller than `2^63` bytes. -/
abbrev Malloc64 := Malloc (2 ^ 63 - 1) sizeRange

/-- The structure `MemoryPool`. -/
structure MemoryPool where
  pool : Nat
  size : Nat
  next : Nat
  deriving Repr, DecidableEq

/-- The storage of `MemoryPoolDeque`; a record is three words. -/
def poolDeques (malloc : Malloc64) : Allocation Heap where
  elementSize := 24
  elementSizePos := by decide
  elementSizeFits := by decide
  alloc bytes heap := .ok (heap.malloc malloc bytes)
  allocStops _ _ _ stops := by cases stops
  release := Heap.free
  newFails := .exit (-1) "ERROR: Failed to allocate struct_name contents"
  newStops := outOfMemory_new

namespace MemoryPool

/-- The global `pool_deq` and the heap. -/
abbrev State := Deque MemoryPool Heap × Heap

/-- `__initialize_memory_pool`. -/
def initializePool (malloc : Malloc64) (size : Nat) (heap : Heap) : MemoryPool × Heap :=
  if size = 0 then (⟨0, 0, 0⟩, heap)
  else
    match heap.malloc malloc size with
    | (none, heap) => (⟨0, 0, 0⟩, heap)
    | (some mem, heap) => (⟨mem, size, mem⟩, heap)

/-- The size that the next attempt of `__low_memory_initialize_memory_pool` asks for. -/
def smallerSize (requiredSize failedRequestedSize : Nat) : Nat :=
  if failedRequestedSize / 2 < requiredSize then requiredSize else failedRequestedSize / 2

theorem smallerSize_lt {requiredSize failedRequestedSize : Nat}
    (larger : ¬failedRequestedSize ≤ requiredSize) :
    smallerSize requiredSize failedRequestedSize < failedRequestedSize := by
  unfold smallerSize
  split <;> omega

theorem requiredSize_le_smallerSize (requiredSize failedRequestedSize : Nat) :
    requiredSize ≤ smallerSize requiredSize failedRequestedSize := by
  unfold smallerSize
  split <;> omega

/-- `__low_memory_initialize_memory_pool`. -/
def lowMemoryInitializePool (malloc : Malloc64) (requiredSize failedRequestedSize : Nat)
    (heap : Heap) : Except Failure (MemoryPool × Heap) :=
  if _large : failedRequestedSize ≤ requiredSize then
    .error (.exit (-1) "ERROR: Unable to allocate more memory to the memory pool.\n")
  else
    match initializePool malloc (smallerSize requiredSize failedRequestedSize) heap with
    | (ret, heap) =>
        if ret.pool ≠ 0 then .ok (ret, heap)
        else
          lowMemoryInitializePool malloc requiredSize
            (smallerSize requiredSize failedRequestedSize) heap
termination_by failedRequestedSize
decreasing_by exact smallerSize_lt _large

/-- `__destroy_memory_pool`. -/
def destroyPool (mp : MemoryPool) (heap : Heap) : Except Failure Heap :=
  .ok (heap.free mp.pool)

/-- A record of `size` bytes, or of fewer when memory is short. -/
def poolOrSmaller (malloc : Malloc64) (requiredSize size : Nat) (heap : Heap) :
    Except Failure (MemoryPool × Heap) :=
  match initializePool malloc size heap with
  | (pool, heap) =>
      if pool.pool = 0 then lowMemoryInitializePool malloc requiredSize size heap
      else .ok (pool, heap)

/-- `initialize_memory_pool`. -/
def initializeMemoryPool (malloc : Malloc64) (size : Nat) (heap : Heap) :
    Except Failure State := do
  let size := if size = 0 then 1 else size
  let (poolDeq, heap) ← Deque.newDestructable (poolDeques malloc) 10 destroyPool heap
  let (pool, heap) ← poolOrSmaller malloc 1 size heap
  poolDeq.pushBack (poolDeques malloc) pool heap

/-- The value of `2 << (length_pool_deq - 1)` in `int`. A result that is not an
`int` is undefined; `overflow` stands for whatever the machine computes then. -/
def shiftedTwo (overflow : Nat → Nat) (lengthPoolDeq : Nat) : Nat :=
  if lengthPoolDeq - 1 < 30 then 2 * 2 ^ (lengthPoolDeq - 1) else overflow lengthPoolDeq

/-- The size of the next pool. -/
def newPoolSize (overflow : Nat → Nat) (initSize lengthPoolDeq : Nat) : Nat :=
  mulSize initSize (shiftedTwo overflow lengthPoolDeq)

/-- `pool.next - pool.pool + size > pool.size`. -/
def noRoom (pool : MemoryPool) (size : Nat) : Bool :=
  decide (pool.size < addSize (subSize pool.next pool.pool) size)

/-- The loop of `memory_pool_alloc`, for at most `fuel` rounds. -/
def growLoop (malloc : Malloc64) (overflow : Nat → Nat) (initSize size : Nat) :
    Nat → MemoryPool → State → Except Failure (MemoryPool × State)
  | 0, _, _ => .error .unfinished
  | fuel + 1, pool, (poolDeq, heap) =>
      if noRoom pool size then do
        let lengthPoolDeq ← poolDeq.length
        let newSize := newPoolSize overflow initSize lengthPoolDeq
        let (pool, heap) ←
          if newSize < size then pure (initializePool malloc 0 heap)
          else poolOrSmaller malloc size newSize heap
        let st ← poolDeq.pushBack (poolDeques malloc) pool heap
        growLoop malloc overflow initSize size fuel pool st
      else .ok (pool, poolDeq, heap)

/-- `assert(condition)`. -/
def check (condition : Bool) : Except Failure Unit :=
  if condition then .ok () else .error .assertion

/-- `memory_pool_alloc`: the returned address and the pool after the call. -/
def memoryPoolAlloc (malloc : Malloc64) (overflow : Nat → Nat) (fuel size : Nat) (st : State) :
    Except Failure (Nat × State) := do
  let isEmpty ← st.1.isEmpty
  check (!isEmpty)
  let pool ← st.1.peekBack
  let front ← st.1.peekFront
  check (pool.pool != 0)
  check (pool.size != 0)
  check (pool.next != 0)
  let (pool, poolDeq, heap) ← growLoop malloc overflow front.size size fuel pool st
  let back ← poolDeq.peekBack
  check (pool.next == back.next)
  let poolDeq ← poolDeq.updateBack { pool with next := pool.next + size }
  return (pool.next, poolDeq, heap)

/-- `memory_pool_strdup`: the copy takes the characters and the terminator. -/
def memoryPoolStrdup (malloc : Malloc64) (overflow : Nat → Nat) (fuel : Nat) (str : List Char)
    (st : State) : Except Failure (Nat × State) :=
  memoryPoolAlloc malloc overflow fuel (str.length + 1) st

/-- `destroy_memory_pool`. -/
def destroyMemoryPool (malloc : Malloc64) (st : State) : Except Failure State :=
  st.1.destroy (poolDeques malloc) st.2

end MemoryPool

end QuashLabs.Quash
