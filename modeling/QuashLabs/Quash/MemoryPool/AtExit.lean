import QuashLabs.Quash.MemoryPool.Regions

/-!
# The pool and the handlers of `atexit`

`main` registers `destroy_memory_pool` with `atexit`, so a call that ends the program
by `exit` leaves the global `pool_deq` and the heap to it. Here the functions of the
pool stop with the state that they leave; without it they are the functions that the
pool has for the rest of the shell.
-/

namespace QuashLabs.Quash.MemoryPool.AtExit

open QuashLabs.Checked QuashLabs.Memory

/-- A failure, with the global `pool_deq` and the heap at that moment. -/
abbrev Halt := Failure × State

variable {α β : Type}

/-- A call that stops in the state `st`. -/
def leaving (st : State) (result : Except Failure α) : Except Halt α :=
  result.mapError fun failure => (failure, st)

@[simp]
theorem leaving_ok (st : State) (a : α) : leaving st (.ok a) = .ok a := rfl

/-- A result without the state in which a call stopped. -/
def erase (result : Except Halt α) : Except Failure α :=
  result.mapError Prod.fst

@[simp]
theorem erase_ok (a : α) : erase (.ok a) = .ok a := rfl

@[simp]
theorem erase_error (halt : Halt) : erase (.error halt : Except Halt α) = .error halt.1 := rfl

@[simp]
theorem erase_leaving (st : State) (result : Except Failure α) :
    erase (leaving st result) = result := by
  cases result <;> rfl

@[simp]
theorem erase_bind (result : Except Halt α) (next : α → Except Halt β) :
    erase (result >>= next) = erase result >>= fun a => erase (next a) := by
  cases result <;> rfl

/-! ## The functions of `memory_pool.c` -/

/-- `__low_memory_initialize_memory_pool`, beside the global `poolDeq`. -/
def lowMemoryInitializePool (malloc : Malloc64) (poolDeq : Deque MemoryPool Heap)
    (requiredSize failedRequestedSize : Nat) (heap : Heap) : Except Halt (MemoryPool × Heap) :=
  if _large : failedRequestedSize ≤ requiredSize then
    .error (.exit (-1) "ERROR: Unable to allocate more memory to the memory pool.\n",
      (poolDeq, heap))
  else
    match initializePool malloc (smallerSize requiredSize failedRequestedSize) heap with
    | (ret, heap) =>
        if ret.pool ≠ 0 then .ok (ret, heap)
        else
          lowMemoryInitializePool malloc poolDeq requiredSize
            (smallerSize requiredSize failedRequestedSize) heap
termination_by failedRequestedSize
decreasing_by exact smallerSize_lt _large

/-- A record of `size` bytes, or of fewer when memory is short, beside the global `poolDeq`. -/
def poolOrSmaller (malloc : Malloc64) (poolDeq : Deque MemoryPool Heap)
    (requiredSize size : Nat) (heap : Heap) : Except Halt (MemoryPool × Heap) :=
  match initializePool malloc size heap with
  | (pool, heap) =>
      if pool.pool = 0 then lowMemoryInitializePool malloc poolDeq requiredSize size heap
      else .ok (pool, heap)

/-- `initialize_memory_pool`. The global is the old deque until the new one has its array. -/
def initializeMemoryPool (malloc : Malloc64) (size : Nat) (st : State) : Except Halt State := do
  let size := if size = 0 then 1 else size
  let (poolDeq, heap) ← leaving (st.1, (st.2.malloc malloc (10 * 24)).2)
    (Deque.newDestructable (poolDeques malloc) 10 destroyPool st.2)
  let (pool, heap) ← poolOrSmaller malloc poolDeq 1 size heap
  leaving (poolDeq, heap) (poolDeq.pushBack (poolDeques malloc) pool heap)

/-- The loop of `memory_pool_alloc`, for at most `fuel` rounds. -/
def growLoop (malloc : Malloc64) (overflow : Nat → Nat) (initSize size : Nat) :
    Nat → MemoryPool → State → Except Halt (MemoryPool × State)
  | 0, _, st => .error (.unfinished, st)
  | fuel + 1, pool, (poolDeq, heap) =>
      if noRoom pool size then do
        let lengthPoolDeq ← leaving (poolDeq, heap) poolDeq.length
        let newSize := newPoolSize overflow initSize lengthPoolDeq
        let (pool, heap) ←
          if newSize < size then pure (initializePool malloc 0 heap)
          else poolOrSmaller malloc poolDeq size newSize heap
        let st ← leaving (poolDeq, heap) (poolDeq.pushBack (poolDeques malloc) pool heap)
        growLoop malloc overflow initSize size fuel pool st
      else .ok (pool, poolDeq, heap)

/-- `memory_pool_alloc`: the returned address and the pool after the call. -/
def memoryPoolAlloc (malloc : Malloc64) (overflow : Nat → Nat) (fuel size : Nat) (st : State) :
    Except Halt (Nat × State) := do
  let isEmpty ← leaving st st.1.isEmpty
  leaving st (check (!isEmpty))
  let pool ← leaving st st.1.peekBack
  let front ← leaving st st.1.peekFront
  leaving st (check (pool.pool != 0))
  leaving st (check (pool.size != 0))
  leaving st (check (pool.next != 0))
  let (pool, poolDeq, heap) ← growLoop malloc overflow front.size size fuel pool st
  let back ← leaving (poolDeq, heap) poolDeq.peekBack
  leaving (poolDeq, heap) (check (pool.next == back.next))
  let poolDeq ← leaving (poolDeq, heap)
    (poolDeq.updateBack { pool with next := pool.next + size })
  return (pool.next, poolDeq, heap)

/-- One request: the region that is handed out. -/
def serve (malloc : Malloc64) (overflow : Nat → Nat) (fuel : Nat) (request : Request)
    (st : State) : Except Halt (Region × State) := do
  let (ret, st) ← memoryPoolAlloc malloc overflow fuel request.bytes st
  return (⟨ret, request.bytes⟩, st)

/-! ## `main` -/

/-- What happens between two calls of `initialize_memory_pool`: a request to the pool, or an
`exit` elsewhere, as when the array of another deque cannot be allocated. -/
inductive Event
  | request (request : Request)
  | exit (status : Int) (message : String)

def happen (malloc : Malloc64) (overflow : Nat → Nat) (fuel : Nat) :
    Event → State → Except Halt (Region × State)
  | .request request, st => serve malloc overflow fuel request st
  | .exit status message, st => .error (.exit status message, st)

/-- One round of the loop of `main`, as far as the pool is concerned: the regions that are
handed out in it. -/
def mainRound (malloc : Malloc64) (overflow : Nat → Nat) (fuel : Nat) (events : List Event)
    (st : State) : Except Halt (List Region × State) := do
  let st ← initializeMemoryPool malloc 1024 st
  let run := runOps (happen malloc overflow fuel) events st
  let st ← run.2
  let st ← leaving st (destroyMemoryPool malloc st)
  return (run.1, st)

/-- The static value of `pool_deq`. -/
def staticDeque : Deque MemoryPool Heap :=
  { data := none, cap := 0, front := 0, back := 0, destructor := none }

/-- `main` up to its `return` or up to the failure that ends it. -/
def main (malloc : Malloc64) (overflow : Nat → Nat) (fuel : Nat) (rounds : List (List Event))
    (heap : Heap) : Except Halt State :=
  (runOps (mainRound malloc overflow fuel) rounds (staticDeque, heap)).2

/-- The failure is a call of `exit`. -/
def isExit : Failure → Bool
  | .exit .. => true
  | _ => false

/-- What the handler of `atexit` does: it runs when `main` returns and at `exit`, and not
when the program ends in another way. -/
def atExit (malloc : Malloc64) : Except Halt State → Option (Except Failure State)
  | .ok st => some (destroyMemoryPool malloc st)
  | .error (failure, st) => if isExit failure then some (destroyMemoryPool malloc st) else none

/-! ## Without the state of a stop -/

variable {malloc : Malloc64} {overflow : Nat → Nat}

theorem erase_lowMemoryInitializePool (poolDeq : Deque MemoryPool Heap)
    (requiredSize failedRequestedSize : Nat) (heap : Heap) :
    erase (lowMemoryInitializePool malloc poolDeq requiredSize failedRequestedSize heap) =
      MemoryPool.lowMemoryInitializePool malloc requiredSize failedRequestedSize heap := by
  induction failedRequestedSize using Nat.strong_induction_on generalizing heap with
  | _ failedRequestedSize ih =>
      rw [lowMemoryInitializePool, MemoryPool.lowMemoryInitializePool]
      split
      · rfl
      · rename_i larger
        simp only
        split
        · rfl
        · exact ih _ (smallerSize_lt larger) _

theorem erase_poolOrSmaller (poolDeq : Deque MemoryPool Heap) (requiredSize size : Nat)
    (heap : Heap) :
    erase (poolOrSmaller malloc poolDeq requiredSize size heap) =
      MemoryPool.poolOrSmaller malloc requiredSize size heap := by
  simp only [poolOrSmaller, MemoryPool.poolOrSmaller]
  split
  · exact erase_lowMemoryInitializePool poolDeq requiredSize size _
  · rfl

theorem erase_initializeMemoryPool (size : Nat) (st : State) :
    erase (initializeMemoryPool malloc size st) =
      MemoryPool.initializeMemoryPool malloc size st.2 := by
  simp only [initializeMemoryPool, MemoryPool.initializeMemoryPool, erase_bind, erase_leaving,
    erase_poolOrSmaller]

theorem erase_growLoop (initSize size fuel : Nat) (pool : MemoryPool) (st : State) :
    erase (growLoop malloc overflow initSize size fuel pool st) =
      MemoryPool.growLoop malloc overflow initSize size fuel pool st := by
  induction fuel generalizing pool st with
  | zero => rfl
  | succ fuel ih =>
      rcases st with ⟨poolDeq, heap⟩
      simp only [growLoop, MemoryPool.growLoop]
      split
      · rw [erase_bind, erase_leaving]
        refine congrArg _ (funext fun length => ?_)
        split
        · simp only [pure_eq_ok, ok_bind, erase_bind, erase_leaving, ih]
        · simp only [erase_bind, erase_leaving, erase_poolOrSmaller, ih]
      · rfl

theorem erase_memoryPoolAlloc (fuel size : Nat) (st : State) :
    erase (memoryPoolAlloc malloc overflow fuel size st) =
      MemoryPool.memoryPoolAlloc malloc overflow fuel size st := by
  simp only [memoryPoolAlloc, MemoryPool.memoryPoolAlloc, erase_bind, erase_leaving,
    erase_growLoop]
  rfl

theorem erase_serve (fuel : Nat) (request : Request) (st : State) :
    erase (serve malloc overflow fuel request st) =
      MemoryPool.serve malloc overflow fuel request st := by
  cases request <;>
    simp only [serve, MemoryPool.serve, memoryPoolStrdup, Request.bytes, erase_bind,
      erase_memoryPoolAlloc] <;> rfl

theorem runOps_requests (fuel : Nat) (requests : List Request) (st : State) :
    (runOps (happen malloc overflow fuel) (requests.map .request) st).1 =
        (runOps (MemoryPool.serve malloc overflow fuel) requests st).1 ∧
      erase (runOps (happen malloc overflow fuel) (requests.map .request) st).2 =
        (runOps (MemoryPool.serve malloc overflow fuel) requests st).2 := by
  induction requests generalizing st with
  | nil => exact ⟨rfl, rfl⟩
  | cons request requests ih =>
      simp only [List.map_cons, runOps, happen]
      have same : erase (serve malloc overflow fuel request st) =
          MemoryPool.serve malloc overflow fuel request st := erase_serve fuel request st
      cases served : serve malloc overflow fuel request st with
      | error halt =>
          rw [served, erase_error] at same
          rw [← same]
          exact ⟨rfl, rfl⟩
      | ok result =>
          rw [served, erase_ok] at same
          rw [← same]
          exact ⟨congrArg _ (ih result.2).1, (ih result.2).2⟩

/-- A round of requests is a session of the pool that ends with `destroy_memory_pool`. -/
theorem erase_mainRound (fuel : Nat) (requests : List Request) (st : State) :
    erase (mainRound malloc overflow fuel (requests.map .request) st) =
      (session malloc overflow fuel 1024 requests st.2).2.bind fun ended =>
        (destroyMemoryPool malloc ended).map fun closed =>
          ((session malloc overflow fuel 1024 requests st.2).1, closed) := by
  have started : erase (initializeMemoryPool malloc 1024 st) =
      MemoryPool.initializeMemoryPool malloc 1024 st.2 := erase_initializeMemoryPool 1024 st
  unfold session
  rw [← started, mainRound, erase_bind]
  cases initializeMemoryPool malloc 1024 st with
  | error halt => rfl
  | ok opened =>
      simp only [erase_ok, ok_bind, erase_bind, (runOps_requests fuel requests opened).1,
        (runOps_requests fuel requests opened).2, erase_leaving]
      rfl

end QuashLabs.Quash.MemoryPool.AtExit
