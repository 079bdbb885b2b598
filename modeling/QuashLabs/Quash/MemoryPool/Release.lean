import QuashLabs.Memory.Ownership
import QuashLabs.Quash.MemoryPool.AtExit

/-!
# The blocks of the pool are given back once

The account of the pool holds the array of the deque and one block for every record
that has one. It is right whenever a call of the pool may end the program by `exit`,
so that `destroy_memory_pool` gives back all of it, whether the loop of `main` or the
handler calls it.
-/

namespace QuashLabs.Quash.MemoryPool.AtExit

open QuashLabs.Checked QuashLabs.Memory

variable {malloc : Malloc64} {overflow : Nat → Nat} {base heap : Heap} {st : State}
variable {poolDeq : Deque MemoryPool Heap}
variable {records : List MemoryPool} {record : MemoryPool} {size : Nat}

/-- The blocks of the records. -/
def blocks (records : List MemoryPool) : List Region :=
  (records.filter (·.pool ≠ 0)).map region

@[simp]
theorem blocks_append (records others : List MemoryPool) :
    blocks (records ++ others) = blocks records ++ blocks others := by
  simp [blocks]

theorem blocks_null (null : record.pool = 0) : blocks [record] = [] := by
  simp [blocks, null]

theorem blocks_nonnull (nonnull : record.pool ≠ 0) : blocks [record] = [record.region] := by
  simp [blocks, nonnull]

/-- Cutting a region from a block leaves the block. -/
theorem blocks_next (next : Nat) : blocks [{ record with next := next }] = blocks [record] := by
  by_cases null : record.pool = 0
  · rw [blocks_null null, blocks_null]
    exact null
  · rw [blocks_nonnull null, blocks_nonnull]
    · rfl
    · exact null

/-- The deque holds `records` in the array `array`, which can grow. -/
structure Holding (malloc : Malloc64) (poolDeq : Deque MemoryPool Heap) (array : Region)
    (records : List MemoryPool) : Prop where
  rep : ∃ block : Block MemoryPool, block.address = array.address ∧
    poolDeq.Represents (poolDeques malloc) block records
  destructor : poolDeq.destructor = some destroyPool
  arraySmall : poolDeq.cap * 24 < 2 ^ 63

/-- The deque holds `records`, and on the account are its array and their blocks. -/
def Open (malloc : Malloc64) (base : Heap) (records : List MemoryPool) (st : State) : Prop :=
  ∃ array, Holding malloc st.1 array records ∧ Owned base st.2 (array :: blocks records)

/-- There is no deque, and nothing is on the account. -/
structure Closed (base : Heap) (st : State) : Prop where
  data : st.1.data = none
  owned : Owned base st.2 []

/-- A state that `destroy_memory_pool` can be called in. -/
def Accounted (malloc : Malloc64) (base : Heap) (st : State) : Prop :=
  Closed base st ∨ ∃ records, Open malloc base records st

/-- Where a call ends the program by `exit`, the account is right. -/
def Halted (malloc : Malloc64) (base : Heap) (halt : Halt) : Prop :=
  isExit halt.1 = true → Accounted malloc base halt.2

/-! ## `destroy_memory_pool` -/

/-- The destructor gives the block of every record back, whatever else is on the account. -/
theorem foldlM_destroyPool {others : List Region}
    (owned : Owned base heap (others ++ blocks records)) :
    ∃ heap', records.foldlM (fun heap record => destroyPool record heap) heap =
        Except.ok (ε := Failure) heap' ∧
      Owned base heap' others := by
  induction records generalizing heap with
  | nil => exact ⟨heap, rfl, by simpa [blocks] using owned⟩
  | cons record records ih =>
      have both : blocks (record :: records) = blocks [record] ++ blocks records :=
        blocks_append [record] records
      rw [both] at owned
      rw [List.foldlM_cons]
      simp only [destroyPool, ok_bind]
      apply ih
      by_cases null : record.pool = 0
      · rw [null, Heap.free, if_pos rfl]
        simpa [blocks_null null] using owned
      · rw [blocks_nonnull null] at owned
        exact (owned.perm List.perm_middle).free

theorem Open.destroys (opened : Open malloc base records st) :
    ∃ st', destroyMemoryPool malloc st = .ok st' ∧ Closed base st' := by
  rcases opened with ⟨array, ⟨⟨block, address, rep⟩, destructor, -⟩, owned⟩
  have account : Owned base st.2 ([array] ++ blocks records) := owned
  rcases foldlM_destroyPool account with ⟨heap', destroyed, left⟩
  refine ⟨({ st.1 with data := none, cap := 0, front := 0, back := 0 },
    heap'.free block.address), ?_, rfl, ?_⟩
  · simp only [destroyMemoryPool, Deque.destroy, rep.data, destructor, Deque.apply_eq rep,
      destroyed, ok_bind]
    rfl
  · rw [address]
    exact left.free

/-- A second call changes nothing. -/
theorem Closed.destroys (closed : Closed base st) : destroyMemoryPool malloc st = .ok st := by
  rw [destroyMemoryPool, Deque.destroy, closed.data]
  rfl

theorem Accounted.destroys (accounted : Accounted malloc base st) :
    ∃ st', destroyMemoryPool malloc st = .ok st' ∧ Closed base st' := by
  rcases accounted with closed | ⟨records, opened⟩
  · exact ⟨st, closed.destroys, closed⟩
  · exact opened.destroys

/-! ## Calls that do not end by `exit` -/

/-- The reason to stop is not a call of `exit`. -/
def NotExit (failure : Failure) : Prop := isExit failure = false

theorem ends_leaving {α : Type} {post : α → Prop} {result : Except Failure α}
    (ends : Ends post NotExit result) :
    Ends post (Halted malloc base) (leaving st result) := by
  cases result with
  | ok a => exact ends
  | error failure => exact fun exits => absurd (exits.symm.trans ends) (by decide)

theorem modSize_ends (a b : Nat) : Ends (fun _ => True) NotExit (modSize a b) := by
  unfold modSize
  split
  · exact rfl
  · exact trivial

theorem read_ends {α : Type} (block : Block α) (i : Nat) :
    Ends (fun _ => True) NotExit (block.read i) := by
  unfold Block.read
  split
  · exact trivial
  · exact rfl
  · exact rfl

theorem write_ends {α : Type} (block : Block α) (i : Nat) (element : α) :
    Ends (fun _ => True) NotExit (block.write i element) := by
  unfold Block.write
  split
  · exact trivial
  · exact rfl

theorem validData_ends (deq : Deque MemoryPool Heap) :
    Ends (fun _ => True) NotExit deq.validData := by
  unfold Deque.validData
  split
  · exact trivial
  · exact rfl

theorem copyLoop_ends (old : Block MemoryPool) (front cap count i : Nat)
    (block : Block MemoryPool) :
    Ends (fun _ => True) NotExit (Deque.copyLoop old front cap count i block) := by
  induction count generalizing i block with
  | zero => exact trivial
  | succ count ih =>
      refine (modSize_ends _ _).bind fun slot _ => (read_ends _ _).bind fun element _ => ?_
      exact (write_ends _ _ _).bind fun block _ => ih _ _

/-- Growing the array ends by `abort` when memory is short. -/
theorem onPush_notExit (malloc : Malloc64) (deq : Deque MemoryPool Heap) (heap : Heap) :
    Ends (fun _ => True) NotExit (deq.onPush (poolDeques malloc) heap) := by
  refine (validData_ends _).bind fun old _ => (modSize_ends _ _).bind fun next _ => ?_
  split
  · simp only [Allocation.array, poolDeques, ok_bind, pure_eq_ok]
    cases (heap.malloc malloc (mulSize (mulSize 2 deq.cap) 24)).1 with
    | none => exact rfl
    | some address =>
        simp only [Option.map_some]
        generalize subSize deq.cap 1 = count
        exact (copyLoop_ends _ _ _ _ _ _).bind fun block _ => trivial
  · exact trivial

theorem pushBack_notExit (malloc : Malloc64) (deq : Deque MemoryPool Heap) (element : MemoryPool)
    (heap : Heap) :
    Ends (fun _ => True) NotExit (deq.pushBack (poolDeques malloc) element heap) := by
  refine (validData_ends _).bind fun _ _ => (onPush_notExit malloc _ _).bind fun grown _ => ?_
  refine (validData_ends _).bind fun block _ => (write_ends _ _ _).bind fun block _ => ?_
  exact (modSize_ends _ _).bind fun back _ => trivial

/-! ## Getting a record and recording it -/

/-- A new record brings its block onto the account. -/
theorem initializePool_owned {account : List Region} (malloc : Malloc64) (size : Nat)
    (owned : Owned base heap account) :
    Owned base (initializePool malloc size heap).2
      (blocks [(initializePool malloc size heap).1] ++ account) := by
  unfold initializePool
  by_cases empty : size = 0
  · rw [if_pos empty]
    exact owned
  · rw [if_neg empty]
    rcases answer : heap.malloc malloc size with ⟨_ | mem, heap'⟩
    · exact owned.malloc_none answer
    · have nonnull := (Heap.malloc_some answer).1
      simp only
      rw [blocks_nonnull nonnull]
      exact owned.malloc_some answer

theorem initializePool_failed {account : List Region} (owned : Owned base heap account)
    (failed : (initializePool malloc size heap).1.pool = 0) :
    Owned base (initializePool malloc size heap).2 account := by
  have obtained := initializePool_owned malloc size owned
  rwa [blocks_null failed] at obtained

/-- The block of a record is on the account, beside what was there. -/
def Obtains (base : Heap) (account : List Region) (result : MemoryPool × Heap) : Prop :=
  Owned base result.2 (blocks [result.1] ++ account)

variable {account : List Region}

/-- Attempts that fail leave the account, so the handler may be called after any of them. -/
theorem lowMemoryInitializePool_accounted
    (exits : ∀ heap, Owned base heap account → Accounted malloc base (poolDeq, heap))
    (requiredSize failedRequestedSize : Nat) (owned : Owned base heap account) :
    Ends (Obtains base account) (Halted malloc base)
      (lowMemoryInitializePool malloc poolDeq requiredSize failedRequestedSize heap) := by
  induction failedRequestedSize using Nat.strong_induction_on generalizing heap with
  | _ failedRequestedSize ih =>
      rw [lowMemoryInitializePool]
      split
      · exact fun _ => exits heap owned
      · rename_i larger
        simp only
        split
        · exact initializePool_owned malloc _ owned
        · rename_i failed
          exact ih _ (smallerSize_lt larger) (initializePool_failed owned (not_not.mp failed))

theorem poolOrSmaller_accounted
    (exits : ∀ heap, Owned base heap account → Accounted malloc base (poolDeq, heap))
    (requiredSize size : Nat) (owned : Owned base heap account) :
    Ends (Obtains base account) (Halted malloc base)
      (poolOrSmaller malloc poolDeq requiredSize size heap) := by
  simp only [poolOrSmaller]
  split
  · rename_i failed
    exact lowMemoryInitializePool_accounted exits requiredSize size
      (initializePool_failed owned failed)
  · exact initializePool_owned malloc _ owned

/-- A new record is recorded; a larger array comes onto the account before the old one is
given back. -/
theorem Holding.pushBack {array : Region} (holding : Holding malloc poolDeq array records)
    (owned : Owned base heap (blocks [record] ++ array :: blocks records)) :
    Ends (Open malloc base (records ++ [record])) NotExit
      (poolDeq.pushBack (poolDeques malloc) record heap) := by
  rcases holding.rep with ⟨block, address, rep⟩
  have account : Owned base heap (array :: blocks (records ++ [record])) := by
    refine owned.perm ?_
    rw [blocks_append]
    exact List.perm_append_comm
  have pushes := record_ends rep holding.arraySmall record heap
  have stops := pushBack_notExit malloc poolDeq record heap
  cases pushed : poolDeq.pushBack (poolDeques malloc) record heap with
  | error failure => exact stops.of_error pushed
  | ok st =>
      rcases pushes.of_ok pushed with ⟨⟨block', rep', destructor, moved⟩, arraySmall⟩
      rcases st with ⟨deq, heap'⟩
      have destroys : deq.destructor = some destroyPool := destructor.trans holding.destructor
      cases moved with
      | kept same sameAddress =>
          exact ⟨array, ⟨⟨block', sameAddress.trans address, rep'⟩, destroys, arraySmall⟩,
            account⟩
      | replaced answer =>
          have both := (account.malloc_some (Except.ok.inj answer)).perm (.swap _ _ _)
          exact ⟨⟨block'.address, deq.cap * 24⟩, ⟨⟨block', rfl, rep'⟩, destroys, arraySmall⟩,
            address ▸ both.free⟩

/-! ## Requests -/

/-- What the loop of `memory_pool_alloc` leaves: the last record is the current one. -/
def EndsWith (malloc : Malloc64) (base : Heap) (result : MemoryPool × State) : Prop :=
  ∃ earlier, Open malloc base (earlier ++ [result.1]) result.2

theorem growLoop_accounted {earlier : List MemoryPool} {pool : MemoryPool}
    (initSize size fuel : Nat) (opened : Open malloc base (earlier ++ [pool]) st) :
    Ends (EndsWith malloc base) (Halted malloc base)
      (growLoop malloc overflow initSize size fuel pool st) := by
  induction fuel generalizing pool st earlier with
  | zero => exact fun _ => .inr ⟨_, opened⟩
  | succ fuel ih =>
      rcases st with ⟨poolDeq, heap⟩
      by_cases full : noRoom pool size = true
      · rcases opened with ⟨array, holding, owned⟩
        rcases holding.rep with ⟨block, address, rep⟩
        have record {record : MemoryPool} {heap' : Heap}
            (obtained : Obtains base (array :: blocks (earlier ++ [pool])) (record, heap')) :
            Ends (EndsWith malloc base) (Halted malloc base) (do
              let st ← leaving (poolDeq, heap')
                (poolDeq.pushBack (poolDeques malloc) record heap')
              growLoop malloc overflow initSize size fuel record st) :=
          (ends_leaving (holding.pushBack obtained)).bind fun _ opened => ih opened
        simp only [growLoop, if_pos full, Deque.length_eq rep, leaving_ok, ok_bind]
        split
        · exact record (initializePool_owned malloc _ owned)
        · refine (poolOrSmaller_accounted ?_ _ _ owned).bind fun _ obtained => record obtained
          exact fun _ owned => .inr ⟨_, array, holding, owned⟩
      · rw [growLoop, if_neg full]
        exact ⟨earlier, opened⟩

/-- The pool between two requests. -/
def Serving (malloc : Malloc64) (base : Heap) (st : State) : Prop :=
  ∃ earlier back, Open malloc base (earlier ++ [back]) st

theorem Serving.accounted (serving : Serving malloc base st) : Accounted malloc base st := by
  rcases serving with ⟨earlier, back, opened⟩
  exact .inr ⟨_, opened⟩

theorem check_ends (condition : Bool) : Ends (fun _ => True) NotExit (check condition) := by
  unfold check
  split
  · exact trivial
  · exact rfl

/-- Every request leaves a pool that can serve the next one, and none of its assertions
matters for the account. -/
theorem memoryPoolAlloc_accounted (fuel size : Nat) (serving : Serving malloc base st) :
    Ends (fun result => Serving malloc base result.2) (Halted malloc base)
      (memoryPoolAlloc malloc overflow fuel size st) := by
  rcases serving with ⟨earlier, back, opened⟩
  rcases id opened with ⟨array, ⟨⟨block, address, rep⟩, -⟩, -⟩
  have some_ : earlier ++ [back] ≠ [] := by simp
  rcases List.exists_cons_of_ne_nil some_ with ⟨front, others, split⟩
  have peeked : st.1.peekFront = .ok front := Deque.peekFront_eq (split ▸ rep)
  simp only [memoryPoolAlloc, Deque.isEmpty_eq rep, Deque.peekBack_eq rep, peeked, leaving_ok,
    ok_bind]
  refine (ends_leaving (check_ends _)).bind fun _ _ => ?_
  refine (ends_leaving (check_ends _)).bind fun _ _ => ?_
  refine (ends_leaving (check_ends _)).bind fun _ _ => ?_
  refine (ends_leaving (check_ends _)).bind fun _ _ => ?_
  refine (growLoop_accounted _ _ fuel opened).bind fun result found => ?_
  rcases result with ⟨pool, poolDeq, heap⟩
  rcases found with ⟨earlier', array', ⟨⟨block', address', rep'⟩, destructor, arraySmall⟩, owned⟩
  obtain ⟨after, block'', updated, rep'', sameAddress, sameDestructor, sameCap⟩ :=
    Deque.updateBack_eq { pool with next := pool.next + size } rep'
  simp only [Deque.peekBack_eq rep', leaving_ok, ok_bind, updated]
  refine (ends_leaving (check_ends _)).bind fun _ _ => ?_
  refine ⟨earlier', { pool with next := pool.next + size }, array',
    ⟨⟨block'', sameAddress.trans address', rep''⟩, sameDestructor.trans destructor,
      sameCap ▸ arraySmall⟩, ?_⟩
  simpa [blocks_next] using owned

/-- The new deque, which is empty, or the `exit` that leaves the old one. -/
theorem newDestructable_accounted (closed : Closed base st) :
    Ends (Open malloc base []) (Halted malloc base)
      (leaving (st.1, (st.2.malloc malloc (10 * 24)).2)
        (Deque.newDestructable (poolDeques malloc) 10 destroyPool st.2)) := by
  have fits : (poolDeques malloc).Fits 10 := ⟨by decide, (by decide : 10 * 24 < sizeRange)⟩
  have array := Allocation.array_eq (α := MemoryPool) fits st.2
  have asks : (poolDeques malloc).alloc (10 * (poolDeques malloc).elementSize) st.2 =
      .ok (st.2.malloc malloc (10 * 24)) := rfl
  rw [asks] at array
  rcases answer : st.2.malloc malloc (10 * 24) with ⟨_ | address, heap'⟩
  · have fails : Deque.newDestructable (poolDeques malloc) 10 destroyPool st.2 =
        .error (poolDeques malloc).newFails := by
      rw [Deque.newDestructable, Deque.new, array, answer]
      rfl
    rw [fails]
    exact fun _ => .inl ⟨closed.data, closed.owned.malloc_none answer⟩
  · have makes : ∃ deq, Deque.new (α := MemoryPool) (poolDeques malloc) 10 st.2 =
        .ok (deq, heap') := by
      rw [Deque.new, array, answer]
      exact ⟨_, rfl⟩
    rcases makes with ⟨deq, makes⟩
    rcases (Deque.new_ends fits st.2).of_ok makes with ⟨block, rep, cap, -, answered⟩
    have same : address = block.address := by
      rw [asks, answer] at answered
      simpa using answered
    have sameRep : Deque.Represents (poolDeques malloc)
        { deq with destructor := some destroyPool } block [] := { rep with }
    rw [Deque.newDestructable, makes]
    have sameCap : deq.cap = 10 := cap
    refine ⟨⟨address, 10 * 24⟩, ⟨⟨block, same.symm, sameRep⟩, rfl, ?_⟩, ?_⟩
    · simp [sameCap]
    · exact closed.owned.malloc_some answer

theorem initializeMemoryPool_accounted (size : Nat) (closed : Closed base st) :
    Ends (Serving malloc base) (Halted malloc base) (initializeMemoryPool malloc size st) := by
  simp only [initializeMemoryPool]
  refine (newDestructable_accounted closed).bind fun made opened => ?_
  rcases made with ⟨poolDeq, heap⟩
  rcases opened with ⟨array, holding, owned⟩
  refine (poolOrSmaller_accounted ?_ _ _ owned).bind fun result obtained => ?_
  · exact fun _ owned => .inr ⟨_, array, holding, owned⟩
  · refine Ends.mono (ends_leaving (holding.pushBack obtained)) ?_ fun _ stops => stops
    intro st _ opened
    exact ⟨[], result.1, opened⟩

/-! ## Rounds of the loop -/

theorem happen_accounted (fuel : Nat) (event : Event) (serving : Serving malloc base st) :
    Ends (fun result => Serving malloc base result.2) (Halted malloc base)
      (happen malloc overflow fuel event st) := by
  cases event with
  | request request =>
      exact (memoryPoolAlloc_accounted fuel request.bytes serving).bind fun _ served => served
  | exit status message => exact fun _ => serving.accounted

theorem mainRound_accounted (fuel : Nat) (events : List Event) (closed : Closed base st) :
    Ends (fun result => Closed base result.2) (Halted malloc base)
      (mainRound malloc overflow fuel events st) := by
  simp only [mainRound]
  refine (initializeMemoryPool_accounted 1024 closed).bind fun opened serving => ?_
  have run : Ends (Serving malloc base) (Halted malloc base)
      (runOps (happen malloc overflow fuel) events opened).2 :=
    runOps_keeps (fun event _ _ serving => happen_accounted fuel event serving) serving
  refine run.bind fun st serving => ?_
  rcases serving.accounted.destroys with ⟨st', destroyed, closed⟩
  simpa [destroyed] using closed

/-- Behind any rounds `main` has no pool, and where it ends by `exit` the account is right. -/
theorem main_accounted (malloc : Malloc64) (overflow : Nat → Nat) (fuel : Nat)
    (rounds : List (List Event)) (base : Heap) :
    Ends (Closed base) (Halted malloc base) (main malloc overflow fuel rounds base) := by
  have start : Closed base (staticDeque, base) := ⟨rfl, .refl base⟩
  exact runOps_keeps (fun events _ _ closed => mainRound_accounted fuel events closed) start

/-- In every run of `main`, whether it returns or a call ends it by `exit` at any moment, the
handler of `atexit` leaves exactly the blocks that were live before the run, and no block has
been given back twice; after `main` has returned, the handler changes nothing. -/
theorem main_frees_once (malloc : Malloc64) (overflow : Nat → Nat) (fuel : Nat)
    (rounds : List (List Event)) (base : Heap) :
    (∀ result, atExit malloc (main malloc overflow fuel rounds base) = some result →
      ∃ st, result = .ok st ∧ st.1.data = none ∧ st.2.live = base.live ∧
        st.2.invalidFrees = base.invalidFrees) ∧
      ∀ st, main malloc overflow fuel rounds base = .ok st →
        destroyMemoryPool malloc st = .ok st := by
  have ends := main_accounted malloc overflow fuel rounds base
  constructor
  · intro result handled
    have accounted : ∃ st, Accounted malloc base st ∧ destroyMemoryPool malloc st = result := by
      cases ran : main malloc overflow fuel rounds base with
      | ok st =>
          rw [ran] at handled ends
          exact ⟨st, .inl ends, Option.some.inj handled⟩
      | error halt =>
          rw [ran] at handled ends
          rcases halt with ⟨failure, st⟩
          by_cases exits : isExit failure = true
          · rw [atExit, if_pos exits] at handled
            exact ⟨st, ends exits, Option.some.inj handled⟩
          · rw [atExit, if_neg exits] at handled
            cases handled
    rcases accounted with ⟨st, accounted, rfl⟩
    rcases accounted.destroys with ⟨st', destroyed, closed⟩
    exact ⟨st', destroyed, closed.data, closed.owned.live_eq, closed.owned.valid⟩
  · intro st returned
    exact (ends.of_ok returned).destroys

/-- The second round ends by an `exit` after a block that did not fit into the first one. -/
example :
    let rounds : List (List Event) :=
      [[.request (.strdup ['c', 'd'])], [.request (.alloc 2000), .exit (-1) ""]]
    (atExit (Malloc.above _ _) (main (Malloc.above _ _) id 8 rounds ⟨[], 0, []⟩)).map
      (fun result => result.toOption.map fun st => st.2.live) = some (some []) := by
  decide

end QuashLabs.Quash.MemoryPool.AtExit
