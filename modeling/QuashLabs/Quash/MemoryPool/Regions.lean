import QuashLabs.Checked.Run
import QuashLabs.Quash.MemoryPool.Invariant

/-!
# The regions that the memory pool hands out

Between two requests the last record has a block. The loop of
`memory_pool_alloc` ends with a last record that has room for the request, also
when it goes through records without a block, and the region is cut from the
unused part of that block.
-/

namespace QuashLabs.Quash.MemoryPool

open QuashLabs.Checked QuashLabs.Memory

variable {malloc : Malloc64} {overflow : Nat → Nat} {st : State} {block : Block MemoryPool}
variable {earlier : List MemoryPool} {handed : List Region} {pool : MemoryPool} {size : Nat}

/-- A request stops only because memory ran out, or is still running. -/
def Exhausted (failure : Failure) : Prop :=
  failure.OutOfMemory ∨ failure = .unfinished

/-- The pool between two requests: the last record has a block, and the regions
handed out so far are disjoint. -/
def Ready (malloc : Malloc64) (handed : List Region) (st : State) : Prop :=
  handed.Pairwise Region.Disjoint ∧
    ∃ block earlier back, Holds malloc st block (earlier ++ [back]) handed ∧
      back.pool ≠ 0 ∧ back.size ≠ 0

/-- The comparison of `memory_pool_alloc` without its machine arithmetic. -/
theorem noRoom_eq_false_iff (sound : pool.Sound) (small : size < 2 ^ 63) :
    noRoom pool size = false ↔ pool.next + size ≤ pool.pool + pool.size := by
  have start := sound.start
  have stop := sound.stop
  have poolSmall := sound.small
  have inside := sound.inside
  have used : subSize pool.next pool.pool = pool.next - pool.pool := by
    unfold subSize sizeRange at *
    omega
  rw [noRoom, used, addSize_eq (by unfold sizeRange; omega), decide_eq_false_iff_not]
  omega

/-- What the loop leaves: a last record with a block that has room for the request. -/
def RoomFor (malloc : Malloc64) (size : Nat) (handed : List Region)
    (result : MemoryPool × State) : Prop :=
  ∃ block earlier, Holds malloc result.2 block (earlier ++ [result.1]) handed ∧
    result.1.pool ≠ 0 ∧ result.1.size ≠ 0 ∧
    result.1.next + size ≤ result.1.pool + result.1.size

theorem growLoop_ends (small : size < 2 ^ 63) (initSize fuel : Nat)
    (holds : Holds malloc st block (earlier ++ [pool]) handed)
    (last : pool.pool ≠ 0 ∧ pool.size ≠ 0 ∨ pool = ⟨0, 0, 0⟩ ∧ 0 < size) :
    Ends (RoomFor malloc size handed) Exhausted
      (growLoop malloc overflow initSize size fuel pool st) := by
  induction fuel generalizing pool st block earlier with
  | zero => exact .inr rfl
  | succ fuel ih =>
      rcases st with ⟨poolDeq, heap⟩
      have sound := holds.sound pool (by simp)
      simp only [growLoop]
      cases test : noRoom pool size with
      | false =>
          have room := (noRoom_eq_false_iff sound small).mp test
          rcases last with proper | ⟨rfl, some_⟩
          · exact ⟨block, earlier, holds, proper.1, proper.2, room⟩
          · simp only at room
            omega
      | true =>
          have request : 0 < size := by
            rcases Nat.eq_zero_or_pos size with rfl | some_
            · have fits := (noRoom_eq_false_iff sound small).mpr sound.stop
              rw [test] at fits
              cases fits
            · exact some_
          simp only [if_true, Deque.length_eq holds.rep, ok_bind]
          split
          · -- The deque only gets longer; the next round asks for twice as much.
            rcases initializePool_obtained malloc 0 heap with ⟨obtained, -⟩
            refine ((holds.pushBack obtained).mono (fun _ _ pushed => pushed)
              fun _ stops => .inl stops).bind fun st' pushed => ?_
            rcases pushed with ⟨block', holds'⟩
            exact ih holds' (.inr ⟨by simp [initializePool], request⟩)
          · rename_i enough
            refine ((poolOrSmaller_ends (Nat.le_of_not_lt enough) heap).mono
              (fun _ _ found => found) fun _ stops => .inl stops).bind fun result found => ?_
            rcases result with ⟨record, heap'⟩
            rcases found with ⟨obtained, nonnull, -⟩
            refine ((holds.pushBack obtained).mono (fun _ _ pushed => pushed)
              fun _ stops => .inl stops).bind fun st' pushed => ?_
            rcases pushed with ⟨block', holds'⟩
            exact ih holds' (.inl ⟨nonnull, obtained.size_ne_zero nonnull⟩)

/-- Cutting a region from the last block and writing the record back. -/
theorem Holds.carve (holds : Holds malloc st block (earlier ++ [pool]) handed)
    (nonnull : pool.pool ≠ 0) (room : pool.next + size ≤ pool.pool + pool.size)
    {after : Deque MemoryPool Heap} {block' : Block MemoryPool}
    (rep : after.Represents (poolDeques malloc) block'
      (earlier ++ [{ pool with next := pool.next + size }]))
    (sameAddress : block'.address = block.address) (sameCap : after.cap = st.1.cap) :
    Holds malloc (after, st.2) block' (earlier ++ [{ pool with next := pool.next + size }])
      (handed ++ [⟨pool.next, size⟩]) := by
  have sound := holds.sound pool (by simp)
  refine ⟨rep, sameCap ▸ holds.arraySmall, sameAddress ▸ holds.arrayLive, ?_, ?_, ?_, ?_⟩
  · intro p member some_
    rw [sameAddress]
    rcases List.mem_append.mp member with old | new
    · exact holds.owned p (List.mem_append_left _ old) some_
    · obtain rfl := List.mem_singleton.mp new
      exact holds.owned pool (by simp) nonnull
  · rcases List.pairwise_append.mp holds.apart with ⟨first, -, across⟩
    refine List.pairwise_append.mpr ⟨first, List.pairwise_singleton _ _, ?_⟩
    intro p old q new
    obtain rfl := List.mem_singleton.mp new
    exact across p old pool (by simp)
  · intro p member
    rcases List.mem_append.mp member with old | new
    · exact holds.sound p (List.mem_append_left _ old)
    · obtain rfl := List.mem_singleton.mp new
      exact ⟨Nat.le_add_right_of_le sound.start, room, sound.small, sound.inside⟩
  · intro r member
    rcases List.mem_append.mp member with old | new
    · rcases holds.carved r old with ⟨p, recorded, carved⟩
      rcases List.mem_append.mp recorded with before | last
      · exact ⟨p, List.mem_append_left _ before, carved⟩
      · obtain rfl := List.mem_singleton.mp last
        exact ⟨{ p with next := p.next + size }, by simp, carved.1, carved.2.1,
          Nat.le_add_right_of_le carved.2.2⟩
    · obtain rfl := List.mem_singleton.mp new
      exact ⟨{ pool with next := pool.next + size }, by simp, nonnull, sound.start, le_rfl⟩

/-- The unused part of the last block is disjoint from everything handed out. -/
theorem Holds.disjoint (holds : Holds malloc st block (earlier ++ [pool]) handed)
    (nonnull : pool.pool ≠ 0) (room : pool.next + size ≤ pool.pool + pool.size) {r : Region}
    (member : r ∈ handed) : r.Disjoint ⟨pool.next, size⟩ := by
  have start := (holds.sound pool (by simp)).start
  rcases holds.carved r member with ⟨p, recorded, some_, above, below⟩
  rcases List.mem_append.mp recorded with before | last
  · rcases List.pairwise_append.mp holds.apart with ⟨-, -, across⟩
    have apart := (across p before pool (by simp) some_ nonnull).2
    have stop := (holds.sound p recorded).stop
    simp only [Region.Disjoint, region] at apart ⊢
    omega
  · obtain rfl := List.mem_singleton.mp last
    exact .inl below

/-! ## Requests -/

theorem memoryPoolAlloc_ends (ready : Ready malloc handed st) (small : size < 2 ^ 63)
    (fuel : Nat) :
    Ends (fun result => Ready malloc (handed ++ [⟨result.1, size⟩]) result.2) Exhausted
      (memoryPoolAlloc malloc overflow fuel size st) := by
  rcases ready with ⟨pairwise, block, earlier, back, holds, nonnull, nonempty⟩
  have sound := holds.sound back (by simp)
  have some_ : earlier ++ [back] ≠ [] := by simp
  rcases List.exists_cons_of_ne_nil some_ with ⟨front, others, split⟩
  have nextNonnull : back.next ≠ 0 := by
    have start := sound.start
    omega
  have peeked : st.1.peekFront = .ok front := Deque.peekFront_eq (split ▸ holds.rep)
  simp only [memoryPoolAlloc, Deque.isEmpty_eq holds.rep, some_, decide_false, Bool.not_false,
    check, if_true, ok_bind, Deque.peekBack_eq holds.rep, peeked, bne_iff_ne, ne_eq, nonnull,
    nonempty, nextNonnull, not_false_eq_true]
  refine (growLoop_ends small front.size fuel holds (.inl ⟨nonnull, nonempty⟩)).bind
    fun result found => ?_
  rcases result with ⟨pool, poolDeq, heap⟩
  rcases found with ⟨block', earlier', holds', nonnull', nonempty', room⟩
  obtain ⟨after, block'', updated, rep, sameAddress, -, sameCap⟩ :=
    Deque.updateBack_eq { pool with next := pool.next + size } holds'.rep
  simp only [Deque.peekBack_eq holds'.rep, ok_bind, beq_self_eq_true, if_true, updated, pure_eq_ok,
    Ends.ok_iff]
  have carved := holds'.carve nonnull' room rep sameAddress sameCap
  refine ⟨List.pairwise_append.mpr ⟨pairwise, List.pairwise_singleton _ _, ?_⟩, block'', earlier',
    _, holds'.carve nonnull' room rep sameAddress sameCap, nonnull', nonempty'⟩
  intro r member region last
  obtain rfl := List.mem_singleton.mp last
  exact holds'.disjoint nonnull' room member

/-- A request to the pool. -/
inductive Request
  | alloc (size : Nat)
  | strdup (str : List Char)

/-- The number of bytes that a request asks for. -/
def Request.bytes : Request → Nat
  | .alloc size => size
  | .strdup str => str.length + 1

/-- One request: the region that is handed out. -/
def serve (malloc : Malloc64) (overflow : Nat → Nat) (fuel : Nat) :
    Request → State → Except Failure (Region × State)
  | .alloc size, st => do
      let (ret, st) ← memoryPoolAlloc malloc overflow fuel size st
      return (⟨ret, size⟩, st)
  | .strdup str, st => do
      let (ret, st) ← memoryPoolStrdup malloc overflow fuel str st
      return (⟨ret, str.length + 1⟩, st)

theorem serve_ends {request : Request} (ready : Ready malloc handed st)
    (small : request.bytes < 2 ^ 63) (fuel : Nat) :
    Ends (fun result => Ready malloc (handed ++ [result.1]) result.2) Exhausted
      (serve malloc overflow fuel request st) := by
  cases request with
  | alloc size =>
      simp only [serve]
      exact (memoryPoolAlloc_ends ready small fuel).bind fun _ served => served
  | strdup str =>
      simp only [serve, memoryPoolStrdup]
      exact (memoryPoolAlloc_ends ready small fuel).bind fun _ served => served

theorem initializeMemoryPool_ends (malloc : Malloc64) (size : Nat) (heap : Heap) :
    Ends (Ready malloc []) Failure.OutOfMemory
      (initializeMemoryPool malloc size heap) := by
  have fits : (poolDeques malloc).Fits 10 := ⟨by decide, (by decide : 10 * 24 < sizeRange)⟩
  have wanted : 1 ≤ if size = 0 then 1 else size := by split <;> omega
  simp only [initializeMemoryPool]
  have made : Ends (fun made : Deque MemoryPool Heap × Heap =>
      ∃ block, Holds malloc made block [] []) Failure.OutOfMemory
      (Deque.newDestructable (poolDeques malloc) 10 destroyPool heap) := by
    apply (Deque.new_ends fits heap).bind
    rintro made ⟨block, rep, cap, -, answer⟩
    rcases Heap.malloc_some (Except.ok.inj answer) with ⟨nonnull, -, -, -, live⟩
    have array : ⟨block.address, 240⟩ ∈ made.2.live := live ▸ List.mem_cons_self
    have sameRep : Deque.Represents (poolDeques malloc)
        { made.1 with destructor := some destroyPool } block [] := { rep with }
    refine ⟨block, sameRep, ?_, ⟨240, array⟩, ?_, .nil, ?_, ?_⟩ <;> simp [cap]
  apply made.bind
  rintro deq ⟨block, holds⟩
  apply (poolOrSmaller_ends wanted deq.2).bind
  rintro result ⟨obtained, nonnull, -⟩
  refine (holds.pushBack obtained).mono (fun st _ pushed => ?_) fun _ stops => stops
  rcases pushed with ⟨block', holds'⟩
  exact ⟨.nil, block', [], result.1, holds', nonnull, obtained.size_ne_zero nonnull⟩

/-- The pool is initialised and serves the requests in order. -/
def session (malloc : Malloc64) (overflow : Nat → Nat) (fuel initSize : Nat)
    (requests : List Request) (heap : Heap) : List Region × Except Failure State :=
  match initializeMemoryPool malloc initSize heap with
  | .error failure => ([], .error failure)
  | .ok st => runOps (serve malloc overflow fuel) requests st

/-- The record is in `pool_deq` and its block is live. -/
def Recorded (malloc : Malloc64) (st : State) (pool : MemoryPool) : Prop :=
  pool.region ∈ st.2.live ∧
    ∃ block records, st.1.Represents (poolDeques malloc) block records ∧ pool ∈ records

/-- The region lies inside the block of the record. -/
def Within (pool : MemoryPool) (handed : Region) : Prop :=
  pool.pool ≤ handed.address ∧ handed.address + handed.size ≤ pool.pool + pool.size

theorem Ready.within (ready : Ready malloc handed st) {r : Region} (member : r ∈ handed) :
    ∃ pool, Recorded malloc st pool ∧ pool.Within r := by
  rcases ready with ⟨-, block, earlier, back, holds, -⟩
  rcases holds.carved r member with ⟨p, recorded, nonnull, above, below⟩
  exact ⟨p, ⟨(holds.owned p recorded nonnull).1, block, _, holds.rep, recorded⟩, above,
    below.trans (holds.sound p recorded).stop⟩

theorem serve_size (request : Request) (fuel : Nat) (st : State) :
    Ends (fun result => result.1.size = request.bytes) (fun _ => True)
      (serve malloc overflow fuel request st) := by
  cases request with
  | alloc size =>
      simp only [serve]
      exact (Ends.trivial _).bind fun _ _ => rfl
  | strdup str =>
      simp only [serve]
      exact (Ends.trivial _).bind fun _ _ => rfl

theorem sizes_of_runOps {requests : List Request} {fuel : Nat} {st st' : State}
    (ran : (runOps (serve malloc overflow fuel) requests st).2 = .ok st') :
    (runOps (serve malloc overflow fuel) requests st).1.map Region.size =
      requests.map Request.bytes := by
  induction requests generalizing st with
  | nil => rfl
  | cons request requests ih =>
      simp only [runOps] at ran ⊢
      cases served : serve malloc overflow fuel request st with
      | error failure => simp [served] at ran
      | ok result =>
          have size := (serve_size request fuel st).of_ok served
          simp only [served] at ran ⊢
          rw [List.map_cons, List.map_cons, size, ih ran]

/-- After any requests, with any pattern of failing allocations, every region has
the requested size, lies in one recorded block and is disjoint from all others;
and no assertion fails. -/
theorem session_regions (malloc : Malloc64) (overflow : Nat → Nat) (fuel initSize : Nat)
    (requests : List Request) (heap : Heap) (small : ∀ r ∈ requests, r.bytes < 2 ^ 63) :
    let run := session malloc overflow fuel initSize requests heap
    (∀ failure, run.2 = .error failure → failure ≠ .assertion) ∧
      ∀ st, run.2 = .ok st →
        run.1.map Region.size = requests.map Request.bytes ∧
        run.1.Pairwise Region.Disjoint ∧
        ∀ region ∈ run.1, ∃ pool, Recorded malloc st pool ∧ pool.Within region := by
  intro run
  have started := initializeMemoryPool_ends malloc initSize heap
  simp only [run, session]
  cases initialized : initializeMemoryPool malloc initSize heap with
  | error failure =>
      rw [initialized] at started
      constructor
      · rintro _ ⟨⟩ rfl
        exact absurd (Ends.error_iff.mp started) (by decide)
      · rintro st ⟨⟩
  | ok st =>
      rw [initialized] at started
      have each : ∀ request ∈ requests, ∀ handed st, Ready malloc handed st →
          Ends (fun result => Ready malloc (handed ++ [result.1]) result.2) Exhausted
            (serve malloc overflow fuel request st) :=
        fun request member _ _ ready => serve_ends ready (small request member) fuel
      have ends := runOps_invariant each started
      rw [List.nil_append] at ends
      constructor
      · intro failure stopped
        rcases ends.of_error stopped with memory | running
        · rintro rfl
          exact absurd memory (by decide)
        · rw [running]
          decide
      · intro st' ran
        have ready := ends.of_ok ran
        exact ⟨sizes_of_runOps ran, ready.1, fun region member => ready.within member⟩

/-- A pool of four bytes on an empty heap. -/
theorem session_regions_four :
    let run := session (Malloc.above _ _) id 8 4 [.alloc 3, .strdup ['p', 'w', 'd']] ⟨[], 0, []⟩
    (∀ failure, run.2 = .error failure → failure ≠ .assertion) ∧
      ∀ st, run.2 = .ok st →
        run.1.map Region.size = [3, 4] ∧
        run.1.Pairwise Region.Disjoint ∧
        ∀ region ∈ run.1, ∃ pool, Recorded (Malloc.above _ _) st pool ∧ pool.Within region :=
  session_regions _ id 8 4 [.alloc 3, .strdup ['p', 'w', 'd']] ⟨[], 0, []⟩ (by decide)

end QuashLabs.Quash.MemoryPool
