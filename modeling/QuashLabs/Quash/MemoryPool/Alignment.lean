import QuashLabs.Quash.MemoryPool.Growth

/-!
# The alignment of what the memory pool hands out

Blocks start at multiples of sixteen, but a request is cut where the last one ended, and
a string ends anywhere. So a request for whole words is aligned exactly when whole words
have been used of the block that serves it, or when it gets a block of its own.
-/

namespace QuashLabs.Quash.MemoryPool

open QuashLabs.Checked QuashLabs.Memory

variable {malloc : Malloc64} {overflow : Nat → Nat} {st : State} {block : Block MemoryPool}
variable {records : List MemoryPool} {record pool : MemoryPool} {heap : Heap}
variable {size initSize fuel : Nat}

/-! ## New records -/

/-- The record has a block, nothing of it is used, and it starts at a multiple of sixteen. -/
structure Unused (record : MemoryPool) : Prop where
  nonnull : record.pool ≠ 0
  nonempty : record.size ≠ 0
  next : record.next = record.pool
  aligned : record.pool % 16 = 0

theorem initializePool_unused (aligns : malloc.Aligns 16) (size : Nat) (heap : Heap) :
    (initializePool malloc size heap).1 = ⟨0, 0, 0⟩ ∨
      Unused (initializePool malloc size heap).1 := by
  unfold initializePool
  by_cases empty : size = 0
  · exact .inl (by simp [empty])
  · rw [if_neg empty]
    unfold Heap.malloc
    cases answer : malloc.answer heap.requests heap.live size with
    | none => exact .inl rfl
    | some address => exact .inr ⟨malloc.nonnull answer, empty, rfl, aligns answer⟩

theorem unused_of_nonnull (aligns : malloc.Aligns 16)
    (nonnull : (initializePool malloc size heap).1.pool ≠ 0) :
    Unused (initializePool malloc size heap).1 := by
  apply (initializePool_unused aligns size heap).resolve_left
  intro filler
  rw [filler] at nonnull
  exact nonnull rfl

theorem poolOrSmaller_unused (aligns : malloc.Aligns 16) {requiredSize size : Nat}
    (enough : requiredSize ≤ size) (heap : Heap) :
    Ends (fun result => Unused result.1) (fun _ => True)
      (poolOrSmaller malloc requiredSize size heap) := by
  have attempts : Attempts malloc requiredSize (fun _ => True) fun result => Unused result.1 :=
    ⟨fun _ _ _ _ => True.intro, fun _ _ _ _ nonnull => unused_of_nonnull aligns nonnull⟩
  exact (attempts.poolOrSmaller enough True.intro).mono (fun _ _ unused => unused)
    fun _ _ => True.intro

/-! ## The loop -/

/-- The records of the pool; its array can grow. -/
def Records (malloc : Malloc64) (st : State) (records : List MemoryPool) : Prop :=
  ∃ block, st.1.Represents (poolDeques malloc) block records ∧ st.1.cap * 24 < 2 ^ 63

theorem Records.pushBack {poolDeq : Deque MemoryPool Heap}
    (recorded : Records malloc (poolDeq, heap) records) (record : MemoryPool) (heap' : Heap) :
    Ends (fun st => Records malloc st (records ++ [record])) (fun _ => True)
      (poolDeq.pushBack (poolDeques malloc) record heap') := by
  rcases recorded with ⟨block, rep, arraySmall⟩
  apply (record_ends rep arraySmall record heap').mono
  · rintro st - ⟨⟨block', rep', -, -⟩, arraySmall'⟩
    exact ⟨block', rep', arraySmall'⟩
  · exact fun _ _ => True.intro

/-- A filler, which no request that gets one fits into, or a block of which nothing is used. -/
def Fresh (malloc : Malloc64) (size : Nat) (at_ : MemoryPool × State) : Prop :=
  (∃ earlier, Records malloc at_.2 (earlier ++ [at_.1])) ∧
    (at_.1 = ⟨0, 0, 0⟩ ∧ 0 < size ∨ Unused at_.1)

theorem growRound_fresh (aligns : malloc.Aligns 16)
    (recorded : ∃ earlier, Records malloc st (earlier ++ [pool])) :
    Ends (Fresh malloc size) (fun _ => True)
      (growRound malloc overflow initSize size (pool, st)) := by
  rcases st with ⟨poolDeq, heap⟩
  rcases recorded with ⟨earlier, recorded⟩
  simp only [growRound]
  apply (Ends.trivial poolDeq.length).bind
  intro lengthPoolDeq _
  split
  · rename_i less
    apply (recorded.pushBack _ _).bind
    intro st' pushed
    exact ⟨⟨_, pushed⟩, .inl ⟨by simp [initializePool], Nat.zero_lt_of_lt less⟩⟩
  · rename_i enough
    apply (poolOrSmaller_unused aligns (Nat.le_of_not_lt enough) _).bind
    intro result unused
    apply (recorded.pushBack _ _).bind
    intro st' pushed
    exact ⟨⟨_, pushed⟩, .inr unused⟩

/-- A loop that makes a round ends with a block of which nothing is used. -/
theorem growLoop_fresh (aligns : malloc.Aligns 16) (fits : size < sizeRange)
    (recorded : ∃ earlier, Records malloc st (earlier ++ [pool]))
    (full : noRoom pool size = true) (fuel : Nat) :
    Ends (fun at_ => (∃ earlier, Records malloc at_.2 (earlier ++ [at_.1])) ∧ Unused at_.1)
      (fun _ => True) (growLoop malloc overflow initSize size fuel pool st) := by
  rw [growLoop_eq]
  cases fuel with
  | zero => exact True.intro
  | succ fuel =>
      have enters : tooSmall size (pool, st) = true := full
      have each : ∀ at_, Fresh malloc size at_ → tooSmall size at_ = true →
          Ends (Fresh malloc size) (fun _ => True)
            (growRound malloc overflow initSize size at_) :=
        fun at_ fresh _ => growRound_fresh aligns fresh.1
      rw [whileLoop, if_pos enters]
      apply (growRound_fresh aligns recorded).bind
      intro at_ fresh
      refine (whileLoop_keeps True.intro each fresh fuel).mono ?_ fun _ _ => True.intro
      rintro at_ - ⟨⟨recorded, ⟨filler, some_⟩ | unused⟩, room⟩
      · -- A filler has no room for the request, so the loop does not end with it.
        have noBytes : decide (0 < addSize (subSize 0 0) size) = false := by
          simpa only [tooSmall, noRoom, filler] using room
        rw [decide_eq_false_iff_not] at noBytes
        unfold addSize subSize at noBytes
        unfold sizeRange at noBytes fits
        omega
      · exact ⟨recorded, unused⟩

/-! ## Requests -/

/-- What `memory_pool_alloc` does behind its loop. -/
def cutLast (size : Nat) : MemoryPool × State → Except Failure (Nat × State)
  | (pool, poolDeq, heap) => do
      let back ← poolDeq.peekBack
      check (pool.next == back.next)
      let poolDeq ← poolDeq.updateBack { pool with next := pool.next + size }
      return (pool.next, poolDeq, heap)

theorem cutLast_returns {earlier : List MemoryPool}
    (recorded : Records malloc st (earlier ++ [pool])) (size : Nat) :
    ∃ st', cutLast size (pool, st) = .ok (pool.next, st') ∧
      Records malloc st' (earlier ++ [{ pool with next := pool.next + size }]) := by
  rcases st with ⟨poolDeq, heap⟩
  rcases recorded with ⟨block, rep, arraySmall⟩
  obtain ⟨after, block', updated, rep', -, -, sameCap⟩ :=
    Deque.updateBack_eq { pool with next := pool.next + size } rep
  refine ⟨(after, heap), ?_, block', rep', sameCap ▸ arraySmall⟩
  simp only [cutLast, Deque.peekBack_eq rep, ok_bind, check, beq_self_eq_true, if_true, updated,
    pure_eq_ok]

/-- The record has a block at a multiple of sixteen, of which some may be used. -/
structure InUse (record : MemoryPool) : Prop where
  nonnull : record.pool ≠ 0
  nonempty : record.size ≠ 0
  start : record.pool ≤ record.next
  aligned : record.pool % 16 = 0

theorem Unused.inUse (unused : Unused record) : InUse record :=
  ⟨unused.nonnull, unused.nonempty, unused.next.ge, unused.aligned⟩

theorem InUse.advance (inUse : InUse pool) (size : Nat) :
    InUse { pool with next := pool.next + size } :=
  { inUse with start := Nat.le_add_right_of_le inUse.start }

/-- The pool between two requests. -/
def Stocked (malloc : Malloc64) (st : State) : Prop :=
  ∃ earlier back, Records malloc st (earlier ++ [back]) ∧ InUse back

/-- Between two requests no assertion fails before the loop. -/
theorem memoryPoolAlloc_eq {earlier : List MemoryPool}
    (recorded : Records malloc st (earlier ++ [pool])) (inUse : InUse pool)
    (overflow : Nat → Nat) (fuel size : Nat) :
    ∃ front : MemoryPool, memoryPoolAlloc malloc overflow fuel size st =
      growLoop malloc overflow front.size size fuel pool st >>= cutLast size := by
  rcases recorded with ⟨block, rep, -⟩
  have some_ : earlier ++ [pool] ≠ [] := by simp
  rcases List.exists_cons_of_ne_nil some_ with ⟨front, others, split⟩
  have nextNonnull : pool.next ≠ 0 := by
    have nonnull := inUse.nonnull
    have start := inUse.start
    omega
  have peeked : st.1.peekFront = .ok front := Deque.peekFront_eq (split ▸ rep)
  refine ⟨front, ?_⟩
  simp only [memoryPoolAlloc, Deque.isEmpty_eq rep, some_, decide_false, Bool.not_false, check,
    if_true, ok_bind, Deque.peekBack_eq rep, peeked, bne_iff_ne, ne_eq, inUse.nonnull,
    inUse.nonempty, nextNonnull, not_false_eq_true]
  rfl

/-- A block with room is cut where the last request ended. -/
theorem memoryPoolAlloc_of_room {earlier : List MemoryPool}
    (recorded : Records malloc st (earlier ++ [pool])) (inUse : InUse pool)
    (room : noRoom pool size = false) (overflow : Nat → Nat) (fuel : Nat) :
    ∃ st', memoryPoolAlloc malloc overflow (fuel + 1) size st = .ok (pool.next, st') ∧
      Stocked malloc st' := by
  rcases memoryPoolAlloc_eq recorded inUse overflow (fuel + 1) size with ⟨front, unfolds⟩
  rcases cutLast_returns recorded size with ⟨st', cuts, recorded'⟩
  refine ⟨st', ?_, earlier, _, recorded', inUse.advance size⟩
  rw [unfolds, growLoop, room]
  exact cuts

/-- Without room the request is cut from the start of a block. -/
theorem memoryPoolAlloc_of_full {earlier : List MemoryPool} (aligns : malloc.Aligns 16)
    (fits : size < sizeRange) (recorded : Records malloc st (earlier ++ [pool]))
    (inUse : InUse pool) (full : noRoom pool size = true) (overflow : Nat → Nat) (fuel : Nat) :
    Ends (fun result => Stocked malloc result.2 ∧ result.1 % 16 = 0) (fun _ => True)
      (memoryPoolAlloc malloc overflow fuel size st) := by
  rcases memoryPoolAlloc_eq recorded inUse overflow fuel size with ⟨front, unfolds⟩
  rw [unfolds]
  apply (growLoop_fresh aligns fits ⟨earlier, recorded⟩ full fuel).bind
  rintro ⟨pool', st'⟩ ⟨⟨earlier', recorded'⟩, unused⟩
  rcases cutLast_returns recorded' size with ⟨st'', cuts, recorded''⟩
  rw [cuts]
  have start : pool'.next % 16 = 0 := by
    rw [unused.next]
    exact unused.aligned
  exact ⟨⟨earlier', _, recorded'', unused.inUse.advance size⟩, start⟩

/-! ## Aligned requests -/

/-- The last block has no room, or whole words of it have been used. -/
def Placed (size : Nat) (st : State) : Prop :=
  ∃ back, st.1.peekBack = .ok back ∧
    (noRoom back size = true ∨ subSize back.next back.pool % 8 = 0)

/-- If the request is for whole words and returns, its region starts at a word. -/
def ReturnsAligned (malloc : Malloc64) (overflow : Nat → Nat) (fuel : Nat) (request : Request)
    (st : State) : Prop :=
  ∀ region st', serve malloc overflow fuel request st = .ok (region, st') →
    request.bytes % 8 = 0 → region.address % 8 = 0

theorem used_aligned_iff (aligned : pool.pool % 16 = 0) :
    subSize pool.next pool.pool % 8 = 0 ↔ pool.next % 8 = 0 := by
  unfold subSize sizeRange
  omega

theorem serve_eq (malloc : Malloc64) (overflow : Nat → Nat) (fuel : Nat) (request : Request)
    (st : State) : serve malloc overflow fuel request st =
      (memoryPoolAlloc malloc overflow fuel request.bytes st).map fun result =>
        (⟨result.1, request.bytes⟩, result.2) := by
  cases request with
  | alloc size =>
      simp only [serve, Request.bytes]
      cases memoryPoolAlloc malloc overflow fuel size st <;> rfl
  | strdup str =>
      simp only [serve, memoryPoolStrdup, Request.bytes]
      cases memoryPoolAlloc malloc overflow fuel (str.length + 1) st <;> rfl

theorem serve_stocked {request : Request} (aligns : malloc.Aligns 16)
    (fits : request.bytes < sizeRange) (stocked : Stocked malloc st) (fuel : Nat) :
    Ends (fun result => Stocked malloc result.2) (fun _ => True)
      (serve malloc overflow fuel request st) := by
  rcases stocked with ⟨earlier, back, recorded, inUse⟩
  have alloc : Ends (fun result => Stocked malloc result.2) (fun _ => True)
      (memoryPoolAlloc malloc overflow fuel request.bytes st) := by
    cases test : noRoom back request.bytes with
    | true =>
        apply (memoryPoolAlloc_of_full aligns fits recorded inUse test overflow fuel).mono
        · exact fun _ _ ended => ended.1
        · exact fun _ stops => stops
    | false =>
        cases fuel with
        | zero =>
            rcases memoryPoolAlloc_eq recorded inUse overflow 0 request.bytes with ⟨_, unfolds⟩
            rw [unfolds]
            exact True.intro
        | succ fuel =>
            rcases memoryPoolAlloc_of_room recorded inUse test overflow fuel with
              ⟨st', returns, stocked⟩
            rw [returns]
            exact stocked
  rw [serve_eq]
  cases served : memoryPoolAlloc malloc overflow fuel request.bytes st with
  | error failure => exact True.intro
  | ok result => exact alloc.of_ok served

theorem returnsAligned_iff {request : Request} (aligns : malloc.Aligns 16)
    (fits : request.bytes < sizeRange) (stocked : Stocked malloc st) (fuel : Nat) :
    ReturnsAligned malloc overflow (fuel + 1) request st ↔
      (request.bytes % 8 = 0 → Placed request.bytes st) := by
  rcases stocked with ⟨earlier, back, recorded, inUse⟩
  have last : st.1.peekBack = .ok back := by
    rcases recorded with ⟨block, rep, -⟩
    exact Deque.peekBack_eq rep
  have placed : Placed request.bytes st ↔
      noRoom back request.bytes = true ∨ back.next % 8 = 0 := by
    rw [← used_aligned_iff inUse.aligned]
    constructor
    · rintro ⟨back', last', where_⟩
      rw [last] at last'
      cases last'
      exact where_
    · intro where_
      exact ⟨back, last, where_⟩
  rw [placed]
  unfold ReturnsAligned
  rw [serve_eq]
  cases test : noRoom back request.bytes with
  | true =>
      have ends := memoryPoolAlloc_of_full aligns fits recorded inUse test overflow (fuel + 1)
      refine ⟨fun _ _ => .inl rfl, fun _ region st' returns _ => ?_⟩
      cases served : memoryPoolAlloc malloc overflow (fuel + 1) request.bytes st with
      | error failure =>
          rw [served] at returns
          cases returns
      | ok result =>
          rw [served] at returns
          cases returns
          have start := (ends.of_ok served).2
          simp only
          omega
  | false =>
      rcases memoryPoolAlloc_of_room recorded inUse test overflow fuel with ⟨st', returns, -⟩
      rw [returns]
      constructor
      · intro aligned words
        exact .inr (aligned _ _ rfl words)
      · rintro placed region st'' ⟨⟩ words
        exact (placed words).resolve_left (by decide)

/-! ## Runs -/

theorem initializeMemoryPool_stocked (aligns : malloc.Aligns 16) (size : Nat) (heap : Heap) :
    Ends (Stocked malloc) (fun _ => True) (initializeMemoryPool malloc size heap) := by
  have fits : (poolDeques malloc).Fits 10 := ⟨by decide, (by decide : 10 * 24 < sizeRange)⟩
  have made : Ends (fun made => Records malloc made []) (fun _ => True)
      (Deque.newDestructable (poolDeques malloc) 10 destroyPool heap) := by
    refine Ends.bind ((Deque.new_ends fits heap).mono (fun _ _ made => made)
      fun _ _ => True.intro) ?_
    rintro made ⟨block, rep, cap, -⟩
    have sameRep : Deque.Represents (poolDeques malloc)
        { made.1 with destructor := some destroyPool } block [] := { rep with }
    exact ⟨block, sameRep, by simp [cap]⟩
  simp only [initializeMemoryPool]
  apply made.bind
  rintro ⟨poolDeq, heap'⟩ recorded
  have wanted : 1 ≤ if size = 0 then 1 else size := by
    split <;> omega
  apply (poolOrSmaller_unused aligns wanted _).bind
  rintro result unused
  apply (recorded.pushBack _ _).mono _ fun _ stops => stops
  exact fun _ _ pushed => ⟨[], result.1, pushed, unused.inUse⟩

/-- In every run, requests for whole words get aligned regions exactly when at each of them
the last block has no room or whole words of it have been used. -/
theorem regions_aligned_iff (aligns : malloc.Aligns 16) (overflow : Nat → Nat)
    (fuel initSize : Nat) (heap : Heap) {requests : List Request} {st : State}
    (fits : ∀ request ∈ requests, request.bytes < sizeRange)
    (started : initializeMemoryPool malloc initSize heap = .ok st) :
    Along (serve malloc overflow (fuel + 1)) (ReturnsAligned malloc overflow (fuel + 1))
        requests st ↔
      Along (serve malloc overflow (fuel + 1))
        (fun request st => request.bytes % 8 = 0 → Placed request.bytes st) requests st := by
  have stocked : Stocked malloc st :=
    (initializeMemoryPool_stocked aligns initSize heap).of_ok started
  have keeps : ∀ request ∈ requests, ∀ st, Stocked malloc st →
      Ends (fun result => Stocked malloc result.2) (fun _ => True)
        (serve malloc overflow (fuel + 1) request st) :=
    fun request member _ stocked => serve_stocked aligns (fits request member) stocked _
  constructor
  · intro along
    apply along.strengthen keeps _ stocked
    intro request member st stocked
    exact (returnsAligned_iff aligns (fits request member) stocked fuel).mp
  · intro along
    apply along.strengthen keeps _ stocked
    intro request member st stocked
    exact (returnsAligned_iff aligns (fits request member) stocked fuel).mpr

/-- A request for a word, a string of four bytes, and a block of its own for two thousand. -/
theorem regions_aligned_iff_words :
    ∃ st, initializeMemoryPool (Malloc.aboveSixteen _ _) 1024 ⟨[], 0, []⟩ = .ok st ∧
      (Along (serve (Malloc.aboveSixteen _ _) id 8) (ReturnsAligned (Malloc.aboveSixteen _ _) id 8)
          [.alloc 8, .strdup ['p', 'w', 'd'], .alloc 2000] st ↔
        Along (serve (Malloc.aboveSixteen _ _) id 8)
          (fun request st => request.bytes % 8 = 0 → Placed request.bytes st)
          [.alloc 8, .strdup ['p', 'w', 'd'], .alloc 2000] st) :=
  ⟨_, rfl, regions_aligned_iff (Malloc.aboveSixteen_aligns _ _) id 7 1024 ⟨[], 0, []⟩
    (by decide) rfl⟩

/-- A string of two bytes, and a word behind it. -/
theorem regions_aligned_fails :
    ∃ st, initializeMemoryPool (Malloc.aboveSixteen _ _) 1024 ⟨[], 0, []⟩ = .ok st ∧
      ¬Along (serve (Malloc.aboveSixteen _ _) id 8)
        (ReturnsAligned (Malloc.aboveSixteen _ _) id 8) [.strdup ['a'], .alloc 8] st := by
  refine ⟨_, rfl, ?_⟩
  rintro ⟨-, later⟩
  exact absurd ((later _ _ rfl).1 _ _ rfl rfl) (by decide)

end QuashLabs.Quash.MemoryPool
