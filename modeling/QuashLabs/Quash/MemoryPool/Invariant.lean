import QuashLabs.Quash.MemoryPool.Core

/-!
# The records of the memory pool

Every record that has a block owns a live block of the heap; the blocks of two
records are apart from each other and from the array of the deque itself, and
every region handed out lies in the used part of one block. Each way of getting
a new record and of recording it keeps this.
-/

namespace QuashLabs.Quash.MemoryPool

open QuashLabs.Checked QuashLabs.Memory

/-- The block that a record owns. -/
def region (record : MemoryPool) : Region := ⟨record.pool, record.size⟩

/-- The region lies in the used part of the record's block. -/
def Carved (record : MemoryPool) (handed : Region) : Prop :=
  record.pool ≠ 0 ∧ record.pool ≤ handed.address ∧ handed.address + handed.size ≤ record.next

/-- The used part lies in a block of the address space. -/
structure Sound (record : MemoryPool) : Prop where
  start : record.pool ≤ record.next
  stop : record.next ≤ record.pool + record.size
  small : record.size < 2 ^ 63
  inside : record.pool + record.size ≤ sizeRange

/-- The blocks of the two records, where they have one, are apart. -/
def ApartRecords (p q : MemoryPool) : Prop :=
  p.pool ≠ 0 → q.pool ≠ 0 → p.region.Apart q.region

/-- The state of the pool: its records and the regions handed out so far. -/
structure Holds (malloc : Malloc64) (st : State) (block : Block MemoryPool)
    (records : List MemoryPool) (handed : List Region) : Prop where
  rep : st.1.Represents (poolDeques malloc) block records
  arraySmall : st.1.cap * 24 < 2 ^ 63
  arrayLive : ∃ size, ⟨block.address, size⟩ ∈ st.2.live
  owned : ∀ p ∈ records, p.pool ≠ 0 → p.region ∈ st.2.live ∧ p.pool ≠ block.address
  apart : records.Pairwise ApartRecords
  sound : ∀ p ∈ records, p.Sound
  carved : ∀ r ∈ handed, ∃ p ∈ records, p.Carved r

variable {malloc : Malloc64} {heap heap' : Heap} {st : State} {block : Block MemoryPool}
variable {records : List MemoryPool} {handed : List Region} {record : MemoryPool}

/-! ## Getting a record -/

/-- A new record: without a block, or with a block that is fresh on the heap. -/
inductive Obtained (heap : Heap) : MemoryPool → Heap → Prop
  | filler {heap' : Heap} (live : heap'.live = heap.live) : Obtained heap ⟨0, 0, 0⟩ heap'
  | block {heap' : Heap} {mem size : Nat} (nonnull : mem ≠ 0) (nonempty : size ≠ 0)
      (small : size < 2 ^ 63) (inside : mem + size ≤ sizeRange)
      (fresh : ∀ live ∈ heap.live, live.Apart ⟨mem, size⟩)
      (live : heap'.live = ⟨mem, size⟩ :: heap.live) : Obtained heap ⟨mem, size, mem⟩ heap'

theorem Obtained.sound (obtained : Obtained heap record heap') : record.Sound := by
  cases obtained with
  | filler live => exact ⟨le_rfl, le_rfl, (by decide : 0 < 2 ^ 63), Nat.zero_le _⟩
  | block nonnull nonempty small inside fresh live =>
      exact ⟨le_rfl, Nat.le_add_right _ _, small, inside⟩

theorem Obtained.size_ne_zero (obtained : Obtained heap record heap') (nonnull : record.pool ≠ 0) :
    record.size ≠ 0 := by
  cases obtained with
  | filler live => exact absurd rfl nonnull
  | block nonnull nonempty small inside fresh live => exact nonempty

theorem Obtained.mem_live (obtained : Obtained heap record heap') {live : Region}
    (member : live ∈ heap.live) : live ∈ heap'.live := by
  cases obtained with
  | filler same => exact same ▸ member
  | block nonnull nonempty small inside fresh grown =>
      exact grown ▸ List.mem_cons_of_mem _ member

/-- Requests that fail leave the blocks as they are. -/
theorem Obtained.of_live_eq {heap₁ : Heap} (same : heap₁.live = heap.live)
    (obtained : Obtained heap₁ record heap') : Obtained heap record heap' := by
  cases obtained with
  | filler live => exact .filler (live.trans same)
  | block nonnull nonempty small inside fresh live =>
      exact .block nonnull nonempty small inside (same ▸ fresh) (same ▸ live)

theorem initializePool_obtained (malloc : Malloc64) (size : Nat) (heap : Heap) :
    Obtained heap (initializePool malloc size heap).1 (initializePool malloc size heap).2 ∧
      ((initializePool malloc size heap).1.pool ≠ 0 →
        (initializePool malloc size heap).1.size = size) := by
  unfold initializePool
  by_cases empty : size = 0
  · simpa [empty] using .filler rfl
  · rw [if_neg empty]
    rcases answer : heap.malloc malloc size with ⟨_ | mem, heap'⟩
    · exact ⟨.filler (Heap.live_malloc answer), fun nonnull => absurd rfl nonnull⟩
    · rcases Heap.malloc_some answer with ⟨nonnull, small, inside, fresh, live⟩
      exact ⟨.block nonnull empty (by omega) inside fresh live, fun _ => rfl⟩

/-- A failed request leaves a record without a block. -/
theorem live_eq_of_pool_eq_zero {size : Nat}
    (failed : (initializePool malloc size heap).1.pool = 0) :
    (initializePool malloc size heap).2.live = heap.live := by
  have obtained := (initializePool_obtained malloc size heap).1
  generalize initializePool malloc size heap = result at obtained failed ⊢
  rcases result with ⟨record, heap'⟩
  cases obtained with
  | filler live => exact live
  | block nonnull nonempty small inside fresh live => exact absurd failed nonnull

/-- A record with a block of at least `requiredSize` bytes. -/
def ObtainedFor (heap : Heap) (requiredSize : Nat) (result : MemoryPool × Heap) : Prop :=
  Obtained heap result.1 result.2 ∧ result.1.pool ≠ 0 ∧ requiredSize ≤ result.1.size

/-- What attempts that fail keep of the heap, and what the first that succeeds gives. -/
structure Attempts (malloc : Malloc64) (requiredSize : Nat) (kept : Heap → Prop)
    (post : MemoryPool × Heap → Prop) : Prop where
  fails : ∀ size heap, kept heap → (initializePool malloc size heap).1.pool = 0 →
    kept (initializePool malloc size heap).2
  succeeds : ∀ size heap, requiredSize ≤ size → kept heap →
    (initializePool malloc size heap).1.pool ≠ 0 → post (initializePool malloc size heap)

section

variable {requiredSize : Nat} {kept : Heap → Prop} {post : MemoryPool × Heap → Prop}

theorem Attempts.lowMemory (attempts : Attempts malloc requiredSize kept post)
    (failedRequestedSize : Nat) (start : kept heap) :
    Ends post Failure.OutOfMemory
      (lowMemoryInitializePool malloc requiredSize failedRequestedSize heap) := by
  induction failedRequestedSize using Nat.strong_induction_on generalizing heap with
  | _ failedRequestedSize ih =>
      rw [lowMemoryInitializePool]
      split
      · exact show Failure.OutOfMemory
          (.exit (-1) "ERROR: Unable to allocate more memory to the memory pool.\n") by decide
      · rename_i larger
        simp only
        split
        · rename_i nonnull
          exact attempts.succeeds _ _ (requiredSize_le_smallerSize _ _) start nonnull
        · rename_i failed
          exact ih _ (smallerSize_lt larger) (attempts.fails _ _ start (not_not.mp failed))

theorem Attempts.poolOrSmaller (attempts : Attempts malloc requiredSize kept post) {size : Nat}
    (enough : requiredSize ≤ size) (start : kept heap) :
    Ends post Failure.OutOfMemory (poolOrSmaller malloc requiredSize size heap) := by
  simp only [MemoryPool.poolOrSmaller]
  split
  · rename_i failed
    exact attempts.lowMemory size (attempts.fails size heap start failed)
  · rename_i nonnull
    exact attempts.succeeds size heap enough start nonnull

end

theorem poolOrSmaller_ends {requiredSize size : Nat} (enough : requiredSize ≤ size) (heap : Heap) :
    Ends (ObtainedFor heap requiredSize) Failure.OutOfMemory
      (poolOrSmaller malloc requiredSize size heap) := by
  have attempts : Attempts malloc requiredSize (fun heap' => heap'.live = heap.live)
      (ObtainedFor heap requiredSize) := by
    constructor
    · intro size heap' same failed
      exact (live_eq_of_pool_eq_zero failed).trans same
    · intro size heap' enough same nonnull
      obtain ⟨obtained, asked⟩ := initializePool_obtained malloc size heap'
      exact ⟨obtained.of_live_eq same, nonnull, enough.trans_eq (asked nonnull).symm⟩
  exact attempts.poolOrSmaller enough rfl

/-! ## Recording it -/

/-- An array below half of the address space can grow. -/
theorem pushCap_fits {deq : Deque MemoryPool Heap} (arraySmall : deq.cap * 24 < 2 ^ 63) :
    (poolDeques malloc).Fits deq.pushCap := by
  unfold Deque.pushCap
  constructor
  · split <;> omega
  · change _ * 24 < _
    unfold sizeRange
    split <;> omega

/-- Recording leaves an array that can grow again. -/
theorem record_ends {poolDeq : Deque MemoryPool Heap} {records : List MemoryPool}
    (rep : poolDeq.Represents (poolDeques malloc) block records)
    (arraySmall : poolDeq.cap * 24 < 2 ^ 63) (record : MemoryPool) (heap : Heap) :
    Ends (fun st =>
        Deque.HoldsAfter (poolDeques malloc) poolDeq block heap (records ++ [record]) st ∧
          st.1.cap * 24 < 2 ^ 63)
      Failure.OutOfMemory (poolDeq.pushBack (poolDeques malloc) record heap) := by
  have pushes := Deque.pushBack_ends rep (pushCap_fits arraySmall) record heap
  refine pushes.mono (fun st _ pushed => ⟨pushed.1, ?_⟩) fun _ stops => stops
  rcases pushed with ⟨⟨block', -, -, moved⟩, -⟩
  rcases st with ⟨poolDeq', heap'⟩
  cases moved with
  | kept same address =>
      have sameCap : poolDeq'.cap = poolDeq.cap := same
      exact sameCap ▸ arraySmall
  | replaced answer =>
      have small := (Heap.malloc_some (Except.ok.inj answer)).2.1
      exact Nat.lt_of_le_of_lt small (by omega)

/-- With a new record every block is live and none is the array of the deque. -/
theorem Holds.owned_append (holds : Holds malloc st block records handed)
    (obtained : Obtained st.2 record heap') :
    ∀ p ∈ records ++ [record], p.pool ≠ 0 → p.region ∈ heap'.live ∧ p.pool ≠ block.address := by
  intro p member nonnull
  rcases List.mem_append.mp member with old | new
  · exact ⟨obtained.mem_live (holds.owned p old nonnull).1, (holds.owned p old nonnull).2⟩
  · obtain rfl := List.mem_singleton.mp new
    cases obtained with
    | filler live => exact absurd rfl nonnull
    | block _ nonempty small inside fresh live =>
        rcases holds.arrayLive with ⟨arraySize, arrayLive⟩
        exact ⟨live ▸ List.mem_cons_self, (fresh _ arrayLive).1.symm⟩

/-- The block of a new record is apart from the others. -/
theorem Holds.apart_append (holds : Holds malloc st block records handed)
    (obtained : Obtained st.2 record heap') : (records ++ [record]).Pairwise ApartRecords := by
  refine List.pairwise_append.mpr ⟨holds.apart, List.pairwise_singleton _ _, ?_⟩
  intro p old q new nonnull nonnull'
  obtain rfl := List.mem_singleton.mp new
  cases obtained with
  | filler live => exact absurd rfl nonnull'
  | block _ nonempty small inside fresh live => exact fresh _ (holds.owned p old nonnull).1

/-- A new record is recorded behind the others; growing the deque's array meanwhile
touches none of the blocks. -/
theorem Holds.pushBack (holds : Holds malloc st block records handed)
    (obtained : Obtained st.2 record heap') :
    Ends (fun st' => ∃ block', Holds malloc st' block' (records ++ [record]) handed)
      Failure.OutOfMemory (st.1.pushBack (poolDeques malloc) record heap') := by
  have owned := holds.owned_append obtained
  have apart := holds.apart_append obtained
  have sound : ∀ p ∈ records ++ [record], p.Sound := by
    intro p member
    rcases List.mem_append.mp member with old | new
    · exact holds.sound p old
    · exact List.mem_singleton.mp new ▸ obtained.sound
  have carved : ∀ r ∈ handed, ∃ p ∈ records ++ [record], p.Carved r := by
    intro r member
    rcases holds.carved r member with ⟨p, old, carved⟩
    exact ⟨p, List.mem_append_left _ old, carved⟩
  rcases holds.arrayLive with ⟨arraySize, arrayLive⟩
  refine (record_ends holds.rep holds.arraySmall record heap').mono (fun st' _ pushed => ?_)
    fun _ stops => stops
  rcases pushed with ⟨⟨block', rep, -, moved⟩, arraySmall⟩
  rcases st' with ⟨deq', heap''⟩
  refine ⟨block', ?_⟩
  cases moved with
  | kept same address =>
      exact ⟨rep, arraySmall, ⟨arraySize, address ▸ obtained.mem_live arrayLive⟩,
        address ▸ owned, apart, sound, carved⟩
  | replaced answer =>
      -- The blocks are live while the new array is allocated and are not the old array.
      rcases Heap.malloc_some (Except.ok.inj answer) with ⟨nonnull, -, -, fresh, live⟩
      have other : block'.address ≠ block.address :=
        (fresh _ (obtained.mem_live arrayLive)).1.symm
      refine ⟨rep, arraySmall, ⟨deq'.cap * 24, ?_⟩, fun p member some_ => ?_, apart, sound, carved⟩
      · exact Heap.mem_live_free (live ▸ List.mem_cons_self) other
      · rcases owned p member some_ with ⟨alive, notArray⟩
        exact ⟨Heap.mem_live_free (live ▸ List.mem_cons_of_mem _ alive) notArray,
          (fresh _ alive).1⟩

end QuashLabs.Quash.MemoryPool
