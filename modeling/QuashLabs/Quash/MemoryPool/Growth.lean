import QuashLabs.Checked.Loop
import QuashLabs.Quash.MemoryPool.Regions

/-!
# The sizes of the next pools

With `L` records the next block is to be `2^L` times the first one. The factor is an
`int`, so it is exact up to `L = 30`, and the product is a `size_t`. A request that no
factor below `2^31` can meet goes on recording fillers until the factor is not an `int`.
-/

namespace QuashLabs.Quash.MemoryPool

open QuashLabs.Checked QuashLabs.Memory

variable {malloc : Malloc64} {overflow : Nat → Nat} {st : State} {block : Block MemoryPool}
variable {records : List MemoryPool} {handed : List Region} {size initSize : Nat}

/-! ## The loop -/

/-- The body of the loop of `memory_pool_alloc`. -/
def growRound (malloc : Malloc64) (overflow : Nat → Nat) (initSize size : Nat) :
    MemoryPool × State → Except Failure (MemoryPool × State)
  | (_, poolDeq, heap) => do
      let lengthPoolDeq ← poolDeq.length
      let newSize := newPoolSize overflow initSize lengthPoolDeq
      let (pool, heap) ←
        if newSize < size then pure (initializePool malloc 0 heap)
        else poolOrSmaller malloc size newSize heap
      let st ← poolDeq.pushBack (poolDeques malloc) pool heap
      return (pool, st)

/-- The guard of the loop. -/
def tooSmall (size : Nat) (at_ : MemoryPool × State) : Bool := noRoom at_.1 size

theorem growLoop_eq (fuel : Nat) (pool : MemoryPool) (st : State) :
    growLoop malloc overflow initSize size fuel pool st =
      whileLoop .unfinished (tooSmall size) (growRound malloc overflow initSize size) fuel
        (pool, st) := by
  induction fuel generalizing pool st with
  | zero => rfl
  | succ fuel ih =>
      rcases st with ⟨poolDeq, heap⟩
      simp only [growLoop, whileLoop, tooSmall, growRound, bind_assoc, pure_bind]
      split
      · apply congrArg
        funext lengthPoolDeq
        split
        · simp only [ih, bind_assoc, pure_bind]
        · simp only [ih, bind_assoc, pure_bind]
      · rfl

/-! ## The size of the next pool -/

/-- With `lengthPoolDeq` records, `2 << (length_pool_deq - 1)` is an `int`, the product is a
`size_t`, and the size of the next pool is `initSize * 2^lengthPoolDeq`. -/
def ExactSize (overflow : Nat → Nat) (initSize lengthPoolDeq : Nat) : Prop :=
  2 * 2 ^ (lengthPoolDeq - 1) < 2 ^ 31 ∧ initSize * (2 * 2 ^ (lengthPoolDeq - 1)) < sizeRange ∧
    newPoolSize overflow initSize lengthPoolDeq = initSize * 2 ^ lengthPoolDeq

theorem two_mul_pow_pred {lengthPoolDeq : Nat} (some_ : 0 < lengthPoolDeq) :
    2 * 2 ^ (lengthPoolDeq - 1) = 2 ^ lengthPoolDeq := by
  rw [← pow_succ', Nat.sub_add_cancel some_]

theorem exactSize_of_le {lengthPoolDeq : Nat} (some_ : 0 < lengthPoolDeq)
    (few : lengthPoolDeq ≤ 30) (fits : initSize * 2 ^ lengthPoolDeq < sizeRange) :
    ExactSize overflow initSize lengthPoolDeq := by
  have factor : 2 ^ lengthPoolDeq < 2 ^ 31 := Nat.pow_lt_pow_right (by decide) (by omega)
  have shifted : shiftedTwo overflow lengthPoolDeq = 2 ^ lengthPoolDeq := by
    rw [shiftedTwo, if_pos (by omega), two_mul_pow_pred some_]
  rw [ExactSize, two_mul_pow_pred some_]
  refine ⟨factor, fits, ?_⟩
  rw [newPoolSize, shifted, mulSize_eq fits]

/-! ## Requests that grow the pool exactly -/

/-- The loop of `memory_pool_alloc` ends, and in each of its rounds the size of the next pool
is exact. -/
def GrowsExactly (malloc : Malloc64) (overflow : Nat → Nat) (size : Nat) (st : State) : Prop :=
  ∃ pool front, st.1.peekBack = .ok pool ∧ st.1.peekFront = .ok front ∧
    (∃ rounds, ∀ fuel, rounds ≤ fuel →
      growLoop malloc overflow front.size size fuel pool st ≠ .error .unfinished) ∧
    ∀ pool' st', LoopHead (tooSmall size) (growRound malloc overflow front.size size) (pool, st)
        (pool', st') → noRoom pool' size = true →
      ∃ lengthPoolDeq, st'.1.length = .ok lengthPoolDeq ∧
        ExactSize overflow front.size lengthPoolDeq

/-- The last pool has room, or a block of at most `2^30` times the first one is enough and the
first one to be tried is a `size_t`. -/
def Scalable (size : Nat) (st : State) : Prop :=
  ∃ pool front lengthPoolDeq, st.1.peekBack = .ok pool ∧ st.1.peekFront = .ok front ∧
    st.1.length = .ok lengthPoolDeq ∧
    (noRoom pool size = true →
      lengthPoolDeq ≤ 30 ∧ size ≤ front.size * 2 ^ 30 ∧
        front.size * 2 ^ lengthPoolDeq < sizeRange)

/-- At most `rounds` more rounds are made, all of them exact. -/
def Growing (malloc : Malloc64) (initSize size rounds : Nat) (at_ : MemoryPool × State) : Prop :=
  ∃ block earlier handed, Holds malloc at_.2 block (earlier ++ [at_.1]) handed ∧
    (noRoom at_.1 size = true →
      31 ≤ earlier.length + 1 + rounds ∧ earlier.length + 1 ≤ 30 ∧
        size ≤ initSize * 2 ^ 30 ∧ initSize * 2 ^ (earlier.length + 1) < sizeRange)

theorem growing_lowers (small : size < 2 ^ 63) :
    Lowers (tooSmall size) (growRound malloc overflow initSize size) Failure.OutOfMemory
      (Growing malloc initSize size) := by
  rintro rounds ⟨pool, poolDeq, heap⟩ ⟨block, earlier, handed, holds, exact_⟩ full
  rcases exact_ full with ⟨enough, few, reachable, fits⟩
  have length : (earlier ++ [pool]).length = earlier.length + 1 := by simp
  have newSize : newPoolSize overflow initSize (earlier.length + 1) =
      initSize * 2 ^ (earlier.length + 1) := (exactSize_of_le (Nat.succ_pos _) few fits).2.2
  refine ⟨rounds - 1, by omega, ?_⟩
  simp only [growRound, Deque.length_eq holds.rep, length, newSize, ok_bind]
  split
  · -- The factor is not the last one that the request allows, so one more is an `int`.
    rename_i less
    have below : earlier.length + 1 < 30 := by
      apply Nat.lt_of_le_of_ne few
      intro last
      rw [last] at less
      omega
    have double : initSize * 2 ^ (earlier.length + 1 + 1) =
        2 * (initSize * 2 ^ (earlier.length + 1)) := by
      rw [pow_succ, ← Nat.mul_assoc, Nat.mul_comm]
    rcases initializePool_obtained malloc 0 heap with ⟨obtained, -⟩
    apply (holds.pushBack obtained).bind
    rintro st' ⟨block', holds'⟩
    refine ⟨block', earlier ++ [pool], handed, holds', fun _ => ?_⟩
    rw [length, double]
    unfold sizeRange
    omega
  · rename_i enoughBytes
    apply (poolOrSmaller_ends (Nat.le_of_not_lt enoughBytes) heap).bind
    rintro ⟨record, heap'⟩ ⟨obtained, nonnull, bytes⟩
    apply (holds.pushBack obtained).bind
    rintro st' ⟨block', holds'⟩
    refine ⟨block', earlier ++ [pool], handed, holds', fun stillFull => ?_⟩
    have room : noRoom record size = false := by
      apply (noRoom_eq_false_iff obtained.sound small).mpr
      cases obtained with
      | filler live => exact absurd rfl nonnull
      | block _ _ _ _ _ live => exact Nat.add_le_add_left bytes _
    rw [room] at stillFull
    cases stillFull

theorem Growing.exactSize {rounds : Nat} {pool : MemoryPool}
    (growing : Growing malloc initSize size rounds (pool, st)) (full : noRoom pool size = true) :
    ∃ lengthPoolDeq, st.1.length = .ok lengthPoolDeq ∧
      ExactSize overflow initSize lengthPoolDeq := by
  rcases growing with ⟨block, earlier, handed, holds, bounds⟩
  rcases bounds full with ⟨-, few, -, fits⟩
  refine ⟨earlier.length + 1, ?_, exactSize_of_le (Nat.succ_pos _) few fits⟩
  rw [Deque.length_eq holds.rep, List.length_append, List.length_singleton]

/-- Between two requests a request that is scalable grows the pool exactly. -/
theorem Ready.growsExactly (ready : Ready malloc handed st) (small : size < 2 ^ 63)
    (scalable : Scalable size st) : GrowsExactly malloc overflow size st := by
  rcases scalable with ⟨pool, front, lengthPoolDeq, back, first, length, bounds⟩
  rcases ready with ⟨-, block, earlier, last, holds, -⟩
  rw [Deque.peekBack_eq holds.rep] at back
  cases back
  rw [Deque.length_eq holds.rep] at length
  cases length
  rw [List.length_append, List.length_singleton] at bounds
  have begins : Growing malloc front.size size 30 (pool, st) := by
    refine ⟨block, earlier, handed, holds, fun full => ?_⟩
    rcases bounds full with ⟨few, reachable, fits⟩
    exact ⟨by omega, few, reachable, fits⟩
  refine ⟨pool, front, Deque.peekBack_eq holds.rep, first, ⟨31, fun fuel enough => ?_⟩, ?_⟩
  · have ends : Ends (fun at_ => (∃ rounds, Growing malloc front.size size rounds at_) ∧
        tooSmall size at_ = false) Failure.OutOfMemory
        (growLoop malloc overflow front.size size fuel pool st) := by
      rw [growLoop_eq]
      exact whileLoop_ends (growing_lowers small) begins enough
    intro unfinished
    exact absurd (ends.of_error unfinished) (by decide)
  · intro pool' st' head full
    rcases head.keeps (growing_lowers small) begins with ⟨rounds, growing⟩
    exact growing.exactSize full

/-- In every run of requests that are scalable when they are made, the loop of each ends and
computes exact sizes only. -/
theorem requests_grow_exactly (malloc : Malloc64) (overflow : Nat → Nat) (fuel initSize : Nat)
    (heap : Heap) {requests : List Request} {st : State}
    (small : ∀ request ∈ requests, request.bytes < 2 ^ 63)
    (started : initializeMemoryPool malloc initSize heap = .ok st)
    (scalable : Along (serve malloc overflow fuel)
      (fun request st => Scalable request.bytes st) requests st) :
    Along (serve malloc overflow fuel)
      (fun request st => GrowsExactly malloc overflow request.bytes st) requests st := by
  have ready : ∃ handed, Ready malloc handed st :=
    ⟨[], (initializeMemoryPool_ends malloc initSize heap).of_ok started⟩
  have keeps : ∀ request ∈ requests, ∀ st, (∃ handed, Ready malloc handed st) →
      Ends (fun result => ∃ handed, Ready malloc handed result.2) Exhausted
        (serve malloc overflow fuel request st) := by
    rintro request member st ⟨handed, ready⟩
    apply (serve_ends ready (small request member) fuel).mono _ fun _ stops => stops
    exact fun _ _ ready => ⟨_, ready⟩
  apply scalable.strengthen keeps _ ready
  rintro request member st ⟨handed, ready⟩ scalable
  exact ready.growsExactly (small request member) scalable

/-- A pool of one byte, and a request of five: two fillers, and a block of eight bytes. -/
theorem requests_grow_exactly_five :
    ∃ st, initializeMemoryPool (Malloc.above _ _) 1 ⟨[], 0, []⟩ = .ok st ∧
      Along (serve (Malloc.above _ _) id 8)
        (fun request st => GrowsExactly (Malloc.above _ _) id request.bytes st) [.alloc 5] st := by
  refine ⟨_, rfl, requests_grow_exactly (Malloc.above _ _) id 8 1 ⟨[], 0, []⟩ (by decide) rfl ?_⟩
  refine ⟨⟨_, _, _, rfl, rfl, rfl, by decide⟩, fun _ _ _ => True.intro⟩

/-- What the loop finds after `count` rounds: whether it goes on, and the number of records. -/
def afterRounds (malloc : Malloc64) (overflow : Nat → Nat) (size count : Nat) (st : State) :
    Option (Bool × Nat) := do
  let pool ← st.1.peekBack.toOption
  let front ← st.1.peekFront.toOption
  let (pool, st) ← roundsOf (tooSmall size) (growRound malloc overflow front.size size) count
    (pool, st)
  let lengthPoolDeq ← st.1.length.toOption
  return (noRoom pool size, lengthPoolDeq)

theorem GrowsExactly.factor_small (grows : GrowsExactly malloc overflow size st)
    (count lengthPoolDeq : Nat)
    (after : afterRounds malloc overflow size count st = some (true, lengthPoolDeq)) :
    2 * 2 ^ (lengthPoolDeq - 1) < 2 ^ 31 := by
  rcases grows with ⟨pool, front, back, first, -, exact_⟩
  simp only [afterRounds, back, first, Except.toOption, Option.bind_eq_bind, Option.bind_some,
    Option.bind_eq_some_iff] at after
  rcases after with ⟨⟨pool', st'⟩, made, lengthPoolDeq', length, found⟩
  rcases Prod.mk.inj (Option.some.inj found) with ⟨full, rfl⟩
  rcases exact_ pool' st' (loopHead_of_roundsOf made) full with ⟨_, same, factor, -⟩
  rw [same] at length
  cases length
  exact factor

/-- A pool of one byte, and a request of `2^31` bytes: with thirty fillers behind the first
record the factor is `2 << 30`. -/
theorem requests_grow_exactly_fails :
    ∃ st, initializeMemoryPool (Malloc.above _ _) 1 ⟨[], 0, []⟩ = .ok st ∧
      ¬GrowsExactly (Malloc.above _ _) id (2 ^ 31) st := by
  refine ⟨_, rfl, fun grows => ?_⟩
  exact absurd (grows.factor_small 30 31 (by decide +kernel)) (by decide)

end QuashLabs.Quash.MemoryPool
