import Mathlib.Data.List.Basic

/-!
# A heap with `malloc` and `free`

Blocks are regions of addresses. An allocator answers a request with a null
pointer or with a block apart from all live ones; its answers may depend on
everything that happened before, so every pattern of failures is some
allocator. Giving back an address that is not live is recorded.
-/

namespace QuashLabs.Memory

/-- The addresses from `address` up to `address + size`. -/
structure Region where
  address : Nat
  size : Nat
  deriving Repr, DecidableEq

namespace Region

/-- No address lies in both regions. -/
def Disjoint (a b : Region) : Prop :=
  a.address + a.size ≤ b.address ∨ b.address + b.size ≤ a.address

/-- Disjoint regions that also start at different addresses, so that an address
names one block even where blocks are empty. -/
def Apart (a b : Region) : Prop :=
  a.address ≠ b.address ∧ a.Disjoint b

instance : DecidableRel Disjoint := fun a b =>
  inferInstanceAs (Decidable (a.address + a.size ≤ b.address ∨ b.address + b.size ≤ a.address))

instance : DecidableRel Apart := fun a b =>
  inferInstanceAs (Decidable (a.address ≠ b.address ∧ a.Disjoint b))

end Region

/-- The live blocks, the number of requests so far, and the addresses that were
given back without being live. -/
structure Heap where
  live : List Region
  requests : Nat
  invalidFrees : List Nat
  deriving Repr, DecidableEq

/-- An allocator. No object is larger than `limit` bytes and none reaches past
the end `top` of the address space. -/
structure Malloc (limit top : Nat) where
  answer : Nat → List Region → Nat → Option Nat
  nonnull : ∀ {requests live size address}, answer requests live size = some address → address ≠ 0
  small : ∀ {requests live size address}, answer requests live size = some address → size ≤ limit
  inside : ∀ {requests live size address}, answer requests live size = some address →
    address + size ≤ top
  fresh : ∀ {requests live size address}, answer requests live size = some address →
    ∀ region ∈ live, region.Apart ⟨address, size⟩

/-- The first address behind all blocks, and at least `16`. -/
def frontier (live : List Region) : Nat :=
  live.foldr (fun region address => max (region.address + region.size + 1) address) 16

theorem le_frontier {live : List Region} {region : Region} (member : region ∈ live) :
    region.address + region.size + 1 ≤ frontier live := by
  induction member with
  | head rest => exact Nat.le_max_left _ _
  | tail other _ ih => exact Nat.le_trans ih (Nat.le_max_right _ _)

theorem sixteen_le_frontier (live : List Region) : 16 ≤ frontier live := by
  induction live with
  | nil => exact Nat.le_refl _
  | cons region live ih => exact Nat.le_trans ih (Nat.le_max_right _ _)

/-- An allocator that places every block behind all live ones. -/
def Malloc.above (limit top : Nat) : Malloc limit top where
  answer _ live size :=
    if size ≤ limit ∧ frontier live + size ≤ top then some (frontier live) else none
  nonnull := by
    intro _ live _ _ answer
    have low := sixteen_le_frontier live
    split at answer <;> cases answer
    omega
  small := by
    intro _ _ _ _ answer
    split at answer <;> cases answer
    rename_i fits
    exact fits.1
  inside := by
    intro _ _ _ _ answer
    split at answer <;> cases answer
    rename_i fits
    exact fits.2
  fresh := by
    intro _ live _ _ answer region member
    have below := le_frontier member
    split at answer <;> cases answer
    exact ⟨by simp only; omega, .inl (by simp only; omega)⟩

/-- An allocator whose blocks start at multiples of `alignment`. -/
def Malloc.Aligns {limit top : Nat} (allocator : Malloc limit top) (alignment : Nat) : Prop :=
  ∀ {requests live size address}, allocator.answer requests live size = some address →
    address % alignment = 0

/-- The first multiple of sixteen behind all blocks. -/
def frontierSixteen (live : List Region) : Nat := (frontier live + 15) / 16 * 16

theorem frontier_le_sixteen (live : List Region) : frontier live ≤ frontierSixteen live := by
  unfold frontierSixteen
  omega

/-- An allocator that places every block behind all live ones, at a multiple of sixteen. -/
def Malloc.aboveSixteen (limit top : Nat) : Malloc limit top where
  answer _ live size :=
    if size ≤ limit ∧ frontierSixteen live + size ≤ top then some (frontierSixteen live) else none
  nonnull := by
    intro _ live _ _ answer
    have low := sixteen_le_frontier live
    have behind := frontier_le_sixteen live
    split at answer <;> cases answer
    omega
  small := by
    intro _ _ _ _ answer
    split at answer <;> cases answer
    rename_i fits
    exact fits.1
  inside := by
    intro _ _ _ _ answer
    split at answer <;> cases answer
    rename_i fits
    exact fits.2
  fresh := by
    intro _ live _ _ answer region member
    have below := le_frontier member
    have behind := frontier_le_sixteen live
    split at answer <;> cases answer
    exact ⟨by simp only; omega, .inl (by simp only; omega)⟩

theorem Malloc.aboveSixteen_aligns (limit top : Nat) : (aboveSixteen limit top).Aligns 16 := by
  intro _ live _ _ answer
  simp only [aboveSixteen] at answer
  split at answer <;> cases answer
  exact Nat.mul_mod_left _ 16

namespace Heap

variable {limit top : Nat}

/-- `malloc(size)`; `none` is the null pointer. -/
def malloc (allocator : Malloc limit top) (size : Nat) (heap : Heap) : Option Nat × Heap :=
  match allocator.answer heap.requests heap.live size with
  | none => (none, { heap with requests := heap.requests + 1 })
  | some address =>
      (some address,
        { heap with live := ⟨address, size⟩ :: heap.live, requests := heap.requests + 1 })

/-- `free(address)`; zero is the null pointer. -/
def free (address : Nat) (heap : Heap) : Heap :=
  if address = 0 then heap
  else if ∃ region ∈ heap.live, region.address = address then
    { heap with live := heap.live.filter (·.address ≠ address) }
  else { heap with invalidFrees := heap.invalidFrees ++ [address] }

variable {allocator : Malloc limit top} {heap heap' : Heap} {size address : Nat} {region : Region}

/-- What is known of a block that `malloc` returns. -/
theorem malloc_some (answer : heap.malloc allocator size = (some address, heap')) :
    address ≠ 0 ∧ size ≤ limit ∧ address + size ≤ top ∧
      (∀ region ∈ heap.live, region.Apart ⟨address, size⟩) ∧
      heap'.live = ⟨address, size⟩ :: heap.live := by
  unfold malloc at answer
  split at answer
  · cases answer
  · rename_i returned
    cases answer
    exact ⟨allocator.nonnull returned, allocator.small returned, allocator.inside returned,
      allocator.fresh returned, rfl⟩

theorem live_malloc (answer : heap.malloc allocator size = (none, heap')) :
    heap'.live = heap.live := by
  unfold malloc at answer
  split at answer
  · cases answer
    rfl
  · cases answer

/-- A request gives nothing back. -/
theorem invalidFrees_malloc (allocator : Malloc limit top) (size : Nat) (heap : Heap) :
    (heap.malloc allocator size).2.invalidFrees = heap.invalidFrees := by
  unfold malloc
  split <;> rfl

/-- A block stays live while another address is given back. -/
theorem mem_live_free (member : region ∈ heap.live) (other : region.address ≠ address) :
    region ∈ (heap.free address).live := by
  unfold free
  split
  · exact member
  · split
    · exact List.mem_filter.mpr ⟨member, by simpa using other⟩
    · exact member

end Heap

end QuashLabs.Memory
