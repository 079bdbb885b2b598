import QuashLabs.Memory.Malloc

/-!
# Accounts of allocated blocks

`Owned base heap blocks` compares a heap with an earlier one: the live blocks are
those of before and `blocks`, and whatever else was allocated meanwhile has been
given back once. `malloc` adds a block to the account and `free` takes it out, so
an account that ends empty leaves the heap as it was.
-/

namespace QuashLabs.Memory

/-- Beside the blocks of `base`, exactly `blocks` are live in `heap`, and no address was given
back meanwhile without being live. -/
structure Owned (base heap : Heap) (blocks : List Region) : Prop where
  live : ∃ own : List Region, own.Perm blocks ∧ heap.live = own ++ base.live
  nonnull : ∀ block ∈ blocks, block.address ≠ 0
  distinct : blocks.Pairwise fun a b => a.address ≠ b.address
  foreign : ∀ block ∈ blocks, ∀ region ∈ base.live, region.address ≠ block.address
  valid : heap.invalidFrees = base.invalidFrees

namespace Owned

variable {limit top : Nat} {allocator : Malloc limit top}
variable {base heap heap' : Heap} {blocks blocks' : List Region} {block : Region}
variable {size address : Nat}

/-- Nothing has happened yet. -/
theorem refl (heap : Heap) : Owned heap heap [] :=
  ⟨⟨[], .refl _, rfl⟩, nofun, .nil, nofun, rfl⟩

/-- An empty account leaves the live blocks as they were. -/
theorem live_eq (owned : Owned base heap []) : heap.live = base.live := by
  rcases owned.live with ⟨own, same, live⟩
  rw [live, same.eq_nil, List.nil_append]

theorem perm (owned : Owned base heap blocks) (same : blocks.Perm blocks') :
    Owned base heap blocks' := by
  rcases owned.live with ⟨own, ownSame, live⟩
  refine ⟨⟨own, ownSame.trans same, live⟩, ?_, ?_, ?_, owned.valid⟩
  · intro block member
    exact owned.nonnull block (same.mem_iff.mpr member)
  · exact same.pairwise owned.distinct fun different => different.symm
  · intro block member
    exact owned.foreign block (same.mem_iff.mpr member)

/-- A block of the account is live. -/
theorem mem_live (owned : Owned base heap blocks) (member : block ∈ blocks) :
    block ∈ heap.live := by
  rcases owned.live with ⟨own, same, live⟩
  rw [live]
  exact List.mem_append_left _ (same.mem_iff.mpr member)

/-- A request that fails changes no account. -/
theorem malloc_none (owned : Owned base heap blocks)
    (answer : heap.malloc allocator size = (none, heap')) : Owned base heap' blocks := by
  rcases owned with ⟨⟨own, same, live⟩, nonnull, distinct, foreign, valid⟩
  refine ⟨⟨own, same, ?_⟩, nonnull, distinct, foreign, ?_⟩
  · rw [Heap.live_malloc answer, live]
  · rw [← valid, ← Heap.invalidFrees_malloc allocator size heap, answer]

/-- A new block is apart from all live ones, so from the whole account. -/
theorem malloc_some (owned : Owned base heap blocks)
    (answer : heap.malloc allocator size = (some address, heap')) :
    Owned base heap' (⟨address, size⟩ :: blocks) := by
  rcases Heap.malloc_some answer with ⟨nonnull, -, -, fresh, grown⟩
  rcases owned.live with ⟨own, same, live⟩
  refine ⟨⟨⟨address, size⟩ :: own, same.cons _, ?_⟩, ?_, ?_, ?_, ?_⟩
  · rw [grown, live, List.cons_append]
  · exact List.forall_mem_cons.mpr ⟨nonnull, owned.nonnull⟩
  · refine List.pairwise_cons.mpr ⟨fun block member => ?_, owned.distinct⟩
    exact (fresh block (owned.mem_live member)).1.symm
  · refine List.forall_mem_cons.mpr ⟨fun region member => ?_, owned.foreign⟩
    refine (fresh region ?_).1
    rw [live]
    exact List.mem_append_right _ member
  · rw [← owned.valid, ← Heap.invalidFrees_malloc allocator size heap, answer]

/-- Giving a block of the account back takes it out and touches no other block. -/
theorem free (owned : Owned base heap (block :: blocks)) :
    Owned base (heap.free block.address) blocks := by
  have member := owned.mem_live List.mem_cons_self
  rcases owned with ⟨⟨own, same, live⟩, nonnull, distinct, foreign, valid⟩
  rcases List.forall_mem_cons.mp nonnull with ⟨nonzero, nonnull⟩
  rcases List.pairwise_cons.mp distinct with ⟨others, distinct⟩
  rcases List.forall_mem_cons.mp foreign with ⟨apart, foreign⟩
  have freed : heap.free block.address =
      { heap with live := heap.live.filter (·.address ≠ block.address) } := by
    rw [Heap.free, if_neg nonzero, if_pos ⟨block, member, rfl⟩]
  rw [freed]
  refine ⟨⟨own.filter (·.address ≠ block.address), ?_, ?_⟩, nonnull, distinct, foreign, valid⟩
  · have rest : (block :: blocks).filter (·.address ≠ block.address) = blocks := by
      rw [List.filter_cons_of_neg (by simp), List.filter_eq_self]
      intro other member
      simpa using (others other member).symm
    exact rest ▸ same.filter _
  · have kept : base.live.filter (·.address ≠ block.address) = base.live := by
      rw [List.filter_eq_self]
      intro region member
      simpa using apart region member
    simp only [live, List.filter_append, kept]

end Owned

end QuashLabs.Memory
