import QuashLabs.PriorityQueue.Links

/-!
# Runs of priority queue calls

A client makes a queue and calls the library. The queue is intact after every call
exactly when each of its calls is one that the library handles: it stops on an
insertion without memory or beyond the largest `int`, on polling the only element, and
on removing a pointer when it finds no `int` at it or at an element; and removing the
last of several elements by its index ruins the links.
-/

namespace QuashLabs.PriorityQueue

open QuashLabs.Linked QuashLabs.Checked

universe u

variable {α : Type u} {q : Priqueue α} {entries : List (Nat × α)} {last : Option Nat}

/-- A position that is looked at exists. -/
def Op.Existing : Op α → Priqueue α → Prop
  | .elementAt index, q => 0 ≤ index ∧ index < q.size
  | _, _ => True

/-- The elements of a queue in their order. -/
def Priqueue.elements (q : Priqueue α) : List α := q.nodes.visit q.nodes.length q.top

theorem WellLinked.elements (linked : WellLinked q entries last) :
    q.elements = entries.map Prod.snd :=
  linked.chain.visit_eq linked.chain.length_le

/-- The calls that the library handles. Removing a pointer reads an `int` at each element
and one at the pointer, unless there is no element. -/
def Op.Sound (intAt : α → Except Failure Int) : Op α → Priqueue α → Prop
  | .offer memory _, q => memory = true ∧ q.size < intMax
  | .poll, q => q.size ≠ 1
  | .remove ptr, q => ∀ data ∈ q.elements,
      ∃ number sought, intAt data = .ok number ∧ intAt ptr = .ok sought
  | .removeAt index, q => ¬ (1 < q.size ∧ index + 1 = q.size)
  | _, _ => True

/-! ## Insertions return only when the size can be counted -/

/-- The size before is below the largest `int`. -/
abbrev CanGrow (q : Priqueue α) {β : Type u} : Except Failure β → Prop :=
  Ends (fun _ => q.size < intMax) (fun _ => True)

theorem setNext_size (q : Priqueue α) (item next : Option Nat) :
    Ends (fun q' => q'.size = q.size) (fun _ => True) (q.setNext item next) := by
  cases found : q.node item <;> simp [Priqueue.setNext, found]

theorem setPrev_size (q : Priqueue α) (item prev : Option Nat) :
    Ends (fun q' => q'.size = q.size) (fun _ => True) (q.setPrev item prev) := by
  cases found : q.node item <;> simp [Priqueue.setPrev, found]

theorem sizeUp_canGrow (q : Priqueue α) {β : Type u} (next : Priqueue α → Except Failure β) :
    CanGrow q (q.sizeUp >>= next) := by
  unfold Priqueue.sizeUp
  split
  · rename_i fits
    exact (Ends.trivial _).mono (fun _ _ _ => fits) fun _ _ => True.intro
  · exact True.intro

theorem offerLast_canGrow (newItem : Option Nat) (index : Int) (q : Priqueue α) :
    CanGrow q (offerLast newItem index q) := by
  refine (setPrev_size q newItem q.tail).bind fun q₁ same₁ => ?_
  refine (setNext_size q₁ q₁.tail newItem).bind fun q₂ same₂ => ?_
  rw [← same₁, ← same₂]
  exact sizeUp_canGrow { q₂ with tail := newItem } _

theorem offerBefore_canGrow (newItem currItem : Option Nat) (index : Int) (q : Priqueue α) :
    CanGrow q (offerBefore newItem currItem index q) := by
  refine (Ends.trivial (q.node currItem)).bind fun curr _ => ?_
  split
  · refine (setNext_size q newItem currItem).bind fun q₁ same₁ => ?_
    refine (setPrev_size q₁ currItem newItem).bind fun q₂ same₂ => ?_
    rw [← same₁, ← same₂]
    exact sizeUp_canGrow { q₂ with top := newItem } _
  · refine (setPrev_size q newItem curr.prev).bind fun q₁ same₁ => ?_
    refine (setNext_size q₁ curr.prev newItem).bind fun q₂ same₂ => ?_
    refine (setPrev_size q₂ currItem newItem).bind fun q₃ same₃ => ?_
    refine (setNext_size q₃ newItem currItem).bind fun q₄ same₄ => ?_
    rw [← same₁, ← same₂, ← same₃, ← same₄]
    exact sizeUp_canGrow q₄ _

theorem offerLoop_canGrow (newItem : Option Nat) (ptr : α) (fuel : Nat) (currItem : Option Nat)
    (index : Int) (q : Priqueue α) : CanGrow q (offerLoop newItem ptr fuel currItem index q) := by
  induction fuel generalizing currItem index with
  | zero => exact True.intro
  | succ fuel ih =>
      unfold offerLoop
      split
      · exact offerLast_canGrow newItem index q
      · refine (Ends.trivial (q.node currItem)).bind fun curr _ => ?_
        split
        · exact offerBefore_canGrow newItem currItem index q
        · exact ih curr.next (index + 1)

/-- `priqueue_offer` returns only with memory for the node and a size that can grow. -/
theorem priqueueOffer_returns {memory : Bool} {ptr : α} {q q' : Priqueue α} {index : Int}
    (returns : priqueueOffer memory ptr q = .ok (index, q')) :
    memory = true ∧ q.size < intMax := by
  cases memory with
  | false => cases returns
  | true =>
      have grows : CanGrow q (priqueueOffer true ptr q) := by
        simp only [priqueueOffer, Priqueue.newItem, if_true, ok_bind]
        split
        · exact sizeUp_canGrow (q := { q with
            top := some q.nodes.length, tail := some q.nodes.length,
            nodes := q.nodes ++ [⟨ptr, none, none⟩] }) _
        · exact offerLoop_canGrow _ ptr _ _ 0 { q with nodes := q.nodes ++ [⟨ptr, none, none⟩] }
      exact ⟨rfl, grows.of_ok returns⟩

/-! ## Calls -/

theorem priqueueOffer_intact_iff (linked : WellLinked q entries last) (memory : Bool) (ptr : α) :
    (∃ r, priqueueOffer memory ptr q = .ok r ∧ Intact r.2) ↔
      memory = true ∧ q.size < intMax := by
  constructor
  · rintro ⟨⟨index, q'⟩, returns, -⟩
    exact priqueueOffer_returns returns
  · rintro ⟨rfl, fits⟩
    rcases priqueueOffer_spec linked fits ptr with ⟨q', last', runs, -, linked'⟩
    exact ⟨_, runs, _, last', linked'⟩

theorem priqueueRemove_intact_iff (linked : WellLinked q entries last)
    (intAt : α → Except Failure Int) (ptr : α) :
    (∃ r, priqueueRemove intAt ptr q = .ok r ∧ Intact r.2) ↔
      ∀ data ∈ q.elements, ∃ number sought, intAt data = .ok number ∧ intAt ptr = .ok sought := by
  rw [linked.elements, List.forall_mem_map]
  constructor
  · rintro ⟨r, returns, -⟩
    exact removeLoop_reads linked.passed returns
  · intro reads
    rcases priqueueRemove_spec linked reads with ⟨q', last', runs, -, linked'⟩
    exact ⟨_, runs, _, last', linked'⟩

theorem priqueuePoll_intact_iff (linked : WellLinked q entries last) :
    (∃ r, priqueuePoll q = .ok r ∧ Intact r.2) ↔ q.size ≠ 1 := by
  have size := linked.size
  rcases entries with _ | ⟨⟨a, x⟩, _ | ⟨⟨c, y⟩, entries⟩⟩
  · have sound : q.size ≠ 1 := by simp [size]
    exact iff_of_true ⟨_, priqueuePoll_empty linked, _, last, linked⟩ sound
  · simp [priqueuePoll_single linked, size]
  · rcases priqueuePoll_several linked with ⟨q', runs, -, linked'⟩
    have sound : q.size ≠ 1 := by
      rw [size]
      simp
      omega
    exact iff_of_true ⟨_, runs, _, last, linked'⟩ sound

/-- An index below the size splits the entries. -/
theorem exists_entry_at {index : Nat} (inside : index < entries.length) :
    ∃ before entry after, entries = before ++ entry :: after ∧ before.length = index :=
  ⟨entries.take index, entries[index], entries.drop (index + 1), by simp, by simp; omega⟩

theorem priqueueRemoveAt_intact_iff (linked : WellLinked q entries last) (index : Int) :
    (∃ r, priqueueRemoveAt index q = .ok r ∧ Intact r.2) ↔
      ¬ (1 < q.size ∧ index + 1 = q.size) := by
  have size := linked.size
  by_cases outside : index < 0 ∨ index ≥ q.size
  · have sound : ¬ (1 < q.size ∧ index + 1 = q.size) := by omega
    exact iff_of_true ⟨_, if_pos outside, _, last, linked⟩ sound
  · rw [not_or, not_lt, ge_iff_le, not_le] at outside
    rcases outside with ⟨nonneg, below⟩
    lift index to Nat using nonneg
    rcases exists_entry_at (by omega : index < entries.length) with
      ⟨before, ⟨a, x⟩, after, rfl, rfl⟩
    rw [List.length_append, List.length_cons] at size
    by_cases sound : before = [] ∨ after ≠ []
    · rcases priqueueRemoveAt_spec linked sound with ⟨q', last', runs, -, linked'⟩
      refine iff_of_true ⟨_, runs, _, last', linked'⟩ ?_
      rintro ⟨several, atEnd⟩
      rcases sound with rfl | rest
      · simp at size atEnd
        omega
      · have := List.length_pos_iff.mpr rest
        omega
    · rw [not_or, not_ne_iff] at sound
      rcases sound with ⟨several, rfl⟩
      have positive := List.length_pos_iff.mpr several
      have unsound : 1 < q.size ∧ (before.length : Int) + 1 = q.size := by
        simp at size
        omega
      rcases priqueueRemoveAt_last linked several with ⟨q', runs, ruined⟩
      refine iff_of_false ?_ (not_not.mpr unsound)
      rintro ⟨r, runs', intact⟩
      rw [runs] at runs'
      cases runs'
      exact ruined intact

/-! ## Runs -/

/-- What a call answers has no part in whether it leaves an intact queue. -/
theorem exists_answer_iff {R : Type u} (result : Except Failure R)
    (wrap : R → Answer α × Priqueue α) :
    (∃ answer q', (result >>= fun r => .ok (wrap r)) = .ok (answer, q') ∧ Intact q') ↔
      ∃ r, result = .ok r ∧ Intact (wrap r).2 := by
  cases result with
  | error failure => simp
  | ok r => simp [Prod.ext_iff]

/-- What a call does to an intact queue. -/
theorem exec_intact_iff (intAt : α → Except Failure Int) (op : Op α) (q : Priqueue α)
    (intact : Intact q) (existing : op.Existing q) :
    (∃ answer q', exec intAt op q = .ok (answer, q') ∧ Intact q') ↔ op.Sound intAt q := by
  rcases id intact with ⟨entries, last, linked⟩
  cases op with
  | offer memory ptr =>
      exact (exists_answer_iff _ _).trans (priqueueOffer_intact_iff linked memory ptr)
  | peek => simp [exec, priqueuePeek_spec linked, Op.Sound, intact]
  | poll => exact (exists_answer_iff _ _).trans (priqueuePoll_intact_iff linked)
  | elementAt index =>
      rcases existing with ⟨nonneg, below⟩
      lift index to Nat using id nonneg
      have size := linked.size
      have inside : index < entries.length := by omega
      have runs := priqueueAt_eq linked index
      rw [if_pos ⟨nonneg, below.le⟩, Int.toNat_natCast, List.getElem?_eq_getElem inside] at runs
      simp [exec, runs, Op.Sound, intact]
  | remove ptr =>
      exact (exists_answer_iff _ _).trans (priqueueRemove_intact_iff linked intAt ptr)
  | removeAt index =>
      exact (exists_answer_iff _ _).trans (priqueueRemoveAt_intact_iff linked index)
  | size => exact iff_of_true ⟨_, q, rfl, intact⟩ True.intro

/-- After every call of a run the queue is intact exactly when each call is one that
the library handles: an insertion has memory and room to count, polling does not take
the only element, an `int` can be read wherever removing a pointer looks for one, and no
index removes the last of several. -/
theorem intact_throughout_iff (comparer : α → α → Int) (intAt : α → Except Failure Int)
    (ops : List (Op α)) (existing : Along (exec intAt) Op.Existing ops (priqueueInit comparer)) :
    Throughout (exec intAt) Intact ops (priqueueInit comparer) ↔
      Along (exec intAt) (Op.Sound intAt) ops (priqueueInit comparer) :=
  throughout_iff_along (exec_intact_iff intAt) ⟨[], none, wellLinked_init comparer⟩ existing

/-- For a run like that of `queuetest.c`. -/
theorem intact_throughout_iff_queuetest :
    Throughout (exec .ok) Intact [.offer true 12, .offer true 13, .elementAt 1, .remove 12, .size]
        (priqueueInit fun a b : Int => a - b) ↔
      Along (exec .ok) (Op.Sound .ok)
        [.offer true 12, .offer true 13, .elementAt 1, .remove 12, .size]
        (priqueueInit fun a b : Int => a - b) := by
  refine intact_throughout_iff _ .ok _ ?_
  refine Along.next rfl True.intro (Along.next rfl True.intro ?_)
  refine Along.next rfl ⟨by decide, by decide⟩ (Along.next rfl True.intro ?_)
  exact Along.next rfl True.intro True.intro

/-- Removing the second of two elements by its index leaves `tail` at the removed node. -/
theorem intact_throughout_fails :
    Along (exec .ok) Op.Existing [.offer true 12, .offer true 13, .removeAt 1]
        (priqueueInit fun a b : Int => a - b) ∧
      ¬ Throughout (exec .ok) Intact [.offer true 12, .offer true 13, .removeAt 1]
        (priqueueInit fun a b : Int => a - b) := by
  constructor
  · refine Along.next rfl True.intro (Along.next rfl True.intro ?_)
    exact Along.next rfl True.intro True.intro
  · rintro ⟨_, q₁, first, -, _, q₂, second, intact, _, q₃, third, intact', -⟩
    cases first
    cases second
    exact (exec_intact_iff .ok (.removeAt 1) _ intact True.intro).mp ⟨_, q₃, third, intact'⟩
      ⟨by decide, by decide⟩

end QuashLabs.PriorityQueue
