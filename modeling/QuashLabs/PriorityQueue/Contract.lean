import Mathlib.Data.List.TakeWhile
import QuashLabs.PriorityQueue.Drain

/-!
# What the library documents

The contracts of three functions of `libpriqueue` on a well-linked queue. An offer
keeps a sorted queue sorted whenever there is memory and the size can be counted;
`priqueue_at` answers for every position except the one behind the last element; and
`priqueue_remove`, which compares numbers instead of pointers, removes the instances of
a pointer only when no other element points at the same number.
-/

namespace QuashLabs.PriorityQueue

open QuashLabs.Linked QuashLabs.Checked

universe u

variable {α : Type u} {q : Priqueue α} {entries : List (Nat × α)} {last : Option Nat}

theorem wellLinked_single (comparer : α → α → Int) (x : α) :
    WellLinked ⟨comparer, some 0, some 0, 1, [⟨x, none, none⟩]⟩ [(0, x)] (some 0) where
  chain := ⟨rfl, none, rfl, rfl, rfl⟩
  size := rfl
  tail := fun _ => rfl

/-- A queue of four elements, offered in their order. -/
def fourItems (comparer : α → α → Int) (w x y z : α) : Priqueue α where
  comparer := comparer
  top := some 0
  tail := some 3
  size := 4
  nodes := [⟨w, some 1, none⟩, ⟨x, some 2, some 0⟩, ⟨y, some 3, some 1⟩, ⟨z, none, some 2⟩]

theorem wellLinked_fourItems (comparer : α → α → Int) (w x y z : α) :
    WellLinked (fourItems comparer w x y z) [(0, w), (1, x), (2, y), (3, z)] (some 3) where
  chain := ⟨rfl, some 1, rfl, rfl, some 2, rfl, rfl, some 3, rfl, rfl, none, rfl, rfl, rfl⟩
  size := rfl
  tail := fun _ => rfl

/-! ## `priqueue_offer` -/

/-- Earlier entries are at most later ones. -/
def SortedBy (comparer : α → α → Int) (entries : List (Nat × α)) : Prop :=
  entries.Pairwise fun earlier later => comparer earlier.2 later.2 ≤ 0

/-- An offer splits the entries into those that are at most the new element and the
others, puts one node for it between them and returns its position. -/
def Inserts (memory : Bool) (ptr : α) (q : Priqueue α) (entries : List (Nat × α)) : Prop :=
  ∃ before after q' last', entries = before ++ after ∧
    (∀ entry ∈ before, 0 ≤ q.comparer ptr entry.2) ∧
    (∀ entry ∈ after, q.comparer ptr entry.2 < 0) ∧
    priqueueOffer memory ptr q = .ok (before.length, q') ∧
    q'.comparer = q.comparer ∧ q'.size = q.size + 1 ∧
    WellLinked q' (before ++ (q.nodes.length, ptr) :: after) last' ∧
    SortedBy q.comparer (before ++ (q.nodes.length, ptr) :: after)

theorem TotalPreorder.le_of_not_lt {comparer : α → α → Int} (order : TotalPreorder comparer)
    {x y : α} (notBefore : 0 ≤ comparer x y) : comparer y x ≤ 0 := by
  have := order.opposite x y
  omega

theorem TotalPreorder.lt_of_lt_of_le {comparer : α → α → Int} (order : TotalPreorder comparer)
    {x y z : α} (less : comparer x y < 0) (atMost : comparer y z ≤ 0) : comparer x z < 0 := by
  by_contra notBefore
  have back := order.trans y z x atMost (order.le_of_not_lt (by omega))
  have := (order.opposite x y).mp less
  omega

/-- In a sorted list the entries that a new one precedes are behind all the others. -/
theorem SortedBy.precedes_dropWhile {comparer : α → α → Int} (order : TotalPreorder comparer)
    {new : Nat × α} (sorted : SortedBy comparer entries) :
    ∀ entry ∈ entries.dropWhile (fun old => ¬ Precedes comparer new old),
      comparer new.2 entry.2 < 0 := by
  induction entries with
  | nil => simp
  | cons first entries ih =>
      rcases List.pairwise_cons.mp sorted with ⟨atMost, sorted⟩
      by_cases precedes : Precedes comparer new first
      · rw [List.dropWhile_cons_of_neg (by simpa using precedes), List.forall_mem_cons]
        exact ⟨precedes, fun entry member => order.lt_of_lt_of_le precedes (atMost entry member)⟩
      · rw [List.dropWhile_cons_of_pos (by simpa using precedes)]
        exact ih sorted

/-- A new entry between those that are at most it and those that it precedes leaves the
list sorted. -/
theorem SortedBy.insert {comparer : α → α → Int} (order : TotalPreorder comparer)
    {before after : List (Nat × α)} {new : Nat × α} (sorted : SortedBy comparer (before ++ after))
    (atMost : ∀ entry ∈ before, 0 ≤ comparer new.2 entry.2)
    (less : ∀ entry ∈ after, comparer new.2 entry.2 < 0) :
    SortedBy comparer (before ++ new :: after) := by
  rcases List.pairwise_append.mp sorted with ⟨front, back, across⟩
  refine List.pairwise_append.mpr ⟨front, List.pairwise_cons.mpr ⟨?_, back⟩, ?_⟩
  · exact fun entry member => (less entry member).le
  · intro earlier inFront
    rw [List.forall_mem_cons]
    exact ⟨order.le_of_not_lt (atMost earlier inFront), across earlier inFront⟩

/-- An offer inserts into a sorted queue exactly when there is memory for the node and
the size can be counted. -/
theorem priqueueOffer_inserts_iff (order : TotalPreorder q.comparer)
    (linked : WellLinked q entries last) (sorted : SortedBy q.comparer entries) (memory : Bool)
    (ptr : α) : Inserts memory ptr q entries ↔ memory = true ∧ q.size < intMax := by
  constructor
  · rintro ⟨before, after, q', last', -, -, -, returns, -⟩
    exact priqueueOffer_returns returns
  · rintro ⟨rfl, fits⟩
    rcases priqueueOffer_spec linked fits ptr with ⟨q', last', runs, comparer, linked'⟩
    let passes : Nat × α → Bool := fun old => ¬ Precedes q.comparer (q.nodes.length, ptr) old
    have split : entries = entries.takeWhile passes ++ entries.dropWhile passes :=
      List.takeWhile_append_dropWhile.symm
    have atMost : ∀ entry ∈ entries.takeWhile passes, 0 ≤ q.comparer ptr entry.2 := by
      intro entry member
      have passed := List.mem_takeWhile_imp member
      simpa [passes, Precedes] using passed
    have less : ∀ entry ∈ entries.dropWhile passes, q.comparer ptr entry.2 < 0 :=
      sorted.precedes_dropWhile order
    have size : q'.size = q.size + 1 := by
      rw [linked'.size, linked.size, List.orderedInsert_length]
      simp
    rw [List.orderedInsert_eq_take_drop] at linked'
    refine ⟨_, _, q', last', split, atMost, less, runs, comparer, size, linked', ?_⟩
    rw [split] at sorted
    exact sorted.insert order atMost less

/-- For a number that is equal to two in the middle of the queue. -/
theorem priqueueOffer_inserts_iff_equal :
    Inserts true 5 (fourItems (fun a b : Int => a - b) 3 5 5 8) [(0, 3), (1, 5), (2, 5), (3, 8)] ↔
      true = true ∧ 4 < intMax := by
  refine priqueueOffer_inserts_iff ⟨fun x y => ?_, fun x y z _ _ => ?_⟩
    (wellLinked_fourItems _ 3 5 5 8) ?_ true 5
  · dsimp only [fourItems]
    omega
  · dsimp only [fourItems] at *
    omega
  · simp [SortedBy, fourItems]

/-- Without memory the new node is the null pointer. -/
theorem priqueueOffer_inserts_fails :
    TotalPreorder (fun a b : Int => a - b) ∧
      WellLinked (priqueueInit fun a b : Int => a - b) [] none ∧
      ¬ Inserts false 5 (priqueueInit fun a b : Int => a - b) [] := by
  refine ⟨⟨fun x y => by omega, fun x y z _ _ => by omega⟩, wellLinked_init _, ?_⟩
  rintro ⟨before, after, q', last', -, -, -, returns, -⟩
  cases returns

/-! ## `priqueue_at` -/

/-- The element at a position counted from the first, if there is one. -/
def elementAt (entries : List (Nat × α)) (index : Int) : Option α :=
  if 0 ≤ index then entries[index.toNat]?.map Prod.snd else none

/-- `priqueue_at` returns the element at the position, or the null pointer where there is
none, for every position but the one behind the last element. -/
theorem priqueueAt_returns_iff (linked : WellLinked q entries last)
    (intAt : α → Except Failure Int) (index : Int) :
    exec intAt (.elementAt index) q = .ok (.element (elementAt entries index), q) ↔
      index ≠ q.size := by
  have size := linked.size
  simp only [exec, priqueueAt_eq linked, elementAt]
  by_cases nonneg : 0 ≤ index
  · rw [if_pos nonneg]
    by_cases inside : index < q.size
    · have found := List.getElem?_eq_getElem (l := entries) (i := index.toNat) (by omega)
      rw [if_pos ⟨nonneg, inside.le⟩, found]
      simpa using inside.ne
    · have missing : entries[index.toNat]? = none := List.getElem?_eq_none (by omega)
      rw [missing]
      by_cases behind : index = q.size
      · rw [if_pos ⟨nonneg, behind.le⟩]
        simp [behind]
      · rw [if_neg (by omega)]
        simp [behind]
  · rw [if_neg nonneg, if_neg (by omega)]
    have negative : index ≠ q.size := by omega
    simp [negative]

/-- For the third of four elements. -/
theorem priqueueAt_returns_iff_third :
    exec .ok (.elementAt 2) (fourItems (fun a b : Int => a - b) 3 5 7 8) =
        .ok (.element (elementAt [(0, 3), (1, 5), (2, 7), (3, 8)] 2),
          fourItems (fun a b : Int => a - b) 3 5 7 8) ↔
      (2 : Int) ≠ 4 :=
  priqueueAt_returns_iff (wellLinked_fourItems _ 3 5 7 8) .ok 2

/-- The first element of an empty queue is looked for behind the null pointer. -/
theorem priqueueAt_returns_fails :
    WellLinked (priqueueInit fun a b : Int => a - b) [] none ∧
      exec .ok (.elementAt 0) (priqueueInit fun a b : Int => a - b) ≠
        .ok (.element (elementAt [] 0), priqueueInit fun a b : Int => a - b) := by
  refine ⟨wellLinked_init _, fun returns => ?_⟩
  cases returns

/-! ## `priqueue_remove` -/

/-- `priqueue_remove` removes the entries with the pointer and no others, and counts them. -/
def Removes [DecidableEq α] (intAt : α → Except Failure Int) (ptr : α) (q : Priqueue α)
    (entries : List (Nat × α)) : Prop :=
  ∃ q' last', priqueueRemove intAt ptr q =
      .ok ((entries.countP fun entry => entry.2 = ptr : Nat), q') ∧
    q'.comparer = q.comparer ∧
    q'.size = q.size - (entries.countP fun entry => entry.2 = ptr : Nat) ∧
    WellLinked q' (entries.filter fun entry => entry.2 ≠ ptr) last'

/-- Each comparison of `priqueue_remove` reads two numbers, which are equal for the same
pointer only. -/
def Distinguished (intAt : α → Except Failure Int) (ptr : α) (entry : Nat × α) : Prop :=
  ∃ number sought, intAt entry.2 = .ok number ∧ intAt ptr = .ok sought ∧
    (number = sought → entry.2 = ptr)

/-- `priqueue_remove` removes the instances of a pointer exactly when it can read a number
at the pointer and at each element, and no other element has the number of the pointer. -/
theorem priqueueRemove_removes_iff [DecidableEq α] (linked : WellLinked q entries last)
    (intAt : α → Except Failure Int) (ptr : α) :
    Removes intAt ptr q entries ↔ ∀ entry ∈ entries, Distinguished intAt ptr entry := by
  constructor
  · rintro ⟨q', last', returns, -, -, linked'⟩ entry member
    have reads := removeLoop_reads linked.passed returns
    rcases priqueueRemove_spec linked reads with ⟨q'', last'', runs, -, linked''⟩
    have ends : q'' = q' := by
      rw [runs] at returns
      exact (Prod.mk.inj (Except.ok.inj returns)).2
    rw [ends] at linked''
    have kept := linked''.chain.unique linked'.chain
    rcases reads entry member with ⟨number, sought, isNumber, isSought⟩
    refine ⟨number, sought, isNumber, isSought, fun equal => ?_⟩
    by_contra other
    have stays : entry ∈ entries.filter fun entry => entry.2 ≠ ptr := by
      simp [member, other]
    rw [kept] at stays
    simp [isNumber, isSought, equal] at stays
  · intro distinguished
    have reads : ∀ entry ∈ entries, Compared intAt ptr entry := by
      intro entry member
      rcases distinguished entry member with ⟨number, sought, isNumber, isSought, -⟩
      exact ⟨number, sought, isNumber, isSought⟩
    have same : ∀ entry ∈ entries, intAt entry.2 = intAt ptr ↔ entry.2 = ptr := by
      intro entry member
      rcases distinguished entry member with ⟨number, sought, isNumber, isSought, only⟩
      refine ⟨fun equal => only ?_, fun equal => by rw [equal]⟩
      rwa [isNumber, isSought, Except.ok.injEq] at equal
    rcases priqueueRemove_spec linked reads with ⟨q', last', runs, comparer, linked'⟩
    have counts : (entries.countP fun entry => intAt entry.2 = intAt ptr) =
        entries.countP fun entry => entry.2 = ptr :=
      List.countP_congr fun entry member => by simpa using same entry member
    have keeps : (entries.filter fun entry => intAt entry.2 ≠ intAt ptr) =
        entries.filter fun entry => entry.2 ≠ ptr :=
      List.filter_congr fun entry member => by simp [same entry member]
    rw [counts] at runs
    rw [keeps] at linked'
    refine ⟨q', last', runs, comparer, ?_, linked'⟩
    have total := List.length_eq_countP_add_countP (l := entries) fun entry => entry.2 = ptr
    rw [linked'.size, linked.size, ← List.countP_eq_length_filter]
    simp at total ⊢
    omega

/-- The memory of two numbers; a pointer is a position. -/
def twoNumbers (ptr : Nat) : Except Failure Int :=
  match ptr with
  | 0 => .ok 7
  | 1 => .ok 8
  | _ => .error .wildPointer

/-- For a pointer that is the first element and the last two. -/
theorem priqueueRemove_removes_iff_ends :
    Removes twoNumbers 0 (fourItems (fun a b => (a : Int) - b) 0 1 0 0)
        [(0, 0), (1, 1), (2, 0), (3, 0)] ↔
      ∀ entry ∈ [(0, 0), (1, 1), (2, 0), (3, 0)], Distinguished twoNumbers 0 entry :=
  priqueueRemove_removes_iff (wellLinked_fourItems _ 0 1 0 0) twoNumbers 0

/-- A pointer that is not in the queue removes another one to an equal number. -/
theorem priqueueRemove_removes_fails :
    WellLinked ⟨fun a b : Nat => (a : Int) - b, some 0, some 0, 1, [⟨0, none, none⟩]⟩
        [(0, 0)] (some 0) ∧
      ¬ Removes (fun ptr => .ok (([7, 7] : List Int)[ptr]?.getD 0)) 1
        ⟨fun a b : Nat => (a : Int) - b, some 0, some 0, 1, [⟨0, none, none⟩]⟩ [(0, 0)] := by
  refine ⟨wellLinked_single _ 0, ?_⟩
  rintro ⟨q', last', returns, -⟩
  cases returns

end QuashLabs.PriorityQueue
