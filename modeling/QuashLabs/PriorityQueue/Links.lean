import Mathlib.Data.List.Sort
import QuashLabs.PriorityQueue.Core

/-!
# The links of a priority queue

A queue is well linked when it holds a list: from `top` the `next` pointers visit the
nodes of the list, `prev` leads back, `tail` is the last of them and `size` counts
them. Each function of the library is described on the list, as long as it returns;
the two defects are what `priqueue_poll` does with the only element and what
`priqueue_remove_at` does with the last of several.
-/

namespace QuashLabs.PriorityQueue

open QuashLabs.Linked QuashLabs.Checked

universe u

variable {α : Type u} {q : Priqueue α} {entries before after : List (Nat × α)}
variable {last p next : Option Nat} {a c : Nat} {x y ptr : α}

/-- The queue holds the entries and ends at the node `last`. -/
structure WellLinked (q : Priqueue α) (entries : List (Nat × α)) (last : Option Nat) : Prop where
  chain : Segment q.nodes none q.top entries last none
  size : q.size = entries.length
  tail : q.top ≠ none → q.tail = last

/-- From `top`, `next` visits exactly `size` nodes, `prev` leads back along them, the
first has no predecessor, and the last is `tail` unless there is none. -/
def Intact (q : Priqueue α) : Prop := ∃ entries last, WellLinked q entries last

theorem wellLinked_init (comparer : α → α → Int) : WellLinked (priqueueInit comparer) [] none where
  chain := ⟨rfl, rfl⟩
  size := rfl
  tail := fun nonempty => absurd rfl nonempty

/-! ## Following pointers -/

namespace Priqueue

@[simp]
theorem node_none (q : Priqueue α) : q.node none = .error .nullDereference := rfl

theorem node_eq {node : Node α} (stored : q.nodes[a]? = some node) :
    q.node (some a) = .ok node := by
  simp [Priqueue.node, stored]

theorem setNext_eq (inside : a < q.nodes.length) :
    q.setNext (some a) next = .ok { q with nodes := q.nodes.linkNext (some a) next } := by
  simp [setNext, node_eq (List.getElem?_eq_getElem inside)]

theorem setPrev_eq (inside : a < q.nodes.length) :
    q.setPrev (some a) p = .ok { q with nodes := q.nodes.linkPrev (some a) p } := by
  simp [setPrev, node_eq (List.getElem?_eq_getElem inside)]

theorem sizeUp_eq (fits : q.size < intMax) :
    q.sizeUp = .ok { q with size := q.size + 1 } := if_pos fits

end Priqueue

open Priqueue

/-! ## `priqueue_offer` -/

/-- The insertion before an item puts the new node between it and its predecessor. -/
theorem offerBefore_spec (front : Segment q.nodes none q.top before p (some c))
    (back : Segment q.nodes p (some c) ((c, y) :: after) last none)
    (stored : q.nodes[a]? = some ⟨ptr, none, none⟩)
    (fresh : a ∉ (before ++ (c, y) :: after).map Prod.fst) (tail : q.tail = last)
    (size : q.size = (before ++ (c, y) :: after).length) (fits : q.size < intMax)
    (index : Int) :
    ∃ q', offerBefore (some a) (some c) index q = .ok (index, q') ∧
      q'.comparer = q.comparer ∧ WellLinked q' (before ++ (a, ptr) :: (c, y) :: after) last := by
  have apart := (Segment.append.mpr ⟨p, some c, front, back⟩).nodup
  rcases id back with ⟨-, following, atItem, -⟩
  have current : c ≠ a := fun same => fresh (by simp [same])
  have newInside : a < q.nodes.length := (List.getElem?_eq_some_iff.mp stored).1
  have currInside : c < q.nodes.length := (List.getElem?_eq_some_iff.mp atItem).1
  have counted : q.size + 1 = ((before ++ (a, ptr) :: (c, y) :: after).length : Int) := by
    rw [size]
    simp
    omega
  cases p with
  | none =>
      have placed : ((q.nodes.linkNext (some a) (some c)).linkPrev (some c) (some a))[a]? =
          some ⟨ptr, some c, none⟩ := by
        simp [Store.getElem?_linkNext, Store.getElem?_linkPrev, stored, current]
      have links := Segment.insert front back apart fresh placed fun b other => by
        simp [Store.getElem?_linkNext, Store.getElem?_linkPrev, Ne.symm other]
      refine ⟨{ q with
        top := some a, size := q.size + 1,
        nodes := (q.nodes.linkNext (some a) (some c)).linkPrev (some c) (some a) },
        ?_, rfl, by simpa using links, counted, fun _ => tail⟩
      simp [offerBefore, node_eq atItem, setNext_eq, setPrev_eq, newInside, currInside,
        sizeUp_eq, fits]
  | some b =>
      have predecessor := front.last_mem rfl
      have predInside := front.lt_length b predecessor
      have distinct : b ≠ a := by
        rintro rfl
        exact fresh (by simp [predecessor])
      have placed : ((((q.nodes.linkPrev (some a) (some b)).linkNext (some b) (some a)).linkPrev
          (some c) (some a)).linkNext (some a) (some c))[a]? = some ⟨ptr, some c, some b⟩ := by
        simp [Store.getElem?_linkNext, Store.getElem?_linkPrev, stored, current, distinct]
      have links := Segment.insert front back apart fresh placed fun d other => by
        simp [Store.getElem?_linkNext, Store.getElem?_linkPrev, Ne.symm other]
      refine ⟨{ q with
        size := q.size + 1,
        nodes := (((q.nodes.linkPrev (some a) (some b)).linkNext (some b) (some a)).linkPrev
          (some c) (some a)).linkNext (some a) (some c) },
        ?_, rfl, by simpa using links, counted, fun _ => tail⟩
      simp [offerBefore, node_eq atItem, setNext_eq, setPrev_eq, newInside, currInside,
        predInside, sizeUp_eq, fits]

/-- The insertion at the end puts the new node behind `tail`. -/
theorem offerLast_spec (front : Segment q.nodes none q.top before p none)
    (nonempty : q.top ≠ none) (stored : q.nodes[a]? = some ⟨ptr, none, none⟩)
    (fresh : a ∉ before.map Prod.fst) (tail : q.tail = p) (size : q.size = before.length)
    (fits : q.size < intMax) (index : Int) :
    ∃ q', offerLast (some a) index q = .ok (index, q') ∧ q'.comparer = q.comparer ∧
      WellLinked q' (before ++ [(a, ptr)]) (some a) := by
  have newInside : a < q.nodes.length := (List.getElem?_eq_some_iff.mp stored).1
  have counted : q.size + 1 = ((before ++ [(a, ptr)]).length : Int) := by
    rw [size]
    simp
  cases p with
  | none => exact absurd (front.first_eq rfl) nonempty
  | some b =>
      have predecessor := front.last_mem rfl
      have predInside := front.lt_length b predecessor
      have distinct : b ≠ a := by
        rintro rfl
        exact fresh predecessor
      have placed : ((q.nodes.linkPrev (some a) (some b)).linkNext (some b) (some a))[a]? =
          some ⟨ptr, none, some b⟩ := by
        simp [Store.getElem?_linkNext, Store.getElem?_linkPrev, stored, distinct]
      have ending : Segment q.nodes (some b) none [] (some b) none := Segment.nil.mpr ⟨rfl, rfl⟩
      have links := Segment.insert front ending (by simpa using front.nodup)
        (by simpa using fresh) placed fun d other => by
          simp [Store.getElem?_linkNext, Store.getElem?_linkPrev, Ne.symm other]
      refine ⟨{ q with
        tail := some a, size := q.size + 1,
        nodes := (q.nodes.linkPrev (some a) (some b)).linkNext (some b) (some a) },
        ?_, rfl, by simpa using links, counted, fun _ => rfl⟩
      simp [offerLast, tail, setNext_eq, setPrev_eq, newInside, predInside, sizeUp_eq, fits]

/-- The priority of the new entry is higher than that of the old one. -/
def Precedes (comparer : α → α → Int) (new old : Nat × α) : Prop := comparer new.2 old.2 < 0

instance (comparer : α → α → Int) : DecidableRel (Precedes comparer) :=
  fun new old => inferInstanceAs (Decidable (comparer new.2 old.2 < 0))

/-- The loop of `priqueue_offer` passes the entries that the new one does not precede. -/
theorem offerLoop_spec {fuel : Nat} {currItem : Option Nat}
    (front : Segment q.nodes none q.top before p currItem)
    (back : Segment q.nodes p currItem after last none) (nonempty : q.top ≠ none)
    (stored : q.nodes[a]? = some ⟨ptr, none, none⟩)
    (fresh : a ∉ (before ++ after).map Prod.fst) (tail : q.tail = last)
    (size : q.size = (before ++ after).length) (fits : q.size < intMax)
    (enough : after.length < fuel) :
    ∃ q' last', offerLoop (some a) ptr fuel currItem before.length q =
        .ok ((before.length + (after.takeWhile
          fun old => ¬ Precedes q.comparer (a, ptr) old).length : Nat), q') ∧
      q'.comparer = q.comparer ∧
      WellLinked q' (before ++ after.orderedInsert (Precedes q.comparer) (a, ptr)) last' := by
  induction fuel generalizing before after p currItem with
  | zero => exact absurd enough (Nat.not_lt_zero _)
  | succ fuel ih =>
      cases after with
      | nil =>
          rcases back with ⟨rfl, rfl⟩
          rw [List.append_nil] at fresh size
          rcases offerLast_spec front nonempty stored fresh tail size fits before.length with
            ⟨q', runs, comparer, links⟩
          exact ⟨q', some a, by simpa [offerLoop] using runs, comparer, links⟩
      | cons entry after =>
          rcases entry with ⟨c, y⟩
          obtain rfl : currItem = some c := back.1
          rcases id back with ⟨-, following, atItem, rest⟩
          by_cases precedes : q.comparer ptr y < 0
          · have first : Precedes q.comparer (a, ptr) (c, y) := precedes
            rcases offerBefore_spec front back stored fresh tail size fits before.length with
              ⟨q', runs, comparer, links⟩
            refine ⟨q', last, ?_, comparer, ?_⟩
            · simpa [offerLoop, node_eq atItem, precedes, first] using runs
            · simpa [first] using links
          · have later : ¬ Precedes q.comparer (a, ptr) (c, y) := precedes
            have passed : Segment q.nodes none q.top (before ++ [(c, y)]) (some c) following :=
              Segment.append.mpr ⟨p, some c, front, rfl, following, atItem, rfl, rfl⟩
            rcases ih passed rest (by simpa using fresh) (by simpa using size)
              (by simpa using enough) with ⟨q', last', runs, comparer, links⟩
            refine ⟨q', last', ?_, comparer, ?_⟩
            · rw [List.length_append] at runs
              simp only [offerLoop, reduceCtorEq, if_false, node_eq atItem, ok_bind, precedes]
              rw [List.takeWhile_cons_of_pos (by simpa using later)]
              simpa [Int.add_assoc, Int.add_comm 1] using runs
            · simpa [later] using links

/-- `priqueue_offer` inserts behind the entries that the new one does not precede. -/
theorem priqueueOffer_spec (linked : WellLinked q entries last) (fits : q.size < intMax)
    (ptr : α) :
    ∃ q' last', priqueueOffer true ptr q =
        .ok (((entries.takeWhile
          fun old => ¬ Precedes q.comparer (q.nodes.length, ptr) old).length : Nat), q') ∧
      q'.comparer = q.comparer ∧
      WellLinked q' (entries.orderedInsert (Precedes q.comparer) (q.nodes.length, ptr)) last' := by
  have kept : Segment (q.nodes ++ [⟨ptr, none, none⟩]) none q.top entries last none := by
    refine linked.chain.frame fun b member => ?_
    rw [List.getElem?_append_left (linked.chain.lt_length b member)]
  have fresh : q.nodes.length ∉ entries.map Prod.fst := fun member =>
    Nat.lt_irrefl _ (linked.chain.lt_length _ member)
  by_cases empty : q.top = none
  · obtain rfl := linked.chain.eq_nil empty
    refine ⟨{ q with
      top := some q.nodes.length, tail := some q.nodes.length, size := q.size + 1,
      nodes := q.nodes ++ [⟨ptr, none, none⟩] }, some q.nodes.length, ?_, rfl, ?_, ?_, ?_⟩
    · simp [priqueueOffer, newItem, empty, sizeUp_eq, fits]
    · exact ⟨rfl, none, by simp, rfl, rfl⟩
    · simp [linked.size]
    · exact fun _ => rfl
  · have front : Segment (q.nodes ++ [⟨ptr, none, none⟩]) none q.top [] none q.top :=
      Segment.nil.mpr ⟨rfl, rfl⟩
    have stored : (q.nodes ++ [⟨ptr, none, none⟩])[q.nodes.length]? = some ⟨ptr, none, none⟩ := by
      simp
    have enough : entries.length < q.nodes.length + 2 := by
      have := linked.chain.length_le
      omega
    have runs := offerLoop_spec (q := { q with nodes := q.nodes ++ [⟨ptr, none, none⟩] })
      front kept empty stored fresh (linked.tail empty) linked.size fits enough
    simpa [priqueueOffer, newItem, empty] using runs

/-! ## `priqueue_peek` and `priqueue_poll` -/

/-- `priqueue_peek` returns the first element. -/
theorem priqueuePeek_spec (linked : WellLinked q entries last) :
    priqueuePeek q = .ok (entries.head?.map Prod.snd) := by
  cases entries with
  | nil =>
      have empty : q.top = none := linked.chain.1
      simp [priqueuePeek, empty]
  | cons entry entries =>
      rcases linked.chain with ⟨atTop, following, stored, -⟩
      simp [priqueuePeek, atTop, node_eq stored]

/-- On an empty queue `priqueue_poll` returns the null pointer. -/
theorem priqueuePoll_empty (linked : WellLinked q [] last) : priqueuePoll q = .ok (none, q) := by
  have empty : q.top = none := linked.chain.1
  simp [priqueuePoll, empty]

/-- `priqueue_poll` does not survive the only element: it has no successor whose `prev`
could be set. -/
theorem priqueuePoll_single (linked : WellLinked q [(a, x)] last) :
    priqueuePoll q = .error .nullDereference := by
  rcases linked.chain with ⟨atTop, following, stored, rfl, -⟩
  simp [priqueuePoll, atTop, node_eq stored, setPrev]

/-- With several elements `priqueue_poll` takes the first. -/
theorem priqueuePoll_several (linked : WellLinked q ((a, x) :: (c, y) :: after) last) :
    ∃ q', priqueuePoll q = .ok (some x, q') ∧ q'.comparer = q.comparer ∧
      WellLinked q' ((c, y) :: after) last := by
  rcases linked.chain with ⟨atTop, following, stored, rest⟩
  obtain rfl : following = some c := rest.1
  have inside : c < q.nodes.length := rest.lt_length c (by simp)
  refine ⟨{ q with
    top := some c, size := q.size - 1, nodes := q.nodes.linkPrev (some c) none },
    ?_, rfl, by simpa using rest.linkPrev rest.nodup none, ?_, fun _ => ?_⟩
  · simp [priqueuePoll, atTop, node_eq stored, setPrev_eq, inside]
  · simp [linked.size]
  · exact linked.tail (by simp [atTop])

/-! ## `priqueue_at` -/

/-- The loop of `priqueue_at` follows as many pointers as there are items, so its last
round is behind the last of them. -/
theorem atLoop_eq {item : Option Nat} (rest : Segment q.nodes p item entries last none)
    (index topIndex : Int) :
    atLoop index q entries.length topIndex item =
      if topIndex < index ∧ index ≤ topIndex + entries.length then
        match entries[(index - topIndex).toNat]? with
        | some entry => .ok (some entry.2)
        | none => .error .nullDereference
      else .ok none := by
  induction entries generalizing p item topIndex with
  | nil =>
      have outside : ¬ (topIndex < index ∧ index ≤ topIndex + ([] : List (Nat × α)).length) := by
        simp
      rw [if_neg outside]
      rfl
  | cons first entries ih =>
      rcases rest with ⟨rfl, following, stored, rest⟩
      simp only [List.length_cons, atLoop, node_eq stored, ok_bind]
      by_cases here : topIndex + 1 = index
      · obtain rfl := here
        have inside : topIndex < topIndex + 1 ∧
            topIndex + 1 ≤ topIndex + (entries.length + 1 : Nat) := by omega
        have second : (topIndex + 1 - topIndex).toNat = 0 + 1 := by omega
        rw [if_pos rfl, if_pos inside, second, List.getElem?_cons_succ]
        cases entries with
        | nil =>
            obtain rfl : following = none := rest.1
            rfl
        | cons second entries =>
            rcases rest with ⟨rfl, following, stored', -⟩
            simp [node_eq stored']
      · rw [if_neg here, ih rest (topIndex + 1)]
        by_cases inside : topIndex < index ∧ index ≤ topIndex + (entries.length + 1 : Nat)
        · have later : topIndex + 1 < index ∧ index ≤ topIndex + 1 + entries.length := by omega
          have shifted : (index - topIndex).toNat = (index - (topIndex + 1)).toNat + 1 := by omega
          rw [if_pos inside, if_pos later, shifted, List.getElem?_cons_succ]
        · rw [if_neg inside, if_neg (by omega)]

/-- `priqueue_at` returns the element at a position and the null pointer at the others,
except that it dereferences the null pointer at the position behind the last item. -/
theorem priqueueAt_eq (linked : WellLinked q entries last) (index : Int) :
    priqueueAt index q =
      if 0 ≤ index ∧ index ≤ q.size then
        match entries[index.toNat]? with
        | some entry => .ok (some entry.2)
        | none => .error .nullDereference
      else .ok none := by
  simp only [priqueueAt, linked.size, Int.toNat_natCast, atLoop_eq linked.chain]
  by_cases atTop : index = 0
  · obtain rfl := atTop
    rw [if_pos rfl, if_pos (by omega)]
    cases entries with
    | nil =>
        have empty : q.top = none := linked.chain.1
        simp [empty]
    | cons first entries =>
        rcases linked.chain with ⟨atTop, following, stored, -⟩
        simp [atTop, node_eq stored]
  · have same : 0 < index ∧ index ≤ 0 + (entries.length : Int) ↔
        0 ≤ index ∧ index ≤ (entries.length : Int) := by omega
    rw [if_neg atTop, Int.sub_zero]
    simp only [same]

/-! ## `priqueue_remove` -/

/-- Taking out an item links its neighbours, and moves `top` and `tail` when it was
the first or the last. -/
theorem takeOut_spec (front : Segment q.nodes none q.top before p (some a))
    (back : Segment q.nodes p (some a) ((a, x) :: after) last none) (tail : q.tail = last) :
    ∃ next q' last', q.nodes[a]? = some ⟨x, next, p⟩ ∧ takeOut ⟨x, next, p⟩ q = .ok q' ∧
      q'.comparer = q.comparer ∧ q'.size = q.size ∧ q'.nodes[a]? = q.nodes[a]? ∧
      Segment q'.nodes none q'.top before p next ∧ Segment q'.nodes p next after last' none ∧
      (q'.top ≠ none → q'.tail = last') := by
  have apart := (Segment.append.mpr ⟨p, some a, front, back⟩).nodup
  rcases front.unlink back apart with ⟨next, stored, kept, front', back'⟩
  have predInside : ∀ b, p = some b → b < q.nodes.length := front.last_lt_length
  have nextInside : ∀ c, next = some c → c < q.nodes.length := by
    simpa using back'.first_lt_length
  cases p with
  | none =>
      cases next with
      | none => exact ⟨none, { q with top := none }, none, stored, by simp [takeOut], rfl, rfl,
          kept, front', by simpa using back', fun nonempty => absurd rfl nonempty⟩
      | some c =>
          refine ⟨some c, { q with top := some c, nodes := q.nodes.linkPrev (some c) none }, last,
            stored, ?_, rfl, rfl, kept, front', by simpa using back', fun _ => tail⟩
          simp [takeOut, setPrev_eq, nextInside]
  | some b =>
      cases next with
      | none =>
          refine ⟨none, { q with tail := some b, nodes := q.nodes.linkNext (some b) none }, some b,
            stored, ?_, rfl, rfl, kept, front', by simpa using back', fun _ => rfl⟩
          simp [takeOut, setNext_eq, predInside]
      | some c =>
          rw [Store.linkPrev_linkNext] at kept front' back'
          refine ⟨some c, { q with
            nodes := (q.nodes.linkPrev (some c) (some b)).linkNext (some b) (some c) }, last,
            stored, ?_, rfl, rfl, kept, front', by simpa using back', fun _ => tail⟩
          simp [takeOut, setPrev_eq, setNext_eq, predInside, nextInside]

/-- The loop of `priqueue_remove` at `item`: it has passed the entries before, and what
is left of them is the front of a well-linked queue. -/
structure Passed (q : Priqueue α) (before after : List (Nat × α)) (item : Option Nat) : Prop where
  links : ∃ p last, Segment q.nodes none q.top before p item ∧
    Segment q.nodes p item after last none ∧ (q.top ≠ none → q.tail = last)
  size : q.size = (before ++ after).length

/-- A round of `priqueue_remove` takes out its item when the numbers are equal and passes
it when they are not. -/
theorem removeLoop_item {intAt : α → Except Failure Int} {equal : Bool} {item : Option Nat}
    (passed : Passed q before ((a, x) :: after) item) (compares : sameInt intAt x ptr = .ok equal)
    (fuel : Nat) (count : Int) :
    ∃ next q', removeLoop intAt ptr (fuel + 1) item count q = removeLoop intAt ptr fuel next
        (if equal then count + 1 else count) q' ∧ q'.comparer = q.comparer ∧
      Passed q' (if equal then before else before ++ [(a, x)]) after next := by
  rcases passed with ⟨⟨p, last, front, back, tail⟩, size⟩
  obtain rfl : item = some a := back.1
  have nonempty : q.top ≠ none :=
    (Segment.append.mpr ⟨p, some a, front, back⟩).first_ne_none (by simp)
  cases equal with
  | true =>
      rcases takeOut_spec front back (tail nonempty) with
        ⟨next, q', last', stored, takes, comparer, sameSize, kept, front', back', tail'⟩
      have counted : q'.size - 1 = (before ++ after).length := by
        rw [sameSize, size]
        simp
        omega
      refine ⟨next, { q' with size := q'.size - 1 }, ?_, comparer, ?_⟩
      · simp [removeLoop, node_eq stored, compares, takes, node_eq (kept.trans stored)]
      · exact ⟨⟨p, last', front', back', tail'⟩, counted⟩
  | false =>
      rcases id back with ⟨-, next, stored, rest⟩
      have front' : Segment q.nodes none q.top (before ++ [(a, x)]) (some a) next :=
        Segment.append.mpr ⟨p, some a, front, rfl, next, stored, rfl, rfl⟩
      refine ⟨next, q, ?_, rfl, ⟨some a, last, front', rest, tail⟩, by simpa using size⟩
      simp [removeLoop, node_eq stored, compares]

/-- Both numbers that `priqueue_remove` compares at an entry can be read. -/
def Compared (intAt : α → Except Failure Int) (ptr : α) (entry : Nat × α) : Prop :=
  ∃ number sought, intAt entry.2 = .ok number ∧ intAt ptr = .ok sought

theorem Compared.sameInt_eq {intAt : α → Except Failure Int} {entry : Nat × α}
    (compared : Compared intAt ptr entry) :
    sameInt intAt entry.2 ptr = .ok (decide (intAt entry.2 = intAt ptr)) := by
  rcases compared with ⟨number, sought, isNumber, isSought⟩
  simp [sameInt, isNumber, isSought]

/-- The loop of `priqueue_remove` takes out the items that point at the same number. -/
theorem removeLoop_spec {intAt : α → Except Failure Int} {fuel : Nat} {item : Option Nat}
    (passed : Passed q before after item) (reads : ∀ entry ∈ after, Compared intAt ptr entry)
    (enough : after.length < fuel) (count : Int) :
    ∃ q' last', removeLoop intAt ptr fuel item count q =
        .ok (count + (after.countP fun entry => intAt entry.2 = intAt ptr : Nat), q') ∧
      q'.comparer = q.comparer ∧
      WellLinked q' (before ++ after.filter fun entry => intAt entry.2 ≠ intAt ptr) last' := by
  induction fuel generalizing q before after item count with
  | zero => exact absurd enough (Nat.not_lt_zero _)
  | succ fuel ih =>
      cases after with
      | nil =>
          rcases passed with ⟨⟨p, last, front, ⟨rfl, rfl⟩, tail⟩, size⟩
          exact ⟨q, last, by simp [removeLoop], rfl, by simpa using front, by simpa using size,
            tail⟩
      | cons entry after =>
          rw [List.forall_mem_cons] at reads
          rcases removeLoop_item passed reads.1.sameInt_eq fuel count with
            ⟨next, q₁, step, comparer₁, passed₁⟩
          rcases ih passed₁ reads.2 (Nat.lt_of_succ_lt_succ enough) _ with
            ⟨q', last', runs, comparer', linked⟩
          refine ⟨q', last', ?_, comparer'.trans comparer₁, ?_⟩
          · rw [step, runs, List.countP_cons]
            by_cases equal : intAt entry.2 = intAt ptr
            · simp [equal]
              omega
            · simp [equal]
          · by_cases equal : intAt entry.2 = intAt ptr
            · simpa [equal] using linked
            · simpa [equal] using linked

/-- The loop of `priqueue_remove` returns only when it reads all the numbers. -/
theorem removeLoop_reads {intAt : α → Except Failure Int} {fuel : Nat} {item : Option Nat}
    (passed : Passed q before after item) {count : Int} {result : Int × Priqueue α}
    (returns : removeLoop intAt ptr fuel item count q = .ok result) :
    ∀ entry ∈ after, Compared intAt ptr entry := by
  induction fuel generalizing q before after item count with
  | zero => cases returns
  | succ fuel ih =>
      cases after with
      | nil => simp
      | cons entry after =>
          have compared : Compared intAt ptr entry := by
            rcases passed.links with ⟨p, last, -, ⟨rfl, next, stored, -⟩, -⟩
            simp only [removeLoop, reduceCtorEq, if_false, node_eq stored, ok_bind] at returns
            cases isNumber : intAt entry.2 with
            | error failure => simp [sameInt, isNumber] at returns
            | ok number =>
                cases isSought : intAt ptr with
                | error failure => simp [sameInt, isNumber, isSought] at returns
                | ok sought => exact ⟨number, sought, isNumber, isSought⟩
          rcases removeLoop_item passed compared.sameInt_eq fuel count with
            ⟨next, q₁, step, -, passed₁⟩
          rw [step] at returns
          exact List.forall_mem_cons.mpr ⟨compared, ih passed₁ returns⟩

theorem WellLinked.passed (linked : WellLinked q entries last) : Passed q [] entries q.top :=
  ⟨⟨none, last, Segment.nil.mpr ⟨rfl, rfl⟩, linked.chain, linked.tail⟩, linked.size⟩

/-- `priqueue_remove` removes the elements that point at the same number as `ptr`. -/
theorem priqueueRemove_spec {intAt : α → Except Failure Int} (linked : WellLinked q entries last)
    (reads : ∀ entry ∈ entries, Compared intAt ptr entry) :
    ∃ q' last', priqueueRemove intAt ptr q =
        .ok ((entries.countP fun entry => intAt entry.2 = intAt ptr : Nat), q') ∧
      q'.comparer = q.comparer ∧
      WellLinked q' (entries.filter fun entry => intAt entry.2 ≠ intAt ptr) last' := by
  have enough : entries.length < q.nodes.length + 1 := by
    have := linked.chain.length_le
    omega
  simpa [priqueueRemove] using removeLoop_spec linked.passed reads enough 0

/-! ## `priqueue_remove_at` -/

/-- The loop of `priqueue_remove_at` passes the items before the index. -/
theorem removeAtLoop_passes {item : Option Nat}
    (rest : Segment q.nodes p item (before ++ (a, x) :: after) last none) (fuel : Nat) :
    removeAtLoop (before.length + fuel) item before.length q =
      removeAtLoop fuel (some a) 0 q := by
  induction before generalizing p item with
  | nil =>
      obtain rfl : item = some a := rest.1
      simp
  | cons entry before ih =>
      rcases rest with ⟨rfl, following, stored, rest⟩
      have behind : ((entry :: before).length : Int) ≠ 0 := by simp; omega
      have closer : ((entry :: before).length : Int) - 1 = before.length := by simp
      have steps : (entry :: before).length + fuel = before.length + fuel + 1 := by
        rw [List.length_cons]
        omega
      rw [steps]
      simp only [removeAtLoop, reduceCtorEq, if_false, node_eq stored, ok_bind, if_neg behind,
        closer]
      exact ih rest

/-- At an existing index `priqueue_remove_at` links the neighbours of the item and
leaves `tail` alone. When the item has no successor, `top` becomes its predecessor. -/
theorem priqueueRemoveAt_links (linked : WellLinked q (before ++ (a, x) :: after) last) :
    ∃ p next q', priqueueRemoveAt before.length q = .ok (some x, q') ∧
      q'.comparer = q.comparer ∧ q'.size = q.size - 1 ∧ q'.tail = q.tail ∧
      q'.top = (if next = none then p else if p = none then next else q.top) ∧
      Segment q'.nodes none (if p = none then next else q.top) before p next ∧
      Segment q'.nodes p next after (if next = none then p else last) none := by
  rcases Segment.append.mp linked.chain with ⟨p, item, front, back⟩
  obtain rfl : item = some a := back.1
  rcases front.unlink back linked.chain.nodup with ⟨next, stored, kept, front', back'⟩
  have predInside : ∀ b, p = some b → b < q.nodes.length := front.last_lt_length
  have nextInside : ∀ c, next = some c → c < q.nodes.length := by
    simpa using back'.first_lt_length
  have size := linked.size
  have within : ¬ ((before.length : Int) < 0 ∨ (before.length : Int) ≥ q.size) := by
    simp at size
    omega
  have enough := linked.chain.length_le
  have fuel : q.nodes.length + 1 = before.length + (q.nodes.length - before.length + 1) := by
    simp at enough
    omega
  refine ⟨p, next, { q with
    top := if next = none then p else if p = none then next else q.top, size := q.size - 1,
    nodes := (q.nodes.linkNext p next).linkPrev next p }, ?_, rfl, rfl, rfl, rfl, front', back'⟩
  rw [priqueueRemoveAt, if_neg within, fuel, removeAtLoop_passes linked.chain]
  cases p with
  | none =>
      cases next with
      | none => simp [removeAtLoop, Priqueue.node, stored]
      | some c => simp [removeAtLoop, Priqueue.node, stored, setPrev_eq, nextInside]
  | some b =>
      have distinct : b ≠ a := by
        rintro rfl
        have apart := linked.chain.nodup
        rw [List.map_append, List.nodup_append] at apart
        exact apart.2.2 b (front.last_mem rfl) b (by simp) rfl
      have still : (q.nodes.linkNext (some b) next)[a]? = some ⟨x, next, some b⟩ := by
        rw [Store.getElem?_linkNext_of_ne (by simpa using distinct), stored]
      cases next with
      | none => simp [removeAtLoop, Priqueue.node, stored, still, setNext_eq, predInside]
      | some c =>
          simp [removeAtLoop, Priqueue.node, stored, still, setNext_eq, setPrev_eq, predInside,
            nextInside]

/-- Unless the item is the last of several, `priqueue_remove_at` removes it. -/
theorem priqueueRemoveAt_spec (linked : WellLinked q (before ++ (a, x) :: after) last)
    (sound : before = [] ∨ after ≠ []) :
    ∃ q' last', priqueueRemoveAt before.length q = .ok (some x, q') ∧
      q'.comparer = q.comparer ∧ WellLinked q' (before ++ after) last' := by
  rcases priqueueRemoveAt_links linked with
    ⟨p, next, q', runs, comparer, size, tail, top, front, back⟩
  have sameTop : q'.top = if p = none then next else q.top := by
    rcases sound with rfl | several
    · obtain rfl : p = none := front.2
      simp only [top, if_true]
      cases next <;> simp
    · rw [top, if_neg fun ends => several (back.eq_nil ends)]
  refine ⟨q', if next = none then p else last, runs, comparer, ?_, ?_, fun nonempty => ?_⟩
  · rw [sameTop]
    exact Segment.append.mpr ⟨p, next, front, back⟩
  · rw [size, linked.size]
    simp
    omega
  · by_cases ends : next = none
    · rcases sound with rfl | several
      · obtain rfl : p = none := front.2
        simp [sameTop, ends] at nonempty
      · exact absurd (back.eq_nil ends) several
    · rw [if_neg ends, tail]
      exact linked.tail (linked.chain.first_ne_none (by simp))

/-- When the item is the last of several, `tail` still points to it and `top` to its
predecessor: the queue is no longer intact. -/
theorem priqueueRemoveAt_last (linked : WellLinked q (before ++ [(a, x)]) last)
    (several : before ≠ []) :
    ∃ q', priqueueRemoveAt before.length q = .ok (some x, q') ∧ ¬ Intact q' := by
  rcases priqueueRemoveAt_links linked with
    ⟨p, next, q', runs, comparer, size, tail, top, front, rfl, atEnd⟩
  refine ⟨q', runs, ?_⟩
  rintro ⟨entries', last', linked'⟩
  rcases List.eq_nil_or_concat' before with rfl | ⟨start, ⟨b, y⟩, rfl⟩
  · exact several rfl
  · obtain rfl := front.last_eq
    rw [if_pos rfl] at top
    rcases Segment.append.mp front with ⟨p', item, -, -, following, stored, rfl, -⟩
    have single : Segment q'.nodes p' q'.top [(b, y)] (some b) none := by
      rw [top]
      exact ⟨rfl, none, stored, rfl, rfl⟩
    obtain rfl := single.unique linked'.chain
    have chain : Segment q'.nodes none q'.top ([] ++ [(b, y)]) last' none := linked'.chain
    have atPredecessor : q'.tail = some b := (linked'.tail (by simp [top])).trans chain.last_eq
    have atRemoved : q.tail = some a :=
      (linked.tail (linked.chain.first_ne_none (by simp))).trans linked.chain.last_eq
    obtain rfl : b = a := Option.some.inj (atPredecessor.symm.trans (tail.trans atRemoved))
    have apart := linked.chain.nodup
    simp [List.nodup_append] at apart

end QuashLabs.PriorityQueue
