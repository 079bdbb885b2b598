import Mathlib.Algebra.Group.Int.Defs
import QuashLabs.Checked.Run
import QuashLabs.Linked.Segment

/-!
# The priority queue of `libpriqueue`

A queue is a doubly linked list of nodes with separate pointers to its two ends and a
separate count. Nodes are never freed, so the nodes that were made for a queue are a
list that only grows, and the address of a node is its index. Elements are the
pointers of the caller: `comparer` compares what they point at, and `intAt` reads the
`int` that one of them points at, which fails for a pointer to no `int`.
-/

namespace QuashLabs.PriorityQueue

open QuashLabs.Linked

universe u

variable {α : Type u}

/-- What C leaves undefined, and the end of the fuel of a loop. -/
inductive Failure
  | nullDereference
  | wildPointer
  | signedOverflow
  | noReturn
  | unfinished
  deriving Repr, DecidableEq

/-- `priqueue_t`, with the nodes made for it. -/
structure Priqueue (α : Type u) where
  comparer : α → α → Int
  top : Option Nat
  tail : Option Nat
  size : Int
  nodes : Store α

/-- The largest `int`. -/
def intMax : Int := 2 ^ 31 - 1

namespace Priqueue

/-- The node that `item` points to. -/
def node (q : Priqueue α) (item : Option Nat) : Except Failure (Node α) :=
  match item with
  | none => .error .nullDereference
  | some address =>
      match q.nodes[address]? with
      | none => .error .wildPointer
      | some node => .ok node

/-- `item->next = next`. -/
def setNext (q : Priqueue α) (item next : Option Nat) : Except Failure (Priqueue α) := do
  let _ ← q.node item
  return { q with nodes := q.nodes.linkNext item next }

/-- `item->prev = prev`. -/
def setPrev (q : Priqueue α) (item prev : Option Nat) : Except Failure (Priqueue α) := do
  let _ ← q.node item
  return { q with nodes := q.nodes.linkPrev item prev }

/-- `q->size++`. -/
def sizeUp (q : Priqueue α) : Except Failure (Priqueue α) :=
  if q.size < intMax then .ok { q with size := q.size + 1 } else .error .signedOverflow

/-- The `malloc` of a node and its initialisation. The result of `malloc` is not
looked at; without memory it is the null pointer. -/
def newItem (memory : Bool) (ptr : α) (q : Priqueue α) :
    Except Failure (Option Nat × Priqueue α) :=
  if memory then
    .ok (some q.nodes.length, { q with nodes := q.nodes ++ [⟨ptr, none, none⟩] })
  else .error .nullDereference

end Priqueue

open Priqueue

/-- `priqueue_init`. -/
def priqueueInit (comparer : α → α → Int) : Priqueue α where
  comparer := comparer
  top := none
  tail := none
  size := 0
  nodes := []

/-- The branch of `priqueue_offer` that puts the new item before the current one. -/
def offerBefore (newItem currItem : Option Nat) (index : Int) (q : Priqueue α) :
    Except Failure (Int × Priqueue α) := do
  let curr ← q.node currItem
  if curr.prev = none then
    -- `new_item->prev == NULL;` compares and has no effect.
    let q ← q.setNext newItem currItem
    let q ← q.setPrev currItem newItem
    let q ← { q with top := newItem }.sizeUp
    return (index, q)
  else
    let q ← q.setPrev newItem curr.prev
    let q ← q.setNext curr.prev newItem
    let q ← q.setPrev currItem newItem
    let q ← q.setNext newItem currItem
    let q ← q.sizeUp
    return (index, q)

/-- The end of `priqueue_offer`, behind its loop. -/
def offerLast (newItem : Option Nat) (index : Int) (q : Priqueue α) :
    Except Failure (Int × Priqueue α) := do
  let q ← q.setPrev newItem q.tail
  let q ← q.setNext q.tail newItem
  let q ← { q with tail := newItem }.sizeUp
  return (index, q)

/-- The loop `while(curr_item != NULL)` of `priqueue_offer`, and what follows it. -/
def offerLoop (newItem : Option Nat) (ptr : α) :
    Nat → Option Nat → Int → Priqueue α → Except Failure (Int × Priqueue α)
  | 0, _, _, _ => .error .unfinished
  | fuel + 1, currItem, index, q =>
      if currItem = none then offerLast newItem index q
      else do
        let curr ← q.node currItem
        if q.comparer ptr curr.data < 0 then offerBefore newItem currItem index q
        else offerLoop newItem ptr fuel curr.next (index + 1) q

/-- `priqueue_offer`. -/
def priqueueOffer (memory : Bool) (ptr : α) (q : Priqueue α) :
    Except Failure (Int × Priqueue α) := do
  let (newItem, q) ← q.newItem memory ptr
  if q.top = none then
    let q ← { q with top := newItem, tail := newItem }.sizeUp
    return (0, q)
  else offerLoop newItem ptr (q.nodes.length + 1) q.top 0 q

/-- `priqueue_peek`; `none` is the null pointer. -/
def priqueuePeek (q : Priqueue α) : Except Failure (Option α) := do
  if q.top = none then return none
  else
    let item ← q.node q.top
    return some item.data

/-- `priqueue_poll`. -/
def priqueuePoll (q : Priqueue α) : Except Failure (Option α × Priqueue α) := do
  if q.top = none then return (none, q)
  else
    let item ← q.node q.top
    let q ← q.setPrev item.next none
    return (some item.data, { q with top := item.next, size := q.size - 1 })

/-- The loop `while(top_index < q->size)` of `priqueue_at` with `rounds` rounds left. -/
def atLoop (index : Int) (q : Priqueue α) :
    Nat → Int → Option Nat → Except Failure (Option α)
  | 0, _, _ => .ok none
  | rounds + 1, topIndex, item => do
      let topIndex := topIndex + 1
      let node ← q.node item
      let item := node.next
      if topIndex = index then
        let node ← q.node item
        return some node.data
      else atLoop index q rounds topIndex item

/-- `priqueue_at`. -/
def priqueueAt (index : Int) (q : Priqueue α) : Except Failure (Option α) := do
  let item := q.top
  if index = 0 then
    let node ← q.node item
    return some node.data
  else atLoop index q q.size.toNat 0 item

/-- The four cases in which `priqueue_remove` takes `item` out of the list. -/
def takeOut (item : Node α) (q : Priqueue α) : Except Failure (Priqueue α) := do
  if item.prev = none ∧ item.next = none then return { q with top := none }
  else if item.prev = none then
    let q ← q.setPrev item.next none
    return { q with top := item.next }
  else if item.next = none then
    let q ← q.setNext item.prev none
    return { q with tail := item.prev }
  else
    let q ← q.setPrev item.next item.prev
    q.setNext item.prev item.next

/-- `*(int *)data == *(int *)ptr`. -/
def sameInt (intAt : α → Except Failure Int) (data ptr : α) : Except Failure Bool := do
  let number ← intAt data
  let sought ← intAt ptr
  return number = sought

/-- The loop `while(item != NULL)` of `priqueue_remove`. -/
def removeLoop (intAt : α → Except Failure Int) (ptr : α) :
    Nat → Option Nat → Int → Priqueue α → Except Failure (Int × Priqueue α)
  | 0, _, _, _ => .error .unfinished
  | fuel + 1, item, count, q =>
      if item = none then .ok (count, q)
      else do
        let node ← q.node item
        match sameInt intAt node.data ptr with
        | .error failure => .error failure
        | .ok true =>
            let q ← takeOut node q
            let node ← q.node item
            removeLoop intAt ptr fuel node.next (count + 1) { q with size := q.size - 1 }
        | .ok false => removeLoop intAt ptr fuel node.next count q

/-- `priqueue_remove`. -/
def priqueueRemove (intAt : α → Except Failure Int) (ptr : α) (q : Priqueue α) :
    Except Failure (Int × Priqueue α) :=
  removeLoop intAt ptr (q.nodes.length + 1) q.top 0 q

/-- The loop `while(item != NULL)` of `priqueue_remove_at`. -/
def removeAtLoop : Nat → Option Nat → Int → Priqueue α → Except Failure (Option α × Priqueue α)
  | 0, _, _, _ => .error .unfinished
  | fuel + 1, item, index, q =>
      if item = none then .error .noReturn
      else do
        let node ← q.node item
        if index = 0 then
          let q ← if node.prev ≠ none then q.setNext node.prev node.next
            else pure { q with top := node.next }
          let node ← q.node item
          let q ← if node.next ≠ none then q.setPrev node.next node.prev
            else pure { q with top := node.prev }
          return (some node.data, { q with size := q.size - 1 })
        else removeAtLoop fuel node.next (index - 1) q

/-- `priqueue_remove_at`. -/
def priqueueRemoveAt (index : Int) (q : Priqueue α) : Except Failure (Option α × Priqueue α) :=
  if index < 0 ∨ index ≥ q.size then .ok (none, q)
  else removeAtLoop (q.nodes.length + 1) q.top index q

/-- `priqueue_size`. -/
def priqueueSize (q : Priqueue α) : Int := q.size

/-! ## Calls -/

/-- The calls of a client. A call of `priqueue_offer` says whether `malloc` has memory. -/
inductive Op (α : Type u)
  | offer (memory : Bool) (ptr : α)
  | peek
  | poll
  | elementAt (index : Int)
  | remove (ptr : α)
  | removeAt (index : Int)
  | size

/-- What a call returns. -/
inductive Answer (α : Type u)
  | number (value : Int)
  | element (value : Option α)
  deriving Repr, DecidableEq

/-- One call of a client. -/
def exec (intAt : α → Except Failure Int) :
    Op α → Priqueue α → Except Failure (Answer α × Priqueue α)
  | .offer memory ptr, q => do
      let (index, q) ← priqueueOffer memory ptr q
      return (.number index, q)
  | .peek, q => do
      let element ← priqueuePeek q
      return (.element element, q)
  | .poll, q => do
      let (element, q) ← priqueuePoll q
      return (.element element, q)
  | .elementAt index, q => do
      let element ← priqueueAt index q
      return (.element element, q)
  | .remove ptr, q => do
      let (count, q) ← priqueueRemove intAt ptr q
      return (.number count, q)
  | .removeAt index, q => do
      let (element, q) ← priqueueRemoveAt index q
      return (.element element, q)
  | .size, q => .ok (.number (priqueueSize q), q)

end QuashLabs.PriorityQueue
