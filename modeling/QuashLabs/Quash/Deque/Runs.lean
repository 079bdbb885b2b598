import QuashLabs.Checked.Run
import QuashLabs.Quash.Deque.Specs

/-!
# Runs of deque operations

A client makes a deque, performs operations on it and may finally turn it into
an array. The same operations have an obvious meaning on lists; as long as
memory lasts and the capacities stay representable, the two agree in every
answer, in every failure and in the array at the end.
-/

namespace QuashLabs.Quash.Deque

open QuashLabs.Checked

variable {α M σ : Type}

/-- The operations between the constructor and `as_array`. The callback of
`apply` works on a state of the client. -/
inductive Op (α σ : Type)
  | pushFront (element : α)
  | pushBack (element : α)
  | popFront
  | popBack
  | peekFront
  | peekBack
  | updateFront (element : α)
  | updateBack (element : α)
  | empty
  | isEmpty
  | length
  | apply (func : α → σ → Except Failure σ)

/-- What an operation returns. -/
inductive Answer (α : Type)
  | done
  | element (value : α)
  | flag (value : Bool)
  | number (value : Nat)
  deriving Repr, DecidableEq

/-- The client's view: a deque, the memory and a state of its own. -/
abbrev Client (α M σ : Type) := Deque α M × M × σ

/-- One operation on a deque. -/
def exec (mem : Allocation M) : Op α σ → Client α M σ → Except Failure (Answer α × Client α M σ)
  | .pushFront element, (deq, m, s) => do
      let (deq, m) ← deq.pushFront mem element m
      return (.done, deq, m, s)
  | .pushBack element, (deq, m, s) => do
      let (deq, m) ← deq.pushBack mem element m
      return (.done, deq, m, s)
  | .popFront, (deq, m, s) => do
      let (element, deq) ← deq.popFront
      return (.element element, deq, m, s)
  | .popBack, (deq, m, s) => do
      let (element, deq) ← deq.popBack
      return (.element element, deq, m, s)
  | .peekFront, (deq, m, s) => do
      let element ← deq.peekFront
      return (.element element, deq, m, s)
  | .peekBack, (deq, m, s) => do
      let element ← deq.peekBack
      return (.element element, deq, m, s)
  | .updateFront element, (deq, m, s) => do
      let deq ← deq.updateFront element
      return (.done, deq, m, s)
  | .updateBack element, (deq, m, s) => do
      let deq ← deq.updateBack element
      return (.done, deq, m, s)
  | .empty, (deq, m, s) => do
      let deq ← deq.empty
      return (.done, deq, m, s)
  | .isEmpty, (deq, m, s) => do
      let answer ← deq.isEmpty
      return (.flag answer, deq, m, s)
  | .length, (deq, m, s) => do
      let answer ← deq.length
      return (.number answer, deq, m, s)
  | .apply func, (deq, m, s) => do
      let s ← deq.apply func s
      return (.done, deq, m, s)

/-- The same operation on a list. Popping from the empty list aborts; looking at
or replacing an end of the empty list violates an assertion. -/
def execList : Op α σ → List α × σ → Except Failure (Answer α × List α × σ)
  | .pushFront element, (items, s) => .ok (.done, element :: items, s)
  | .pushBack element, (items, s) => .ok (.done, items ++ [element], s)
  | .popFront, (items, s) =>
      match items.head? with
      | none => .error (.abort "ERROR: Cannot pop from of struct_name while it is empty\n")
      | some element => .ok (.element element, items.tail, s)
  | .popBack, (items, s) =>
      match items.getLast? with
      | none => .error (.abort "ERROR: Cannot pop from of struct_name while it is empty\n")
      | some element => .ok (.element element, items.dropLast, s)
  | .peekFront, (items, s) =>
      match items.head? with
      | none => .error .assertion
      | some element => .ok (.element element, items, s)
  | .peekBack, (items, s) =>
      match items.getLast? with
      | none => .error .assertion
      | some element => .ok (.element element, items, s)
  | .updateFront element, (items, s) =>
      if items = [] then .error .assertion else .ok (.done, element :: items.tail, s)
  | .updateBack element, (items, s) =>
      if items = [] then .error .assertion else .ok (.done, items.dropLast ++ [element], s)
  | .empty, (_, s) => .ok (.done, [], s)
  | .isEmpty, (items, s) => .ok (.flag items.isEmpty, items, s)
  | .length, (items, s) => .ok (.number items.length, items, s)
  | .apply func, (items, s) => do
      let s ← items.foldlM (fun s element => func element s) s
      return (.done, items, s)

/-- The capacity that an operation leaves. -/
def Op.capAfter (deq : Deque α M) : Op α σ → Nat
  | .pushFront _ => deq.pushCap
  | .pushBack _ => deq.pushCap
  | _ => deq.cap

/-- The operation does not run out of memory and leaves a capacity within the limit. -/
def Admitted (mem : Allocation M) (limit : Nat → Prop) (op : Op α σ) (client : Client α M σ) :
    Prop :=
  limit (op.capAfter client.1) ∧
    ∀ failure, exec mem op client = .error failure → ¬failure.OutOfMemory

variable {mem : Allocation M}

/-- Deques of `int` over an allocator that hands out one address after another. -/
def intDeques : Allocation Nat where
  elementSize := 4
  elementSizePos := by decide
  elementSizeFits := by decide
  alloc bytes next := .ok (some next, next + bytes)
  allocStops _ _ _ stops := by cases stops
  release _ next := next
  newFails := .exit (-1) "ERROR: Failed to allocate struct_name contents"
  newStops := outOfMemory_new

end QuashLabs.Quash.Deque
