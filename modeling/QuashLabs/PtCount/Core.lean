import QuashLabs.Transition.Endless

/-!
# The counters of laboratory 5

`ptcount_mutex.c` and `ptcount_atomic.c`: `main` creates threads that each raise a shared
counter in a loop, joins them and prints the counter. The first program reads and writes
the counter under a mutex, the second one raises it by an atomic operation, whose sum
wraps around. A sum of `int`s that is out of range has no defined behaviour. The atomic
steps are each test of the loop, each lock and unlock, and each access to the counter.
-/

namespace QuashLabs.PtCount

open QuashLabs.Transition

/-- A value of `int`. -/
def FitsInt (value : Int) : Prop := -2147483648 ≤ value ∧ value ≤ 2147483647

instance : DecidablePred FitsInt := fun _ => inferInstanceAs (Decidable (_ ∧ _))

/-- The sum of `__atomic_add_fetch`. -/
def wrapInt (value : Int) : Int := value.bmod 4294967296

/-- `thread_args`, where the number of the thread is not used. -/
structure ThreadArgs where
  inc : Int
  loop : Int

/-- The rounds of the loop. -/
def ThreadArgs.rounds (args : ThreadArgs) : Nat := args.loop.toNat

/-- Where a thread stands in `inc_count`: the next atomic step it will take in round
`i`. -/
inductive Place
  | uncreated
  | test (i : Nat)
  | lock (i : Nat)
  | load (i : Nat)
  /-- Before `value + inc` is written. -/
  | store (i : Nat) (value : Int)
  | unlock (i : Nat)
  | addFetch (i : Nat)
  | addLoc (i : Nat)
  | finished
  /-- Behind a sum that is no `int`. -/
  | undefined
  deriving Repr, DecidableEq

/-- Where `main` stands. -/
inductive MainPlace
  | create (i : Nat)
  | join (i : Nat)
  /-- Behind its `printf` with this value of `count`. -/
  | printed (count : Int)
  deriving Repr, DecidableEq

/-- The counter, its mutex with the thread that has locked it, the places and the own
counts of the threads, and the place of `main`. -/
structure State where
  count : Int
  countMutex : Option Nat
  place : Nat → Place
  loc : Nat → Int
  main : MainPlace

/-- Before `main` creates the threads. -/
def initialState : State where
  count := 0
  countMutex := none
  place := fun _ => .uncreated
  loc := fun _ => 0
  main := .create 0

/-- Thread `p` goes on at its next place. -/
def State.move (s : State) (p : Nat) (place : Place) : State :=
  { s with place := Function.update s.place p place }

/-- The two programs. -/
inductive Program
  | mutex
  | atomic
  deriving Repr, DecidableEq

/-- The first step of a round. -/
def Program.body : Program → Nat → Place
  | .mutex => .lock
  | .atomic => .addFetch

/-- One atomic step of `inc_count`. -/
def incCount (program : Program) (args : ThreadArgs) (p : Nat) (s : State) : Option State :=
  match s.place p with
  | .uncreated => none
  | .test i => some (s.move p (if (i : Int) < args.loop then program.body i else .finished))
  | .lock i =>
      if s.countMutex = none then some ({ s with countMutex := some p }.move p (.load i)) else none
  | .load i => some (s.move p (.store i s.count))
  | .store i value =>
      if FitsInt (value + args.inc) then
        some ({ s with count := value + args.inc }.move p (.unlock i))
      else some (s.move p .undefined)
  | .unlock i => some ({ s with countMutex := none }.move p (.addLoc i))
  | .addFetch i => some ({ s with count := wrapInt (s.count + args.inc) }.move p (.addLoc i))
  | .addLoc i =>
      if FitsInt (s.loc p + args.inc) then
        some ({ s with loc := Function.update s.loc p (s.loc p + args.inc) }.move p
          (.test (i + 1)))
      else some (s.move p .undefined)
  | .finished => none
  | .undefined => none

/-- One step of `main`, which creates and joins `numThreads` threads. -/
def mainStep (numThreads : Nat) (s : State) : Option State :=
  match s.main with
  | .create i =>
      if i < numThreads then some { s.move i (.test 0) with main := .create (i + 1) }
      else some { s with main := .join 0 }
  | .join i =>
      if i < numThreads then
        if s.place i = .finished then some { s with main := .join (i + 1) } else none
      else some { s with main := .printed s.count }
  | .printed _ => none

/-- Who moves. -/
inductive Event
  | thread (p : Nat)
  | main
  deriving Repr, DecidableEq

/-- The program with `numThreads` threads. -/
def step (program : Program) (numThreads : Nat) (args : ThreadArgs) : LabelledStep Event State
  | .thread p, s => if p < numThreads then incCount program args p s else none
  | .main, s => mainStep numThreads s

end QuashLabs.PtCount
