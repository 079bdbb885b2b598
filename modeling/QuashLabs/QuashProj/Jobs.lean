import Mathlib.Logic.Function.Basic
import QuashLabs.Transition.Reachable

/-!
# The job list of `QuashProj`

`updateJobList` goes over the list three times: it drops the jobs that an earlier call
has marked, it announces and erases at most one job for which `waitpid` has anything to
report, and it announces and marks every other job that is no longer there. It holds the
mutex of the list all the time, but children change between any two of its calls of
`waitpid`, and the handler's `wait(NULL)` may reap one of them.
-/

namespace QuashLabs.QuashProj

open QuashLabs.Transition

/-! ## Data -/

/-- `Job::status`. -/
inductive Status
  | running
  | waiting
  | terminated
  deriving Repr, DecidableEq

/-- The fields of a `Job` that never change. -/
structure Record where
  myName : String
  mPid : Int
  mId : Int
  deriving Repr, DecidableEq

/-- `Job`. -/
structure Job extends Record where
  mySt : Status
  deriving Repr, DecidableEq

/-- What a parent can find out about a child: a child that is continued is reported as
such once. -/
inductive Process
  | running
  | stopped
  | continued
  | terminated
  | reaped
  deriving Repr, DecidableEq

/-- Where the thread that calls `updateJobList` stands. -/
inductive Place
  /-- In no call. -/
  | outside
  /-- In the second loop, at this position. -/
  | report (i : Nat)
  /-- In the third loop, at this position. -/
  | mark (i : Nat)
  deriving Repr, DecidableEq

/-- The job list, the children by their pids, and what has happened so far: the jobs in
the order in which they were started, and those announced as finished. -/
structure State where
  curr : List Job
  process : Int → Option Process
  place : Place
  started : List Record
  announced : List Record

/-- The shell at its start. -/
def State.start : State where
  curr := []
  process := fun _ => none
  place := .outside
  started := []
  announced := []

/-! ## Steps -/

/-- `waitpid` with `WNOHANG`, and with `WCONTINUED` or without it: its result, and the
child behind it. -/
def waitpid (wcontinued : Bool) (pid : Int) : Option Process → Int × Option Process
  | some .continued => if wcontinued then (pid, some .running) else (0, some .continued)
  | some .terminated => (pid, some .reaped)
  | some .running => (0, some .running)
  | some .stopped => (0, some .stopped)
  | some .reaped => (-1, some .reaped)
  | none => (-1, none)

/-- The first loop of `updateJobList`. -/
def eraseTerminated : List Job → List Job
  | [] => []
  | job :: rest =>
      if job.mySt = .terminated then eraseTerminated rest else job :: eraseTerminated rest

/-- The children behind a call of `waitpid`. -/
def State.waited (s : State) (wcontinued : Bool) (pid : Int) : Int → Option Process :=
  Function.update s.process pid (waitpid wcontinued pid (s.process pid)).2

/-- The second loop at position `i`. -/
def reportRound (i : Nat) (s : State) : State :=
  match s.curr[i]? with
  | none => { s with place := .mark 0 }
  | some job =>
      if (waitpid true job.mPid (s.process job.mPid)).1 ≠ 0 then
        { s with
          curr := s.curr.eraseIdx i
          process := s.waited true job.mPid
          place := .mark 0
          announced := s.announced ++ [job.toRecord] }
      else { s with process := s.waited true job.mPid, place := .report (i + 1) }

/-- The third loop at position `i`. -/
def markRound (i : Nat) (s : State) : State :=
  match s.curr[i]? with
  | none => { s with place := .outside }
  | some job =>
      if (waitpid false job.mPid (s.process job.mPid)).1 ≠ 0 then
        { s with
          curr := s.curr.set i { job with mySt := .terminated }
          process := s.waited false job.mPid
          place := .mark (i + 1)
          announced := s.announced ++ [job.toRecord] }
      else { s with process := s.waited false job.mPid, place := .mark (i + 1) }

/-- What happens to a child. -/
inductive Change
  | terminates
  | stops
  | continues
  /-- The `wait(NULL)` of `catch_dead_child`, or another wait of the shell. -/
  | isReaped
  deriving Repr, DecidableEq

/-- A child behind a change, where the change is possible. -/
def Change.apply : Change → Process → Option Process
  | .terminates, .running | .terminates, .stopped | .terminates, .continued => some .terminated
  | .stops, .running | .stops, .continued => some .stopped
  | .continues, .stopped => some .continued
  | .isReaped, .terminated => some .reaped
  | _, _ => none

/-- What happens in a run. -/
inductive Event
  /-- `fork` returns the new child `pid`. -/
  | forks (pid : Int)
  /-- The shell puts a job for a child at the back of the list. -/
  | starts (record : Record)
  | child (pid : Int) (change : Change)
  /-- A call of `updateJobList` has the mutex. -/
  | call
  /-- The call goes on up to its next `waitpid`, or to its end. -/
  | round
  deriving Repr, DecidableEq

/-- One step. -/
def step : LabelledStep Event State
  | .forks pid, s =>
      if 0 < pid ∧ s.process pid = none then
        some { s with process := Function.update s.process pid (some .running) }
      else none
  | .starts record, s =>
      if s.place = .outside ∧ s.process record.mPid ≠ none ∧
          record.mPid ∉ s.started.map Record.mPid then
        some { s with
          curr := s.curr ++ [⟨record, .running⟩]
          started := s.started ++ [record] }
      else none
  | .child pid change, s =>
      ((s.process pid).bind change.apply).map fun process =>
        { s with process := Function.update s.process pid (some process) }
  | .call, s =>
      if s.place = .outside then
        some { s with curr := eraseTerminated s.curr, place := .report 0 }
      else none
  | .round, s =>
      match s.place with
      | .outside => none
      | .report i => some (reportRound i s)
      | .mark i => some (markRound i s)

/-! ## What is asked of the announcements -/

/-- The process has terminated. -/
def Ended (process : Option Process) : Prop :=
  process = some .terminated ∨ process = some .reaped

/-- A job is announced, marked or removed only when its process has terminated, it is
announced once, and the jobs of the list are started jobs in their order; one that is not
announced is still there as it was started. -/
structure Faithful (s : State) : Prop where
  announced : ∀ record ∈ s.announced, Ended (s.process record.mPid)
  marked : ∀ job ∈ s.curr, job.mySt = .terminated → Ended (s.process job.mPid)
  removed : ∀ record ∈ s.started, record ∉ s.curr.map Job.toRecord → Ended (s.process record.mPid)
  once : s.announced.Nodup
  kept : (s.curr.map Job.toRecord).Sublist s.started
  remains : ∀ record ∈ s.started, record ∉ s.announced → ⟨record, .running⟩ ∈ s.curr

/-- The second loop meets no job whose continuation `waitpid` has yet to report. -/
def Uncontinued : Event → State → Prop
  | .round, s => ∀ i job, s.place = .report i → s.curr[i]? = some job →
      s.process job.mPid ≠ some .continued
  | _, _ => True

end QuashLabs.QuashProj
