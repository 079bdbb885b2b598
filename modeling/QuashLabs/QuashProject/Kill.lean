import Mathlib.Data.List.Basic
import QuashLabs.Checked.Outcome
import QuashLabs.QuashProject.Variables

/-!
# The `kill` of `quash.cpp`

The branch reads two numbers, copies what the list has about the process, takes the first
entry of the process off the list, and then sends `SIGTSTP`. The number of the signal is
not used, and the outcome of the call comes after the list has been changed.
-/

namespace QuashLabs.QuashProject

open QuashLabs.Checked

/-! ## The job list -/

/-- `BackgroundJobs::status`. -/
inductive JobStatus
  | running
  | terminated
  deriving Repr, DecidableEq

/-- `BackgroundJobs`. -/
structure BackgroundJob where
  jobId : Int
  jobPid : Int
  jobName : String
  jobStatus : JobStatus
  deriving Repr, DecidableEq

/-- `BackgroundJobs()`. -/
def BackgroundJob.default : BackgroundJob := ⟨-1, -1, "", .terminated⟩

/-- `removeJobs`: the first entry with the pid of the job is erased. -/
def removeJobs (job : BackgroundJob) (jobWaitList : List BackgroundJob) : List BackgroundJob :=
  jobWaitList.eraseP fun it => it.jobPid == job.jobPid

/-- The loop that copies the first entry of a pid. -/
def copied (pid : Int) (jobWaitList : List BackgroundJob) : BackgroundJob :=
  let myJob := { BackgroundJob.default with jobPid := pid }
  match jobWaitList.find? fun it => it.jobPid == pid with
  | some it => { myJob with jobId := it.jobId, jobName := it.jobName, jobStatus := .terminated }
  | none => myJob

/-! ## The branch -/

/-- `SIGTSTP`. -/
def sigtstp : Int := 20

/-- What the branch for `kill` leaves: the list, the signals that were sent with their
processes, and whether an error was reported. -/
structure Killed where
  jobWaitList : List BackgroundJob
  sent : List (Int × Int)
  reported : Bool
  deriving Repr, DecidableEq

/-- The branch for `kill`, for a list of three words; `succeeds` is the outcome of the call
of `kill`. -/
def killBranch (succeeds : Int → Int → Bool) (jobWaitList : List BackgroundJob)
    (cmd : List (List Char)) : Except Fault Killed := do
  let pid ← stoi (cmd.getLastD [])
  let _signal ← stoi (cmd.tail.headD [])
  let myJob := copied pid jobWaitList
  let jobWaitList := removeJobs myJob jobWaitList
  if pid ≠ -1 then
    return ⟨jobWaitList, [(pid, sigtstp)], !succeeds pid sigtstp⟩
  else return ⟨jobWaitList, [], false⟩

/-- The signal was sent to the process, and the list has changed by the entry of the process
exactly if this succeeded. -/
structure Kills (succeeds : Int → Int → Bool) (jobWaitList : List BackgroundJob)
    (signal pid : Int) (killed : Killed) : Prop where
  sent : killed.sent = [(pid, signal)]
  removed : succeeds pid signal = true →
    killed.jobWaitList = jobWaitList.eraseP fun it => it.jobPid == pid
  kept : succeeds pid signal = false → killed.jobWaitList = jobWaitList
  others : (killed.jobWaitList.filter fun it => it.jobPid != pid) =
    jobWaitList.filter fun it => it.jobPid != pid

variable {succeeds : Int → Int → Bool} {jobWaitList : List BackgroundJob} {signal pid : Int}
variable {sig proc : List Char}

theorem copied_jobPid (pid : Int) (jobWaitList : List BackgroundJob) :
    (copied pid jobWaitList).jobPid = pid := by
  rw [copied]
  split
  · rfl
  · rfl

/-- What the branch does with two numbers. -/
theorem killBranch_eq (isSignal : stoi sig = .ok signal) (isPid : stoi proc = .ok pid) :
    killBranch succeeds jobWaitList ["kill".toList, sig, proc] =
      .ok ⟨jobWaitList.eraseP fun it => it.jobPid == pid,
        if pid ≠ -1 then [(pid, sigtstp)] else [],
        decide (pid ≠ -1) && !succeeds pid sigtstp⟩ := by
  have back : ["kill".toList, sig, proc].getLastD [] = proc := rfl
  simp only [killBranch, back, List.tail_cons, List.headD_cons, isSignal, isPid, ok_bind,
    removeJobs, copied_jobPid]
  by_cases none : pid = -1
  · simp [none]
  · simp [none]

/-- Erasing the entry of a process leaves the entries of the others. -/
theorem filter_eraseP (pid : Int) (jobWaitList : List BackgroundJob) :
    ((jobWaitList.eraseP fun it => it.jobPid == pid).filter fun it => it.jobPid != pid) =
      jobWaitList.filter fun it => it.jobPid != pid := by
  induction jobWaitList with
  | nil => rfl
  | cons job rest ih =>
      by_cases same : job.jobPid = pid
      · simp [same]
      · simp [same, ih]

/-- The list is as it was exactly when it had no entry of the process. -/
theorem eraseP_eq_self_iff : (jobWaitList.eraseP fun it => it.jobPid == pid) = jobWaitList ↔
    ∀ job ∈ jobWaitList, job.jobPid ≠ pid := by
  rw [List.eraseP_eq_self_iff]
  simp

/-- The right signal goes to the process, and its entry off the list only behind a success,
exactly when the signal is `SIGTSTP`, the pid is not that of no process, and the call succeeds
or there is no entry to lose. -/
theorem kills_iff (isSignal : stoi sig = .ok signal) (isPid : stoi proc = .ok pid) :
    (∃ killed, killBranch succeeds jobWaitList ["kill".toList, sig, proc] = .ok killed ∧
        Kills succeeds jobWaitList signal pid killed) ↔
      pid ≠ -1 ∧ signal = sigtstp ∧
        (succeeds pid signal = true ∨ ∀ job ∈ jobWaitList, job.jobPid ≠ pid) := by
  simp only [killBranch_eq isSignal isPid, Except.ok.injEq, exists_eq_left']
  constructor
  · intro kills
    have sent := kills.sent
    dsimp only at sent
    have valid : pid ≠ -1 := by
      intro none
      rw [none, if_neg (by decide)] at sent
      cases sent
    rw [if_pos valid] at sent
    obtain rfl : sigtstp = signal := by simpa using sent
    refine ⟨valid, rfl, ?_⟩
    cases outcome : succeeds pid sigtstp with
    | true => exact .inl rfl
    | false => exact .inr (eraseP_eq_self_iff.mp (kills.kept outcome))
  · rintro ⟨valid, rfl, outcome⟩
    constructor
    · exact if_pos valid
    · exact fun _ => rfl
    · intro fails
      have noEntry := outcome.resolve_left (by simp [fails])
      exact eraseP_eq_self_iff.mpr noEntry
    · exact filter_eraseP pid jobWaitList

/-- `kill 20 101` does what it says to the background job with that pid. -/
theorem kills_sigtstp :
    ∃ killed, killBranch (fun _ _ => true) [⟨1, 101, "sleep 5 &", .running⟩]
        ["kill".toList, "20".toList, "101".toList] = .ok killed ∧
      Kills (fun _ _ => true) [⟨1, 101, "sleep 5 &", .running⟩] 20 101 killed := by
  apply (kills_iff (by decide) (by decide)).mpr
  decide

/-- `kill 9 101` stops the process. -/
theorem kills_fails : ¬∀ (succeeds : Int → Int → Bool) (jobWaitList : List BackgroundJob)
    (sig proc : List Char) (signal pid : Int), stoi sig = .ok signal → stoi proc = .ok pid →
      ∃ killed, killBranch succeeds jobWaitList ["kill".toList, sig, proc] = .ok killed ∧
        Kills succeeds jobWaitList signal pid killed := by
  intro all
  rcases all (fun _ _ => true) [⟨1, 101, "sleep 5 &", .running⟩] "9".toList "101".toList 9 101
    (by decide) (by decide) with ⟨killed, returns, kills⟩
  have isSignal : stoi "9".toList = .ok 9 := by decide
  have isPid : stoi "101".toList = .ok 101 := by decide
  rw [killBranch_eq isSignal isPid] at returns
  cases returns
  exact absurd kills.sent (by decide)

end QuashLabs.QuashProject
