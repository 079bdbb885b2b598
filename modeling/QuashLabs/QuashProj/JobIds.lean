import QuashLabs.QuashProj.Announcements

/-!
# The numbers of background jobs

`Runner::executeFunc` numbers a job by the last one of the list, which it looks at without the
mutex, and pushes it later, with the mutex. In between `updateJobList` may remove jobs. An empty
list has no last job, and the largest `int` has no successor; nothing is defined behind such a
number.
-/

namespace QuashLabs.QuashProj.Numbering

open QuashLabs.Transition

/-! ## Starting a job -/

/-- `name`, with a space in front of every argument. -/
def jobName (args : List String) : String :=
  args.foldl (fun name arg => name ++ " " ++ arg) ""

/-- The largest `int`. -/
def intMax : Int := 2147483647

/-- What C++ leaves undefined: `back` of an empty list, and a sum beyond the largest `int`. -/
inductive Failure
  | emptyList
  | signedOverflow
  deriving Repr, DecidableEq

/-- `jobList.back().m_id+1`. -/
def newId (jobList : List Job) : Except Failure Int :=
  match jobList.getLast? with
  | none => .error .emptyList
  | some job => if job.mId < intMax then .ok (job.mId + 1) else .error .signedOverflow

/-- `m_id` of every job. -/
def ids (jobList : List Job) : List Int := jobList.map fun job => job.mId

/-- The job list and the children, the job that `executeFunc` has made and not pushed yet, for
every job made so far the numbers in the list at that time with its own, and the failure at
which the run has come to an end. -/
structure Shell where
  lists : State
  newJob : Option Record
  numbered : List (List Int × Int)
  failure : Option Failure

/-- The shell at its start. -/
def Shell.start : Shell := ⟨.start, none, [], none⟩

/-- What happens in a run. -/
inductive Happening
  /-- Something else than a start of a job. -/
  | other (event : Event)
  /-- `executeFunc` makes a job for its child. -/
  | newJob (args : List String) (toEx : Int)
  /-- `executeFunc` pushes the job. -/
  | pushBack
  deriving Repr, DecidableEq

/-- `executeFunc` makes a job. -/
def Shell.make (s : Shell) (args : List String) (toEx : Int) : Shell :=
  match newId s.lists.curr with
  | .error failure => { s with failure := some failure }
  | .ok id =>
      { s with
        newJob := some ⟨jobName args, toEx, id⟩
        numbered := s.numbered ++ [(ids s.lists.curr, id)] }

/-- One step of a shell that has not failed. -/
def launchNext : LabelledStep Happening Shell
  | .other (.starts _), _ => none
  | .other event, s => (step event s.lists).map fun lists => { s with lists := lists }
  | .newJob args toEx, s =>
      if s.newJob = none ∧ s.lists.process toEx ≠ none ∧
          toEx ∉ s.lists.started.map Record.mPid then
        some (s.make args toEx)
      else none
  | .pushBack, s =>
      s.newJob.bind fun record =>
        (step (.starts record) s.lists).map fun lists =>
          { s with lists := lists, newJob := none }

/-- One step. -/
def launch : LabelledStep Happening Shell :=
  fun happening s => if s.failure = none then launchNext happening s else none

/-! ## What is asked of the numbers -/

/-- One more than the largest number, or 1 where there is none. -/
def IsNext (numbers : List Int) (id : Int) : Prop :=
  (numbers = [] → id = 1) ∧
    ∀ largest ∈ numbers, (∀ other ∈ numbers, other ≤ largest) → id = largest + 1

/-- Every job got a number, the next one, and the numbers in the list are positive and
increase. -/
structure Numbered (s : Shell) : Prop where
  defined : s.failure = none
  next : ∀ entry ∈ s.numbered, IsNext entry.1 entry.2
  positive : ∀ id ∈ ids s.lists.curr, 0 < id
  increasing : (ids s.lists.curr).Pairwise (· < ·)

/-- A job is made while there is a last job, whose number is not the largest `int`. -/
def HasLast : Happening → Shell → Prop
  | .newJob _ _, s => ∃ job, s.lists.curr.getLast? = some job ∧ job.mId < intMax
  | _, _ => True

variable {s t : Shell} {happening : Happening} {event : Event} {before after : State}

/-! ## Steps -/

/-- What a step does. -/
inductive Move (s : Shell) : Happening → Shell → Prop
  | other {event : Event} {lists : State} (kept : ∀ record, event ≠ .starts record)
      (steps : step event s.lists = some lists) : Move s (.other event) { s with lists := lists }
  | newJob (args : List String) (toEx : Int) : Move s (.newJob args toEx) (s.make args toEx)
  | pushBack {record : Record} {lists : State} (made : s.newJob = some record)
      (steps : step (.starts record) s.lists = some lists) :
      Move s .pushBack { s with lists := lists, newJob := none }

theorem launch_move (steps : launch happening s = some t) : Move s happening t := by
  replace steps : launchNext happening s = some t :=
    (Option.ite_none_right_eq_some.mp steps).2
  cases happening with
  | other event =>
      cases event with
      | starts record => cases steps
      | forks | child | call | round =>
          rcases Option.map_eq_some_iff.mp steps with ⟨lists, stepped, rfl⟩
          exact .other (by simp) stepped
  | newJob args toEx =>
      rcases Option.ite_none_right_eq_some.mp steps with ⟨-, ⟨⟩⟩
      exact .newJob args toEx
  | pushBack =>
      rcases Option.bind_eq_some_iff.mp steps with ⟨record, made, pushed⟩
      rcases Option.map_eq_some_iff.mp pushed with ⟨lists, stepped, rfl⟩
      exact .pushBack made stepped

/-- Making a job leaves the list alone. -/
theorem make_lists (s : Shell) (args : List String) (toEx : Int) :
    (s.make args toEx).lists = s.lists := by
  unfold Shell.make
  split <;> rfl

/-- The lists of a run are those of a run of `step`. -/
theorem reachable_lists (reachable : Reachable launch .start s) :
    Reachable step .start s.lists := by
  refine Reachable.invariant (P := fun s => Reachable step .start s.lists) reachable .refl ?_
  intro happening s t before steps
  cases launch_move steps with
  | other kept stepped => exact before.tail stepped
  | newJob args toEx =>
      rw [make_lists]
      exact before
  | pushBack made stepped => exact before.tail stepped

/-- Only a start adds a number to the list. -/
theorem ids_sublist (steps : step event before = some after)
    (kept : ∀ record, event ≠ .starts record) :
    (ids after.curr).Sublist (ids before.curr) := by
  cases step_effect steps with
  | forks | child => exact List.Sublist.refl _
  | starts => exact absurd rfl (kept _)
  | call =>
      rw [eraseTerminated_eq]
      exact List.filter_sublist.map _
  | report place =>
      unfold reportRound
      split
      · exact List.Sublist.refl _
      · split
        · exact (List.eraseIdx_sublist _ _).map _
        · exact List.Sublist.refl _
  | mark place =>
      unfold markRound
      split
      · exact List.Sublist.refl _
      · rename_i job found
        split
        · rcases split_of_getElem? found with ⟨seen, ahead, split, length⟩
          rw [set_of_split split length, split]
          simp [ids]
        · exact List.Sublist.refl _

/-! ## The last number is the largest -/

variable {numbers : List Int} {last id : Int}

theorem isNext_append_iff (increasing : (numbers ++ [last]).Pairwise (· < ·)) :
    IsNext (numbers ++ [last]) id ↔ id = last + 1 := by
  have below : ∀ other ∈ numbers ++ [last], other ≤ last := by
    intro other member
    rcases List.mem_append.mp member with earlier | here
    · exact Int.le_of_lt ((List.pairwise_append.mp increasing).2.2 other earlier last
        List.mem_cons_self)
    · exact Int.le_of_eq (List.mem_singleton.mp here)
  have isLast : last ∈ numbers ++ [last] := List.mem_append_right _ List.mem_cons_self
  constructor
  · intro next
    exact next.2 last isLast below
  · rintro rfl
    refine ⟨by simp, fun largest member above => ?_⟩
    rw [Int.le_antisymm (below largest member) (above last isLast)]

/-- The next number is positive and above the others. -/
theorem IsNext.above (next : IsNext numbers id) (positive : ∀ other ∈ numbers, 0 < other)
    (increasing : numbers.Pairwise (· < ·)) : 0 < id ∧ ∀ other ∈ numbers, other < id := by
  rcases List.eq_nil_or_concat numbers with rfl | ⟨earlier, last, rfl⟩
  · simp [next.1 rfl]
  · rw [List.concat_eq_append] at *
    obtain rfl := (isNext_append_iff increasing).mp next
    have isPositive := positive last (List.mem_append_right _ List.mem_cons_self)
    refine ⟨by omega, fun other member => ?_⟩
    rcases List.mem_append.mp member with before | here
    · have less := (List.pairwise_append.mp increasing).2.2 other before last List.mem_cons_self
      omega
    · rw [List.mem_singleton.mp here]
      omega

/-- A number is taken when there is a last job with a successor. -/
theorem newId_eq_ok_iff {jobList : List Job} :
    newId jobList = .ok id ↔
      ∃ job, jobList.getLast? = some job ∧ job.mId < intMax ∧ id = job.mId + 1 := by
  unfold newId
  split
  · rename_i none
    simp [none]
  · rename_i job last
    split
    · rename_i small
      simp [last, small, eq_comm]
    · rename_i large
      simp [last, large]

/-- The number that `executeFunc` takes is the next one. -/
theorem isNext_of_newId {jobList : List Job} (increasing : (ids jobList).Pairwise (· < ·))
    (taken : newId jobList = .ok id) : IsNext (ids jobList) id := by
  rcases newId_eq_ok_iff.mp taken with ⟨job, last, -, rfl⟩
  rcases List.getLast?_eq_some_iff.mp last with ⟨earlier, rfl⟩
  have numbers : ids (earlier ++ [job]) = ids earlier ++ [job.mId] := by simp [ids]
  rw [numbers] at increasing ⊢
  exact (isNext_append_iff increasing).mpr rfl

/-! ## Runs -/

/-- What holds in a run as long as the numbers are right. -/
structure Counting (s : Shell) : Prop where
  numbered : Numbered s
  pending : ∀ record, s.newJob = some record →
    0 < record.mId ∧ ∀ id ∈ ids s.lists.curr, id < record.mId

theorem counting_start : Counting .start where
  numbered := ⟨rfl, by simp [Shell.start], by simp [Shell.start, State.start, ids], .nil⟩
  pending := by simp [Shell.start]

/-- A step that adds no number to the list. -/
theorem Counting.of_sublist (counting : Counting s)
    (sublist : (ids after.curr).Sublist (ids s.lists.curr)) :
    Counting { s with lists := after } where
  numbered := {
    defined := counting.numbered.defined
    next := counting.numbered.next
    positive := fun id member => counting.numbered.positive id (sublist.subset member)
    increasing := counting.numbered.increasing.sublist sublist }
  pending := by
    intro record made
    have pending := counting.pending record made
    exact ⟨pending.1, fun id member => pending.2 id (sublist.subset member)⟩

theorem Counting.pushBack (counting : Counting s) {record : Record} (made : s.newJob = some record)
    (steps : step (.starts record) s.lists = some after) :
    Counting { s with lists := after, newJob := none } := by
  rcases counting.pending record made with ⟨isPositive, above⟩
  have pushed : ids after.curr = ids s.lists.curr ++ [record.mId] := by
    cases step_effect steps
    simp [ids]
  refine ⟨⟨counting.numbered.defined, counting.numbered.next, ?_, ?_⟩, by simp⟩
  · intro id member
    rw [pushed] at member
    rcases List.mem_append.mp member with earlier | here
    · exact counting.numbered.positive id earlier
    · exact List.mem_singleton.mp here ▸ isPositive
  · rw [pushed, List.pairwise_append]
    refine ⟨counting.numbered.increasing, List.pairwise_singleton _ _, ?_⟩
    intro id member last here
    exact List.mem_singleton.mp here ▸ above id member

theorem Counting.make (counting : Counting s) (args : List String) (toEx : Int)
    (taken : newId s.lists.curr = .ok id) : Counting (s.make args toEx) := by
  have next := isNext_of_newId counting.numbered.increasing taken
  unfold Shell.make
  rw [taken]
  exact {
    numbered := {
      defined := counting.numbered.defined
      next := by
        intro entry member
        rcases List.mem_append.mp member with earlier | here
        · exact counting.numbered.next entry earlier
        · exact List.mem_singleton.mp here ▸ next
      positive := counting.numbered.positive
      increasing := counting.numbered.increasing }
    pending := by
      rintro record ⟨⟩
      exact next.above counting.numbered.positive counting.numbered.increasing }

/-- A step keeps the numbers right unless it makes a job without a last one. -/
theorem counting_step_iff (counting : Counting s) (steps : launch happening s = some t) :
    (Numbered t ↔ HasLast happening s) ∧ (Numbered t → Counting t) := by
  cases launch_move steps with
  | other kept stepped =>
      have behind := counting.of_sublist (ids_sublist stepped kept)
      exact ⟨iff_of_true behind.numbered True.intro, fun _ => behind⟩
  | pushBack made stepped =>
      have behind := counting.pushBack made stepped
      exact ⟨iff_of_true behind.numbered True.intro, fun _ => behind⟩
  | newJob args toEx =>
      cases taken : newId s.lists.curr with
      | ok id =>
          have behind := counting.make args toEx taken
          rcases newId_eq_ok_iff.mp taken with ⟨job, last, small, -⟩
          exact ⟨iff_of_true behind.numbered ⟨job, last, small⟩, fun _ => behind⟩
      | error failure =>
          have fails : ¬ Numbered (s.make args toEx) := by
            intro numbered
            have defined := numbered.defined
            simp [Shell.make, taken] at defined
          refine ⟨iff_of_false fails ?_, fun numbered => absurd numbered fails⟩
          rintro ⟨job, last, small⟩
          cases taken.symm.trans (newId_eq_ok_iff.mpr ⟨job, last, small, rfl⟩)

/-- Over a run every job gets a number, the next one, and the numbers of the list are positive
and increase exactly when each job is made while there is a last one, whose number has a
successor. The run may start in any state in which the numbers are right. -/
theorem numbered_iff (counting : Counting s) (happenings : List Happening) :
    Throughout launch Numbered happenings s ↔ Along launch HasLast happenings s :=
  throughout_iff_along (fun _ _ _ counting steps => counting_step_iff counting steps)
    counting counting.numbered

/-- A shell with one background job. -/
def oneJob : Shell where
  lists :=
    { State.start with
      curr := [⟨⟨" sleep 100", 7, 4⟩, .running⟩]
      process := Function.update (fun _ => none) 7 (some .running)
      started := [⟨" sleep 100", 7, 4⟩] }
  newJob := none
  numbered := []
  failure := none

/-- From the start of the shell, and from a shell with the job 4, which starts another one. -/
theorem numbered_iff_sleep :
    (Throughout launch Numbered [.other (.forks 7), .newJob ["sleep", "100"] 7, .pushBack] .start ↔
      Along launch HasLast [.other (.forks 7), .newJob ["sleep", "100"] 7, .pushBack] .start) ∧
    (Throughout launch Numbered [.other (.forks 9), .newJob ["sleep", "5"] 9, .pushBack] oneJob ↔
      Along launch HasLast [.other (.forks 9), .newJob ["sleep", "5"] 9, .pushBack] oneJob) := by
  refine ⟨numbered_iff counting_start _, numbered_iff ?_ _⟩
  exact ⟨⟨rfl, by simp [oneJob], by simp [oneJob, ids], List.pairwise_singleton _ _⟩,
    by simp [oneJob]⟩

/-- The first background job. -/
theorem numbered_fails :
    ¬Throughout launch Numbered [.other (.forks 7), .newJob ["sleep", "100"] 7] .start := by
  rintro ⟨-, afterFork⟩
  rcases afterFork _ rfl with ⟨-, afterMaking⟩
  cases (afterMaking _ rfl).defined

end QuashLabs.QuashProj.Numbering
