import Mathlib.Data.List.Nodup
import QuashLabs.QuashProj.Jobs

/-!
# What `updateJobList` announces

The announced jobs and those that are in the list without a mark are together the
started jobs, whatever happens to the children. So a job is announced at most once and
no job is lost. That an announced job has ended depends on the children: the second loop
takes a child that was continued for one that has ended.
-/

namespace QuashLabs.QuashProj

open QuashLabs.Transition

variable {s t : State} {job : Job} {curr seen ahead : List Job} {i : Nat}

/-! ## The records without a mark -/

/-- The records of the jobs that are not marked. -/
def openRecords (curr : List Job) : List Record :=
  (curr.filter fun job => job.mySt ≠ .terminated).map Job.toRecord

theorem eraseTerminated_eq (curr : List Job) :
    eraseTerminated curr = curr.filter fun job => job.mySt ≠ .terminated := by
  induction curr with
  | nil => rfl
  | cons job rest ih =>
      by_cases marked : job.mySt = .terminated
      · simp [eraseTerminated, marked, ih]
      · simp [eraseTerminated, marked, ih]

/-- Marked jobs are none of them. -/
theorem openRecords_eraseTerminated (curr : List Job) :
    openRecords (eraseTerminated curr) = openRecords curr := by
  rw [eraseTerminated_eq, openRecords, List.filter_filter, openRecords]
  simp

theorem openRecords_append (curr more : List Job) :
    openRecords (curr ++ more) = openRecords curr ++ openRecords more := by
  simp [openRecords]

theorem openRecords_cons_of_ne (unmarked : job.mySt ≠ .terminated) (rest : List Job) :
    openRecords (job :: rest) = job.toRecord :: openRecords rest := by
  simp [openRecords, unmarked]

theorem openRecords_cons_of_eq (marked : job.mySt = .terminated) (rest : List Job) :
    openRecords (job :: rest) = openRecords rest := by
  simp [openRecords, marked]

/-- The list around a position. -/
theorem split_of_getElem? (found : curr[i]? = some job) :
    ∃ seen ahead, curr = seen ++ job :: ahead ∧ seen.length = i := by
  obtain ⟨inside, rfl⟩ := List.getElem?_eq_some_iff.mp found
  refine ⟨curr.take i, curr.drop (i + 1), ?_, List.length_take_of_le (Nat.le_of_lt inside)⟩
  rw [← List.drop_eq_getElem_cons, List.take_append_drop]

/-- Another job at a position. -/
theorem set_of_split (split : curr = seen ++ job :: ahead) (length : seen.length = i)
    (other : Job) :
    curr.set i other = seen ++ other :: ahead := by
  rw [split, List.set_append_right _ _ (Nat.le_of_eq length), length, Nat.sub_self,
    List.set_cons_zero]

/-! ## The books -/

/-- The announced and the unmarked jobs are the started ones. -/
structure Books (curr : List Job) (announced started : List Record) : Prop where
  perm : (announced ++ openRecords curr).Perm started
  pids : (started.map Record.mPid).Nodup
  kept : (curr.map Job.toRecord).Sublist started
  states : ∀ job ∈ curr, job.mySt = .running ∨ job.mySt = .terminated

variable {announced started : List Record}

theorem Books.started_nodup (books : Books curr announced started) : started.Nodup :=
  List.Nodup.of_map _ books.pids

/-- A new job goes to the back of the list. -/
theorem Books.start (books : Books curr announced started) {record : Record}
    (new : record.mPid ∉ started.map Record.mPid) :
    Books (curr ++ [⟨record, .running⟩]) announced (started ++ [record]) where
  perm := by
    rw [openRecords_append, ← List.append_assoc]
    exact books.perm.append_right _
  pids := by
    rw [List.map_append, List.nodup_append]
    refine ⟨books.pids, List.nodup_singleton _, ?_⟩
    rintro pid old _ last rfl
    rw [List.map_singleton, List.mem_singleton] at last
    exact new (last ▸ old)
  kept := by
    rw [List.map_append]
    exact books.kept.append (List.Sublist.refl _)
  states := by
    intro job member
    rcases List.mem_append.mp member with old | last
    · exact books.states job old
    · rw [List.mem_singleton.mp last]
      exact .inl rfl

/-- Marked jobs are dropped. -/
theorem Books.eraseTerminated (books : Books curr announced started) :
    Books (eraseTerminated curr) announced started where
  perm := by
    rw [openRecords_eraseTerminated]
    exact books.perm
  pids := books.pids
  kept := by
    rw [eraseTerminated_eq]
    exact (List.filter_sublist.map _).trans books.kept
  states := by
    intro job member
    rw [eraseTerminated_eq] at member
    exact books.states job (List.mem_of_mem_filter member)

/-- An unmarked job is announced and erased. -/
theorem Books.announce_erase (books : Books (seen ++ job :: ahead) announced started)
    (unmarked : job.mySt ≠ .terminated) :
    Books (seen ++ ahead) (announced ++ [job.toRecord]) started where
  perm := by
    refine List.Perm.trans ?_ books.perm
    rw [openRecords_append, openRecords_append, openRecords_cons_of_ne unmarked, List.append_assoc,
      List.singleton_append]
    exact List.perm_middle.symm.append_left announced
  pids := books.pids
  kept := ((List.sublist_cons_self job ahead).append_left seen).map _ |>.trans books.kept
  states other member := by
    apply books.states other
    simp only [List.mem_append, List.mem_cons] at member ⊢
    exact member.imp_right .inr

/-- An unmarked job is announced and marked. -/
theorem Books.announce_mark (books : Books (seen ++ job :: ahead) announced started)
    (unmarked : job.mySt ≠ .terminated) :
    Books (seen ++ { job with mySt := .terminated } :: ahead) (announced ++ [job.toRecord])
      started where
  perm := by
    have marked : openRecords (seen ++ { job with mySt := .terminated } :: ahead) =
        openRecords (seen ++ ahead) := by
      rw [openRecords_append, openRecords_append, openRecords_cons_of_eq rfl]
    rw [marked]
    exact (books.announce_erase unmarked).perm
  pids := books.pids
  kept := by
    have kept := books.kept
    rw [List.map_append, List.map_cons] at kept ⊢
    exact kept
  states other member := by
    rcases List.mem_append.mp member with before | behind
    · exact books.states other (List.mem_append_left _ before)
    · rcases List.mem_cons.mp behind with rfl | after
      · exact .inr rfl
      · exact books.states other (List.mem_append_right _ (List.mem_cons_of_mem _ after))

theorem mem_openRecords {record : Record} :
    record ∈ openRecords curr ↔ ∃ job ∈ curr, job.mySt ≠ .terminated ∧ job.toRecord = record := by
  simp [openRecords, and_assoc]

/-- A job that is marked or removed is announced. -/
theorem Books.announced_of_not_open (books : Books curr announced started) {record : Record}
    (member : record ∈ started) (closed : record ∉ openRecords curr) : record ∈ announced :=
  (List.mem_append.mp (books.perm.mem_iff.mpr member)).resolve_right closed

/-- The books give what does not depend on the children. -/
theorem Books.faithful (books : Books s.curr s.announced s.started)
    (ended : ∀ record ∈ s.announced, Ended (s.process record.mPid)) : Faithful s where
  announced := ended
  marked := by
    intro job member marked
    have started := books.kept.subset (List.mem_map_of_mem member)
    apply ended _ (books.announced_of_not_open started _)
    intro isOpen
    obtain ⟨other, member', unmarked, same⟩ := mem_openRecords.mp isOpen
    have distinct : (s.curr.map Job.toRecord).Nodup := books.started_nodup.sublist books.kept
    obtain rfl := List.inj_on_of_nodup_map distinct member' member same
    exact unmarked marked
  removed := by
    intro record member removed
    apply ended _ (books.announced_of_not_open member _)
    intro isOpen
    obtain ⟨job, member', -, rfl⟩ := mem_openRecords.mp isOpen
    exact removed (List.mem_map_of_mem member')
  once := List.Nodup.of_append_left (books.perm.nodup_iff.mpr books.started_nodup)
  kept := books.kept
  remains := by
    intro record member unannounced
    have isOpen : record ∈ openRecords s.curr := by
      by_contra closed
      exact unannounced (books.announced_of_not_open member closed)
    obtain ⟨job, member', unmarked, rfl⟩ := mem_openRecords.mp isOpen
    have running := (books.states job member').resolve_right unmarked
    rw [← running]
    exact member'

/-! ## The children -/

variable {wcontinued : Bool} {pid : Int} {process : Option Process}

/-- What `waitpid` reports is an end, or a continuation where that is asked for. -/
theorem ended_of_waitpid (reported : (waitpid wcontinued pid process).1 ≠ 0)
    (child : process ≠ none)
    (uncontinued : wcontinued = true → process ≠ some .continued) : Ended process := by
  cases process with
  | none => exact absurd rfl child
  | some process =>
      cases process with
      | running => exact absurd rfl reported
      | stopped => exact absurd rfl reported
      | continued =>
          cases wcontinued with
          | false => exact absurd rfl reported
          | true => exact absurd rfl (uncontinued rfl)
      | terminated => exact .inl rfl
      | reaped => exact .inr rfl

/-- A child stays a child, and it stays at its end. -/
structure Onward (before after : Option Process) : Prop where
  child : before ≠ none → after ≠ none
  ended : Ended before → Ended after

theorem Onward.refl (process : Option Process) : Onward process process := ⟨id, id⟩

theorem onward_waitpid : Onward process (waitpid wcontinued pid process).2 := by
  cases process with
  | none => exact .refl none
  | some process =>
      cases process with
      | continued => cases wcontinued <;> exact ⟨nofun, fun ended => by simp [Ended] at ended⟩
      | terminated => exact ⟨nofun, fun _ => .inr rfl⟩
      | _ => exact .refl _

theorem onward_change {change : Change} {before after : Process}
    (changes : change.apply before = some after) : Onward (some before) (some after) := by
  refine ⟨nofun, fun ended => ?_⟩
  rcases ended with ended | ended <;> cases ended
  · cases change <;> cases changes
    exact .inr rfl
  · cases change <;> cases changes

theorem onward_update {before : Int → Option Process} (moves : Onward (before pid) process)
    (other : Int) : Onward (before other) (Function.update before pid process other) := by
  by_cases same : other = pid
  · subst same
    rw [Function.update_self]
    exact moves
  · rw [Function.update_of_ne same]
    exact .refl _

/-- What a step does to the list and the children. -/
inductive Effect (s : State) : Event → State → Prop
  | forks {pid : Int} (positive : 0 < pid) (unused : s.process pid = none) :
      Effect s (.forks pid)
        { s with process := Function.update s.process pid (some .running) }
  | starts {record : Record} (outside : s.place = .outside)
      (child : s.process record.mPid ≠ none) (new : record.mPid ∉ s.started.map Record.mPid) :
      Effect s (.starts record)
        { s with curr := s.curr ++ [⟨record, .running⟩], started := s.started ++ [record] }
  | child {pid : Int} {change : Change} {before after : Process}
      (here : s.process pid = some before) (changes : change.apply before = some after) :
      Effect s (.child pid change)
        { s with process := Function.update s.process pid (some after) }
  | call (outside : s.place = .outside) :
      Effect s .call { s with curr := eraseTerminated s.curr, place := .report 0 }
  | report {i : Nat} (place : s.place = .report i) : Effect s .round (reportRound i s)
  | mark {i : Nat} (place : s.place = .mark i) : Effect s .round (markRound i s)

theorem step_effect {event : Event} (steps : step event s = some t) : Effect s event t := by
  cases event with
  | forks pid =>
      obtain ⟨⟨positive, unused⟩, ⟨⟩⟩ := Option.ite_none_right_eq_some.mp steps
      exact .forks positive unused
  | starts record =>
      obtain ⟨⟨outside, child, new⟩, ⟨⟩⟩ := Option.ite_none_right_eq_some.mp steps
      exact .starts outside child new
  | child pid change =>
      obtain ⟨after, changes, rfl⟩ := Option.map_eq_some_iff.mp steps
      obtain ⟨before, here, changes⟩ := Option.bind_eq_some_iff.mp changes
      exact .child here changes
  | call =>
      obtain ⟨outside, ⟨⟩⟩ := Option.ite_none_right_eq_some.mp steps
      exact .call outside
  | round =>
      cases place : s.place with
      | outside => simp [step, place] at steps
      | report i =>
          obtain rfl : reportRound i s = t := by simpa [step, place] using steps
          exact .report place
      | mark i =>
          obtain rfl : markRound i s = t := by simpa [step, place] using steps
          exact .mark place

/-- No step takes a child away or brings it back from its end. -/
theorem step_onward {event : Event} (steps : step event s = some t) (pid : Int) :
    Onward (s.process pid) (t.process pid) := by
  cases step_effect steps with
  | forks positive unused =>
      apply onward_update
      rw [unused]
      exact ⟨fun child => absurd rfl child, fun ended => by simp [Ended] at ended⟩
  | starts outside child new => exact .refl _
  | child here changes =>
      apply onward_update
      rw [here]
      exact onward_change changes
  | call outside => exact .refl _
  | report place =>
      unfold reportRound
      split
      · exact .refl _
      · split <;> exact onward_update onward_waitpid pid
  | mark place =>
      unfold markRound
      split
      · exact .refl _
      · split <;> exact onward_update onward_waitpid pid

/-! ## Every run keeps the books -/

/-- The position from which on no job of the list is marked. -/
def Place.unmarkedFrom : Place → Option Nat
  | .outside => none
  | .report _ => some 0
  | .mark i => some i

/-- What holds in every run, whatever happens to the children. -/
structure Bookkept (s : State) : Prop where
  books : Books s.curr s.announced s.started
  positive : ∀ pid, s.process pid ≠ none → 0 < pid
  known : ∀ record ∈ s.started, s.process record.mPid ≠ none
  unmarked : ∀ i, s.place.unmarkedFrom = some i → ∀ job ∈ s.curr.drop i, job.mySt ≠ .terminated

theorem bookkept_start : Bookkept .start where
  books := ⟨.nil, .nil, .slnil, nofun⟩
  positive _ child := absurd rfl child
  known := nofun
  unmarked := nofun

/-- The job at the position of a round has a process and no mark. -/
theorem Bookkept.at_round (bookkept : Bookkept s) {j : Nat} (place : s.place.unmarkedFrom = some j)
    (behind : j ≤ i) (found : s.curr[i]? = some job) :
    job.mySt ≠ .terminated ∧ s.process job.mPid ≠ none := by
  constructor
  · apply bookkept.unmarked j place
    rw [List.mem_iff_getElem?]
    exact ⟨i - j, by rw [List.getElem?_drop, Nat.add_sub_cancel' behind, found]⟩
  · apply bookkept.known job.toRecord
    exact bookkept.books.kept.subset (List.mem_map_of_mem (List.mem_of_getElem? found))

theorem positive_update {before : Int → Option Process}
    (positive : ∀ pid, before pid ≠ none → 0 < pid) (new : 0 < pid) (other : Int)
    (child : Function.update before pid process other ≠ none) : 0 < other := by
  by_cases same : other = pid
  · exact same ▸ new
  · rw [Function.update_of_ne same] at child
    exact positive other child

/-- What a round leaves of the children. -/
theorem Bookkept.waited (bookkept : Bookkept s) (child : s.process pid ≠ none) :
    (∀ other, s.waited wcontinued pid other ≠ none → 0 < other) ∧
      ∀ record ∈ s.started, s.waited wcontinued pid record.mPid ≠ none := by
  constructor
  · exact positive_update bookkept.positive (bookkept.positive pid child)
  · intro record member
    exact (onward_update onward_waitpid record.mPid).child (bookkept.known record member)

theorem Bookkept.reportRound (bookkept : Bookkept s) (place : s.place = .report i) :
    Bookkept (reportRound i s) := by
  have unmarked : ∀ job ∈ s.curr, job.mySt ≠ .terminated := bookkept.unmarked 0 (by rw [place]; rfl)
  unfold QuashProj.reportRound
  split
  · refine ⟨bookkept.books, bookkept.positive, bookkept.known, ?_⟩
    rintro _ ⟨⟩ job member
    exact unmarked job member
  · rename_i job found
    obtain ⟨open_, child⟩ := bookkept.at_round (by rw [place]; rfl) (Nat.zero_le i) found
    obtain ⟨positive, known⟩ := bookkept.waited child
    split
    · obtain ⟨seen, ahead, split, length⟩ := split_of_getElem? found
      have erased : s.curr.eraseIdx i = seen ++ ahead := by
        rw [split, List.eraseIdx_append_of_length_le (Nat.le_of_eq length), length, Nat.sub_self]
        rfl
      refine ⟨?_, positive, known, ?_⟩
      · rw [erased]
        exact (split ▸ bookkept.books).announce_erase open_
      · rintro _ ⟨⟩ other member
        rw [List.drop_zero] at member
        exact unmarked other (List.mem_of_mem_eraseIdx member)
    · refine ⟨bookkept.books, positive, known, ?_⟩
      rintro _ ⟨⟩ other member
      exact unmarked other member

theorem Bookkept.markRound (bookkept : Bookkept s) (place : s.place = .mark i) :
    Bookkept (markRound i s) := by
  have unmarked : ∀ job ∈ s.curr.drop i, job.mySt ≠ .terminated :=
    bookkept.unmarked i (by rw [place]; rfl)
  unfold QuashProj.markRound
  split
  · exact ⟨bookkept.books, bookkept.positive, bookkept.known, nofun⟩
  · rename_i job found
    obtain ⟨open_, child⟩ := bookkept.at_round (by rw [place]; rfl) (Nat.le_refl i) found
    obtain ⟨positive, known⟩ := bookkept.waited child
    obtain ⟨seen, ahead, split, length⟩ := split_of_getElem? found
    split
    · refine ⟨?_, positive, known, ?_⟩
      · rw [set_of_split split length]
        exact (split ▸ bookkept.books).announce_mark open_
      · rintro _ ⟨⟩ other member
        rw [List.drop_set_of_lt (Nat.lt_succ_self i)] at member
        exact unmarked other (List.drop_subset_drop_left _ (Nat.le_succ i) member)
    · refine ⟨bookkept.books, positive, known, ?_⟩
      rintro _ ⟨⟩ other member
      exact unmarked other (List.drop_subset_drop_left _ (Nat.le_succ i) member)

theorem Bookkept.step (bookkept : Bookkept s) {event : Event} (steps : step event s = some t) :
    Bookkept t := by
  have known : ∀ record ∈ s.started, t.process record.mPid ≠ none := fun record member =>
    (step_onward steps record.mPid).child (bookkept.known record member)
  cases step_effect steps with
  | forks positive unused =>
      exact ⟨bookkept.books, positive_update bookkept.positive positive, known, bookkept.unmarked⟩
  | starts outside child new =>
      refine ⟨bookkept.books.start new, bookkept.positive, ?_, ?_⟩
      · intro other member
        rcases List.mem_append.mp member with old | last
        · exact bookkept.known other old
        · rw [List.mem_singleton.mp last]
          exact child
      · intro i place
        rw [outside] at place
        cases place
  | child here changes =>
      have positive := bookkept.positive _ (here ▸ Option.some_ne_none _)
      exact ⟨bookkept.books, positive_update bookkept.positive positive, known, bookkept.unmarked⟩
  | call outside =>
      refine ⟨bookkept.books.eraseTerminated, bookkept.positive, bookkept.known, ?_⟩
      rintro _ ⟨⟩ job member
      rw [List.drop_zero, eraseTerminated_eq] at member
      exact of_decide_eq_true (List.mem_filter.mp member).2
  | report place => exact bookkept.reportRound place
  | mark place => exact bookkept.markRound place

/-! ## Which announcements are right -/

/-- What a step announces: nothing, or the job at the position of the round, for which
`waitpid` has reported something. -/
theorem step_announced {event : Event} (steps : step event s = some t) :
    t.announced = s.announced ∨
      event = .round ∧ ∃ i job wcontinued, s.curr[i]? = some job ∧
        s.place = (if wcontinued = true then .report i else .mark i) ∧
        (waitpid wcontinued job.mPid (s.process job.mPid)).1 ≠ 0 ∧
        t.process = s.waited wcontinued job.mPid ∧
        t.announced = s.announced ++ [job.toRecord] := by
  cases step_effect steps with
  | forks | starts | child | call => exact .inl rfl
  | report place =>
      unfold reportRound
      split
      · exact .inl rfl
      · rename_i job found
        split
        · rename_i reported
          exact .inr ⟨rfl, _, job, true, found, place, reported, rfl, rfl⟩
        · exact .inl rfl
  | mark place =>
      unfold markRound
      split
      · exact .inl rfl
      · rename_i job found
        split
        · rename_i reported
          exact .inr ⟨rfl, _, job, false, found, place, reported, rfl, rfl⟩
        · exact .inl rfl

/-- A job whose continuation is reported is announced while its process runs. -/
theorem not_faithful_of_continued (bookkept : Bookkept s) (place : s.place = .report i)
    (found : s.curr[i]? = some job) (continued : s.process job.mPid = some .continued)
    (steps : step .round s = some t) : ¬Faithful t := by
  have child : s.process job.mPid ≠ none := by simp [continued]
  have reported : (waitpid true job.mPid (s.process job.mPid)).1 ≠ 0 := by
    rw [continued]
    exact Int.ne_of_gt (bookkept.positive _ child)
  obtain rfl : reportRound i s = t := by simpa [step, place] using steps
  intro faithful
  rw [reportRound, found] at faithful
  simp only [if_pos reported] at faithful
  have ended := faithful.announced job.toRecord (List.mem_append_right _ List.mem_cons_self)
  simp [State.waited, continued, waitpid, Ended] at ended

/-- A step keeps the announcements right unless it reports a continuation. -/
theorem faithful_step_iff (bookkept : Bookkept s) (faithful : Faithful s) {event : Event}
    (steps : step event s = some t) : Faithful t ↔ Uncontinued event s := by
  constructor
  · intro right
    cases event with
    | round =>
        intro i job place found continued
        exact not_faithful_of_continued bookkept place found continued steps right
    | _ => trivial
  · intro uncontinued
    apply (bookkept.step steps).books.faithful
    intro record member
    rcases step_announced steps with same | ⟨rfl, i, job, wcontinued, found, place, reported, after,
      announced⟩
    · exact (step_onward steps _).ended (faithful.announced record (same ▸ member))
    · rw [announced, List.mem_append, List.mem_singleton] at member
      rcases member with old | rfl
      · exact (step_onward steps _).ended (faithful.announced record old)
      · apply (step_onward steps _).ended
        apply ended_of_waitpid reported
        · exact bookkept.known _
            (bookkept.books.kept.subset (List.mem_map_of_mem (List.mem_of_getElem? found)))
        · rintro rfl
          exact uncontinued i job place found

/-- Over a run every announcement is right, made once and about a job that has ended, and
every other job stays in its place, exactly when the second loop meets no job whose
continuation is still to be reported. -/
theorem announcements_faithful_iff (events : List Event) :
    Throughout step Faithful events .start ↔ Along step Uncontinued events .start := by
  have begins : Faithful .start := bookkept_start.books.faithful nofun
  have each : ∀ ⦃event s t⦄, Bookkept s ∧ Faithful s → step event s = some t →
      (Faithful t ↔ Uncontinued event s) ∧ (Faithful t → Bookkept t ∧ Faithful t) := by
    rintro event s t ⟨bookkept, faithful⟩ steps
    exact ⟨faithful_step_iff bookkept faithful steps, fun right => ⟨bookkept.step steps, right⟩⟩
  exact throughout_iff_along each ⟨bookkept_start, begins⟩ begins

/-- The background job `sleep 100`, stopped and continued, and a command in the foreground
whose end calls the handler. -/
def continuedJob : List Event :=
  [.forks 7, .starts ⟨" sleep 100", 7, 1⟩, .child 7 .stops, .child 7 .continues, .forks 8,
    .child 8 .terminates, .child 8 .isReaped, .call, .round]

/-- A continued job is announced as finished and removed. -/
theorem announcements_faithful_fails :
    ¬∀ events, Throughout step Faithful events .start := by
  intro throughout
  have reachable : Reachable step .start _ :=
    .of_runLabels (rfl : runLabels step continuedJob .start = some _)
  have faithful := always_iff_throughout.mpr throughout _ reachable
  rcases faithful.announced ⟨" sleep 100", 7, 1⟩ List.mem_cons_self with ended | ended
  · cases ended
  · cases ended

end QuashLabs.QuashProj
