import QuashLabs.PtCount.Totals

/-!
# The mutex makes the three steps one

A thread of `ptcount_mutex.c` that is about to write the counter is seen as one that is
about to add to it, so the lock, the load and the unlock are not seen at all. Seen so, the
states of the program with the mutex are those of the program with the atomic operation,
as long as all the additions together stay within `int`.
-/

namespace QuashLabs.PtCount

open QuashLabs.Transition

variable {numThreads : Nat} {args : ThreadArgs} {p q : Nat} {s t : State}

/-! ## The critical section -/

/-- The places between the lock and the unlock. -/
def Place.critical : Place → Bool
  | .load _ | .store _ _ | .unlock _ => true
  | _ => false

/-- The mutex is held from the lock to the unlock, what a thread has read there is still
in the counter, and no thread adds without it. -/
structure Exclusive (s : State) : Prop where
  holder : ∀ p, (s.place p).critical = true ↔ s.countMutex = some p
  read : ∀ p i value, s.place p = .store i value → value = s.count
  locks : ∀ p i, s.place p ≠ .addFetch i

theorem initialState_exclusive : Exclusive initialState :=
  ⟨fun _ => iff_of_false nofun nofun, nofun, nofun⟩

/-- A place that a thread comes to without an atomic addition. -/
theorem Exclusive.locks_update (exclusive : Exclusive s) {place : Place}
    (locks : ∀ i, place ≠ .addFetch i) (places : t.place = Function.update s.place p place) :
    ∀ q i, t.place q ≠ .addFetch i := by
  intro q i
  rw [places, Function.update_apply]
  split
  · exact locks i
  · exact exclusive.locks q i

/-- A thread goes on outside the critical section. -/
theorem Exclusive.outside (exclusive : Exclusive s) (place : Place)
    (before : (s.place p).critical = false) (after : place.critical = false)
    (locks : ∀ i, place ≠ .addFetch i) (places : t.place = Function.update s.place p place)
    (mutex : t.countMutex = s.countMutex) (count : t.count = s.count) : Exclusive t := by
  refine ⟨fun q => ?_, fun q i value stands => ?_, exclusive.locks_update locks places⟩
  · rw [places, mutex, Function.update_apply, ← exclusive.holder q]
    split
    · subst q
      rw [before, after]
    · exact Iff.rfl
  · rw [places, Function.update_apply] at stands
    rw [count]
    split at stands
    · subst stands
      exact absurd after nofun
    · exact exclusive.read q i value stands

/-- A thread comes to a place of the critical section, whose mutex it holds from now on. -/
theorem Exclusive.inside (exclusive : Exclusive s) (place : Place)
    (free : s.countMutex = none ∨ s.countMutex = some p) (after : place.critical = true)
    (reads : ∀ i value, place = .store i value → value = t.count)
    (places : t.place = Function.update s.place p place) (mutex : t.countMutex = some p) :
    Exclusive t := by
  have alone {q : Nat} (different : q ≠ p) : (s.place q).critical ≠ true := by
    rw [Ne, exclusive.holder q]
    rcases free with none | own
    · simp [none]
    · simpa [own] using Ne.symm different
  have locks : ∀ i, place ≠ .addFetch i := by
    rintro i rfl
    exact absurd after nofun
  refine ⟨fun q => ?_, fun q i value stands => ?_, exclusive.locks_update locks places⟩
  · rw [places, mutex, Function.update_apply]
    split
    · subst q
      exact iff_of_true after rfl
    · rename_i different
      exact iff_of_false (alone different) (by simpa using Ne.symm different)
  · rw [places, Function.update_apply] at stands
    split at stands
    · exact reads i value stands
    · rename_i different
      exact absurd (by rw [stands]; rfl) (alone different)

/-- A thread leaves the critical section. -/
theorem Exclusive.leave (exclusive : Exclusive s) (place : Place)
    (own : s.countMutex = some p) (after : place.critical = false)
    (locks : ∀ i, place ≠ .addFetch i) (places : t.place = Function.update s.place p place)
    (mutex : t.countMutex = none) : Exclusive t := by
  have alone {q : Nat} (different : q ≠ p) : (s.place q).critical ≠ true := by
    rw [Ne, exclusive.holder q]
    simpa [own] using Ne.symm different
  refine ⟨fun q => ?_, fun q i value stands => ?_, exclusive.locks_update locks places⟩
  · rw [places, mutex, Function.update_apply]
    split
    · exact iff_of_false (by simp [after]) nofun
    · exact iff_of_false (alone ‹_›) nofun
  · rw [places, Function.update_apply] at stands
    split at stands
    · subst stands
      exact absurd after nofun
    · exact absurd (by rw [stands]; rfl) (alone ‹_›)

/-! ## The view of a state -/

/-- A place of the program with the mutex as one of the atomic program. -/
def Place.view : Place → Place
  | .lock i | .load i | .store i _ => .addFetch i
  | .unlock i => .addLoc i
  | place => place

/-- A state with each thread seen at another place, and nobody in the critical section. -/
def State.seen (look : Place → Place) (s : State) : State :=
  { s with countMutex := none, place := fun p => look (s.place p) }

/-- A state of the program with the mutex as one of the atomic program. -/
def State.view (s : State) : State :=
  s.seen Place.view

theorem seen_move (look : Place → Place) (s : State) (p : Nat) (place : Place) :
    (s.move p place).seen look = (s.seen look).move p (look place) := by
  simp only [State.seen, State.move]
  congr 1
  exact Function.comp_update look s.place p place

theorem view_move (s : State) (p : Nat) (place : Place) :
    (s.move p place).view = s.view.move p place.view :=
  seen_move Place.view s p place

/-- `main` takes the same step where the threads that it starts and those that it waits for
are seen as they are. -/
theorem mainStep_seen {look : Place → Place} (starts : look (.test 0) = .test 0)
    (ends : ∀ place, look place = .finished ↔ place = .finished) :
    mainStep numThreads (s.seen look) = (mainStep numThreads s).map (State.seen look) := by
  unfold mainStep
  have same : (s.seen look).main = s.main := rfl
  rw [same]
  cases stands : s.main with
  | create k =>
      simp only
      split
      · have started := seen_move look s k (.test 0)
        rw [starts] at started
        rw [← started]
        rfl
      · rfl
  | join k =>
      have there : (s.seen look).place k = .finished ↔ s.place k = .finished := ends _
      simp only [there]
      split
      · split <;> rfl
      · rfl
  | printed count => rfl

/-- A thread that goes on unseen. -/
theorem view_move_same {place : Place} (same : place.view = (s.place p).view) :
    (s.move p place).view = s.view := by
  rw [view_move, same]
  simp only [State.view, State.seen, State.move]
  congr 1
  exact Function.update_eq_self p _

theorem view_eq_uncreated {place : Place} : place.view = .uncreated ↔ place = .uncreated := by
  cases place <;> simp [Place.view]

theorem view_eq_finished {place : Place} : place.view = .finished ↔ place = .finished := by
  cases place <;> simp [Place.view]

theorem mainStep_view : mainStep numThreads s.view = (mainStep numThreads s).map State.view :=
  mainStep_seen rfl fun _ => view_eq_finished

/-- `main` starts threads that have not been in the critical section. -/
theorem Exclusive.main (exclusive : Exclusive s) (joined : Joined numThreads s.view)
    (moved : mainStep numThreads s = some t) : Exclusive t := by
  cases mainStep_effect moved with
  | creates k stands more =>
      have same : s.view.main = .create k := stands
      unfold Joined at joined
      rw [same] at joined
      have new : s.place k = .uncreated :=
        view_eq_uncreated.mp ((joined.2 k more).mpr (Nat.le_refl k))
      exact exclusive.outside (.test 0) (by rw [new]; rfl) rfl nofun rfl rfl rfl
  | hasCreated | joins | prints => exact ⟨exclusive.holder, exclusive.read, exclusive.locks⟩

/-! ## The mutex program is seen as the atomic one -/

/-- No thread has added as often as all of them will, while one still has to. -/
theorem Tallied.added_lt (tallied : Tallied numThreads args s) (inside : p < numThreads)
    (more : (s.place p).added args.rounds < args.rounds) :
    load (Place.added args.rounds) s.place numThreads < numThreads * args.rounds := by
  have shift := load_update (Place.added args.rounds) s.place inside .finished
  have most : load (Place.added args.rounds) (Function.update s.place p .finished) numThreads ≤
      numThreads * args.rounds := by
    refine load_le fun q _ => ?_
    rw [Function.update_apply]
    split
    · exact Nat.le_refl _
    · exact (tallied.within q).added_le
  have last : Place.finished.added args.rounds = args.rounds := rfl
  omega

/-- While a thread is about to add, the sum that it will write is an `int`. -/
theorem Tallied.sum_fits (fits : FitsInt ((numThreads * args.rounds : Nat) * args.inc))
    (tallied : Tallied numThreads args s) (inside : p < numThreads) {i : Nat}
    (stands : s.place p = .addFetch i) : FitsInt (s.count + args.inc) := by
  have within := tallied.within p
  rw [stands] at within
  have room := tallied.added_lt inside (by rw [stands]; exact within)
  rw [tallied.count, wrapInt_of_fits (fitsInt_of_le fits (Nat.le_of_lt room)), ← succ_mul_inc]
  exact fitsInt_of_le fits room

/-- The additions of one thread are in range where those of all threads are. -/
theorem own_fits (fits : FitsInt ((numThreads * args.rounds : Nat) * args.inc))
    (inside : p < numThreads) : FitsInt (args.rounds * args.inc) :=
  fitsInt_of_le fits (Nat.le_mul_of_pos_left _ (by omega))

/-- A step of a thread of the program with the mutex is a step of the atomic program or is
not seen there. -/
theorem thread_view (fits : FitsInt ((numThreads * args.rounds : Nat) * args.inc))
    (inside : p < numThreads) (exclusive : Exclusive s) (tallied : Tallied numThreads args s.view)
    (moved : incCount .mutex args p s = some t) :
    Exclusive t ∧ (t.view = s.view ∨ incCount .atomic args p s.view = some t.view) := by
  have seen : s.view.place p = (s.place p).view := rfl
  have own (critical : (s.place p).critical = true) : s.countMutex = some p :=
    (exclusive.holder p).mp critical
  cases incCount_effect moved with
  | goesOn i stands more =>
      refine ⟨exclusive.outside (.lock i) (by rw [stands]; rfl) rfl nofun rfl rfl rfl, .inr ?_⟩
      rw [view_move]
      exact Effect.incCount (.goesOn i (by rw [seen, stands]; rfl) more)
  | ends i stands last =>
      refine ⟨exclusive.outside .finished (by rw [stands]; rfl) rfl nofun rfl rfl rfl, .inr ?_⟩
      rw [view_move]
      exact Effect.incCount (.ends i (by rw [seen, stands]; rfl) last)
  | locks i stands free =>
      exact ⟨exclusive.inside (.load i) (.inl free) rfl nofun rfl rfl,
        .inl (view_move_same (by rw [stands]; rfl))⟩
  | loads i stands =>
      have own := own (by rw [stands]; rfl)
      refine ⟨exclusive.inside (.store i s.count) (.inr own) rfl ?_ rfl own,
        .inl (view_move_same (by rw [stands]; rfl))⟩
      rintro j value same
      cases same
      rfl
  | stores i value stands sum =>
      have own := own (by rw [stands]; rfl)
      obtain rfl : value = s.count := exclusive.read p i value stands
      refine ⟨exclusive.inside (.unlock i) (.inr own) rfl nofun rfl own, .inr ?_⟩
      have adds : incCount .atomic args p s.view = _ :=
        Effect.incCount (.addsFetch i (by rw [seen, stands]; rfl))
      rw [view_move, adds]
      congr 2
      exact congrArg (fun count => ({ s.view with count } : State)) (wrapInt_of_fits sum)
  | unlocks i stands =>
      exact ⟨exclusive.leave (.addLoc i) (own (by rw [stands]; rfl)) rfl nofun rfl rfl,
        .inl (view_move_same (by rw [stands]; rfl))⟩
  | addsFetch i stands => exact absurd stands (exclusive.locks p i)
  | addsLoc i stands sum =>
      refine ⟨exclusive.outside (.test (i + 1)) (by rw [stands]; rfl) rfl nofun rfl rfl rfl,
        .inr ?_⟩
      rw [view_move]
      exact Effect.incCount (.addsLoc i (by rw [seen, stands]; rfl) sum)
  | overflows sum stands large =>
      rcases stands with ⟨i, value, stands, rfl⟩ | ⟨i, stands, rfl⟩
      · obtain rfl : value = s.count := exclusive.read p i value stands
        have adds : s.view.place p = .addFetch i := by rw [seen, stands]; rfl
        exact absurd (tallied.sum_fits fits inside adds) large
      · refine ⟨exclusive.outside .undefined (by rw [stands]; rfl) rfl nofun rfl rfl rfl, .inr ?_⟩
        rw [view_move]
        exact Effect.incCount (.overflows _ (.inr ⟨i, by rw [seen, stands]; rfl, rfl⟩) large)

/-- What the program with the mutex does is seen in the atomic program. -/
theorem view_reachable (fits : FitsInt ((numThreads * args.rounds : Nat) * args.inc))
    (reachable : Reachable (step .mutex numThreads args) initialState s) :
    Exclusive s ∧ Reachable (step .atomic numThreads args) initialState s.view := by
  refine reachable.simulated State.view initialState_exclusive ?_
  intro event s t exclusive before moved
  have tallied : Tallied numThreads args s.view := tallied_of_reachable (own_fits fits) before
  cases event with
  | thread p =>
      simp only [step] at moved
      split at moved
      · rename_i inside
        rcases thread_view fits inside exclusive tallied moved with ⟨still, same | moves⟩
        · exact ⟨still, .inl same⟩
        · exact ⟨still, .inr ⟨.thread p, (if_pos inside).trans moves⟩⟩
      · contradiction
  | main =>
      exact ⟨exclusive.main tallied.joined moved,
        .inr ⟨.main, mainStep_view.trans (congrArg _ moved)⟩⟩

/-! ## The atomic program is one view of it -/

/-- A place of the atomic program as one outside the critical section. -/
def Place.lower : Place → Place
  | .addFetch i => .lock i
  | place => place

/-- A state of the atomic program as one of the program with the mutex. -/
def State.lower (s : State) : State :=
  s.seen Place.lower

theorem lower_move (s : State) (p : Nat) (place : Place) :
    (s.move p place).lower = s.lower.move p place.lower :=
  seen_move Place.lower s p place

theorem lower_eq_finished {place : Place} : place.lower = .finished ↔ place = .finished := by
  cases place <;> simp [Place.lower]

theorem Place.Within.view_lower {rounds : Nat} {place : Place} (within : place.Within rounds) :
    place.lower.view = place := by
  cases place <;> first | rfl | exact absurd within id

theorem Tallied.view_lower (tallied : Tallied numThreads args s) : s.lower.view = s := by
  have places : (fun p => (s.place p).lower.view) = s.place :=
    funext fun p => (tallied.within p).view_lower
  change ({ s with countMutex := none, place := fun p => (s.place p).lower.view } : State) = s
  rw [places, ← tallied.free]

/-- Lock, load, store and unlock without a step of another thread between them. -/
theorem adds_reachable (inside : p < numThreads) (free : s.countMutex = none) {i : Nat}
    (stands : s.place p = .lock i) (sum : FitsInt (s.count + args.inc)) :
    Reachable (step .mutex numThreads args) s
      ({ s with count := s.count + args.inc }.move p (.addLoc i)) := by
  have runs : runLabels (step .mutex numThreads args)
      [.thread p, .thread p, .thread p, .thread p] s =
        some ({ s with count := s.count + args.inc }.move p (.addLoc i)) := by
    simp [runLabels, step, incCount, State.move, inside, stands, free, sum]
  exact .of_runLabels runs

/-- A step of the atomic program takes one or four steps of the program with the mutex. -/
theorem thread_lower (fits : FitsInt ((numThreads * args.rounds : Nat) * args.inc))
    (inside : p < numThreads) (tallied : Tallied numThreads args s)
    (moved : incCount .atomic args p s = some t) :
    Reachable (step .mutex numThreads args) s.lower t.lower := by
  have seen : s.lower.place p = (s.place p).lower := rfl
  have within := tallied.within p
  have single (moves : incCount .mutex args p s.lower = some t.lower) :
      Reachable (step .mutex numThreads args) s.lower t.lower := by
    have taken : step .mutex numThreads args (.thread p) s.lower = some t.lower :=
      (if_pos inside).trans moves
    exact .single taken
  cases incCount_effect moved with
  | goesOn i stands more =>
      apply single
      rw [lower_move]
      exact Effect.incCount (.goesOn i (by rw [seen, stands]; rfl) more)
  | ends i stands last =>
      apply single
      rw [lower_move]
      exact Effect.incCount (.ends i (by rw [seen, stands]; rfl) last)
  | addsFetch i stands =>
      have sum : FitsInt (s.count + args.inc) := tallied.sum_fits fits inside stands
      have here : s.lower.place p = .lock i := by rw [seen, stands]; rfl
      rw [lower_move, wrapInt_of_fits sum]
      exact adds_reachable inside rfl here sum
  | addsLoc i stands sum =>
      apply single
      rw [lower_move]
      exact Effect.incCount (.addsLoc i (by rw [seen, stands]; rfl) sum)
  | overflows sum stands large =>
      rcases stands with ⟨i, value, stands, rfl⟩ | ⟨i, stands, rfl⟩
      · rw [stands] at within
        exact absurd within id
      · apply single
        rw [lower_move]
        exact Effect.incCount (.overflows _ (.inr ⟨i, by rw [seen, stands]; rfl, rfl⟩) large)
  | locks i stands | loads i stands | unlocks i stands | stores i value stands =>
      rw [stands] at within
      exact absurd within id

/-- What the atomic program does can be seen in the program with the mutex. -/
theorem lower_reachable (fits : FitsInt ((numThreads * args.rounds : Nat) * args.inc))
    (reachable : Reachable (step .atomic numThreads args) initialState s) :
    Reachable (step .mutex numThreads args) initialState s.lower := by
  refine reachable.invariantOfReachable
    (P := fun s => Reachable (step .mutex numThreads args) initialState s.lower) .refl ?_
  intro event s t before lower moved
  have tallied : Tallied numThreads args s := tallied_of_reachable (own_fits fits) before
  cases event with
  | thread p =>
      simp only [step] at moved
      split at moved
      · rename_i inside
        exact lower.trans (thread_lower fits inside tallied moved)
      · contradiction
  | main =>
      have moves : step .mutex numThreads args .main s.lower = some t.lower :=
        (mainStep_seen rfl fun _ => lower_eq_finished).trans (congrArg _ moved)
      exact lower.tail moves

/-- As long as all the additions together stay within `int`, the states of the atomic
program are those of the program with the mutex as they are seen. -/
theorem mutex_seen_as_atomic (fits : FitsInt ((numThreads * args.rounds : Nat) * args.inc))
    (s : State) : Reachable (step .atomic numThreads args) initialState s ↔
      ∃ t, Reachable (step .mutex numThreads args) initialState t ∧ t.view = s := by
  constructor
  · intro reachable
    have tallied : Tallied numThreads args s := tallied_of_reachable (own_fits fits) reachable
    exact ⟨s.lower, lower_reachable fits reachable, tallied.view_lower⟩
  · rintro ⟨t, reachable, rfl⟩
    exact (view_reachable fits reachable).2

/-- The first thread has been created and has added two for the first time. -/
def firstAdded : State :=
  { initialState.move 0 (.addLoc 0) with count := 2, main := .create 1 }

theorem firstAdded_reachable : Reachable (step .atomic 3 ⟨2, 1000⟩) initialState firstAdded := by
  have run : runLabels (step .atomic 3 ⟨2, 1000⟩) [.main, .thread 0, .thread 0] initialState =
      some firstAdded := by
    simp [runLabels, step, mainStep, incCount, initialState, State.move, Program.body, wrapInt,
      firstAdded]
  exact Reachable.of_runLabels run

/-- Three threads that each add two a thousand times. -/
theorem mutex_seen_as_atomic_three :
    ∃ t, Reachable (step .mutex 3 ⟨2, 1000⟩) initialState t ∧ t.view = firstAdded :=
  (mutex_seen_as_atomic (by decide) firstAdded).mp firstAdded_reachable

end QuashLabs.PtCount
