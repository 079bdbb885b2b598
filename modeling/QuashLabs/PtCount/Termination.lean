import QuashLabs.PtCount.Refinement

/-!
# Every run ends with the full count

A step takes a thread nearer to the end of its loop, or `main` nearer to its `printf`, so
the steps are bounded. Where a run cannot go on, `main` has printed: a thread that waits for
the mutex waits for one that can go on. What it has printed is the sum of all additions,
which the atomic program wraps around.
-/

namespace QuashLabs.PtCount

open QuashLabs.Transition

variable {numThreads : Nat} {args : ThreadArgs} {program : Program} {p : Nat} {s t : State}

/-! ## Weights -/

/-- The steps of a thread that are left at most. -/
def Place.weight (rounds : Nat) : Place → Nat
  | .test i => 6 * (rounds - i) + 1
  | .lock i | .addFetch i => 6 * (rounds - (i + 1)) + 6
  | .load i => 6 * (rounds - (i + 1)) + 5
  | .store i _ => 6 * (rounds - (i + 1)) + 4
  | .unlock i => 6 * (rounds - (i + 1)) + 3
  | .addLoc i => 6 * (rounds - (i + 1)) + 2
  | .uncreated | .finished | .undefined => 0

/-- The steps of `main` that are left, with those of the threads that it has not created. -/
def MainPlace.weight (numThreads rounds : Nat) : MainPlace → Nat
  | .create i => (numThreads - i) * (6 * rounds + 2) + numThreads + 2
  | .join i => numThreads - i + 1
  | .printed _ => 0

/-- The steps that are left at most. -/
def State.weight (numThreads : Nat) (args : ThreadArgs) (s : State) : Nat :=
  s.main.weight numThreads args.rounds + load (Place.weight args.rounds) s.place numThreads

/-- A thread that goes on to a place of a smaller weight. -/
theorem weight_move {s' : State} {place : Place} (inside : p < numThreads)
    (places : s'.place = s.place) (main : s'.main = s.main)
    (nearer : place.weight args.rounds < (s.place p).weight args.rounds) :
    (s'.move p place).weight numThreads args < s.weight numThreads args := by
  have moved := load_update (Place.weight args.rounds) s.place inside place
  simp only [State.weight, State.move, places, main]
  omega

theorem thread_weight (inside : p < numThreads) (moved : incCount program args p s = some t) :
    t.weight numThreads args < s.weight numThreads args := by
  cases incCount_effect moved with
  | goesOn i stands more =>
      have inLoop : i < args.rounds := by
        unfold ThreadArgs.rounds
        omega
      refine weight_move inside rfl rfl ?_
      rw [stands]
      cases program <;> simp only [Program.body, Place.weight] <;> omega
  | locks i stands | loads i stands | stores i value stands | unlocks i stands
  | addsLoc i stands =>
      exact weight_move inside rfl rfl (by rw [stands]; exact Nat.lt_succ_self _)
  | addsFetch i stands =>
      refine weight_move inside rfl rfl ?_
      rw [stands]
      simp only [Place.weight]
      omega
  | ends i stands => exact weight_move inside rfl rfl (by rw [stands]; exact Nat.succ_pos _)
  | overflows sum stands =>
      rcases stands with ⟨i, value, stands, -⟩ | ⟨i, stands, -⟩
      · exact weight_move inside rfl rfl (by rw [stands]; exact Nat.succ_pos _)
      · exact weight_move inside rfl rfl (by rw [stands]; exact Nat.succ_pos _)

theorem main_weight (moved : mainStep numThreads s = some t) :
    t.weight numThreads args < s.weight numThreads args := by
  cases mainStep_effect moved with
  | creates k stands more =>
      -- The weight of the new thread has been that of `main`.
      have started := load_update (Place.weight args.rounds) s.place more (.test 0)
      have first : (Place.test 0).weight args.rounds = 6 * args.rounds + 1 := rfl
      have later : numThreads - k = numThreads - (k + 1) + 1 := by omega
      have share : (numThreads - k) * (6 * args.rounds + 2) =
          (numThreads - (k + 1)) * (6 * args.rounds + 2) + (6 * args.rounds + 2) := by
        rw [later]
        exact Nat.succ_mul _ _
      simp only [State.weight, State.move, stands, MainPlace.weight]
      omega
  | hasCreated k stands | joins k stands | prints k stands =>
      simp only [State.weight, stands, MainPlace.weight]
      omega

/-- Whatever the arguments, no run is longer than this. -/
theorem run_length_le {labels : List Event}
    (runs : runLabels (step program numThreads args) labels initialState = some s) :
    labels.length ≤ numThreads * (6 * args.rounds + 3) + 2 := by
  have bounded := length_le_of_weight (State.weight numThreads args) ?_ runs
  · have start : initialState.weight numThreads args =
        numThreads * (6 * args.rounds + 2) + numThreads + 2 := by
      simp only [State.weight, initialState, load_const, MainPlace.weight, Place.weight,
        Nat.sub_zero]
      omega
    rw [start] at bounded
    have split : numThreads * (6 * args.rounds + 3) =
        numThreads * (6 * args.rounds + 2) + numThreads := Nat.mul_succ _ _
    omega
  · intro event s t _ moved
    cases event with
    | thread p =>
        simp only [step] at moved
        split at moved
        · exact thread_weight ‹_› moved
        · contradiction
    | main => exact main_weight moved

/-! ## The end -/

/-- Where `main` has nothing to do, it has printed or waits for a thread. -/
theorem Joined.quiescent (joined : Joined numThreads s) (quiet : mainStep numThreads s = none) :
    (∃ p < numThreads, s.place p ≠ .uncreated ∧ s.place p ≠ .finished) ∨
      s.main = .printed s.count ∧ ∀ p < numThreads, s.place p = .finished := by
  unfold mainStep at quiet
  unfold Joined at joined
  cases stands : s.main with
  | create k =>
      simp only [stands] at quiet
      split at quiet <;> contradiction
  | join k =>
      simp only [stands] at quiet joined
      split at quiet
      · rename_i more
        split at quiet
        · contradiction
        · exact .inl ⟨k, more, joined.1 k more, ‹_›⟩
      · contradiction
  | printed count =>
      simp only [stands] at joined
      exact .inr ⟨by rw [joined.1], joined.2⟩

end QuashLabs.PtCount
