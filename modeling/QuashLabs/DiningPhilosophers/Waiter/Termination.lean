import QuashLabs.DiningPhilosophers.Waiter.Wakeups
import QuashLabs.Transition.Endless

/-!
# The waiter solution comes to an end

`main` takes a bounded number of steps, and nothing can hold it up before it sets `Stop`.
From then on every section, test and exit of a philosopher brings it nearer to its end,
and the signals of a release cost less than the release gains. Only wake-ups without a
signal let a philosopher test its flags once more. So a run without an end keeps `main`
waiting for its turn, or has such wake-ups again and again; and a run that comes to a
standstill has finished.
-/

namespace QuashLabs.DiningPhilosophers.Waiter

open QuashLabs.Transition

variable {program : Program} {numPhils p : Nat} {s t : State}

/-- All philosophers have exited and `main` has joined them. -/
def Completed (numPhils : Nat) (s : State) : Prop :=
  s.accounting.main = .returned ∧ ∀ p < numPhils, s.place p = .exited

/-- A wake-up without a signal. -/
def IsSpurious (event : Event) : Prop := ∃ p, event = .spurious p

/-! ## Behind the stop -/

/-- The way from a place to the exit once `Stop` is set. A release pays for two
wake-ups. -/
def Place.weight : Place → Nat
  | .exited => 0
  | .testStop => 1
  | .updateProgress => 2
  | .waiting | .eating => 5
  | .hungry | .woken => 6

theorem load_signal (place : Nat → Place) (seated : p < numPhils) :
    load Place.weight (signal place p) numPhils ≤ load Place.weight place numPhils + 1 := by
  unfold signal
  split
  · rename_i sleeps
    have moved := load_update Place.weight place seated .woken
    rw [sleeps] at moved
    simp only [Place.weight] at moved
    omega
  · omega

theorem load_signalNeighbours (place : Nat → Place) (seated : p < numPhils) :
    load Place.weight (signalNeighbours program numPhils place p) numPhils ≤
      load Place.weight place numPhils + 2 := by
  have left := leftPhil_lt seated
  have right := rightPhil_lt seated
  cases program with
  | dpWaiter => exact Nat.le_trans (load_signal _ left) (Nat.succ_le_succ (load_signal _ right))
  | dpWaiterOpt => exact Nat.le_trans (load_signal _ right) (Nat.succ_le_succ (load_signal _ left))

theorem load_takeSection {s' : State} (seated : p < numPhils)
    (stands : s.place p = .hungry ∨ s.place p = .woken) (places : s'.place = s.place) :
    load Place.weight (takeSection numPhils p s').place numPhils <
      load Place.weight s.place numPhils := by
  have before : (s.place p).weight = 6 := by
    rcases stands with stands | stands <;> rw [stands] <;> rfl
  have moved := load_update Place.weight s.place seated
  unfold takeSection
  rw [places]
  split
  · have waits := moved .waiting
    rw [before] at waits
    simp only [Place.weight] at waits ⊢
    omega
  · have eats := moved .eating
    rw [before] at eats
    simp only [Place.weight] at eats ⊢
    omega

/-- Behind the stop every step of a philosopher shortens the way of all of them. -/
theorem load_philosopherStep (seated : p < numPhils) (stop : s.accounting.stop = true)
    (moved : philosopherStep program numPhils p s = some t) :
    load Place.weight t.place numPhils < load Place.weight s.place numPhils := by
  have shift := load_update Place.weight s.place seated
  unfold philosopherStep at moved
  cases stands : s.place p with
  | testStop =>
      simp only [stands, stop, if_true] at moved
      cases moved
      have exits := shift .exited
      simp only [stands, Place.weight] at exits ⊢
      omega
  | hungry =>
      simp only [stands] at moved
      cases moved
      exact load_takeSection seated (.inl stands) rfl
  | waiting =>
      simp only [stands] at moved
      contradiction
  | woken =>
      simp only [stands] at moved
      cases moved
      refine load_takeSection seated (.inr stands) ?_
      cases program <;> rfl
  | eating =>
      simp only [stands] at moved
      cases moved
      have released := shift .updateProgress
      have woken : load Place.weight (releaseSection program numPhils p s).place numPhils ≤
          load Place.weight (Function.update s.place p .updateProgress) numPhils + 2 :=
        load_signalNeighbours _ seated
      simp only [stands, Place.weight] at released
      omega
  | updateProgress =>
      simp only [stands] at moved
      cases moved
      have tests := shift .testStop
      simp only [stands, Place.weight] at tests ⊢
      omega
  | exited =>
      simp only [stands] at moved
      contradiction

/-! ## The place of `main` -/

/-- A philosopher changes neither `Stop` nor the place of `main`. -/
theorem philosopherStep_main (moved : philosopherStep program numPhils p s = some t) :
    t.accounting.main = s.accounting.main ∧ t.accounting.stop = s.accounting.stop := by
  have section_ (s' : State) (same : s'.accounting = s.accounting) :
      (takeSection numPhils p s').accounting = s.accounting := by
    unfold takeSection
    split <;> exact same
  unfold philosopherStep at moved
  cases stands : s.place p with
  | testStop =>
      simp only [stands] at moved
      split at moved <;> cases moved <;> exact ⟨rfl, rfl⟩
  | hungry =>
      simp only [stands] at moved
      cases moved
      rw [section_ s rfl]
      exact ⟨rfl, rfl⟩
  | woken =>
      simp only [stands] at moved
      cases moved
      rw [section_ _ (by cases program <;> rfl)]
      exact ⟨rfl, rfl⟩
  | waiting =>
      simp only [stands] at moved
      contradiction
  | exited =>
      simp only [stands] at moved
      contradiction
  | _ =>
      simp only [stands] at moved
      cases moved
      exact ⟨rfl, rfl⟩

theorem spuriousWakeUp_main (moved : spuriousWakeUp p s = some t) :
    t.accounting = s.accounting := by
  unfold spuriousWakeUp at moved
  split at moved
  · cases moved
    rfl
  · contradiction

theorem step_main {event : Event} (other : event ≠ .main)
    (moved : step program numPhils event s = some t) :
    t.accounting.main = s.accounting.main ∧ t.accounting.stop = s.accounting.stop := by
  cases event with
  | philosopher p =>
      simp only [step] at moved
      split at moved
      · exact philosopherStep_main moved
      · contradiction
  | spurious p =>
      simp only [step] at moved
      split at moved
      · rw [spuriousWakeUp_main moved]
        exact ⟨rfl, rfl⟩
      · contradiction
  | main => exact absurd rfl other

/-- Every step of `main` is one of those that are left to it. -/
theorem mainStep_remaining (moved : mainStep numPhils s = some t) :
    t.accounting.main.remaining numPhils < s.accounting.main.remaining numPhils ∧
      (s.accounting.stop = s.accounting.main.inShutdown →
        t.accounting.stop = t.accounting.main.inShutdown) := by
  rcases Option.map_eq_some_iff.mp moved with ⟨accounting, goes, rfl⟩
  refine Accounting.step_effect goes ?_ rfl
  simp only [MainPlace.remaining]
  omega

/-- `Stop` is set exactly from the shutdown on, which has no unlocks. -/
theorem shutdown_of_reachable
    (reachable : Reachable (step program numPhils) initialState s) :
    s.accounting.stop = s.accounting.main.inShutdown ∧ ∀ i, s.accounting.main ≠ .unlock i := by
  refine Reachable.invariant (P := fun s => s.accounting.stop = s.accounting.main.inShutdown ∧
    ∀ i, s.accounting.main ≠ .unlock i) reachable ⟨rfl, nofun⟩ ?_
  rintro event s t ⟨agree, notUnlock⟩ moved
  by_cases main : event = .main
  · subst main
    refine ⟨(mainStep_remaining moved).2 agree, ?_⟩
    rcases Option.map_eq_some_iff.mp moved with ⟨accounting, goes, rfl⟩
    have notFirst (i : Nat) : MainPlace.join 0 ≠ .unlock i := nofun
    exact Accounting.not_unlock_of_step notFirst goes
  · rcases step_main main moved with ⟨place, stop⟩
    rw [place, stop]
    exact ⟨agree, notUnlock⟩

/-! ## Runs -/

/-- A run that comes to a standstill has finished. -/
theorem completed_of_quiescent
    (reachable : Reachable (step program numPhils) initialState s)
    (quiescent : Quiescent (step program numPhils) s) : Completed numPhils s := by
  have gone : ∀ p < numPhils, s.place p = .exited := by
    by_contra stays
    push Not at stays
    rcases (accounted_of_reachable reachable).sleepers.progresses stays with
      ⟨p, seated, t, moved⟩
    rw [quiescent] at moved
    cases moved
  refine ⟨?_, gone⟩
  have blocked : s.accounting.step numPhils (.join 0) (fun p => s.place p == .exited) = none := by
    simpa [step, mainStep] using quiescent .main
  exact Accounting.returned_of_blocked (fun p seated => by simp [gone p seated])
    (shutdown_of_reachable reachable).2 blocked

/-- In an endless run `main` stops taking steps. -/
theorem main_ceases (run : EndlessRun (step program numPhils) initialState) :
    run.Ceases (· = .main) := by
  refine run.ceases_of_weight (fun s => s.accounting.main.remaining numPhils)
    (fun time => ?_) (fun time here => ?_)
  · have moved := run.steps time
    by_cases main : run.label time = .main
    · rw [main] at moved
      exact Nat.le_of_lt (mainStep_remaining moved).1
    · exact Nat.le_of_eq (congrArg _ (step_main main moved).1)
  · have moved := run.steps time
    rw [here] at moved
    exact (mainStep_remaining moved).1

/-- Either program ends: a run that comes to a standstill has finished, and an endless run
holds `main` back for ever although it could move, or wakes philosophers without a signal
again and again. -/
theorem runs_end_unless_woken (program : Program) (numPhils : Nat) :
    (∀ s, Reachable (step program numPhils) initialState s →
      Quiescent (step program numPhils) s → Completed numPhils s) ∧
    ∀ run : EndlessRun (step program numPhils) initialState,
      run.Starves .main ∨ run.Recurs IsSpurious := by
  refine ⟨fun s => completed_of_quiescent, fun run => ?_⟩
  rcases main_ceases run with ⟨start, noMain⟩
  have still (time : Nat) (after : start ≤ time) := step_main (noMain time after) (run.steps time)
  have place {time : Nat} (after : start ≤ time) :
      (run.state time).accounting.main = (run.state start).accounting.main :=
    run.unchanged (fun s => s.accounting.main) (fun time after => (still time after).1) after
  cases stopped : (run.state start).accounting.main.inShutdown with
  | false =>
      refine .inl ⟨start, fun time after => ⟨?_, noMain time after⟩⟩
      have running : (run.state time).accounting.main.inShutdown = false := by
        rw [place after, stopped]
      rcases Accounting.exists_step running with ⟨b, goes⟩
      exact ⟨_, congrArg (Option.map _) goes⟩
  | true =>
      right
      rcases run.ceases_or_recurs IsSpurious with ⟨quiet, noSpurious⟩ | recurs
      · exfalso
        refine run.not_always_falls (fun s => load Place.weight s.place numPhils)
          fun time (after : max start quiet ≤ time) => ?_
        have afterStart : start ≤ time := Nat.le_trans (Nat.le_max_left _ _) after
        have stop : (run.state time).accounting.stop = true := by
          rw [(shutdown_of_reachable (run.reachable time)).1, place afterStart, stopped]
        have moved := run.steps time
        cases label : run.label time with
        | main => exact absurd label (noMain time afterStart)
        | spurious p =>
            exact absurd ⟨p, label⟩ (noSpurious time (Nat.le_trans (Nat.le_max_right _ _) after))
        | philosopher p =>
            rw [label] at moved
            simp only [step] at moved
            split at moved
            · exact load_philosopherStep ‹_› stop moved
            · contradiction
      · exact recurs

end QuashLabs.DiningPhilosophers.Waiter
