import QuashLabs.DiningPhilosophers.Asymmetric.Progress
import QuashLabs.Transition.Endless

/-!
# The asymmetric solution comes to an end

The shutdown takes chopsticks from philosophers that hold them, so that a locked
chopstick may be one whose holder has lost and regained others. Still a mutex is only
ever locked by a philosopher that stands between locking and unlocking it, and that is
enough for the order of the locks to rule out a deadlock in the whole run. Behind the
stop every step of a philosopher brings it nearer to its exit.
-/

namespace QuashLabs.DiningPhilosophers.Asymmetric

open QuashLabs.Transition

variable {numPhils p c : Nat} {s t : State}

/-! ## Who may have locked a chopstick -/

/-- Whoever has locked a chopstick stands between locking and unlocking it. -/
def Held (numPhils : Nat) (s : State) : Prop :=
  ∀ c p, s.chopstick c = some p → p < numPhils ∧ HoldsAt numPhils p c (s.place p)

theorem Held.move (held : Held numPhils s) {place : Place}
    (keeps : ∀ c, s.chopstick c = some p → HoldsAt numPhils p c place) :
    Held numPhils (s.move p place) := by
  intro c q locked
  rcases held c q locked with ⟨seated, holds⟩
  refine ⟨seated, ?_⟩
  change HoldsAt numPhils q c (Function.update s.place p place q)
  by_cases self : q = p
  · subst self
    rw [Function.update_self]
    exact keeps c locked
  · rw [Function.update_of_ne self]
    exact holds

theorem Held.unlock (held : Held numPhils s) (c : Nat) :
    Held numPhils (Asymmetric.unlock c s) ∧
      ∀ d p, (Asymmetric.unlock c s).chopstick d = some p → d ≠ c ∧ s.chopstick d = some p := by
  have before (d p : Nat) (locked : (Asymmetric.unlock c s).chopstick d = some p) :
      d ≠ c ∧ s.chopstick d = some p := by
    change Function.update s.chopstick c none d = some p at locked
    by_cases here : d = c
    · rw [here, Function.update_self] at locked
      cases locked
    · rw [Function.update_of_ne here] at locked
      exact ⟨here, locked⟩
  exact ⟨fun d p locked => held d p (before d p locked).2, before⟩

theorem Held.lock (held : Held numPhils s) (seated : p < numPhils) {place : Place}
    (keeps : ∀ d, HoldsAt numPhils p d (s.place p) ∨ d = c → HoldsAt numPhils p d place)
    (moved : Asymmetric.lock p c place s = some t) : Held numPhils t := by
  unfold Asymmetric.lock at moved
  split at moved
  · cases moved
    intro d q locked
    change Function.update s.chopstick c (some p) d = some q at locked
    change q < numPhils ∧ HoldsAt numPhils q d (Function.update s.place p place q)
    by_cases here : d = c
    · rw [here, Function.update_self] at locked
      obtain rfl := Option.some.inj locked
      rw [Function.update_self]
      exact ⟨seated, keeps d (.inr here)⟩
    · rw [Function.update_of_ne here] at locked
      rcases held d q locked with ⟨other, holds⟩
      refine ⟨other, ?_⟩
      by_cases self : q = p
      · subst self
        rw [Function.update_self]
        exact keeps d (.inl holds)
      · rw [Function.update_of_ne self]
        exact holds
  · contradiction

theorem Held.philosopherStep (held : Held numPhils s) (seated : p < numPhils)
    (moved : Asymmetric.philosopherStep numPhils p s = some t) : Held numPhils t := by
  unfold Asymmetric.philosopherStep at moved
  have holds (c : Nat) (locked : s.chopstick c = some p) : HoldsAt numPhils p c (s.place p) :=
    (held c p locked).2
  cases stands : s.place p with
  | testStop =>
      simp only [stands] at moved holds
      cases moved
      exact held.move fun c locked => absurd (holds c locked) id
  | lockFirst =>
      simp only [stands] at moved
      exact held.lock seated (by simp [stands, HoldsAt]) moved
  | lockSecond =>
      simp only [stands] at moved
      exact held.lock seated (by simp [stands, HoldsAt]) moved
  | eating =>
      simp only [stands] at moved holds
      cases moved
      exact held.move holds
  | unlockFirst =>
      simp only [stands] at moved holds
      cases moved
      rcases held.unlock (firstChop numPhils p) with ⟨still, before⟩
      refine still.move fun c locked => ?_
      rcases before c p locked with ⟨other, locked⟩
      exact (holds c locked).resolve_left other
  | unlockSecond =>
      simp only [stands] at moved holds
      cases moved
      rcases held.unlock (secondChop numPhils p) with ⟨still, before⟩
      refine still.move fun c locked => ?_
      rcases before c p locked with ⟨other, locked⟩
      exact absurd (holds c locked) other
  | updateProgress =>
      simp only [stands] at moved holds
      cases moved
      have same : Held numPhils { s with accounting := s.accounting.progress p } := held
      exact same.move fun c locked => absurd (holds c locked) id
  | exited =>
      simp only [stands] at moved
      contradiction

theorem Held.mainStep (held : Held numPhils s) (moved : Asymmetric.mainStep numPhils s = some t) :
    Held numPhils t := by
  unfold Asymmetric.mainStep at moved
  split at moved
  · split at moved
    · cases moved
      exact (held.unlock _).1
    · cases moved
      exact held
  · rcases Option.map_eq_some_iff.mp moved with ⟨accounting, -, rfl⟩
    exact held

theorem held_of_reachable (reachable : Reachable (step numPhils) initialState s) :
    Held numPhils s := by
  refine reachable.invariant (fun c p locked => absurd locked nofun) ?_
  intro event s t held moved
  cases event with
  | philosopher p =>
      simp only [step] at moved
      split at moved
      · exact held.philosopherStep ‹_› moved
      · contradiction
  | main => exact held.mainStep moved

/-! ## No deadlock in the whole run -/

/-- At any time chopsticks are locked in the order of their rank. -/
theorem Held.lockOrder (two : 2 ≤ numPhils) (held : Held numPhils s) :
    LockOrder (fun p c => s.chopstick c = some p) (Awaits numPhils s) (chopRank numPhils) 2 where
  bounded _ := chopRank_le numPhils _
  held := fun ⟨_, taken, _⟩ => Option.ne_none_iff_exists'.mp taken
  ascending := by
    rintro p locked wanted isLocked ⟨seated, -, stands⟩
    have holds := (held locked p isLocked).2
    rcases stands with ⟨stands, -⟩ | ⟨stands, rfl⟩
    · rw [stands] at holds
      exact absurd holds id
    · rw [stands] at holds
      obtain rfl : locked = firstChop numPhils p := holds
      exact chopRank_firstChop_lt two seated

/-- While a philosopher has not exited, some philosopher can step. -/
def Progresses (numPhils : Nat) (s : State) : Prop :=
  (∃ p < numPhils, s.place p ≠ .exited) →
    ∃ p < numPhils, ∃ t, step numPhils (.philosopher p) s = some t

theorem Held.progresses (two : 2 ≤ numPhils) (held : Held numPhils s) :
    Progresses numPhils s := by
  rintro ⟨p, seated, stays⟩
  by_cases waits : ∃ c, Awaits numPhils s p c
  · rcases waits with ⟨c, waits⟩
    rcases (held.lockOrder two).exists_running waits with ⟨holder, locked, isLocked, runs⟩
    rcases held locked holder isLocked with ⟨holderSeated, holds⟩
    have present : s.place holder ≠ .exited := by
      intro gone
      rw [gone] at holds
      exact holds
    exact ⟨holder, holderSeated, exists_philosopherStep holderSeated present runs⟩
  · exact ⟨p, seated, exists_philosopherStep seated stays (not_exists.mp waits)⟩

/-! ## Behind the stop -/

/-- The way from a place to the exit once `Stop` is set. -/
def Place.weight : Place → Nat
  | .exited => 0
  | .testStop => 1
  | .updateProgress => 2
  | .unlockSecond => 3
  | .unlockFirst => 4
  | .eating => 5
  | .lockSecond => 6
  | .lockFirst => 7

theorem lock_places {place : Place} (moved : lock p c place s = some t) :
    t.place = Function.update s.place p place ∧ t.accounting = s.accounting := by
  unfold lock at moved
  split at moved
  · cases moved
    exact ⟨rfl, rfl⟩
  · contradiction

/-- A philosopher goes on to one place, which behind the stop is nearer to its exit, and
changes neither `Stop` nor the place of `main`. -/
theorem philosopherStep_place (moved : philosopherStep numPhils p s = some t) :
    (∃ place, t.place = Function.update s.place p place ∧
        (s.accounting.stop = true → place.weight < (s.place p).weight)) ∧
      t.accounting.main = s.accounting.main ∧ t.accounting.stop = s.accounting.stop := by
  unfold philosopherStep at moved
  cases stands : s.place p with
  | testStop =>
      simp only [stands] at moved
      cases moved
      refine ⟨⟨_, rfl, fun stop => ?_⟩, rfl, rfl⟩
      rw [stop]
      decide
  | lockFirst =>
      simp only [stands] at moved
      rcases lock_places moved with ⟨places, accounting⟩
      rw [accounting]
      exact ⟨⟨_, places, fun _ => by decide⟩, rfl, rfl⟩
  | lockSecond =>
      simp only [stands] at moved
      rcases lock_places moved with ⟨places, accounting⟩
      rw [accounting]
      exact ⟨⟨_, places, fun _ => by decide⟩, rfl, rfl⟩
  | exited =>
      simp only [stands] at moved
      contradiction
  | _ =>
      simp only [stands] at moved
      cases moved
      exact ⟨⟨_, rfl, fun _ => by decide⟩, rfl, rfl⟩

theorem load_philosopherStep (seated : p < numPhils) (stop : s.accounting.stop = true)
    (moved : philosopherStep numPhils p s = some t) :
    load Place.weight t.place numPhils < load Place.weight s.place numPhils := by
  rcases philosopherStep_place moved with ⟨⟨place, places, nearer⟩, -⟩
  have shift := load_update Place.weight s.place seated place
  rw [places]
  have lower := nearer stop
  omega

/-- Every step of `main` is one of those that are left to it. -/
theorem mainStep_remaining (moved : mainStep numPhils s = some t) :
    t.accounting.main.remaining numPhils < s.accounting.main.remaining numPhils ∧
      (s.accounting.stop = s.accounting.main.inShutdown →
        t.accounting.stop = t.accounting.main.inShutdown) := by
  unfold mainStep at moved
  split at moved
  · rename_i i stands
    split at moved
    · cases moved
      simp only [stands, MainPlace.remaining, MainPlace.inShutdown]
      exact ⟨by omega, id⟩
    · cases moved
      simp only [stands, MainPlace.remaining, MainPlace.inShutdown]
      exact ⟨by omega, id⟩
  · rcases Option.map_eq_some_iff.mp moved with ⟨accounting, goes, rfl⟩
    refine Accounting.step_effect goes ?_ rfl
    simp only [MainPlace.remaining]
    omega

theorem step_philosopher_main (moved : step numPhils (.philosopher p) s = some t) :
    p < numPhils ∧ philosopherStep numPhils p s = some t := by
  simp only [step] at moved
  split at moved
  · exact ⟨‹_›, moved⟩
  · contradiction

/-- `Stop` is set exactly from the shutdown on. -/
theorem stop_of_reachable (reachable : Reachable (step numPhils) initialState s) :
    s.accounting.stop = s.accounting.main.inShutdown := by
  refine Reachable.invariant
    (P := fun s => s.accounting.stop = s.accounting.main.inShutdown) reachable rfl ?_
  intro event s t agree moved
  cases event with
  | philosopher p =>
      rcases philosopherStep_place (step_philosopher_main moved).2 with ⟨-, place, stop⟩
      rw [place, stop]
      exact agree
  | main => exact (mainStep_remaining moved).2 agree

/-! ## Runs -/

/-- All philosophers have exited and `main` has joined them. -/
def Completed (numPhils : Nat) (s : State) : Prop :=
  s.accounting.main = .returned ∧ ∀ p < numPhils, s.place p = .exited

/-- A run that comes to a standstill has finished. -/
theorem completed_of_quiescent (two : 2 ≤ numPhils)
    (reachable : Reachable (step numPhils) initialState s)
    (quiescent : Quiescent (step numPhils) s) : Completed numPhils s := by
  have gone : ∀ p < numPhils, s.place p = .exited := by
    by_contra stays
    push Not at stays
    rcases (held_of_reachable reachable).progresses two stays with ⟨p, seated, t, moved⟩
    rw [quiescent] at moved
    cases moved
  refine ⟨?_, gone⟩
  have blocked : mainStep numPhils s = none := quiescent .main
  unfold mainStep at blocked
  split at blocked
  · split at blocked <;> contradiction
  · rename_i notUnlock
    exact Accounting.returned_of_blocked (fun p seated => by simp [gone p seated]) notUnlock
      (Option.map_eq_none_iff.mp blocked)

/-- Before the shutdown `main` can step. -/
theorem exists_mainStep (running : s.accounting.main.inShutdown = false) :
    ∃ t, mainStep numPhils s = some t := by
  unfold mainStep
  split
  · rename_i i stands
    rw [stands] at running
    contradiction
  · rcases Accounting.exists_step running with ⟨b, goes⟩
    exact ⟨_, congrArg (Option.map _) goes⟩

/-- In an endless run `main` stops taking steps. -/
theorem main_ceases (run : EndlessRun (step numPhils) initialState) :
    run.Ceases (· = .main) := by
  refine run.ceases_of_weight (fun s => s.accounting.main.remaining numPhils)
    (fun time => ?_) (fun time here => ?_)
  · have moved := run.steps time
    cases label : run.label time with
    | philosopher p =>
        rw [label] at moved
        have same := philosopherStep_place (step_philosopher_main moved).2
        exact Nat.le_of_eq (congrArg _ same.2.1)
    | main =>
        rw [label] at moved
        exact Nat.le_of_lt (mainStep_remaining moved).1
  · have moved := run.steps time
    rw [here] at moved
    exact (mainStep_remaining moved).1

/-- The program ends, with a table of any size: its philosophers do not deadlock before,
during or behind the shutdown, a run that comes to a standstill has finished, and an endless
run holds `main` back for ever although it could move. -/
theorem runs_end_unless_starved (two : 2 ≤ numPhils) :
    Always (step numPhils) (Progresses numPhils) initialState ∧
    (∀ s, Reachable (step numPhils) initialState s → Quiescent (step numPhils) s →
      Completed numPhils s) ∧
    ∀ run : EndlessRun (step numPhils) initialState, run.Starves .main := by
  refine ⟨fun s reachable => (held_of_reachable reachable).progresses two,
    fun s => completed_of_quiescent two, fun run => ?_⟩
  rcases main_ceases run with ⟨start, noMain⟩
  have philosopher (time : Nat) (after : start ≤ time) : ∃ p < numPhils,
      philosopherStep numPhils p (run.state time) = some (run.state (time + 1)) := by
    have moved := run.steps time
    cases label : run.label time with
    | philosopher p =>
        rw [label] at moved
        exact ⟨p, step_philosopher_main moved⟩
    | main => exact absurd label (noMain time after)
  have place {time : Nat} (after : start ≤ time) :
      (run.state time).accounting.main = (run.state start).accounting.main := by
    refine run.unchanged (fun s => s.accounting.main) (fun time after => ?_) after
    rcases philosopher time after with ⟨p, -, moved⟩
    exact (philosopherStep_place moved).2.1
  cases stopped : (run.state start).accounting.main.inShutdown with
  | false =>
      refine ⟨start, fun time after => ⟨exists_mainStep ?_, noMain time after⟩⟩
      rw [place after, stopped]
  | true =>
      exfalso
      refine run.not_always_falls (fun s => load Place.weight s.place numPhils)
        fun time (after : start ≤ time) => ?_
      have stop : (run.state time).accounting.stop = true := by
        rw [stop_of_reachable (run.reachable time), place after, stopped]
      rcases philosopher time after with ⟨p, seated, moved⟩
      exact load_philosopherStep seated stop moved

/-- The program as it is built, with five philosophers. -/
theorem runs_end_unless_starved_five :
    Always (step 5) (Progresses 5) initialState ∧
    (∀ s, Reachable (step 5) initialState s → Quiescent (step 5) s → Completed 5 s) ∧
    ∀ run : EndlessRun (step 5) initialState, run.Starves .main :=
  runs_end_unless_starved (by decide)

end QuashLabs.DiningPhilosophers.Asymmetric
