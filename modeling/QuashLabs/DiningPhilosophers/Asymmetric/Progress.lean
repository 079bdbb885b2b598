import QuashLabs.DiningPhilosophers.Asymmetric.Ownership
import QuashLabs.Transition.LockOrder

/-!
# The philosophers do not deadlock

Chopsticks rank by their parity, and at a table of an odd size the last one, which
lies between two even ones, ranks between the even and the odd ones. Every
philosopher locks the chopstick of the lower rank first, whatever the size of the
table.
-/

namespace QuashLabs.DiningPhilosophers.Asymmetric

open QuashLabs.Transition

variable {numPhils p c : Nat} {s t : State}

/-- The order in which all philosophers lock chopsticks. -/
def chopRank (numPhils c : Nat) : Nat :=
  if c % 2 = 1 then 2 else if c + 1 = numPhils then 1 else 0

theorem chopRank_le (numPhils c : Nat) : chopRank numPhils c ≤ 2 := by
  unfold chopRank
  split <;> (try split) <;> decide

/-- The first chopstick ranks below the second. -/
theorem chopRank_firstChop_lt (two : 2 ≤ numPhils) (seated : p < numPhils) :
    chopRank numPhils (firstChop numPhils p) < chopRank numPhils (secondChop numPhils p) := by
  unfold chopRank firstChop secondChop leftChop rightChop
  grind

/-- Philosopher `p` is at a lock of chopstick `c`, which is taken. -/
def Awaits (numPhils : Nat) (s : State) (p c : Nat) : Prop :=
  p < numPhils ∧ s.chopstick c ≠ none ∧
    (s.place p = .lockFirst ∧ c = firstChop numPhils p ∨
      s.place p = .lockSecond ∧ c = secondChop numPhils p)

/-- Before the shutdown reaches them, chopsticks are locked in the order of their rank. -/
theorem Owned.lockOrder (two : 2 ≤ numPhils) (owned : Owned numPhils s)
    (before : unlockedByMain numPhils s.accounting.main = 0) :
    LockOrder (fun p c => c < numPhils ∧ s.chopstick c = some p) (Awaits numPhils s)
      (chopRank numPhils) 2 where
  bounded _ := chopRank_le numPhils _
  held := by
    rintro p c ⟨seated, taken, stands⟩
    rcases Option.ne_none_iff_exists'.mp taken with ⟨holder, locked⟩
    refine ⟨holder, ?_, locked⟩
    have mine : c = leftChop p ∨ c = rightChop numPhils p := by
      rw [← chop_cases]
      exact stands.imp And.right And.right
    rcases mine with rfl | rfl
    · exact seated
    · exact rightChop_lt seated
  ascending := by
    rintro p held wanted ⟨inside, locked⟩ ⟨seated, -, stands⟩
    have holds := ((owned held inside (by omega) p).mp locked).2
    rcases stands with ⟨stands, -⟩ | ⟨stands, rfl⟩
    · rw [stands] at holds
      exact absurd holds id
    · rw [stands] at holds
      obtain rfl : held = firstChop numPhils p := holds
      exact chopRank_firstChop_lt two seated

/-- A philosopher that does not wait for a chopstick and has not exited can step. -/
theorem exists_philosopherStep (seated : p < numPhils) (stays : s.place p ≠ .exited)
    (runs : ∀ c, ¬ Awaits numPhils s p c) :
    ∃ t, step numPhils (.philosopher p) s = some t := by
  have lockable {c : Nat} {place : Place}
      (stands : s.place p = .lockFirst ∧ c = firstChop numPhils p ∨
        s.place p = .lockSecond ∧ c = secondChop numPhils p) :
      ∃ t, lock p c place s = some t := by
    have free : s.chopstick c = none := by
      by_contra taken
      exact runs c ⟨seated, taken, stands⟩
    exact ⟨_, if_pos free⟩
  rw [step, if_pos seated, philosopherStep]
  cases stands : s.place p with
  | lockFirst => exact lockable (.inl ⟨stands, rfl⟩)
  | lockSecond => exact lockable (.inr ⟨stands, rfl⟩)
  | exited => exact absurd stands stays
  | _ => exact ⟨_, rfl⟩

/-- Until the shutdown of `main` unlocks a chopstick, no state is deadlocked: while a
philosopher has not exited, some philosopher can step. -/
def NoDeadlock (numPhils : Nat) (s : State) : Prop :=
  unlockedByMain numPhils s.accounting.main = 0 → (∃ p < numPhils, s.place p ≠ .exited) →
    ∃ p < numPhils, ∃ t, step numPhils (.philosopher p) s = some t

/-- The philosophers of a table of any size do not deadlock before the shutdown. -/
theorem no_deadlock (two : 2 ≤ numPhils) :
    Always (step numPhils) (NoDeadlock numPhils) initialState := by
  rintro s reachable before ⟨p, seated, stays⟩
  have owned := owned_of_reachable two reachable
  by_cases waits : ∃ c, Awaits numPhils s p c
  · rcases waits with ⟨c, waits⟩
    rcases (owned.lockOrder two before).exists_running waits with
      ⟨holder, held, ⟨inside, locked⟩, runs⟩
    rcases (owned held inside (by omega) holder).mp locked with ⟨holderSeated, holds⟩
    have present : s.place holder ≠ .exited := by
      intro gone
      rw [gone] at holds
      exact holds
    exact ⟨holder, holderSeated, exists_philosopherStep holderSeated present runs⟩
  · exact ⟨p, seated, exists_philosopherStep seated stays (not_exists.mp waits)⟩

/-- The program as it is built, with five philosophers. -/
theorem no_deadlock_five : Always (step 5) (NoDeadlock 5) initialState :=
  no_deadlock (by decide)

end QuashLabs.DiningPhilosophers.Asymmetric
