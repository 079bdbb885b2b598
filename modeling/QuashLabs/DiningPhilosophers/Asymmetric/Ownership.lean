import QuashLabs.DiningPhilosophers.Asymmetric.Core

/-!
# Who holds a chopstick

Until the shutdown of `main` reaches a chopstick, its mutex is locked exactly by the
philosopher that stands between locking and unlocking it. So two neighbours do not
eat at once over such a chopstick, and whoever unlocks it holds it. Behind `main` the
mutex is free while its philosopher still eats, and the neighbour may lock it again.
-/

namespace QuashLabs.DiningPhilosophers.Asymmetric

open QuashLabs.Transition

variable {numPhils p : Nat} {s t : State}

theorem firstChop_ne_secondChop (two : 2 ≤ numPhils) (p : Nat) :
    firstChop numPhils p ≠ secondChop numPhils p := by
  have distinct := rightChop_ne two p
  unfold firstChop secondChop leftChop
  split
  · exact distinct.symm
  · exact distinct

/-- A chopstick of a philosopher is its first or its second. -/
theorem chop_cases (numPhils p c : Nat) :
    c = firstChop numPhils p ∨ c = secondChop numPhils p ↔
      c = leftChop p ∨ c = rightChop numPhils p := by
  unfold firstChop secondChop
  split
  · exact Iff.rfl
  · exact or_comm

/-- At the place, philosopher `p` is between locking and unlocking chopstick `c`. -/
def HoldsAt (numPhils p c : Nat) : Place → Prop
  | .lockSecond => c = firstChop numPhils p
  | .eating | .unlockFirst => c = firstChop numPhils p ∨ c = secondChop numPhils p
  | .unlockSecond => c = secondChop numPhils p
  | _ => False

/-! ## What one step can do -/

/-- What an enabled step does to the chopsticks and the places, with the guard of its
branch and the effect on what the philosopher holds. -/
inductive Effect (numPhils : Nat) (s t : State) : Prop
  | main (places : t.place = s.place)
      (kept : ∀ c < numPhils, unlockedByMain numPhils t.accounting.main ≤ c →
        unlockedByMain numPhils s.accounting.main ≤ c ∧ t.chopstick c = s.chopstick c)
  | moves (p : Nat) (seated : p < numPhils) (place : Place)
      (holds : ∀ c, HoldsAt numPhils p c place ↔ HoldsAt numPhils p c (s.place p))
      (chopsticks : t.chopstick = s.chopstick)
      (places : t.place = Function.update s.place p place)
      (shutdown : t.accounting.main = s.accounting.main)
  | locks (p c : Nat) (seated : p < numPhils) (place : Place) (free : s.chopstick c = none)
      (holds : ∀ d, HoldsAt numPhils p d place ↔ HoldsAt numPhils p d (s.place p) ∨ d = c)
      (chopsticks : t.chopstick = Function.update s.chopstick c (some p))
      (places : t.place = Function.update s.place p place)
      (shutdown : t.accounting.main = s.accounting.main)
  | unlocks (p c : Nat) (seated : p < numPhils) (place : Place)
      (held : HoldsAt numPhils p c (s.place p))
      (holds : ∀ d, HoldsAt numPhils p d place ↔ HoldsAt numPhils p d (s.place p) ∧ d ≠ c)
      (chopsticks : t.chopstick = Function.update s.chopstick c none)
      (places : t.place = Function.update s.place p place)
      (shutdown : t.accounting.main = s.accounting.main)

theorem lock_effect {c : Nat} {place : Place} (seated : p < numPhils)
    (holds : ∀ d, HoldsAt numPhils p d place ↔ HoldsAt numPhils p d (s.place p) ∨ d = c)
    (moved : lock p c place s = some t) : Effect numPhils s t := by
  unfold lock at moved
  split at moved
  · rename_i free
    cases moved
    exact .locks p c seated place free holds rfl rfl rfl
  · contradiction

theorem philosopherStep_effect (two : 2 ≤ numPhils) (seated : p < numPhils)
    (moved : philosopherStep numPhils p s = some t) : Effect numPhils s t := by
  have distinct := firstChop_ne_secondChop two p
  unfold philosopherStep at moved
  cases stands : s.place p with
  | testStop =>
      simp only [stands] at moved
      cases moved
      refine .moves p seated _ ?_ rfl rfl rfl
      intro c
      rw [stands]
      split <;> exact Iff.rfl
  | lockFirst =>
      simp only [stands] at moved
      refine lock_effect seated ?_ moved
      simp [HoldsAt, stands]
  | lockSecond =>
      simp only [stands] at moved
      refine lock_effect seated ?_ moved
      simp [HoldsAt, stands]
  | eating =>
      simp only [stands] at moved
      cases moved
      exact .moves p seated .unlockFirst (by simp [HoldsAt, stands]) rfl rfl rfl
  | unlockFirst =>
      simp only [stands] at moved
      cases moved
      refine .unlocks p _ seated .unlockSecond (by simp [HoldsAt, stands]) ?_ rfl rfl rfl
      intro d
      simp only [HoldsAt, stands]
      grind
  | unlockSecond =>
      simp only [stands] at moved
      cases moved
      refine .unlocks p _ seated .updateProgress (by simp [HoldsAt, stands]) ?_ rfl rfl rfl
      simp [HoldsAt, stands]
  | updateProgress =>
      simp only [stands] at moved
      cases moved
      exact .moves p seated .testStop (by simp [HoldsAt, stands]) rfl rfl rfl
  | exited =>
      simp only [stands] at moved
      contradiction

theorem unlockedByMain_le_of_step {exited : Nat → Bool} {a b : Accounting} {c : Nat}
    (moved : a.step numPhils (.unlock 0) exited = some b)
    (ahead : unlockedByMain numPhils b.main ≤ c) : unlockedByMain numPhils a.main ≤ c := by
  unfold Accounting.step at moved
  cases stands : a.main with
  | join i =>
      simp only [stands] at moved
      split at moved
      · split at moved
        · cases moved
          exact ahead
        · contradiction
      · cases moved
        exact ahead
  | unlock i =>
      simp only [stands] at moved
      contradiction
  | returned =>
      simp only [stands] at moved
      contradiction
  | _ => exact Nat.zero_le c

theorem mainStep_effect (moved : mainStep numPhils s = some t) : Effect numPhils s t := by
  unfold mainStep at moved
  split at moved
  · rename_i i stands
    split at moved
    · cases moved
      refine .main rfl fun c inside ahead => ?_
      change i + 1 ≤ c at ahead
      rw [stands]
      exact ⟨Nat.le_of_succ_le ahead, Function.update_of_ne (by omega) _ _⟩
    · cases moved
      refine .main rfl fun c inside ahead => ?_
      exact absurd inside (Nat.not_lt.mpr ahead)
  · rcases Option.map_eq_some_iff.mp moved with ⟨accounting, goes, rfl⟩
    refine .main rfl fun c _ ahead => ?_
    exact ⟨unlockedByMain_le_of_step goes ahead, rfl⟩

/-- Every enabled step is one of the listed effects. -/
theorem step_effect (two : 2 ≤ numPhils) {event : Event}
    (moved : step numPhils event s = some t) : Effect numPhils s t := by
  cases event with
  | philosopher p =>
      by_cases seated : p < numPhils
      · exact philosopherStep_effect two seated (by simpa [step, seated] using moved)
      · simp [step, seated] at moved
  | main => exact mainStep_effect moved

/-! ## Ownership -/

/-- A chopstick that `main` has not unlocked is locked by the philosopher that stands
between locking and unlocking it, and free if there is none. -/
def Owned (numPhils : Nat) (s : State) : Prop :=
  ∀ c < numPhils, unlockedByMain numPhils s.accounting.main ≤ c →
    ∀ p, s.chopstick c = some p ↔ p < numPhils ∧ HoldsAt numPhils p c (s.place p)

theorem initialState_owned (numPhils : Nat) : Owned numPhils initialState := by
  intro c inside ahead p
  simp [initialState, HoldsAt]

theorem Owned.effect (owned : Owned numPhils s) (effect : Effect numPhils s t) :
    Owned numPhils t := by
  intro c inside ahead q
  cases effect with
  | main places kept =>
      rcases kept c inside ahead with ⟨before, same⟩
      rw [same, places]
      exact owned c inside before q
  | moves p seated place holds chopsticks places shutdown =>
      rw [shutdown] at ahead
      rw [chopsticks, places, owned c inside ahead q]
      by_cases self : q = p
      · subst self
        rw [Function.update_self, holds]
      · rw [Function.update_of_ne self]
  | locks p d seated place free holds chopsticks places shutdown =>
      rw [shutdown] at ahead
      have before := owned c inside ahead
      rw [chopsticks, places]
      by_cases self : q = p
      · subst self
        rw [Function.update_self, holds]
        by_cases here : c = d
        · subst here
          simp [seated]
        · rw [Function.update_of_ne here, before q]
          simp [here]
      · rw [Function.update_of_ne self]
        by_cases here : c = d
        · subst here
          rw [Function.update_self, ← before q, free]
          simp [Ne.symm self]
        · rw [Function.update_of_ne here, before q]
  | unlocks p d seated place held holds chopsticks places shutdown =>
      rw [shutdown] at ahead
      have before := owned c inside ahead
      rw [chopsticks, places]
      by_cases here : c = d
      · subst here
        rw [Function.update_self]
        by_cases self : q = p
        · subst self
          rw [Function.update_self, holds]
          simp
        · rw [Function.update_of_ne self, ← before q, (before p).mpr ⟨seated, held⟩]
          simp [Ne.symm self]
      · rw [Function.update_of_ne here, before q]
        by_cases self : q = p
        · subst self
          rw [Function.update_self, holds]
          simp [here]
        · rw [Function.update_of_ne self]

theorem owned_of_reachable (two : 2 ≤ numPhils)
    (reachable : Reachable (step numPhils) initialState s) : Owned numPhils s :=
  reachable.invariant (initialState_owned numPhils) fun _ _ _ owned moved =>
    owned.effect (step_effect two moved)

end QuashLabs.DiningPhilosophers.Asymmetric
