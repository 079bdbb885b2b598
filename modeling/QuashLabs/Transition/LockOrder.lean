import Mathlib.Logic.Basic

/-!
# Locks taken in an order

Threads that wait for locks while they hold others cannot wait in a circle when every
lock that is waited for ranks above the locks held meanwhile: from any waiting thread
the way over the holders ends at a holder that does not wait.
-/

namespace QuashLabs.Transition

universe u v

variable {τ : Type u} {ρ : Type v} {holds waits : τ → ρ → Prop}

/-- Who holds what and waits for what, with the locks ranked. -/
structure LockOrder (holds waits : τ → ρ → Prop) (rank : ρ → Nat) (bound : Nat) : Prop where
  bounded : ∀ {t lock}, waits t lock → rank lock ≤ bound
  held : ∀ {t lock}, waits t lock → ∃ holder, holds holder lock
  ascending : ∀ {t lock wanted}, holds t lock → waits t wanted → rank lock < rank wanted

/-- Behind every waiting thread there is a holder that does not wait. -/
theorem LockOrder.exists_running {rank : ρ → Nat} {bound : Nat}
    (order : LockOrder holds waits rank bound) {t : τ} {lock : ρ} (waiting : waits t lock) :
    ∃ holder lock, holds holder lock ∧ ∀ wanted, ¬ waits holder wanted := by
  obtain ⟨height, top⟩ : ∃ height, bound - rank lock = height := ⟨_, rfl⟩
  induction height using Nat.strongRecOn generalizing t lock with
  | _ height ih =>
      rcases order.held waiting with ⟨holder, holding⟩
      by_cases blocked : ∃ wanted, waits holder wanted
      · rcases blocked with ⟨wanted, further⟩
        have above := order.ascending holding further
        have below := order.bounded further
        exact ih (bound - rank wanted) (by omega) further rfl
      · exact ⟨holder, lock, holding, not_exists.mp blocked⟩

end QuashLabs.Transition
