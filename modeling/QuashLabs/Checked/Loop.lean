import QuashLabs.Checked.Outcome

/-!
# Loops with a guard

A body that may stop is repeated as long as a guard holds, for at most as many
evaluations of the guard as there is fuel. What the body preserves holds
whenever the guard is evaluated; a loop with a bound on its remaining rounds
needs no more fuel than that bound.
-/

namespace QuashLabs.Checked

universe u v

variable {ε : Type u} {σ : Type v}

/-- `while (guard) body`. -/
def whileLoop (unfinished : ε) (guard : σ → Bool) (body : σ → Except ε σ) :
    Nat → σ → Except ε σ
  | 0, _ => .error unfinished
  | fuel + 1, s =>
      if guard s then body s >>= whileLoop unfinished guard body fuel else .ok s

/-- The states in which a loop from `start` evaluates its guard. -/
inductive LoopHead (guard : σ → Bool) (body : σ → Except ε σ) (start : σ) : σ → Prop
  | enter : LoopHead guard body start start
  | round {s s' : σ} (head : LoopHead guard body start s) (continues : guard s = true)
      (runs : body s = .ok s') : LoopHead guard body start s'

/-- `count` rounds of the loop, if it makes that many. -/
def roundsOf (guard : σ → Bool) (body : σ → Except ε σ) : Nat → σ → Option σ
  | 0, s => some s
  | count + 1, s =>
      if guard s then
        match body s with
        | .ok s' => roundsOf guard body count s'
        | .error _ => none
      else none

variable {guard : σ → Bool} {body : σ → Except ε σ} {start s : σ} {stop : ε → Prop}

theorem LoopHead.trans {middle : σ} (later : LoopHead guard body middle s)
    (first : LoopHead guard body start middle) : LoopHead guard body start s := by
  induction later with
  | enter => exact first
  | round _ continues runs ih => exact ih.round continues runs

theorem loopHead_of_roundsOf {count : Nat} (made : roundsOf guard body count start = some s) :
    LoopHead guard body start s := by
  induction count generalizing start with
  | zero =>
      cases made
      exact .enter
  | succ count ih =>
      rw [roundsOf] at made
      split at made
      · rename_i continues
        split at made
        · rename_i runs
          exact (ih made).trans (.round .enter continues runs)
        · cases made
      · cases made

/-- Each round keeps the invariant and lowers the bound on the rounds that remain. -/
def Lowers (guard : σ → Bool) (body : σ → Except ε σ) (stop : ε → Prop) (inv : Nat → σ → Prop) :
    Prop :=
  ∀ rounds s, inv rounds s → guard s = true →
    ∃ fewer, fewer < rounds ∧ Ends (inv fewer) stop (body s)

variable {inv : Nat → σ → Prop} {rounds : Nat}

/-- The invariant rule. -/
theorem LoopHead.keeps (each : Lowers guard body stop inv) (begins : inv rounds start)
    (head : LoopHead guard body start s) : ∃ rounds, inv rounds s := by
  induction head with
  | enter => exact ⟨rounds, begins⟩
  | round _ continues runs ih =>
      rcases ih with ⟨rounds, kept⟩
      rcases each rounds _ kept continues with ⟨fewer, -, ends⟩
      exact ⟨fewer, ends.of_ok runs⟩

/-- The rule for a loop that need not end. -/
theorem whileLoop_keeps {unfinished : ε} {kept : σ → Prop} (cut : stop unfinished)
    (each : ∀ s, kept s → guard s = true → Ends kept stop (body s)) (begins : kept s)
    (fuel : Nat) :
    Ends (fun s => kept s ∧ guard s = false) stop (whileLoop unfinished guard body fuel s) := by
  induction fuel generalizing s with
  | zero => exact cut
  | succ fuel ih =>
      rw [whileLoop]
      split
      · rename_i continues
        exact (each s begins continues).bind fun _ => ih
      · rename_i leaves
        exact ⟨begins, Bool.eq_false_iff.mpr leaves⟩

/-- A loop that makes at most `rounds` more rounds ends. -/
theorem whileLoop_ends {unfinished : ε} {fuel : Nat} (each : Lowers guard body stop inv)
    (begins : inv rounds s) (enough : rounds < fuel) :
    Ends (fun s => (∃ rounds, inv rounds s) ∧ guard s = false) stop
      (whileLoop unfinished guard body fuel s) := by
  induction fuel generalizing rounds s with
  | zero => cases enough
  | succ fuel ih =>
      rw [whileLoop]
      split
      · rename_i continues
        rcases each rounds s begins continues with ⟨fewer, less, ends⟩
        apply ends.bind
        intro s' kept
        exact ih kept (by omega)
      · rename_i leaves
        exact ⟨⟨rounds, begins⟩, Bool.eq_false_iff.mpr leaves⟩

end QuashLabs.Checked
