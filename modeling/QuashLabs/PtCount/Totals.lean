import QuashLabs.PtCount.Core

/-!
# What the atomic counter adds up to

At any time the counter of `ptcount_atomic.c` is the sum of the additions made so far,
wrapped around, and the places of the threads say how many these are. `main` prints when
every thread has made all of its own.
-/

namespace QuashLabs.PtCount

open QuashLabs.Transition

variable {numThreads : Nat} {args : ThreadArgs} {program : Program} {p : Nat} {s t : State}

/-! ## Sums in range -/

/-- A part of some equal summands is in range where all of them are. -/
theorem fitsInt_of_le {inc : Int} {few many : Nat} (fits : FitsInt (many * inc))
    (fewer : few ≤ many) : FitsInt (few * inc) := by
  have le : (few : Int) ≤ many := Int.ofNat_le.mpr fewer
  have zero : (0 : Int) ≤ few := Int.natCast_nonneg few
  unfold FitsInt at *
  rcases Int.le_total 0 inc with positive | negative
  · have above := Int.mul_le_mul_of_nonneg_right le positive
    have below := Int.mul_nonneg zero positive
    omega
  · have above := Int.mul_le_mul_of_nonpos_right le negative
    have below := Int.mul_nonpos_of_nonneg_of_nonpos zero negative
    omega

theorem wrapInt_of_fits {value : Int} (fits : FitsInt value) : wrapInt value = value := by
  unfold FitsInt at fits
  exact Int.bmod_eq_of_le (by omega) (by omega)

/-- Sums may be wrapped around at any time. -/
theorem wrapInt_add (value inc : Int) : wrapInt (wrapInt value + inc) = wrapInt (value + inc) :=
  Int.bmod_add_bmod

/-- One summand more. -/
theorem succ_mul_inc (n : Nat) (inc : Int) : ((n + 1 : Nat) : Int) * inc = n * inc + inc := by
  rw [Int.natCast_add, Int.add_mul]
  simp

/-! ## What a step does -/

/-- What a step of `inc_count` does. -/
inductive Effect (program : Program) (args : ThreadArgs) (p : Nat) (s : State) : State → Prop
  | goesOn (i : Nat) (stands : s.place p = .test i) (more : (i : Int) < args.loop) :
      Effect program args p s (s.move p (program.body i))
  | ends (i : Nat) (stands : s.place p = .test i) (last : ¬ (i : Int) < args.loop) :
      Effect program args p s (s.move p .finished)
  | locks (i : Nat) (stands : s.place p = .lock i) (free : s.countMutex = none) :
      Effect program args p s ({ s with countMutex := some p }.move p (.load i))
  | loads (i : Nat) (stands : s.place p = .load i) :
      Effect program args p s (s.move p (.store i s.count))
  | stores (i : Nat) (value : Int) (stands : s.place p = .store i value)
      (fits : FitsInt (value + args.inc)) :
      Effect program args p s ({ s with count := value + args.inc }.move p (.unlock i))
  | unlocks (i : Nat) (stands : s.place p = .unlock i) :
      Effect program args p s ({ s with countMutex := none }.move p (.addLoc i))
  | addsFetch (i : Nat) (stands : s.place p = .addFetch i) :
      Effect program args p s
        ({ s with count := wrapInt (s.count + args.inc) }.move p (.addLoc i))
  | addsLoc (i : Nat) (stands : s.place p = .addLoc i) (fits : FitsInt (s.loc p + args.inc)) :
      Effect program args p s
        ({ s with loc := Function.update s.loc p (s.loc p + args.inc) }.move p (.test (i + 1)))
  /-- A sum is no `int`. -/
  | overflows (sum : Int)
      (stands : (∃ i value, s.place p = .store i value ∧ sum = value + args.inc) ∨
        ∃ i, s.place p = .addLoc i ∧ sum = s.loc p + args.inc)
      (large : ¬ FitsInt sum) : Effect program args p s (s.move p .undefined)

theorem Effect.incCount (effect : Effect program args p s t) :
    incCount program args p s = some t := by
  unfold PtCount.incCount
  cases effect with
  | goesOn i stands more => simp only [stands, if_pos more]
  | ends i stands last => simp only [stands, if_neg last]
  | locks i stands free => simp only [stands, if_pos free]
  | loads i stands | unlocks i stands | addsFetch i stands => simp only [stands]
  | stores i value stands fits => simp only [stands, if_pos fits]
  | addsLoc i stands fits => simp only [stands, if_pos fits]
  | overflows sum stands large =>
      rcases stands with ⟨i, value, stands, rfl⟩ | ⟨i, stands, rfl⟩
      · simp only [stands, if_neg large]
      · simp only [stands, if_neg large]

theorem incCount_effect (moved : incCount program args p s = some t) :
    Effect program args p s t := by
  unfold incCount at moved
  cases stands : s.place p with
  | uncreated | finished | undefined =>
      simp only [stands] at moved
      contradiction
  | test i =>
      simp only [stands] at moved
      cases moved
      split
      · exact .goesOn i stands ‹_›
      · exact .ends i stands ‹_›
  | lock i =>
      simp only [stands] at moved
      split at moved
      · cases moved
        exact .locks i stands ‹_›
      · contradiction
  | load i =>
      simp only [stands] at moved
      cases moved
      exact .loads i stands
  | store i value =>
      simp only [stands] at moved
      split at moved
      · cases moved
        exact .stores i value stands ‹_›
      · cases moved
        exact .overflows _ (.inl ⟨i, value, stands, rfl⟩) ‹_›
  | unlock i =>
      simp only [stands] at moved
      cases moved
      exact .unlocks i stands
  | addFetch i =>
      simp only [stands] at moved
      cases moved
      exact .addsFetch i stands
  | addLoc i =>
      simp only [stands] at moved
      split at moved
      · cases moved
        exact .addsLoc i stands ‹_›
      · cases moved
        exact .overflows _ (.inr ⟨i, stands, rfl⟩) ‹_›

/-- What a step of `main` does. -/
inductive MainEffect (numThreads : Nat) (s : State) : State → Prop
  | creates (k : Nat) (stands : s.main = .create k) (more : k < numThreads) :
      MainEffect numThreads s { s.move k (.test 0) with main := .create (k + 1) }
  | hasCreated (k : Nat) (stands : s.main = .create k) (all : numThreads ≤ k) :
      MainEffect numThreads s { s with main := .join 0 }
  | joins (k : Nat) (stands : s.main = .join k) (more : k < numThreads)
      (finished : s.place k = .finished) :
      MainEffect numThreads s { s with main := .join (k + 1) }
  | prints (k : Nat) (stands : s.main = .join k) (all : numThreads ≤ k) :
      MainEffect numThreads s { s with main := .printed s.count }

theorem mainStep_effect (moved : mainStep numThreads s = some t) : MainEffect numThreads s t := by
  unfold mainStep at moved
  cases stands : s.main with
  | create k =>
      simp only [stands] at moved
      split at moved
      · cases moved
        exact .creates k stands ‹_›
      · cases moved
        exact .hasCreated k stands (Nat.le_of_not_lt ‹_›)
  | join k =>
      simp only [stands] at moved
      split at moved
      · split at moved
        · cases moved
          exact .joins k stands ‹_› ‹_›
        · contradiction
      · cases moved
        exact .prints k stands (Nat.le_of_not_lt ‹_›)
  | printed count =>
      simp only [stands] at moved
      contradiction

/-! ## The places of the threads -/

/-- The additions to `count` of a thread that has stood at its place. -/
def Place.added (rounds : Nat) : Place → Nat
  | .test i | .lock i | .load i | .store i _ | .addFetch i => i
  | .unlock i | .addLoc i => i + 1
  | .finished => rounds
  | .uncreated | .undefined => 0

/-- The additions to its own count. -/
def Place.counted (rounds : Nat) : Place → Nat
  | .test i | .lock i | .load i | .store i _ | .unlock i | .addFetch i | .addLoc i => i
  | .finished => rounds
  | .uncreated | .undefined => 0

/-- A place of the atomic program within the rounds of the loop. -/
def Place.Within (rounds : Nat) : Place → Prop
  | .test i => i ≤ rounds
  | .addFetch i | .addLoc i => i < rounds
  | .uncreated | .finished => True
  | _ => False

theorem Place.Within.added_le {rounds : Nat} {place : Place} (within : place.Within rounds) :
    place.added rounds ≤ rounds := by
  cases place <;> simp only [Place.Within] at within <;> simp only [Place.added] <;> omega

/-- What `main` knows of the threads: those before the place of its loop are created, or
joined. -/
def Joined (numThreads : Nat) (s : State) : Prop :=
  match s.main with
  | .create k => k ≤ numThreads ∧
      ∀ p < numThreads, s.place p = .uncreated ↔ k ≤ p
  | .join k => (∀ p < numThreads, s.place p ≠ .uncreated) ∧
      ∀ p < numThreads, p < k → s.place p = .finished
  | .printed count => count = s.count ∧ ∀ p < numThreads, s.place p = .finished

/-- The state of the atomic program in terms of the additions so far. -/
structure Tallied (numThreads : Nat) (args : ThreadArgs) (s : State) : Prop where
  within : ∀ p, (s.place p).Within args.rounds
  count : s.count = wrapInt (load (Place.added args.rounds) s.place numThreads * args.inc)
  loc : ∀ p < numThreads, s.loc p = (s.place p).counted args.rounds * args.inc
  free : s.countMutex = none
  joined : Joined numThreads s

theorem initialState_tallied (numThreads : Nat) (args : ThreadArgs) :
    Tallied numThreads args initialState where
  within _ := trivial
  count := by
    simp only [initialState, load_const, Place.added]
    rw [Nat.mul_zero]
    simp [wrapInt]
  loc _ _ := by simp [initialState, Place.counted]
  free := rfl
  joined := ⟨Nat.zero_le _, fun _ _ => iff_of_true rfl (Nat.zero_le _)⟩

/-- A thread that runs changes nothing that `main` knows. -/
theorem Joined.thread (joined : Joined numThreads s) (inside : p < numThreads) {place : Place}
    (running : s.place p ≠ .uncreated ∧ s.place p ≠ .finished) (created : place ≠ .uncreated)
    (places : t.place = Function.update s.place p place) (main : t.main = s.main) :
    Joined numThreads t := by
  have other {q : Nat} (different : q ≠ p) : t.place q = s.place q := by
    rw [places, Function.update_of_ne different]
  have here : t.place p = place := by rw [places, Function.update_self]
  unfold Joined at joined ⊢
  rw [main]
  cases stands : s.main with
  | create k =>
      simp only [stands] at joined ⊢
      refine ⟨joined.1, fun q member => ?_⟩
      by_cases self : q = p
      · subst self
        rw [here, ← joined.2 q member]
        exact iff_of_false created running.1
      · rw [other self]
        exact joined.2 q member
  | join k =>
      simp only [stands] at joined ⊢
      refine ⟨fun q member => ?_, fun q member before => ?_⟩
      · by_cases self : q = p
        · rw [self, here]
          exact created
        · rw [other self]
          exact joined.1 q member
      · by_cases self : q = p
        · exact absurd (joined.2 p inside (self ▸ before)) running.2
        · rw [other self]
          exact joined.2 q member before
  | printed count =>
      simp only [stands] at joined
      exact absurd (joined.2 p inside) running.2

/-- What a step of `main` does to the threads: it starts the one that is next. -/
theorem Joined.main (joined : Joined numThreads s) (moved : mainStep numThreads s = some t) :
    Joined numThreads t ∧ t.count = s.count ∧ t.loc = s.loc ∧ t.countMutex = s.countMutex ∧
      (t.place = s.place ∨ ∃ p < numThreads, s.place p = .uncreated ∧
        t.place = Function.update s.place p (.test 0)) := by
  unfold Joined at joined ⊢
  cases mainStep_effect moved with
  | creates k stands more =>
      rw [stands] at joined
      have new : s.place k = .uncreated := (joined.2 k more).mpr (Nat.le_refl k)
      refine ⟨⟨more, fun p member => ?_⟩, rfl, rfl, rfl, .inr ⟨k, more, new, rfl⟩⟩
      simp only [State.move]
      by_cases self : p = k
      · subst self
        rw [Function.update_self]
        exact iff_of_false nofun (by omega)
      · rw [Function.update_of_ne self, joined.2 p member]
        omega
  | hasCreated k stands all =>
      rw [stands] at joined
      refine ⟨⟨fun p member => ?_, fun p member before => absurd before (Nat.not_lt_zero p)⟩, rfl,
        rfl, rfl, .inl rfl⟩
      rw [Ne, joined.2 p member]
      omega
  | joins k stands more finished =>
      rw [stands] at joined
      refine ⟨⟨joined.1, fun p member before => ?_⟩, rfl, rfl, rfl, .inl rfl⟩
      rcases Nat.lt_succ_iff_lt_or_eq.mp before with earlier | rfl
      · exact joined.2 p member earlier
      · exact finished
  | prints k stands all =>
      rw [stands] at joined
      exact ⟨⟨rfl, fun p member => joined.2 p member (by omega)⟩, rfl, rfl, rfl, .inl rfl⟩

/-! ## One step -/

/-- A step of a thread that adds as much to the counts as its places say. -/
theorem Tallied.move (tallied : Tallied numThreads args s) (inside : p < numThreads)
    (place : Place) (running : s.place p ≠ .uncreated ∧ s.place p ≠ .finished)
    (created : place ≠ .uncreated) (within : place.Within args.rounds)
    (places : t.place = Function.update s.place p place) (main : t.main = s.main)
    (count : t.count = s.count ∧ place.added args.rounds = (s.place p).added args.rounds ∨
      t.count = wrapInt (s.count + args.inc) ∧
        place.added args.rounds = (s.place p).added args.rounds + 1)
    (loc : t.loc = Function.update s.loc p (place.counted args.rounds * args.inc))
    (mutex : t.countMutex = s.countMutex) : Tallied numThreads args t where
  within q := by
    rw [places, Function.update_apply]
    split
    · exact within
    · exact tallied.within q
  count := by
    have shift := load_update (Place.added args.rounds) s.place inside place
    rw [places]
    rcases count with ⟨same, added⟩ | ⟨raised, added⟩
    · rw [same, tallied.count]
      congr 3
      omega
    · have sum : load (Place.added args.rounds) (Function.update s.place p place) numThreads =
          load (Place.added args.rounds) s.place numThreads + 1 := by
        omega
      rw [raised, tallied.count, wrapInt_add, sum, succ_mul_inc]
  loc q member := by
    rw [loc, places]
    by_cases self : q = p
    · subst self
      rw [Function.update_self, Function.update_self]
    · rw [Function.update_of_ne self, Function.update_of_ne self]
      exact tallied.loc q member
  free := mutex.trans tallied.free
  joined := tallied.joined.thread inside running created places main

theorem Tallied.thread (tallied : Tallied numThreads args s) (inside : p < numThreads)
    (own : FitsInt (args.rounds * args.inc))
    (moved : incCount .atomic args p s = some t) : Tallied numThreads args t := by
  have within := tallied.within p
  have loc := tallied.loc p inside
  have kept (place : Place)
      (same : place.counted args.rounds = (s.place p).counted args.rounds) :
      s.loc = Function.update s.loc p (place.counted args.rounds * args.inc) := by
    rw [same, ← loc, Function.update_eq_self]
  have next (i : Nat) (stands : s.place p = .addLoc i) :
      s.loc p + args.inc = ((i + 1 : Nat) : Int) * args.inc := by
    rw [loc, stands, succ_mul_inc]
    rfl
  cases incCount_effect moved with
  | goesOn i stands more =>
      have inLoop : i < args.rounds := by
        unfold ThreadArgs.rounds
        omega
      exact tallied.move inside (.addFetch i) (by simp [stands]) nofun inLoop rfl rfl
        (.inl ⟨rfl, by rw [stands]; rfl⟩) (kept _ (by rw [stands]; rfl)) rfl
  | ends i stands done =>
      rw [stands] at within
      change i ≤ args.rounds at within
      have last : i = args.rounds := by
        unfold ThreadArgs.rounds at within ⊢
        omega
      exact tallied.move inside .finished (by simp [stands]) nofun trivial rfl rfl
        (.inl ⟨rfl, by rw [stands]; exact last.symm⟩)
        (kept _ (by rw [stands]; exact last.symm)) rfl
  | addsFetch i stands =>
      rw [stands] at within
      exact tallied.move inside (.addLoc i) (by simp [stands]) nofun within rfl rfl
        (.inr ⟨rfl, by rw [stands]; rfl⟩) (kept _ (by rw [stands]; rfl)) rfl
  | addsLoc i stands fits =>
      rw [stands] at within
      exact tallied.move inside (.test (i + 1)) (by simp [stands]) nofun within rfl rfl
        (.inl ⟨rfl, by rw [stands]; rfl⟩) (congrArg (Function.update s.loc p) (next i stands)) rfl
  | overflows sum stands large =>
      rcases stands with ⟨i, value, stands, rfl⟩ | ⟨i, stands, rfl⟩
      · rw [stands] at within
        exact absurd within id
      · rw [stands] at within
        rw [next i stands] at large
        exact absurd (fitsInt_of_le own within) large
  | locks i stands | loads i stands | unlocks i stands | stores i value stands =>
      rw [stands] at within
      exact absurd within id

theorem Tallied.main (tallied : Tallied numThreads args s)
    (moved : mainStep numThreads s = some t) : Tallied numThreads args t := by
  rcases tallied.joined.main moved with ⟨joined, count, loc, mutex, same | ⟨p, inside, new, places⟩⟩
  · refine ⟨?_, ?_, ?_, mutex.trans tallied.free, joined⟩
    · rw [same]
      exact tallied.within
    · rw [count, same]
      exact tallied.count
    · rw [loc, same]
      exact tallied.loc
  · have shift := load_update (Place.added args.rounds) s.place inside (.test 0)
    rw [new, ← places] at shift
    refine ⟨fun q => ?_, ?_, fun q member => ?_, mutex.trans tallied.free, joined⟩
    · rw [places, Function.update_apply]
      split
      · exact Nat.zero_le _
      · exact tallied.within q
    · rw [count, tallied.count]
      congr 3
      exact (Nat.add_right_cancel shift).symm
    · have before := tallied.loc q member
      rw [loc, places]
      by_cases self : q = p
      · subst self
        rw [Function.update_self, before, new]
        rfl
      · rw [Function.update_of_ne self]
        exact before

/-- The counter is right in every state that the atomic program reaches. -/
theorem tallied_of_reachable (own : 0 < numThreads → FitsInt (args.rounds * args.inc))
    (reachable : Reachable (step .atomic numThreads args) initialState s) :
    Tallied numThreads args s := by
  refine reachable.invariant (initialState_tallied numThreads args) ?_
  intro event s t tallied moved
  cases event with
  | thread p =>
      simp only [step] at moved
      split at moved
      · rename_i inside
        exact tallied.thread inside (own (by omega)) moved
      · contradiction
  | main => exact tallied.main moved

end QuashLabs.PtCount
