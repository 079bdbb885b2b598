import QuashLabs.PriorityQueue.Runs
import QuashLabs.Sorting.StableInsertion

/-!
# Draining a priority queue

Offering the elements of a list to a fresh queue sorts them stably, and polling
returns them from the front. The queue cannot be drained: the poll of the only
element that is left dereferences the null pointer behind it.
-/

namespace QuashLabs.PriorityQueue

open QuashLabs.Linked QuashLabs.Checked QuashLabs.Sorting

universe u

variable {α : Type u} {q : Priqueue α} {entries : List (Nat × α)} {last : Option Nat}

/-- Offering elements one by one, with memory for each. -/
def offerAll (elements : List α) (q : Priqueue α) : Except Failure (Priqueue α) :=
  elements.foldlM (fun q ptr => Prod.snd <$> priqueueOffer true ptr q) q

/-- Polling a number of times. -/
def pollTimes : Nat → Priqueue α → Except Failure (List (Option α) × Priqueue α)
  | 0, q => .ok ([], q)
  | count + 1, q => do
      let (element, q) ← priqueuePoll q
      let (elements, q) ← pollTimes count q
      return (element :: elements, q)

/-- A comparer that is a total preorder: `x` is at most `y` when it returns at most zero,
and it is negative when the other way round it is positive. -/
structure TotalPreorder (comparer : α → α → Int) : Prop where
  opposite : ∀ x y, comparer x y < 0 ↔ 0 < comparer y x
  trans : ∀ x y z, comparer x y ≤ 0 → comparer y z ≤ 0 → comparer x z ≤ 0

/-- The list is the elements in the order of the comparer, equals in their old order. -/
structure StablySorted (comparer : α → α → Int) (elements sorted : List α) : Prop where
  perm : sorted.Perm elements
  ordered : sorted.Pairwise fun x y => comparer x y ≤ 0
  stable : ∀ x, sorted.filter (fun y => comparer x y = 0) =
    elements.filter (fun y => comparer x y = 0)

/-- Offering the elements and polling each of them returns them stably sorted and
leaves an empty queue. -/
def Drains (comparer : α → α → Int) (elements : List α) : Prop :=
  ∃ q sorted q', offerAll elements (priqueueInit comparer) = .ok q ∧
    pollTimes elements.length q = .ok (sorted.map some, q') ∧
    StablySorted comparer elements sorted ∧ priqueueSize q' = 0 ∧ priqueuePeek q' = .ok none

/-! ## The comparer -/

theorem TotalPreorder.strictWeak {comparer : α → α → Int} (order : TotalPreorder comparer) :
    StrictWeak fun x y => comparer x y < 0 where
  asymm := fun {x y} before after => by
    have := (order.opposite x y).mp before
    omega
  negTrans := fun {x y z} notFirst notSecond => by
    have first : comparer y x ≤ 0 := by
      by_contra positive
      exact notFirst ((order.opposite x y).mpr (by omega))
    have second : comparer z y ≤ 0 := by
      by_contra positive
      exact notSecond ((order.opposite y z).mpr (by omega))
    have both := order.trans z y x second first
    intro before
    have := (order.opposite x z).mp before
    omega

theorem TotalPreorder.equivalent_iff {comparer : α → α → Int} (order : TotalPreorder comparer)
    (x y : α) : Equivalent (fun x y => comparer x y < 0) x y ↔ comparer x y = 0 := by
  have left := order.opposite x y
  have right := order.opposite y x
  constructor
  · rintro ⟨notBefore, notAfter⟩
    omega
  · intro equal
    exact ⟨by omega, by omega⟩

/-- What `priqueue_offer` does to a fresh queue sorts the elements stably. -/
theorem stablySorted_insertAll {comparer : α → α → Int} (order : TotalPreorder comparer)
    (elements : List α) :
    StablySorted comparer elements (insertAll (fun x y => comparer x y < 0) elements []) where
  perm := by
    have moved : (insertAll (fun x y => comparer x y < 0) elements []).Perm (elements ++ []) :=
      perm_insertAll elements []
    rwa [List.append_nil] at moved
  ordered := by
    refine (sorted_insertAll order.strictWeak elements .nil).imp fun {x y} notBefore => ?_
    have := order.opposite y x
    omega
  stable := fun x => by
    have equal := filter_insertAll order.strictWeak x elements List.Pairwise.nil
    simpa [order.equivalent_iff] using equal

/-! ## Offering and polling -/

/-- One offer inserts the element into the list of elements. -/
theorem priqueueOffer_inserts (linked : WellLinked q entries last) (fits : q.size < intMax)
    (ptr : α) :
    ∃ index q' entries' last', priqueueOffer true ptr q = .ok (index, q') ∧
      q'.comparer = q.comparer ∧ WellLinked q' entries' last' ∧ q'.size = q.size + 1 ∧
      entries'.map Prod.snd =
        (entries.map Prod.snd).orderedInsert (fun x y => q.comparer x y < 0) ptr := by
  rcases priqueueOffer_spec linked fits ptr with ⟨q', last', runs, comparer, linked'⟩
  refine ⟨_, q', _, last', runs, comparer, linked', ?_, ?_⟩
  · rw [linked'.size, linked.size, List.orderedInsert_length]
    simp
  · exact List.map_orderedInsert _ _ Prod.snd _ _ (fun _ _ => Iff.rfl) (fun _ _ => Iff.rfl)

/-- Offering all elements inserts each of them, as long as it returns. -/
theorem offerAll_returns (linked : WellLinked q entries last) {elements : List α} {q' : Priqueue α}
    (returns : offerAll elements q = .ok q') :
    ∃ entries' last', WellLinked q' entries' last' ∧ entries'.map Prod.snd =
      insertAll (fun x y => q.comparer x y < 0) elements (entries.map Prod.snd) := by
  induction elements generalizing q entries last with
  | nil =>
      cases returns
      exact ⟨entries, last, linked, rfl⟩
  | cons ptr elements ih =>
      rw [offerAll, List.foldlM_cons] at returns
      rcases bind_eq_ok.mp returns with ⟨q₁, offered, later⟩
      cases offers : priqueueOffer true ptr q with
      | error failure => simp [offers] at offered
      | ok result =>
          rcases priqueueOffer_inserts linked (priqueueOffer_returns offers).2 ptr with
            ⟨index, q₂, entries', last', runs, comparer, linked', -, inserted⟩
          obtain rfl : q₂ = q₁ := by simpa [runs] using offered
          rcases ih linked' later with ⟨entries'', last'', linked'', same⟩
          rw [comparer, inserted] at same
          exact ⟨entries'', last'', linked'', same⟩

/-- Offering returns as long as the size can be counted. -/
theorem offerAll_spec (linked : WellLinked q entries last) {elements : List α}
    (fits : q.size + elements.length ≤ intMax) : ∃ q', offerAll elements q = .ok q' := by
  induction elements generalizing q entries last with
  | nil => exact ⟨q, rfl⟩
  | cons ptr elements ih =>
      rw [List.length_cons] at fits
      rcases priqueueOffer_inserts linked (by omega) ptr with
        ⟨index, q₁, entries', last', runs, -, linked', size, -⟩
      rcases ih linked' (by omega) with ⟨q', later⟩
      refine ⟨q', ?_⟩
      rw [offerAll, List.foldlM_cons, runs]
      exact later

/-- All polls but the last return the elements in order. -/
theorem pollTimes_spec {before : List (Nat × α)} {a : Nat} {x : α}
    (linked : WellLinked q (before ++ [(a, x)]) last) :
    ∃ q', pollTimes before.length q = .ok (before.map fun entry => some entry.2, q') ∧
      WellLinked q' [(a, x)] last := by
  induction before generalizing q with
  | nil => exact ⟨q, rfl, linked⟩
  | cons entry before ih =>
      obtain ⟨⟨c, y⟩, rest, split⟩ := List.exists_cons_of_ne_nil (by simp : before ++ [(a, x)] ≠ [])
      rw [List.cons_append, split] at linked
      rcases priqueuePoll_several linked with ⟨q₁, polls, -, linked'⟩
      rw [← split] at linked'
      rcases ih linked' with ⟨q', later, linked''⟩
      exact ⟨q', by simp [pollTimes, polls, later], linked''⟩

/-- Polling as often as there are elements dereferences the null pointer. -/
theorem pollTimes_all (linked : WellLinked q entries last) (nonempty : entries ≠ []) :
    pollTimes entries.length q = .error .nullDereference := by
  induction entries generalizing q with
  | nil => exact absurd rfl nonempty
  | cons entry entries ih =>
      rcases entries with _ | ⟨⟨c, y⟩, rest⟩
      · simp [pollTimes, priqueuePoll_single linked]
      · rcases priqueuePoll_several linked with ⟨q₁, polls, -, linked'⟩
        have later := ih linked' (by simp)
        simp only [List.length_cons, pollTimes, polls, ok_bind] at later ⊢
        simp only [later, error_bind]

/-- With room to count them, offering the elements and polling all but one returns the
stably sorted list up to its last element, which is then at the front. -/
theorem polls_stablySorted {comparer : α → α → Int} (order : TotalPreorder comparer)
    {elements : List α} (nonempty : elements ≠ []) (fits : elements.length ≤ intMax) :
    ∃ q sorted x q', offerAll elements (priqueueInit comparer) = .ok q ∧
      StablySorted comparer elements (sorted ++ [x]) ∧
      pollTimes sorted.length q = .ok (sorted.map some, q') ∧
      priqueuePeek q' = .ok (some x) ∧ priqueueSize q' = 1 := by
  have room : (priqueueInit comparer).size + elements.length ≤ intMax := by
    simpa [priqueueInit] using fits
  rcases offerAll_spec (wellLinked_init comparer) room with ⟨q, offers⟩
  rcases offerAll_returns (wellLinked_init comparer) offers with ⟨entries, last, linked, same⟩
  have sorts : StablySorted comparer elements (entries.map Prod.snd) :=
    same ▸ stablySorted_insertAll order elements
  rcases List.eq_nil_or_concat' entries with rfl | ⟨before, ⟨a, x⟩, rfl⟩
  · exact absurd (List.nil_perm.mp sorts.perm) nonempty
  · rcases pollTimes_spec linked with ⟨q', polls, linked'⟩
    refine ⟨q, before.map Prod.snd, x, q', offers, by simpa using sorts, ?_, ?_, ?_⟩
    · simpa [Function.comp_def] using polls
    · simpa using priqueuePeek_spec linked'
    · simpa [priqueueSize] using linked'.size

/-- The queue can be drained exactly when nothing was offered. -/
theorem drains_iff (comparer : α → α → Int) (elements : List α) :
    Drains comparer elements ↔ elements = [] := by
  constructor
  · rintro ⟨q, sorted, q', offers, polls, -, -, -⟩
    by_contra nonempty
    rcases offerAll_returns (wellLinked_init comparer) offers with ⟨entries, last, linked, same⟩
    have length : entries.length = elements.length := by
      have lengths := congrArg List.length same
      rw [(perm_insertAll elements _).length_eq] at lengths
      simpa using lengths
    rw [← length, pollTimes_all linked] at polls
    · contradiction
    · rintro rfl
      exact nonempty (List.eq_nil_of_length_eq_zero length.symm)
  · rintro rfl
    exact ⟨priqueueInit comparer, [], priqueueInit comparer, rfl, rfl,
      ⟨.refl _, List.Pairwise.nil, fun _ => rfl⟩, rfl, rfl⟩

/-- One offered element is not polled. -/
theorem drains_fails : TotalPreorder (fun a b : Int => a - b) ∧
    ¬ Drains (fun a b : Int => a - b) [12] := by
  refine ⟨⟨fun x y => by omega, fun x y z _ _ => by omega⟩, ?_⟩
  rintro ⟨q, sorted, q', offers, polls, -⟩
  cases offers
  contradiction

end QuashLabs.PriorityQueue
