import Mathlib.Data.List.Sort

/-!
# Stable insertion

Inserting each element of a list behind the elements that it does not strictly precede
sorts the list and keeps equivalent elements in their order. The strict relation is
asymmetric and its complement is transitive.
-/

namespace QuashLabs.Sorting

universe u

variable {α : Type u}

/-- A strict weak order: `a` precedes `b`, and elements that do not precede each other
are equivalent. -/
structure StrictWeak (precedes : α → α → Prop) : Prop where
  asymm : ∀ {a b}, precedes a b → ¬ precedes b a
  negTrans : ∀ {a b c}, ¬ precedes a b → ¬ precedes b c → ¬ precedes a c

/-- No element precedes an earlier one. -/
def Sorted (precedes : α → α → Prop) (l : List α) : Prop :=
  l.Pairwise fun a b => ¬ precedes b a

/-- Neither element precedes the other. -/
def Equivalent (precedes : α → α → Prop) (a b : α) : Prop := ¬ precedes a b ∧ ¬ precedes b a

variable {precedes : α → α → Prop} [DecidableRel precedes]

instance : DecidableRel (Equivalent precedes) :=
  fun a b => inferInstanceAs (Decidable (¬ precedes a b ∧ ¬ precedes b a))

/-- The list that arises when the elements are inserted one by one. -/
def insertAll (precedes : α → α → Prop) [DecidableRel precedes] (l sorted : List α) : List α :=
  l.foldl (fun sorted a => sorted.orderedInsert precedes a) sorted

theorem perm_insertAll (l sorted : List α) : (insertAll precedes l sorted).Perm (l ++ sorted) := by
  induction l generalizing sorted with
  | nil => exact .refl _
  | cons a l ih =>
      exact (ih _).trans (((List.perm_orderedInsert precedes a sorted).append_left l).trans
        List.perm_middle)

theorem sorted_orderedInsert (order : StrictWeak precedes) (a : α) {l : List α}
    (sorted : Sorted precedes l) : Sorted precedes (l.orderedInsert precedes a) := by
  induction l with
  | nil => exact List.pairwise_singleton _ a
  | cons b l ih =>
      rcases List.pairwise_cons.mp sorted with ⟨first, rest⟩
      by_cases before : precedes a b
      · rw [List.orderedInsert_cons, if_pos before]
        refine List.pairwise_cons.mpr ⟨fun c member => ?_, sorted⟩
        rcases List.mem_cons.mp member with rfl | later
        · exact order.asymm before
        · exact order.negTrans (first c later) (order.asymm before)
      · rw [List.orderedInsert_cons, if_neg before]
        refine List.pairwise_cons.mpr ⟨fun c member => ?_, ih rest⟩
        rcases (List.mem_orderedInsert precedes).mp member with rfl | later
        · exact before
        · exact first c later

theorem sorted_insertAll (order : StrictWeak precedes) (l : List α) {sorted : List α}
    (start : Sorted precedes sorted) : Sorted precedes (insertAll precedes l sorted) := by
  induction l generalizing sorted with
  | nil => exact start
  | cons a l ih => exact ih (sorted_orderedInsert order a start)

/-- Behind the place of insertion no element is equivalent to what the new one is. -/
theorem filter_orderedInsert (order : StrictWeak precedes) (x a : α) {l : List α}
    (sorted : Sorted precedes l) :
    (l.orderedInsert precedes a).filter (Equivalent precedes x ·) =
      l.filter (Equivalent precedes x ·) ++ [a].filter (Equivalent precedes x ·) := by
  induction l with
  | nil => rfl
  | cons b l ih =>
      rcases List.pairwise_cons.mp sorted with ⟨first, rest⟩
      by_cases before : precedes a b
      · rw [List.orderedInsert_cons, if_pos before]
        by_cases same : Equivalent precedes x a
        · have none : (b :: l).filter (Equivalent precedes x ·) = [] := by
            refine List.filter_eq_nil_iff.mpr fun c member equivalent => ?_
            have behind : ¬ precedes c b := by
              rcases List.mem_cons.mp member with rfl | later
              · exact fun self => order.asymm self self
              · exact first c later
            have joined : ¬ precedes a c :=
              order.negTrans same.2 (of_decide_eq_true equivalent).1
            exact order.negTrans joined behind before
          rw [List.filter_cons_of_pos (by simpa using same), none]
          simp [same]
        · simp [same]
      · rw [List.orderedInsert_cons, if_neg before, List.filter_cons, List.filter_cons, ih rest]
        split <;> rfl

theorem filter_insertAll (order : StrictWeak precedes) (x : α) (l : List α) {sorted : List α}
    (start : Sorted precedes sorted) :
    (insertAll precedes l sorted).filter (Equivalent precedes x ·) =
      sorted.filter (Equivalent precedes x ·) ++ l.filter (Equivalent precedes x ·) := by
  induction l generalizing sorted with
  | nil => simp [insertAll]
  | cons a l ih =>
      have later := ih (sorted_orderedInsert order a start)
      rw [filter_orderedInsert order x a start, List.append_assoc, ← List.filter_append] at later
      exact later

end QuashLabs.Sorting
