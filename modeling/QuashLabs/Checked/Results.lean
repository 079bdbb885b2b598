import Mathlib.Data.List.Forall2

/-!
# Lists of results that may be missing

A list of results is there when each of them is. The rules relate the list to its members.
-/

namespace QuashLabs.Checked

universe u

variable {α β : Type u} {f : α → Option β} {g : α → β} {items : List α} {results : List β}

/-- The results of a list are those of its members. -/
theorem mapM_eq_some_iff : items.mapM f = some results ↔
    List.Forall₂ (fun item result => f item = some result) items results := by
  induction items generalizing results with
  | nil =>
      rw [List.forall₂_nil_left_iff]
      exact Option.some_inj.trans eq_comm
  | cons item items ih =>
      simp only [List.mapM_cons, Option.bind_eq_bind, Option.bind_eq_some_iff, ih,
        List.forall₂_cons_left_iff]
      constructor
      · rintro ⟨first, isFirst, later, areLater, all⟩
        exact ⟨first, later, isFirst, areLater, (Option.some.inj all).symm⟩
      · rintro ⟨first, later, isFirst, areLater, rfl⟩
        exact ⟨first, isFirst, later, areLater, rfl⟩

/-- Results that are there one by one. -/
theorem mapM_eq_some_map (each : ∀ item ∈ items, f item = some (g item)) :
    items.mapM f = some (items.map g) := by
  rw [mapM_eq_some_iff, List.forall₂_map_right_iff, List.forall₂_same]
  exact each

/-- Results that are known where they are there. -/
theorem eq_map_of_mapM (each : ∀ item result, f item = some result → result = g item)
    (all : items.mapM f = some results) : results = items.map g := by
  have known := (mapM_eq_some_iff.mp all).imp fun item result found =>
    (each item result found).symm
  rw [← List.forall₂_map_left_iff, List.forall₂_eq_eq_eq] at known
  exact known.symm

/-- A result at its place in the list. -/
theorem getElem?_of_mapM {i : Nat} {item : α} {result : β} (all : items.mapM f = some results)
    (isItem : items[i]? = some item) (isResult : results[i]? = some result) :
    f item = some result := by
  rcases List.getElem?_eq_some_iff.mp isItem with ⟨inItems, rfl⟩
  rcases List.getElem?_eq_some_iff.mp isResult with ⟨inResults, rfl⟩
  exact (mapM_eq_some_iff.mp all).get inItems inResults

theorem isSome_mapM_iff :
    (items.mapM f).isSome = true ↔ ∀ item ∈ items, (f item).isSome = true := by
  induction items with
  | nil => simp
  | cons item items ih =>
      rw [List.mapM_cons, List.forall_mem_cons, ← ih]
      cases f item with
      | none => simp
      | some first =>
          cases items.mapM f with
          | none => simp
          | some later => simp

end QuashLabs.Checked
