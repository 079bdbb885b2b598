import Mathlib.Data.List.Basic
import Mathlib.Data.Nat.ModEq

/-!
# Windows of a circular buffer

A circular buffer of `cap` slots that starts at `start` shows a list when the
slot `(start + i) % cap` holds the list's entry `i`. Slots outside the window
are unconstrained, so stale values and slots that were never written are both
allowed. The lemmas below are the effects of adding, removing and replacing at
either end.
-/

namespace QuashLabs.Ring

universe u

variable {α : Type u} {slots : List (Option α)} {cap start : Nat} {items : List α} {x y : α}

/-- The slots from `start` on, taken around the buffer, hold exactly `items`. -/
def Window (slots : List (Option α)) (cap start : Nat) (items : List α) : Prop :=
  ∀ i, ∀ inside : i < items.length, slots[(start + i) % cap]? = some (some items[i])

/-- Two positions of one window share a slot only when they are equal. -/
theorem mod_ne_of_lt {i j : Nat} (positions : i < j) (near : j < i + cap) :
    (start + i) % cap ≠ (start + j) % cap := by
  intro same
  have congruent : start + i ≡ start + j [MOD cap] := same
  have bare : i ≡ j [MOD cap] := Nat.ModEq.add_left_cancel' start congruent
  have divides : cap ∣ j - i := (Nat.modEq_iff_dvd' (by omega)).mp bare
  have small : j - i < cap := by omega
  exact absurd (Nat.eq_zero_of_dvd_of_lt divides small) (by omega)

/-- Going `count ≤ cap` slots around the buffer ends at the start only for no
slot and for all of them. -/
theorem add_mod_eq_start_iff {count : Nat} (inside : start < cap) (fits : count ≤ cap) :
    (start + count) % cap = start ↔ count = 0 ∨ count = cap := by
  rcases Nat.lt_or_ge (start + count) cap with below | wraps
  · rw [Nat.mod_eq_of_lt below]
    omega
  · rw [Nat.mod_eq_sub_mod wraps, Nat.mod_eq_of_lt (by omega)]
    omega

/-- The increment of an index with an explicit wrap at the end. -/
theorem wrap_eq_mod {index : Nat} (inside : index < cap) :
    (if index + 1 = cap then 0 else index + 1) = (index + 1) % cap := by
  split
  · rename_i last
    rw [last, Nat.mod_self]
  · rename_i inner
    rw [Nat.mod_eq_of_lt (by omega)]

/-- The slot before `start`, one step around the buffer. -/
theorem pred_add_mod (inside : start < cap) (i : Nat) :
    ((start + cap - 1) % cap + (i + 1)) % cap = (start + i) % cap := by
  rw [Nat.mod_add_mod, show start + cap - 1 + (i + 1) = start + i + cap by omega,
    Nat.add_mod_right]

namespace Window

@[simp]
theorem nil : Window slots cap start [] := by
  intro i inside
  simp at inside

theorem head (window : Window slots cap start (x :: items)) (inside : start < cap) :
    slots[start]? = some (some x) := by
  have first := window 0 (by simp)
  simpa [Nat.mod_eq_of_lt inside] using first

theorem tail (window : Window slots cap start (x :: items)) :
    Window slots cap ((start + 1) % cap) items := by
  intro i inside
  have later := window (i + 1) (by simpa using inside)
  rw [Nat.mod_add_mod, show start + 1 + i = start + (i + 1) by omega]
  simpa using later

theorem last (window : Window slots cap start (items ++ [x])) :
    slots[(start + items.length) % cap]? = some (some x) := by
  have final := window items.length (by simp)
  simpa using final

theorem front {later : List α} (window : Window slots cap start (items ++ later)) :
    Window slots cap start items := by
  intro i inside
  have early := window i (by rw [List.length_append]; omega)
  simpa [List.getElem_append_left inside] using early

/-- A window that starts at the first slot is an initial segment of the buffer. -/
theorem take_eq (window : Window slots cap 0 items) (fits : items.length ≤ cap) :
    slots.take items.length = items.map some := by
  apply List.ext_getElem?
  intro i
  by_cases inside : i < items.length
  · have slot := window i inside
    rw [Nat.zero_add, Nat.mod_eq_of_lt (Nat.lt_of_lt_of_le inside fits)] at slot
    rw [List.getElem?_take_of_lt inside, slot]
    simp [inside]
  · have past : items.length ≤ i := Nat.le_of_not_lt inside
    rw [List.getElem?_eq_none (by simp; omega), List.getElem?_eq_none (by simpa using past)]

/-- Writing the slot after the window extends it at the back. -/
theorem append (window : Window slots cap start items) (room : items.length < cap)
    (covers : cap ≤ slots.length) :
    Window (slots.set ((start + items.length) % cap) (some x)) cap start (items ++ [x]) := by
  intro i inside
  have bound : (start + items.length) % cap < slots.length :=
    lt_of_lt_of_le (Nat.mod_lt _ (by omega)) covers
  by_cases old : i < items.length
  · rw [List.getElem?_set_ne (mod_ne_of_lt old (by omega)).symm,
      List.getElem_append_left old]
    exact window i old
  · have final : i = items.length := by
      rw [List.length_append, List.length_singleton] at inside
      omega
    subst final
    simp [List.getElem?_set_self bound]

/-- Writing the slot before the window extends it at the front. -/
theorem cons (window : Window slots cap start items) (room : items.length < cap)
    (inside : start < cap) (covers : cap ≤ slots.length) :
    Window (slots.set ((start + cap - 1) % cap) (some x)) cap ((start + cap - 1) % cap)
      (x :: items) := by
  intro i bound
  have slot : (start + cap - 1) % cap < cap := Nat.mod_lt _ (by omega)
  cases i with
  | zero =>
      simp [Nat.mod_eq_of_lt slot, List.getElem?_set_self (lt_of_lt_of_le slot covers)]
  | succ i =>
      have old : i < items.length := by simpa using bound
      have apart : (start + cap - 1) % cap ≠ ((start + cap - 1) % cap + (i + 1)) % cap := by
        have positions : ((start + cap - 1) % cap + 0) % cap ≠
            ((start + cap - 1) % cap + (i + 1)) % cap := mod_ne_of_lt (by omega) (by omega)
        simpa [Nat.mod_eq_of_lt slot] using positions
      rw [List.getElem?_set_ne apart, pred_add_mod inside]
      simpa using window i old

/-- Overwriting the last slot replaces the last entry. -/
theorem setLast (window : Window slots cap start (items ++ [x])) (fits : items.length < cap)
    (covers : cap ≤ slots.length) :
    Window (slots.set ((start + items.length) % cap) (some y)) cap start (items ++ [y]) :=
  append (front window) fits covers

end Window

end QuashLabs.Ring
