import Mathlib.Logic.Function.Basic

/-!
# Stores of named values

A store gives values to names; only valid names have one. Assigning to a valid name changes
the value of that name and of no other.
-/

namespace QuashLabs.Environment

universe u v

variable {Name : Type u} {Value : Type v} {valid : Name → Prop}

/-- The values of some valid names. -/
@[ext]
structure Store (valid : Name → Prop) (Value : Type v) where
  lookup : Name → Option Value
  named : ∀ {name value}, lookup name = some value → valid name

namespace Store

/-- The store without values. -/
def empty : Store valid Value where
  lookup _ := none
  named := nofun

variable [DecidableEq Name]

/-- A valid name gets a value. -/
def assign (store : Store valid Value) (name : Name) (isValid : valid name) (value : Value) :
    Store valid Value where
  lookup := Function.update store.lookup name (some value)
  named := by
    intro other found assigned
    by_cases same : other = name
    · exact same ▸ isValid
    · rw [Function.update_of_ne same] at assigned
      exact store.named assigned

variable {store : Store valid Value} {name other : Name} {value : Value} {isValid : valid name}

@[simp]
theorem lookup_assign_self : (store.assign name isValid value).lookup name = some value :=
  Function.update_self ..

@[simp]
theorem lookup_assign_of_ne (different : other ≠ name) :
    (store.assign name isValid value).lookup other = store.lookup other :=
  Function.update_of_ne different ..

/-- An assignment changes nothing exactly when the name has that value already. -/
theorem assign_eq_self_iff :
    store.assign name isValid value = store ↔ store.lookup name = some value := by
  constructor
  · intro same
    rw [← same, lookup_assign_self]
  · intro already
    ext1
    exact Function.update_eq_self_iff.mpr already.symm

/-- Two assignments to one name are equal exactly when the values are. -/
theorem assign_inj {value' : Value} :
    store.assign name isValid value = store.assign name isValid value' ↔ value = value' := by
  constructor
  · intro same
    have looked := congrArg (·.lookup name) same
    simpa using looked
  · exact congrArg _

/-- An assignment if the name is valid. -/
def assignIfValid [DecidablePred valid] (store : Store valid Value) (name : Name) (value : Value) :
    Option (Store valid Value) :=
  if isValid : valid name then some (store.assign name isValid value) else none

end Store

end QuashLabs.Environment
