import Mathlib.Data.List.Basic

/-!
# Descriptor tables

A process has a table of descriptors, each of which refers to an open file or is free. A new
descriptor is the lowest free one. Opening, duplicating and closing change one entry of the
table, and what a process holds is what some descriptor refers to.
-/

namespace QuashLabs.Descriptors

universe u

variable {File : Type u}

/-- The descriptors of a process in order; `none` is a free one. -/
abbrev Table (File : Type u) := List (Option File)

namespace Table

/-- What a descriptor refers to. -/
def lookup (table : Table File) (fd : Nat) : Option File := table.getD fd none

/-- The table with another entry for a descriptor. -/
def put : Nat → Option File → Table File → Table File
  | 0, file, [] => [file]
  | 0, file, _ :: table => file :: table
  | fd + 1, file, [] => none :: put fd file []
  | fd + 1, file, entry :: table => entry :: put fd file table

/-- The lowest free descriptor. -/
def lowest (table : Table File) : Nat := table.findIdx Option.isNone

/-- A new descriptor for a file. -/
def install (file : File) (table : Table File) : Nat × Table File :=
  (table.lowest, table.put table.lowest (some file))

/-- `close`. -/
def close (fd : Nat) (table : Table File) : Table File := put fd none table

/-- Several calls of `close`. -/
def closeAll (fds : List Nat) (table : Table File) : Table File :=
  fds.foldl (fun table fd => close fd table) table

/-- `dup2`, which does nothing for a descriptor that is free. -/
def dup2 (old new : Nat) (table : Table File) : Table File :=
  match lookup table old with
  | some file => put new (some file) table
  | none => table

/-- Some descriptor refers to the file. -/
def Holds (table : Table File) (file : File) : Prop := ∃ fd, lookup table fd = some file

variable {table : Table File} {fd other old new : Nat} {file : File} {entry : Option File}

@[simp]
theorem lookup_nil (fd : Nat) : lookup ([] : Table File) fd = none := rfl

@[simp]
theorem lookup_cons_zero (entry : Option File) (table : Table File) :
    lookup (entry :: table) 0 = entry := rfl

@[simp]
theorem lookup_cons_succ (entry : Option File) (table : Table File) (fd : Nat) :
    lookup (entry :: table) (fd + 1) = lookup table fd := rfl

/-- Descriptors that refer to different files are different. -/
theorem ne_of_lookup {file' : File} (here : lookup table fd = some file)
    (there : lookup table other = some file') (different : file ≠ file') : fd ≠ other := by
  rintro rfl
  exact different (Option.some.inj (here.symm.trans there))

theorem lookup_put : lookup (put fd entry table) other =
    if other = fd then entry else lookup table other := by
  induction fd, entry, table using put.induct generalizing other with
  | case1 entry =>
      cases other with
      | zero => rfl
      | succ other => simp [put]
  | case2 entry first table =>
      cases other with
      | zero => rfl
      | succ other => simp [put]
  | case3 fd entry ih =>
      cases other with
      | zero => rfl
      | succ other => simp [put, ih]
  | case4 fd entry first table ih =>
      cases other with
      | zero => rfl
      | succ other => simp [put, ih]

/-- The lowest free descriptor is free. -/
theorem lookup_lowest (table : Table File) : lookup table table.lowest = none := by
  induction table with
  | nil => rfl
  | cons entry table ih =>
      cases entry with
      | none => rfl
      | some file => simpa [lowest, List.findIdx_cons] using ih

theorem lookup_install : lookup (table.install file).2 fd =
    if fd = table.lowest then some file else lookup table fd := lookup_put

theorem lookup_close :
    lookup (close fd table) other = if other = fd then none else lookup table other := lookup_put

theorem lookup_closeAll (fds : List Nat) : lookup (closeAll fds table) other =
    if other ∈ fds then none else lookup table other := by
  induction fds generalizing table with
  | nil => simp [closeAll]
  | cons fd fds ih =>
      have first : lookup (closeAll (fd :: fds) table) other =
          if other ∈ fds then none else lookup (close fd table) other := ih
      rw [first, lookup_close]
      by_cases member : other ∈ fds
      · simp [member]
      · simp [member]

theorem lookup_dup2 (opened : lookup table old = some file) :
    lookup (dup2 old new table) other =
      if other = new then some file else lookup table other := by
  rw [dup2, opened]
  exact lookup_put

end Table

end QuashLabs.Descriptors
