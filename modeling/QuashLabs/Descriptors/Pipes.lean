import QuashLabs.Descriptors.Table

/-!
# Pipes in a descriptor table

Pipes are opened one after the other and numbered in this order. The ends of a pipe get the
two lowest free descriptors; no other descriptor refers to them until one is duplicated.
-/

namespace QuashLabs.Descriptors

universe u

variable {File : Type u}

/-- An open file: one that was open before, or an end of a pipe. -/
inductive Channel (File : Type u)
  | other (file : File)
  | readEnd (pipe : Nat)
  | writeEnd (pipe : Nat)
  deriving Repr, DecidableEq

/-- The table of a process that has no pipe. -/
def inherit (table : Table File) : Table (Channel File) := table.map (Option.map .other)

/-- `pipe`: the descriptors of the ends, and the table. -/
def openPipe (pipe : Nat) (table : Table (Channel File)) : (Nat × Nat) × Table (Channel File) :=
  let reading := table.install (.readEnd pipe)
  let writing := reading.2.install (.writeEnd pipe)
  ((reading.1, writing.1), writing.2)

/-- Some pipes and the table in which they are open. -/
structure Opened (File : Type u) where
  ends : List (Nat × Nat)
  table : Table (Channel File)

namespace Opened

/-- One more pipe. -/
def more (opened : Opened File) : Opened File :=
  let new := openPipe opened.ends.length opened.table
  ⟨opened.ends ++ [new.1], new.2⟩

/-- A number of pipes for a process that has none. -/
def pipes (table : Table File) : Nat → Opened File
  | 0 => ⟨[], inherit table⟩
  | count + 1 => (pipes table count).more

/-- The ends of every pipe are at its two descriptors, and nowhere else. -/
structure Laid (opened : Opened File) : Prop where
  reads : ∀ fd pipe, opened.table.lookup fd = some (.readEnd pipe) ↔
    opened.ends[pipe]?.map Prod.fst = some fd
  writes : ∀ fd pipe, opened.table.lookup fd = some (.writeEnd pipe) ↔
    opened.ends[pipe]?.map Prod.snd = some fd

variable {opened : Opened File} {table : Table File} {file : File} {fd pipe : Nat}

theorem length_more : opened.more.ends.length = opened.ends.length + 1 := by
  simp [more]

theorem length_pipes (table : Table File) (count : Nat) :
    (pipes table count).ends.length = count := by
  induction count with
  | zero => rfl
  | succ count ih => rw [pipes, length_more, ih]

/-- What a table with one more pipe refers to. -/
theorem lookup_openPipe {table : Table (Channel File)} :
    (openPipe pipe table).2.lookup fd =
      if fd = (openPipe pipe table).1.2 then some (.writeEnd pipe)
      else if fd = (openPipe pipe table).1.1 then some (.readEnd pipe)
      else table.lookup fd := by
  simp only [openPipe, Table.lookup_install]
  rfl

/-- The ends of a new pipe are at free descriptors, and apart. -/
theorem openPipe_fresh (pipe : Nat) (table : Table (Channel File)) :
    table.lookup (openPipe pipe table).1.1 = none ∧
      table.lookup (openPipe pipe table).1.2 = none ∧
      (openPipe pipe table).1.2 ≠ (openPipe pipe table).1.1 := by
  have writing : (if (openPipe pipe table).1.2 = (openPipe pipe table).1.1 then
      some (.readEnd pipe) else table.lookup (openPipe pipe table).1.2) = none :=
    Table.lookup_install.symm.trans (Table.lookup_lowest _)
  have apart : (openPipe pipe table).1.2 ≠ (openPipe pipe table).1.1 := by
    intro same
    rw [if_pos same] at writing
    cases writing
  rw [if_neg apart] at writing
  exact ⟨Table.lookup_lowest table, writing, apart⟩

/-- A descriptor of a longer list of pipes. -/
theorem getElem?_more (opened : Opened File) (pipe : Nat) (half : Nat × Nat → Nat) :
    opened.more.ends[pipe]?.map half = some fd ↔
      opened.ends[pipe]?.map half = some fd ∨
        pipe = opened.ends.length ∧
          half (openPipe opened.ends.length opened.table).1 = fd := by
  rcases Nat.lt_trichotomy pipe opened.ends.length with less | rfl | greater
  · have other : pipe ≠ opened.ends.length := by omega
    simp [more, List.getElem?_append_left less, other]
  · simp [more]
  · have other : pipe ≠ opened.ends.length := by omega
    have none : opened.ends[pipe]? = Option.none := List.getElem?_eq_none (by omega)
    have noneMore : opened.more.ends[pipe]? = Option.none := by
      rw [List.getElem?_eq_none_iff, length_more]
      omega
    simp [none, noneMore, other]

/-- A new pipe is laid beside those that are. -/
theorem Laid.more (laid : opened.Laid) : opened.more.Laid where
  reads fd pipe := by
    rcases openPipe_fresh opened.ends.length opened.table with ⟨freeRead, freeWrite, apart⟩
    rw [getElem?_more, ← laid.reads, Opened.more, lookup_openPipe]
    split_ifs with isWrite isRead
    · subst isWrite
      simp [freeWrite, apart.symm]
    · subst isRead
      simp [freeRead, eq_comm]
    · simp [Ne.symm isRead]
  writes fd pipe := by
    rcases openPipe_fresh opened.ends.length opened.table with ⟨freeRead, freeWrite, apart⟩
    rw [getElem?_more, ← laid.writes, Opened.more, lookup_openPipe]
    split_ifs with isWrite isRead
    · subst isWrite
      simp [freeWrite, eq_comm]
    · subst isRead
      simp [freeRead, apart]
    · simp [Ne.symm isWrite]

theorem lookup_inherit : (inherit table).lookup fd = (table.lookup fd).map .other := by
  simp only [inherit, Table.lookup, List.getD_eq_getElem?_getD, List.getElem?_map]
  cases table[fd]? with
  | none => rfl
  | some entry => rfl

/-- A process without a pipe holds no end of one. -/
theorem not_holds_inherit (table : Table File) (pipe : Nat) :
    ¬(inherit table).Holds (.writeEnd pipe) ∧ ¬(inherit table).Holds (.readEnd pipe) := by
  constructor
  · rintro ⟨fd, found⟩
    simp [lookup_inherit] at found
  · rintro ⟨fd, found⟩
    simp [lookup_inherit] at found

/-- A table in which some pipes have been opened. -/
theorem laid_pipes (table : Table File) (count : Nat) : (pipes table count).Laid := by
  induction count with
  | zero =>
      constructor
      · intro fd pipe
        simp [pipes, lookup_inherit]
      · intro fd pipe
        simp [pipes, lookup_inherit]
  | succ count ih => exact ih.more

/-- What was open stays where it was. -/
theorem lookup_pipes (count : Nat) (found : table.lookup fd = some file) :
    (pipes table count).table.lookup fd = some (.other file) := by
  induction count with
  | zero => simp [pipes, lookup_inherit, found]
  | succ count ih =>
      rcases openPipe_fresh (pipes table count).ends.length (pipes table count).table with
        ⟨freeRead, freeWrite, -⟩
      rw [pipes, more, lookup_openPipe, if_neg, if_neg, ih]
      · rintro rfl
        rw [ih] at freeRead
        cases freeRead
      · rintro rfl
        rw [ih] at freeWrite
        cases freeWrite

end Opened

end QuashLabs.Descriptors
