import QuashLabs.Descriptors.Pipes

/-!
# How a child connects its pipes

Both shells open all pipes of a line before they fork, so that every child has every end. A
child duplicates the ends of its two pipes to its standard streams and then goes through all
pipes: of the one in front of it it closes the writing end, of the one behind it the reading
end, and of every other one both.
-/

namespace QuashLabs.QuashProject

open QuashLabs.Descriptors

universe u

variable {File : Type u}

/-! ## The code of a child and of its parent -/

/-- `dup2` with an end of the pipe at an index of the vector. -/
def dupEnd (pipes : List (Nat × Nat)) (index : Nat) (half : Nat × Nat → Nat) (fd : Nat)
    (table : Table (Channel File)) : Table (Channel File) :=
  match pipes[index]? with
  | some pipe => table.dup2 (half pipe) fd
  | none => table

/-- What child `i` closes of pipe `j`. -/
def closing (i j : Nat) (pipe : Nat × Nat) : List Nat :=
  if j + 1 = i then [pipe.2]
  else if j = i then [pipe.1]
  else [pipe.1, pipe.2]

/-- The part of child `i` under `if(pipecommand.size() >= i)`. -/
def connect (pipes : List (Nat × Nat)) (i : Nat) (table : Table (Channel File)) :
    Table (Channel File) :=
  if i ≤ pipes.length then
    let table := if 0 < i then dupEnd pipes (i - 1) Prod.fst 0 table else table
    let table := if i < pipes.length then dupEnd pipes i Prod.snd 1 table else table
    table.closeAll (pipes.zipIdx.flatMap fun entry => closing i entry.2 entry.1)
  else table

/-- The loop of the parent behind the forks. -/
def closePipes (opened : Opened File) : Table (Channel File) :=
  opened.table.closeAll (opened.ends.flatMap fun pipe => [pipe.1, pipe.2])

/-! ## What is open behind it -/

variable {opened : Opened File} {stdin stdout : File} {fd i j : Nat}

/-- The standard streams of the process are open. -/
structure Streams (opened : Opened File) (stdin stdout : File) : Prop where
  input : opened.table.lookup 0 = some (.other stdin)
  output : opened.table.lookup 1 = some (.other stdout)

/-- The standard streams stay open when pipes are opened. -/
theorem streams_pipes (stdin stdout : File) (rest : List (Option File)) (count : Nat) :
    Streams (Opened.pipes (some stdin :: some stdout :: rest) count) stdin stdout :=
  ⟨Opened.lookup_pipes count rfl, Opened.lookup_pipes count rfl⟩

/-- No standard stream is an end of a pipe. -/
theorem Streams.not_end (streams : Streams opened stdin stdout) (laid : opened.Laid)
    {pipe : Nat × Nat} (isPipe : opened.ends[j]? = some pipe) :
    pipe.1 ≠ 0 ∧ pipe.1 ≠ 1 ∧ pipe.2 ≠ 0 ∧ pipe.2 ≠ 1 := by
  have reads := (laid.reads pipe.1 j).mpr (by simp [isPipe])
  have writes := (laid.writes pipe.2 j).mpr (by simp [isPipe])
  have isReadEnd (file : File) : Channel.readEnd j ≠ .other file := by simp
  have isWriteEnd (file : File) : Channel.writeEnd j ≠ .other file := by simp
  exact ⟨Table.ne_of_lookup reads streams.input (isReadEnd stdin),
    Table.ne_of_lookup reads streams.output (isReadEnd stdout),
    Table.ne_of_lookup writes streams.input (isWriteEnd stdin),
    Table.ne_of_lookup writes streams.output (isWriteEnd stdout)⟩

/-- What child `i` closes. -/
def closed (pipes : List (Nat × Nat)) (i : Nat) : List Nat :=
  pipes.zipIdx.flatMap fun entry => closing i entry.2 entry.1

theorem mem_closed {pipes : List (Nat × Nat)} :
    fd ∈ closed pipes i ↔ ∃ j pipe, pipes[j]? = some pipe ∧ fd ∈ closing i j pipe := by
  simp only [closed, List.mem_flatMap, List.mem_zipIdx_iff_getElem?]
  constructor
  · rintro ⟨⟨pipe, j⟩, isPipe, member⟩
    exact ⟨j, pipe, isPipe, member⟩
  · rintro ⟨j, pipe, isPipe, member⟩
    exact ⟨(pipe, j), isPipe, member⟩

/-- What is closed is an end of a pipe. -/
theorem eq_end_of_mem_closing {pipe : Nat × Nat} (member : fd ∈ closing i j pipe) :
    fd = pipe.1 ∨ fd = pipe.2 := by
  rw [closing] at member
  split_ifs at member
  · exact .inr (List.mem_singleton.mp member)
  · exact .inl (List.mem_singleton.mp member)
  · exact List.mem_pair.mp member

/-- What is closed is no standard stream. -/
theorem Streams.ne_of_mem_closed (streams : Streams opened stdin stdout) (laid : opened.Laid)
    (member : fd ∈ closed opened.ends i) : fd ≠ 0 ∧ fd ≠ 1 := by
  rcases mem_closed.mp member with ⟨j, pipe, isPipe, member⟩
  rcases streams.not_end laid isPipe with ⟨readIn, readOut, writeIn, writeOut⟩
  rcases eq_end_of_mem_closing member with rfl | rfl
  · exact ⟨readIn, readOut⟩
  · exact ⟨writeIn, writeOut⟩

/-- The standard streams stay open. -/
theorem Streams.not_closed (streams : Streams opened stdin stdout) (laid : opened.Laid) (i : Nat) :
    0 ∉ closed opened.ends i ∧ 1 ∉ closed opened.ends i := by
  constructor
  · intro member
    exact (streams.ne_of_mem_closed laid member).1 rfl
  · intro member
    exact (streams.ne_of_mem_closed laid member).2 rfl

/-- A child closes the writing ends of all pipes but the one behind it. -/
theorem write_mem_closed {pipes : List (Nat × Nat)} (inside : j < pipes.length) (other : i ≠ j) :
    pipes[j].2 ∈ closed pipes i := by
  refine mem_closed.mpr ⟨j, pipes[j], List.getElem?_eq_getElem inside, ?_⟩
  rw [closing, if_neg (Ne.symm other)]
  split
  · exact List.mem_singleton_self _
  · exact List.mem_pair.mpr (.inr rfl)

/-- A child closes the reading ends of all pipes but the one in front of it. -/
theorem read_mem_closed {pipes : List (Nat × Nat)} (inside : j < pipes.length)
    (other : i ≠ j + 1) : pipes[j].1 ∈ closed pipes i := by
  refine mem_closed.mpr ⟨j, pipes[j], List.getElem?_eq_getElem inside, ?_⟩
  rw [closing, if_neg (Ne.symm other)]
  split
  · exact List.mem_singleton_self _
  · exact List.mem_pair.mpr (.inl rfl)

theorem lookup_dupEnd {pipe : Nat × Nat} {half : Nat × Nat → Nat} {new : Nat}
    {table : Table (Channel File)} {channel : Channel File}
    (isPipe : opened.ends[j]? = some pipe) (found : table.lookup (half pipe) = some channel) :
    (dupEnd opened.ends j half new table).lookup fd =
      if fd = new then some channel else table.lookup fd := by
  rw [dupEnd, isPipe]
  exact Table.lookup_dup2 found

/-- The table of a child when it has duplicated the end of the pipe in front of it. -/
theorem lookup_front (laid : opened.Laid) (bound : i ≤ opened.ends.length) :
    (if 0 < i then dupEnd opened.ends (i - 1) Prod.fst 0 opened.table
      else opened.table).lookup fd =
        if fd = 0 ∧ 0 < i then some (.readEnd (i - 1)) else opened.table.lookup fd := by
  by_cases later : 0 < i
  · have isPipe : opened.ends[i - 1]? = some opened.ends[i - 1] :=
      List.getElem?_eq_getElem (by omega)
    have found := (laid.reads opened.ends[i - 1].1 (i - 1)).mpr (by simp [isPipe])
    rw [if_pos later, lookup_dupEnd isPipe found]
    simp only [later, and_true]
  · simp [later]

/-- The table of child `i`: its streams are the ends of its pipes, and what it has not closed
is where it was. -/
theorem lookup_connect (laid : opened.Laid) (streams : Streams opened stdin stdout)
    (bound : i ≤ opened.ends.length) : (connect opened.ends i opened.table).lookup fd =
      if fd = 0 ∧ 0 < i then some (.readEnd (i - 1))
      else if fd = 1 ∧ i < opened.ends.length then some (.writeEnd i)
      else if fd ∈ closed opened.ends i then none
      else opened.table.lookup fd := by
  have inputOpen := (streams.not_closed laid i).1
  have front (fd : Nat) := @lookup_front _ opened fd i laid bound
  simp only [connect, if_pos bound, Table.lookup_closeAll]
  rw [← closed]
  generalize (if 0 < i then dupEnd opened.ends (i - 1) Prod.fst 0 opened.table
    else opened.table) = table at front ⊢
  have back : (if i < opened.ends.length then dupEnd opened.ends i Prod.snd 1 table
      else table).lookup fd =
        if fd = 1 ∧ i < opened.ends.length then some (.writeEnd i) else table.lookup fd := by
    by_cases notLast : i < opened.ends.length
    · have isPipe : opened.ends[i]? = some opened.ends[i] := List.getElem?_eq_getElem notLast
      have found := (laid.writes opened.ends[i].2 i).mpr (by simp [isPipe])
      have there : table.lookup opened.ends[i].2 = some (.writeEnd i) := by
        rw [front, if_neg fun isInput => (streams.not_end laid isPipe).2.2.1 isInput.1, found]
      rw [if_pos notLast, lookup_dupEnd isPipe there]
      simp only [notLast, and_true]
    · simp [notLast]
  rw [back, front]
  by_cases member : fd ∈ closed opened.ends i
  · rcases streams.ne_of_mem_closed laid member with ⟨notInput, notOutput⟩
    simp [member, notInput, notOutput]
  · by_cases input : fd = 0
    · subst input
      simp [inputOpen]
    · simp [member, input]

/-- A child reads the pipe in front of it. -/
theorem lookup_connect_input (laid : opened.Laid) (streams : Streams opened stdin stdout)
    (bound : i ≤ opened.ends.length) : (connect opened.ends i opened.table).lookup 0 =
      some (if 0 < i then .readEnd (i - 1) else .other stdin) := by
  rw [lookup_connect laid streams bound]
  by_cases later : 0 < i
  · simp [later]
  · simp [later, (streams.not_closed laid i).1, streams.input]

/-- A child writes the pipe behind it. -/
theorem lookup_connect_output (laid : opened.Laid) (streams : Streams opened stdin stdout)
    (bound : i ≤ opened.ends.length) : (connect opened.ends i opened.table).lookup 1 =
      some (if i < opened.ends.length then .writeEnd i else .other stdout) := by
  rw [lookup_connect laid streams bound]
  by_cases notLast : i < opened.ends.length
  · simp [notLast]
  · simp [notLast, (streams.not_closed laid i).2, streams.output]

/-- Of the writing ends a child holds that of the pipe behind it. -/
theorem holds_writeEnd_connect_iff (laid : opened.Laid) (streams : Streams opened stdin stdout)
    (bound : i ≤ opened.ends.length) (inside : j < opened.ends.length) :
    (connect opened.ends i opened.table).Holds (.writeEnd j) ↔ i = j := by
  constructor
  · rintro ⟨fd, found⟩
    rw [lookup_connect laid streams bound] at found
    split_ifs at found with input output shut
    · cases found
    · cases found
      rfl
    · have there := (laid.writes fd j).mp found
      obtain rfl : opened.ends[j].2 = fd := by simpa [inside] using there
      by_contra other
      exact shut (write_mem_closed inside other)
  · rintro rfl
    exact ⟨1, by rw [lookup_connect laid streams bound]; simp [inside]⟩

/-- Of the reading ends a child holds that of the pipe in front of it. -/
theorem holds_readEnd_connect_iff (laid : opened.Laid) (streams : Streams opened stdin stdout)
    (bound : i ≤ opened.ends.length) (inside : j < opened.ends.length) :
    (connect opened.ends i opened.table).Holds (.readEnd j) ↔ i = j + 1 := by
  constructor
  · rintro ⟨fd, found⟩
    rw [lookup_connect laid streams bound] at found
    split_ifs at found with input output shut
    · cases found
      omega
    · cases found
    · have there := (laid.reads fd j).mp found
      obtain rfl : opened.ends[j].1 = fd := by simpa [inside] using there
      by_contra other
      exact shut (read_mem_closed inside other)
  · rintro rfl
    exact ⟨0, by rw [lookup_connect laid streams bound]; simp⟩

/-- The parent does not hold what is at the ends of pipes only. -/
theorem not_holds_closePipes_of_ends {channel : Channel File}
    (atEnds : ∀ fd, opened.table.lookup fd = some channel →
      ∃ pipe ∈ opened.ends, fd ∈ [pipe.1, pipe.2]) :
    ¬(closePipes opened).Holds channel := by
  rintro ⟨fd, found⟩
  rw [closePipes, Table.lookup_closeAll] at found
  split_ifs at found with shut
  exact shut (List.mem_flatMap.mpr (atEnds fd found))

/-- The parent holds no end any more. -/
theorem not_holds_closePipes (laid : opened.Laid) (j : Nat) :
    ¬(closePipes opened).Holds (.writeEnd j) ∧ ¬(closePipes opened).Holds (.readEnd j) := by
  constructor
  · apply not_holds_closePipes_of_ends
    intro fd found
    rcases Option.map_eq_some_iff.mp ((laid.writes fd j).mp found) with ⟨pipe, isPipe, rfl⟩
    exact ⟨pipe, List.mem_of_getElem? isPipe, List.mem_pair.mpr (.inr rfl)⟩
  · apply not_holds_closePipes_of_ends
    intro fd found
    rcases Option.map_eq_some_iff.mp ((laid.reads fd j).mp found) with ⟨pipe, isPipe, rfl⟩
    exact ⟨pipe, List.mem_of_getElem? isPipe, List.mem_pair.mpr (.inl rfl)⟩

/-! ## Chains -/

/-- The descriptors of the processes that are there when all commands of a line are set up:
those of the shell, and those of the commands in order. -/
structure Processes (File : Type u) where
  shells : List (Table (Channel File))
  commands : List (Table (Channel File))

/-- The commands are chained: each reads the pipe in front of it and writes the pipe behind
it, and of every pipe the writing end is held by the command before it only, and the reading
end by the command behind it only. -/
structure Chained (stdin stdout : File) (processes : Processes File) : Prop where
  input : ∀ i table, processes.commands[i]? = some table →
    table.lookup 0 = some (if 0 < i then .readEnd (i - 1) else .other stdin)
  output : ∀ i table, processes.commands[i]? = some table →
    table.lookup 1 = some (if i + 1 < processes.commands.length then .writeEnd i
      else .other stdout)
  writers : ∀ j, j + 1 < processes.commands.length →
    ∀ i table, processes.commands[i]? = some table → (table.Holds (.writeEnd j) ↔ i = j)
  readers : ∀ j, j + 1 < processes.commands.length →
    ∀ i table, processes.commands[i]? = some table → (table.Holds (.readEnd j) ↔ i = j + 1)
  shells : ∀ table ∈ processes.shells, ∀ j, ¬table.Holds (.writeEnd j) ∧ ¬table.Holds (.readEnd j)

/-- Children that connect themselves to the pipes between them are chained. -/
theorem chained_of_connect (laid : opened.Laid) (streams : Streams opened stdin stdout)
    {processes : Processes File}
    (children : processes.commands =
      (List.range (opened.ends.length + 1)).map fun i => connect opened.ends i opened.table)
    (free : ∀ table ∈ processes.shells, ∀ j,
      ¬table.Holds (.writeEnd j) ∧ ¬table.Holds (.readEnd j)) :
    Chained stdin stdout processes := by
  have isChild {i : Nat} {table : Table (Channel File)}
      (found : processes.commands[i]? = some table) :
      i ≤ opened.ends.length ∧ table = connect opened.ends i opened.table := by
    rw [children, List.getElem?_map, Option.map_eq_some_iff] at found
    rcases found with ⟨k, isIndex, rfl⟩
    rcases List.getElem?_eq_some_iff.mp isIndex with ⟨inside, isIndex⟩
    rw [List.getElem_range] at isIndex
    rw [List.length_range] at inside
    exact ⟨by omega, by rw [isIndex]⟩
  have length : processes.commands.length = opened.ends.length + 1 := by
    rw [children, List.length_map, List.length_range]
  constructor
  · intro i table found
    rcases isChild found with ⟨bound, rfl⟩
    exact lookup_connect_input laid streams bound
  · intro i table found
    rcases isChild found with ⟨bound, rfl⟩
    rw [lookup_connect_output laid streams bound, length]
    simp only [Nat.add_lt_add_iff_right]
  · intro j inside i table found
    rcases isChild found with ⟨bound, rfl⟩
    exact holds_writeEnd_connect_iff laid streams bound (by omega)
  · intro j inside i table found
    rcases isChild found with ⟨bound, rfl⟩
    exact holds_readEnd_connect_iff laid streams bound (by omega)
  · exact free

end QuashLabs.QuashProject
