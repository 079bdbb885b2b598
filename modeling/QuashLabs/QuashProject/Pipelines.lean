import QuashLabs.Checked.Results
import QuashLabs.QuashProject.Alignment
import QuashLabs.QuashProject.Connections

/-!
# Pipelines of `quash.cpp`

`execute_redirections` forks a helper, which opens the pipes of the line, forks the commands
and closes the pipes. The shell itself never has an end of a pipe. A child fills its argument
array before it connects itself; a longer command than the array has room for is not set up.
-/

namespace QuashLabs.QuashProject

open QuashLabs.Checked QuashLabs.Descriptors

variable {File : Type}

/-! ## The processes of a line -/

/-- The `freopen` branch that the mark of a process selects; `opens` opens a file in a mode, if
this is possible. -/
def reopen (opens : String → String → Option File) (st : Collected) (mark : String)
    (table : Table (Channel File)) : Table (Channel File) :=
  if mark = "<" then table.put 0 ((opens st.inFile "r").map .other)
  else if mark = ">" then table.put 1 ((opens st.outFile "w").map .other)
  else if mark = ">>" then table.put 1 ((opens st.outFile "a").map .other)
  else table

/-- The descriptors of child `i` at its `execvp`. -/
def setUp (opens : String → String → Option File) (st : Collected) (opened : Opened File)
    (i : Nat) : Option (Table (Channel File)) := do
  let cmdexec ← st.fullcommand[i]?
  guard (cmdexec.length + 1 ≤ st.args.length + 1)
  let mark ← st.redirection[i]?
  return reopen opens st mark (connect opened.ends i opened.table)

/-- The descriptors of the shell, of its helper and of all the commands of a line. -/
def lineProcesses (opens : String → String → Option File) (table : Table File)
    (cmd : List String) : Option (Processes File) := do
  let collected ← collect true cmd .start
  let st := collected.close
  let opened := Opened.pipes table st.pipecommand
  let commands ← (List.range st.fullcommand.length).mapM (setUp opens st opened)
  return ⟨[inherit table, closePipes opened], commands⟩

/-! ## The streams of a child -/

/-- The open file that standard input refers to; `opens` opens files, `stdin` is that of the
shell. -/
def Input.channel (opens : String → String → Option File) (stdin : File) :
    Input → Option (Channel File)
  | .inherited => some (.other stdin)
  | .pipe j => some (.readEnd j)
  | .file name => (opens name "r").map .other

/-- The open file that standard output refers to. -/
def Output.channel (opens : String → String → Option File) (stdout : File) :
    Output → Option (Channel File)
  | .inherited => some (.other stdout)
  | .pipe j => some (.writeEnd j)
  | .file name mode => (opens name mode).map .other

section Streams

variable {opens : String → String → Option File} {stdin stdout : File}
variable {rest : List (Option File)} {st : Collected} {i : Nat} {process : Launch} {mark : String}
variable {opened : Opened File} {table : Table (Channel File)}

/-- A table refers to what a process has for its standard streams. -/
def Shows (opens : String → String → Option File) (stdin stdout : File)
    (process : Launch) (table : Table (Channel File)) : Prop :=
  table.lookup 0 = process.stdin.channel opens stdin ∧
    table.lookup 1 = process.stdout.channel opens stdout

/-- Reopening a stream keeps the table and the record of a process in step. -/
theorem Shows.reopen (shows_ : Shows opens stdin stdout process table) :
    Shows opens stdin stdout (process.redirect st mark) (reopen opens st mark table) := by
  rcases shows_ with ⟨input, output⟩
  rw [Launch.redirect, QuashProject.reopen]
  split_ifs
  · exact ⟨Table.lookup_put, Table.lookup_put.trans output⟩
  · exact ⟨Table.lookup_put.trans input, Table.lookup_put⟩
  · exact ⟨Table.lookup_put.trans input, Table.lookup_put⟩
  · exact ⟨input, output⟩

/-- A child connects itself to the pipes on its sides, if there are as many pipes. -/
theorem shows_connect (laid : opened.Laid) (streams : Streams opened stdin stdout)
    (isStdin : process.stdin =
      if decide (i ≤ opened.ends.length) ∧ 0 < i then .pipe (i - 1) else .inherited)
    (isStdout : process.stdout =
      if decide (i ≤ opened.ends.length) ∧ i < opened.ends.length then .pipe i
      else .inherited) :
    Shows opens stdin stdout process (connect opened.ends i opened.table) := by
  rw [Shows, isStdin, isStdout]
  by_cases bound : i ≤ opened.ends.length
  · rw [lookup_connect_input laid streams bound, lookup_connect_output laid streams bound]
    simp only [bound, decide_true, true_and]
    constructor
    · split
      · rfl
      · rfl
    · split
      · rfl
      · rfl
  · rw [connect, if_neg bound]
    simp only [bound, decide_false, Bool.false_eq_true, false_and, if_false]
    exact ⟨streams.input, streams.output⟩

/-- The streams of a child are those of the launched process. -/
theorem setUp_shows (launched : launch st i = some process)
    (isSetUp : setUp opens st (Opened.pipes (some stdin :: some stdout :: rest) st.pipecommand) i =
      some table) : Shows opens stdin stdout process table := by
  rcases Option.bind_eq_some_iff.mp launched with ⟨cmdexec, command, launched⟩
  rcases Option.bind_eq_some_iff.mp launched with ⟨-, fits, launched⟩
  rcases Option.bind_eq_some_iff.mp launched with ⟨mark, isMark, launched⟩
  rcases Option.bind_eq_some_iff.mp launched with ⟨program, -, launched⟩
  rw [setUp, command, isMark, Option.bind_eq_bind, Option.bind_some] at isSetUp
  rcases Option.bind_eq_some_iff.mp isSetUp with ⟨-, -, isSetUp⟩
  cases launched
  cases isSetUp
  have pipes := Opened.length_pipes (some stdin :: some stdout :: rest) st.pipecommand
  apply Shows.reopen
  apply shows_connect (Opened.laid_pipes _ _) (streams_pipes stdin stdout rest st.pipecommand)
  · rw [pipes]
  · rw [pipes]

/-- The streams of all processes of a line are those of the launched ones. -/
theorem lineProcesses_shows {cmd : List String} {processes : Processes File}
    {launched : List (Option Launch)}
    (areSetUp : lineProcesses opens (some stdin :: some stdout :: rest) cmd = some processes)
    (areLaunched : executeRedirections cmd = some launched)
    (isProcess : launched[i]? = some (some process))
    (isTable : processes.commands[i]? = some table) :
    Shows opens stdin stdout process table := by
  rcases Option.bind_eq_some_iff.mp areSetUp with ⟨st, collected, areSetUp⟩
  rcases Option.bind_eq_some_iff.mp areSetUp with ⟨tables, areTables, areSetUp⟩
  rw [executeRedirections, collected] at areLaunched
  cases areSetUp
  cases areLaunched
  rw [List.getElem?_map, Option.map_eq_some_iff] at isProcess
  rcases isProcess with ⟨item, isItem, launches⟩
  have isSetUp := getElem?_of_mapM areTables isItem isTable
  exact setUp_shows launches isSetUp

end Streams

/-! ## Pipelines -/

/-- A pipeline of commands that are nothing but words. -/
structure Pipeline (isWord : String → Bool) where
  first : List String
  later : List (List String)
  nonempty : first ≠ [] ∧ ∀ words ∈ later, words ≠ []
  plain : ∀ words ∈ first :: later, ∀ word ∈ words, isWord word = true

/-- The commands of a pipeline. -/
def Pipeline.commands {isWord : String → Bool} (pipeline : Pipeline isWord) : List (List String) :=
  pipeline.first :: pipeline.later

/-- The tokens of a pipeline. -/
def Pipeline.tokens {isWord : String → Bool} (pipeline : Pipeline isWord) : List String :=
  pipeline.first ++ pipeline.later.flatMap ("|" :: ·)

/-- What the collecting loop has behind the commands of a pipeline. -/
structure PipelineRead (st : Collected) (commands : List (List String)) (after : Collected) :
    Prop where
  flag : after.flag = false
  fullcommand : after.fullcommand ++ [after.args] = st.fullcommand ++ commands
  pipecommand : after.pipecommand + 1 = st.pipecommand + commands.length
  redirection : ∃ count, after.redirection = st.redirection ++ List.replicate count "x"

/-- A pipe between two commands stores the first one. -/
theorem collect_pipe (rest : List String) (st : Collected) :
    collect false ("|" :: rest) st = collect false rest st.onPipe := by
  simp [collect]

theorem collect_pipeline {first : List String} {later : List (List String)} {st : Collected}
    (plain : ∀ words ∈ first :: later, ∀ word ∈ words, isWord word = true)
    (open_ : st.flag = false) (fresh : st.args = []) :
    ∃ after, collect false (first ++ later.flatMap ("|" :: ·)) st = some after ∧
      PipelineRead st (first :: later) after := by
  induction later generalizing first st with
  | nil =>
      rw [collect_words (plain first List.mem_cons_self) _ open_, fresh, List.nil_append]
      exact ⟨_, rfl, open_, rfl, rfl, 0, by simp⟩
  | cons next later ih =>
      rw [List.flatMap_cons, List.cons_append,
        collect_words (plain first List.mem_cons_self) _ open_, fresh, List.nil_append,
        collect_pipe]
      have stored : ({ st with args := first } : Collected).finishCommand =
          { st with fullcommand := st.fullcommand ++ [first], args := [] } := by
        rw [Collected.finishCommand, if_neg (by simp [open_])]
      rcases @ih next (Collected.onPipe { st with args := first })
        (fun words member => plain words (List.mem_cons_of_mem _ member)) rfl
        (by rw [Collected.onPipe, stored]) with ⟨after, collected, read⟩
      refine ⟨after, collected, read.flag, ?_, ?_, ?_⟩
      · rw [read.fullcommand, Collected.onPipe, stored]
        simp
      · rw [read.pipecommand, Collected.onPipe]
        simp only [List.length_cons]
        omega
      · rcases read.redirection with ⟨count, marks⟩
        exact ⟨count + 1, by rw [marks]; simp [Collected.onPipe, List.replicate_succ]⟩

/-- What a pipeline is when the loop has read it: its commands, a pipe between any two of them
and no redirection. -/
structure Closed (commands : List (List String)) (st : Collected) : Prop where
  fullcommand : st.fullcommand = commands
  pipecommand : st.pipecommand + 1 = commands.length
  args : st.args = commands.getLastD []
  redirection : ∀ i < commands.length, st.redirection[i]? = some "x"

theorem PipelineRead.close {commands : List (List String)} {after : Collected}
    (read : PipelineRead .start commands after) : Closed commands after.close := by
  have fullcommand : after.close.fullcommand = commands := by
    simpa [Collected.close, read.flag, Collected.start] using read.fullcommand
  constructor
  · exact fullcommand
  · have pipes : after.close.pipecommand = after.pipecommand := rfl
    rw [pipes, read.pipecommand]
    exact Nat.zero_add _
  · have last := congrArg (·.getLastD []) read.fullcommand
    rw [List.getLastD_concat] at last
    exact last
  · intro i inside
    rcases read.redirection with ⟨count, marks⟩
    have all : after.close.redirection =
        List.replicate (count + (after.close.fullcommand.length - count)) "x" := by
      simp [Collected.close, marks, Collected.start, List.replicate_append_replicate]
    rw [all, fullcommand, List.getElem?_replicate, if_pos (by omega)]

theorem collect_pipeline_tokens (pipeline : Pipeline isWord) :
    ∃ after, collect true pipeline.tokens .start = some after ∧
      Closed pipeline.commands after.close := by
  rcases @collect_pipeline _ _ .start pipeline.plain rfl rfl with ⟨after, collected, read⟩
  refine ⟨after, ?_, read.close⟩
  have nonempty := pipeline.nonempty.1
  have plain := pipeline.plain pipeline.first List.mem_cons_self
  rw [Pipeline.tokens]
  cases begins : pipeline.first with
  | nil => exact absurd begins nonempty
  | cons word words =>
      rw [begins] at plain collected
      rw [List.cons_append, collect_atBegin (plain word List.mem_cons_self), ← collected]
      rfl

/-! ## Their descriptors -/

variable {opens : String → String → Option File} {opened : Opened File} {i : Nat}
variable {st : Collected} {commands : List (List String)} {table : Table (Channel File)}

/-- A command of a pipeline that is set up has connected itself and reopened nothing. -/
theorem Closed.setUp_eq (closed : Closed commands st)
    (isSetUp : setUp opens st opened i = some table) :
    table = connect opened.ends i opened.table := by
  rw [setUp, closed.fullcommand] at isSetUp
  rcases Option.bind_eq_some_iff.mp isSetUp with ⟨cmdexec, command, isSetUp⟩
  rcases Option.bind_eq_some_iff.mp isSetUp with ⟨-, -, isSetUp⟩
  rw [closed.redirection i (List.getElem?_eq_some_iff.mp command).1] at isSetUp
  cases isSetUp
  rfl

/-- A command of a pipeline is set up when it has no more words than the last one. -/
theorem Closed.isSome_setUp_iff (closed : Closed commands st) (inside : i < commands.length) :
    (setUp opens st opened i).isSome = true ↔
      commands[i].length ≤ (commands.getLastD []).length := by
  have command : st.fullcommand[i]? = some commands[i] := by
    rw [closed.fullcommand, List.getElem?_eq_getElem inside]
  rw [setUp, command, closed.redirection i inside, closed.args]
  generalize commands.getLastD [] = last
  by_cases fits : commands[i].length ≤ last.length
  · simp [guard, fits]
  · simp [guard, fits]

/-- All commands of a pipeline are set up exactly when none has more words than the last. -/
theorem isSome_lineProcesses_iff {table : Table File} (pipeline : Pipeline isWord) :
    (lineProcesses opens table pipeline.tokens).isSome = true ↔
      ∀ words ∈ pipeline.commands, words.length ≤ (pipeline.commands.getLastD []).length := by
  rcases collect_pipeline_tokens pipeline with ⟨after, collected, closed⟩
  have all : (lineProcesses opens table pipeline.tokens).isSome = true ↔
      ∀ i ∈ List.range pipeline.commands.length,
        (setUp opens after.close (Opened.pipes table after.close.pipecommand) i).isSome = true := by
    rw [← isSome_mapM_iff, lineProcesses, collected, ← closed.fullcommand]
    simp only [Option.bind_eq_bind, Option.bind_some]
    cases (List.range after.close.fullcommand.length).mapM
      (setUp opens after.close (Opened.pipes table after.close.pipecommand)) with
    | none => simp
    | some tables => simp
  rw [all]
  constructor
  · intro areSetUp words member
    rcases List.getElem_of_mem member with ⟨i, inside, rfl⟩
    exact (closed.isSome_setUp_iff inside).mp (areSetUp i (List.mem_range.mpr inside))
  · intro fit i member
    have inside := List.mem_range.mp member
    exact (closed.isSome_setUp_iff inside).mpr (fit _ (List.getElem_mem inside))

/-- When all commands of a pipeline are set up, they are chained. -/
theorem chained_of_lineProcesses {stdin stdout : File} {rest : List (Option File)}
    {processes : Processes File} (pipeline : Pipeline isWord)
    (areSetUp : lineProcesses opens (some stdin :: some stdout :: rest) pipeline.tokens =
      some processes) :
    processes.commands.length = pipeline.commands.length ∧ Chained stdin stdout processes := by
  rcases collect_pipeline_tokens pipeline with ⟨after, collected, closed⟩
  rcases Option.bind_eq_some_iff.mp areSetUp with ⟨_, isCollected, areSetUp⟩
  rcases Option.bind_eq_some_iff.mp areSetUp with ⟨tables, areTables, areSetUp⟩
  rw [collected] at isCollected
  cases isCollected
  cases areSetUp
  have laid := Opened.laid_pipes (some stdin :: some stdout :: rest) after.close.pipecommand
  have pipes := Opened.length_pipes (some stdin :: some stdout :: rest) after.close.pipecommand
  have streams := streams_pipes stdin stdout rest after.close.pipecommand
  have connected := eq_map_of_mapM (fun i table isTable => closed.setUp_eq isTable) areTables
  have count : after.close.fullcommand.length = after.close.pipecommand + 1 := by
    rw [closed.fullcommand, closed.pipecommand]
  constructor
  · simp [connected, closed.fullcommand]
  · apply chained_of_connect laid streams
    · simp only [connected, pipes, count]
    · intro table member j
      rcases List.mem_pair.mp member with rfl | rfl
      · exact Opened.not_holds_inherit _ j
      · exact not_holds_closePipes laid j

end QuashLabs.QuashProject
