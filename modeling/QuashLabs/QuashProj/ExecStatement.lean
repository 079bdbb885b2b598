import QuashLabs.QuashProject.Pipelines

/-!
# `Runner::execStatement`

The function walks the list of arguments once and collects the commands, the pipes and for
every command the duplications of descriptors that its redirections need. Pipes and files are
opened in the shell while it does so. It then forks one process for every command, which
connects its pipes and makes its duplications; the shell closes the pipes, not the files.
-/

namespace QuashLabs.QuashProj

open QuashLabs.Checked QuashLabs.Descriptors
open QuashLabs.QuashProject (Pipeline Processes Chained connect closePipes lineProcesses
  streams_pipes chained_of_connect not_holds_closePipes)

variable {File : Type}

/-! ## Collecting the statement -/

/-- What `open` makes of a name, for reading and for writing, if it can open it. -/
structure Files (File : Type) where
  input : String → Option File
  output : String → Option File

/-- An element of a `singleDupList`: a descriptor, or -1, and the one it is duplicated to. -/
structure Dup where
  source : Option Nat
  target : Nat
  deriving Repr, DecidableEq

/-- The local variables of the loop, with the pipes and the descriptors of the shell. -/
structure Statement (File : Type) where
  complete : List (List String)
  redirDups : List (List Dup)
  singleCommand : List String
  singleDupList : List Dup
  ipc : Opened File
  alreadyPushedCmd : Bool

/-- The variables before the loop. -/
def Statement.start (table : Table File) : Statement File where
  complete := []
  redirDups := []
  singleCommand := []
  singleDupList := []
  ipc := ⟨[], inherit table⟩
  alreadyPushedCmd := false

/-- The branch for `|`. -/
def Statement.onPipe (st : Statement File) : Statement File :=
  { st with
    complete := if st.alreadyPushedCmd then st.complete else st.complete ++ [st.singleCommand]
    redirDups := st.redirDups ++ [st.singleDupList]
    singleCommand := if st.alreadyPushedCmd then st.singleCommand else []
    singleDupList := []
    ipc := st.ipc.more
    alreadyPushedCmd := false }

/-- The branches for `<` and `>`: the command is stored whether it has been stored before or
not. -/
def Statement.onFile (st : Statement File) (file : Option File) (target : Nat) : Statement File :=
  let installed := file.map fun file => st.ipc.table.install (.other file)
  { st with
    complete := st.complete ++ [st.singleCommand]
    singleCommand := []
    singleDupList := st.singleDupList ++ [⟨installed.map Prod.fst, target⟩]
    ipc := ⟨st.ipc.ends, (installed.map Prod.snd).getD st.ipc.table⟩
    alreadyPushedCmd := true }

/-- The loop over the arguments; `atBegin` is `arg == args.begin()`. -/
def collectStatement (files : Files File) :
    Bool → List String → Statement File → Option (Statement File)
  | _, [], st => some st
  | atBegin, arg :: rest, st =>
      if arg = "|" then collectStatement files false rest st.onPipe
      else if arg = "<" ∧ ¬atBegin then
        rest.head?.bind fun inpFile =>
          collectStatement files false rest (st.onFile (files.input inpFile) 0)
      else if arg = ">" ∧ ¬atBegin then
        rest.head?.bind fun outFile =>
          collectStatement files false rest (st.onFile (files.output outFile) 1)
      else if arg ≠ ">" ∧ arg ≠ "<" ∧ arg ≠ "|" ∧ ¬st.alreadyPushedCmd then
        collectStatement files false rest
          { st with singleCommand := st.singleCommand ++ [arg] }
      else collectStatement files false rest st

/-- The statements between the loop and the forks. -/
def Statement.close (st : Statement File) : Statement File :=
  { st with
    redirDups := st.redirDups ++ [st.singleDupList]
    complete := if st.alreadyPushedCmd then st.complete else st.complete ++ [st.singleCommand] }

/-! ## The processes -/

/-- `dup2(dupl[0], dupl[1])`, which fails for -1. -/
def makeDup (table : Table (Channel File)) (dupl : Dup) : Table (Channel File) :=
  match dupl.source with
  | some fd => table.dup2 fd dupl.target
  | none => table

/-- The descriptors of child `i` where it takes `execArgs[0]`, which is not there in an empty
command, with its duplications, which are not there for every command. -/
def setUp (st : Statement File) (i : Nat) : Option (Table (Channel File)) := do
  let execArgs ← st.complete[i]?
  guard (execArgs ≠ [])
  let myDups ← st.redirDups[i]?
  return myDups.foldl makeDup (connect st.ipc.ends i st.ipc.table)

/-- The descriptors of the shell and of all commands of a statement. -/
def execStatement (files : Files File) (table : Table File) (args : List String) :
    Option (Processes File) := do
  let collected ← collectStatement files true args (.start table)
  let st := collected.close
  let commands ← (List.range st.complete.length).mapM (setUp st)
  return ⟨[closePipes st.ipc], commands⟩

/-! ## Pipelines -/

/-- The tokens that the loop stores. -/
def isPlain (token : String) : Bool := token != "|" && token != "<" && token != ">"

variable {files : Files File} {table : Table File} {st : Statement File}
variable {finished : List (List String)} {current words rest : List String} {atBegin : Bool}

/-- The variables of the loop behind a part of a pipeline: the commands `finished` and the words
`current` of the next one. -/
structure Read (table : Table File) (finished : List (List String)) (current : List String)
    (st : Statement File) : Prop where
  complete : st.complete = finished
  redirDups : st.redirDups = List.replicate finished.length []
  singleCommand : st.singleCommand = current
  singleDupList : st.singleDupList = []
  ipc : st.ipc = Opened.pipes table finished.length
  open_ : st.alreadyPushedCmd = false

theorem Read.start (table : Table File) : Read table [] [] (.start table) :=
  ⟨rfl, rfl, rfl, rfl, rfl, rfl⟩

theorem Read.store (read : Read table finished current st)
    (plain : ∀ word ∈ words, isPlain word = true) (rest : List String) (atBegin : Bool) :
    ∃ atBegin' st', collectStatement files atBegin (words ++ rest) st =
        collectStatement files atBegin' rest st' ∧ Read table finished (current ++ words) st' := by
  induction words generalizing st current atBegin with
  | nil => exact ⟨atBegin, st, rfl, by simpa using read⟩
  | cons word words ih =>
      have isStored : word ≠ "|" ∧ word ≠ "<" ∧ word ≠ ">" := by
        simpa [isPlain, and_assoc] using plain word List.mem_cons_self
      rcases isStored with ⟨notPipe, notIn, notOut⟩
      have stored : Read table finished (current ++ [word])
          { st with singleCommand := st.singleCommand ++ [word] } :=
        { read with singleCommand := by rw [read.singleCommand] }
      rcases ih stored (fun w member => plain w (List.mem_cons_of_mem _ member)) false with
        ⟨atBegin', st', collected, behind⟩
      refine ⟨atBegin', st', ?_, by simpa using behind⟩
      rw [← collected]
      simp [collectStatement, notPipe, notIn, notOut, read.open_]

/-- A pipe ends a command. -/
theorem Read.pipe (read : Read table finished current st) :
    Read table (finished ++ [current]) [] st.onPipe where
  complete := by simp [Statement.onPipe, read.open_, read.complete, read.singleCommand]
  redirDups := by
    simp [Statement.onPipe, read.redirDups, read.singleDupList, List.replicate_succ']
  singleCommand := by simp [Statement.onPipe, read.open_]
  singleDupList := rfl
  ipc := by simp [Statement.onPipe, read.ipc, Opened.pipes]
  open_ := rfl

/-- The loop stores the commands of a pipeline. -/
theorem Read.pipeline {first : List String} {later : List (List String)}
    (read : Read table finished current st)
    (plain : ∀ words ∈ first :: later, ∀ word ∈ words, isPlain word = true) (atBegin : Bool) :
    ∃ finished' current' st',
      collectStatement files atBegin (first ++ later.flatMap ("|" :: ·)) st = some st' ∧
      Read table finished' current' st' ∧
      finished' ++ [current'] = finished ++ (current ++ first) :: later := by
  induction later generalizing first finished current st atBegin with
  | nil =>
      rcases read.store (plain first List.mem_cons_self) [] atBegin with
        ⟨atBegin', st', collected, behind⟩
      exact ⟨finished, current ++ first, st', by simpa [collectStatement] using collected, behind,
        rfl⟩
  | cons next later ih =>
      rcases read.store (plain first List.mem_cons_self) ("|" :: (next ++ later.flatMap ("|" :: ·)))
        atBegin with ⟨atBegin', st', collected, behind⟩
      rcases ih behind.pipe (fun words member => plain words (List.mem_cons_of_mem _ member)) false
        with ⟨finished', current', last, continues, read, all⟩
      refine ⟨finished', current', last, ?_, read, by simpa using all⟩
      rw [List.flatMap_cons, List.cons_append, collected, ← continues]
      simp [collectStatement]

/-! ## Their descriptors -/

/-- What a pipeline is behind the loop: its commands, a pipe between any two of them, and no
duplications. -/
structure Closed (table : Table File) (commands : List (List String)) (st : Statement File) :
    Prop where
  complete : st.complete = commands
  redirDups : st.redirDups = List.replicate commands.length []
  ipc : st.ipc = Opened.pipes table (commands.length - 1)

theorem Read.close (read : Read table finished current st) :
    Closed table (finished ++ [current]) st.close where
  complete := by simp [Statement.close, read.open_, read.complete, read.singleCommand]
  redirDups := by
    simp [Statement.close, read.redirDups, read.singleDupList, List.replicate_succ']
  ipc := by simp [Statement.close, read.ipc]

theorem collectStatement_pipeline (files : Files File) (table : Table File)
    (pipeline : Pipeline isPlain) :
    ∃ st, collectStatement files true pipeline.tokens (.start table) = some st ∧
      Closed table pipeline.commands st.close := by
  rcases @Read.pipeline _ files table _ _ _ _ _ (Read.start table) pipeline.plain true with
    ⟨finished, current, st, collected, read, all⟩
  refine ⟨st, collected, ?_⟩
  have closed := read.close
  rw [all] at closed
  exact closed

/-- Every command of a pipeline connects itself and makes no duplication. -/
theorem Closed.setUp_eq {commands : List (List String)} {i : Nat}
    (closed : Closed table commands st) (nonempty : ∀ words ∈ commands, words ≠ [])
    (inside : i < commands.length) :
    setUp st i = some (connect st.ipc.ends i st.ipc.table) := by
  have command : st.complete[i]? = some commands[i] := by
    rw [closed.complete, List.getElem?_eq_getElem inside]
  have dups : st.redirDups[i]? = some [] := by
    rw [closed.redirDups, List.getElem?_replicate, if_pos inside]
  rw [setUp, command, dups]
  simp [guard, nonempty _ (List.getElem_mem inside)]

/-- What becomes of a pipeline: its commands have connected themselves, and the shell has closed
the pipes. -/
theorem Closed.execStatement_eq {args : List String} {commands : List (List String)}
    (closed : Closed table commands st.close) (nonempty : ∀ words ∈ commands, words ≠ [])
    (collected : collectStatement files true args (.start table) = some st) :
    execStatement files table args = some ⟨[closePipes st.close.ipc],
      (List.range commands.length).map fun i =>
        connect st.close.ipc.ends i st.close.ipc.table⟩ := by
  have areSetUp : (List.range commands.length).mapM (setUp st.close) =
      some ((List.range commands.length).map fun i =>
        connect st.close.ipc.ends i st.close.ipc.table) := by
    apply mapM_eq_some_map
    intro i member
    exact closed.setUp_eq nonempty (List.mem_range.mp member)
  rw [execStatement, collected]
  simp [closed.complete, areSetUp]

/-- All commands of a pipeline are set up, and they are chained. -/
theorem chained_of_execStatement (files : Files File) (stdin stdout : File)
    (others : List (Option File)) (pipeline : Pipeline isPlain) :
    ∃ processes,
      execStatement files (some stdin :: some stdout :: others) pipeline.tokens =
        some processes ∧
      processes.commands.length = pipeline.commands.length ∧
      Chained stdin stdout processes := by
  rcases collectStatement_pipeline files (some stdin :: some stdout :: others) pipeline with
    ⟨st, collected, closed⟩
  have nonempty : ∀ words ∈ pipeline.commands, words ≠ [] :=
    List.forall_mem_cons.mpr pipeline.nonempty
  have pipes := closed.ipc
  have laid := Opened.laid_pipes (some stdin :: some stdout :: others)
    (pipeline.commands.length - 1)
  have streams := streams_pipes stdin stdout others (pipeline.commands.length - 1)
  have count := Opened.length_pipes (some stdin :: some stdout :: others)
    (pipeline.commands.length - 1)
  rw [← pipes] at laid streams count
  have children : pipeline.commands.length = st.close.ipc.ends.length + 1 := by
    rw [count]
    rfl
  refine ⟨_, closed.execStatement_eq nonempty collected, ?_, ?_⟩
  · simp
  · apply chained_of_connect laid streams
    · simp only [children]
    · intro table member j
      obtain rfl := List.mem_singleton.mp member
      exact not_holds_closePipes laid j

/-- The processes of a pipeline are chained, in either shell. In `quash.cpp` all commands are
set up exactly when none has more words than the last one. -/
theorem pipelines_chained (opens : String → String → Option File) (files : Files File)
    (stdin stdout : File) (others : List (Option File)) :
    (∀ pipeline : Pipeline QuashProject.isWord,
      ((lineProcesses opens (some stdin :: some stdout :: others) pipeline.tokens).isSome = true ↔
        ∀ words ∈ pipeline.commands,
          words.length ≤ (pipeline.commands.getLastD []).length) ∧
      ∀ processes : Processes File,
        lineProcesses opens (some stdin :: some stdout :: others) pipeline.tokens =
          some processes →
        processes.commands.length = pipeline.commands.length ∧
          Chained stdin stdout processes) ∧
    (∀ pipeline : Pipeline isPlain, ∃ processes,
      execStatement files (some stdin :: some stdout :: others) pipeline.tokens =
        some processes ∧
      processes.commands.length = pipeline.commands.length ∧
        Chained stdin stdout processes) := by
  constructor
  · intro pipeline
    refine ⟨QuashProject.isSome_lineProcesses_iff pipeline, fun processes areSetUp => ?_⟩
    exact QuashProject.chained_of_lineProcesses pipeline areSetUp
  · intro pipeline
    exact chained_of_execStatement files stdin stdout others pipeline

theorem pipelines_chained_three :
    ∃ processes : Processes Unit,
      lineProcesses (fun _ _ => none) [some (), some ()]
        ["ls", "-l", "|", "grep", "c", "|", "sort", "-n", "-r"] = some processes ∧
      processes.commands.length = 3 ∧ Chained () () processes := by
  let pipeline : Pipeline QuashProject.isWord :=
    ⟨["ls", "-l"], [["grep", "c"], ["sort", "-n", "-r"]], (by decide), (by decide)⟩
  have shell :=
    (pipelines_chained (fun _ _ => none) ⟨fun _ => none, fun _ => none⟩ () () []).1 pipeline
  rcases Option.isSome_iff_exists.mp (shell.1.mpr (by decide)) with ⟨processes, areSetUp⟩
  exact ⟨processes, areSetUp, shell.2 processes areSetUp⟩

end QuashLabs.QuashProj
