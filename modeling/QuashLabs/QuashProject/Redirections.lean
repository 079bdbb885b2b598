import Mathlib.Data.List.Basic

/-!
# `execute_redirections` of `quash.cpp`

The function first walks the token list once and collects the commands, the
pipes and the redirection marks in three parallel vectors; the file names sit in
two variables shared by the whole line. It then forks one process per collected
command, which fills an argument array, connects its pipes, reopens a stream
when its mark says so and replaces itself.

Undefined behaviour of the source (reading past the end of a container, writing
past the end of the argument array) is the absence of a result.
-/

namespace QuashLabs.QuashProject

/-! ## Collecting the command line -/

/-- The local variables of the collecting loop. Pipes are numbered by their
position in `pipecommand`, so the vector is its length. -/
structure Collected where
  fullcommand : List (List String)
  pipecommand : Nat
  args : List String
  redirection : List String
  op : String
  outFile : String
  inFile : String
  flag : Bool
  deriving Repr, DecidableEq

/-- The variables before the loop. -/
def Collected.start : Collected where
  fullcommand := []
  pipecommand := 0
  args := []
  redirection := []
  op := ""
  outFile := ""
  inFile := ""
  flag := false

/-- `if(!flag) { fullcommand.push_back(args); args.clear(); }`. -/
def Collected.finishCommand (st : Collected) : Collected :=
  if st.flag then st
  else { st with fullcommand := st.fullcommand ++ [st.args], args := [] }

/-- The branch for `|`. -/
def Collected.onPipe (st : Collected) : Collected :=
  { st.finishCommand with
    flag := false
    pipecommand := st.pipecommand + 1
    redirection := st.redirection ++ ["x"] }

/-- The branch for `<`. -/
def Collected.onInput (st : Collected) (arg file : String) : Collected :=
  { st.finishCommand with
    inFile := file
    op := arg
    redirection := st.redirection ++ [arg]
    flag := true }

/-- The branches for `>` and `>>`. -/
def Collected.onOutput (st : Collected) (arg file : String) : Collected :=
  { st.finishCommand with
    outFile := file
    op := arg
    redirection := st.redirection ++ [arg]
    flag := true }

/-- The loop over the tokens; `atBegin` is `arg == cmd.begin()`. The operand of
an operator is read with `*(next(arg))` and visited again as a token of its own. -/
def collect : Bool → List String → Collected → Option Collected
  | _, [], st => some st
  | atBegin, arg :: rest, st =>
      if arg = "|" ∧ ¬atBegin then collect false rest st.onPipe
      else if arg = "<" ∧ ¬atBegin then
        rest.head?.bind fun file => collect false rest (st.onInput arg file)
      else if arg = ">" ∧ ¬atBegin then
        rest.head?.bind fun file => collect false rest (st.onOutput arg file)
      else if arg = ">>" ∧ ¬atBegin then
        rest.head?.bind fun file => collect false rest (st.onOutput arg file)
      else if arg ≠ ">" ∧ arg ≠ "<" ∧ arg ≠ ">>" ∧ ¬st.flag then
        collect false rest { st with args := st.args ++ [arg] }
      else collect false rest st

/-- The statements between the loop and the forks: the last command is stored
(`args` keeps its value) and the marks are padded with `x`. -/
def Collected.close (st : Collected) : Collected :=
  let fullcommand := if st.flag then st.fullcommand else st.fullcommand ++ [st.args]
  { st with
    fullcommand := fullcommand
    redirection := st.redirection ++
      List.replicate (fullcommand.length - st.redirection.length) "x" }

/-! ## Launching the processes -/

/-- The redirection operators. -/
inductive Operator
  | input
  | output
  | append
  deriving Repr, DecidableEq

/-- The token of an operator. -/
def Operator.token : Operator → String
  | .input => "<"
  | .output => ">"
  | .append => ">>"

/-- Where standard input of a process comes from. -/
inductive Input
  | inherited
  | pipe (j : Nat)
  | file (name : String)
  deriving Repr, DecidableEq

/-- Where standard output of a process goes to. -/
inductive Output
  | inherited
  | pipe (j : Nat)
  | file (name mode : String)
  deriving Repr, DecidableEq

/-- A forked process at its `execvp`. -/
structure Launch where
  program : String
  argv : List String
  stdin : Input
  stdout : Output
  reopened : List (Operator × String)
  deriving Repr, DecidableEq

/-- The `freopen` branch that the mark of the process selects. -/
def Launch.redirect (st : Collected) (mark : String) (launch : Launch) : Launch :=
  if mark = "<" then
    { launch with stdin := .file st.inFile, reopened := [(.input, st.inFile)] }
  else if mark = ">" then
    { launch with stdout := .file st.outFile "w", reopened := [(.output, st.outFile)] }
  else if mark = ">>" then
    { launch with stdout := .file st.outFile "a", reopened := [(.append, st.outFile)] }
  else launch

/-- The child number `i`. Its argument array has `args.size() + 1` slots and
receives every word of the command and the terminating null pointer. -/
def launch (st : Collected) (i : Nat) : Option Launch := do
  let cmdexec ← st.fullcommand[i]?
  guard (cmdexec.length + 1 ≤ st.args.length + 1)
  let mark ← st.redirection[i]?
  let program ← cmdexec.head?
  let connected := decide (i ≤ st.pipecommand)
  return Launch.redirect st mark
    { program := program
      argv := cmdexec
      stdin := if connected ∧ 0 < i then .pipe (i - 1) else .inherited
      stdout := if connected ∧ i < st.pipecommand then .pipe i else .inherited
      reopened := [] }

/-- `execute_redirections`: the launched processes in order. -/
def executeRedirections (cmd : List String) : Option (List (Option Launch)) :=
  (collect true cmd .start).map fun st =>
    (List.range st.close.fullcommand.length).map (launch st.close)

/-! ## Command lines -/

/-- A token that is none of the four operators. -/
def isWord (token : String) : Bool :=
  token != "|" && token != "<" && token != ">" && token != ">>"

/-- A word of the command line. -/
abbrev Word := { token : String // isWord token = true }

/-- One command of a pipeline: at least one word, then redirections. -/
structure Segment where
  command : Word
  arguments : List Word
  redirections : List (Operator × Word)

/-- The words of a segment as tokens. -/
def Segment.words (seg : Segment) : List String :=
  (seg.command :: seg.arguments).map Subtype.val

/-- The redirections of a segment with their file names as tokens. -/
def Segment.files (seg : Segment) : List (Operator × String) :=
  seg.redirections.map fun redirection => (redirection.1, redirection.2.val)

/-- The redirection tokens of a segment. -/
def Segment.redirectionTokens (seg : Segment) : List String :=
  seg.files.flatMap fun redirection => [redirection.1.token, redirection.2]

/-- The tokens of a segment. -/
def Segment.tokens (seg : Segment) : List String :=
  seg.words ++ seg.redirectionTokens

/-- The tokens of a pipeline `seg_1 | ... | seg_n`. -/
def lineTokens : List Segment → List String
  | [] => []
  | [seg] => seg.tokens
  | seg :: rest => seg.tokens ++ "|" :: lineTokens rest

/-- The process runs exactly the words of the segment, performs exactly its
redirections, and reads and writes its own files where it has them. -/
structure Serves (seg : Segment) (process : Launch) : Prop where
  program : process.program = seg.command.val
  argv : process.argv = seg.words
  reopened : process.reopened = seg.files
  stdin : ∀ file, (.input, file) ∈ seg.files → process.stdin = .file file
  stdoutNew : ∀ file, (.output, file) ∈ seg.files → process.stdout = .file file "w"
  stdoutOld : ∀ file, (.append, file) ∈ seg.files → process.stdout = .file file "a"

/-- The line launches one process per segment, and each serves its own segment. -/
def LineServed (line : List Segment) : Prop :=
  ∃ processes, executeRedirections (lineTokens line) = some processes ∧
    List.Forall₂ (fun seg process => ∃ launched, process = some launched ∧ Serves seg launched)
      line processes

end QuashLabs.QuashProject
