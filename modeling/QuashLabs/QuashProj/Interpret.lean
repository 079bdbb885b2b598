import QuashLabs.QuashProj.ParseArgs
import QuashLabs.QuashProject.Main

/-!
# `interpret`

`main` of `QuashProj` reads a line into an array of 1024 bytes, cuts it with `parseArgs` and
gives the words to `interpret`, which compares the first of them with the names of its
builtins, then drops a trailing `&` and leaves the rest to the `Runner`. The lists are never
asked whether they are empty.
-/

namespace QuashLabs.QuashProj

open QuashLabs.Checked
open QuashLabs.QuashProject (EmptyAccess frontOf backOf runs)

/-! ## The functions -/

/-- What `interpret` does. -/
inductive Action
  | nothing
  | quit
  | changeDir (target : String)
  /-- `executor.changeDir(getenv("HOME"))`. -/
  | changeToHome
  | jobs
  | set (varName assignExp : String)
  | printenv (var : String)
  | kill (job signal : String)
  | execStatement (args : List String) (foreground : Bool)
  | executeFunc (args : List String) (exec : String) (foreground : Bool)
  deriving Repr, DecidableEq

/-- The list that an action passes on to the `Runner`. -/
def Action.args : Action → Option (List String)
  | .execStatement args _ | .executeFunc args _ _ => some args
  | _ => none

/-- `*(++(cmd.begin()))`, for a list of two words at least. -/
def second (cmd : List String) : String := cmd.tail.headD ""

/-- `setExp.substr(0,setExp.find('='))`. -/
def toSet (setExp : String) : String := String.ofList (setExp.toList.takeWhile (· != '='))

/-- `setExp.substr(setExp.find('=')+1)`. -/
def assigned (setExp : String) : String :=
  String.ofList ((setExp.toList.dropWhile (· != '=')).drop 1)

/-- The arguments for the `Runner`: `executor.execStatement(args, foreground)` or
`executor.executeFunc(args, args.front(), foreground)`. -/
def passOn (redir : Bool) (args : List String) (foreground : Bool) : Except EmptyAccess Action :=
  if redir then return .execStatement args foreground
  else do
    let exec ← frontOf args
    return .executeFunc args exec foreground

/-- The last branch of `interpret`. -/
def runProgram (cmd : List String) : Except EmptyAccess Action := do
  let redir := cmd.any fun arg => arg == "<" || arg == ">" || arg == "|"
  let last ← backOf cmd
  if last = "&" then passOn redir cmd.dropLast false
  else passOn redir cmd true

/-- `interpret`. -/
def interpret (cmd : List String) : Except EmptyAccess Action := do
  let front ← frontOf cmd
  if front = "" then return .nothing
  else if front = "quit" ∨ front = "exit" then return .quit
  else if front = "cd" ∧ cmd.length = 2 then return .changeDir (second cmd)
  else if front = "jobs" ∧ cmd.length = 1 then return .jobs
  else if front = "set" ∧ cmd.length = 2 ∧ '=' ∈ (second cmd).toList then
    return .set (toSet (second cmd)) (assigned (second cmd))
  else if front = "cd" ∧ cmd.length ≤ 2 then
    if cmd.length = 2 then return .changeDir (second cmd) else return .changeToHome
  else if front = "printenv" ∧ cmd.length = 2 then return .printenv (second cmd)
  else if front = "kill" ∧ cmd.length = 3 then
    return .kill (second cmd) (cmd.getLastD "")
  else runProgram cmd

/-- `cin.getline(cmd, 1024)` and the conversion of the array to a `string`: a line that does
not fit ends the loop, and the string ends at the first null character. -/
def getline (line : List Char) : Option (List Char) :=
  if line.length < 1024 then some (line.takeWhile (· != '\x00')) else none

/-- A reason for which a line does not get through. -/
inductive Failure
  | outOfLine (reason : OutOfLine)
  | emptyAccess (reason : EmptyAccess)
  deriving Repr, DecidableEq

/-- What `main` does with a line; nothing with the line that ends its loop. -/
def serve (line : List Char) : Except Failure (Option Action) :=
  match getline line with
  | none => return none
  | some cmd => do
      let parsed ← (parseArgs cmd).mapError .outOfLine
      let action ← (interpret (parsed.map String.ofList)).mapError .emptyAccess
      return some action

/-! ## Lines without a word -/

/-- A line with a word to run: it is empty or has a run, and its runs are not `&` alone. -/
def HasCommand (line : List Char) : Prop :=
  ∀ cmd ∈ getline line, (cmd = [] ∨ runs cmd ≠ []) ∧ runs cmd ≠ [['&']]

instance (line : List Char) : Decidable (HasCommand line) :=
  inferInstanceAs (Decidable (∀ cmd ∈ getline line, _))

variable {cmd args : List String}

theorem passOn_returns_iff {redir foreground : Bool} :
    (∃ action, passOn redir args foreground = .ok action ∧ action.args ≠ some []) ↔ args ≠ [] := by
  cases args with
  | nil => cases redir <;> simp [passOn, frontOf, Action.args]
  | cons exec rest => cases redir <;> simp [passOn, frontOf, Action.args]

/-- The last branch passes an empty list on only for `&` alone. -/
theorem runProgram_returns_iff (nonempty : cmd ≠ []) :
    (∃ action, runProgram cmd = .ok action ∧ action.args ≠ some []) ↔ cmd ≠ ["&"] := by
  rw [← QuashProject.dropLast_ne_nil_iff nonempty]
  cases last : cmd.getLast? with
  | none => exact absurd (List.getLast?_eq_none_iff.mp last) nonempty
  | some word =>
      simp only [runProgram, backOf, last, ok_bind, Option.some.injEq]
      split
      · rename_i isAmpersand
        simp [passOn_returns_iff, isAmpersand]
      · rename_i other
        simp [passOn_returns_iff, other, nonempty]

/-- The result of the last branch, or of a builtin, which passes nothing on. -/
def ProgramOrBuiltin (cmd : List String) (result : Except EmptyAccess Action) : Prop :=
  result = runProgram cmd ∨ ∃ action, result = .ok action ∧ action.args = none

theorem ProgramOrBuiltin.ite {test : Prop} [Decidable test]
    {result other : Except EmptyAccess Action} (first : ProgramOrBuiltin cmd result)
    (second : ProgramOrBuiltin cmd other) :
    ProgramOrBuiltin cmd (if test then result else other) := by
  split
  · exact first
  · exact second

theorem interpret_cons (front : String) (rest : List String) :
    ProgramOrBuiltin (front :: rest) (interpret (front :: rest)) := by
  rw [interpret, frontOf, List.head?_cons, ok_bind]
  -- The last branch is a conditional too, and stays as it is.
  repeat' with_reducible apply ProgramOrBuiltin.ite
  all_goals first | exact .inl rfl | exact .inr ⟨_, rfl, rfl⟩

theorem interpret_ampersand : interpret ["&"] = .error .front := by decide

/-- `interpret` gets through a list, and passes no empty list on, exactly when there is a word
in it that is not a lone `&`. -/
theorem interpret_returns_iff :
    (∃ action, interpret cmd = .ok action ∧ action.args ≠ some []) ↔ cmd ≠ [] ∧ cmd ≠ ["&"] := by
  cases cmd with
  | nil => simp [interpret, frontOf]
  | cons front rest =>
      have nonempty := List.cons_ne_nil front rest
      rw [and_iff_right nonempty]
      rcases interpret_cons front rest with program | ⟨action, returns, passesNothing⟩
      · rw [program]
        exact runProgram_returns_iff nonempty
      · constructor
        · rintro - ampersand
          rw [ampersand, interpret_ampersand] at returns
          cases returns
        · intro _
          exact ⟨action, returns, by rw [passesNothing]; exact (Option.some_ne_none []).symm⟩

/-- Only for these two lists `interpret` takes the end of an empty list. -/
theorem interpret_ok_iff : (∃ action, interpret cmd = .ok action) ↔ cmd ≠ [] ∧ cmd ≠ ["&"] := by
  constructor
  · rintro ⟨action, returns⟩
    constructor
    · rintro rfl
      cases returns
    · rintro rfl
      rw [interpret_ampersand] at returns
      cases returns
  · intro word
    rcases interpret_returns_iff.mpr word with ⟨action, returns, -⟩
    exact ⟨action, returns⟩

/-! ## Both shells -/

/-- The four lists of which an end is taken for a line are not empty: what `cmdParser`
returns, what is left of it without a trailing `&`, what `parseArgs` returns, and what
`interpret` passes on. -/
structure ListsNonempty (line : List Char) : Prop where
  cmdParser : QuashProject.tokens line ≠ []
  popped : (QuashProject.tokens line).getLast? = some "&" →
    (QuashProject.tokens line).dropLast ≠ []
  parseArgs : ∀ cmd ∈ getline line, ∀ parsed, parseArgs cmd = .ok parsed → parsed ≠ []
  interpret : ∀ cmd ∈ getline line, ∀ parsed, QuashProj.parseArgs cmd = .ok parsed →
    ∃ action, QuashProj.interpret (parsed.map String.ofList) = .ok action ∧
      action.args ≠ some []

variable {line : List Char}

/-- The words of `parseArgs` are some, and not a lone `&`, for every line with a word to
run. -/
theorem hasCommand_iff : HasCommand line ↔ ∀ cmd ∈ getline line,
    ∀ parsed, parseArgs cmd = .ok parsed →
      parsed.map String.ofList ≠ [] ∧ parsed.map String.ofList ≠ ["&"] := by
  refine forall₂_congr fun cmd _ => ?_
  simp only [parseArgs_eq_runs, Except.ok.injEq, forall_eq', ne_eq, List.map_eq_nil_iff,
    QuashProject.map_ofList_eq_ampersand_iff]
  by_cases empty : cmd = []
  · subst empty
    decide
  · simp only [empty, if_false, false_or]

/-- `main` gets through a line exactly when the line has a word to run. -/
theorem serve_returns_iff : (∃ action, serve line = .ok action) ↔ HasCommand line := by
  rw [hasCommand_iff, serve]
  cases getline line with
  | none => simp
  | some cmd =>
      simp only [parseArgs_eq_runs, Option.mem_some_iff, forall_eq', Except.ok.injEq,
        ← interpret_ok_iff]
      generalize (if cmd = [] then [[]] else runs cmd) = parsed
      cases result : interpret (parsed.map String.ofList) with
      | error reason => simp [Except.mapError, result]
      | ok action => simp [Except.mapError, result]

/-- The lists are not empty exactly when the line has a word to run in both shells, and this
is also when both shells get through it without the front or the back of an empty list. -/
theorem listsNonempty_iff (line : List Char) :
    (ListsNonempty line ↔ QuashProject.HasCommand line ∧ HasCommand line) ∧
      ((∃ served, QuashProject.serve line = .ok served) ∧ (∃ action, serve line = .ok action) ↔
        QuashProject.HasCommand line ∧ HasCommand line) := by
  constructor
  · rw [← QuashProject.serve_returns_iff_hasCommand, QuashProject.serve_returns_iff,
      hasCommand_iff]
    constructor
    · intro lists
      refine ⟨⟨lists.cmdParser, lists.popped⟩, fun cmd read parsed returns => ?_⟩
      exact interpret_returns_iff.mp (lists.interpret cmd read parsed returns)
    · rintro ⟨⟨cmdParser, popped⟩, words⟩
      constructor
      · exact cmdParser
      · exact popped
      · intro cmd read parsed returns empty
        exact (words cmd read parsed returns).1 (List.map_eq_nil_iff.mpr empty)
      · intro cmd read parsed returns
        exact interpret_returns_iff.mpr (words cmd read parsed returns)
  · rw [QuashProject.serve_returns_iff_hasCommand, serve_returns_iff]

/-- Of the line `&` nothing is left for `execute_commands` or for the `Runner`. -/
theorem listsNonempty_fails : ¬∀ line, ListsNonempty line := by
  intro all
  have lists := all ['&']
  have only : QuashProject.tokens ['&'] = ["&"] := by
    rw [QuashProject.tokens, QuashProject.cmdParser_eq]
    decide
  exact lists.popped (congrArg List.getLast? only) (congrArg List.dropLast only)

end QuashLabs.QuashProj
