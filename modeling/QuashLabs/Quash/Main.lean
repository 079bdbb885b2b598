import QuashLabs.Quash.Parsing.Entries
import QuashLabs.Transition.Reachable

/-!
# The main loop

`main` parses until it has a script, runs it and tests whether the shell still runs.
The inner loop around `parse` looks at the returned pointer only. The input comes
from a file or a pipe, so there is no prompt. At the end of the input the scanner
returns `END` on every call.
-/

namespace QuashLabs.Quash

open QuashLabs.Bison QuashLabs.Checked QuashLabs.Transition Parsing

/-! ## Running a script -/

/-- `get_command_holder_type(holders[i])`. -/
def typeAt (holders : List CommandHolder) (i : Nat) : Except Failure CommandType :=
  match holders[i]? with
  | none => .error .outOfBounds
  | some holder => .ok (getCommandHolderType holder)

/-- The test of `run_script` for the builtin `exit` as the only command. -/
def exitAlone (holders : List CommandHolder) : Except Failure Bool := do
  let first ← typeAt holders 0
  if first = .exit then
    let second ← typeAt holders 1
    return second = .eoc
  else
    return false

/-- The loop of `run_script`: `create_process` is not implemented and changes nothing. -/
def createProcesses : List CommandHolder → Except Failure Unit
  | [] => .error .outOfBounds
  | holder :: holders =>
      if getCommandHolderType holder = .eoc then .ok () else createProcesses holders

/-- `run_script`, with `state.running` before and after. -/
def runScript (holders : List CommandHolder) (running : Bool) : Except Failure Bool := do
  let alone ← exitAlone holders
  if alone then
    return false
  else
    createProcesses holders
    return running

/-! ## The loop -/

/-- Where `main` is: at the test of the outer loop, at a call of `parse`, before
`run_script`, behind the loop, or stopped inside a call. -/
inductive Point
  | loop
  | parse
  | run (script : List CommandHolder)
  | exited
  | stopped (reason : Failure)

/-- The state of `main`: the tokens that the scanner has not delivered, and the number of
calls of `parse` so far. -/
structure Main where
  point : Point
  running : Bool
  input : List Token
  calls : Nat

/-- `main` behind `yyparse` in a call of `parse`, which leaves `holders` unset unless an
action sets it. -/
def afterParse (m : Main) : Result Token Answer Failure → Main
  | .returned _ (some ⟨none, endsLoop⟩) left =>
      ⟨.parse, m.running && !endsLoop, left, m.calls + 1⟩
  | .returned _ (some ⟨some script, endsLoop⟩) left =>
      ⟨.run script, m.running && !endsLoop, left, m.calls + 1⟩
  | .returned _ none _ | .exhausted => { m with point := .stopped .uninitialised }
  | .failed reason => { m with point := .stopped reason }
  | .underflow => { m with point := .stopped .outOfBounds }

/-- One step of `main`; a call of `parse` takes place in the world of its time, within
`fuel` rounds of the parser. -/
def mainStep (worlds : Nat → World) : LabelledStep Nat Main := fun fuel m =>
  match m.point with
  | .loop => some { m with point := if m.running then .parse else .exited }
  | .parse => ((parser (worlds m.calls)).yyparse fuel m.input).map (afterParse m)
  | .run script =>
      match runScript script m.running with
      | .ok running => some { m with point := .loop, running := running }
      | .error reason => some { m with point := .stopped reason }
  | .exited => none
  | .stopped _ => none

/-- `main` before its loop. -/
def mainStart (input : List Token) : Main := ⟨.loop, true, input, 0⟩

/-! ## The end of the input -/

/-- The program ends as its source says; other failures leave what happens undefined. -/
def Failure.stops : Failure → Bool
  | .assertion | .abort _ | .exit .. => true
  | _ => false

/-- `main` does not call `parse` when the scanner has delivered `END`, the last token of
the input, and does nothing undefined. -/
def BeforeEnd (m : Main) : Prop :=
  match m.point with
  | .parse => m.input ≠ []
  | .stopped reason => reason.stops = true
  | _ => True

/-- From `m` on `main` never calls `parse` behind the end of the input, and stops. -/
def StopsFrom (worlds : Nat → World) (m : Main) : Prop :=
  Always (mainStep worlds) BeforeEnd m ∧ Terminates (mainStep worlds) m

/-- An input: lines that end with `EOC_TOK`, and the last one, which ends with `END`. -/
structure Input where
  lines : List Line
  last : Line
  ended : ∀ line ∈ lines, line.last = .eocTok
  final : last.last = .endTok

/-- The tokens of an input. -/
def Input.tokens (input : Input) : List Token :=
  input.lines.flatMap Line.tokens ++ input.last.tokens

/-- Tokens without `END` are, with `END` behind them, those of an input. -/
theorem exists_input (tokens : List Token) (inner : Token.endTok ∉ tokens) :
    ∃ input : Input, input.tokens = tokens ++ [.endTok] := by
  induction tokens with
  | nil => exact ⟨⟨[], .final [] nofun, nofun, rfl⟩, rfl⟩
  | cons token tokens ih =>
      rw [List.mem_cons, not_or] at inner
      rcases ih inner.2 with ⟨⟨lines, last, ended, final⟩, same⟩
      by_cases eoc : token = .eocTok
      · refine ⟨⟨⟨[], token, nofun, .inl eoc⟩ :: lines, last, ?_, final⟩, ?_⟩
        · simpa [eoc] using ended
        · simpa [Input.tokens, Line.tokens] using same
      have inside : token ≠ .eocTok ∧ token ≠ .endTok := ⟨eoc, Ne.symm inner.1⟩
      cases lines with
      | nil =>
          refine ⟨⟨[], ⟨token :: last.body, last.last, ?_, last.isEnd⟩, nofun, final⟩, ?_⟩
          · simpa [inside] using last.inner
          · simpa [Input.tokens, Line.tokens] using same
      | cons line lines =>
          refine ⟨⟨⟨token :: line.body, line.last, ?_, line.isEnd⟩ :: lines, last, ?_, final⟩, ?_⟩
          · simpa [inside] using line.inner
          · simpa using ended
          · simpa [Input.tokens, Line.tokens] using same

/-! ## Steps -/

variable {worlds : Nat → World}

theorem stopsFrom_exited (running : Bool) (input : List Token) (calls : Nat) :
    StopsFrom worlds ⟨.exited, running, input, calls⟩ :=
  (always_terminates_of_quiescent fun _ => rfl).2 trivial

theorem stopsFrom_stopped (reason : Failure) (running : Bool) (input : List Token) (calls : Nat) :
    StopsFrom worlds ⟨.stopped reason, running, input, calls⟩ ↔ reason.stops = true :=
  always_terminates_of_quiescent fun _ => rfl

theorem stopsFrom_loop (running : Bool) (input : List Token) (calls : Nat) :
    StopsFrom worlds ⟨.loop, running, input, calls⟩ ↔
      (running = true → StopsFrom worlds ⟨.parse, running, input, calls⟩) := by
  have step : StopsFrom worlds ⟨.loop, running, input, calls⟩ ↔
      True ∧ StopsFrom worlds ⟨if running then .parse else .exited, running, input, calls⟩ :=
    always_terminates_of_next 0 rfl fun _ _ next => (Option.some.inj next).symm
  rw [step, true_and]
  cases running with
  | true => simp
  | false => simpa using stopsFrom_exited false input calls

/-- Behind a call of `parse`. -/
theorem stopsFrom_parse {running : Bool} {input : List Token} {calls fuel : Nat}
    {result : Result Token Answer Failure} (more : input ≠ [])
    (returns : (parser (worlds calls)).yyparse fuel input = some result) :
    StopsFrom worlds ⟨.parse, running, input, calls⟩ ↔
      StopsFrom worlds (afterParse ⟨.parse, running, input, calls⟩ result) := by
  have step : StopsFrom worlds ⟨.parse, running, input, calls⟩ ↔
      input ≠ [] ∧ StopsFrom worlds (afterParse ⟨.parse, running, input, calls⟩ result) := by
    apply always_terminates_of_next fuel (congrArg (Option.map (afterParse _)) returns)
    intro fuel' state next
    rcases Option.map_eq_some_iff.1 next with ⟨result', returns', rfl⟩
    rw [Parser.yyparse_unique _ returns' returns]
  rw [step, and_iff_right more]

/-! ## Scripts -/

/-- The loop of `run_script` ends at the entry for the end. -/
theorem createProcesses_eoc (cmds : List CommandHolder) :
    createProcesses (cmds ++ [eocHolder]) = .ok () := by
  induction cmds with
  | nil => rfl
  | cons holder cmds ih =>
      rw [List.cons_append, createProcesses]
      split
      · rfl
      · exact ih

/-- The pipeline is the builtin `exit` alone. -/
def Parsing.Pipeline.isExit : Pipeline → Bool
  | ⟨⟨.exit _, _, _⟩, []⟩ => true
  | _ => false

theorem Parsing.Pipeline.isExit_iff (pipeline : Pipeline) :
    pipeline.isExit = true ↔
      (∃ text, pipeline.first.content = .exit text) ∧ pipeline.rest = [] := by
  rcases pipeline with ⟨⟨content, redirs, background⟩, rest⟩
  cases content <;> cases rest <;> simp [Pipeline.isExit]

theorem exitAlone_commands {world : World} {pipeline : Pipeline} {cmds : List CommandHolder}
    (evaluates : pipeline.eval world = .ok cmds) :
    exitAlone (cmds ++ [eocHolder]) = .ok pipeline.isExit := by
  rcases pipeline_entries evaluates with ⟨length, entries⟩
  rw [Pipeline.stages, List.length_cons] at length
  cases cmds with
  | nil => cases length
  | cons holder cmds =>
      have first := entries 0 pipeline.first holder rfl rfl
      have exit : getCommandHolderType holder = .exit ↔
          ∃ text, pipeline.first.content = .exit text := (content_type _ first.cmd).2
      have head : typeAt (holder :: cmds ++ [eocHolder]) 0 =
          .ok (getCommandHolderType holder) := rfl
      rw [exitAlone, head, ok_bind]
      by_cases isExit : getCommandHolderType holder = .exit
      · rw [if_pos isExit]
        have alone : pipeline.isExit = decide (pipeline.rest = []) := by
          rw [Bool.eq_iff_iff, pipeline.isExit_iff, decide_eq_true_iff,
            and_iff_right (exit.1 isExit)]
        cases cmds with
        | nil =>
            have rest : pipeline.rest = [] :=
              List.eq_nil_of_length_eq_zero (Nat.succ.inj length).symm
            rw [alone, decide_eq_true rest]
            rfl
        | cons second cmds =>
            cases stages : pipeline.rest with
            | nil =>
                rw [stages] at length
                cases length
            | cons stage rest =>
                have behind := entries 1 stage second (by simp [Pipeline.stages, stages]) rfl
                have next : typeAt (holder :: second :: cmds ++ [eocHolder]) 1 =
                    .ok (getCommandHolderType second) := rfl
                rw [next, ok_bind, decide_eq_false behind.notEoc, alone, stages]
                rfl
      · have other : pipeline.isExit = false := by
          rw [Bool.eq_false_iff, Ne, pipeline.isExit_iff, ← exit]
          exact fun both => isExit both.1
        rw [if_neg isExit, other]
        rfl

/-- `run_script` on the array of a pipeline: only `exit` alone stops the shell. -/
theorem runScript_commands {world : World} {pipeline : Pipeline} {cmds : List CommandHolder}
    (evaluates : pipeline.eval world = .ok cmds) (running : Bool) :
    runScript (cmds ++ [eocHolder]) running = .ok (running && !pipeline.isExit) := by
  rw [runScript, exitAlone_commands evaluates, ok_bind]
  cases pipeline.isExit with
  | true => simp
  | false => simp [createProcesses_eoc]

/-- Before `run_script` on the array of a pipeline. -/
theorem stopsFrom_run {world : World} {pipeline : Pipeline} {cmds : List CommandHolder}
    (evaluates : pipeline.eval world = .ok cmds) (running : Bool) (input : List Token)
    (calls : Nat) :
    StopsFrom worlds ⟨.run (cmds ++ [eocHolder]), running, input, calls⟩ ↔
      (running = true → pipeline.isExit = false →
        StopsFrom worlds ⟨.parse, running, input, calls⟩) := by
  have run := runScript_commands evaluates running
  have next (fuel : Nat) :
      mainStep worlds fuel ⟨.run (cmds ++ [eocHolder]), running, input, calls⟩ =
        some ⟨.loop, running && !pipeline.isExit, input, calls⟩ := by
    simp only [mainStep, run]
  have step : StopsFrom worlds ⟨.run (cmds ++ [eocHolder]), running, input, calls⟩ ↔
      True ∧ StopsFrom worlds ⟨.loop, running && !pipeline.isExit, input, calls⟩ :=
    always_terminates_of_next 0 (next 0) fun fuel _ here =>
      Option.some.inj (here.symm.trans (next fuel))
  rw [step, true_and, stopsFrom_loop]
  cases running <;> cases pipeline.isExit <;> simp

/-! ## Lines -/

/-- The call of `parse` on the line ends the program. -/
def EndsProgram (world : World) (line : Line) : Prop :=
  ∃ fuel reason, (parser world).yyparse fuel line.tokens = some (.failed reason) ∧
    reason.stops = true

theorem not_endsProgram {world : World} {line : Line} (undisturbed : Undisturbed world line) :
    ¬ EndsProgram world line := by
  rintro ⟨fuel, reason, fails, -⟩
  exact (undisturbed fuel).2 reason fails

/-- The pipeline of a line is the builtin `exit` for all its readings or for none. -/
theorem isExit_eq {world : World} {line : Line} (undisturbed : Undisturbed world line)
    {pipeline pipeline' : Pipeline} (body : line.body = pipeline.tokens)
    (body' : line.body = pipeline'.tokens) : pipeline.isExit = pipeline'.isExit := by
  rcases line_returns undisturbed with ⟨answer, -, returns⟩
  rcases commands_of_returns body (returns []) with ⟨-, cmds, evaluates, rfl⟩
  rcases commands_of_returns body' (returns []) with ⟨-, cmds', evaluates', same⟩
  obtain rfl : cmds = cmds' := by simpa using same
  have both := (exitAlone_commands evaluates).symm.trans (exitAlone_commands evaluates')
  exact Except.ok.inj both

/-- A call of `parse` at the start of a line. -/
theorem stopsFrom_line (line : Line) (rest : List Token) (calls : Nat) :
    StopsFrom worlds ⟨.parse, true, line.tokens ++ rest, calls⟩ ↔
      EndsProgram (worlds calls) line ∨ Undisturbed (worlds calls) line ∧
        ((∃ pipeline : Pipeline, line.body = pipeline.tokens ∧
            (line.atEnd = true ∨ pipeline.isExit = true)) ∨
          StopsFrom worlds ⟨.parse, !line.atEnd, rest, calls + 1⟩) := by
  rcases line_call (worlds calls) line with ⟨result, call, fuel, runs⟩
  have alone := Parser.yyparse_alone _ runs
  have more : line.tokens ++ rest ≠ [] := by simp [Line.tokens]
  rw [stopsFrom_parse more (runs rest)]
  cases call with
  | exhausted =>
      have disturbed : ¬ Undisturbed (worlds calls) line := fun undisturbed =>
        (undisturbed fuel).1 alone
      have goesOn : ¬ EndsProgram (worlds calls) line := by
        rintro ⟨fuel', reason, fails, -⟩
        cases Parser.yyparse_unique _ alone fails
      simp only [disturbed, goesOn, false_and, or_false, iff_false]
      exact fun stops => absurd ((stopsFrom_stopped ..).1 stops) (by decide)
  | failed reason =>
      have disturbed : ¬ Undisturbed (worlds calls) line := fun undisturbed =>
        (undisturbed fuel).2 reason alone
      rw [or_iff_left fun both => disturbed both.1]
      refine (stopsFrom_stopped ..).trans ⟨fun stops => ⟨fuel, reason, alone, stops⟩, ?_⟩
      rintro ⟨fuel', reason', fails, stops⟩
      cases Parser.yyparse_unique _ alone fails
      exact stops
  | commands pipeline cmds body evaluates =>
      have undisturbed := undisturbed_of_returned alone
      rw [or_iff_right (not_endsProgram undisturbed), and_iff_right undisturbed]
      apply (stopsFrom_run evaluates ..).trans
      have only : (∃ pipeline : Pipeline, line.body = pipeline.tokens ∧
          (line.atEnd = true ∨ pipeline.isExit = true)) ↔
          (line.atEnd = true ∨ pipeline.isExit = true) := by
        constructor
        · rintro ⟨_, body', stops⟩
          exact isExit_eq undisturbed body body' ▸ stops
        · intro stops
          exact ⟨pipeline, body, stops⟩
      rw [only]
      cases line.atEnd <;> cases pipeline.isExit <;> simp
  | nothing status other =>
      have undisturbed := undisturbed_of_returned alone
      have no : ¬ ∃ pipeline : Pipeline, line.body = pipeline.tokens ∧
          (line.atEnd = true ∨ pipeline.isExit = true) := by
        rintro ⟨pipeline, body, -⟩
        exact other pipeline body
      rw [or_iff_right (not_endsProgram undisturbed), and_iff_right undisturbed, or_iff_right no]
      exact Iff.rfl

/-- Reading line by line, and without a full stack or an action that does something
undefined, there comes a line that ends the program by a failed assertion, or a line that
is the builtin `exit` alone, or the last line is a line of commands. -/
def EndsInTime (worlds : Nat → World) : Nat → List Line → Line → Prop
  | calls, [], last =>
      EndsProgram (worlds calls) last ∨ Undisturbed (worlds calls) last ∧
        ∃ pipeline : Pipeline, last.body = pipeline.tokens
  | calls, line :: lines, last =>
      EndsProgram (worlds calls) line ∨ Undisturbed (worlds calls) line ∧
        ((∃ pipeline : Pipeline, line.body = pipeline.tokens ∧ pipeline.isExit = true) ∨
          EndsInTime worlds (calls + 1) lines last)

/-- Where no line exhausts the stack or stops the program, only the shape of the lines
matters: some line before the last one is the builtin `exit` alone, or the last line is a
line of commands. -/
theorem endsInTime_iff_of_undisturbed {lines : List Line} {last : Line} {calls : Nat}
    (undisturbed : ∀ i line, (lines ++ [last])[i]? = some line →
      Undisturbed (worlds (calls + i)) line) :
    EndsInTime worlds calls lines last ↔
      (∃ line ∈ lines, ∃ pipeline : Pipeline, line.body = pipeline.tokens ∧
        pipeline.isExit = true) ∨ ∃ pipeline : Pipeline, last.body = pipeline.tokens := by
  induction lines generalizing calls with
  | nil =>
      have here : Undisturbed (worlds calls) last := undisturbed 0 last rfl
      simp [EndsInTime, here, not_endsProgram here]
  | cons line lines ih =>
      have here : Undisturbed (worlds calls) line := undisturbed 0 line rfl
      have later : ∀ i line', (lines ++ [last])[i]? = some line' →
          Undisturbed (worlds (calls + 1 + i)) line' := by
        intro i line' atLine
        rw [Nat.add_right_comm]
        exact undisturbed (i + 1) line' atLine
      simp [EndsInTime, here, not_endsProgram here, ih later, or_assoc]

/-- On an input `main` stops and never parses behind the end of the input exactly if one of
its lines stops it. -/
theorem stopsFrom_start_iff (worlds : Nat → World) (input : Input) :
    StopsFrom worlds (mainStart input.tokens) ↔ EndsInTime worlds 0 input.lines input.last := by
  rcases input with ⟨lines, last, ended, final⟩
  have atEnd : last.atEnd = true := decide_eq_true final
  suffices every : ∀ calls, StopsFrom worlds
      ⟨.parse, true, lines.flatMap Line.tokens ++ last.tokens, calls⟩ ↔
        EndsInTime worlds calls lines last from
    (stopsFrom_loop ..).trans ((forall_prop_of_true rfl).trans (every 0))
  induction lines with
  | nil =>
      intro calls
      have behind : ¬ StopsFrom worlds ⟨.parse, false, [], calls + 1⟩ := fun stops =>
        stops.1 _ .refl rfl
      have here := @stopsFrom_line worlds last [] calls
      rw [List.append_nil, atEnd] at here
      refine here.trans (or_congr_right (and_congr_right fun _ => ?_))
      simp [behind]
  | cons line lines ih =>
      intro calls
      have inside : line.atEnd = false := by
        simp [Line.atEnd, ended line (List.mem_cons_self ..)]
      have later := ih (fun line mem => ended line (List.mem_cons_of_mem _ mem)) (calls + 1)
      have here := @stopsFrom_line worlds line (lines.flatMap Line.tokens ++ last.tokens) calls
      rw [inside, Bool.not_false, later] at here
      rw [List.flatMap_cons, List.append_assoc]
      refine here.trans (or_congr_right (and_congr_right fun _ => ?_))
      simp

/-- The input `jobs` with its newline. -/
def jobsInput : Input := ⟨[jobsLine], .final [] nofun, by decide, rfl⟩

/-- `main` parses again behind the end of this input. -/
theorem stopsFrom_start_fails : ¬ StopsFrom (fun _ => plainWorld) (mainStart jobsInput.tokens) := by
  intro stops
  have step {source target : Main} (label : Nat)
      (reached : Reachable (mainStep fun _ => plainWorld) (mainStart jobsInput.tokens) source)
      (next : mainStep (fun _ => plainWorld) label source = some target) := reached.tail next
  have first := step 0 .refl rfl
  have script := step 10 first rfl
  have ran := step 0 script rfl
  have again := step 0 ran rfl
  have ended := step 10 again rfl
  exact stops.1 _ ended rfl

end QuashLabs.Quash
