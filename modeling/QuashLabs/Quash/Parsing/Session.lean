import QuashLabs.Quash.Parsing.Calls

/-!
# A session of calls

The shell calls `yyparse` again and again on one stream of tokens. On a stream of
lines that neither exhaust the stack nor stop the program every call takes exactly
one line, so an error never reaches into the next line.
-/

namespace QuashLabs.Quash.Parsing

open QuashLabs.Bison

/-- A call returns with an answer and leaves tokens. -/
def Returns (world : World) (input : List Token) (answer : Answer) (left : List Token) : Prop :=
  ∃ fuel status, (parser world).yyparse fuel input = some (.returned status (some answer) left)

/-- Calls one after the other, each in the world of its time. -/
inductive Calls : List World → List Token → List Answer → List Token → Prop
  | nil (input : List Token) : Calls [] input [] input
  | cons {world : World} {worlds : List World} {input left rest : List Token} {answer : Answer}
      {answers : List Answer} (call : Returns world input answer left)
      (more : Calls worlds left answers rest) :
      Calls (world :: worlds) input (answer :: answers) rest

/-- A call on the line neither exhausts the stack nor stops the program. -/
def Undisturbed (world : World) (line : Line) : Prop :=
  ∀ fuel, (parser world).yyparse fuel line.tokens ≠ some .exhausted ∧
    ∀ reason, (parser world).yyparse fuel line.tokens ≠ some (.failed reason)

theorem undisturbed_of_returned {world : World} {line : Line} {fuel status : Nat}
    {out : Option Answer} {left : List Token}
    (returned : (parser world).yyparse fuel line.tokens = some (.returned status out left)) :
    Undisturbed world line := by
  intro fuel'
  constructor
  · intro full
    cases (parser world).yyparse_unique returned full
  · intro reason fails
    cases (parser world).yyparse_unique returned fails

/-- The answer to a line: the commands of a pipeline, and `NULL` for any other line. -/
inductive LineAnswer (world : World) (line : Line) : Answer → Prop
  | commands (pipeline : Pipeline) (cmds : List CommandHolder)
      (body : line.body = pipeline.tokens) (evaluates : pipeline.eval world = .ok cmds) :
      LineAnswer world line ⟨some (cmds ++ [eocHolder]), line.atEnd⟩
  | nothing (other : ∀ pipeline : Pipeline, line.body ≠ pipeline.tokens) :
      LineAnswer world line ⟨none, line.atEnd⟩

theorem returns_unique {world : World} {input left left' : List Token} {answer answer' : Answer}
    (one : Returns world input answer left) (other : Returns world input answer' left') :
    answer = answer' ∧ left = left' := by
  rcases one with ⟨_, _, one⟩
  rcases other with ⟨_, _, other⟩
  have same := (parser world).yyparse_unique one other
  simp only [Result.returned.injEq, Option.some.injEq] at same
  exact same.2

/-- A call on an undisturbed line returns the answer to the line and leaves the rest. -/
theorem line_returns {world : World} {line : Line} (undisturbed : Undisturbed world line) :
    ∃ answer, LineAnswer world line answer ∧
      ∀ rest, Returns world (line.tokens ++ rest) answer rest := by
  rcases line_call world line with ⟨result, call, fuel, runs⟩
  have alone := Parser.yyparse_alone _ runs
  cases call with
  | exhausted => exact absurd alone (undisturbed fuel).1
  | failed reason => exact absurd alone ((undisturbed fuel).2 reason)
  | commands pipeline cmds body evaluates =>
      exact ⟨_, .commands pipeline cmds body evaluates, fun rest => ⟨fuel, _, runs rest⟩⟩
  | nothing status other => exact ⟨_, .nothing other, fun rest => ⟨fuel, _, runs rest⟩⟩

/-- An answer to a pipeline holds its commands. -/
theorem commands_of_returns {world : World} {line : Line} {pipeline : Pipeline}
    (body : line.body = pipeline.tokens) {rest left : List Token} {answer : Answer}
    (returns : Returns world (line.tokens ++ rest) answer left) :
    left = rest ∧ ∃ cmds, pipeline.eval world = .ok cmds ∧
      answer = ⟨some (cmds ++ [eocHolder]), line.atEnd⟩ := by
  rcases line_call world line with ⟨result, -, fuel, runs⟩
  rcases returns with ⟨fuel', status, returns⟩
  have same := (parser world).yyparse_unique (runs rest) returns
  have alone := Parser.yyparse_alone _ runs
  rcases pipeline_call body alone with rfl | concludes
  · cases same
  · cases eval : pipeline.eval world with
    | error reason =>
        rw [eval] at concludes
        obtain rfl : result = .failed reason := concludes
        cases same
    | ok cmds =>
        rw [eval] at concludes
        obtain rfl : result = .returned 0 (some ⟨some (cmds ++ [eocHolder]), line.atEnd⟩) [] :=
          concludes
        cases same
        exact ⟨rfl, cmds, rfl, rfl⟩

theorem calls_nil_iff {input left : List Token} {given : List Answer} :
    Calls [] input given left ↔ given = [] ∧ left = input := by
  constructor
  · rintro ⟨⟩
    exact ⟨rfl, rfl⟩
  · rintro ⟨rfl, rfl⟩
    exact .nil _

/-- Where the first call returns, only the later calls are open. -/
theorem calls_cons_iff {world : World} {worlds : List World} {input rest left : List Token}
    {answer : Answer} {given : List Answer} (here : Returns world input answer rest) :
    Calls (world :: worlds) input given left ↔
      ∃ later, given = answer :: later ∧ Calls worlds rest later left := by
  constructor
  · rintro ⟨⟩
    rename_i call later
    obtain ⟨rfl, rfl⟩ := returns_unique call here
    exact ⟨_, rfl, later⟩
  · rintro ⟨later, rfl, more⟩
    exact .cons here more

/-- The tokens of a stream of lines. -/
def scriptTokens (script : List (World × Line)) : List Token :=
  script.flatMap fun call => call.2.tokens

/-- The first `k` calls take exactly the first `k` lines. The answer to each is the
answer to its line alone, whatever stands before and behind the line: the commands of
a pipeline, and `NULL` for an empty or erroneous line. -/
theorem calls_take_lines (script : List (World × Line)) (rest : List Token)
    (undisturbed : ∀ call ∈ script, Undisturbed call.1 call.2) :
    ∃ answers : List Answer,
      List.Forall₂ (fun call answer => LineAnswer call.1 call.2 answer ∧
        Returns call.1 call.2.tokens answer []) script answers ∧
      ∀ k ≤ script.length, ∀ given left,
        Calls ((script.take k).map Prod.fst) (scriptTokens script ++ rest) given left ↔
          given = answers.take k ∧ left = scriptTokens (script.drop k) ++ rest := by
  induction script with
  | nil =>
      refine ⟨[], .nil, ?_⟩
      intro k short given left
      obtain rfl : k = 0 := Nat.le_zero.1 short
      exact calls_nil_iff
  | cons first script ih =>
      obtain ⟨answers, good, calls⟩ :=
        ih fun call mem => undisturbed call (List.mem_cons_of_mem _ mem)
      obtain ⟨answer, lineAnswer, returns⟩ :=
        line_returns (undisturbed first (List.mem_cons_self ..))
      have alone := returns []
      rw [List.append_nil] at alone
      refine ⟨answer :: answers, .cons ⟨lineAnswer, alone⟩ good, ?_⟩
      intro k short given left
      cases k with
      | zero => exact calls_nil_iff
      | succ k =>
          have here := returns (scriptTokens script ++ rest)
          have stream : scriptTokens (first :: script) ++ rest =
              first.2.tokens ++ (scriptTokens script ++ rest) := by
            simp [scriptTokens]
          rw [stream, List.take_succ_cons, List.map_cons, calls_cons_iff here, List.take_succ_cons,
            List.drop_succ_cons]
          simp only [calls k (Nat.le_of_succ_le_succ short)]
          constructor
          · rintro ⟨_, rfl, rfl, rfl⟩
            exact ⟨rfl, rfl⟩
          · rintro ⟨rfl, rfl⟩
            exact ⟨_, rfl, rfl, rfl⟩

/-- An empty environment in which every path is its own real path. -/
def plainWorld : World := ⟨⟨fun _ => none, nofun, nofun⟩, some, yymaxdepth⟩

/-- The line `| a`, which is an error at its first token. -/
def errorLine : Line := .ended [.pipe, .simStr ['a']] (by decide)

/-- The line `jobs`. -/
def jobsLine : Line := .ended [.jobsTok] (by decide)

/-- An erroneous line, a line of a command and the end of the input. -/
theorem calls_take_lines_two :
    ∃ answers : List Answer,
      List.Forall₂ (fun call answer => LineAnswer call.1 call.2 answer ∧
        Returns call.1 call.2.tokens answer [])
        [(plainWorld, errorLine), (plainWorld, jobsLine)] answers ∧
      ∀ k ≤ 2, ∀ given left,
        Calls (([(plainWorld, errorLine), (plainWorld, jobsLine)].take k).map Prod.fst)
            (scriptTokens [(plainWorld, errorLine), (plainWorld, jobsLine)] ++ [.endTok])
            given left ↔
          given = answers.take k ∧
            left = scriptTokens
              ([(plainWorld, errorLine), (plainWorld, jobsLine)].drop k) ++ [.endTok] := by
  have error : Undisturbed plainWorld errorLine := undisturbed_of_returned
    (rfl : (parser plainWorld).yyparse 10 errorLine.tokens = some (.returned 1 _ []))
  have jobs : Undisturbed plainWorld jobsLine := undisturbed_of_returned
    (rfl : (parser plainWorld).yyparse 10 jobsLine.tokens = some (.returned 0 _ []))
  apply calls_take_lines [(plainWorld, errorLine), (plainWorld, jobsLine)] [.endTok]
  simpa using ⟨error, jobs⟩

end QuashLabs.Quash.Parsing
