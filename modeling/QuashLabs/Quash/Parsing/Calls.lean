import QuashLabs.Quash.Parsing.Accepted

/-!
# Calls on lines

A line is a stretch of tokens up to the end of a command or of the input. A call of
`yyparse` at the start of a line ends on this line: it returns the commands of the
line if the line is a pipeline and no command otherwise, unless the stack is full or
an action stops the program.
-/

namespace QuashLabs.Quash.Parsing

open QuashLabs.Bison

/-- Tokens up to the first `EOC_TOK` or `END`. -/
structure Line where
  body : List Token
  last : Token
  inner : ∀ token ∈ body, token ≠ .eocTok ∧ token ≠ .endTok
  isEnd : last = .eocTok ∨ last = .endTok

namespace Line

/-- The line that a newline ends. -/
def ended (body : List Token) (inner : ∀ token ∈ body, token ≠ .eocTok ∧ token ≠ .endTok) :
    Line :=
  ⟨body, .eocTok, inner, .inl rfl⟩

/-- The line that the end of the input ends. -/
def final (body : List Token) (inner : ∀ token ∈ body, token ≠ .eocTok ∧ token ≠ .endTok) :
    Line :=
  ⟨body, .endTok, inner, .inr rfl⟩

/-- The tokens of a line. -/
def tokens (line : Line) : List Token := line.body ++ [line.last]

/-- The line ends with the end of the input. -/
def atEnd (line : Line) : Bool := decide (line.last = .endTok)

end Line

theorem symbol_mem_ends (token : Token) :
    token.symbol ∈ automaton.ends ↔ token = .eocTok ∨ token = .endTok := by
  cases token <;> simp [Token.symbol, automaton]

/-- The entry behind the commands of an array. -/
def eocHolder : CommandHolder := mkCommandHolder none none 0#8 mkEoc

/-- The results of a call at the start of a line. -/
inductive LineCall (world : World) (line : Line) : Result Token Answer Failure → Prop
  | exhausted : LineCall world line .exhausted
  | failed (reason : Failure)
      (evaluates : ∀ pipeline : Pipeline, line.body = pipeline.tokens →
        pipeline.eval world = .error reason) :
      LineCall world line (.failed reason)
  | commands (pipeline : Pipeline) (cmds : List CommandHolder)
      (body : line.body = pipeline.tokens) (evaluates : pipeline.eval world = .ok cmds) :
      LineCall world line (.returned 0 (some ⟨some (cmds ++ [eocHolder]), line.atEnd⟩) [])
  | nothing (status : Nat) (other : ∀ pipeline : Pipeline, line.body ≠ pipeline.tokens) :
      LineCall world line (.returned status (some ⟨none, line.atEnd⟩) [])

variable {world : World} {line : Line}

theorem Line.inner_symbol {token : Token} (mem : token ∈ line.body) :
    token.symbol ∉ automaton.ends := fun isEnd =>
  ((symbol_mem_ends token).1 isEnd).elim (line.inner token mem).1 (line.inner token mem).2

theorem Line.last_symbol (line : Line) : line.last.symbol ∈ automaton.ends :=
  (symbol_mem_ends line.last).2 line.isEnd

/-- The rule of `top` for a line of commands. -/
theorem exists_topRule (world : World) (line : Line) :
    ∃ rule ∈ automaton.finals, automaton.right rule = [25, line.last.symbol] ∧
      items.has 0 rule 0 Token.endTok.symbol = true ∧
      ∀ values, act world rule values = Action.accept <$> topAction line.atEnd values := by
  rcases line with ⟨body, last, inner, rfl | rfl⟩
  · exact ⟨3, by decide, rfl, by decide +kernel, fun _ => rfl⟩
  · exact ⟨4, by decide, rfl, by decide +kernel, fun _ => rfl⟩

/-- A call on a pipeline returns what the pipeline evaluates to. -/
theorem pipeline_call {pipeline : Pipeline} (body : line.body = pipeline.tokens) {fuel : Nat}
    {result : Result Token Answer Failure}
    (returns : (parser world).yyparse fuel line.tokens = some result) :
    result = .exhausted ∨
      match pipeline.eval world with
      | .error reason => result = .failed reason
      | .ok cmds => result = .returned 0 (some ⟨some (cmds ++ [eocHolder]), line.atEnd⟩) [] := by
  rcases exists_topRule world line with ⟨rule, final, right, item, acts⟩
  have derives : Reads world (automaton.right rule) (line.body ++ [line.last])
      (do let cmds ← pipeline.eval world; return [.cmdList cmds, line.last.value]) := by
    have joined := (reads_pipeline pipeline).append (reads_token world line.last)
    rw [right, body]
    cases eval : pipeline.eval world <;> rw [eval] at joined <;> exact joined
  have followed := Parser.derived_result (parser_certified world) items_valid line.last_symbol
    (fun _ => line.inner_symbol) final .endTok item derives returns
  apply followed.imp_right
  intro concludes
  cases eval : pipeline.eval world with
  | error reason =>
      rw [eval] at concludes
      exact concludes
  | ok cmds =>
      rw [eval] at concludes
      have finish : (parser world).finish rule [.cmdList cmds, line.last.value] =
          .stop (.returned 0 (some ⟨some (cmds ++ [eocHolder]), line.atEnd⟩) []) := by
        change Parser.reduced _ _ _ _ (act world rule _) = _
        rw [acts]
        rfl
      exact Next.stop.inj (concludes.symm.trans finish)

theorem mem_finals {rule : Nat} (final : rule ∈ automaton.finals) :
    rule = 2 ∨ rule = 3 ∨ rule = 4 ∨ rule = 5 ∨ rule = 6 := by
  simpa [automaton] using final

/-- The rules of `top` for lines of commands derive pipelines. -/
theorem pipeline_of_spelled {symbol : Nat} (spelled : SpelledAll [25, symbol] line.tokens)
    (ending : ∀ {tokens}, Spelled symbol tokens → ∃ token, tokens = [token]) :
    ∃ pipeline : Pipeline, line.body = pipeline.tokens := by
  rcases spelled with ⟨_, _, tokens, ⟨pipeline, rfl⟩, _, _, rfl, last, rfl⟩
  rcases ending last with ⟨token, rfl⟩
  rw [List.append_nil] at tokens
  exact ⟨pipeline, (List.append_inj' tokens rfl).1⟩

/-- A call on any other line returns no command. -/
theorem other_call (other : ∀ pipeline : Pipeline, line.body ≠ pipeline.tokens)
    {result : Result Token Answer Failure}
    (call : (parser world).LineResult automaton line.tokens line.last result) :
    LineCall world line result := by
  cases call with
  | exhausted => exact .exhausted
  | failed reason => exact .failed reason fun pipeline body => absurd body (other pipeline)
  | derived final derives ends =>
      have spelled := spelledAll_of_reads derives
      rcases mem_finals final with rfl | rfl | rfl | rfl | rfl
      · rcases spelled with ⟨_, _, tokens, rfl, rfl⟩
        have last : line.last = .eocTok := by
          have := congrArg List.getLast? tokens
          simpa [Line.tokens] using this
        obtain rfl := Next.stop.inj ends
        have atEnd : line.atEnd = false := by simp [Line.atEnd, last]
        exact atEnd ▸ .nothing 0 other
      · rcases pipeline_of_spelled spelled fun {_} last => ⟨_, last⟩ with ⟨pipeline, body⟩
        exact absurd body (other pipeline)
      · rcases pipeline_of_spelled spelled fun {_} last => ⟨_, last⟩ with ⟨pipeline, body⟩
        exact absurd body (other pipeline)
      · rcases spelled with ⟨_, _, _, error, _⟩
        cases error
      · rcases spelled with ⟨_, _, _, error, _⟩
        cases error
  | recovered final right ends =>
      rcases mem_finals final with rfl | rfl | rfl | rfl | rfl
      · cases right
      · cases right
      · cases right
      · have symbols : [1, 17] = [1, line.last.symbol] := right
        have last : line.last = .eocTok :=
          line.isEnd.resolve_right fun last => by simp [last, Token.symbol] at symbols
        obtain rfl := Next.stop.inj ends
        have atEnd : line.atEnd = false := by simp [Line.atEnd, last]
        exact atEnd ▸ .nothing 1 other
      · have symbols : [1, 10] = [1, line.last.symbol] := right
        have last : line.last = .endTok :=
          line.isEnd.resolve_left fun last => by simp [last, Token.symbol] at symbols
        obtain rfl := Next.stop.inj ends
        have atEnd : line.atEnd = true := by simp [Line.atEnd, last]
        exact atEnd ▸ .nothing 1 other

/-- A call at the start of a line ends on this line, as the line alone says, and leaves
the tokens behind it. -/
theorem line_call (world : World) (line : Line) :
    ∃ result, LineCall world line result ∧
      ∃ fuel, ∀ rest, (parser world).yyparse fuel (line.tokens ++ rest) =
        some (result.append rest) := by
  obtain ⟨result, call, fuel, runs⟩ := Parser.line_ends (parser_certified world)
    line.last_symbol line.body fun _ => line.inner_symbol
  refine ⟨result, ?_, fuel, runs⟩
  have alone : (parser world).yyparse fuel line.tokens = some result :=
    Parser.yyparse_alone _ runs
  by_cases commands : ∃ pipeline : Pipeline, line.body = pipeline.tokens
  · rcases commands with ⟨pipeline, body⟩
    rcases pipeline_call body alone with rfl | concludes
    · exact .exhausted
    · cases eval : pipeline.eval world with
      | ok cmds =>
          rw [eval] at concludes
          exact concludes ▸ .commands pipeline cmds body eval
      | error reason =>
          rw [eval] at concludes
          obtain rfl : result = .failed reason := concludes
          refine .failed reason fun pipeline' body' => ?_
          rcases pipeline_call body' alone with full | concludes'
          · cases full
          · cases eval' : pipeline'.eval world with
            | ok cmds =>
                rw [eval'] at concludes'
                cases concludes'
            | error reason' =>
                rw [eval'] at concludes'
                rw [Result.failed.inj concludes']
  · exact other_call (fun pipeline body => commands ⟨pipeline, body⟩) call

end QuashLabs.Quash.Parsing
