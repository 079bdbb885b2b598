import QuashLabs.Quash.Parsing.Holders
import QuashLabs.Quash.Parsing.Listing
import QuashLabs.Quash.Parsing.Prefixes

/-!
# Lines without quotes

On a line without quoted strings the only value that an action may miss is the home
directory: `cd` without an argument copies it, whether there is one or not. So `parse`
returns on such a line exactly when the variable `HOME` is set or no command of the line
is `cd` alone.
-/

namespace QuashLabs.Quash.Parsing

open QuashLabs.Bison QuashLabs.Checked

variable {world : World} {pipes : Nat} {phase : Phase} {token : Token} {tokens : List Token}

/-- The token is a keyword, an operator or a word without quotes. -/
def Token.isPlain : Token → Bool
  | .str _ => false
  | _ => true

/-- A command is `cd` and the token behind it is no argument. -/
def LoneCd (tokens : List Token) : Prop :=
  ∃ before token after, tokens = before ++ .cdTok :: token :: after ∧ Opens before ∧
    token.isArgument = false

/-- From this phase on, `cd` is read as a command and no argument follows. -/
def MeetsCd (phase : Phase) (tokens : List Token) : Prop :=
  ∃ before token after, tokens = before ++ token :: after ∧ phase.afterAll before = some .cd ∧
    token.isArgument = false

theorem meetsCd_cons : MeetsCd phase (token :: tokens) ↔
    phase = .cd ∧ token.isArgument = false ∨
      ∃ phase', phase.after token = some phase' ∧ MeetsCd phase' tokens := by
  constructor
  · rintro ⟨before, token', after, split, reached, other⟩
    cases before with
    | nil =>
        obtain ⟨rfl, rfl⟩ := List.cons.inj split
        exact .inl ⟨Option.some.inj reached, other⟩
    | cons first before =>
        obtain ⟨rfl, rfl⟩ := List.cons.inj split
        rw [Phase.afterAll_cons] at reached
        obtain ⟨phase', behind, reached⟩ := Option.bind_eq_some_iff.1 reached
        exact .inr ⟨phase', behind, before, token', after, rfl, reached, other⟩
  · rintro (⟨rfl, other⟩ | ⟨phase', behind, before, token', after, rfl, reached, other⟩)
    · exact ⟨[], token, tokens, rfl, rfl, other⟩
    · refine ⟨token :: before, token', after, rfl, ?_, other⟩
      rw [Phase.afterAll_cons, behind, Option.bind_some, reached]

/-- On a line, this is where a command starts with `cd`. -/
theorem meetsCd_start_iff : MeetsCd .start tokens ↔ LoneCd tokens := by
  constructor
  · rintro ⟨_, token, after, rfl, reached, other⟩
    obtain ⟨before, opens, rfl⟩ := afterAll_cd_iff.1 reached
    exact ⟨before, token, after, List.append_assoc .., opens, other⟩
  · rintro ⟨before, token, after, rfl, opens, other⟩
    refine ⟨before ++ [.cdTok], token, after, List.append_cons .., ?_, other⟩
    exact afterAll_cd_iff.2 ⟨before, opens, rfl⟩

/-! ## Where the home directory is copied -/

theorem failure_of_plain (plain : token.isPlain = true) : token.failure world = none := by
  cases token <;> first | rfl | cases plain

theorem cd_failure (unset : world.env.lookup "HOME".toList = none) :
    Phase.cd.failure world = some .assertion := by
  rw [Phase.failure, cdHome, unset]
  rfl

theorem failure_of_set {home : CStr} (set : world.env.lookup "HOME".toList = some home) :
    phase.failure world = none := by
  cases phase with
  | cd =>
      rw [Phase.failure, cdHome, set]
      rfl
  | _ => rfl

theorem failure_of_ne_cd (other : phase ≠ .cd) : phase.failure world = none := by
  cases phase with
  | cd => exact absurd rfl other
  | _ => rfl

/-- Without a failure a call goes on where the phase does, and has an answer elsewhere. -/
theorem advance_after (plain : token.isPlain = true)
    (calm : phase.next token = none → phase.failure world = none) (pipes : Nat) :
    ∃ height pipes', advance world pipes phase token =
      (height, match phase.after token with
        | some phase' => .on pipes' phase'
        | none => .answered) := by
  rw [advance, Phase.after, failure_of_plain plain]
  cases next : phase.next token with
  | some phase' => exact ⟨_, _, rfl⟩
  | none =>
      cases phase.complete with
      | some count =>
          simp only [calm next, advanceBehind]
          split
          · exact ⟨_, _, rfl⟩
          · split
            · exact ⟨_, _, rfl⟩
            · split
              · exact ⟨_, _, rfl⟩
              · exact ⟨_, 0, rfl⟩
      | none =>
          simp only
          split
          · exact ⟨_, _, rfl⟩
          · split
            · exact ⟨_, 0, rfl⟩
            · exact ⟨_, 0, rfl⟩

/-- With a home directory no action fails. -/
theorem advanceAll_of_set (plain : ∀ token ∈ tokens, token.isPlain = true) {home : CStr}
    (set : world.env.lookup "HOME".toList = some home) :
    (advanceAll world pipes phase tokens).2 = none := by
  induction tokens generalizing pipes phase with
  | nil => rfl
  | cons token tokens ih =>
      rw [List.forall_mem_cons] at plain
      have calm : phase.failure world = none := failure_of_set set
      obtain ⟨height, pipes', moves⟩ := advance_after plain.1 (fun _ => calm) pipes
      rw [advanceAll, moves]
      cases phase.after token with
      | some phase' => exact ih plain.2
      | none => rfl

/-- Without a home directory an action fails exactly where `cd` has been read as a command
and no argument follows. -/
theorem advanceAll_of_unset (plain : ∀ token ∈ tokens, token.isPlain = true)
    (unset : world.env.lookup "HOME".toList = none) :
    (advanceAll world pipes phase tokens).2 = none ↔ ¬ MeetsCd phase tokens := by
  induction tokens generalizing pipes phase with
  | nil => simp [advanceAll, MeetsCd]
  | cons token tokens ih =>
      rw [List.forall_mem_cons] at plain
      rw [advanceAll, meetsCd_cons]
      by_cases here : phase = .cd ∧ token.isArgument = false
      · obtain ⟨rfl, other⟩ := here
        have moves : advance world pipes .cd token = (0, .fails .assertion) := by
          simp [advance, Phase.next, other, Phase.complete, cd_failure unset]
        rw [moves]
        exact iff_of_false (Option.some_ne_none _) (not_not.2 (.inl ⟨rfl, other⟩))
      have calm : phase.next token = none → phase.failure world = none := by
        intro ends
        apply failure_of_ne_cd
        rintro rfl
        refine here ⟨rfl, ?_⟩
        by_contra isArgument
        simp [Phase.next, isArgument] at ends
      obtain ⟨height, pipes', moves⟩ := advance_after plain.1 calm pipes
      rw [moves, or_iff_right here]
      cases behind : phase.after token with
      | some phase' => simpa using ih plain.2
      | none => simp

theorem lineFailure_eq_none_iff (plain : ∀ token ∈ tokens, token.isPlain = true) :
    lineFailure world tokens = none ↔
      world.env.lookup "HOME".toList ≠ none ∨ ¬ LoneCd tokens := by
  rw [lineFailure]
  cases lookup : world.env.lookup "HOME".toList with
  | some home => exact iff_of_true (advanceAll_of_set plain lookup) (.inl (Option.some_ne_none _))
  | none => rw [advanceAll_of_unset plain lookup, meetsCd_start_iff, or_iff_right (not_not.2 rfl)]

/-! ## Calls of `parse` -/

/-- `parse` returns, with a command array or `NULL`. -/
def ParseReturns (world : World) (input : List Token) (parsedStr : Option Buffer) : Prop :=
  ∃ fuel holders text, parseCall world fuel input parsedStr = some (.ok (holders, text))

theorem not_parseReturns_of_failed {fuel : Nat} {input : List Token} {reason : Failure}
    (fails : (parser world).yyparse fuel input = some (.failed reason))
    (parsedStr : Option Buffer) : ¬ ParseReturns world input parsedStr := by
  rintro ⟨fuel', holders, text, returns⟩
  obtain ⟨result, ends, value⟩ := Option.map_eq_some_iff.1 returns
  rw [← (parser world).yyparse_unique fails ends] at value
  cases value

/-- The entries that a call leaves can be stringified. -/
theorem exists_text {line : Line} {status : Nat} {answer : Answer} {left : List Token}
    (call : LineCall world line (.returned status (some answer) left))
    (parsedStr : Option Buffer) : ∃ text, parse answer.retCmds parsedStr = .ok text := by
  cases call with
  | commands pipeline cmds body evaluates =>
      exact ⟨_, parse_eq (entries_of_stages _ _ evaluates).printable parsedStr⟩
  | nothing status other => exact ⟨parsedStr, rfl⟩

/-- On a line without quotes that fits on the stack, `parse` returns exactly when there is a
home directory or no command of the line is `cd` alone. -/
theorem parse_returns_iff (world : World) (line : Line) (rest : List Token)
    (parsedStr : Option Buffer) (plain : ∀ token ∈ line.tokens, token.isPlain = true)
    (room : stackPeak world line.tokens + 1 < world.maxDepth) :
    ParseReturns world (line.tokens ++ rest) parsedStr ↔
      world.env.lookup "HOME".toList ≠ none ∨ ¬ LoneCd line.tokens := by
  obtain ⟨result, call, ⟨fuel, runs⟩, comes⟩ := call_of_line world line
  rw [if_pos room] at comes
  rw [← lineFailure_eq_none_iff plain]
  cases failure : lineFailure world line.tokens with
  | some reason =>
      rw [failure] at comes
      obtain rfl : result = .failed reason := comes
      have returnsNot := not_parseReturns_of_failed (runs rest) parsedStr
      exact iff_of_false returnsNot (Option.some_ne_none reason)
  | none =>
      rw [failure] at comes
      obtain ⟨status, answer, rfl⟩ := comes
      obtain ⟨text, stringified⟩ := exists_text call parsedStr
      refine iff_of_true ⟨fuel, answer.retCmds, text, ?_⟩ rfl
      rw [parseCall, runs rest, Option.map_some]
      simp only [Result.append, readHolders, ok_bind, stringified]
      rfl

/-- The line `cd a > b` without a variable `HOME`. -/
theorem parse_returns_iff_argument :
    ParseReturns plainWorld (cdLine.tokens ++ [.endTok]) none ↔
      plainWorld.env.lookup "HOME".toList ≠ none ∨ ¬ LoneCd cdLine.tokens :=
  parse_returns_iff plainWorld cdLine [.endTok] none (by decide) (by decide)

/-- The line `cd`. -/
def cdAloneLine : Line := .ended [.cdTok] (by decide)

/-- Without a variable `HOME` the assertion of `memory_pool_strdup` fails on this line. -/
theorem parse_returns_fails :
    (∀ token ∈ cdAloneLine.tokens, token.isPlain = true) ∧
      stackPeak plainWorld cdAloneLine.tokens + 1 < plainWorld.maxDepth ∧
      parseCall plainWorld 10 (cdAloneLine.tokens ++ [.endTok]) none = some (.error .assertion) ∧
      ¬ ParseReturns plainWorld (cdAloneLine.tokens ++ [.endTok]) none := by
  refine ⟨by decide, by decide, rfl, ?_⟩
  have fails : (parser plainWorld).yyparse 10 (cdAloneLine.tokens ++ [.endTok]) =
      some (.failed .assertion) := rfl
  exact not_parseReturns_of_failed fails none

end QuashLabs.Quash.Parsing
