import QuashLabs.Quash.Parsing.Grammar

/-!
# Reading a line token by token

How far the parser is in a line, without its stack: the number of pipes that it has read
and the phase of the command behind the last one. A token moves on to another phase, or
settles the call. Counting the entries that the stack gets on the way gives the height
that a line needs.
-/

namespace QuashLabs.Quash.Parsing

/-- The token is a word of the grammar. -/
def Token.isArgument : Token → Bool
  | .str _ | .simStr _ | .id _ | .num _ => true
  | .exportTok | .cdTok | .pwdTok | .jobsTok | .killTok | .exitTok _ => true
  | _ => false

/-- The token marks a redirection. -/
def Token.isMark : Token → Bool
  | .redirIn | .redirOut | .redirOutApp => true
  | _ => false

theorem FirstString.isArgument (s : FirstString) : s.token.isArgument = true := by
  cases s <;> rfl

theorem Word.isArgument (word : Word) : word.token.isArgument = true := by
  cases word with
  | first s => exact s.isArgument
  | _ => rfl

theorem Mark.isMark (mark : Mark) : mark.token.isMark = true := by
  cases mark <;> rfl

/-- How far a command is read: nothing of it, a command or `echo` with some arguments, a
part of another builtin, a builtin with some redirections, a mark behind these, or all of
it with the mark for the background. -/
inductive Phase
  | start
  | words (echo : Bool) (args : Nat)
  | exportTok
  | exportName
  | exportEquals
  | cd
  | killTok
  | killSignal
  | redirs (count : Nat)
  | mark (count : Nat)
  | stage
  deriving Repr, DecidableEq

namespace Phase

/-- The entries on the stack for a command in this phase. -/
def height : Phase → Nat
  | .start => 0
  | .words _ args => args + 1
  | .exportTok | .cd | .killTok | .stage => 1
  | .exportName | .killSignal => 2
  | .exportEquals => 3
  | .redirs count => 2 * count + 1
  | .mark count => 2 * count + 2

/-- The phase behind a token that belongs to a command or a redirection in this phase. -/
def next : Phase → Token → Option Phase
  | .start, .str _ | .start, .simStr _ | .start, .id _ | .start, .num _ => some (.words false 0)
  | .start, .echoTok => some (.words true 0)
  | .start, .exportTok => some .exportTok
  | .start, .cdTok => some .cd
  | .start, .killTok => some .killTok
  | .start, .pwdTok | .start, .jobsTok | .start, .exitTok _ => some (.redirs 0)
  | .words echo args, token => if token.isArgument then some (.words echo (args + 1)) else none
  | .exportTok, .id _ => some .exportName
  | .exportName, .equals => some .exportEquals
  | .exportEquals, token => if token.isArgument then some (.redirs 0) else none
  | .cd, token => if token.isArgument then some (.redirs 0) else none
  | .killTok, .num _ => some .killSignal
  | .killSignal, .num _ => some (.redirs 0)
  | .mark count, token => if token.isArgument then some (.redirs (count + 1)) else none
  | _, _ => none

/-- The redirections behind a command that may be complete. -/
def complete : Phase → Option Nat
  | .words _ _ | .cd => some 0
  | .redirs count => some count
  | _ => none

end Phase

/-- What becomes of a call at a token: it goes on, it has an answer once the line is read,
or an action fails. -/
inductive Move
  | on (pipes : Nat) (phase : Phase)
  | answered
  | fails (reason : Failure)

/-- The failure of the action for a word. -/
def Token.failure (world : World) : Token → Option Failure
  | .str text =>
      match firstStringStr world text with
      | .error reason => some reason
      | .ok _ => none
  | _ => none

/-- The failure of the action for a complete command in this phase. -/
def Phase.failure (world : World) : Phase → Option Failure
  | .cd =>
      match cdHome world with
      | .error reason => some reason
      | .ok _ => none
  | _ => none

/-- What becomes of a call at a token behind a complete command with this many redirections,
and the height that the stack gets on the way. An empty redirection and an empty mark for
the background are entries too. -/
def advanceBehind (pipes count : Nat) (token : Token) : Nat × Move :=
  if token.isMark then (2 * pipes + 2 * count + 2, .on pipes (.mark count))
  else if token = .bckgrnd then (2 * pipes + 3, .on pipes .stage)
  else if token = .pipe then (2 * pipes + 3, .on (pipes + 1) .start)
  else (2 * pipes + 3, .answered)

/-- What becomes of a call at a token, and the height that the stack gets on the way. After
an error the token `error` and the end of the line are on the stack. -/
def advance (world : World) (pipes : Nat) (phase : Phase) (token : Token) : Nat × Move :=
  match phase.next token with
  | some next =>
      (2 * pipes + phase.height + 1,
        match token.failure world with
        | some reason => .fails reason
        | none => .on pipes next)
  | none =>
      match phase.complete with
      | some count =>
          match phase.failure world with
          | some reason => (0, .fails reason)
          | none => advanceBehind pipes count token
      | none =>
          if phase = .stage ∧ token = .pipe then (2 * pipes + 2, .on (pipes + 1) .start)
          else if phase = .start ∧ pipes = 0 ∧ token = .eocTok then (1, .answered)
          else (2, .answered)

/-- The height that the stack gets in a call on these tokens, and the failure that ends
it. -/
def advanceAll (world : World) : Nat → Phase → List Token → Nat × Option Failure
  | _, _, [] => (0, none)
  | pipes, phase, token :: tokens =>
      match advance world pipes phase token with
      | (height, .on pipes phase) =>
          let later := advanceAll world pipes phase tokens
          (max height later.1, later.2)
      | (height, .answered) => (height, none)
      | (height, .fails reason) => (height, some reason)

/-- The height that a line needs on the stack. -/
def stackPeak (world : World) (tokens : List Token) : Nat := (advanceAll world 0 .start tokens).1

/-- The failure that ends the call on a line that the stack has room for. -/
def lineFailure (world : World) (tokens : List Token) : Option Failure :=
  (advanceAll world 0 .start tokens).2

end QuashLabs.Quash.Parsing
