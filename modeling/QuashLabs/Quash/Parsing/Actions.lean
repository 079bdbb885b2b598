import QuashLabs.Quash.Parsing.Command
import QuashLabs.Quash.Parsing.Tables

/-!
# The parser of the shell

The semantic actions by the numbers of their rules, and the generated parser: the
driver of Bison with the tables and these actions. The parser fits its automaton, so
what holds of every such parser holds of this one.
-/

namespace QuashLabs.Quash.Parsing

open QuashLabs.Bison

/-- `YYSTYPE`: the union of the semantic values. `unset` stands for what the scanner
left in `yylval`. -/
inductive Value
  | unset
  | integer (i : Int)
  | str (s : CStr)
  | cmd (c : Command)
  | holder (h : CommandHolder)
  | cmdStrs (args : List (Option CStr))
  | cmdList (cmds : List CommandHolder)
  | redirect (r : Redirect)
  deriving Repr, DecidableEq

/-- What the last action leaves: `*__ret_cmds`, and whether it called
`end_main_loop`. -/
structure Answer where
  retCmds : Option (List CommandHolder)
  endsLoop : Bool
  deriving Repr, DecidableEq

/-- The value of a token. -/
def Token.value : Token → Value
  | .str text | .simStr text | .id text | .num text | .exitTok text => .str text
  | _ => .unset

/-- A union read in a member that was not written. -/
def wrongMember {α : Type} : Except Failure α := .error .uninitialised

/-- The actions of the rules below `top`. -/
def action (world : World) (rule : Nat) (values : List Value) : Except Failure Value :=
  match rule with
  | 7 => match values with
    | [.holder top] => .cmdList <$> cmdsLast top
    | _ => wrongMember
  | 8 => match values with
    | [.holder top, _, .cmdList cmds] => .cmdList <$> cmdsPipe top cmds
    | _ => wrongMember
  | 9 => match values with
    | [.cmd content, .redirect redir, .integer bg] => return .holder (cmdTop content redir bg)
    | _ => wrongMember
  | 10 => match values with
    | [.cmdStrs args] => return .cmd (mkGenericCommand args)
    | _ => wrongMember
  | 11 => return .cmd (mkEchoCommand [none])
  | 12 => match values with
    | [_, .cmdStrs args] => return .cmd (mkEchoCommand args)
    | _ => wrongMember
  | 13 => match values with
    | [_, .str name, _, .str val] => return .cmd (mkExportCommand name val)
    | _ => wrongMember
  | 14 => .cmd <$> cdHome world
  | 15 => match values with
    | [_, .str dir] => return .cmd (cdString world dir)
    | _ => wrongMember
  | 16 => return .cmd mkPwdCommand
  | 17 => return .cmd mkJobsCommand
  | 18 => return .cmd mkExitCommand
  | 19 => match values with
    | [_, .str sig, .str job] => return .cmd (mkKillCommand sig job)
    | _ => wrongMember
  | 20 => match values with
    | [.redirect redir] => return .redirect redir
    | _ => wrongMember
  | 21 => return .redirect (mkRedirect none none false)
  | 22 => match values with
    | [.integer mark, .str file, .redirect redir] =>
        return .redirect (redirInnerMore mark file redir)
    | _ => wrongMember
  | 23 => match values with
    | [.integer mark, .str file] => return .redirect (redirInnerLast mark file)
    | _ => wrongMember
  | 24 => return .integer (redirMark Flags.redirectIn)
  | 25 => return .integer (redirMark Flags.redirectOut)
  | 26 => return .integer (redirMark Flags.redirectAppend)
  | 27 => return .integer 0
  | 28 => return .integer 1
  | 29 | 32 => match values with
    | [.str str, .cmdStrs args] => .cmdStrs <$> argsMore str args
    | _ => wrongMember
  | 30 | 31 => match values with
    | [.str str] => .cmdStrs <$> argsLast str
    | _ => wrongMember
  | 35 => return .str "export".toList
  | 36 => return .str "cd".toList
  | 37 => return .str "kill".toList
  | 38 => return .str "pwd".toList
  | 39 => return .str "jobs".toList
  | 41 => match values with
    | [.str str] => .str <$> firstStringStr world str
    | _ => wrongMember
  | 33 | 34 | 40 | 42 | 43 | 44 => match values with
    | [.str str] => return .str str
    | _ => wrongMember
  | _ => wrongMember

/-- The actions of `top` for a line of commands. -/
def topAction (endsLoop : Bool) (values : List Value) : Except Failure Answer :=
  match values with
  | [.cmdList cmds, _] => do
      let cmds ← topCmds cmds
      return ⟨some cmds, endsLoop⟩
  | _ => wrongMember

/-- The semantic actions. -/
def act (world : World) (rule : Nat) (values : List Value) :
    Except Failure (Action Value Answer) :=
  match rule with
  | 2 => .ok (.accept ⟨none, false⟩)
  | 3 => .accept <$> topAction false values
  | 4 => .accept <$> topAction true values
  | 5 => .ok (.abort ⟨none, false⟩)
  | 6 => .ok (.abort ⟨none, true⟩)
  | rule => .value <$> action world rule values

/-- `yyparse` with its tables and actions. -/
def parser (world : World) : Parser Token Value Answer Failure where
  tables := tables
  symbol := Token.symbol
  tokenValue := Token.value
  atEnd := .endTok
  errorValue := .unset
  act := act world
  maxDepth := world.maxDepth

/-- The rules below `top` give values. -/
theorem act_eq_value (world : World) {rule : Nat} (inner : rule ∉ automaton.finals)
    (values : List Value) : act world rule values = Action.value <$> action world rule values := by
  unfold act
  split <;> first | rfl | exact absurd (by decide) inner

theorem parser_certified (world : World) : Certified (parser world) automaton where
  valid := automaton_valid
  symbol_mem := Token.symbol_mem
  finals_end rule final values v := by
    have top : rule = 2 ∨ rule = 3 ∨ rule = 4 ∨ rule = 5 ∨ rule = 6 := by
      simpa [automaton] using final
    rcases top with rfl | rfl | rfl | rfl | rfl
    · simp [parser, act]
    · cases result : topAction false values <;> simp [parser, act, result]
    · cases result : topAction true values <;> simp [parser, act, result]
    · simp [parser, act]
    · simp [parser, act]
  others_value rule inner := ⟨action world rule, act_eq_value world inner⟩

end QuashLabs.Quash.Parsing
