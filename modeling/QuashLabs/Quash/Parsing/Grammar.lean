import QuashLabs.Quash.Parsing.Actions

/-!
# Lines of commands

The command lines of the shell as the grammar describes them: pipelines of stages,
each a command with its redirections and perhaps a mark for the background. A
pipeline has tokens, and a value that the semantic actions give it. The parser finds
every pipeline, and what it accepts are the tokens of a pipeline.
-/

namespace QuashLabs.Quash.Parsing

open QuashLabs.Bison

/-! ## Syntax -/

/-- `first_string`. -/
inductive FirstString
  | str (text : CStr)
  | simStr (text : CStr)
  | num (text : CStr)
  | id (text : CStr)
  deriving Repr, DecidableEq

/-- `string`: a word, which may be the name of a builtin other than `echo`. -/
inductive Word
  | first (s : FirstString)
  | exportTok
  | cdTok
  | killTok
  | pwdTok
  | jobsTok
  | exitTok (text : CStr)
  deriving Repr, DecidableEq

/-- `cmd_content`. -/
inductive Content
  | command (first : FirstString) (args : List Word)
  | echo (args : List Word)
  | exportVar (name : CStr) (val : Word)
  | cdAlone
  | cd (dir : Word)
  | pwd
  | jobs
  | exit (text : CStr)
  | kill (sig job : CStr)
  deriving Repr, DecidableEq

/-- `redir_mark`. -/
inductive Mark
  | redirIn
  | redirOut
  | redirOutApp
  deriving Repr, DecidableEq

/-- `cmd_top`: a command with redirections, perhaps marked with `&`. -/
structure Stage where
  content : Content
  redirs : List (Mark × Word)
  background : Bool
  deriving Repr, DecidableEq

/-- `cmds`: one or more stages joined by pipes. -/
structure Pipeline where
  first : Stage
  rest : List Stage
  deriving Repr, DecidableEq

/-! ## Tokens -/

/-- The token of a first string. -/
def FirstString.token : FirstString → Token
  | .str text => .str text
  | .simStr text => .simStr text
  | .num text => .num text
  | .id text => .id text

/-- The token of a word. -/
def Word.token : Word → Token
  | .first s => s.token
  | .exportTok => .exportTok
  | .cdTok => .cdTok
  | .killTok => .killTok
  | .pwdTok => .pwdTok
  | .jobsTok => .jobsTok
  | .exitTok text => .exitTok text

/-- The tokens of a command. -/
def Content.tokens : Content → List Token
  | .command first args => first.token :: args.map Word.token
  | .echo args => .echoTok :: args.map Word.token
  | .exportVar name val => [.exportTok, .id name, .equals, val.token]
  | .cdAlone => [.cdTok]
  | .cd dir => [.cdTok, dir.token]
  | .pwd => [.pwdTok]
  | .jobs => [.jobsTok]
  | .exit text => [.exitTok text]
  | .kill sig job => [.killTok, .num sig, .num job]

/-- The token of a redirection mark. -/
def Mark.token : Mark → Token
  | .redirIn => .redirIn
  | .redirOut => .redirOut
  | .redirOutApp => .redirOutApp

/-- The tokens of redirections. -/
def redirTokens (redirs : List (Mark × Word)) : List Token :=
  redirs.flatMap fun redir => [redir.1.token, redir.2.token]

/-- The tokens of a stage. -/
def Stage.tokens (stage : Stage) : List Token :=
  stage.content.tokens ++ redirTokens stage.redirs ++ if stage.background then [.bckgrnd] else []

/-- The tokens of stages joined by pipes. -/
def stageTokens (first : Stage) : List Stage → List Token
  | [] => first.tokens
  | second :: rest => first.tokens ++ .pipe :: stageTokens second rest

/-- The tokens of a pipeline. -/
def Pipeline.tokens (pipeline : Pipeline) : List Token :=
  stageTokens pipeline.first pipeline.rest

/-! ## Values -/

/-- The value of a first string. -/
def FirstString.eval (world : World) : FirstString → Except Failure CStr
  | .str text => firstStringStr world text
  | .simStr text | .num text | .id text => .ok text

/-- The value of a word. -/
def Word.eval (world : World) : Word → Except Failure CStr
  | .first s => s.eval world
  | .exportTok => .ok "export".toList
  | .cdTok => .ok "cd".toList
  | .killTok => .ok "kill".toList
  | .pwdTok => .ok "pwd".toList
  | .jobsTok => .ok "jobs".toList
  | .exitTok text => .ok text

/-- The array of the arguments. -/
def evalArgs (world : World) : List Word → Except Failure (List (Option CStr))
  | [] => .ok [none]
  | word :: words => do
      let str ← word.eval world
      let args ← evalArgs world words
      argsMore str args

/-- The array of a command that is not a builtin. -/
def evalCommand (world : World) (first : FirstString) (args : List Word) :
    Except Failure (List (Option CStr)) := do
  let str ← first.eval world
  let args ← evalArgs world args
  argsMore str args

/-- The value of a command. -/
def Content.eval (world : World) : Content → Except Failure Command
  | .command first args => do return mkGenericCommand (← evalCommand world first args)
  | .echo args => do return mkEchoCommand (← evalArgs world args)
  | .exportVar name val => do return mkExportCommand name (← val.eval world)
  | .cdAlone => cdHome world
  | .cd dir => do return cdString world (← dir.eval world)
  | .pwd => .ok mkPwdCommand
  | .jobs => .ok mkJobsCommand
  | .exit _ => .ok mkExitCommand
  | .kill sig job => .ok (mkKillCommand sig job)

/-- The flag of a redirection mark. -/
def Mark.flag : Mark → BitVec 8
  | .redirIn => Flags.redirectIn
  | .redirOut => Flags.redirectOut
  | .redirOutApp => Flags.redirectAppend

/-- The value of redirections. -/
def evalRedirs (world : World) : List (Mark × Word) → Except Failure Redirect
  | [] => .ok (mkRedirect none none false)
  | (mark, word) :: redirs => do
      let file ← word.eval world
      let redir ← evalRedirs world redirs
      return redirInnerMore (redirMark mark.flag) file redir

/-- The value of a stage. -/
def Stage.eval (world : World) (stage : Stage) : Except Failure CommandHolder := do
  let content ← stage.content.eval world
  let redir ← evalRedirs world stage.redirs
  return cmdTop content redir (if stage.background then 1 else 0)

/-- The value of stages joined by pipes. -/
def evalStages (world : World) (first : Stage) : List Stage → Except Failure (List CommandHolder)
  | [] => do
      let top ← first.eval world
      cmdsLast top
  | second :: rest => do
      let top ← first.eval world
      let cmds ← evalStages world second rest
      cmdsPipe top cmds

/-- The value of a pipeline. -/
def Pipeline.eval (world : World) (pipeline : Pipeline) : Except Failure (List CommandHolder) :=
  evalStages world pipeline.first pipeline.rest

/-! ## The parser finds every pipeline -/

variable {world : World}

/-- The parser derives the tokens from the symbols, with these values. -/
abbrev Reads (world : World) (symbols : List Nat) (tokens : List Token)
    (values : Except Failure (List Value)) : Prop :=
  Automaton.Yields (parser world) automaton symbols tokens values

/-- One rule below `top`. -/
theorem reads_rule (rule : Nat) (known : rule ∈ automaton.rules)
    (inner : rule ∉ automaton.finals) {tokens : List Token}
    {values : Except Failure (List Value)}
    (reads : Reads world (automaton.right rule) tokens values)
    {α : Type} {result : Except Failure α} {wrap : α → Value}
    (gives : (do let values ← values; action world rule values) = wrap <$> result) :
    Reads world [tables.lhs rule] tokens (do let a ← result; return [wrap a]) := by
  have derived := Automaton.Yields.rule known (act_eq_value world inner) reads .nil
  rw [List.append_nil] at derived
  have value : (do
      let values ← values
      let value ← action world rule values
      let values ← Except.ok []
      return value :: values) = (do let a ← result; return [wrap a]) := by
    calc (do
          let values ← values
          let value ← action world rule values
          let values ← Except.ok []
          return value :: values)
        = (do let value ← (do let values ← values; action world rule values); return [value]) := by
          cases values <;> rfl
      _ = (do let a ← result; return [wrap a]) := by
          rw [gives]
          cases result <;> rfl
  exact value ▸ derived

/-- One rule whose action gives a value that is known. -/
theorem reads_value (rule : Nat) (known : rule ∈ automaton.rules)
    (inner : rule ∉ automaton.finals) {tokens : List Token}
    {values : Except Failure (List Value)}
    (reads : Reads world (automaton.right rule) tokens values)
    {value : Value} (gives : (do let values ← values; action world rule values) = .ok value) :
    Reads world [tables.lhs rule] tokens (.ok [value]) := by
  have reads : Reads world _ _ (do let value ← Except.ok value; return [value]) :=
    reads_rule rule known inner reads (gives : _ = id <$> Except.ok value)
  exact reads

theorem reads_token (world : World) (token : Token) :
    Reads world [token.symbol] [token] (.ok [token.value]) :=
  .token token .nil

theorem reads_first (s : FirstString) :
    Reads world [36] [s.token] (do let str ← s.eval world; return [.str str]) := by
  cases s with
  | str text => exact reads_rule 41 (by decide) (by decide) (reads_token _ (.str text)) rfl
  | simStr text => exact reads_rule 42 (by decide) (by decide) (reads_token _ (.simStr text)) rfl
  | num text => exact reads_rule 43 (by decide) (by decide) (reads_token _ (.num text)) rfl
  | id text => exact reads_rule 44 (by decide) (by decide) (reads_token _ (.id text)) rfl

/-- The names of builtins are special strings. -/
theorem reads_special (rule : Nat) (known : rule ∈ automaton.rules)
    (inner : rule ∉ automaton.finals) (special : tables.lhs rule = 35) {token : Token}
    (right : automaton.right rule = [token.symbol]) {str : CStr}
    (gives : action world rule [token.value] = .ok (.str str)) :
    Reads world [34] [token] (.ok [.str str]) := by
  have reads : Reads world [35] [token] (.ok [.str str]) :=
    special ▸ reads_value rule known inner (right ▸ reads_token _ token) gives
  exact reads_value 34 (by decide) (by decide) reads rfl

theorem reads_word (word : Word) :
    Reads world [34] [word.token] (do let str ← word.eval world; return [.str str]) := by
  cases word with
  | first s =>
      apply reads_rule 33 (by decide) (by decide) (reads_first s)
      change (s.eval world >>= _) >>= _ = Value.str <$> s.eval world
      cases s.eval world <;> rfl
  | exportTok => exact reads_special 35 (by decide) (by decide) rfl rfl rfl
  | cdTok => exact reads_special 36 (by decide) (by decide) rfl rfl rfl
  | killTok => exact reads_special 37 (by decide) (by decide) rfl rfl rfl
  | pwdTok => exact reads_special 38 (by decide) (by decide) rfl rfl rfl
  | jobsTok => exact reads_special 39 (by decide) (by decide) rfl rfl rfl
  | exitTok text => exact reads_special 40 (by decide) (by decide) rfl rfl rfl

theorem evalArgs_cons (word : Word) (words : List Word) :
    evalArgs world (word :: words) =
      (do
        let str ← word.eval world
        let args ← evalArgs world words
        argsMore str args) := rfl

/-- The arguments of a command. -/
theorem reads_args (word : Word) (words : List Word) :
    Reads world [33] ((word :: words).map Word.token)
      (do let args ← evalArgs world (word :: words); return [.cmdStrs args]) := by
  induction words generalizing word with
  | nil =>
      apply reads_rule 31 (by decide) (by decide) (reads_word word)
      simp only [evalArgs]
      cases word.eval world <;> rfl
  | cons next words ih =>
      apply reads_rule 32 (by decide) (by decide) ((reads_word word).append (ih next))
      rw [evalArgs_cons word]
      generalize evalArgs world (next :: words) = args
      cases word.eval world <;> cases args <;> rfl

/-- A command that is not a builtin. -/
theorem reads_command (first : FirstString) (args : List Word) :
    Reads world [32] (first.token :: args.map Word.token)
      (do let args ← evalCommand world first args; return [.cmdStrs args]) := by
  cases args with
  | nil =>
      apply reads_rule 30 (by decide) (by decide) (reads_first first)
      simp only [evalCommand, evalArgs]
      cases first.eval world <;> rfl
  | cons word words =>
      refine reads_rule 29 (by decide) (by decide)
        ((reads_first first).append (reads_args word words)) ?_
      rw [evalCommand]
      generalize evalArgs world (word :: words) = args
      cases first.eval world <;> cases args <;> rfl

theorem reads_content (content : Content) :
    Reads world [27] content.tokens (do let cmd ← content.eval world; return [.cmd cmd]) := by
  cases content with
  | command first args =>
      apply reads_rule 10 (by decide) (by decide) (reads_command first args)
      simp only [Content.eval]
      cases evalCommand world first args <;> rfl
  | echo args =>
      cases args with
      | nil => exact reads_rule 11 (by decide) (by decide) (reads_token _ .echoTok) rfl
      | cons word words =>
          refine reads_rule 12 (by decide) (by decide)
            ((reads_token _ .echoTok).append (reads_args word words)) ?_
          simp only [Content.eval]
          cases evalArgs world (word :: words) <;> rfl
  | exportVar name val =>
      refine reads_rule 13 (by decide) (by decide)
        (.token .exportTok (.token (.id name) (.token .equals (reads_word val)))) ?_
      simp only [Content.eval]
      cases val.eval world <;> rfl
  | cdAlone =>
      exact reads_rule 14 (by decide) (by decide) (reads_token _ .cdTok) rfl
  | cd dir =>
      apply reads_rule 15 (by decide) (by decide) (.token .cdTok (reads_word dir))
      simp only [Content.eval]
      cases dir.eval world <;> rfl
  | pwd => exact reads_rule 16 (by decide) (by decide) (reads_token _ .pwdTok) rfl
  | jobs => exact reads_rule 17 (by decide) (by decide) (reads_token _ .jobsTok) rfl
  | exit text => exact reads_rule 18 (by decide) (by decide) (reads_token _ (.exitTok text)) rfl
  | kill sig job =>
      exact reads_rule 19 (by decide) (by decide)
        (.token .killTok (.token (.num sig) (reads_token _ (.num job)))) rfl

theorem reads_mark (mark : Mark) :
    Reads world [30] [mark.token] (.ok [.integer (redirMark mark.flag)]) := by
  cases mark with
  | redirIn => exact reads_value 24 (by decide) (by decide) (reads_token _ .redirIn) rfl
  | redirOut => exact reads_value 25 (by decide) (by decide) (reads_token _ .redirOut) rfl
  | redirOutApp => exact reads_value 26 (by decide) (by decide) (reads_token _ .redirOutApp) rfl

/-- A single redirection is one in front of none. -/
theorem redirInnerLast_eq (mark : Mark) (file : CStr) :
    redirInnerLast (redirMark mark.flag) file =
      redirInnerMore (redirMark mark.flag) file (mkRedirect none none false) := by
  cases mark <;> rfl

theorem evalRedirs_cons (mark : Mark) (word : Word) (redirs : List (Mark × Word)) :
    evalRedirs world ((mark, word) :: redirs) =
      (do
        let file ← word.eval world
        let redir ← evalRedirs world redirs
        return redirInnerMore (redirMark mark.flag) file redir) := rfl

/-- One or more redirections. -/
theorem reads_redirInner (mark : Mark) (word : Word) (redirs : List (Mark × Word)) :
    Reads world [29] (redirTokens ((mark, word) :: redirs))
      (do let redir ← evalRedirs world ((mark, word) :: redirs); return [.redirect redir]) := by
  induction redirs generalizing mark word with
  | nil =>
      refine reads_rule 23 (by decide) (by decide)
        ((reads_mark mark).append (reads_word word)) ?_
      rw [evalRedirs_cons, evalRedirs]
      cases word.eval world with
      | error reason => rfl
      | ok file =>
          change Except.ok (Value.redirect (redirInnerLast (redirMark mark.flag) file)) = _
          rw [redirInnerLast_eq]
          rfl
  | cons next redirs ih =>
      refine reads_rule 22 (by decide) (by decide)
        ((reads_mark mark).append ((reads_word word).append (ih next.1 next.2))) ?_
      rw [evalRedirs_cons mark]
      generalize evalRedirs world ((next.1, next.2) :: redirs) = redir
      cases word.eval world <;> cases redir <;> rfl

theorem reads_redir (redirs : List (Mark × Word)) :
    Reads world [28] (redirTokens redirs)
      (do let redir ← evalRedirs world redirs; return [.redirect redir]) := by
  cases redirs with
  | nil => exact reads_value 21 (by decide) (by decide) .nil rfl
  | cons redir redirs =>
      apply reads_rule 20 (by decide) (by decide) (reads_redirInner redir.1 redir.2 redirs)
      cases evalRedirs world ((redir.1, redir.2) :: redirs) <;> rfl

theorem reads_bg (background : Bool) :
    Reads world [31] (if background then [.bckgrnd] else [])
      (.ok [.integer (if background then 1 else 0)]) := by
  cases background with
  | false => exact reads_value 27 (by decide) (by decide) .nil rfl
  | true => exact reads_value 28 (by decide) (by decide) (reads_token _ .bckgrnd) rfl

theorem reads_stage (stage : Stage) :
    Reads world [26] stage.tokens (do let top ← stage.eval world; return [.holder top]) := by
  refine reads_rule 9 (by decide) (by decide)
    (((reads_content stage.content).append (reads_redir stage.redirs)).append
      (reads_bg stage.background)) ?_
  rw [Stage.eval]
  cases stage.content.eval world <;> cases evalRedirs world stage.redirs <;> rfl

/-- Stages joined by pipes. -/
theorem reads_stages (first : Stage) (rest : List Stage) :
    Reads world [25] (stageTokens first rest)
      (do let cmds ← evalStages world first rest; return [.cmdList cmds]) := by
  induction rest generalizing first with
  | nil =>
      apply reads_rule 7 (by decide) (by decide) (reads_stage first)
      rw [evalStages]
      cases first.eval world <;> rfl
  | cons second rest ih =>
      refine reads_rule 8 (by decide) (by decide)
        ((reads_stage first).append (.token .pipe (ih second))) ?_
      rw [evalStages]
      cases first.eval world with
      | error reason => rfl
      | ok top =>
          cases evalStages world second rest with
          | error reason => rfl
          | ok cmds =>
              change Value.cmdList <$> cmdsPipe top cmds = _
              rfl

/-- The parser derives the tokens of a pipeline and evaluates it. -/
theorem reads_pipeline (pipeline : Pipeline) :
    Reads world [25] pipeline.tokens
      (do let cmds ← pipeline.eval world; return [.cmdList cmds]) :=
  reads_stages pipeline.first pipeline.rest

end QuashLabs.Quash.Parsing
