import QuashLabs.Quash.Parsing.Calls
import QuashLabs.Quash.Parsing.Phases
import QuashLabs.Quash.Parsing.Types

/-!
# The height of the stack on a line

The stack of the parser is a matter of the phase in which it reads a line, so a call
exhausts the stack exactly when the height that the phases count does not fit, and the
failure that ends it otherwise is the one that the phases meet.
-/

namespace QuashLabs.Quash.Parsing

open QuashLabs.Bison

variable {world : World} {c : Config Token Value} {token : Token} {rest : List Token}
  {symbol : Nat} {below after : List Nat}

/-! ## The states of a phase -/

/-- The states for commands with pipes behind them. -/
def pipeStates : Nat → List Nat
  | 0 => []
  | pipes + 1 => 38 :: 16 :: pipeStates pipes

/-- The states for a command and redirections, above others. -/
def redirStates : Nat → List Nat → List Nat
  | 0, below => 17 :: below
  | count + 1, below => 52 :: 44 :: redirStates count below

/-- The states for the part of a command, above others. -/
def Phase.states : Phase → List Nat → List Nat
  | .start, below => below
  | .words echo args, below => List.replicate args 29 ++ (if echo then 2 else 19) :: below
  | .exportTok, below => 3 :: below
  | .exportName, below => 32 :: 3 :: below
  | .exportEquals, below => 47 :: 32 :: 3 :: below
  | .cd, below => 4 :: below
  | .killTok, below => 7 :: below
  | .killSignal, below => 34 :: 7 :: below
  | .redirs count, below => redirStates count below
  | .mark count, below => 44 :: redirStates count below
  | .stage, below => 16 :: below

@[simp]
theorem length_pipeStates (pipes : Nat) : (pipeStates pipes).length = 2 * pipes := by
  induction pipes with
  | zero => rfl
  | succ pipes ih =>
      simp only [pipeStates, List.length_cons, ih]
      omega

@[simp]
theorem length_redirStates (count : Nat) (below : List Nat) :
    (redirStates count below).length = 2 * count + 1 + below.length := by
  induction count with
  | zero =>
      simp only [redirStates, List.length_cons]
      omega
  | succ count ih =>
      simp only [redirStates, List.length_cons, ih]
      omega

@[simp]
theorem Phase.length_states (phase : Phase) (below : List Nat) :
    (phase.states below).length = phase.height + below.length := by
  cases phase <;> simp [Phase.states, Phase.height] <;> omega

/-! ## Decisions of the tables -/

/-- A word ends before any other token. -/
theorem choice_behind_word : ∀ symbol ∈ automaton.terminals, symbol ∉ words →
    tables.choice 29 symbol = .reduce 31 ∧ tables.choice 19 symbol = .reduce 30 ∧
      tables.choice 2 symbol = .reduce 11 ∧ tables.choice 4 symbol = .reduce 14 := by
  decide

/-- Redirections end before any token that is not a mark of one. -/
theorem choice_behind_redir : ∀ symbol ∈ automaton.terminals, symbol ∉ [7, 8, 9] →
    tables.choice 17 symbol = .reduce 21 ∧ tables.choice 52 symbol = .reduce 23 := by
  decide

theorem choice_behind_redirs : ∀ symbol ∈ automaton.terminals, symbol ≠ 4 →
    tables.choice 42 symbol = .reduce 27 := by
  decide

theorem choice_behind_stage : ∀ symbol ∈ automaton.terminals, symbol ≠ 3 →
    tables.choice 16 symbol = .reduce 7 := by
  decide

theorem choice_behind_line : ∀ symbol ∈ automaton.terminals, symbol ∉ automaton.ends →
    tables.choice 15 symbol = .error := by
  decide

theorem symbol_mem_words : token.symbol ∈ words ↔ token.isArgument = true := by
  cases token <;> simp [Token.symbol, Token.isArgument, words]

theorem symbol_mem_marks : token.symbol ∈ [7, 8, 9] ↔ token.isMark = true := by
  cases token <;> simp [Token.symbol, Token.isMark]

/-! ## Reductions -/

/-- One reduction by a rule that cannot fail, for the shell's own tables. -/
theorem settles_rule {state : Nat} (rule : Nat) (popped : List Nat) (target : Nat)
    (decides : tables.choice state symbol = .reduce rule) (known : rule ∈ calmRules)
    (length : tables.length rule = popped.length + 1)
    (spelled : (state :: popped).map automaton.accessing = (automaton.right rule).reverse)
    (enters : Typing.Enters automaton tables rule below target)
    (later : (types world).Settles symbol (target :: below) after) :
    (types world).Settles symbol (state :: (popped ++ below)) after :=
  .reduce popped decides (calm_rule known) length spelled enters later

/-- The symbols of commands and their parts, with the states that they are entered by behind
pipes. -/
def commandGotos : List (Nat × Nat) := [(26, 16), (27, 17), (32, 18), (36, 19)]

theorem commandGotos_goto : ∀ move ∈ commandGotos,
    tables.goto 0 move.1 = move.2 ∧ tables.goto 38 move.1 = move.2 ∧
      automaton.accessing move.2 = move.1 ∧ move.2 ≠ tables.final := by
  decide

theorem enters_command {rule target : Nat} (move : (tables.lhs rule, target) ∈ commandGotos)
    (pipes : Nat) : Typing.Enters automaton tables rule (pipeStates pipes) target := by
  obtain ⟨first, behindPipe, entered, other⟩ := commandGotos_goto _ move
  cases pipes with
  | zero => exact ⟨first, entered, other⟩
  | succ pipes => exact ⟨behindPipe, entered, other⟩

/-- The same for a rule that ends in the states behind pipes. -/
theorem settles_command {state pipes : Nat} (rule : Nat) (popped : List Nat) (target : Nat)
    (decides : tables.choice state symbol = .reduce rule) (known : rule ∈ calmRules)
    (length : tables.length rule = popped.length + 1)
    (spelled : (state :: popped).map automaton.accessing = (automaton.right rule).reverse)
    (move : (tables.lhs rule, target) ∈ commandGotos)
    (later : (types world).Settles symbol (target :: pipeStates pipes) after) :
    (types world).Settles symbol (state :: (popped ++ pipeStates pipes)) after :=
  settles_rule rule popped target decides known length spelled (enters_command move pipes) later

/-- A command is complete: the states for it become one. -/
theorem settles_cmd (pipes : Nat) : (types world).Settles symbol (18 :: pipeStates pipes)
    (17 :: pipeStates pipes) := by
  exact settles_command 10 [] 17 rfl (by decide) rfl rfl (by decide) (.refl _)

theorem settles_first (ends : tables.choice 19 symbol = .reduce 30) (pipes : Nat) :
    (types world).Settles symbol (19 :: pipeStates pipes) (17 :: pipeStates pipes) := by
  exact settles_command 30 [] 18 ends (by decide) rfl rfl (by decide) (settles_cmd pipes)

theorem settles_echo (ends : tables.choice 2 symbol = .reduce 11) (pipes : Nat) :
    (types world).Settles symbol (2 :: pipeStates pipes) (17 :: pipeStates pipes) := by
  exact settles_command 11 [] 17 ends (by decide) rfl rfl (by decide) (.refl _)

/-- Arguments behind the first word become one from the last to the first. -/
theorem settles_arguments {head target : Nat} (args : Nat)
    (enters : Typing.Enters automaton tables 32 (head :: below) target) :
    (types world).Settles symbol (46 :: (List.replicate (args + 1) 29 ++ head :: below))
      (target :: head :: below) := by
  induction args with
  | zero => exact settles_rule 32 [29] target rfl (by decide) rfl rfl enters (.refl _)
  | succ args ih => exact settles_rule 32 [29] 46 rfl (by decide) rfl rfl ⟨rfl, rfl, by decide⟩ ih

theorem settles_words {head target : Nat} (args : Nat)
    (ends : tables.choice 29 symbol = .reduce 31)
    (enters : Typing.Enters automaton tables 32 (head :: below) target) :
    (types world).Settles symbol (List.replicate (args + 1) 29 ++ head :: below)
      (target :: head :: below) := by
  cases args with
  | zero => exact settles_rule 31 [] target ends (by decide) rfl rfl enters (.refl _)
  | succ args =>
      exact settles_rule 31 [] 46 ends (by decide) rfl rfl ⟨rfl, rfl, by decide⟩
        (settles_arguments args enters)

/-- A command or `echo` with its arguments is complete before another token. -/
theorem settles_complete (ends : symbol ∈ automaton.terminals ∧ symbol ∉ words) (echo : Bool)
    (args pipes : Nat) :
    (types world).Settles symbol ((Phase.words echo args).states (pipeStates pipes))
      (17 :: pipeStates pipes) := by
  obtain ⟨word, first, alone, -⟩ := choice_behind_word symbol ends.1 ends.2
  cases args with
  | zero =>
      cases echo with
      | false => exact settles_first first pipes
      | true => exact settles_echo alone pipes
  | succ args =>
      cases echo with
      | false =>
          have enters : Typing.Enters automaton tables 32 (19 :: pipeStates pipes) 45 :=
            ⟨rfl, rfl, by decide⟩
          apply (settles_words args word enters).trans
          exact settles_command 29 [19] 18 rfl (by decide) rfl rfl (by decide) (settles_cmd pipes)
      | true =>
          have enters : Typing.Enters automaton tables 32 (2 :: pipeStates pipes) 28 :=
            ⟨rfl, rfl, by decide⟩
          apply (settles_words args word enters).trans
          exact settles_command 12 [2] 17 rfl (by decide) rfl rfl (by decide) (.refl _)

/-- Redirections behind a mark and a word become one from the last to the first. -/
theorem settles_redirInner (count : Nat) (below : List Nat) :
    (types world).Settles symbol (54 :: redirStates (count + 1) below) (42 :: 17 :: below) := by
  induction count with
  | zero =>
      apply settles_rule 22 [52, 44] 43 rfl (by decide) rfl rfl ⟨rfl, rfl, by decide⟩
      exact settles_rule 20 [] 42 rfl (by decide) rfl rfl ⟨rfl, rfl, by decide⟩ (.refl _)
  | succ count ih =>
      exact settles_rule 22 [52, 44] 54 rfl (by decide) rfl rfl ⟨rfl, rfl, by decide⟩ ih

/-- Redirections end before a token that is not a mark of one. -/
theorem settles_redirs (ends : tables.choice 52 symbol = .reduce 23) (count : Nat)
    (below : List Nat) :
    (types world).Settles symbol (redirStates (count + 1) below) (42 :: 17 :: below) := by
  cases count with
  | zero =>
      apply settles_rule 23 [44] 43 ends (by decide) rfl rfl ⟨rfl, rfl, by decide⟩
      exact settles_rule 20 [] 42 rfl (by decide) rfl rfl ⟨rfl, rfl, by decide⟩ (.refl _)
  | succ count =>
      exact settles_rule 23 [44] 54 ends (by decide) rfl rfl ⟨rfl, rfl, by decide⟩
        (settles_redirInner count below)

/-- A command, its redirections and its mark become a stage. -/
theorem settles_stage (pipes : Nat) :
    (types world).Settles symbol (51 :: 42 :: 17 :: pipeStates pipes) (16 :: pipeStates pipes) := by
  exact settles_command 9 [42, 17] 16 rfl (by decide) rfl rfl (by decide) (.refl _)

/-- Stages joined by pipes become one from the last to the first. -/
theorem settles_cmds (pipes : Nat) :
    (types world).Settles symbol (49 :: 38 :: 16 :: pipeStates pipes) [15] := by
  induction pipes with
  | zero => exact settles_rule 8 [38, 16] 15 rfl (by decide) rfl rfl ⟨rfl, rfl, by decide⟩ (.refl _)
  | succ pipes ih =>
      exact settles_rule 8 [38, 16] 49 rfl (by decide) rfl rfl ⟨rfl, rfl, by decide⟩ ih

theorem settles_pipeline (ends : tables.choice 16 symbol = .reduce 7) (pipes : Nat) :
    (types world).Settles symbol (16 :: pipeStates pipes) [15] := by
  cases pipes with
  | zero => exact settles_rule 7 [] 15 ends (by decide) rfl rfl ⟨rfl, rfl, by decide⟩ (.refl _)
  | succ pipes =>
      exact settles_rule 7 [] 49 ends (by decide) rfl rfl ⟨rfl, rfl, by decide⟩ (settles_cmds pipes)

/-! ## Words -/

/-- The run is at these states with these tokens pending, or an action has failed. -/
def Follows (world : World) (states : List Nat) (rest : List Token) :
    Option Failure → Next Token Value Answer Failure → Prop
  | none, next => ∃ c, next = .go c ∧ (types world).Stands states rest 0 c
  | some reason, next => next = .stop (.failed reason)

/-- Reductions behind a point of the run. -/
theorem climbs_settled {peak : Nat} {states : List Nat} {failure : Option Failure}
    (climbs : (parser world).Climbs c peak (Follows world states (token :: rest) failure))
    (settles : (types world).Settles token.symbol states after) :
    (parser world).Climbs c peak (Follows world after (token :: rest) failure) := by
  cases failure with
  | some reason => exact climbs
  | none =>
      apply climbs.then
      intro c stands
      rcases Parser.goes_of_settles stands settles with ⟨c', ⟨fuel, goes⟩, stands'⟩
      exact ⟨fuel, c', goes, stands'⟩

theorem follows_shift {states : List Nat} {target : Nat}
    (stands : (types world).Stands states (token :: rest) 0 c)
    (shifts : tables.choice (states.headD 0) token.symbol = .shift target)
    (entered : automaton.accessing target = token.symbol) (other : target ≠ tables.final) :
    (parser world).Climbs c (states.length + 1) (Follows world (target :: states) rest none) :=
  (Parser.climbs_shift stands shifts entered other).mono fun _ ⟨c', goes, stands', _⟩ =>
    ⟨c', goes, stands'⟩

/-- The state that a word is shifted to. -/
def wordState : Token → Nat
  | .str _ => 9
  | .simStr _ => 10
  | .id _ => 11
  | .num _ => 12
  | .exportTok => 22
  | .cdTok => 23
  | .pwdTok => 24
  | .jobsTok => 25
  | .killTok => 26
  | _ => 27

theorem act_firstString (world : World) (text : List Char) :
    act world 41 [.str text] = Action.value <$> Value.str <$> firstStringStr world text := rfl

theorem act_cd (world : World) (values : List Value) :
    act world 14 values = Action.value <$> Value.cmd <$> cdHome world := rfl

/-- A first string becomes `first_string`, unless it cannot be interpreted. -/
theorem climbs_first {states : List Nat} {target : Nat} {next : Token} (first : FirstString)
    (stands : (types world).Stands states (first.token :: next :: rest) 0 c)
    (shifts : tables.choice (states.headD 0) first.token.symbol =
      .shift (wordState first.token))
    (enters : Typing.Enters automaton tables 41 states target) :
    (parser world).Climbs c (states.length + 1)
      (Follows world (target :: states) (next :: rest) (first.token.failure world)) := by
  have entered : automaton.accessing (wordState first.token) = first.token.symbol := by
    cases first <;> rfl
  have other : wordState first.token ≠ tables.final := by
    cases first <;> simp [FirstString.token, wordState, tables]
  cases first with
  | str text =>
      apply (Parser.climbs_shift stands shifts entered other).then
      rintro c' ⟨stands', stack⟩
      have values : (c'.stack.take 1).reverse.map Prod.snd = [.str text] := by rw [stack]; rfl
      rw [FirstString.token, Token.failure]
      cases value : firstStringStr world text with
      | error reason =>
          apply Parser.stop_of_failure [9] stands' rfl rfl
          rw [List.length_singleton, values]
          exact (act_firstString world text).trans (by rw [value]; rfl)
      | ok str =>
          have gives : act world 41 [.str text] = .ok (.value (.str str)) := by
            rw [act_firstString, value]
            rfl
          obtain ⟨c'', ⟨fuel, goes⟩, stands''⟩ := Parser.goes_of_reduce [] stands' rfl rfl
            (values.symm ▸ gives) ⟨str, rfl⟩ enters
          exact ⟨fuel, c'', goes, stands''⟩
  | simStr text =>
      exact climbs_settled (follows_shift stands shifts entered other)
        (settles_rule 42 [] target rfl (by decide) rfl rfl enters (.refl _))
  | num text =>
      exact climbs_settled (follows_shift stands shifts entered other)
        (settles_rule 43 [] target rfl (by decide) rfl rfl enters (.refl _))
  | id text =>
      exact climbs_settled (follows_shift stands shifts entered other)
        (settles_rule 44 [] target rfl (by decide) rfl rfl enters (.refl _))

/-- The states in which a word is read, with the states behind the word. -/
def wordMoves : List (Nat × Nat) := [(2, 29), (19, 29), (29, 29), (4, 33), (47, 53), (44, 52)]

/-- The symbols of the words, with the states that they are shifted to. -/
def wordShifts : List (Nat × Nat) :=
  [(18, 9), (19, 10), (20, 11), (21, 12), (12, 22), (13, 23), (14, 24), (15, 25), (16, 26),
    (22, 27)]

theorem wordMoves_goto : ∀ move ∈ wordMoves,
    tables.goto move.1 36 = 31 ∧ tables.goto move.1 35 = 30 ∧ tables.goto move.1 34 = move.2 ∧
      automaton.accessing move.2 = 34 ∧ move.2 ≠ tables.final := by
  decide

theorem wordMoves_choice : ∀ move ∈ wordMoves, ∀ shift ∈ wordShifts,
    tables.choice move.1 shift.1 = .shift shift.2 := by
  decide

theorem wordShifts_entered : ∀ shift ∈ wordShifts,
    automaton.accessing shift.2 = shift.1 ∧ shift.2 ≠ tables.final := by
  decide

theorem mem_wordShifts (isWord : token.isArgument = true) :
    (token.symbol, wordState token) ∈ wordShifts := by
  revert isWord
  cases token <;> simp [Token.isArgument, Token.symbol, wordState, wordShifts]

/-- A word becomes `string`, unless it cannot be interpreted. -/
theorem climbs_word {state target : Nat} {next : Token}
    (stands : (types world).Stands (state :: below) (token :: next :: rest) 0 c)
    (isWord : token.isArgument = true) (move : (state, target) ∈ wordMoves) :
    (parser world).Climbs c (below.length + 2)
      (Follows world (target :: state :: below) (next :: rest) (token.failure world)) := by
  obtain ⟨first, special, string, entered, other⟩ := wordMoves_goto _ move
  have shifts := wordMoves_choice _ move _ (mem_wordShifts isWord)
  obtain ⟨shifted, inner⟩ := wordShifts_entered _ (mem_wordShifts isWord)
  have enters {rule : Nat} (left : tables.lhs rule = 34) :
      Typing.Enters automaton tables rule (state :: below) target :=
    ⟨left ▸ string, left ▸ entered, other⟩
  have ofFirst (s : FirstString) (same : s.token = token) :
      (parser world).Climbs c (below.length + 2)
        (Follows world (target :: state :: below) (next :: rest) (token.failure world)) := by
    subst same
    have enters41 : Typing.Enters automaton tables 41 (state :: below) 31 :=
      ⟨first, rfl, by decide⟩
    exact climbs_settled (climbs_first s stands shifts enters41)
      (settles_rule 33 [] target rfl (by decide) rfl rfl (enters rfl) (.refl _))
  have ofSpecial (rule : Nat) (reduces : tables.choice (wordState token) next.symbol = .reduce rule)
      (known : rule ∈ calmRules) (length : tables.length rule = 1)
      (right : automaton.right rule = [token.symbol]) (left : tables.lhs rule = 35)
      (calm : token.failure world = none) :
      (parser world).Climbs c (below.length + 2)
        (Follows world (target :: state :: below) (next :: rest) (token.failure world)) := by
    rw [calm]
    apply climbs_settled (follows_shift stands shifts shifted inner)
    apply settles_rule rule [] 30 reduces known length
    · rw [right]
      simp [shifted]
    · exact ⟨left ▸ special, by rw [left]; rfl, by decide⟩
    · exact settles_rule 34 [] target rfl (by decide) rfl rfl (enters rfl) (.refl _)
  cases token with
  | str text => exact ofFirst (.str text) rfl
  | simStr text => exact ofFirst (.simStr text) rfl
  | id text => exact ofFirst (.id text) rfl
  | num text => exact ofFirst (.num text) rfl
  | exportTok => exact ofSpecial 35 rfl (by decide) rfl rfl rfl rfl
  | cdTok => exact ofSpecial 36 rfl (by decide) rfl rfl rfl rfl
  | killTok => exact ofSpecial 37 rfl (by decide) rfl rfl rfl rfl
  | pwdTok => exact ofSpecial 38 rfl (by decide) rfl rfl rfl rfl
  | jobsTok => exact ofSpecial 39 rfl (by decide) rfl rfl rfl rfl
  | exitTok text => exact ofSpecial 40 rfl (by decide) rfl rfl rfl rfl
  | echoTok | pipe | bckgrnd | squote | equals | redirIn | redirOut | redirOutApp | endTok |
    eocTok => cases isWord

/-! ## Commands -/

/-- The first token of a command. -/
theorem climbs_start {pipes : Nat} {phase : Phase} {next : Token}
    (stands : (types world).Stands (pipeStates pipes) (token :: next :: rest) 0 c)
    (moves : Phase.start.next token = some phase) :
    (parser world).Climbs c ((pipeStates pipes).length + 1)
      (Follows world (phase.states (pipeStates pipes)) (next :: rest) (token.failure world)) := by
  have ofFirst (first : FirstString) (same : first.token = token)
      (phase_eq : phase = .words false 0) :
      (parser world).Climbs c ((pipeStates pipes).length + 1)
        (Follows world (phase.states (pipeStates pipes)) (next :: rest)
          (token.failure world)) := by
    subst same phase_eq
    apply climbs_first first stands
    · cases first <;> cases pipes <;> rfl
    · exact enters_command (by decide) pipes
  have ofBuiltin (state : Nat)
      (shifts : tables.choice ((pipeStates pipes).headD 0) token.symbol = .shift state)
      (entered : automaton.accessing state = token.symbol) (other : state ≠ tables.final)
      (calm : token.failure world = none)
      (settles : (types world).Settles next.symbol (state :: pipeStates pipes)
        (phase.states (pipeStates pipes))) :
      (parser world).Climbs c ((pipeStates pipes).length + 1)
        (Follows world (phase.states (pipeStates pipes)) (next :: rest)
          (token.failure world)) := by
    rw [calm]
    exact climbs_settled (follows_shift stands shifts entered other) settles
  have alone (rule state : Nat) (reduces : tables.choice state next.symbol = .reduce rule)
      (known : rule ∈ calmRules) (length : tables.length rule = 1)
      (spelled : [automaton.accessing state] = (automaton.right rule).reverse)
      (move : (tables.lhs rule, 17) ∈ commandGotos) :
      (types world).Settles next.symbol (state :: pipeStates pipes) (17 :: pipeStates pipes) :=
    settles_command rule [] 17 reduces known length spelled move (.refl _)
  cases token with
  | str text => exact ofFirst (.str text) rfl (Option.some.inj moves).symm
  | simStr text => exact ofFirst (.simStr text) rfl (Option.some.inj moves).symm
  | id text => exact ofFirst (.id text) rfl (Option.some.inj moves).symm
  | num text => exact ofFirst (.num text) rfl (Option.some.inj moves).symm
  | echoTok =>
      obtain rfl := Option.some.inj moves
      exact ofBuiltin 2 (by cases pipes <;> rfl) rfl (by decide) rfl (.refl _)
  | exportTok =>
      obtain rfl := Option.some.inj moves
      exact ofBuiltin 3 (by cases pipes <;> rfl) rfl (by decide) rfl (.refl _)
  | cdTok =>
      obtain rfl := Option.some.inj moves
      exact ofBuiltin 4 (by cases pipes <;> rfl) rfl (by decide) rfl (.refl _)
  | killTok =>
      obtain rfl := Option.some.inj moves
      exact ofBuiltin 7 (by cases pipes <;> rfl) rfl (by decide) rfl (.refl _)
  | pwdTok =>
      obtain rfl := Option.some.inj moves
      exact ofBuiltin 5 (by cases pipes <;> rfl) rfl (by decide) rfl
        (alone 16 5 rfl (by decide) rfl rfl (by decide))
  | jobsTok =>
      obtain rfl := Option.some.inj moves
      exact ofBuiltin 6 (by cases pipes <;> rfl) rfl (by decide) rfl
        (alone 17 6 rfl (by decide) rfl rfl (by decide))
  | exitTok text =>
      obtain rfl := Option.some.inj moves
      exact ofBuiltin 13 (by cases pipes <;> rfl) rfl (by decide) rfl
        (alone 18 13 rfl (by decide) rfl rfl (by decide))
  | pipe | bckgrnd | squote | equals | redirIn | redirOut | redirOutApp | endTok | eocTok =>
      cases moves

/-- A token that belongs to a command or a redirection. -/
theorem climbs_next {pipes : Nat} {phase phase' : Phase} {next : Token}
    (stands : (types world).Stands (phase.states (pipeStates pipes)) (token :: next :: rest) 0 c)
    (moves : phase.next token = some phase') :
    (parser world).Climbs c ((phase.states (pipeStates pipes)).length + 1)
      (Follows world (phase'.states (pipeStates pipes)) (next :: rest)
        (token.failure world)) := by
  cases phase with
  | start => exact climbs_start stands moves
  | words echo args =>
      obtain ⟨isWord, ⟨⟩⟩ := Option.ite_none_right_eq_some.1 moves
      cases args with
      | zero =>
          cases echo with
          | false => exact climbs_word stands isWord (by decide)
          | true => exact climbs_word stands isWord (by decide)
      | succ args => exact climbs_word stands isWord (by decide)
  | exportTok =>
      cases token with
      | id text =>
          obtain rfl := Option.some.inj moves
          exact follows_shift stands rfl rfl (by decide)
      | _ => cases moves
  | exportName =>
      cases token with
      | equals =>
          obtain rfl := Option.some.inj moves
          exact follows_shift stands rfl rfl (by decide)
      | _ => cases moves
  | exportEquals =>
      obtain ⟨isWord, ⟨⟩⟩ := Option.ite_none_right_eq_some.1 moves
      apply climbs_settled (climbs_word stands isWord (by decide : (47, 53) ∈ wordMoves))
      exact settles_command 13 [47, 32, 3] 17 rfl (by decide) rfl rfl (by decide) (.refl _)
  | cd =>
      obtain ⟨isWord, ⟨⟩⟩ := Option.ite_none_right_eq_some.1 moves
      apply climbs_settled (climbs_word stands isWord (by decide : (4, 33) ∈ wordMoves))
      exact settles_command 15 [4] 17 rfl (by decide) rfl rfl (by decide) (.refl _)
  | killTok =>
      cases token with
      | num text =>
          obtain rfl := Option.some.inj moves
          exact follows_shift stands rfl rfl (by decide)
      | _ => cases moves
  | killSignal =>
      cases token with
      | num text =>
          obtain rfl := Option.some.inj moves
          apply climbs_settled (follows_shift stands rfl rfl (by decide : 48 ≠ tables.final))
          exact settles_command 19 [34, 7] 17 rfl (by decide) rfl rfl (by decide) (.refl _)
      | _ => cases moves
  | mark count =>
      obtain ⟨isWord, ⟨⟩⟩ := Option.ite_none_right_eq_some.1 moves
      exact climbs_word stands isWord (by decide)
  | redirs | stage => cases moves

/-- A command that may be complete is so before a token that does not belong to it, unless
there is no home directory for it. -/
theorem follows_complete {pipes count : Nat} {phase : Phase}
    (stands : (types world).Stands (phase.states (pipeStates pipes)) (token :: rest) 0 c)
    (complete : phase.complete = some count) (ends : phase.next token = none) :
    ∃ fuel, Follows world (redirStates count (pipeStates pipes)) (token :: rest)
      (phase.failure world) ((parser world).run fuel c) := by
  cases phase with
  | words echo args =>
      obtain rfl := Option.some.inj complete
      have notWord : token.symbol ∉ words := by
        rw [symbol_mem_words]
        intro isWord
        simp [Phase.next, isWord] at ends
      rcases Parser.goes_of_settles stands
        (settles_complete ⟨token.symbol_mem, notWord⟩ echo args pipes) with
        ⟨c', ⟨fuel, goes⟩, stands'⟩
      exact ⟨fuel, c', goes, stands'⟩
  | cd =>
      obtain rfl := Option.some.inj complete
      have notWord : token.symbol ∉ words := by
        rw [symbol_mem_words]
        intro isWord
        simp [Phase.next, isWord] at ends
      obtain ⟨-, -, -, alone⟩ := choice_behind_word _ token.symbol_mem notWord
      cases home : cdHome world with
      | error reason =>
          have failure : Phase.cd.failure world = some reason := by
            rw [Phase.failure, home]
          rw [failure]
          apply Parser.stop_of_failure [4] stands alone rfl
          exact (act_cd world _).trans (by rw [home]; rfl)
      | ok cmd =>
          have failure : Phase.cd.failure world = none := by
            rw [Phase.failure, home]
          have gives (values : List Value) : act world 14 values = .ok (.value (.cmd cmd)) := by
            rw [act_cd, home]
            rfl
          have enters := enters_command (by decide : (tables.lhs 14, 17) ∈ commandGotos) pipes
          obtain ⟨c', ⟨fuel, goes⟩, stands'⟩ := Parser.goes_of_reduce [] stands alone rfl
            (gives _) ⟨cmd, rfl⟩ enters
          rw [failure]
          exact ⟨fuel, c', goes, stands'⟩
  | redirs count' =>
      obtain rfl := Option.some.inj complete
      exact ⟨0, c, rfl, stands⟩
  | start | exportTok | exportName | exportEquals | killTok | killSignal | mark | stage =>
      cases complete

/-! ## Redirections and stages -/

/-- A mark of a redirection. -/
theorem climbs_mark {pipes count : Nat} {next : Token}
    (stands : (types world).Stands (redirStates count (pipeStates pipes)) (token :: next :: rest)
      0 c)
    (isMark : token.isMark = true) :
    (parser world).Climbs c (2 * pipes + 2 * count + 2)
      (Follows world (44 :: redirStates count (pipeStates pipes)) (next :: rest) none) := by
  have height : 2 * pipes + 2 * count + 2 = (redirStates count (pipeStates pipes)).length + 1 := by
    simp only [length_redirStates, length_pipeStates]
    omega
  have enters {rule : Nat} (left : tables.lhs rule = 30) :
      Typing.Enters automaton tables rule (redirStates count (pipeStates pipes)) 44 := by
    rw [Typing.Enters, left]
    cases count <;> exact ⟨rfl, rfl, by decide⟩
  rw [height]
  cases token with
  | redirIn =>
      apply climbs_settled
        (follows_shift stands (by cases count <;> rfl) rfl (by decide : 39 ≠ tables.final))
      exact settles_rule 24 [] 44 rfl (by decide) rfl rfl (enters rfl) (.refl _)
  | redirOut =>
      apply climbs_settled
        (follows_shift stands (by cases count <;> rfl) rfl (by decide : 40 ≠ tables.final))
      exact settles_rule 25 [] 44 rfl (by decide) rfl rfl (enters rfl) (.refl _)
  | redirOutApp =>
      apply climbs_settled
        (follows_shift stands (by cases count <;> rfl) rfl (by decide : 41 ≠ tables.final))
      exact settles_rule 26 [] 44 rfl (by decide) rfl rfl (enters rfl) (.refl _)
  | _ => cases isMark

/-- Redirections are complete before another token; where there are none, an empty entry
stands for them. -/
theorem climbs_redirs {pipes count : Nat} {good : Next Token Value Answer Failure → Prop}
    (stands : (types world).Stands (redirStates count (pipeStates pipes)) (token :: rest) 0 c)
    (other : token.isMark = false)
    (later : ∀ c', (types world).Stands (42 :: 17 :: pipeStates pipes) (token :: rest) 0 c' →
      (parser world).Climbs c' (2 * pipes + 3) good) :
    (parser world).Climbs c (2 * pipes + 3) good := by
  have notMark : token.symbol ∉ [7, 8, 9] := by
    rw [symbol_mem_marks, other]
    exact nofun
  obtain ⟨none, some⟩ := choice_behind_redir _ token.symbol_mem notMark
  cases count with
  | zero =>
      have enters : Typing.Enters automaton tables 21 (17 :: pipeStates pipes) 42 :=
        ⟨rfl, rfl, by decide⟩
      have pushes := Parser.climbs_empty stands none (calm_rule (by decide)) rfl rfl enters
      have height : 2 * pipes + 3 =
          max ((redirStates 0 (pipeStates pipes)).length + 1) (2 * pipes + 3) := by
        simp only [length_redirStates, length_pipeStates]
        omega
      rw [height]
      exact pushes.bind later
  | succ count =>
      rcases Parser.goes_of_settles stands (settles_redirs some count _) with ⟨c', goes, stands'⟩
      exact goes.climbs (later c' stands')

/-- A stage without a mark for the background, for which an empty entry stands. -/
theorem climbs_unmarked {pipes : Nat}
    (stands : (types world).Stands (42 :: 17 :: pipeStates pipes) (token :: rest) 0 c)
    (other : token ≠ .bckgrnd) :
    (parser world).Climbs c (2 * pipes + 3)
      (Follows world (16 :: pipeStates pipes) (token :: rest) none) := by
  have notMark : token.symbol ≠ 4 := by
    cases token <;> first | exact absurd rfl other | decide | simp [Token.symbol]
  have enters : Typing.Enters automaton tables 27 (42 :: 17 :: pipeStates pipes) 51 :=
    ⟨rfl, rfl, by decide⟩
  have pushes := Parser.climbs_empty stands (choice_behind_redirs _ token.symbol_mem notMark)
    (calm_rule (by decide)) rfl rfl enters
  have height : 2 * pipes + 3 = (42 :: 17 :: pipeStates pipes).length + 1 := by simp
  rw [height]
  exact climbs_settled pushes (settles_stage pipes)

/-- A stage with its mark. -/
theorem climbs_marked {pipes : Nat} {next : Token}
    (stands : (types world).Stands (42 :: 17 :: pipeStates pipes) (.bckgrnd :: next :: rest) 0 c) :
    (parser world).Climbs c (2 * pipes + 3)
      (Follows world (16 :: pipeStates pipes) (next :: rest) none) := by
  have height : 2 * pipes + 3 = (42 :: 17 :: pipeStates pipes).length + 1 := by simp
  rw [height]
  apply climbs_settled (follows_shift stands rfl rfl (by decide : 50 ≠ tables.final))
  exact settles_rule 28 [] 51 rfl (by decide) rfl rfl ⟨rfl, rfl, by decide⟩ (settles_stage pipes)

/-- A pipe behind a stage. -/
theorem climbs_pipe {pipes : Nat}
    (stands : (types world).Stands (16 :: pipeStates pipes) (.pipe :: rest) 0 c) :
    (parser world).Climbs c (2 * pipes + 2)
      (Follows world (pipeStates (pipes + 1)) rest none) := by
  have height : 2 * pipes + 2 = (16 :: pipeStates pipes).length + 1 := by simp
  rw [height]
  exact follows_shift stands rfl rfl (by decide)

/-! ## Ends of lines -/

/-- The states on the stack between the tokens of a line. -/
def lineStates : List Nat := [2, 3, 4, 7, 15, 16, 17, 19, 29, 32, 34, 38, 44, 47, 52]

/-- None of them shifts the token `error`. -/
theorem shiftsError_of_line : ∀ state ∈ lineStates, tables.shiftsError state = none := by
  decide

theorem mem_lineStates (phase : Phase) (pipes : Nat) :
    ∀ state ∈ phase.states (pipeStates pipes), state ∈ lineStates := by
  have behindPipes : ∀ state ∈ pipeStates pipes, state ∈ lineStates := by
    induction pipes with
    | zero => exact nofun
    | succ pipes ih =>
        simp only [pipeStates, List.forall_mem_cons]
        exact ⟨by decide, by decide, ih⟩
  have behindRedirs (count : Nat) :
      ∀ state ∈ redirStates count (pipeStates pipes), state ∈ lineStates := by
    induction count with
    | zero => exact List.forall_mem_cons.2 ⟨by decide, behindPipes⟩
    | succ count ih =>
        simp only [redirStates, List.forall_mem_cons]
        exact ⟨by decide, by decide, ih⟩
  cases phase with
  | start => exact behindPipes
  | words echo args =>
      intro state mem
      rcases List.mem_append.1 mem with word | first
      · rw [List.eq_of_mem_replicate word]
        decide
      · rcases List.mem_cons.1 first with rfl | earlier
        · cases echo <;> decide
        · exact behindPipes state earlier
  | redirs count => exact behindRedirs count
  | mark count => exact List.forall_mem_cons.2 ⟨by decide, behindRedirs count⟩
  | exportTok | exportName | exportEquals | cd | killTok | killSignal | stage =>
      simp only [Phase.states, List.forall_mem_cons]
      first
        | exact ⟨by decide, behindPipes⟩
        | exact ⟨by decide, by decide, behindPipes⟩
        | exact ⟨by decide, by decide, by decide, behindPipes⟩

/-- A token that does not belong to a command in this phase is an error. -/
theorem choice_wrong {phase : Phase} {pipes : Nat} (wrong : phase.next token = none)
    (incomplete : phase.complete = none) (other : phase ≠ .stage)
    (line : phase = .start → pipes = 0 → token ≠ .eocTok) :
    tables.isDefault ((phase.states (pipeStates pipes)).headD 0) = false ∧
      tables.choice ((phase.states (pipeStates pipes)).headD 0) token.symbol = .error := by
  cases phase with
  | start =>
      cases pipes with
      | zero =>
          cases token <;> first | exact ⟨rfl, rfl⟩ | exact absurd rfl (line rfl rfl) | cases wrong
      | succ pipes => cases token <;> first | exact ⟨rfl, rfl⟩ | cases wrong
  | words | cd | redirs => cases incomplete
  | stage => exact absurd rfl other
  | exportTok | exportName | exportEquals | killTok | killSignal | mark =>
      cases token <;> first | exact ⟨rfl, rfl⟩ | cases wrong

/-- The rest of a line, up to the end of it. -/
structure LineRest (tokens left : List Token) (last : Token) : Prop where
  split : tokens = left ++ [last]
  inner : ∀ token ∈ left, token.symbol ∉ automaton.ends
  isEnd : last = .eocTok ∨ last = .endTok

variable {left : List Token} {last : Token}

namespace LineRest

theorem tail_cons (line : LineRest (token :: rest) left last)
    (other : token.symbol ∉ automaton.ends) :
    ∃ next later, rest = next :: later ∧ LineRest rest left.tail last := by
  cases left with
  | nil =>
      obtain ⟨rfl, -⟩ := List.cons.inj line.split
      exact absurd ((symbol_mem_ends token).2 line.isEnd) other
  | cons first left =>
      obtain ⟨rfl, tail⟩ := List.cons.inj line.split
      have later : LineRest rest left last :=
        ⟨tail, fun token mem => line.inner token (List.mem_cons_of_mem _ mem), line.isEnd⟩
      cases left with
      | nil => exact ⟨last, [], tail, later⟩
      | cons next left => exact ⟨next, left ++ [last], tail, later⟩

theorem eq_last (line : LineRest (token :: rest) left last)
    (isEnd : token.symbol ∈ automaton.ends) : token = last ∧ rest = [] := by
  cases left with
  | nil =>
      obtain ⟨same, tail⟩ := List.cons.inj line.split
      exact ⟨same, tail⟩
  | cons first left =>
      obtain ⟨rfl, -⟩ := List.cons.inj line.split
      exact absurd isEnd (line.inner token List.mem_cons_self)

end LineRest

theorem closes_line (isEnd : last = .eocTok ∨ last = .endTok) :
    ∃ target rule, Parser.Closes automaton tables [15] last.symbol target rule := by
  rcases isEnd with rfl | rfl
  · exact ⟨37, 3, rfl, rfl, by decide, rfl, rfl, by decide, rfl, rfl⟩
  · exact ⟨36, 4, rfl, rfl, by decide, rfl, rfl, by decide, rfl, rfl⟩

theorem closes_error (isEnd : last = .eocTok ∨ last = .endTok) :
    ∃ target rule, Parser.Closes automaton tables [1] last.symbol target rule := by
  rcases isEnd with rfl | rfl
  · exact ⟨21, 5, rfl, rfl, by decide, rfl, rfl, by decide, rfl, rfl⟩
  · exact ⟨20, 6, rfl, rfl, by decide, rfl, rfl, by decide, rfl, rfl⟩

theorem closes_empty : Parser.Closes automaton tables [] Token.eocTok.symbol 8 2 :=
  ⟨rfl, rfl, by decide, rfl, rfl, by decide, rfl, rfl⟩

/-- The first error of a line ends the call once the line is read. -/
theorem climbs_wrong {states : List Nat} (line : LineRest (token :: rest) left last)
    (stands : (types world).Stands states (token :: rest) 0 c)
    (known : ∀ state ∈ states, state ∈ lineStates)
    (looks : tables.isDefault (states.headD 0) = false)
    (errs : tables.choice (states.headD 0) token.symbol = .error) :
    (parser world).Climbs c 2 Parser.Answered := by
  obtain ⟨target, rule, closes⟩ := closes_error line.isEnd
  exact Parser.climbs_recovery (P := parser world) automaton_valid Token.symbol_mem line.inner
    line.split stands
    (fun state mem => shiftsError_of_line state (known state mem)) looks errs closes

/-- A line that goes on with no pipe behind a stage ends the call. -/
theorem climbs_stage {pipes : Nat} (line : LineRest (token :: rest) left last)
    (stands : (types world).Stands (16 :: pipeStates pipes) (token :: rest) 0 c)
    (other : token ≠ .pipe) :
    (parser world).Climbs c 2 Parser.Answered := by
  have notPipe : token.symbol ≠ 3 := by
    cases token <;> first | exact absurd rfl other | simp [Token.symbol]
  obtain ⟨c', goes, stands'⟩ := Parser.goes_of_settles stands
    (settles_pipeline (choice_behind_stage _ token.symbol_mem notPipe) pipes)
  apply goes.climbs
  by_cases isEnd : token.symbol ∈ automaton.ends
  · obtain ⟨rfl, rfl⟩ := line.eq_last isEnd
    obtain ⟨target, rule, closes⟩ := closes_line line.isEnd
    exact Parser.climbs_end stands' closes
  · apply climbs_wrong line stands' (by decide) rfl
    exact choice_behind_line _ token.symbol_mem isEnd

/-! ## Lines -/

/-- What a move says of the run. -/
def Turns (world : World) (rest : List Token) : Move → Next Token Value Answer Failure → Prop
  | .on pipes phase, next => Follows world (phase.states (pipeStates pipes)) rest none next
  | .answered, next => Parser.Answered next
  | .fails reason, next => next = .stop (.failed reason)

theorem not_end_of_next {phase phase' : Phase} (moves : phase.next token = some phase') :
    token.symbol ∉ automaton.ends := by
  rw [symbol_mem_ends]
  rintro (rfl | rfl)
  · cases phase <;> cases moves
  · cases phase <;> cases moves

theorem stands_states_height {pipes : Nat} (phase : Phase) :
    (phase.states (pipeStates pipes)).length + 1 = 2 * pipes + phase.height + 1 := by
  rw [phase.length_states, length_pipeStates]
  omega

/-- A token behind a command that is complete. -/
theorem climbs_behind {pipes count : Nat} (line : LineRest (token :: rest) left last)
    (stands : (types world).Stands (redirStates count (pipeStates pipes)) (token :: rest) 0 c) :
    (parser world).Climbs c (advanceBehind pipes count token).1
      (Turns world rest (advanceBehind pipes count token).2) := by
  have unmarked {peak : Nat} {good : Next Token Value Answer Failure → Prop}
      (notMark : token.isMark = false) (notBckgrnd : token ≠ .bckgrnd)
      (low : peak ≤ 2 * pipes + 3)
      (later : ∀ c', (types world).Stands (16 :: pipeStates pipes) (token :: rest) 0 c' →
        (parser world).Climbs c' peak good) :
      (parser world).Climbs c (2 * pipes + 3) good := by
    apply climbs_redirs stands notMark
    intro c' redirs
    have both := (climbs_unmarked redirs notBckgrnd).bind later
    rwa [max_eq_left low] at both
  unfold advanceBehind
  by_cases isMark : token.isMark = true
  · have inner : token.symbol ∉ automaton.ends := by
      rw [symbol_mem_ends]
      rintro (rfl | rfl) <;> cases isMark
    obtain ⟨next, later, rfl, -⟩ := line.tail_cons inner
    rw [if_pos isMark]
    exact climbs_mark stands isMark
  · rw [if_neg isMark]
    have notMark : token.isMark = false := Bool.eq_false_iff.2 isMark
    by_cases bckgrnd : token = .bckgrnd
    · subst bckgrnd
      obtain ⟨next, later, rfl, -⟩ := line.tail_cons (by decide)
      exact climbs_redirs stands notMark fun c' redirs => climbs_marked redirs
    · rw [if_neg bckgrnd]
      by_cases pipe : token = .pipe
      · subst pipe
        exact unmarked notMark bckgrnd (by omega) fun c' stage => climbs_pipe stage
      · rw [if_neg pipe]
        exact unmarked notMark bckgrnd (by omega) fun c' stage => climbs_stage line stage pipe

/-- The states for a command that is complete have found room. -/
theorem not_full_of_complete {pipes count : Nat} {phase : Phase} {pending : List Token}
    (stands : (types world).Stands (phase.states (pipeStates pipes)) pending 0 c)
    (complete : phase.complete = some count) : ¬ world.maxDepth ≤ 0 + 1 := by
  have positive : 0 < phase.height := by
    cases phase <;> first | exact Nat.succ_pos _ | cases complete
  have height := stands.length_eq
  rw [phase.length_states] at height
  have room : c.stack.length + 1 < world.maxDepth :=
    stands.room (List.ne_nil_of_length_pos (by omega))
  omega

/-- One token of a line. -/
theorem climbs_token {pipes : Nat} {phase : Phase} (line : LineRest (token :: rest) left last)
    (stands : (types world).Stands (phase.states (pipeStates pipes)) (token :: rest) 0 c) :
    (parser world).Climbs c (advance world pipes phase token).1
      (Turns world rest (advance world pipes phase token).2) := by
  cases moves : phase.next token with
  | some phase' =>
      obtain ⟨next, later, rfl, -⟩ := line.tail_cons (not_end_of_next moves)
      have climbs := climbs_next stands moves
      rw [stands_states_height] at climbs
      simp only [advance, moves]
      cases failure : token.failure world with
      | none =>
          rw [failure] at climbs
          exact climbs
      | some reason =>
          rw [failure] at climbs
          exact climbs
  | none =>
      cases complete : phase.complete with
      | some count =>
          obtain ⟨fuel, follows⟩ := follows_complete stands complete moves
          simp only [advance, moves, complete]
          cases failure : phase.failure world with
          | some reason =>
              rw [failure] at follows
              exact ⟨fun _ => ⟨fuel, follows⟩, fun full =>
                absurd full (not_full_of_complete stands complete)⟩
          | none =>
              rw [failure] at follows
              obtain ⟨c', goes, stands'⟩ := follows
              exact Parser.Goes.climbs ⟨fuel, goes⟩ (climbs_behind line stands')
      | none =>
          simp only [advance, moves, complete]
          by_cases stage : phase = .stage
          · subst stage
            by_cases pipe : token = .pipe
            · subst pipe
              exact climbs_pipe stands
            · simp only [pipe, and_false, if_false, reduceCtorEq, false_and]
              exact climbs_stage line stands pipe
          · simp only [stage, false_and, if_false]
            by_cases empty : phase = .start ∧ pipes = 0 ∧ token = .eocTok
            · obtain ⟨rfl, rfl, rfl⟩ := empty
              obtain ⟨-, rfl⟩ := line.eq_last (by decide)
              exact Parser.climbs_end stands closes_empty
            · rw [if_neg empty]
              obtain ⟨looks, errs⟩ := choice_wrong moves complete stage fun start none eoc =>
                empty ⟨start, none, eoc⟩
              exact climbs_wrong line stands (mem_lineStates phase pipes) looks errs

/-- The end of a line is behind every token that a call goes on at. -/
theorem not_end_of_on {pipes pipes' : Nat} {phase phase' : Phase}
    (moves : (advance world pipes phase token).2 = .on pipes' phase') :
    token.symbol ∉ automaton.ends := by
  rw [symbol_mem_ends]
  intro isEnd
  have ends : phase.next token = none := by
    rcases isEnd with rfl | rfl
    · cases phase <;> rfl
    · cases phase <;> rfl
  have other : token.isMark = false ∧ token ≠ .bckgrnd ∧ token ≠ .pipe := by
    rcases isEnd with rfl | rfl
    · decide
    · decide
  simp only [advance, advanceBehind, ends, other, if_false, and_false, Bool.false_eq_true] at moves
  split at moves
  · split at moves
    · cases moves
    · cases moves
  · split at moves
    · cases moves
    · cases moves

/-- How the call on a line ends. -/
def Ended : Option Failure → Next Token Value Answer Failure → Prop
  | none, next => Parser.Answered next
  | some reason, next => next = .stop (.failed reason)

/-- The rest of a line needs the height that its phases count, and ends with the failure
that they meet. -/
theorem climbs_rest {tokens : List Token} (line : LineRest tokens left last) (pipes : Nat)
    (phase : Phase) {c : Config Token Value}
    (stands : (types world).Stands (phase.states (pipeStates pipes)) tokens 0 c) :
    (parser world).Climbs c (advanceAll world pipes phase tokens).1
      (Ended (advanceAll world pipes phase tokens).2) := by
  induction tokens generalizing left pipes phase c with
  | nil =>
      have split := line.split
      cases left <;> cases split
  | cons token rest ih =>
      have climbs := climbs_token line stands
      rw [advanceAll]
      cases moves : advance world pipes phase token with
      | mk height move =>
          rw [moves] at climbs
          cases move with
          | on pipes' phase' =>
              have inner : token.symbol ∉ automaton.ends := not_end_of_on (by rw [moves])
              obtain ⟨next, later, -, line'⟩ := line.tail_cons inner
              exact climbs.bind fun c' stands' => ih line' pipes' phase' stands'
          | answered => exact climbs
          | fails reason => exact climbs

/-- The result of a call that the stack has room for. -/
def Comes : Option Failure → Result Token Answer Failure → Prop
  | none, result => ∃ status answer, result = .returned status (some answer) []
  | some reason, result => result = .failed reason

/-- A call on a line exhausts the stack exactly when the height that the line needs does not
fit, and otherwise ends with the failure that the line meets, or with an answer. -/
theorem call_of_line (world : World) (line : Line) :
    ∃ result, LineCall world line result ∧
      (∃ fuel, ∀ rest, (parser world).yyparse fuel (line.tokens ++ rest) =
        some (result.append rest)) ∧
      if stackPeak world line.tokens + 1 < world.maxDepth then
        Comes (lineFailure world line.tokens) result
      else result = .exhausted := by
  obtain ⟨result, call, fuel, runs⟩ := line_call world line
  refine ⟨result, call, ⟨fuel, runs⟩, ?_⟩
  have alone := Parser.yyparse_alone _ runs
  have rest : LineRest line.tokens line.body line.last :=
    ⟨rfl, fun _ => line.inner_symbol, line.isEnd⟩
  have start : (types world).Stands [] line.tokens 0 (Parser.start line.tokens) :=
    .empty none line.tokens
  have climbs := climbs_rest rest 0 .start start
  have settled {fuel' : Nat} {result' : Result Token Answer Failure}
      (stops : (parser world).run fuel' (Parser.start line.tokens) = .stop result') :
      result = result' := by
    apply (parser world).yyparse_unique alone
    rw [Parser.yyparse, stops]
  by_cases room : stackPeak world line.tokens + 1 < world.maxDepth
  · rw [if_pos room]
    obtain ⟨fuel', ended⟩ := climbs.fits room
    rw [lineFailure]
    cases failure : (advanceAll world 0 .start line.tokens).2 with
    | some reason =>
        rw [failure] at ended
        exact settled ended
    | none =>
        rw [failure] at ended
        obtain ⟨status, answer, stops⟩ := ended
        exact ⟨status, answer, settled stops⟩
  · rw [if_neg room]
    obtain ⟨fuel', stops⟩ := climbs.full (not_lt.1 room)
    exact settled stops

end QuashLabs.Quash.Parsing
