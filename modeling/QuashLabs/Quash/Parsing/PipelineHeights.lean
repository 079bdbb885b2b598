import QuashLabs.Quash.Parsing.Arguments
import QuashLabs.Quash.Parsing.Phases

/-!
# The height that a pipeline needs

A pipeline whose actions succeed needs room on the stack for its pipes and, behind each
pipe, for the arguments or the redirections of one command. The rest of a command takes
three entries at most.
-/

namespace QuashLabs.Quash.Parsing

open QuashLabs.Checked

variable {world : World} {pipes count : Nat} {phase next : Phase} {token : Token}
variable {rest : List Token}

/-- The entries of a command on the stack while it is read. -/
def Content.height : Content → Nat
  | .command _ args | .echo args => args.length + 1
  | .exportVar .. => 4
  | .cdAlone | .pwd | .jobs | .exit _ => 1
  | .cd _ => 2
  | .kill .. => 3

/-- The entries of a stage on the stack while it is read. -/
def Stage.height (stage : Stage) : Nat :=
  max (max stage.content.height 3) (2 * stage.redirs.length + 1)

/-- The height that stages need behind some pipes. -/
def stagesHeight (pipes : Nat) (first : Stage) : List Stage → Nat
  | [] => 2 * pipes + first.height
  | second :: rest => max (2 * pipes + first.height) (stagesHeight (pipes + 1) second rest)

/-- The height that the tokens need from a phase on. -/
def heightFrom (world : World) (pipes : Nat) (phase : Phase) (tokens : List Token) : Nat :=
  (advanceAll world pipes phase tokens).1

/-! ## Steps -/

theorem heightFrom_on {pipes' height : Nat} {phase' : Phase}
    (moves : advance world pipes phase token = (height, .on pipes' phase')) :
    heightFrom world pipes phase (token :: rest) =
      max height (heightFrom world pipes' phase' rest) := by
  rw [heightFrom, advanceAll, moves]
  rfl

theorem heightFrom_answered {height : Nat}
    (moves : advance world pipes phase token = (height, .answered)) :
    heightFrom world pipes phase (token :: rest) = height := by
  rw [heightFrom, advanceAll, moves]

/-- A token of a command. -/
theorem heightFrom_next (moves : phase.next token = some next)
    (succeeds : token.failure world = none) :
    heightFrom world pipes phase (token :: rest) =
      max (2 * pipes + phase.height + 1) (heightFrom world pipes next rest) := by
  apply heightFrom_on
  simp only [advance, moves, succeeds]

theorem FirstString.token_failure {s : FirstString} {str : CStr}
    (evaluates : s.eval world = .ok str) : s.token.failure world = none := by
  cases s with
  | str text =>
      have value : firstStringStr world text = .ok str := evaluates
      simp only [FirstString.token, Token.failure, value]
  | simStr | num | id => rfl

theorem Word.token_failure {word : Word} {str : CStr} (evaluates : word.eval world = .ok str) :
    word.token.failure world = none := by
  cases word with
  | first s => exact FirstString.token_failure evaluates
  | _ => rfl

/-! ## Arguments and redirections -/

/-- The arguments of a command or of `echo`. -/
theorem heightFrom_words {words : List Word} {strs : List CStr} (values : Values world words strs)
    (pipes : Nat) (echo : Bool) (args : Nat) (rest : List Token) :
    max (2 * pipes + args + 1)
        (heightFrom world pipes (.words echo args) (words.map Word.token ++ rest)) =
      max (2 * pipes + (args + words.length) + 1)
        (heightFrom world pipes (.words echo (args + words.length)) rest) := by
  induction values generalizing args with
  | nil => rfl
  | @cons word str words strs value values ih =>
      have moves : (Phase.words echo args).next word.token = some (.words echo (args + 1)) := by
        simp [Phase.next, word.isArgument]
      have later := ih (args + 1)
      rw [List.map_cons, List.cons_append, heightFrom_next moves (Word.token_failure value),
        List.length_cons, Nat.add_comm words.length 1, ← Nat.add_assoc args, ← later]
      simp only [Phase.height]
      omega

/-- A command that may be complete, with some redirections, in a call that goes on. -/
structure Rests (world : World) (phase : Phase) (count : Nat) : Prop where
  complete : phase.complete = some count
  succeeds : phase.failure world = none
  ends : ∀ token : Token, token.isArgument = false → phase.next token = none

theorem Rests.advance (rests : Rests world phase count) (other : token.isArgument = false) :
    advance world pipes phase token = advanceBehind pipes count token := by
  simp only [Parsing.advance, rests.ends token other, rests.complete, rests.succeeds]

/-- What a token behind a stage leaves to be read. -/
def heightBehind (world : World) (pipes : Nat) (token : Token) (rest : List Token) : Nat :=
  if token = .pipe then heightFrom world (pipes + 1) .start rest else 0

/-- The token ends a stage. -/
def EndsStage (token : Token) : Prop := token = .pipe ∨ token = .eocTok ∨ token = .endTok

/-- The mark for the background and the end of a stage. -/
theorem heightFrom_background (rests : Rests world phase count) (ends : EndsStage token)
    (background : Bool) :
    heightFrom world pipes phase ((if background then [.bckgrnd] else []) ++ token :: rest) =
      max (2 * pipes + 3) (heightBehind world pipes token rest) := by
  cases background with
  | false =>
      rcases ends with rfl | rfl | rfl
      · exact heightFrom_on (rests.advance rfl)
      · exact (heightFrom_answered (rests.advance rfl)).trans (Nat.max_eq_left (Nat.zero_le _)).symm
      · exact (heightFrom_answered (rests.advance rfl)).trans (Nat.max_eq_left (Nat.zero_le _)).symm
  | true =>
      have marked : heightFrom world pipes phase (.bckgrnd :: token :: rest) =
          max (2 * pipes + 3) (heightFrom world pipes .stage (token :: rest)) :=
        heightFrom_on (rests.advance rfl)
      refine marked.trans ?_
      rcases ends with rfl | rfl | rfl
      · have piped : heightFrom world pipes .stage (.pipe :: rest) =
            max (2 * pipes + 2) (heightFrom world (pipes + 1) .start rest) := heightFrom_on rfl
        rw [piped, heightBehind, if_pos rfl]
        omega
      · have closed : heightFrom world pipes .stage (.eocTok :: rest) = 2 :=
          heightFrom_answered rfl
        rw [closed, heightBehind, if_neg (by decide)]
        omega
      · have closed : heightFrom world pipes .stage (.endTok :: rest) = 2 :=
          heightFrom_answered rfl
        rw [closed, heightBehind, if_neg (by decide)]
        omega

theorem rests_redirs (world : World) (count : Nat) : Rests world (.redirs count) count :=
  ⟨rfl, rfl, fun _ _ => rfl⟩

theorem rests_words (world : World) (echo : Bool) (args : Nat) : Rests world (.words echo args) 0 :=
  ⟨rfl, rfl, fun token other => by simp [Phase.next, other]⟩

theorem rests_cd {home : Command} (evaluates : cdHome world = .ok home) : Rests world .cd 0 := by
  refine ⟨rfl, ?_, fun token other => by simp [Phase.next, other]⟩
  simp only [Phase.failure, evaluates]

theorem Mark.not_isArgument (mark : Mark) : mark.token.isArgument = false := by
  cases mark <;> rfl

/-- The redirections of a stage, its mark and its end. -/
theorem heightFrom_redirs {redirs : List (Mark × Word)}
    (values : ∀ redir ∈ redirs, ∃ file, redir.2.eval world = .ok file)
    (rests : Rests world phase count) (ends : EndsStage token) (background : Bool) (pipes : Nat)
    (rest : List Token) :
    max (2 * pipes + (2 * count + 1)) (heightFrom world pipes phase (redirTokens redirs ++
        ((if background then [.bckgrnd] else []) ++ token :: rest))) =
      max (2 * pipes + (2 * (count + redirs.length) + 1))
        (max (2 * pipes + 3) (heightBehind world pipes token rest)) := by
  induction redirs generalizing phase count with
  | nil => exact congrArg _ (heightFrom_background rests ends background)
  | cons redir redirs ih =>
      rw [List.forall_mem_cons] at values
      obtain ⟨⟨file, value⟩, values⟩ := values
      rcases redir with ⟨mark, word⟩
      have marks : advance world pipes phase mark.token =
          (2 * pipes + 2 * count + 2, .on pipes (.mark count)) := by
        rw [rests.advance mark.not_isArgument, advanceBehind, if_pos mark.isMark]
      have names : (Phase.mark count).next word.token = some (.redirs (count + 1)) := by
        simp [Phase.next, word.isArgument]
      have later := ih values (rests_redirs world (count + 1))
      have tokens : redirTokens ((mark, word) :: redirs) =
          mark.token :: word.token :: redirTokens redirs := rfl
      rw [tokens, List.cons_append, List.cons_append, heightFrom_on marks,
        heightFrom_next names (Word.token_failure value), List.length_cons,
        Nat.add_comm redirs.length 1, ← Nat.add_assoc count, ← later]
      simp only [Phase.height]
      omega

/-! ## Commands -/

/-- The value of an argument. -/
theorem heightFrom_argument {word : Word} {str : CStr} (value : word.eval world = .ok str)
    (moves : phase.next word.token = some next) :
    heightFrom world pipes phase (word.token :: rest) =
      max (2 * pipes + phase.height + 1) (heightFrom world pipes next rest) :=
  heightFrom_next moves (Word.token_failure value)

/-- A command whose action succeeds. -/
theorem heightFrom_content (content : Content) {cmd : Command}
    (evaluates : content.eval world = .ok cmd) (pipes : Nat) :
    ∃ phase, Rests world phase 0 ∧ ∀ rest,
      heightFrom world pipes .start (content.tokens ++ rest) =
        max (2 * pipes + content.height) (heightFrom world pipes phase rest) := by
  have start : Phase.start.height = 0 := rfl
  cases content with
  | command first args =>
      rcases bind_eq_ok.1 evaluates with ⟨array, command, -⟩
      rcases evalArgs_values (.first first :: args) command with ⟨strs, values, rfl⟩
      cases values with
      | cons value values =>
          refine ⟨.words false (0 + args.length), rests_words _ _ _, fun rest => ?_⟩
          have moves : Phase.start.next first.token = some (.words false 0) := by
            cases first <;> rfl
          have later := heightFrom_words values pipes false 0 rest
          rw [Content.tokens, List.cons_append,
            heightFrom_next moves (FirstString.token_failure value), start, later]
          simp [Content.height, Nat.add_assoc]
  | echo args =>
      rcases bind_eq_ok.1 evaluates with ⟨array, command, -⟩
      rcases evalArgs_values args command with ⟨strs, values, rfl⟩
      refine ⟨.words true (0 + args.length), rests_words _ _ _, fun rest => ?_⟩
      have moves : Phase.start.next .echoTok = some (.words true 0) := rfl
      have later := heightFrom_words values pipes true 0 rest
      rw [Content.tokens, List.cons_append, heightFrom_next moves rfl, start, later]
      simp [Content.height, Nat.add_assoc]
  | exportVar name val =>
      rcases bind_eq_ok.1 evaluates with ⟨str, value, -⟩
      refine ⟨.redirs 0, rests_redirs world 0, fun rest => ?_⟩
      have first : Phase.start.next .exportTok = some .exportTok := rfl
      have second : Phase.exportTok.next (.id name) = some .exportName := rfl
      have third : Phase.exportName.next .equals = some .exportEquals := rfl
      have last : Phase.exportEquals.next val.token = some (.redirs 0) := by
        simp [Phase.next, val.isArgument]
      simp only [Content.tokens, List.cons_append, List.nil_append, heightFrom_next first rfl,
        heightFrom_next second rfl, heightFrom_next third rfl, heightFrom_argument value last,
        Phase.height, Content.height]
      omega
  | cdAlone => exact ⟨.cd, rests_cd evaluates, fun rest => heightFrom_next rfl rfl⟩
  | cd dir =>
      rcases bind_eq_ok.1 evaluates with ⟨str, value, -⟩
      refine ⟨.redirs 0, rests_redirs world 0, fun rest => ?_⟩
      have first : Phase.start.next .cdTok = some .cd := rfl
      have last : Phase.cd.next dir.token = some (.redirs 0) := by
        simp [Phase.next, dir.isArgument]
      simp only [Content.tokens, List.cons_append, List.nil_append, heightFrom_next first rfl,
        heightFrom_argument value last, Phase.height, Content.height]
      omega
  | pwd => exact ⟨.redirs 0, rests_redirs world 0, fun rest => heightFrom_next rfl rfl⟩
  | jobs => exact ⟨.redirs 0, rests_redirs world 0, fun rest => heightFrom_next rfl rfl⟩
  | exit text => exact ⟨.redirs 0, rests_redirs world 0, fun rest => heightFrom_next rfl rfl⟩
  | kill sig job =>
      refine ⟨.redirs 0, rests_redirs world 0, fun rest => ?_⟩
      have first : Phase.start.next .killTok = some .killTok := rfl
      have second : Phase.killTok.next (.num sig) = some .killSignal := rfl
      have last : Phase.killSignal.next (.num job) = some (.redirs 0) := rfl
      simp only [Content.tokens, List.cons_append, List.nil_append, heightFrom_next first rfl,
        heightFrom_next second rfl, heightFrom_next last rfl, Phase.height, Content.height]
      omega

theorem Content.height_pos (content : Content) : 0 < content.height := by
  cases content <;> simp [Content.height]

/-! ## Pipelines -/

theorem evalRedirs_values {redirs : List (Mark × Word)} {redir : Redirect}
    (evaluates : evalRedirs world redirs = .ok redir) :
    ∀ redir ∈ redirs, ∃ file, redir.2.eval world = .ok file := by
  induction redirs generalizing redir with
  | nil => exact fun _ member => absurd member List.not_mem_nil
  | cons head redirs ih =>
      rcases head with ⟨mark, word⟩
      rw [evalRedirs_cons] at evaluates
      rcases bind_eq_ok.1 evaluates with ⟨file, value, evaluates⟩
      rcases bind_eq_ok.1 evaluates with ⟨behind, before, -⟩
      exact List.forall_mem_cons.mpr ⟨⟨file, value⟩, ih before⟩

/-- A stage and its end. -/
theorem heightFrom_stage {stage : Stage} {top : CommandHolder}
    (evaluates : stage.eval world = .ok top) (ends : EndsStage token) (pipes : Nat)
    (rest : List Token) :
    heightFrom world pipes .start (stage.tokens ++ token :: rest) =
      max (2 * pipes + stage.height) (heightBehind world pipes token rest) := by
  rcases bind_eq_ok.1 evaluates with ⟨cmd, content, evaluates⟩
  rcases bind_eq_ok.1 evaluates with ⟨redir, redirs, -⟩
  obtain ⟨phase, rests, reads⟩ := heightFrom_content stage.content content pipes
  have behind := heightFrom_redirs (evalRedirs_values redirs) rests ends stage.background
    pipes rest
  have some_ := stage.content.height_pos
  rw [Stage.tokens, List.append_assoc, List.append_assoc, reads]
  rw [Nat.zero_add] at behind
  unfold Stage.height
  omega

/-- The stages of a line and its end. -/
theorem heightFrom_stages (first : Stage) (stages : List Stage) {cmds : List CommandHolder}
    (evaluates : evalStages world first stages = .ok cmds)
    (ends : token = .eocTok ∨ token = .endTok) (pipes : Nat) :
    heightFrom world pipes .start (stageTokens first stages ++ [token]) =
      stagesHeight pipes first stages := by
  induction stages generalizing first cmds pipes with
  | nil =>
      rcases bind_eq_ok.1 evaluates with ⟨top, stage, -⟩
      have here := heightFrom_stage stage (.inr ends) pipes []
      have none : heightBehind world pipes token [] = 0 := by
        rcases ends with rfl | rfl <;> rfl
      rw [none, Nat.max_eq_left (Nat.zero_le _)] at here
      exact here
  | cons second stages ih =>
      rcases bind_eq_ok.1 evaluates with ⟨top, stage, evaluates⟩
      rcases bind_eq_ok.1 evaluates with ⟨behind, later, -⟩
      rw [stageTokens, List.append_assoc, List.cons_append, heightFrom_stage stage (.inl rfl) pipes,
        heightBehind, if_pos rfl, ih second later (pipes + 1), stagesHeight]

/-- The height that a line of a pipeline needs when its actions succeed. -/
theorem stackPeak_pipeline {pipeline : Pipeline} {cmds : List CommandHolder}
    (evaluates : pipeline.eval world = .ok cmds) (ends : token = .eocTok ∨ token = .endTok) :
    stackPeak world (pipeline.tokens ++ [token]) = stagesHeight 0 pipeline.first pipeline.rest :=
  heightFrom_stages pipeline.first pipeline.rest evaluates ends 0

end QuashLabs.Quash.Parsing
