import Mathlib.Data.List.Induction
import QuashLabs.Quash.Parsing.Phases

/-!
# What has been read of a line

Without the failures of actions, the phase of a call is a matter of the tokens that have
been read. Some stages with pipes behind them stand before the command of the phase, and
what has been read of this command is the beginning of a stage.
-/

namespace QuashLabs.Quash.Parsing

/-- The phase behind a token, where a call goes on. -/
def Phase.after (phase : Phase) (token : Token) : Option Phase :=
  match phase.next token with
  | some next => some next
  | none =>
      match phase.complete with
      | some count =>
          if token.isMark then some (.mark count)
          else if token = .bckgrnd then some .stage
          else if token = .pipe then some .start
          else none
      | none => if phase = .stage ∧ token = .pipe then some .start else none

/-- The phase behind tokens, where a call goes on. -/
def Phase.afterAll (phase : Phase) (tokens : List Token) : Option Phase :=
  tokens.foldlM Phase.after phase

variable {phase phase' : Phase} {tokens : List Token} {token : Token}

@[simp]
theorem Phase.afterAll_nil : phase.afterAll [] = some phase := rfl

@[simp]
theorem Phase.afterAll_cons :
    phase.afterAll (token :: tokens) = (phase.after token).bind fun next => next.afterAll tokens :=
  List.foldlM_cons

theorem Phase.afterAll_append (more : List Token) :
    phase.afterAll (tokens ++ more) = (phase.afterAll tokens).bind fun next => next.afterAll more :=
  List.foldlM_append

theorem Phase.afterAll_singleton : phase.afterAll [token] = phase.after token := by
  simp

theorem Phase.afterAll_concat :
    phase.afterAll (tokens ++ [token]) =
      (phase.afterAll tokens).bind fun next => next.after token := by
  simp [Phase.afterAll_append]

/-! ## Words and marks -/

theorem exists_argument (isArgument : token.isArgument = true) :
    ∃ word : Word, token = word.token := by
  cases token with
  | str text => exact ⟨.first (.str text), rfl⟩
  | simStr text => exact ⟨.first (.simStr text), rfl⟩
  | id text => exact ⟨.first (.id text), rfl⟩
  | num text => exact ⟨.first (.num text), rfl⟩
  | exportTok => exact ⟨.exportTok, rfl⟩
  | cdTok => exact ⟨.cdTok, rfl⟩
  | killTok => exact ⟨.killTok, rfl⟩
  | pwdTok => exact ⟨.pwdTok, rfl⟩
  | jobsTok => exact ⟨.jobsTok, rfl⟩
  | exitTok text => exact ⟨.exitTok text, rfl⟩
  | _ => cases isArgument

theorem exists_mark (isMark : token.isMark = true) : ∃ mark : Mark, token = mark.token := by
  cases token with
  | redirIn => exact ⟨.redirIn, rfl⟩
  | redirOut => exact ⟨.redirOut, rfl⟩
  | redirOutApp => exact ⟨.redirOutApp, rfl⟩
  | _ => cases isMark

/-! ## Stages are read to their end -/

theorem Phase.afterAll_words (words : List Word) (echo : Bool) (args : Nat) :
    (Phase.words echo args).afterAll (words.map Word.token) =
      some (.words echo (args + words.length)) := by
  induction words generalizing args with
  | nil => rfl
  | cons word words ih =>
      rw [List.map_cons, Phase.afterAll_cons, Phase.after, Phase.next, if_pos word.isArgument]
      rw [Option.bind_some, ih, List.length_cons]
      congr 2
      omega

/-- A command is read to a phase in which it is complete. -/
theorem Phase.afterAll_content (content : Content) :
    ∃ phase, Phase.start.afterAll content.tokens = some phase ∧ phase.complete = some 0 := by
  cases content with
  | command first args =>
      have head : Phase.start.after first.token = some (.words false 0) := by
        cases first <;> rfl
      refine ⟨.words false (0 + args.length), ?_, rfl⟩
      rw [Content.tokens, Phase.afterAll_cons, head]
      exact Phase.afterAll_words args false 0
  | echo args => exact ⟨_, Phase.afterAll_words args true 0, rfl⟩
  | exportVar name val =>
      have last : Phase.exportEquals.after val.token = some (.redirs 0) := by
        rw [Phase.after, Phase.next, if_pos val.isArgument]
      exact ⟨.redirs 0, Phase.afterAll_singleton.trans last, rfl⟩
  | cdAlone => exact ⟨.cd, rfl, rfl⟩
  | cd dir =>
      have last : Phase.cd.after dir.token = some (.redirs 0) := by
        rw [Phase.after, Phase.next, if_pos dir.isArgument]
      exact ⟨.redirs 0, Phase.afterAll_singleton.trans last, rfl⟩
  | pwd | jobs | exit | kill => exact ⟨.redirs 0, rfl, rfl⟩

theorem Phase.after_mark {count : Nat} (complete : phase.complete = some count) (mark : Mark) :
    phase.after mark.token = some (.mark count) := by
  have other : phase.next mark.token = none := by
    cases phase <;> cases complete <;> cases mark <;> rfl
  simp only [Phase.after, other, complete, mark.isMark, if_true]

theorem Phase.after_pipe {count : Nat} (complete : phase.complete = some count) :
    phase.after .pipe = some .start := by
  cases phase <;> cases complete <;> rfl

theorem Phase.after_bckgrnd {count : Nat} (complete : phase.complete = some count) :
    phase.after .bckgrnd = some .stage := by
  cases phase <;> cases complete <;> rfl

theorem Phase.afterAll_redirs {count : Nat} (complete : phase.complete = some count)
    (redirs : List (Mark × Word)) :
    ∃ phase', phase.afterAll (redirTokens redirs) = some phase' ∧
      phase'.complete = some (count + redirs.length) := by
  induction redirs generalizing phase count with
  | nil => exact ⟨phase, rfl, complete⟩
  | cons redir redirs ih =>
      have word : (Phase.mark count).after redir.2.token = some (.redirs (count + 1)) := by
        rw [Phase.after, Phase.next, if_pos redir.2.isArgument]
      obtain ⟨phase', later, complete'⟩ := ih (rfl : (Phase.redirs (count + 1)).complete = _)
      have tokens : redirTokens (redir :: redirs) =
          redir.1.token :: redir.2.token :: redirTokens redirs := rfl
      refine ⟨phase', ?_, ?_⟩
      · rw [tokens, Phase.afterAll_cons, Phase.after_mark complete, Option.bind_some,
          Phase.afterAll_cons, word, Option.bind_some, later]
      · rw [complete', List.length_cons]
        congr 1
        omega

/-- Behind a stage and a pipe the next command starts. -/
theorem Phase.afterAll_stage (stage : Stage) :
    Phase.start.afterAll (stage.tokens ++ [.pipe]) = some .start := by
  obtain ⟨content, first, complete⟩ := Phase.afterAll_content stage.content
  obtain ⟨phase, later, complete'⟩ := Phase.afterAll_redirs complete stage.redirs
  rw [Stage.tokens, List.append_assoc, List.append_assoc, Phase.afterAll_append, first,
    Option.bind_some, Phase.afterAll_append, later, Option.bind_some]
  cases stage.background with
  | false => exact Phase.afterAll_singleton.trans (Phase.after_pipe complete')
  | true =>
      rw [if_pos rfl, List.singleton_append, Phase.afterAll_cons, Phase.after_bckgrnd complete',
        Option.bind_some]
      rfl

theorem Phase.afterAll_pipeline (pipeline : Pipeline) :
    Phase.start.afterAll (pipeline.tokens ++ [.pipe]) = some .start := by
  rcases pipeline with ⟨first, rest⟩
  change Phase.start.afterAll (stageTokens first rest ++ [.pipe]) = _
  induction rest generalizing first with
  | nil => exact Phase.afterAll_stage first
  | cons second rest ih =>
      have split : stageTokens first (second :: rest) ++ [.pipe] =
          first.tokens ++ [.pipe] ++ (stageTokens second rest ++ [.pipe]) := by
        simp [stageTokens]
      rw [split, Phase.afterAll_append, Phase.afterAll_stage, Option.bind_some, ih]

/-! ## What a phase has read -/

/-- The tokens before a command: none, or stages with a pipe behind them. -/
def Opens (before : List Token) : Prop :=
  before = [] ∨ ∃ pipeline : Pipeline, before = pipeline.tokens ++ [.pipe]

/-- The tokens that have been read of a command in this phase. -/
def Phase.Spells : Phase → List Token → Prop
  | .start, part => part = []
  | .words false _, part => ∃ first words, part = (Content.command first words).tokens
  | .words true _, part => ∃ words, part = (Content.echo words).tokens
  | .exportTok, part => part = [.exportTok]
  | .exportName, part => ∃ name, part = [.exportTok, .id name]
  | .exportEquals, part => ∃ name, part = [.exportTok, .id name, .equals]
  | .cd, part => part = [.cdTok]
  | .killTok, part => part = [.killTok]
  | .killSignal, part => ∃ sig, part = [.killTok, .num sig]
  | .redirs _, part => ∃ (content : Content) (redirs : _),
      part = content.tokens ++ redirTokens redirs
  | .mark _, part => ∃ (content : Content) (redirs : _) (mark : Mark),
      part = content.tokens ++ redirTokens redirs ++ [mark.token]
  | .stage, part => ∃ stage : Stage, part = stage.tokens

theorem stageTokens_concat (first stage : Stage) (rest : List Stage) :
    stageTokens first (rest ++ [stage]) = stageTokens first rest ++ .pipe :: stage.tokens := by
  induction rest generalizing first with
  | nil => rfl
  | cons second rest ih => simp [stageTokens, ih]

theorem Opens.pipe {before : List Token} (opens : Opens before) (stage : Stage) :
    Opens (before ++ stage.tokens ++ [.pipe]) := by
  rcases opens with rfl | ⟨pipeline, rfl⟩
  · exact .inr ⟨⟨stage, []⟩, rfl⟩
  · refine .inr ⟨⟨pipeline.first, pipeline.rest ++ [stage]⟩, ?_⟩
    simp [Pipeline.tokens, stageTokens_concat]

theorem redirTokens_concat (redirs : List (Mark × Word)) (mark : Mark) (word : Word) :
    redirTokens (redirs ++ [(mark, word)]) =
      redirTokens redirs ++ [mark.token] ++ [word.token] := by
  simp [redirTokens]

/-- A command that may be complete is a command with redirections. -/
theorem Phase.Spells.complete {part : List Token} {count : Nat} (spells : phase.Spells part)
    (complete : phase.complete = some count) :
    ∃ (content : Content) (redirs : _), part = content.tokens ++ redirTokens redirs := by
  cases phase with
  | words echo args =>
      cases echo with
      | false =>
          obtain ⟨first, words, rfl⟩ := spells
          exact ⟨_, [], (List.append_nil _).symm⟩
      | true =>
          obtain ⟨words, rfl⟩ := spells
          exact ⟨_, [], (List.append_nil _).symm⟩
  | cd =>
      obtain rfl := spells
      exact ⟨.cdAlone, [], rfl⟩
  | redirs count => exact spells
  | _ => cases complete

/-- A token that belongs to a command or a redirection. -/
theorem Phase.Spells.next {part : List Token} (spells : phase.Spells part)
    (moves : phase.next token = some phase') : phase'.Spells (part ++ [token]) := by
  cases phase with
  | start =>
      obtain rfl := spells
      cases token with
      | str text =>
          cases moves
          exact ⟨.str text, [], rfl⟩
      | simStr text =>
          cases moves
          exact ⟨.simStr text, [], rfl⟩
      | id text =>
          cases moves
          exact ⟨.id text, [], rfl⟩
      | num text =>
          cases moves
          exact ⟨.num text, [], rfl⟩
      | echoTok =>
          cases moves
          exact ⟨[], rfl⟩
      | exportTok =>
          cases moves
          rfl
      | cdTok =>
          cases moves
          rfl
      | killTok =>
          cases moves
          rfl
      | pwdTok =>
          cases moves
          exact ⟨.pwd, [], rfl⟩
      | jobsTok =>
          cases moves
          exact ⟨.jobs, [], rfl⟩
      | exitTok text =>
          cases moves
          exact ⟨.exit text, [], rfl⟩
      | _ => cases moves
  | words echo args =>
      obtain ⟨isArgument, ⟨⟩⟩ := Option.ite_none_right_eq_some.1 moves
      obtain ⟨word, rfl⟩ := exists_argument isArgument
      cases echo with
      | false =>
          obtain ⟨first, words, rfl⟩ := spells
          exact ⟨first, words ++ [word], by simp [Content.tokens]⟩
      | true =>
          obtain ⟨words, rfl⟩ := spells
          exact ⟨words ++ [word], by simp [Content.tokens]⟩
  | exportTok =>
      obtain rfl := spells
      cases token with
      | id name =>
          cases moves
          exact ⟨name, rfl⟩
      | _ => cases moves
  | exportName =>
      obtain ⟨name, rfl⟩ := spells
      cases token with
      | equals =>
          cases moves
          exact ⟨name, rfl⟩
      | _ => cases moves
  | exportEquals =>
      obtain ⟨name, rfl⟩ := spells
      obtain ⟨isArgument, ⟨⟩⟩ := Option.ite_none_right_eq_some.1 moves
      obtain ⟨word, rfl⟩ := exists_argument isArgument
      exact ⟨.exportVar name word, [], rfl⟩
  | cd =>
      obtain rfl := spells
      obtain ⟨isArgument, ⟨⟩⟩ := Option.ite_none_right_eq_some.1 moves
      obtain ⟨word, rfl⟩ := exists_argument isArgument
      exact ⟨.cd word, [], rfl⟩
  | killTok =>
      obtain rfl := spells
      cases token with
      | num sig =>
          cases moves
          exact ⟨sig, rfl⟩
      | _ => cases moves
  | killSignal =>
      obtain ⟨sig, rfl⟩ := spells
      cases token with
      | num job =>
          cases moves
          exact ⟨.kill sig job, [], rfl⟩
      | _ => cases moves
  | mark count =>
      obtain ⟨content, redirs, mark, rfl⟩ := spells
      obtain ⟨isArgument, ⟨⟩⟩ := Option.ite_none_right_eq_some.1 moves
      obtain ⟨word, rfl⟩ := exists_argument isArgument
      exact ⟨content, redirs ++ [(mark, word)], by simp [redirTokens_concat]⟩
  | redirs | stage => cases moves

/-- A token goes on with the command, or it is the pipe behind a stage. -/
theorem Phase.Spells.after {part : List Token} (spells : phase.Spells part)
    (moves : phase.after token = some phase') :
    phase'.Spells (part ++ [token]) ∨
      phase' = .start ∧ token = .pipe ∧ ∃ stage : Stage, part = stage.tokens := by
  rw [Phase.after] at moves
  cases next : phase.next token with
  | some phase'' =>
      rw [next] at moves
      cases moves
      exact .inl (spells.next next)
  | none =>
      rw [next] at moves
      cases complete : phase.complete with
      | some count =>
          obtain ⟨content, redirs, rfl⟩ := spells.complete complete
          simp only [complete] at moves
          by_cases isMark : token.isMark = true
          · obtain ⟨mark, rfl⟩ := exists_mark isMark
            rw [if_pos isMark] at moves
            cases moves
            exact .inl ⟨content, redirs, mark, rfl⟩
          · rw [if_neg isMark] at moves
            by_cases bckgrnd : token = .bckgrnd
            · subst bckgrnd
              cases moves
              exact .inl ⟨⟨content, redirs, true⟩, rfl⟩
            · obtain ⟨rfl, ⟨⟩⟩ := Option.ite_none_right_eq_some.1 (if_neg bckgrnd ▸ moves)
              exact .inr ⟨rfl, rfl, ⟨content, redirs, false⟩, (List.append_nil _).symm⟩
      | none =>
          simp only [complete] at moves
          obtain ⟨⟨rfl, rfl⟩, ⟨⟩⟩ := Option.ite_none_right_eq_some.1 moves
          exact .inr ⟨rfl, rfl, spells⟩

/-- What has been read when a call goes on in a phase. -/
theorem read_of_afterAll (reached : Phase.start.afterAll tokens = some phase) :
    ∃ before part, tokens = before ++ part ∧ Opens before ∧ phase.Spells part := by
  induction tokens using List.reverseRecOn generalizing phase with
  | nil =>
      obtain rfl := Option.some.inj reached
      exact ⟨[], [], rfl, .inl rfl, rfl⟩
  | append_singleton tokens token ih =>
      rw [Phase.afterAll_concat] at reached
      obtain ⟨earlier, reached, moves⟩ := Option.bind_eq_some_iff.1 reached
      obtain ⟨before, part, rfl, opens, spells⟩ := ih reached
      rcases spells.after moves with spells' | ⟨rfl, rfl, stage, rfl⟩
      · exact ⟨before, part ++ [token], List.append_assoc .., opens, spells'⟩
      · exact ⟨_, [], (List.append_nil _).symm, opens.pipe stage, rfl⟩

/-- A command starts exactly at the beginning of a line and behind stages with pipes. -/
theorem afterAll_start_iff : Phase.start.afterAll tokens = some .start ↔ Opens tokens := by
  constructor
  · intro reached
    obtain ⟨before, part, rfl, opens, rfl⟩ := read_of_afterAll reached
    rwa [List.append_nil]
  · rintro (rfl | ⟨pipeline, rfl⟩)
    · rfl
    · exact Phase.afterAll_pipeline pipeline

/-- The token `cd` has been read as a command exactly where a command starts. -/
theorem afterAll_cd_iff : Phase.start.afterAll tokens = some .cd ↔
    ∃ before, Opens before ∧ tokens = before ++ [.cdTok] := by
  constructor
  · intro reached
    obtain ⟨before, part, rfl, opens, rfl⟩ := read_of_afterAll reached
    exact ⟨before, opens, rfl⟩
  · rintro ⟨before, opens, rfl⟩
    rw [Phase.afterAll_concat, afterAll_start_iff.2 opens]
    rfl

end QuashLabs.Quash.Parsing
