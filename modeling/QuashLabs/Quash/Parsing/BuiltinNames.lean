import QuashLabs.Quash.Parsing.Entries
import QuashLabs.Quash.Parsing.Prefixes

/-!
# Names of builtins as words

The scanner has a token of its own for the name of each builtin. The rules for a special
string make words of these tokens, but there is no such rule for `echo`: a line in which
`echo` stands as an argument or as a file name is an error.
-/

namespace QuashLabs.Quash.Parsing

open QuashLabs.Bison QuashLabs.Checked

variable {world : World}

/-- The token is a word or the name of a builtin. -/
def Token.isWord : Token → Bool
  | .str _ | .simStr _ | .id _ | .num _ => true
  | .echoTok | .exportTok | .cdTok | .pwdTok | .jobsTok | .killTok | .exitTok _ => true
  | _ => false

/-- All names of builtins but one are words of the grammar. -/
theorem exists_word {token : Token} (isWord : token.isWord = true) (other : token ≠ .echoTok) :
    ∃ word : Word, word.token = token := by
  have isArgument : token.isArgument = true := by
    cases token <;> first | rfl | exact absurd rfl other | cases isWord
  obtain ⟨word, rfl⟩ := exists_argument isArgument
  exact ⟨word, rfl⟩

theorem exists_words {tokens : List Token} (isWord : ∀ token ∈ tokens, token.isWord = true)
    (other : .echoTok ∉ tokens) : ∃ words : List Word, words.map Word.token = tokens := by
  induction tokens with
  | nil => exact ⟨[], rfl⟩
  | cons token tokens ih =>
      rw [List.forall_mem_cons] at isWord
      rw [List.mem_cons, not_or] at other
      rcases exists_word isWord.1 (Ne.symm other.1) with ⟨word, rfl⟩
      rcases ih isWord.2 other.2 with ⟨words, rfl⟩
      exact ⟨word :: words, rfl⟩

/-- The tokens of redirections to the words of these tokens. -/
def redirectTokens (files : List (Mark × Token)) : List Token :=
  files.flatMap fun file => [file.1.token, file.2]

theorem exists_redirs {files : List (Mark × Token)}
    (isWord : ∀ file ∈ files, file.2.isWord = true) (other : .echoTok ∉ files.map Prod.snd) :
    ∃ redirs, redirTokens redirs = redirectTokens files := by
  induction files with
  | nil => exact ⟨[], rfl⟩
  | cons file files ih =>
      rw [List.forall_mem_cons] at isWord
      rw [List.map_cons, List.mem_cons, not_or] at other
      rcases exists_word isWord.1 (Ne.symm other.1) with ⟨word, token⟩
      rcases ih isWord.2 other.2 with ⟨redirs, tokens⟩
      refine ⟨(file.1, word) :: redirs, ?_⟩
      simp only [redirTokens, redirectTokens, List.flatMap_cons] at tokens ⊢
      rw [token, tokens]

/-! ## Where `echo` stands in a line of commands -/

theorem word_token_ne_echo (word : Word) : word.token ≠ .echoTok := by
  intro echo
  have isArgument := word.isArgument
  rw [echo] at isArgument
  cases isArgument

theorem echo_notMem_words (words : List Word) : .echoTok ∉ words.map Word.token := by
  rw [List.mem_map]
  rintro ⟨word, -, token⟩
  exact word_token_ne_echo word token

theorem echo_notMem_redirs (redirs : List (Mark × Word)) : .echoTok ∉ redirTokens redirs := by
  simp only [redirTokens, List.mem_flatMap, List.mem_cons, List.not_mem_nil, or_false, not_exists,
    not_and]
  rintro ⟨mark, word⟩ - (token | token)
  · cases mark <;> cases token
  · exact word_token_ne_echo word token.symm

/-- In the tokens of a stage `echo` stands only in front. -/
theorem echo_notMem_stage (stage : Stage) :
    ∃ token tokens, stage.tokens = token :: tokens ∧ .echoTok ∉ tokens := by
  rcases stage with ⟨content, redirs, background⟩
  have behind : .echoTok ∉ redirTokens redirs ++ if background then [.bckgrnd] else [] := by
    rw [List.mem_append, not_or]
    refine ⟨echo_notMem_redirs redirs, ?_⟩
    cases background <;> simp
  obtain ⟨token, tokens, front, inner⟩ :
      ∃ token tokens, content.tokens = token :: tokens ∧ .echoTok ∉ tokens := by
    cases content with
    | command first args => exact ⟨_, _, rfl, echo_notMem_words args⟩
    | echo args => exact ⟨_, _, rfl, echo_notMem_words args⟩
    | exportVar name val => exact ⟨_, _, rfl, by simpa using (word_token_ne_echo val).symm⟩
    | cd dir => exact ⟨_, _, rfl, by simpa using (word_token_ne_echo dir).symm⟩
    | cdAlone | pwd | jobs | exit | kill => exact ⟨_, _, rfl, by simp⟩
  refine ⟨token, _, by rw [Stage.tokens, front, List.append_assoc, List.cons_append], ?_⟩
  rw [List.mem_append, not_or]
  exact ⟨inner, behind⟩

/-- A line of commands without a pipe is one stage. -/
theorem stage_of_noPipe {pipeline : Pipeline} (noPipe : .pipe ∉ pipeline.tokens) :
    pipeline.tokens = pipeline.first.tokens := by
  rcases pipeline with ⟨first, rest⟩
  cases rest with
  | nil => rfl
  | cons second rest => exact absurd (by simp [Pipeline.tokens, stageTokens]) noPipe

/-- A line of commands without a pipe has `echo` only in front. -/
theorem echo_notMem_of_reads {token : Token} {tokens : List Token}
    (noPipe : .pipe ∉ token :: tokens) {values : Except Failure (List Value)}
    (reads : Reads world [25] (token :: tokens) values) : .echoTok ∉ tokens := by
  rcases spelledAll_of_reads reads with ⟨_, _, split, ⟨pipeline, rfl⟩, rfl⟩
  rw [List.append_nil] at split
  rw [split] at noPipe
  rcases echo_notMem_stage pipeline.first with ⟨front, behind, stage, inner⟩
  rw [stage_of_noPipe noPipe, stage] at split
  obtain ⟨-, rfl⟩ := List.cons.inj split
  exact inner

/-! ## Lines of one command -/

/-- The line is accepted as one command of the type: the grammar derives it, and where
neither a full stack nor an action ends a call on the line, the call returns the array of
one such command. -/
structure AcceptedAs (world : World) (type : CommandType) (tokens : List Token) : Prop where
  derived : ∃ values, Reads world [25] tokens values
  parsed : ∀ line : Line, line.body = tokens → Undisturbed world line →
    ∃ entry, getCommandHolderType entry = type ∧
      Returns world line.tokens ⟨some [entry, eocHolder], line.atEnd⟩ []

/-- The tokens of a stage are accepted as its command. -/
theorem accepted_stage {stage : Stage} {type : CommandType}
    (typed : ∀ {cmd}, stage.content.eval world = .ok cmd → getCommandType cmd = type) :
    AcceptedAs world type stage.tokens := by
  constructor
  · exact ⟨_, reads_pipeline ⟨stage, []⟩⟩
  · intro line body undisturbed
    have body : line.body = (⟨stage, []⟩ : Pipeline).tokens := body
    rcases line_returns undisturbed with ⟨answer, -, returns⟩
    rcases commands_of_returns body (returns []) with ⟨-, cmds, evaluates, rfl⟩
    rcases bind_eq_ok.1 evaluates with ⟨entry, top, last⟩
    obtain rfl := Except.ok.inj last
    have alone := returns []
    rw [List.append_nil] at alone
    exact ⟨entry, typed (entry_of_stage top).cmd, alone⟩

theorem type_of_command {first : FirstString} {args : List Word} {cmd : Command}
    (evaluates : (Content.command first args).eval world = .ok cmd) :
    getCommandType cmd = .generic := by
  rcases bind_eq_ok.1 evaluates with ⟨_, -, evaluates⟩
  obtain rfl := Except.ok.inj evaluates
  rfl

theorem type_of_echo {args : List Word} {cmd : Command}
    (evaluates : (Content.echo args).eval world = .ok cmd) : getCommandType cmd = .echo := by
  rcases bind_eq_ok.1 evaluates with ⟨_, -, evaluates⟩
  obtain rfl := Except.ok.inj evaluates
  rfl

theorem pipe_notMem {words : List Token} {files : List (Mark × Token)}
    (isWord : ∀ token ∈ words, token.isWord = true)
    (isFile : ∀ file ∈ files, file.2.isWord = true) :
    .pipe ∉ words ++ redirectTokens files := by
  simp only [redirectTokens, List.mem_append, List.mem_flatMap, List.mem_cons, List.not_mem_nil,
    or_false, not_or, not_exists, not_and]
  constructor
  · intro member
    cases isWord _ member
  · rintro ⟨mark, token⟩ member
    constructor
    · cases mark <;> exact nofun
    · rintro rfl
      cases isFile _ member

/-- A command with arguments and file names, each a word or the name of a builtin, is
accepted as a command that is not a builtin, and `echo` with the same arguments and file
names as `echo`, exactly when none of them is `echo`. -/
theorem builtin_names_iff (world : World) (first : FirstString) {words : List Token}
    {files : List (Mark × Token)} (isWord : ∀ token ∈ words, token.isWord = true)
    (isFile : ∀ file ∈ files, file.2.isWord = true) :
    (AcceptedAs world .generic (first.token :: words ++ redirectTokens files) ∧
        AcceptedAs world .echo (.echoTok :: words ++ redirectTokens files)) ↔
      .echoTok ∉ words ∧ .echoTok ∉ files.map Prod.snd := by
  constructor
  · rintro ⟨-, ⟨values, reads⟩, -⟩
    have noPipe : .pipe ∉ .echoTok :: (words ++ redirectTokens files) := by
      simpa using pipe_notMem isWord isFile
    have inner := echo_notMem_of_reads noPipe reads
    rw [List.mem_append, not_or] at inner
    refine ⟨inner.1, fun member => inner.2 ?_⟩
    rcases List.mem_map.1 member with ⟨file, member, echo⟩
    exact List.mem_flatMap.2 ⟨file, member, by simp [echo]⟩
  · rintro ⟨noWord, noFile⟩
    rcases exists_words isWord noWord with ⟨args, rfl⟩
    rcases exists_redirs isFile noFile with ⟨redirs, tokens⟩
    rw [← tokens]
    have generic : AcceptedAs world .generic (Stage.tokens ⟨.command first args, redirs, false⟩) :=
      accepted_stage type_of_command
    have echo : AcceptedAs world .echo (Stage.tokens ⟨.echo args, redirs, false⟩) :=
      accepted_stage type_of_echo
    simpa [Stage.tokens, Content.tokens] using And.intro generic echo

/-- The line `a exit > cd`. -/
theorem builtin_names_iff_exit :
    (AcceptedAs plainWorld .generic
          (.simStr ['a'] :: [.exitTok "exit".toList] ++ redirectTokens [(.redirOut, .cdTok)]) ∧
        AcceptedAs plainWorld .echo
          (.echoTok :: [.exitTok "exit".toList] ++ redirectTokens [(.redirOut, .cdTok)])) ↔
      .echoTok ∉ [Token.exitTok "exit".toList] ∧
        .echoTok ∉ [(Mark.redirOut, Token.cdTok)].map Prod.snd :=
  builtin_names_iff plainWorld (.simStr ['a']) (by simp [Token.isWord]) (by simp [Token.isWord])

/-- The line `a echo` is not accepted. -/
theorem builtin_names_fails : ¬∀ (world : World) (first : FirstString) (words : List Token)
    (files : List (Mark × Token)), (∀ token ∈ words, token.isWord = true) →
      (∀ file ∈ files, file.2.isWord = true) →
        AcceptedAs world .generic (first.token :: words ++ redirectTokens files) ∧
          AcceptedAs world .echo (.echoTok :: words ++ redirectTokens files) := by
  intro accepted
  obtain ⟨⟨values, reads⟩, -⟩ :=
    (accepted plainWorld (.simStr ['a']) [.echoTok] [] (by simp [Token.isWord]) nofun).1
  have noPipe : Token.pipe ∉ [.simStr ['a'], .echoTok] := by decide
  exact echo_notMem_of_reads noPipe reads (List.mem_singleton.2 rfl)

end QuashLabs.Quash.Parsing
