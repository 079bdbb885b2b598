import QuashLabs.Quash.Parsing.Grammar

/-!
# What the parser accepts

Every derivation of the tables is a phrase of the grammar: a symbol derives the
tokens of the syntax that the symbol stands for. With the derivations that the
parser follows, this settles the result of a call on a line.
-/

namespace QuashLabs.Quash.Parsing

open QuashLabs.Bison

/-- The tokens are a phrase of the symbol. -/
def Spelled : Nat → List Token → Prop
  | 3, tokens => tokens = [.pipe]
  | 4, tokens => tokens = [.bckgrnd]
  | 5, tokens => tokens = [.squote]
  | 6, tokens => tokens = [.equals]
  | 7, tokens => tokens = [.redirIn]
  | 8, tokens => tokens = [.redirOut]
  | 9, tokens => tokens = [.redirOutApp]
  | 10, tokens => tokens = [.endTok]
  | 11, tokens => tokens = [.echoTok]
  | 12, tokens => tokens = [.exportTok]
  | 13, tokens => tokens = [.cdTok]
  | 14, tokens => tokens = [.pwdTok]
  | 15, tokens => tokens = [.jobsTok]
  | 16, tokens => tokens = [.killTok]
  | 17, tokens => tokens = [.eocTok]
  | 18, tokens => ∃ text, tokens = [.str text]
  | 19, tokens => ∃ text, tokens = [.simStr text]
  | 20, tokens => ∃ text, tokens = [.id text]
  | 21, tokens => ∃ text, tokens = [.num text]
  | 22, tokens => ∃ text, tokens = [.exitTok text]
  | 25, tokens => ∃ pipeline : Pipeline, tokens = pipeline.tokens
  | 26, tokens => ∃ stage : Stage, tokens = stage.tokens
  | 27, tokens => ∃ content : Content, tokens = content.tokens
  | 28, tokens => ∃ redirs, tokens = redirTokens redirs
  | 29, tokens => ∃ redir redirs, tokens = redirTokens (redir :: redirs)
  | 30, tokens => ∃ mark : Mark, tokens = [mark.token]
  | 31, tokens => ∃ background : Bool, tokens = if background then [.bckgrnd] else []
  | 32, tokens => ∃ (first : FirstString) (args : List Word),
      tokens = first.token :: args.map Word.token
  | 33, tokens => ∃ (word : Word) (words : List Word), tokens = (word :: words).map Word.token
  | 34, tokens => ∃ word : Word, tokens = [word.token]
  | 35, tokens => ∃ word : Word, tokens = [word.token]
  | 36, tokens => ∃ s : FirstString, tokens = [s.token]
  | 23, _ => True
  | 24, _ => True
  | _, _ => False

/-- The tokens are phrases of the symbols. -/
def SpelledAll : List Nat → List Token → Prop
  | [], tokens => tokens = []
  | symbol :: symbols, tokens =>
      ∃ first rest, tokens = first ++ rest ∧ Spelled symbol first ∧ SpelledAll symbols rest

theorem spelled_token (token : Token) : Spelled token.symbol [token] := by
  cases token <;> simp [Token.symbol, Spelled]

theorem stageTokens_cons (first second : Stage) (rest : List Stage) :
    stageTokens first (second :: rest) = first.tokens ++ .pipe :: stageTokens second rest := rfl

/-- Every rule makes a phrase of phrases. -/
theorem spelled_rule {rule : Nat} (known : rule ∈ automaton.rules) {tokens : List Token}
    (spelled : SpelledAll (automaton.right rule) tokens) : Spelled (tables.lhs rule) tokens := by
  have number : rule ∈ List.range' 1 44 := known
  simp only [List.range', List.mem_cons, List.not_mem_nil, or_false] at number
  rcases number with rfl | rfl | rfl | rfl | rfl | rfl | rfl | rfl | rfl | rfl | rfl | rfl | rfl |
    rfl | rfl | rfl | rfl | rfl | rfl | rfl | rfl | rfl | rfl | rfl | rfl | rfl | rfl | rfl | rfl |
    rfl | rfl | rfl | rfl | rfl | rfl | rfl | rfl | rfl | rfl | rfl | rfl | rfl | rfl | rfl
  -- `$accept` and `top`
  · trivial
  · trivial
  · trivial
  · trivial
  · trivial
  · trivial
  -- `cmds` and `cmd_top`
  · obtain ⟨_, _, rfl, ⟨stage, rfl⟩, rfl⟩ := spelled
    exact ⟨⟨stage, []⟩, List.append_nil _⟩
  · obtain ⟨_, _, rfl, ⟨stage, rfl⟩, _, _, rfl, rfl, _, _, rfl, ⟨pipeline, rfl⟩, rfl⟩ := spelled
    exact ⟨⟨stage, pipeline.first :: pipeline.rest⟩,
      by simp [Pipeline.tokens, stageTokens_cons]⟩
  · obtain ⟨_, _, rfl, ⟨content, rfl⟩, _, _, rfl, ⟨redirs, rfl⟩, _, _, rfl, ⟨bg, rfl⟩, rfl⟩ :=
      spelled
    exact ⟨⟨content, redirs, bg⟩, by simp [Stage.tokens]⟩
  -- `cmd_content`
  · obtain ⟨_, _, rfl, ⟨first, args, rfl⟩, rfl⟩ := spelled
    exact ⟨.command first args, by simp [Content.tokens]⟩
  · obtain ⟨_, _, rfl, rfl, rfl⟩ := spelled
    exact ⟨.echo [], rfl⟩
  · obtain ⟨_, _, rfl, rfl, _, _, rfl, ⟨word, words, rfl⟩, rfl⟩ := spelled
    exact ⟨.echo (word :: words), by simp [Content.tokens]⟩
  · obtain ⟨_, _, rfl, rfl, _, _, rfl, ⟨name, rfl⟩, _, _, rfl, rfl, _, _, rfl, ⟨val, rfl⟩, rfl⟩ :=
      spelled
    exact ⟨.exportVar name val, rfl⟩
  · obtain ⟨_, _, rfl, rfl, rfl⟩ := spelled
    exact ⟨.cdAlone, rfl⟩
  · obtain ⟨_, _, rfl, rfl, _, _, rfl, ⟨dir, rfl⟩, rfl⟩ := spelled
    exact ⟨.cd dir, rfl⟩
  · obtain ⟨_, _, rfl, rfl, rfl⟩ := spelled
    exact ⟨.pwd, rfl⟩
  · obtain ⟨_, _, rfl, rfl, rfl⟩ := spelled
    exact ⟨.jobs, rfl⟩
  · obtain ⟨_, _, rfl, ⟨text, rfl⟩, rfl⟩ := spelled
    exact ⟨.exit text, rfl⟩
  · obtain ⟨_, _, rfl, rfl, _, _, rfl, ⟨sig, rfl⟩, _, _, rfl, ⟨job, rfl⟩, rfl⟩ := spelled
    exact ⟨.kill sig job, rfl⟩
  -- `redir`, `redir_inner`, `redir_mark` and `cmd_bg`
  · obtain ⟨_, _, rfl, ⟨redir, redirs, rfl⟩, rfl⟩ := spelled
    exact ⟨redir :: redirs, List.append_nil _⟩
  · exact ⟨[], spelled⟩
  · obtain ⟨_, _, rfl, ⟨mark, rfl⟩, _, _, rfl, ⟨word, rfl⟩, _, _, rfl, ⟨redir, redirs, rfl⟩, rfl⟩ :=
      spelled
    exact ⟨(mark, word), redir :: redirs, by simp [redirTokens]⟩
  · obtain ⟨_, _, rfl, ⟨mark, rfl⟩, _, _, rfl, ⟨word, rfl⟩, rfl⟩ := spelled
    exact ⟨(mark, word), [], rfl⟩
  · obtain ⟨_, _, rfl, rfl, rfl⟩ := spelled
    exact ⟨.redirIn, rfl⟩
  · obtain ⟨_, _, rfl, rfl, rfl⟩ := spelled
    exact ⟨.redirOut, rfl⟩
  · obtain ⟨_, _, rfl, rfl, rfl⟩ := spelled
    exact ⟨.redirOutApp, rfl⟩
  · exact ⟨false, spelled⟩
  · obtain ⟨_, _, rfl, rfl, rfl⟩ := spelled
    exact ⟨true, rfl⟩
  -- `cmd` and `cmd_arguments`
  · obtain ⟨_, _, rfl, ⟨first, rfl⟩, _, _, rfl, ⟨word, words, rfl⟩, rfl⟩ := spelled
    exact ⟨first, word :: words, by simp⟩
  · obtain ⟨_, _, rfl, ⟨first, rfl⟩, rfl⟩ := spelled
    exact ⟨first, [], rfl⟩
  · obtain ⟨_, _, rfl, ⟨word, rfl⟩, rfl⟩ := spelled
    exact ⟨word, [], rfl⟩
  · obtain ⟨_, _, rfl, ⟨word, rfl⟩, _, _, rfl, ⟨next, words, rfl⟩, rfl⟩ := spelled
    exact ⟨word, next :: words, by simp⟩
  -- `string`, `special_string` and `first_string`
  · obtain ⟨_, _, rfl, ⟨s, rfl⟩, rfl⟩ := spelled
    exact ⟨.first s, rfl⟩
  · obtain ⟨_, _, rfl, ⟨word, rfl⟩, rfl⟩ := spelled
    exact ⟨word, rfl⟩
  · obtain ⟨_, _, rfl, rfl, rfl⟩ := spelled
    exact ⟨.exportTok, rfl⟩
  · obtain ⟨_, _, rfl, rfl, rfl⟩ := spelled
    exact ⟨.cdTok, rfl⟩
  · obtain ⟨_, _, rfl, rfl, rfl⟩ := spelled
    exact ⟨.killTok, rfl⟩
  · obtain ⟨_, _, rfl, rfl, rfl⟩ := spelled
    exact ⟨.pwdTok, rfl⟩
  · obtain ⟨_, _, rfl, rfl, rfl⟩ := spelled
    exact ⟨.jobsTok, rfl⟩
  · obtain ⟨_, _, rfl, ⟨text, rfl⟩, rfl⟩ := spelled
    exact ⟨.exitTok text, rfl⟩
  · obtain ⟨_, _, rfl, ⟨text, rfl⟩, rfl⟩ := spelled
    exact ⟨.str text, rfl⟩
  · obtain ⟨_, _, rfl, ⟨text, rfl⟩, rfl⟩ := spelled
    exact ⟨.simStr text, rfl⟩
  · obtain ⟨_, _, rfl, ⟨text, rfl⟩, rfl⟩ := spelled
    exact ⟨.num text, rfl⟩
  · obtain ⟨_, _, rfl, ⟨text, rfl⟩, rfl⟩ := spelled
    exact ⟨.id text, rfl⟩

/-- What the parser derives from symbols is made of their phrases. -/
theorem spelledAll_of_reads {world : World} {symbols : List Nat} {tokens : List Token}
    {values : Except Failure (List Value)} (reads : Reads world symbols tokens values) :
    SpelledAll symbols tokens := by
  induction reads with
  | nil => rfl
  | token token _ ih => exact ⟨[token], _, rfl, spelled_token token, ih⟩
  | rule known _ _ _ inner outer => exact ⟨_, _, rfl, spelled_rule known inner, outer⟩

end QuashLabs.Quash.Parsing
