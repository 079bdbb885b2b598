import QuashLabs.Quash.Parsing.Heights
import QuashLabs.Quash.Parsing.PipelineHeights
import QuashLabs.Quash.Parsing.Rereading.Values

/-!
# Reading the text of a script again

The text of a script is scanned as the tokens of its pipeline where its commands are
`echo`, `kill`, `cd` or no builtins. The text of the other builtins is read as something
else: the assignment of `export` has no `=`, and the names in capitals are those of
programs.
-/

namespace QuashLabs.Quash.Parsing

open QuashLabs.Bison QuashLabs.Checked QuashLabs.Lexing Scanner

variable {world : World} {holder : CommandHolder}

/-! ## The text -/

/-- The characters of a C string in a buffer. -/
def readString (buffer : Buffer) : List Char :=
  (buffer.takeWhile (· ≠ some '\x00')).reduceOption

/-- Scanning and parsing `state->parsed_str` again gives the same array. -/
def Rereads (world : World) (holders : List CommandHolder) : Prop :=
  ∃ text answer left, parse (some holders) none = .ok (some text) ∧
    Returns world (scanAll (readString text)) answer left ∧ answer.retCmds = some holders

theorem readString_map {text : List Char} (noTerminator : '\x00' ∉ text) :
    readString ((text ++ ['\x00']).map some) = text := by
  have all : ∀ c ∈ text.map some, decide (c ≠ some '\x00') = true := by
    intro c member
    obtain ⟨c, inside, rfl⟩ := List.mem_map.mp member
    rw [decide_eq_true_eq]
    rintro ⟨⟩
    exact noTerminator inside
  rw [readString, List.map_append, List.takeWhile_append_of_pos all]
  simp [List.reduceOption]

theorem noTerminator_render {words : List CStr} {tokens : List Token}
    (each : List.Forall₂ ScansAs words tokens) : '\x00' ∉ render words := by
  induction each with
  | nil => exact List.not_mem_nil
  | cons here _ ih =>
      rw [render_cons, List.mem_append, List.mem_cons, not_or, not_or]
      exact ⟨here.noTerminator, by decide, ih⟩

theorem inner_of_scans {words : List CStr} {tokens : List Token}
    (each : List.Forall₂ ScansAs words tokens) :
    ∀ token ∈ tokens, token ≠ .eocTok ∧ token ≠ .endTok := by
  induction each with
  | nil => exact fun _ member => absurd member List.not_mem_nil
  | cons here _ ih => exact List.forall_mem_cons.mpr ⟨here.inner, ih⟩

theorem rereads_iff_returns {cmds : List CommandHolder} {tokens : List Token}
    (printable : ∀ entry ∈ cmds, Printable entry)
    (each : List.Forall₂ ScansAs (listed (scriptWords printedName (cmds ++ [eocHolder]))) tokens) :
    Rereads world (cmds ++ [eocHolder]) ↔
      ∃ answer left, Returns world (tokens ++ [.endTok]) answer left ∧
        answer.retCmds = some (cmds ++ [eocHolder]) := by
  have scans := scanAll_render each
  have chars := readString_map (noTerminator_render each)
  constructor
  · rintro ⟨text, answer, left, parses, returns, array⟩
    rw [parse_eq printable] at parses
    cases parses
    rw [chars, scans] at returns
    exact ⟨answer, left, returns, array⟩
  · rintro ⟨answer, left, returns, array⟩
    refine ⟨_, answer, left, parse_eq printable none, ?_, array⟩
    rw [chars, scans]
    exact returns

/-! ## Commands that are not read again -/

/-- The token may be one of a text. -/
def Token.isPrinted : Token → Bool
  | .equals | .pwdTok | .jobsTok | .exitTok _ => false
  | _ => true

theorem isPrinted_of_isBare {token : Token} (bare : token.isBare = true) :
    token.isPrinted = true := by
  cases token <;> first | rfl | cases bare

/-- The names in capitals are bare words. -/
theorem bareText_capital : ∀ type ∈ capitals, BareText (printedName type) := by
  have capital {name : CStr} (isId : Matches Scanner.id name) (nonempty : name ≠ [])
      (noTerminator : '\x00' ∉ name) (notReserved : name ∉ reserved) : BareText name :=
    ⟨nonempty, noTerminator, notReserved, idRule, by simp [bareRules], isId⟩
  intro type known
  simp only [capitals, List.mem_cons, List.not_mem_nil, or_false] at known
  rcases known with rfl | rfl | rfl <;>
    exact capital (by decide) (by decide) (by decide) (by decide)

theorem scans_bare {text : CStr} (bare : BareText text) :
    ∃ token, ScansAs text token ∧ token.isPrinted = true :=
  ⟨bareToken text, scansAs_bare bare, isPrinted_of_isBare (bareToken_spec text).1⟩

theorem scans_name {name : CStr} {token : Token} (known : (name, token) ∈ printedNames) :
    ∃ token, ScansAs name token ∧ token.isPrinted = true := by
  refine ⟨token, scansAs_printedName known, ?_⟩
  simp only [printedNames, List.mem_cons, List.not_mem_nil, or_false, Prod.mk.injEq] at known
  rcases known with ⟨-, rfl⟩ | ⟨-, rfl⟩ | ⟨-, rfl⟩ | ⟨-, rfl⟩ <;> rfl

theorem scans_operator {text : CStr} {token : Token} (known : (text, token) ∈ printedOperators) :
    ∃ token, ScansAs text token ∧ token.isPrinted = true := by
  refine ⟨token, scansAs_printedOperator known, ?_⟩
  simp only [printedOperators, List.mem_cons, List.not_mem_nil, or_false, Prod.mk.injEq] at known
  rcases known with ⟨-, rfl⟩ | ⟨-, rfl⟩ | ⟨-, rfl⟩ | ⟨-, rfl⟩ | ⟨-, rfl⟩ <;> rfl

/-- The words of a command are printed as tokens. -/
theorem scans_command {cmd : Command} (written : Written cmd)
    (bare : ∀ word, some word ∈ argumentWords cmd → BareWord word) {word : CStr}
    (member : some word ∈ commandWords printedName cmd) :
    ∃ token, ScansAs word token ∧ token.isPrinted = true := by
  have argument (inside : some word ∈ argumentWords cmd) :
      ∃ token, ScansAs word token ∧ token.isPrinted = true :=
    scans_bare (bare word inside).bareText
  have named {name : CStr} {token : Token} (known : (name, token) ∈ printedNames)
      (here : some word = some name ∨ some word ∈ argumentWords cmd) :
      ∃ token, ScansAs word token ∧ token.isPrinted = true := by
    rcases here with same | inside
    · obtain rfl := Option.some.inj same
      exact scans_name known
    · exact argument inside
  cases cmd with
  | simple type =>
      obtain rfl : word = printedName type := by simpa [commandWords] using member
      apply scans_bare (bareText_capital type _)
      simpa [capitals, Written] using written
  | generic type args =>
      rcases written.1 with rfl | rfl
      · exact argument member
      · exact named (by decide : ("echo".toList, Token.echoTok) ∈ printedNames)
          (List.mem_cons.mp member)
  | export_ envVar val =>
      exact named (by decide : ("export".toList, Token.exportTok) ∈ printedNames)
        (List.mem_cons.mp member)
  | cd dir =>
      exact named (by decide : ("cd".toList, Token.cdTok) ∈ printedNames)
        (List.mem_cons.mp member)
  | kill sig job sigStr jobStr =>
      exact named (by decide : ("kill".toList, Token.killTok) ∈ printedNames)
        (List.mem_cons.mp member)

theorem scans_redirects (bare : Bare holder) {word : CStr}
    (member : some word ∈ redirectWords holder) :
    ∃ token, ScansAs word token ∧ token.isPrinted = true := by
  have file (named : holder.redirectIn = some word ∨ holder.redirectOut = some word) :
      ∃ token, ScansAs word token ∧ token.isPrinted = true :=
    scans_bare (bare.files word named).bareText
  unfold redirectWords at member
  rw [List.mem_append] at member
  rcases member with input | output
  · split at input
    · simp only [List.mem_cons, Option.some.injEq, List.not_mem_nil, or_false] at input
      rcases input with rfl | name
      · exact scans_operator (by decide : ("<".toList, Token.redirIn) ∈ printedOperators)
      · exact file (.inl name.symm)
    · cases input
  · split at output
    · simp only [List.mem_cons, Option.some.injEq, List.not_mem_nil, or_false] at output
      rcases output with rfl | name
      · split
        · exact scans_operator (by decide : (">>".toList, Token.redirOutApp) ∈ printedOperators)
        · exact scans_operator (by decide : (">".toList, Token.redirOut) ∈ printedOperators)
      · exact file (.inr name.symm)
    · cases output

/-- The words of a script are printed as tokens. -/
theorem scans_script {cmds : List CommandHolder} (rereadable : ∀ entry ∈ cmds, Rereadable entry)
    (background : Bool) {word : CStr}
    (member : some word ∈ cmds.flatMap (holderWords printedName) ++ backgroundWords background) :
    ∃ token, ScansAs word token ∧ token.isPrinted = true := by
  rw [List.mem_append, List.mem_flatMap] at member
  rcases member with ⟨entry, inside, member⟩ | mark
  · have entry' := rereadable entry inside
    rw [holderWords, List.mem_append, List.mem_append] at member
    rcases member with command | redirect | pipe
    · exact scans_command entry'.printable.cmd entry'.bare.words command
    · exact scans_redirects entry'.bare redirect
    · unfold pipeWords at pipe
      split at pipe
      · obtain rfl := Option.some.inj (List.mem_singleton.mp pipe)
        exact scans_operator (by decide : ("|".toList, Token.pipe) ∈ printedOperators)
      · cases pipe
  · unfold backgroundWords at mark
    split at mark
    · obtain rfl := Option.some.inj (List.mem_singleton.mp mark)
      exact scans_operator (by decide : ("&".toList, Token.bckgrnd) ∈ printedOperators)
    · cases mark

theorem exists_tokens {words : List CStr} {good : Token → Prop}
    (each : ∀ word ∈ words, ∃ token, ScansAs word token ∧ good token) :
    ∃ tokens, List.Forall₂ ScansAs words tokens ∧ ∀ token ∈ tokens, good token := by
  induction words with
  | nil => exact ⟨[], .nil, fun _ member => absurd member List.not_mem_nil⟩
  | cons word words ih =>
      rw [List.forall_mem_cons] at each
      obtain ⟨⟨token, scans, isGood⟩, later⟩ := each
      obtain ⟨tokens, all, others⟩ := ih later
      exact ⟨token :: tokens, .cons scans all, List.forall_mem_cons.mpr ⟨isGood, others⟩⟩

/-- A command of another type has a token that no text has. -/
theorem unprinted_token {content : Content} {cmd : Command}
    (evaluates : content.eval world = .ok cmd) (type : getCommandType cmd ∉ readable) :
    ∃ token ∈ content.tokens, token.isPrinted = false := by
  cases content with
  | command head args =>
      obtain ⟨words, -, rfl⟩ := eval_listed evaluates rfl
      exact absurd (by simp [getCommandType, readable]) type
  | echo args =>
      obtain ⟨words, -, rfl⟩ := eval_listed evaluates rfl
      exact absurd (by simp [getCommandType, readable]) type
  | exportVar name val => exact ⟨.equals, by simp [Content.tokens], rfl⟩
  | cdAlone =>
      rcases bind_eq_ok.1 evaluates with ⟨_, -, evaluates⟩
      obtain rfl := Except.ok.inj evaluates
      exact absurd (by simp [getCommandType, mkCdCommand, readable]) type
  | cd dir =>
      rcases bind_eq_ok.1 evaluates with ⟨_, -, evaluates⟩
      obtain rfl := Except.ok.inj evaluates
      exact absurd (by simp [getCommandType, cdString, mkCdCommand, readable]) type
  | pwd => exact ⟨.pwdTok, List.mem_cons_self, rfl⟩
  | jobs => exact ⟨.jobsTok, List.mem_cons_self, rfl⟩
  | exit text => exact ⟨.exitTok text, List.mem_cons_self, rfl⟩
  | kill sig job =>
      obtain rfl := Except.ok.inj evaluates
      exact absurd (by simp [getCommandType, mkKillCommand, readable]) type

theorem mem_stageTokens {first stage : Stage} {rest : List Stage} (member : stage ∈ first :: rest)
    {token : Token} (inside : token ∈ stage.content.tokens) : token ∈ stageTokens first rest := by
  have here {stage : Stage} (inside : token ∈ stage.content.tokens) : token ∈ stage.tokens :=
    List.mem_append_left _ (List.mem_append_left _ inside)
  induction rest generalizing first with
  | nil =>
      obtain rfl := List.mem_singleton.mp member
      exact here inside
  | cons second rest ih =>
      rw [stageTokens]
      rcases List.mem_cons.mp member with rfl | later
      · exact List.mem_append_left _ (here inside)
      · exact List.mem_append_right _ (List.mem_cons_of_mem _ (ih later))

/-- A script with a command of another type is not read again. -/
theorem not_rereads {cmds : List CommandHolder} (rereadable : ∀ entry ∈ cmds, Rereadable entry)
    {entry : CommandHolder} (member : entry ∈ cmds)
    (type : getCommandHolderType entry ∉ readable) : ¬ Rereads world (cmds ++ [eocHolder]) := by
  have printable : ∀ entry ∈ cmds, Printable entry := fun entry inside =>
    (rereadable entry inside).printable
  obtain ⟨tokens, each, printed⟩ : ∃ tokens, List.Forall₂ ScansAs
      (listed (scriptWords printedName (cmds ++ [eocHolder]))) tokens ∧
        ∀ token ∈ tokens, token.isPrinted = true := by
    apply exists_tokens
    intro word inside
    apply scans_script rereadable (inBackground (cmds ++ [eocHolder]))
    have among := List.reduceOption_mem_iff.mp inside
    rw [scriptWords, commandsOf_append fun entry inside => (printable entry inside).notEoc] at among
    exact (List.takeWhile_sublist _).subset among
  rw [rereads_iff_returns printable each]
  rintro ⟨answer, left, returns, array⟩
  have line : ∃ line : Line, line.body = tokens ∧ line.tokens = tokens ++ [.endTok] :=
    ⟨.final tokens (inner_of_scans each), rfl, rfl⟩
  obtain ⟨line, body, whole⟩ := line
  rw [← whole, ← List.append_nil line.tokens] at returns
  obtain ⟨pipeline, cmds', same, parts, evaluates⟩ := eval_of_returns returns array
  obtain rfl := List.append_cancel_right same
  have entries : Entries world true pipeline.stages cmds := entries_of_stages _ _ evaluates
  obtain ⟨stage, stages, value⟩ := entries.exists_stage member
  obtain ⟨token, inside, unprinted⟩ := unprinted_token value type
  have present : token ∈ pipeline.tokens := mem_stageTokens stages inside
  rw [← parts, body] at present
  rw [printed token present] at unprinted
  cases unprinted

/-! ## Scripts that are read again -/

/-- A call on the tokens of a pipeline returns its value when the stack has room. -/
theorem returns_array_iff (world : World) {line : Line} {pipeline : Pipeline}
    (body : line.body = pipeline.tokens) (cmds : List CommandHolder) (rest : List Token) :
    (∃ answer left, Returns world (line.tokens ++ rest) answer left ∧
        answer.retCmds = some (cmds ++ [eocHolder])) ↔
      stackPeak world line.tokens + 1 < world.maxDepth ∧ pipeline.eval world = .ok cmds := by
  obtain ⟨result, call, ⟨fuel, runs⟩, comes⟩ := call_of_line world line
  constructor
  · rintro ⟨answer, left, returns, array⟩
    obtain ⟨-, cmds', evaluates, rfl⟩ := commands_of_returns body returns
    obtain rfl := List.append_cancel_right (Option.some.inj array)
    refine ⟨?_, evaluates⟩
    by_contra full
    rw [if_neg full] at comes
    rcases returns with ⟨fuel', status, returns⟩
    have same := (parser world).yyparse_unique (runs rest) returns
    rw [comes] at same
    cases same
  · rintro ⟨room, evaluates⟩
    rw [if_pos room] at comes
    have alone := Parser.yyparse_alone _ runs
    rcases pipeline_call body alone with rfl | concludes
    · cases failure : lineFailure world line.tokens with
      | none =>
          rw [failure] at comes
          obtain ⟨status, answer, returned⟩ := comes
          cases returned
      | some reason =>
          rw [failure] at comes
          cases comes
    · rw [evaluates] at concludes
      obtain rfl : result = .returned 0 (some ⟨some (cmds ++ [eocHolder]), line.atEnd⟩) [] :=
        concludes
      exact ⟨_, _, ⟨fuel, 0, runs rest⟩, rfl⟩

/-- The token is one that the scanner returns. -/
def FromScanner (token : Token) : Prop := ∃ input left, yylex input = (token, left)

/-- The text of a `NUM` token consists of digits. -/
theorem number_of_scanner {text : CStr} (scanned : FromScanner (.num text)) :
    Matches number text := by
  obtain ⟨input, left, scans⟩ := scanned
  obtain ⟨skipped, yytext, make, -, -, first, same⟩ := match_of_yylex scans nofun
  obtain ⟨rule, known, makes, here⟩ := rule_of_firstMatch first
  have bare : (make yytext).isBare = true := by
    rw [same]
    rfl
  have member := (mem_bareRules known makes bare).1
  simp only [bareRules, List.mem_cons, List.not_mem_nil, or_false] at member
  rcases member with rfl | rfl | rfl <;> cases makes
  · obtain rfl := Token.num.inj same
    have digits := (matches_number_iff.mp here).2
    rw [copyText_eq fun terminator => absurd (digits _ terminator) (by decide)]
    exact here
  · cases same
  · cases same

theorem asTyped_of_eval {content : Content} {cmd : Command}
    (evaluates : content.eval world = .ok cmd)
    (scanned : ∀ token ∈ content.tokens, FromScanner token) : AsTyped cmd := by
  cases content with
  | command head args =>
      obtain ⟨words, values, rfl⟩ := eval_listed evaluates rfl
      rw [AsTyped, listed_words]
      rintro rfl
      cases values
  | echo args =>
      obtain ⟨words, -, rfl⟩ := eval_listed evaluates rfl
      trivial
  | exportVar name val =>
      rcases bind_eq_ok.1 evaluates with ⟨_, -, evaluates⟩
      obtain rfl := Except.ok.inj evaluates
      trivial
  | cdAlone =>
      rcases bind_eq_ok.1 evaluates with ⟨_, -, evaluates⟩
      obtain rfl := Except.ok.inj evaluates
      trivial
  | cd dir =>
      rcases bind_eq_ok.1 evaluates with ⟨_, -, evaluates⟩
      obtain rfl := Except.ok.inj evaluates
      trivial
  | pwd | jobs | exit =>
      obtain rfl := Except.ok.inj evaluates
      trivial
  | kill sig job =>
      obtain rfl := Except.ok.inj evaluates
      simp only [Content.tokens, List.forall_mem_cons] at scanned
      exact ⟨rfl, number_of_scanner scanned.2.1, number_of_scanner scanned.2.2.1⟩

/-- An array for tokens of the scanner, with bare words and effective redirections, is one
that can be read again. -/
theorem rereadable_of_eval {pipeline : Pipeline} {cmds : List CommandHolder}
    (evaluates : pipeline.eval world = .ok cmds)
    (scanned : ∀ token ∈ pipeline.tokens, FromScanner token)
    (bare : ∀ entry ∈ cmds, Bare entry) (effective : ∀ entry ∈ cmds, Effective entry) :
    ∀ entry ∈ cmds, Rereadable entry := by
  have entries : Entries world true pipeline.stages cmds := entries_of_stages _ _ evaluates
  intro entry member
  obtain ⟨stage, stages, value⟩ := entries.exists_stage member
  have typed := asTyped_of_eval value fun token inside =>
    scanned token (mem_stageTokens stages inside)
  exact ⟨entries.printable entry member, typed, bare entry member, effective entry member⟩

/-- Entries are read again exactly when the stack has room for their text and they are
faithful. -/
theorem rereads_iff_room {world₀ : World} {stages : List Stage} {later : List CommandHolder}
    (entries : Entries world₀ true stages (holder :: later))
    (spare : ∀ entry ∈ holder :: later, entry.flags &&& spareBits = 0#8)
    (rereadable : ∀ entry ∈ holder :: later, Rereadable entry) :
    Rereads world (holder :: later ++ [eocHolder]) ↔
      stackPeak world ((reread (inBackground (holder :: later)) holder later).tokens ++
          [.endTok]) + 1 < world.maxDepth ∧ Faithful world (holder :: later) := by
  by_cases types : ∀ entry ∈ holder :: later, getCommandHolderType entry ∈ readable
  · have printable : ∀ entry ∈ holder :: later, Printable entry := fun entry inside =>
      (rereadable entry inside).printable
    have commands := commandsOf_append fun entry inside => (printable entry inside).notEoc
    have each := scanned_entries entries rereadable types (inBackground (holder :: later))
    have words : scriptWords printedName (holder :: later ++ [eocHolder]) =
        (holder :: later).flatMap (holderWords printedName) ++
          backgroundWords (inBackground (holder :: later)) := by
      rw [scriptWords, commands]
      rfl
    rw [← words] at each
    have line : ∃ line : Line, line.body = (reread (inBackground (holder :: later)) holder
        later).tokens ∧ line.tokens = (reread (inBackground (holder :: later)) holder
          later).tokens ++ [.endTok] :=
      ⟨.final _ (inner_of_scans each), rfl, rfl⟩
    obtain ⟨line, body, whole⟩ := line
    have returns := returns_array_iff world body (holder :: later) []
    rw [List.append_nil, whole] at returns
    rw [rereads_iff_returns printable each, returns,
      reread_eval_iff entries spare rereadable types]
  · have other : ∃ entry ∈ holder :: later, getCommandHolderType entry ∉ readable := by
      simpa only [not_forall, exists_prop] using types
    obtain ⟨entry, member, type⟩ := other
    refine iff_of_false (not_rereads rereadable member type) ?_
    rintro ⟨-, restorable, -⟩
    exact type (restorable entry member).type

/-! ## The stack -/

theorem readContent_height {content : Content} {cmd : Command}
    (evaluates : content.eval world = .ok cmd) :
    (readContent cmd).height ≤ max content.height 3 := by
  cases content with
  | command first args =>
      obtain ⟨words, values, rfl⟩ := eval_listed evaluates rfl
      have size := values.length_eq
      cases values with
      | cons value values =>
          rw [readContent_generic]
          simp only [List.length_cons, Content.height, List.length_map] at size ⊢
          omega
  | echo args =>
      obtain ⟨words, values, rfl⟩ := eval_listed evaluates rfl
      have size := values.length_eq
      rw [readContent_echo]
      simp only [Content.height, List.length_map] at size ⊢
      omega
  | exportVar name val =>
      rcases bind_eq_ok.1 evaluates with ⟨_, -, evaluates⟩
      obtain rfl := Except.ok.inj evaluates
      exact Nat.le_max_left _ _
  | cdAlone =>
      rcases bind_eq_ok.1 evaluates with ⟨_, -, evaluates⟩
      obtain rfl := Except.ok.inj evaluates
      exact (by decide : 2 ≤ 3)
  | cd dir =>
      rcases bind_eq_ok.1 evaluates with ⟨str, -, evaluates⟩
      obtain rfl := Except.ok.inj evaluates
      apply le_max_of_le_right
      unfold cdString mkCdCommand
      cases world.realpath str with
      | none => exact (by decide : 1 ≤ 3)
      | some path => exact (by decide : 2 ≤ 3)
  | pwd | jobs | exit =>
      obtain rfl := Except.ok.inj evaluates
      exact (by decide : 1 ≤ 3)
  | kill sig job =>
      obtain rfl := Except.ok.inj evaluates
      exact (by decide : 3 ≤ 3)

/-- Active redirections are among those of the stage. -/
theorem active_le (stage : Stage) :
    stage.hasInput.toNat + stage.hasOutput.toNat ≤ stage.redirs.length := by
  unfold Stage.hasInput Stage.hasOutput
  induction stage.redirs with
  | nil => exact Nat.le_refl _
  | cons redir redirs ih =>
      rcases redir with ⟨mark, word⟩
      rw [List.any_cons, List.any_cons, List.length_cons]
      cases mark with
      | redirIn =>
          change 1 + (redirs.any _).toNat ≤ _
          omega
      | redirOut =>
          change (redirs.any _).toNat + 1 ≤ _
          omega
      | redirOutApp =>
          change (redirs.any _).toNat + 1 ≤ _
          omega

/-- The stage of the text is no higher than the stage of the entry. -/
theorem readStage_height {first : Bool} {stage : Stage} {later : List Stage}
    (entry : Entry world first stage later holder) (effective : Effective holder)
    (background : Bool) : (readStage background holder).height ≤ stage.height := by
  have command := readContent_height entry.cmd
  have active := active_le stage
  have input : holder.redirectIn.isSome = (first && stage.hasInput) :=
    effective.input.trans entry.redirectIn
  have output : holder.redirectOut.isSome = (later.isEmpty && stage.hasOutput) :=
    effective.output.trans entry.redirectOut
  have size : (readRedirs holder).length =
      holder.redirectIn.isSome.toNat + holder.redirectOut.isSome.toNat := by
    unfold readRedirs
    cases holder.redirectIn <;> cases holder.redirectOut <;> rfl
  have fewer : (readRedirs holder).length ≤ stage.redirs.length := by
    rw [size, input, output]
    have inputs : (first && stage.hasInput).toNat ≤ stage.hasInput.toNat := by
      cases first <;> simp
    have outputs : (later.isEmpty && stage.hasOutput).toNat ≤ stage.hasOutput.toNat := by
      cases later.isEmpty <;> simp
    omega
  unfold Stage.height
  simp only [readStage]
  omega

/-- The pipeline of the text is no higher than the pipeline of the entries. -/
theorem reread_height {first : Bool} {stage : Stage} {behind : List Stage}
    {later : List CommandHolder}
    (entries : Entries world first (stage :: behind) (holder :: later))
    (effective : ∀ entry ∈ holder :: later, Effective entry) (background : Bool) (pipes : Nat) :
    stagesHeight pipes (reread background holder later).first
      (reread background holder later).rest ≤ stagesHeight pipes stage behind := by
  have severs {holder : CommandHolder} {later : List CommandHolder} (pipes : Nat) (stage : Stage)
      (behind : List Stage) (severed : holder.cmd = .cd none) :
      stagesHeight pipes (reread background holder later).first
        (reread background holder later).rest ≤ stagesHeight pipes stage behind := by
    have front : 2 * pipes + stage.height ≤ stagesHeight pipes stage behind := by
      cases behind with
      | nil => exact Nat.le_refl _
      | cons second rest => exact Nat.le_max_left _ _
    have least : 3 ≤ stage.height := by
      unfold Stage.height
      omega
    rw [reread_severed severed]
    change 2 * pipes + 3 ≤ _
    omega
  induction later generalizing holder first stage behind pipes with
  | nil =>
      by_cases severed : holder.cmd = .cd none
      · exact severs pipes stage behind severed
      · cases behind with
        | nil =>
            have own := readStage_height entries.1 (effective holder List.mem_cons_self) background
            rw [reread, if_neg severed]
            exact Nat.add_le_add_left own _
        | cons second rest => exact entries.2.elim
  | cons next later ih =>
      by_cases severed : holder.cmd = .cd none
      · exact severs pipes stage behind severed
      · cases behind with
        | nil => exact entries.2.elim
        | cons second rest =>
            rw [List.forall_mem_cons] at effective
            have own := readStage_height entries.1 effective.1 false
            have others := ih entries.2 effective.2 (pipes + 1)
            rw [reread, if_neg severed]
            exact max_le_max (Nat.add_le_add_left own _) others

/-- Scanning and parsing the text of a script again, with the same stack, gives its array
exactly when its commands are `echo`, `kill`, no builtins, or `cd` with a directory that is its
own real path, and all of them are in the background or none is. -/
theorem rereads_iff (world : World) {line : Line} {rest left : List Token} {answer : Answer}
    {holders : List CommandHolder} (scanned : ∀ token ∈ line.body, FromScanner token)
    (returns : Returns world (line.tokens ++ rest) answer left)
    (array : answer.retCmds = some holders)
    (bare : ∀ entry ∈ commandsOf holders, Bare entry)
    (effective : ∀ entry ∈ commandsOf holders, Effective entry) (env : Environment)
    (realpath : CStr → Option CStr) :
    Rereads ⟨env, realpath, world.maxDepth⟩ holders ↔
      Faithful ⟨env, realpath, world.maxDepth⟩ (commandsOf holders) := by
  obtain ⟨pipeline, cmds, rfl, body, evaluates⟩ := eval_of_returns returns array
  have entries : Entries world true pipeline.stages cmds := entries_of_stages _ _ evaluates
  rw [commandsOf_append fun entry inside => (entries.printable entry inside).notEoc]
    at bare effective ⊢
  have rereadable := rereadable_of_eval evaluates (body ▸ scanned) bare effective
  have spare := spareBits_of_stages pipeline.first pipeline.rest evaluates
  have room := ((returns_array_iff world body cmds rest).mp ⟨answer, left, returns, array⟩).1
  cases cmds with
  | nil => exact entries.elim
  | cons holder later =>
      rw [rereads_iff_room entries spare rereadable]
      refine ⟨fun reads => reads.2, fun faithful => ⟨?_, faithful⟩⟩
      -- The text needs no more room than the line, which had enough.
      have types : ∀ entry ∈ holder :: later, getCommandHolderType entry ∈ readable :=
        fun entry inside => (faithful.1 entry inside).type
      have again := (reread_eval_iff entries spare rereadable types).mpr faithful
      have tokens : line.tokens = pipeline.tokens ++ [line.last] := by rw [Line.tokens, body]
      rw [tokens, stackPeak_pipeline evaluates line.isEnd] at room
      rw [stackPeak_pipeline again (.inr rfl)]
      have lower := reread_height entries effective (inBackground (holder :: later)) 0
      change _ < world.maxDepth
      omega

/-- The line `a &`. -/
def markedLine : Line := .ended [.id "a".toList, .bckgrnd] (by decide)

/-- The entry of this line. -/
def markedEntry : CommandHolder :=
  ⟨none, none, Flags.background, mkGenericCommand [some "a".toList, none]⟩

theorem markedEntry_bare : Bare markedEntry := by
  constructor
  · intro word member
    obtain rfl : word = "a".toList := by
      simpa [markedEntry, mkGenericCommand, argumentWords] using member
    apply bareWord_iff.mpr
    exact ⟨by decide, by decide, by decide, idRule, by simp [bareRules], by decide⟩
  · intro file named
    simp [markedEntry] at named

theorem rereads_iff_marked :
    ∃ answer left holders, Returns plainWorld (markedLine.tokens ++ [.endTok]) answer left ∧
      answer.retCmds = some holders ∧
      (Rereads ⟨plainWorld.env, plainWorld.realpath, plainWorld.maxDepth⟩ holders ↔
        Faithful ⟨plainWorld.env, plainWorld.realpath, plainWorld.maxDepth⟩
          (commandsOf holders)) := by
  have returns : Returns plainWorld (markedLine.tokens ++ [.endTok])
      ⟨some [markedEntry, eocHolder], false⟩ [.endTok] := ⟨60, 0, rfl⟩
  have commands : commandsOf [markedEntry, eocHolder] = [markedEntry] := rfl
  have scanned : ∀ token ∈ markedLine.body, FromScanner token := by
    have word := scansAs_bare (markedEntry_bare.words "a".toList List.mem_cons_self).bareText
    have mark : ScansAs "&".toList .bckgrnd := scansAs_printedOperator (by decide)
    intro token member
    rcases List.mem_pair.mp member with rfl | rfl
    · exact ⟨_, _, word.scans []⟩
    · exact ⟨_, _, mark.scans []⟩
  refine ⟨_, _, _, returns, rfl, rereads_iff plainWorld scanned returns rfl ?_ ?_ _ _⟩
  · rw [commands, List.forall_mem_singleton]
    exact markedEntry_bare
  · rw [commands, List.forall_mem_singleton]
    exact ⟨rfl, rfl⟩

/-- The line `pwd`. -/
def pwdLine : Line := .ended [.pwdTok] (by decide)

/-- The text of `pwd` is read as the command `PWD`. -/
theorem rereads_fails :
    ∃ answer left holders, (∀ token ∈ pwdLine.body, FromScanner token) ∧
      Returns plainWorld (pwdLine.tokens ++ [.endTok]) answer left ∧
      answer.retCmds = some holders ∧
      (∀ entry ∈ commandsOf holders, Bare entry ∧ Effective entry) ∧
      ¬ Rereads plainWorld holders := by
  have returns : Returns plainWorld (pwdLine.tokens ++ [.endTok])
      ⟨some [⟨none, none, 0#8, mkPwdCommand⟩, eocHolder], false⟩ [.endTok] := ⟨60, 0, rfl⟩
  have pwd : ScansAs "pwd".toList .pwdTok :=
    scansAs_name rfl (by decide) (by decide) (by decide)
  have bare : Bare ⟨none, none, 0#8, mkPwdCommand⟩ := by
    constructor
    · intro word member
      cases member
    · intro file named
      rcases named with named | named <;> cases named
  have effective : Effective ⟨none, none, 0#8, mkPwdCommand⟩ := ⟨rfl, rfl⟩
  have printable : Printable ⟨none, none, 0#8, mkPwdCommand⟩ := by
    refine ⟨.inl rfl, ?_, ?_, ?_⟩ <;> intro set <;> cases set
  refine ⟨_, _, _, ?_, returns, rfl, ?_, ?_⟩
  · exact List.forall_mem_singleton.mpr ⟨_, _, pwd.scans []⟩
  · have commands : commandsOf [⟨none, none, 0#8, mkPwdCommand⟩, eocHolder] =
        [⟨none, none, 0#8, mkPwdCommand⟩] := rfl
    rw [commands, List.forall_mem_singleton]
    exact ⟨bare, effective⟩
  · have rereadable : ∀ entry ∈ [(⟨none, none, 0#8, mkPwdCommand⟩ : CommandHolder)],
        Rereadable entry :=
      List.forall_mem_singleton.mpr ⟨printable, trivial, bare, effective⟩
    exact not_rereads rereadable List.mem_cons_self (by decide)

end QuashLabs.Quash.Parsing
