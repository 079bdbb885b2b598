import Mathlib.Data.List.Forall2
import QuashLabs.Quash.Parsing.Listing
import QuashLabs.Quash.Parsing.Rescanning

/-!
# The pipeline of a text

The text of a script whose words are bare is the text of another pipeline: each command
with its arguments, the active redirections, and the mark for the background behind the
last command. A `cd` without a directory ends the text.
-/

namespace QuashLabs.Quash.Parsing

open QuashLabs.Lexing Scanner

variable {world : World} {holder : CommandHolder}

/-! ## The pipeline of the text -/

/-- The first string of a bare word. -/
def bareFirst (text : CStr) : FirstString :=
  if Matches number text then .num text
  else if Matches Scanner.id text then .id text
  else .simStr text

theorem bareFirst_token (text : CStr) : (bareFirst text).token = bareToken text := by
  unfold bareFirst bareToken
  split
  · rfl
  · split <;> rfl

theorem bareFirst_eval (text : CStr) : (bareFirst text).eval world = .ok text := by
  unfold bareFirst
  split
  · rfl
  · split <;> rfl

/-- The word of a bare word. -/
def bareWord (text : CStr) : Word := .first (bareFirst text)

theorem bareWord_token (text : CStr) : (bareWord text).token = bareToken text :=
  bareFirst_token text

theorem bareWord_eval (text : CStr) : (bareWord text).eval world = .ok text :=
  bareFirst_eval text

/-- The command that the text of a command is read as. -/
def readContent : Command → Content
  | .generic .echo args => .echo ((listed args).map bareWord)
  | .generic _ args =>
      match listed args with
      | [] => .echo []
      | word :: words => .command (bareFirst word) (words.map bareWord)
  | .cd none => .cdAlone
  | .cd (some dir) => .cd (bareWord dir)
  | .kill _ _ sig job => .kill sig job
  | .export_ envVar val => .exportVar envVar (bareWord val)
  | .simple type => .command (bareFirst (printedName type)) []

/-- The redirections that the text of an entry has. -/
def readRedirs (holder : CommandHolder) : List (Mark × Word) :=
  (holder.redirectIn.toList.map fun file => (.redirIn, bareWord file)) ++
    holder.redirectOut.toList.map fun file =>
      (if holder.has Flags.redirectAppend then .redirOutApp else .redirOut, bareWord file)

/-- The stage that the text of an entry is read as. -/
def readStage (background : Bool) (holder : CommandHolder) : Stage :=
  ⟨readContent holder.cmd, readRedirs holder, background⟩

/-- The pipeline that the text of entries is read as. Nothing of the text stands behind a
`cd` without a directory. -/
def reread (background : Bool) : CommandHolder → List CommandHolder → Pipeline
  | holder, [] =>
      if holder.cmd = .cd none then ⟨⟨.cdAlone, [], false⟩, []⟩
      else ⟨readStage background holder, []⟩
  | holder, next :: later =>
      if holder.cmd = .cd none then ⟨⟨.cdAlone, [], false⟩, []⟩
      else ⟨readStage false holder, (reread background next later).stages⟩

/-! ## Words of an entry -/

/-- The arguments of a command. -/
def argumentWords : Command → List (Option CStr)
  | .simple _ => []
  | .generic _ args => args.takeWhile Option.isSome
  | .export_ envVar val => [some envVar, some val]
  | .cd dir => [dir]
  | .kill _ _ sigStr jobStr => [some sigStr, some jobStr]

/-- The arguments and the file names are bare words. -/
structure Bare (holder : CommandHolder) : Prop where
  words : ∀ word, some word ∈ argumentWords holder.cmd → BareWord word
  files : ∀ file, holder.redirectIn = some file ∨ holder.redirectOut = some file → BareWord file

/-- The entry has the names of the files of its active redirections only. -/
structure Effective (holder : CommandHolder) : Prop where
  input : holder.redirectIn.isSome = holder.has Flags.redirectIn
  output : holder.redirectOut.isSome = holder.has Flags.redirectOut

/-- What the actions make of the tokens of the scanner: a command has a word, and a `kill`
the numbers of its numerals. -/
def AsTyped : Command → Prop
  | .generic .generic args => listed args ≠ []
  | .kill sig job sigStr jobStr =>
      Command.kill sig job sigStr jobStr = mkKillCommand sigStr jobStr ∧
        Matches number sigStr ∧ Matches number jobStr
  | _ => True

/-- The types of the commands that are read again as they are. -/
def readable : List CommandType := [.generic, .echo, .kill, .cd]

/-- An entry of the scanner and the parser with bare words. -/
structure Rereadable (holder : CommandHolder) : Prop where
  printable : Printable holder
  typed : AsTyped holder.cmd
  bare : Bare holder
  effective : Effective holder

/-! ## Scanning -/

abbrev Scanned (words : List (Option CStr)) (tokens : List Token) : Prop :=
  List.Forall₂ ScansAs words.reduceOption tokens

theorem scanned_some {word : CStr} {words : List (Option CStr)} {token : Token}
    {tokens : List Token} (here : ScansAs word token) (later : Scanned words tokens) :
    Scanned (some word :: words) (token :: tokens) :=
  .cons here later

theorem Scanned.append {words words' : List (Option CStr)} {tokens tokens' : List Token}
    (first : Scanned words tokens) (second : Scanned words' tokens') :
    Scanned (words ++ words') (tokens ++ tokens') := by
  unfold Scanned
  rw [List.reduceOption_append]
  exact List.rel_append first second

theorem scansAs_word {text : CStr} (bare : BareWord text) : ScansAs text (bareWord text).token := by
  rw [bareWord_token]
  exact scansAs_bare bare.bareText

theorem scanned_words {words : List CStr} (bare : ∀ word ∈ words, BareWord word) :
    Scanned (words.map some) ((words.map bareWord).map Word.token) := by
  induction words with
  | nil => exact .nil
  | cons word words ih =>
      rw [List.forall_mem_cons] at bare
      exact scanned_some (scansAs_word bare.1) (ih bare.2)

theorem reduceOption_some (words : List CStr) : (words.map some).reduceOption = words := by
  simp [List.reduceOption]

theorem listed_words (words : List CStr) (more : List (Option CStr)) :
    listed (words.map some ++ none :: more) = words := by
  rw [listed, takeWhile_isSome, reduceOption_some]

/-- The commands of these types, as the actions make them. -/
theorem readable_cases {cmd : Command} (written : Written cmd) (typed : AsTyped cmd)
    (type : getCommandType cmd ∈ readable) :
    (∃ (word : CStr) (words : List CStr),
        cmd = .generic .generic ((word :: words).map some ++ [none])) ∨
      (∃ words : List CStr, cmd = .generic .echo (words.map some ++ [none])) ∨
        (∃ dir, cmd = .cd dir) ∨
        ∃ sigStr jobStr, cmd = mkKillCommand sigStr jobStr ∧ Matches number sigStr ∧
          Matches number jobStr := by
  cases cmd with
  | simple type' =>
      rcases written with rfl | rfl | rfl <;> simp [getCommandType, readable] at type
  | generic type' args =>
      rcases written with ⟨rfl | rfl, words, rfl⟩
      · rw [AsTyped, listed_words] at typed
        obtain ⟨word, words, rfl⟩ := List.exists_cons_of_ne_nil typed
        exact .inl ⟨word, words, rfl⟩
      · exact .inr (.inl ⟨words, rfl⟩)
  | export_ envVar val => simp [getCommandType, readable] at type
  | cd dir => exact .inr (.inr (.inl ⟨dir, rfl⟩))
  | kill sig job sigStr jobStr => exact .inr (.inr (.inr ⟨sigStr, jobStr, typed⟩))

theorem readContent_generic (word : CStr) (words : List CStr) :
    readContent (.generic .generic ((word :: words).map some ++ [none])) =
      .command (bareFirst word) (words.map bareWord) := by
  rw [readContent, listed_words]
  simp

theorem readContent_echo (words : List CStr) :
    readContent (.generic .echo (words.map some ++ [none])) = .echo (words.map bareWord) := by
  rw [readContent, listed_words]

/-- The words of a command are scanned as the command that the text is read as. -/
theorem scanned_command {cmd : Command} (written : Written cmd) (typed : AsTyped cmd)
    (bare : ∀ word, some word ∈ argumentWords cmd → BareWord word)
    (type : getCommandType cmd ∈ readable) (resolved : cmd ≠ .cd none) :
    Scanned (commandWords printedName cmd) (readContent cmd).tokens := by
  rcases readable_cases written typed type with
    ⟨word, words, rfl⟩ | ⟨words, rfl⟩ | ⟨dir, rfl⟩ | ⟨sigStr, jobStr, rfl, isSig, isJob⟩
  · simp only [argumentWords, commandWords, takeWhile_isSome] at bare ⊢
    rw [readContent_generic]
    exact scanned_words fun word' member => bare word' (List.mem_map_of_mem member)
  · simp only [argumentWords, commandWords, takeWhile_isSome] at bare ⊢
    rw [readContent_echo]
    apply scanned_some (scansAs_printedName (by decide))
    exact scanned_words fun word' member => bare word' (List.mem_map_of_mem member)
  · cases dir with
    | none => exact absurd rfl resolved
    | some dir =>
        apply scanned_some (scansAs_printedName (by decide))
        exact scanned_some (scansAs_word (bare dir List.mem_cons_self)) .nil
  · have sigToken := scansAs_bare (bare sigStr (by simp [argumentWords, mkKillCommand])).bareText
    have jobToken := scansAs_bare (bare jobStr (by simp [argumentWords, mkKillCommand])).bareText
    rw [bareToken, if_pos isSig] at sigToken
    rw [bareToken, if_pos isJob] at jobToken
    exact scanned_some (scansAs_printedName (by decide))
      (scanned_some sigToken (scanned_some jobToken .nil))

/-- The redirections of an entry are scanned as those that its text has. -/
theorem scanned_redirects (bare : Bare holder) (effective : Effective holder) :
    Scanned (redirectWords holder) (redirTokens (readRedirs holder)) := by
  have input := effective.input
  have output := effective.output
  have operatorIn : ScansAs "<".toList .redirIn := scansAs_printedOperator (by decide)
  have operatorOut : ScansAs ">".toList .redirOut := scansAs_printedOperator (by decide)
  have operatorApp : ScansAs ">>".toList .redirOutApp := scansAs_printedOperator (by decide)
  unfold redirectWords readRedirs redirTokens
  rw [List.flatMap_append]
  apply Scanned.append
  · rw [← input]
    cases file : holder.redirectIn with
    | none => exact .nil
    | some name =>
        have word := scansAs_word (bare.files name (.inl file))
        exact scanned_some operatorIn (scanned_some word .nil)
  · rw [← output]
    cases file : holder.redirectOut with
    | none => exact .nil
    | some name =>
        have word := scansAs_word (bare.files name (.inr file))
        cases holder.has Flags.redirectAppend with
        | true => exact scanned_some operatorApp (scanned_some word .nil)
        | false => exact scanned_some operatorOut (scanned_some word .nil)

theorem listed_append {words : List (Option CStr)} (all : ∀ word ∈ words, word.isSome = true)
    (more : List (Option CStr)) : listed (words ++ more) = words.reduceOption ++ listed more := by
  rw [listed, List.takeWhile_append_of_pos all, List.reduceOption_append, listed]

/-- Behind a `cd` without a directory nothing is listed. -/
theorem listed_severed (severed : holder.cmd = .cd none) (more : List (Option CStr)) :
    listed (holderWords printedName holder ++ more) = ["cd".toList] := by
  rw [holderWords, severed]
  rfl

theorem reread_severed (severed : holder.cmd = .cd none) (background : Bool)
    (later : List CommandHolder) :
    reread background holder later = ⟨⟨.cdAlone, [], false⟩, []⟩ := by
  cases later with
  | nil => rw [reread, if_pos severed]
  | cons next later => rw [reread, if_pos severed]

/-- The words of an entry and of what stands behind them. -/
theorem scanned_holder (rereadable : Rereadable holder)
    (type : getCommandHolderType holder ∈ readable) (resolved : holder.cmd ≠ .cd none)
    {more : List (Option CStr)} {tokens : List Token}
    (behind : List.Forall₂ ScansAs (listed (pipeWords holder ++ more)) tokens) :
    List.Forall₂ ScansAs (listed (holderWords printedName holder ++ more))
      ((readContent holder.cmd).tokens ++ redirTokens (readRedirs holder) ++ tokens) := by
  have all := holderWords_isSome rereadable.printable resolved printedName
  rw [holderWords, List.forall_mem_append, List.forall_mem_append] at all
  rw [holderWords, List.append_assoc, listed_append all.1, List.append_assoc, listed_append all.2.1,
    List.append_assoc]
  have command := scanned_command rereadable.printable.cmd rereadable.typed
    rereadable.bare.words type resolved
  have redirects := scanned_redirects rereadable.bare rereadable.effective
  exact List.rel_append command (List.rel_append redirects behind)

/-- The text of entries is scanned as the pipeline that it is read as. -/
theorem scanned_entries {first : Bool} {stages : List Stage} {later : List CommandHolder}
    (entries : Entries world first stages (holder :: later))
    (rereadable : ∀ entry ∈ holder :: later, Rereadable entry)
    (types : ∀ entry ∈ holder :: later, getCommandHolderType entry ∈ readable)
    (background : Bool) :
    List.Forall₂ ScansAs
      (listed ((holder :: later).flatMap (holderWords printedName) ++ backgroundWords background))
      (reread background holder later).tokens := by
  have cdAlone : List.Forall₂ ScansAs ["cd".toList] [.cdTok] :=
    .cons (scansAs_printedName (by decide)) .nil
  induction later generalizing holder first stages with
  | nil =>
      rw [List.forall_mem_singleton] at rereadable types
      rw [List.flatMap_singleton]
      by_cases severed : holder.cmd = .cd none
      · rw [listed_severed severed, reread_severed severed]
        exact cdAlone
      · rw [reread, if_neg severed]
        apply scanned_holder rereadable types severed
        have last : holder.has Flags.pipeOut = false := entries.pipeOut
        rw [pipeWords, last]
        cases background with
        | false => exact .nil
        | true => exact .cons (scansAs_printedOperator (by decide)) .nil
  | cons next later ih =>
      rw [List.forall_mem_cons] at rereadable types
      rw [List.flatMap_cons, List.append_assoc]
      by_cases severed : holder.cmd = .cd none
      · rw [listed_severed severed, reread_severed severed]
        exact cdAlone
      · have tokens : (reread background holder (next :: later)).tokens =
            (readContent holder.cmd).tokens ++ redirTokens (readRedirs holder) ++
              .pipe :: (reread background next later).tokens := by
          rw [reread, if_neg severed, Pipeline.tokens, Pipeline.stages, stageTokens, readStage,
            Stage.tokens]
          simp [Pipeline.tokens]
        rw [tokens]
        apply scanned_holder rereadable.1 types.1 severed
        have pipes : holder.has Flags.pipeOut = true := entries.pipeOut
        obtain ⟨stage, behind, -, -, others⟩ := entries.exists_stages
        rw [pipeWords, if_pos pipes]
        exact .cons (scansAs_printedOperator (by decide)) (ih others rereadable.2 types.2)

end QuashLabs.Quash.Parsing
