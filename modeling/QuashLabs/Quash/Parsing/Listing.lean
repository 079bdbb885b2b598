import Mathlib.Data.List.ReduceOption
import QuashLabs.Quash.Parsing.Arguments
import QuashLabs.Quash.Parsing.Stringify

/-!
# What the text of a script lists

The words of a script are those of its commands, redirections, pipes and the mark for
the background, in order. A pointer among them may be `NULL`: the directory of a `cd`
that could not be resolved. The text stops at the first such pointer, so it lists the
script exactly when no word stands behind one.
-/

namespace QuashLabs.Quash.Parsing

open QuashLabs.Bison QuashLabs.Checked

/-! ## Words -/

/-- The names of the builtins as the text has them. -/
def printedName : CommandType → CStr
  | .echo => "echo".toList
  | .export_ => "export".toList
  | .kill => "kill".toList
  | .cd => "cd".toList
  | .pwd => "PWD".toList
  | .jobs => "JOBS".toList
  | .exit => "EXIT".toList
  | .generic | .eoc => []

/-- The names of the builtins as they are typed. -/
def typedName : CommandType → CStr
  | .echo => "echo".toList
  | .export_ => "export".toList
  | .kill => "kill".toList
  | .cd => "cd".toList
  | .pwd => "pwd".toList
  | .jobs => "jobs".toList
  | .exit => "exit".toList
  | .generic | .eoc => []

/-- The words of a command, for a builtin its name and its arguments. -/
def commandWords (name : CommandType → CStr) : Command → List (Option CStr)
  | .simple type => [some (name type)]
  | .generic .echo args => some (name .echo) :: args.takeWhile Option.isSome
  | .generic _ args => args.takeWhile Option.isSome
  | .export_ envVar val => [some (name .export_), some envVar, some val]
  | .cd dir => [some (name .cd), dir]
  | .kill _ _ sigStr jobStr => [some (name .kill), some sigStr, some jobStr]

/-- The symbols of the active redirections, each followed by its file. -/
def redirectWords (holder : CommandHolder) : List (Option CStr) :=
  (if holder.has Flags.redirectIn then [some "<".toList, holder.redirectIn] else []) ++
    if holder.has Flags.redirectOut then
      [some (if holder.has Flags.redirectAppend then ">>".toList else ">".toList),
        holder.redirectOut]
    else []

/-- The pipe behind a command that pipes out. -/
def pipeWords (holder : CommandHolder) : List (Option CStr) :=
  if holder.has Flags.pipeOut then [some "|".toList] else []

/-- The words of an entry. -/
def holderWords (name : CommandType → CStr) (holder : CommandHolder) : List (Option CStr) :=
  commandWords name holder.cmd ++ (redirectWords holder ++ pipeWords holder)

/-- The commands of an array. -/
def commandsOf (holders : List CommandHolder) : List CommandHolder :=
  holders.takeWhile fun holder => getCommandHolderType holder ≠ .eoc

/-- The first command is in the background. -/
def inBackground (holders : List CommandHolder) : Bool :=
  (holders.head?.map fun first => first.has Flags.background).getD false

/-- The mark of a script in the background. -/
def backgroundWords (background : Bool) : List (Option CStr) :=
  if background then [some "&".toList] else []

/-- The words of a script. -/
def scriptWords (name : CommandType → CStr) (holders : List CommandHolder) : List (Option CStr) :=
  (commandsOf holders).flatMap (holderWords name) ++ backgroundWords (inBackground holders)

/-- `parse` sets `state->parsed_str` to the words of the script, each followed by a space.
A null pointer is not a word. -/
def Lists (name : CommandType → CStr) (holders : List CommandHolder) : Prop :=
  ∀ before, parse (some holders) before =
    .ok (some ((render (scriptWords name holders).reduceOption ++ ['\x00']).map some))

/-- A `cd` without a directory has no active redirection, does not pipe out and is not in
a script in the background. -/
def Unsevered (holders : List CommandHolder) : Prop :=
  ∀ holder ∈ commandsOf holders, holder.cmd = .cd none →
    redirectWords holder = [] ∧ pipeWords holder = [] ∧ inBackground holders = false

/-! ## The strings of a script -/

/-- The written members of a command are those of its type. -/
def Written : Command → Prop
  | .simple type => type = .pwd ∨ type = .jobs ∨ type = .exit
  | .generic type args => (type = .generic ∨ type = .echo) ∧
      ∃ words : List CStr, args = words.map some ++ [none]
  | _ => True

/-- An entry that `yyparse` makes. -/
structure Printable (holder : CommandHolder) : Prop where
  cmd : Written holder.cmd
  append : holder.has Flags.redirectAppend = true → holder.has Flags.redirectOut = true
  inName : holder.has Flags.redirectIn = true → holder.redirectIn ≠ none
  outName : holder.has Flags.redirectOut = true → holder.redirectOut ≠ none

theorem pushDup_eq (str : String) (strs : CmdStrs) :
    pushDup str strs = .ok (strs ++ [some str.toList]) := rfl

theorem pushArgs_eq (words : List CStr) (more : List (Option CStr)) (strs : CmdStrs) :
    pushArgs (words.map some ++ none :: more) strs = .ok (strs ++ words.map some) := by
  induction words generalizing strs with
  | nil => simp [pushArgs]
  | cons word words ih => simp [pushArgs, ih]

theorem takeWhile_isSome (words : List CStr) (more : List (Option CStr)) :
    (words.map some ++ none :: more).takeWhile Option.isSome = words.map some := by
  rw [List.takeWhile_append_of_pos (by simp), List.takeWhile_cons_of_neg (by simp),
    List.append_nil]

theorem stringifyCommand_eq {cmd : Command} (written : Written cmd) (strs : CmdStrs) :
    stringifyCommand cmd strs = .ok (strs ++ commandWords printedName cmd) := by
  cases cmd with
  | simple type => rcases written with rfl | rfl | rfl <;> rfl
  | generic type args =>
      rcases written with ⟨rfl | rfl, words, rfl⟩
      · simp only [commandWords, takeWhile_isSome]
        exact pushArgs_eq words [] strs
      · have pushed := pushArgs_eq words [] (strs ++ [some "echo".toList])
        simp only [commandWords, takeWhile_isSome]
        rw [List.append_assoc] at pushed
        exact pushed
  | export_ envVar val =>
      have name : printedName .export_ = "export".toList := rfl
      simp [stringifyCommand, getCommandType, stringifyExportCmd, pushDup_eq, commandWords, name]
  | cd dir =>
      have name : printedName .cd = "cd".toList := rfl
      simp [stringifyCommand, getCommandType, stringifyCdCmd, pushDup_eq, commandWords, name]
  | kill sig job sigStr jobStr =>
      have name : printedName .kill = "kill".toList := rfl
      simp [stringifyCommand, getCommandType, stringifyKillCmd, pushDup_eq, commandWords, name]

theorem stringifyHolder_eq {holder : CommandHolder} (printable : Printable holder)
    (strs : CmdStrs) :
    stringifyHolder holder strs = .ok (strs ++ holderWords printedName holder) := by
  rw [stringifyHolder, stringifyCommand_eq printable.cmd, ok_bind]
  simp only [holderWords, redirectWords, pipeWords]
  have append := printable.append
  revert append
  cases holder.has Flags.redirectIn <;> cases holder.has Flags.redirectAppend <;>
    cases holder.has Flags.redirectOut <;> cases holder.has Flags.pipeOut <;>
    simp [pushDup_eq]

theorem eocHolder_type : getCommandHolderType eocHolder = .eoc := rfl

/-- The commands of an array that `yyparse` returns. -/
theorem commandsOf_append {cmds : List CommandHolder}
    (proper : ∀ holder ∈ cmds, getCommandHolderType holder ≠ .eoc) :
    commandsOf (cmds ++ [eocHolder]) = cmds := by
  rw [commandsOf, List.takeWhile_append_of_pos (by simpa using proper),
    List.takeWhile_cons_of_neg (by simp [eocHolder_type]), List.append_nil]

theorem Printable.notEoc {holder : CommandHolder} (printable : Printable holder) :
    getCommandHolderType holder ≠ .eoc := by
  have written := printable.cmd
  unfold getCommandHolderType
  cases cmd : holder.cmd with
  | simple type =>
      rw [cmd] at written
      rcases written with rfl | rfl | rfl <;> simp [getCommandType]
  | generic type args =>
      rw [cmd] at written
      rcases written.1 with rfl | rfl <;> simp [getCommandType]
  | _ => simp [getCommandType]

theorem stringifyHolders_eq {cmds : List CommandHolder}
    (printable : ∀ holder ∈ cmds, Printable holder) (strs : CmdStrs) :
    stringifyHolders (cmds ++ [eocHolder]) strs =
      .ok (strs ++ cmds.flatMap (holderWords printedName)) := by
  induction cmds generalizing strs with
  | nil => simp [stringifyHolders, eocHolder_type]
  | cons holder cmds ih =>
      rw [List.forall_mem_cons] at printable
      rw [List.cons_append, stringifyHolders, if_neg printable.1.notEoc,
        stringifyHolder_eq printable.1, ok_bind, ih printable.2]
      simp

theorem stringifyScript_eq {cmds : List CommandHolder}
    (printable : ∀ holder ∈ cmds, Printable holder) :
    stringifyScript (cmds ++ [eocHolder]) [] =
      .ok (scriptWords printedName (cmds ++ [eocHolder]) ++ [none]) := by
  rw [stringifyScript, stringifyHolders_eq printable, scriptWords,
    commandsOf_append fun holder member => (printable holder member).notEoc, ok_bind]
  cases cmds with
  | nil => rfl
  | cons first cmds =>
      simp only [List.cons_append, inBackground, List.head?_cons, Option.map_some, Option.getD_some,
        backgroundWords]
      by_cases mark : first.has Flags.background = true <;> simp [mark, pushDup_eq]

/-! ## The first null pointer -/

/-- The strings before the first null pointer. -/
def listed (words : List (Option CStr)) : List CStr :=
  (words.takeWhile Option.isSome).reduceOption

/-- The strings behind the first null pointer. -/
def severed (words : List (Option CStr)) : List CStr :=
  (words.dropWhile Option.isSome).reduceOption

theorem listed_append_severed (words : List (Option CStr)) :
    listed words ++ severed words = words.reduceOption := by
  rw [listed, severed, ← List.reduceOption_append, List.takeWhile_append_dropWhile]

/-- Strings without a null pointer sever nothing. -/
theorem severed_append {words : List (Option CStr)} (all : ∀ word ∈ words, word.isSome = true)
    (more : List (Option CStr)) : severed (words ++ more) = severed more := by
  rw [severed, List.dropWhile_append_of_pos all, severed]

/-- The buffer holds the strings before the first null pointer. -/
theorem condenseStringArray_append (words : List (Option CStr)) :
    condenseStringArray (words ++ [none]) = .ok ((render (listed words) ++ ['\x00']).map some) := by
  have split : ∃ more, words ++ [none] = (listed words).map some ++ none :: more := by
    induction words with
    | nil => exact ⟨[], rfl⟩
    | cons word words ih =>
        cases word with
        | none => exact ⟨words ++ [none], rfl⟩
        | some word =>
            rcases ih with ⟨more, same⟩
            exact ⟨more, by simp [listed, same]⟩
  rcases split with ⟨more, same⟩
  rw [same, condenseStringArray_eq]

/-- `parse` sets the text to the strings before the first null pointer. -/
theorem parse_eq {cmds : List CommandHolder} (printable : ∀ holder ∈ cmds, Printable holder)
    (before : Option Buffer) :
    parse (some (cmds ++ [eocHolder])) before = .ok (some ((render (listed
      (scriptWords printedName (cmds ++ [eocHolder]))) ++ ['\x00']).map some)) := by
  simp only [parse, stringifyScript_eq printable, ok_bind, condenseStringArray_append]
  rfl

/-! ## When the text lists the script -/

theorem render_eq_nil {words : List CStr} : render words = [] ↔ words = [] := by
  cases words <;> simp

theorem lists_iff {name : CommandType → CStr} {cmds : List CommandHolder}
    (printable : ∀ holder ∈ cmds, Printable holder) :
    Lists name (cmds ++ [eocHolder]) ↔
      render (listed (scriptWords printedName (cmds ++ [eocHolder]))) =
        render (scriptWords name (cmds ++ [eocHolder])).reduceOption := by
  simp only [Lists, parse_eq printable, Except.ok.injEq, Option.some.injEq, forall_const,
    List.map_inj_right fun _ _ => Option.some.inj, List.append_cancel_right_eq]

theorem commandWords_isSome {cmd : Command} (written : Written cmd) (resolved : cmd ≠ .cd none)
    (name : CommandType → CStr) : ∀ word ∈ commandWords name cmd, word.isSome = true := by
  cases cmd with
  | simple type => simp [commandWords]
  | generic type args =>
      rcases written with ⟨rfl | rfl, words, rfl⟩ <;>
        simp [commandWords]
  | export_ envVar val => simp [commandWords]
  | cd dir =>
      cases dir with
      | none => exact absurd rfl resolved
      | some dir => simp [commandWords]
  | kill sig job sigStr jobStr => simp [commandWords]

/-- No word of an entry is a null pointer unless it is a `cd` without a directory. -/
theorem holderWords_isSome {holder : CommandHolder} (printable : Printable holder)
    (resolved : holder.cmd ≠ .cd none) (name : CommandType → CStr) :
    ∀ word ∈ holderWords name holder, word.isSome = true := by
  have inName := printable.inName
  have outName := printable.outName
  rw [← Option.isSome_iff_ne_none] at inName outName
  rw [holderWords, List.forall_mem_append, List.forall_mem_append]
  refine ⟨commandWords_isSome printable.cmd resolved name, ?_, ?_⟩
  · unfold redirectWords
    split <;> split <;> simp_all
  · unfold pipeWords
    split <;> simp

theorem redirectWords_eq_nil {holder : CommandHolder} :
    (redirectWords holder).reduceOption = [] ↔ redirectWords holder = [] := by
  unfold redirectWords
  split <;> split <;> simp

theorem pipeWords_eq_nil {holder : CommandHolder} :
    (pipeWords holder).reduceOption = [] ↔ pipeWords holder = [] := by
  unfold pipeWords
  split <;> simp

/-- What stands behind the first null pointer. -/
theorem severed_eq_nil_iff {world : World} {first : Bool} {stages : List Stage}
    {cmds : List CommandHolder} (entries : Entries world first stages cmds)
    (printable : ∀ holder ∈ cmds, Printable holder) (background : Bool) :
    severed (cmds.flatMap (holderWords printedName) ++ backgroundWords background) = [] ↔
      ∀ holder ∈ cmds, holder.cmd = .cd none →
        redirectWords holder = [] ∧ pipeWords holder = [] ∧ background = false := by
  induction entries using Entries.along with
  | nil first => cases background <;> simp [backgroundWords, severed]
  | cons first stage later holder cmds entry others ih =>
      rw [List.forall_mem_cons] at printable ⊢
      rw [← ih printable.2, List.flatMap_cons, List.append_assoc]
      by_cases cut : holder.cmd = .cd none
      · have split : holderWords printedName holder =
            [some "cd".toList, none] ++ (redirectWords holder ++ pipeWords holder) := by
          rw [holderWords, cut]
          rfl
        have behind : severed (holderWords printedName holder ++
            (cmds.flatMap (holderWords printedName) ++ backgroundWords background)) =
            (redirectWords holder).reduceOption ++ ((pipeWords holder).reduceOption ++
              ((cmds.flatMap (holderWords printedName)).reduceOption ++
                (backgroundWords background).reduceOption)) := by
          rw [split]
          simp [severed, List.reduceOption_append]
        have last : pipeWords holder = [] → cmds = [] := by
          intro none
          cases cmds with
          | nil => rfl
          | cons next cmds =>
              have piped := entry.pipeOut
              rw [others.isEmpty] at piped
              simp [pipeWords, piped] at none
        rw [behind]
        simp only [List.append_eq_nil_iff, redirectWords_eq_nil, pipeWords_eq_nil]
        constructor
        · rintro ⟨redirect, pipe, -, mark⟩
          obtain rfl := last pipe
          cases background with
          | false => exact ⟨fun _ => ⟨redirect, pipe, rfl⟩, rfl⟩
          | true => cases mark
        · rintro ⟨here, -⟩
          rcases here cut with ⟨redirect, pipe, rfl⟩
          obtain rfl := last pipe
          exact ⟨redirect, pipe, rfl, rfl⟩
      · rw [severed_append (holderWords_isSome printable.1 cut printedName)]
        simp [cut]

/-- The commands that the text names in capitals. -/
def capitals : List CommandType := [.pwd, .jobs, .exit]

/-- The names in capitals are not those that are typed, though equally long. -/
theorem typedName_capital {type : CommandType} (capital : type ∈ capitals) :
    typedName type ≠ printedName type ∧ (typedName type).length = (printedName type).length := by
  simp only [capitals, List.mem_cons, List.not_mem_nil, or_false] at capital
  rcases capital with rfl | rfl | rfl
  · change "pwd".toList ≠ "PWD".toList ∧ "pwd".toList.length = "PWD".toList.length
    simp
  · change "jobs".toList ≠ "JOBS".toList ∧ "jobs".toList.length = "JOBS".toList.length
    simp
  · change "exit".toList ≠ "EXIT".toList ∧ "exit".toList.length = "EXIT".toList.length
    simp

/-- Names other than those in capitals are printed as they are typed. -/
theorem commandWords_typedName {cmd : Command} (plain : getCommandType cmd ∉ capitals)
    (written : Written cmd) : commandWords typedName cmd = commandWords printedName cmd := by
  have echo : typedName .echo = printedName .echo := rfl
  have export_ : typedName .export_ = printedName .export_ := rfl
  have cd : typedName .cd = printedName .cd := rfl
  have kill : typedName .kill = printedName .kill := rfl
  cases cmd with
  | simple type => exact absurd (by simpa [capitals, getCommandType, Written] using written) plain
  | generic type args => rcases written.1 with rfl | rfl <;> simp only [commandWords, echo]
  | export_ envVar val => simp only [commandWords, export_]
  | cd dir => simp only [commandWords, cd]
  | kill sig job sigStr jobStr => simp only [commandWords, kill]

theorem holderWords_typedName {holder : CommandHolder}
    (plain : getCommandHolderType holder ∉ capitals) (printable : Printable holder) :
    holderWords typedName holder = holderWords printedName holder := by
  rw [holderWords, holderWords, commandWords_typedName plain printable.cmd]

/-- A command that is named in capitals has no other words. -/
theorem cmd_of_capital {holder : CommandHolder}
    (capital : getCommandHolderType holder ∈ capitals) (printable : Printable holder) :
    holder.cmd = .simple (getCommandHolderType holder) := by
  have written := printable.cmd
  unfold getCommandHolderType at capital ⊢
  cases cmd : holder.cmd with
  | simple type => rfl
  | generic type args =>
      rw [cmd] at capital written
      rcases written.1 with rfl | rfl <;> simp [getCommandType, capitals] at capital
  | _ =>
      rw [cmd] at capital
      simp [getCommandType, capitals] at capital

/-- The text of one entry with both names. -/
theorem length_render_holderWords {holder : CommandHolder} (printable : Printable holder) :
    (render (holderWords typedName holder).reduceOption).length =
      (render (holderWords printedName holder).reduceOption).length := by
  by_cases capital : getCommandHolderType holder ∈ capitals
  · simp [holderWords, cmd_of_capital capital printable, commandWords, List.reduceOption,
      (typedName_capital capital).2]
  · rw [holderWords_typedName capital printable]

/-- A text in which a name in capitals is printed is not the one with typed names. -/
theorem render_typedName_ne {holder : CommandHolder}
    (capital : getCommandHolderType holder ∈ capitals) (printable : Printable holder) :
    render (holderWords typedName holder).reduceOption ≠
      render (holderWords printedName holder).reduceOption := by
  intro same
  rw [holderWords, holderWords, cmd_of_capital capital printable] at same
  simp only [commandWords, List.reduceOption, List.cons_append, List.filterMap_cons, id_eq,
    List.nil_append, render_cons] at same
  exact (typedName_capital capital).1 (List.append_inj same (typedName_capital capital).2).1

/-- The entries are printed as they are typed exactly when no name is in capitals. -/
theorem render_typedName_iff {cmds : List CommandHolder}
    (printable : ∀ holder ∈ cmds, Printable holder) :
    render (cmds.flatMap (holderWords printedName)).reduceOption =
        render (cmds.flatMap (holderWords typedName)).reduceOption ↔
      ∀ holder ∈ cmds, getCommandHolderType holder ∉ capitals := by
  induction cmds with
  | nil => simp
  | cons holder cmds ih =>
      rw [List.forall_mem_cons] at printable ⊢
      rw [← ih printable.2]
      simp only [List.flatMap_cons, List.reduceOption_append, render_append]
      constructor
      · intro same
        rcases List.append_inj same (length_render_holderWords printable.1).symm with
          ⟨here, later⟩
        exact ⟨fun capital => render_typedName_ne capital printable.1 here.symm, later⟩
      · rintro ⟨plain, later⟩
        rw [holderWords_typedName plain printable.1, later]

theorem length_render_flatMap {cmds : List CommandHolder}
    (printable : ∀ holder ∈ cmds, Printable holder) :
    (render (cmds.flatMap (holderWords typedName)).reduceOption).length =
      (render (cmds.flatMap (holderWords printedName)).reduceOption).length := by
  induction cmds with
  | nil => rw [List.flatMap_nil, List.flatMap_nil]
  | cons holder cmds ih =>
      rw [List.forall_mem_cons] at printable
      simp [List.reduceOption_append, length_render_holderWords printable.1, ih printable.2]

section Array

variable {world : World} {first : Bool} {stages : List Stage} {cmds : List CommandHolder}

/-- The text lists the words under the names that it prints. -/
theorem lists_printedName_iff (entries : Entries world first stages cmds)
    (printable : ∀ holder ∈ cmds, Printable holder) :
    Lists printedName (cmds ++ [eocHolder]) ↔ Unsevered (cmds ++ [eocHolder]) := by
  have commands := commandsOf_append fun holder member => (printable holder member).notEoc
  rw [lists_iff printable, ← listed_append_severed, render_append, List.self_eq_append_right,
    render_eq_nil, scriptWords, Unsevered, commands]
  exact severed_eq_nil_iff entries printable _

/-- The text lists the words under the names that were typed. -/
theorem lists_typedName_iff (entries : Entries world first stages cmds)
    (printable : ∀ holder ∈ cmds, Printable holder) :
    Lists typedName (cmds ++ [eocHolder]) ↔ Unsevered (cmds ++ [eocHolder]) ∧
      ∀ holder ∈ commandsOf (cmds ++ [eocHolder]), getCommandHolderType holder ∉ capitals := by
  have commands := commandsOf_append fun holder member => (printable holder member).notEoc
  have text : ∀ name, (scriptWords name (cmds ++ [eocHolder])).reduceOption =
      (cmds.flatMap (holderWords name)).reduceOption ++
        (backgroundWords (inBackground (cmds ++ [eocHolder]))).reduceOption := by
    intro name
    rw [scriptWords, commands, List.reduceOption_append]
  have whole := listed_append_severed (scriptWords printedName (cmds ++ [eocHolder]))
  rw [← lists_printedName_iff entries printable, commands, ← render_typedName_iff printable,
    lists_iff printable, lists_iff printable]
  constructor
  · intro same
    have lengths := congrArg List.length same
    have printed : render (listed (scriptWords printedName (cmds ++ [eocHolder]))) =
        render (scriptWords printedName (cmds ++ [eocHolder])).reduceOption := by
      have total := congrArg (fun words => (render words).length) whole
      simp only [render_append, List.length_append, text, length_render_flatMap printable]
        at total lengths
      have severs := List.eq_nil_of_length_eq_zero (Nat.left_eq_add.mp (lengths.trans total.symm))
      rw [← whole, render_append, severs, List.append_nil]
    refine ⟨printed, ?_⟩
    rw [printed, text, text, render_append, render_append] at same
    exact List.append_cancel_right same
  · rintro ⟨printed, names⟩
    rw [printed, text, text, render_append, render_append, names]

end Array

/-! ## What `yyparse` returns -/

/-- The actions write the members of a command that its type has. -/
theorem written_of_eval {world : World} (content : Content) {cmd : Command}
    (evaluates : content.eval world = .ok cmd) : Written cmd := by
  cases content with
  | command head args =>
      obtain ⟨words, -, rfl⟩ := eval_listed evaluates rfl
      exact ⟨.inl rfl, words, rfl⟩
  | echo args =>
      obtain ⟨words, -, rfl⟩ := eval_listed evaluates rfl
      exact ⟨.inr rfl, words, rfl⟩
  | exportVar name val =>
      rcases bind_eq_ok.1 evaluates with ⟨_, -, evaluates⟩
      obtain rfl := Except.ok.inj evaluates
      trivial
  | cdAlone =>
      rcases bind_eq_ok.1 evaluates with ⟨_, -, evaluates⟩
      obtain rfl := Except.ok.inj evaluates
      trivial
  | cd dir =>
      rcases bind_eq_ok.1 evaluates with ⟨_, -, evaluates⟩
      obtain rfl := Except.ok.inj evaluates
      trivial
  | pwd =>
      obtain rfl := Except.ok.inj evaluates
      exact .inl rfl
  | jobs =>
      obtain rfl := Except.ok.inj evaluates
      exact .inr (.inl rfl)
  | exit text =>
      obtain rfl := Except.ok.inj evaluates
      exact .inr (.inr rfl)
  | kill sig job =>
      obtain rfl := Except.ok.inj evaluates
      trivial

/-- The entries of stages can be printed. -/
theorem Entries.printable {world : World} {first : Bool} {stages : List Stage}
    {cmds : List CommandHolder} (entries : Entries world first stages cmds) :
    ∀ holder ∈ cmds, Printable holder := by
  induction entries using Entries.along with
  | nil first => exact fun _ member => absurd member List.not_mem_nil
  | cons first stage later holder cmds entry _ ih =>
      rw [List.forall_mem_cons]
      exact ⟨⟨written_of_eval _ entry.cmd, entry.append, entry.inName, entry.outName⟩, ih⟩

/-- An array that `yyparse` returns for a line is the value of a pipeline. -/
theorem eval_of_returns {world : World} {line : Line} {rest left : List Token}
    {answer : Answer} {holders : List CommandHolder}
    (returns : Returns world (line.tokens ++ rest) answer left)
    (array : answer.retCmds = some holders) :
    ∃ (pipeline : Pipeline) (cmds : List CommandHolder), holders = cmds ++ [eocHolder] ∧
      line.body = pipeline.tokens ∧ pipeline.eval world = .ok cmds := by
  rcases line_call world line with ⟨result, call, fuel, runs⟩
  rcases returns with ⟨fuel', status, returns⟩
  have same := (parser world).yyparse_unique (runs rest) returns
  cases call with
  | exhausted => cases same
  | failed reason => cases same
  | commands pipeline cmds body evaluates =>
      cases same
      exact ⟨pipeline, cmds, (Option.some.inj array).symm, body, evaluates⟩
  | nothing status other =>
      cases same
      cases array

/-- An array that `yyparse` returns for a line holds the entries of a pipeline. -/
theorem entries_of_returns {world : World} {line : Line} {rest left : List Token}
    {answer : Answer} {holders : List CommandHolder}
    (returns : Returns world (line.tokens ++ rest) answer left)
    (array : answer.retCmds = some holders) :
    ∃ (pipeline : Pipeline) (cmds : List CommandHolder), holders = cmds ++ [eocHolder] ∧
      Entries world true pipeline.stages cmds := by
  rcases eval_of_returns returns array with ⟨pipeline, cmds, same, -, evaluates⟩
  exact ⟨pipeline, cmds, same, entries_of_stages _ _ evaluates⟩

/-- The text that `parse` sets for an array of `yyparse` lists the words of the script, each
followed by a space, exactly when no word stands behind a `cd` without a directory; it has
the typed names of the builtins exactly when in addition none is `pwd`, `jobs` or `exit`. -/
theorem parse_lists_iff (world : World) (line : Line) (rest : List Token) {answer : Answer}
    {left : List Token} {holders : List CommandHolder}
    (returns : Returns world (line.tokens ++ rest) answer left)
    (array : answer.retCmds = some holders) :
    (Lists printedName holders ↔ Unsevered holders) ∧
      (Lists typedName holders ↔ Unsevered holders ∧
        ∀ holder ∈ commandsOf holders, getCommandHolderType holder ∉ capitals) := by
  rcases entries_of_returns returns array with ⟨pipeline, cmds, rfl, entries⟩
  exact ⟨lists_printedName_iff entries entries.printable,
    lists_typedName_iff entries entries.printable⟩

theorem parse_lists_iff_two :
    ∃ answer left holders, Returns plainWorld (twoStagesLine.tokens ++ [.endTok]) answer left ∧
      answer.retCmds = some holders ∧ (Lists printedName holders ↔ Unsevered holders) ∧
        (Lists typedName holders ↔ Unsevered holders ∧
          ∀ holder ∈ commandsOf holders, getCommandHolderType holder ∉ capitals) := by
  have returns : Returns plainWorld (twoStagesLine.tokens ++ [.endTok]) _ [.endTok] :=
    ⟨60, 0, rfl⟩
  exact ⟨_, _, _, returns, rfl, parse_lists_iff plainWorld twoStagesLine [.endTok] returns rfl⟩

/-- The line `cd a > b`. -/
def cdLine : Line :=
  .ended [.cdTok, .id "a".toList, .redirOut, .id "b".toList] (by decide)

/-- Where the directory does not exist, the text of this line ends behind `cd`. -/
theorem parse_lists_fails :
    ∃ answer left holders,
      Returns { plainWorld with realpath := fun _ => none } (cdLine.tokens ++ [.endTok]) answer
          left ∧
        answer.retCmds = some holders ∧
        parse (some holders) none = .ok (some ("cd \x00".toList.map some)) ∧
        ¬ Lists printedName holders ∧ ¬ Lists typedName holders := by
  refine ⟨_, [.endTok], _, ⟨60, 0, rfl⟩, rfl, rfl, ?_, ?_⟩
  · intro lists
    have := lists none
    revert this
    decide
  · intro lists
    have := lists none
    revert this
    decide

end QuashLabs.Quash.Parsing
