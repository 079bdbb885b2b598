import QuashLabs.Quash.Parsing.Session

/-!
# The entries of a pipeline

The array for a line holds one entry for each command of the pipeline. Its flags are
set in two places: a stage sets those for its redirections and its mark, and joining
a stage to the stages behind it corrects two neighbours. The invariant of the joins
says what is right for the stages joined so far.
-/

namespace QuashLabs.Quash.Parsing

open QuashLabs.Checked

/-- The stage has a redirection of its input. -/
def Stage.hasInput (stage : Stage) : Bool := stage.redirs.any fun redir => redir.1 == .redirIn

/-- The stage has a redirection of its output. -/
def Stage.hasOutput (stage : Stage) : Bool := stage.redirs.any fun redir => redir.1 != .redirIn

/-- The stages of a pipeline. -/
def Pipeline.stages (pipeline : Pipeline) : List Stage := pipeline.first :: pipeline.rest

/-- The entry of a stage, which is the first of its line or not, in front of the stages
`later`. -/
structure Entry (world : World) (first : Bool) (stage : Stage) (later : List Stage)
    (entry : CommandHolder) : Prop where
  cmd : stage.content.eval world = .ok entry.cmd
  pipeOut : entry.has Flags.pipeOut = !later.isEmpty
  pipeIn : entry.has Flags.pipeIn = !first
  redirectIn : entry.has Flags.redirectIn = (first && stage.hasInput)
  redirectOut : entry.has Flags.redirectOut = (later.isEmpty && stage.hasOutput)
  append : entry.has Flags.redirectAppend = true → entry.has Flags.redirectOut = true
  inName : entry.has Flags.redirectIn = true → entry.redirectIn ≠ none
  outName : entry.has Flags.redirectOut = true → entry.redirectOut ≠ none
  background : entry.has Flags.background = (stage.background || later.any Stage.background)

/-- The entries of stages. -/
def Entries (world : World) : Bool → List Stage → List CommandHolder → Prop
  | _, [], [] => True
  | first, stage :: later, entry :: entries =>
      Entry world first stage later entry ∧ Entries world false later entries
  | _, _, _ => False

variable {world : World}

/-- Induction along the stages and their entries. -/
@[elab_as_elim]
theorem Entries.along
    {motive : ∀ first stages entries, Entries world first stages entries → Prop}
    (nil : ∀ first, motive first [] [] trivial)
    (cons : ∀ first stage later entry entries (here : Entry world first stage later entry)
      (others : Entries world false later entries), motive false later entries others →
        motive first (stage :: later) (entry :: entries) ⟨here, others⟩)
    {first : Bool} {stages : List Stage} {entries : List CommandHolder}
    (holds : Entries world first stages entries) : motive first stages entries holds := by
  induction stages generalizing first entries with
  | nil =>
      cases entries with
      | nil => exact nil first
      | cons entry entries => exact holds.elim
  | cons stage later ih =>
      cases entries with
      | nil => exact holds.elim
      | cons entry entries => exact cons _ _ _ _ _ holds.1 holds.2 (ih holds.2)

/-- The stages of an entry and of those behind it. -/
theorem Entries.exists_stages {first : Bool} {stages : List Stage} {entry : CommandHolder}
    {entries : List CommandHolder} (holds : Entries world first stages (entry :: entries)) :
    ∃ stage later, stages = stage :: later ∧ Entry world first stage later entry ∧
      Entries world false later entries := by
  cases stages with
  | nil => exact holds.elim
  | cons stage later => exact ⟨stage, later, rfl, holds.1, holds.2⟩

theorem Entries.isEmpty {first : Bool} {stages : List Stage} {entries : List CommandHolder}
    (holds : Entries world first stages entries) : stages.isEmpty = entries.isEmpty := by
  induction holds using Entries.along with
  | nil first => rfl
  | cons first stage later entry entries _ _ _ => rfl

/-- An entry has a pipe behind it where another entry stands there. -/
theorem Entries.pipeOut {first : Bool} {stages : List Stage} {entry : CommandHolder}
    {entries : List CommandHolder} (holds : Entries world first stages (entry :: entries)) :
    entry.has Flags.pipeOut = !entries.isEmpty := by
  obtain ⟨stage, later, rfl, here, others⟩ := holds.exists_stages
  rw [here.pipeOut, others.isEmpty]

/-! ## Redirections -/

/-- What redirections leave: a file for each kind that occurs, and the mark for appending
only with a file. -/
theorem evalRedirs_spec (redirs : List (Mark × Word)) {redir : Redirect}
    (evaluates : evalRedirs world redirs = .ok redir) :
    redir.inFile.isSome = redirs.any (fun redir => redir.1 == .redirIn) ∧
      redir.outFile.isSome = redirs.any (fun redir => redir.1 != .redirIn) ∧
      (redir.append = true → redir.outFile.isSome = true) := by
  induction redirs generalizing redir with
  | nil =>
      obtain rfl := Except.ok.inj evaluates
      simp [mkRedirect]
  | cons head redirs ih =>
      rcases head with ⟨mark, word⟩
      rw [evalRedirs_cons] at evaluates
      rcases bind_eq_ok.1 evaluates with ⟨name, -, evaluates⟩
      rcases bind_eq_ok.1 evaluates with ⟨behind, before, evaluates⟩
      obtain rfl := Except.ok.inj evaluates
      rcases ih before with ⟨input, output, append⟩
      cases mark with
      | redirIn => exact ⟨rfl, output, append⟩
      | redirOut => exact ⟨input, rfl, fun _ => rfl⟩
      | redirOutApp => exact ⟨input, rfl, fun _ => rfl⟩

/-! ## Flags -/

/-- The flags of a stage. -/
theorem cmdTop_flags (content : Command) (redir : Redirect) (bg : Int) :
    let entry := cmdTop content redir bg
    entry.has Flags.pipeOut = false ∧ entry.has Flags.pipeIn = false ∧
      entry.has Flags.redirectIn = redir.inFile.isSome ∧
      entry.has Flags.redirectOut = redir.outFile.isSome ∧
      entry.has Flags.redirectAppend = redir.append ∧
      entry.has Flags.background = decide (bg ≠ 0) := by
  rcases redir with ⟨inFile, outFile, append⟩
  by_cases bg : bg ≠ 0 <;> cases inFile <;> cases outFile <;> cases append <;>
    simp [cmdTop, bg, CommandHolder.has, mkCommandHolder] <;> decide

/-- The entry of a stage that stands alone. -/
theorem entry_of_stage {stage : Stage} {top : CommandHolder}
    (evaluates : stage.eval world = .ok top) : Entry world true stage [] top := by
  rcases bind_eq_ok.1 evaluates with ⟨content, cmd, evaluates⟩
  rcases bind_eq_ok.1 evaluates with ⟨redir, redirs, evaluates⟩
  obtain rfl := Except.ok.inj evaluates
  rcases evalRedirs_spec _ redirs with ⟨input, output, append⟩
  obtain ⟨pipeOut, pipeIn, redirectIn, redirectOut, redirectAppend, background⟩ :=
    cmdTop_flags content redir (if stage.background then 1 else 0)
  refine ⟨cmd, pipeOut, pipeIn, redirectIn.trans input, redirectOut.trans output, ?_, ?_, ?_, ?_⟩
  · rw [redirectAppend, redirectOut]
    exact append
  · rw [redirectIn]
    exact Option.ne_none_iff_isSome.2
  · rw [redirectOut]
    exact Option.ne_none_iff_isSome.2
  · rw [background]
    cases stage.background <;> rfl

/-! ## Joining -/

/-- A test of one bit. -/
def test (flags flag : BitVec 8) : Bool := flags &&& flag != 0#8

/-- The flags of a stage in front of another, which it follows into the background. -/
def frontFlags (flags : BitVec 8) (background : Bool) : BitVec 8 :=
  flags &&& ~~~(Flags.redirectAppend ||| Flags.redirectOut) ||| Flags.pipeOut |||
    if background then Flags.background else 0#8

/-- The flags of a stage behind another. -/
def behindFlags (flags : BitVec 8) : BitVec 8 :=
  flags &&& ~~~Flags.redirectIn ||| Flags.pipeIn

theorem frontFlags_spec : ∀ (flags : BitVec 8) (background : Bool),
    test (frontFlags flags background) Flags.pipeOut = true ∧
      test (frontFlags flags background) Flags.pipeIn = test flags Flags.pipeIn ∧
      test (frontFlags flags background) Flags.redirectIn = test flags Flags.redirectIn ∧
      test (frontFlags flags background) Flags.redirectOut = false ∧
      test (frontFlags flags background) Flags.redirectAppend = false ∧
      test (frontFlags flags background) Flags.background =
        (test flags Flags.background || background) := by
  decide +kernel

theorem behindFlags_spec : ∀ flags : BitVec 8,
    test (behindFlags flags) Flags.pipeOut = test flags Flags.pipeOut ∧
      test (behindFlags flags) Flags.pipeIn = true ∧
      test (behindFlags flags) Flags.redirectIn = false ∧
      test (behindFlags flags) Flags.redirectOut = test flags Flags.redirectOut ∧
      test (behindFlags flags) Flags.redirectAppend = test flags Flags.redirectAppend ∧
      test (behindFlags flags) Flags.background = test flags Flags.background := by
  decide +kernel

/-- Joining a stage to others changes the flags of two entries. -/
theorem cmdsPipe_cons (top prev : CommandHolder) (cmds : List CommandHolder) :
    cmdsPipe top (prev :: cmds) =
      .ok ({ top with flags := frontFlags top.flags (test prev.flags Flags.background) } ::
        { prev with flags := behindFlags prev.flags } :: cmds) := by
  have same : CommandHolder.has
      { prev with flags := prev.flags &&& ~~~Flags.redirectIn ||| Flags.pipeIn } Flags.background =
        test prev.flags Flags.background :=
    (behindFlags_spec prev.flags).2.2.2.2.2
  simp only [cmdsPipe, popFront_cons, ok_bind, pushFront_eq, same]
  cases test prev.flags Flags.background <;> simp [frontFlags, behindFlags]

/-- A stage in front of the stages behind it. -/
theorem Entry.front {stage : Stage} {later : List Stage} {top : CommandHolder}
    {background : Bool} (entry : Entry world true stage [] top) (some : later ≠ [])
    (marked : background = later.any Stage.background) :
    Entry world true stage later { top with flags := frontFlags top.flags background } := by
  obtain ⟨pipeOut, pipeIn, redirectIn, redirectOut, append, mark⟩ :=
    frontFlags_spec top.flags background
  have nonempty : later.isEmpty = false := by simpa using some
  exact {
    cmd := entry.cmd
    pipeOut := pipeOut.trans (by simp [nonempty])
    pipeIn := pipeIn.trans entry.pipeIn
    redirectIn := redirectIn.trans entry.redirectIn
    redirectOut := redirectOut.trans (by simp [nonempty])
    append := fun set => absurd (set.symm.trans append) (by simp)
    inName := fun set => entry.inName (redirectIn.symm.trans set)
    outName := fun set => absurd (set.symm.trans redirectOut) (by simp)
    background := by
      have := entry.background
      rw [List.any_nil, Bool.or_false] at this
      exact mark.trans (by rw [marked, ← this]; rfl) }

/-- The first of the stages behind. -/
theorem Entry.behind {stage : Stage} {later : List Stage} {prev : CommandHolder}
    (entry : Entry world true stage later prev) :
    Entry world false stage later { prev with flags := behindFlags prev.flags } := by
  rcases behindFlags_spec prev.flags with ⟨pipeOut, pipeIn, redirectIn, redirectOut, append, mark⟩
  exact {
    cmd := entry.cmd
    pipeOut := pipeOut.trans entry.pipeOut
    pipeIn := pipeIn
    redirectIn := redirectIn
    redirectOut := redirectOut.trans entry.redirectOut
    append := fun set => redirectOut.trans (entry.append (append.symm.trans set))
    inName := fun set => absurd (set.symm.trans redirectIn) (by simp)
    outName := fun set => entry.outName (redirectOut.symm.trans set)
    background := mark.trans entry.background }

/-- What holds of the entry of the last stage and is kept where a stage is joined to others
holds of the value of a pipeline. -/
theorem evalStages_keeps {motive : Stage → List Stage → List CommandHolder → Prop}
    (last : ∀ stage top, stage.eval world = .ok top → motive stage [] [top])
    (joined : ∀ stage second rest top prev cmds, stage.eval world = .ok top →
      motive second rest (prev :: cmds) → motive stage (second :: rest)
        ({ top with flags := frontFlags top.flags (test prev.flags Flags.background) } ::
          { prev with flags := behindFlags prev.flags } :: cmds))
    {first : Stage} {rest : List Stage} {cmds : List CommandHolder}
    (evaluates : evalStages world first rest = .ok cmds) : motive first rest cmds := by
  induction rest generalizing first cmds with
  | nil =>
      rcases bind_eq_ok.1 evaluates with ⟨top, stage, evaluates⟩
      obtain rfl := Except.ok.inj evaluates
      exact last first top stage
  | cons second rest ih =>
      rcases bind_eq_ok.1 evaluates with ⟨top, stage, evaluates⟩
      rcases bind_eq_ok.1 evaluates with ⟨behind, stages, evaluates⟩
      cases behind with
      | nil => cases evaluates
      | cons prev cmds' =>
          rw [cmdsPipe_cons] at evaluates
          obtain rfl := Except.ok.inj evaluates
          exact joined first second rest top prev cmds' stage (ih stages)

/-- Joining keeps the invariant. -/
theorem entries_of_stages (first : Stage) (rest : List Stage) {cmds : List CommandHolder}
    (evaluates : evalStages world first rest = .ok cmds) :
    Entries world true (first :: rest) cmds := by
  apply evalStages_keeps (motive := fun first rest => Entries world true (first :: rest)) _ _
    evaluates
  · intro stage top stageTop
    exact ⟨entry_of_stage stageTop, trivial⟩
  · rintro stage second rest top prev cmds stageTop ⟨entry, others⟩
    exact ⟨(entry_of_stage stageTop).front (by simp) entry.background, entry.behind, others⟩

/-! ## Arrays -/

/-- Commands have types of their own: none is the end of an array, and only `exit` is
the builtin that ends the shell. -/
theorem content_type (content : Content) {cmd : Command}
    (evaluates : content.eval world = .ok cmd) :
    getCommandType cmd ≠ .eoc ∧
      (getCommandType cmd = .exit ↔ ∃ text, content = .exit text) := by
  cases content with
  | command first args =>
      rcases bind_eq_ok.1 evaluates with ⟨_, -, evaluates⟩
      obtain rfl := Except.ok.inj evaluates
      simp [mkGenericCommand, getCommandType]
  | echo args =>
      rcases bind_eq_ok.1 evaluates with ⟨_, -, evaluates⟩
      obtain rfl := Except.ok.inj evaluates
      simp [mkEchoCommand, getCommandType]
  | exportVar name val =>
      rcases bind_eq_ok.1 evaluates with ⟨_, -, evaluates⟩
      obtain rfl := Except.ok.inj evaluates
      simp [mkExportCommand, getCommandType]
  | cdAlone =>
      rcases bind_eq_ok.1 evaluates with ⟨_, -, evaluates⟩
      obtain rfl := Except.ok.inj evaluates
      simp [mkCdCommand, getCommandType]
  | cd dir =>
      rcases bind_eq_ok.1 evaluates with ⟨_, -, evaluates⟩
      obtain rfl := Except.ok.inj evaluates
      simp [cdString, mkCdCommand, getCommandType]
  | pwd =>
      obtain rfl := Except.ok.inj evaluates
      simp [mkPwdCommand, getCommandType]
  | jobs =>
      obtain rfl := Except.ok.inj evaluates
      simp [mkJobsCommand, getCommandType]
  | exit text =>
      obtain rfl := Except.ok.inj evaluates
      simp [mkExitCommand, getCommandType]
  | kill sig job =>
      obtain rfl := Except.ok.inj evaluates
      simp [mkKillCommand, getCommandType]

/-- What the entry of the `i`-th of the stages says. -/
structure StageEntry (world : World) (stages : List Stage) (i : Nat) (stage : Stage)
    (entry : CommandHolder) : Prop where
  cmd : stage.content.eval world = .ok entry.cmd
  notEoc : getCommandHolderType entry ≠ .eoc
  pipeOut : entry.has Flags.pipeOut = true ↔ i + 1 < stages.length
  pipeIn : entry.has Flags.pipeIn = true ↔ 0 < i
  redirectIn : entry.has Flags.redirectIn = true ↔ i = 0 ∧ stage.hasInput = true
  redirectOut : entry.has Flags.redirectOut = true ↔
    i + 1 = stages.length ∧ stage.hasOutput = true
  append : entry.has Flags.redirectAppend = true → entry.has Flags.redirectOut = true
  inName : entry.has Flags.redirectIn = true → entry.redirectIn ≠ none
  outName : entry.has Flags.redirectOut = true → entry.redirectOut ≠ none
  background : entry.has Flags.background = true ↔
    ∃ j marked, i ≤ j ∧ stages[j]? = some marked ∧ marked.background = true

/-- The entry at a position of the list. -/
theorem Entries.get {first : Bool} {stages : List Stage} {entries : List CommandHolder}
    (holds : Entries world first stages entries) :
    entries.length = stages.length ∧ ∀ i stage entry, stages[i]? = some stage →
      entries[i]? = some entry →
        Entry world (first && i == 0) stage (stages.drop (i + 1)) entry := by
  induction holds using Entries.along with
  | nil first => simp
  | cons first stage later entry entries here _ ih =>
      rcases ih with ⟨length, others⟩
      refine ⟨congrArg (· + 1) length, fun i stage' entry' atStage atEntry => ?_⟩
      cases i with
      | zero =>
          obtain rfl : stage = stage' := by simpa using atStage
          obtain rfl : entry = entry' := by simpa using atEntry
          simpa using here
      | succ i =>
          have := others i stage' entry' (by simpa using atStage) (by simpa using atEntry)
          simpa using this

/-- The mark of a stage or of one behind it. -/
theorem marked_iff {stages : List Stage} {i : Nat} {stage : Stage}
    (atStage : stages[i]? = some stage) :
    (stage.background || (stages.drop (i + 1)).any Stage.background) = true ↔
      ∃ j marked, i ≤ j ∧ stages[j]? = some marked ∧ marked.background = true := by
  rw [Bool.or_eq_true, List.any_eq_true]
  constructor
  · rintro (here | ⟨marked, mem, background⟩)
    · exact ⟨i, stage, Nat.le_refl i, atStage, here⟩
    · rcases List.mem_iff_getElem?.1 mem with ⟨k, atMarked⟩
      rw [List.getElem?_drop] at atMarked
      exact ⟨i + 1 + k, marked, by omega, atMarked, background⟩
  · rintro ⟨j, marked, behind, atMarked, background⟩
    rcases Nat.eq_or_lt_of_le behind with rfl | later
    · obtain rfl : stage = marked := Option.some.inj (atStage.symm.trans atMarked)
      exact .inl background
    · refine .inr ⟨marked, List.mem_iff_getElem?.2 ⟨j - (i + 1), ?_⟩, background⟩
      rw [List.getElem?_drop, Nat.add_sub_cancel' later]
      exact atMarked

/-- The entries of a pipeline say what the places and the redirections of its stages ask
for. -/
theorem pipeline_entries {pipeline : Pipeline} {cmds : List CommandHolder}
    (evaluates : pipeline.eval world = .ok cmds) :
    cmds.length = pipeline.stages.length ∧
      ∀ i stage entry, pipeline.stages[i]? = some stage → cmds[i]? = some entry →
        StageEntry world pipeline.stages i stage entry := by
  have joined : Entries world true pipeline.stages cmds := entries_of_stages _ _ evaluates
  rcases joined.get with ⟨length, entries⟩
  refine ⟨length, fun i stage entry atStage atEntry => ?_⟩
  have holds := entries i stage entry atStage atEntry
  have inside : i < pipeline.stages.length := (List.getElem?_eq_some_iff.1 atStage).1
  have last : (pipeline.stages.drop (i + 1)).isEmpty = decide (i + 1 = pipeline.stages.length) := by
    rw [Bool.eq_iff_iff, List.isEmpty_iff, List.drop_eq_nil_iff, decide_eq_true_iff]
    omega
  exact {
    cmd := holds.cmd
    notEoc := (content_type _ holds.cmd).1
    pipeOut := by
      rw [holds.pipeOut, last, Bool.not_eq_true', decide_eq_false_iff_not]
      omega
    pipeIn := by
      rw [holds.pipeIn, Bool.true_and, Bool.not_eq_true', beq_eq_false_iff_ne]
      exact Nat.pos_iff_ne_zero.symm
    redirectIn := by simp [holds.redirectIn]
    redirectOut := by simp [holds.redirectOut, last]
    append := holds.append
    inName := holds.inName
    outName := holds.outName
    background := by
      rw [holds.background]
      exact marked_iff atStage }

/-- The array for an accepted line of commands: the commands of the pipeline in their
order and the entry for the end, with the flags that the places and the redirections of
the stages ask for. -/
theorem accepted_entries (world : World) (pipeline : Pipeline) (line : Line)
    (body : line.body = pipeline.tokens) (rest : List Token) {answer : Answer}
    {left : List Token} (returns : Returns world (line.tokens ++ rest) answer left) :
    ∃ entries, answer.retCmds = some (entries ++ [eocHolder]) ∧
      entries.length = pipeline.stages.length ∧
      ∀ i stage entry, pipeline.stages[i]? = some stage → entries[i]? = some entry →
        StageEntry world pipeline.stages i stage entry := by
  rcases commands_of_returns body returns with ⟨-, cmds, evaluates, rfl⟩
  exact ⟨cmds, rfl, pipeline_entries evaluates⟩

/-- The pipeline `a < x > y | b > z &`. -/
def twoStages : Pipeline :=
  ⟨⟨.command (.simStr ['a']) [], [(.redirIn, .first (.simStr ['x'])),
      (.redirOut, .first (.simStr ['y']))], false⟩,
    [⟨.command (.simStr ['b']) [], [(.redirOut, .first (.simStr ['z']))], true⟩]⟩

/-- The line of this pipeline. -/
def twoStagesLine : Line := .ended twoStages.tokens (by decide)

theorem accepted_entries_two :
    ∃ answer left, Returns plainWorld (twoStagesLine.tokens ++ [.endTok]) answer left ∧
      ∃ entries, answer.retCmds = some (entries ++ [eocHolder]) ∧
        entries.length = twoStages.stages.length ∧
        ∀ i stage entry, twoStages.stages[i]? = some stage → entries[i]? = some entry →
          StageEntry plainWorld twoStages.stages i stage entry := by
  have returns : Returns plainWorld (twoStagesLine.tokens ++ [.endTok]) _ [.endTok] :=
    ⟨60, 0, rfl⟩
  exact ⟨_, _, returns, accepted_entries plainWorld twoStages twoStagesLine rfl [.endTok] returns⟩

end QuashLabs.Quash.Parsing
