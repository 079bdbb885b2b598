import QuashLabs.Quash.Parsing.Rereading.Pipeline

/-!
# The value of the pipeline of a text

The grammar gives a command of the text its value again unless it is a `cd`, whose
directory is resolved once more. The flags of an entry are those of its stage, corrected
where stages are joined, so they come back when the mark for the background at the end of
the text is right for all entries.
-/

namespace QuashLabs.Quash.Parsing

open QuashLabs.Checked

variable {world : World} {holder : CommandHolder}

/-! ## Values -/

/-- The command is read again as it is. -/
structure Restorable (world : World) (cmd : Command) : Prop where
  type : getCommandType cmd ∈ readable
  dir : ∀ dir, cmd = .cd dir → ∃ path, dir = some path ∧ world.realpath path = some path

theorem evalArgs_bare (words : List CStr) :
    evalArgs world (words.map bareWord) = .ok (words.map some ++ [none]) := by
  induction words with
  | nil => rfl
  | cons word words ih =>
      rw [List.map_cons, evalArgs_cons, bareWord_eval, ih]
      rfl

theorem readContent_eval {cmd : Command} (written : Written cmd) (typed : AsTyped cmd)
    (restorable : Restorable world cmd) : (readContent cmd).eval world = .ok cmd := by
  rcases readable_cases written typed restorable.type with
    ⟨word, words, rfl⟩ | ⟨words, rfl⟩ | ⟨dir, rfl⟩ | ⟨sigStr, jobStr, rfl, -⟩
  · simp only [readContent_generic, Content.eval, evalCommand, bareFirst_eval, evalArgs_bare,
      ok_bind]
    rfl
  · simp only [readContent_echo, Content.eval, evalArgs_bare, ok_bind]
    rfl
  · obtain ⟨path, rfl, real⟩ := restorable.dir dir rfl
    simp only [readContent, Content.eval, bareWord_eval, ok_bind, cdString, real]
    rfl
  · rfl

theorem readRedirs_eval (append : holder.has Flags.redirectAppend = true →
      holder.redirectOut.isSome = true) :
    evalRedirs world (readRedirs holder) =
      .ok ⟨holder.redirectIn, holder.redirectOut, holder.has Flags.redirectAppend⟩ := by
  unfold readRedirs
  cases output : holder.redirectOut with
  | none =>
      have off : holder.has Flags.redirectAppend = false := by simpa [output] using append
      rw [off]
      cases holder.redirectIn with
      | none => rfl
      | some input =>
          simp only [Option.toList, List.map_cons, List.map_nil, List.append_nil, evalRedirs_cons,
            bareWord_eval, ok_bind]
          rfl
  | some name =>
      cases holder.has Flags.redirectAppend <;> cases holder.redirectIn <;>
        simp only [Option.toList, List.map_cons, List.map_nil, List.nil_append, List.cons_append,
          evalRedirs_cons, bareWord_eval, ok_bind] <;> rfl

/-! ## Flags -/

/-- The flags that a stage gives its entry. -/
def stageFlags (input output append background : Bool) : BitVec 8 :=
  (if append then Flags.redirectAppend else 0#8) |||
    (if output then Flags.redirectOut else 0#8) |||
    (if input then Flags.redirectIn else 0#8) |||
    (if background then Flags.background else 0#8)

theorem cmdTop_eq (content : Command) (redir : Redirect) (background : Bool) :
    cmdTop content redir (if background then 1 else 0) =
      ⟨redir.inFile, redir.outFile,
        stageFlags redir.inFile.isSome redir.outFile.isSome redir.append background, content⟩ := by
  cases background <;> rfl

/-- The bits of a flag word that no flag has. -/
def spareBits : BitVec 8 := 0x82#8

/-- The flags before the entry is joined to those in front of it. -/
def unjoined (flags : BitVec 8) : BitVec 8 := flags &&& ~~~Flags.pipeIn

theorem spareBits_spec : ∀ flags : BitVec 8, flags &&& spareBits = 0#8 →
    (∀ background, frontFlags flags background &&& spareBits = 0#8) ∧
      behindFlags flags &&& spareBits = 0#8 := by
  decide +kernel

theorem stageFlags_spare : ∀ input output append background : Bool,
    stageFlags input output append background &&& spareBits = 0#8 := by
  decide

/-- The flags that a stage with these redirections gives its entry. -/
def ownFlags (flags : BitVec 8) (background : Bool) : BitVec 8 :=
  stageFlags (test flags Flags.redirectIn) (test flags Flags.redirectOut)
    (test flags Flags.redirectAppend) background

/-- The last of the entries. -/
theorem unjoined_last : ∀ flags : BitVec 8, flags &&& spareBits = 0#8 →
    test flags Flags.pipeOut = false →
    ownFlags flags (test flags Flags.background) = unjoined flags := by
  decide +kernel

/-- An entry in front of others. -/
theorem unjoined_front : ∀ flags : BitVec 8, flags &&& spareBits = 0#8 →
    test flags Flags.pipeOut = true → test flags Flags.redirectOut = false →
    test flags Flags.redirectAppend = false →
    frontFlags (ownFlags flags false) (test flags Flags.background) = unjoined flags := by
  decide +kernel

/-- An entry behind another. -/
theorem unjoined_behind : ∀ flags : BitVec 8, test flags Flags.pipeIn = true →
    test flags Flags.redirectIn = false →
    behindFlags (unjoined flags) = flags ∧
      test (unjoined flags) Flags.background = test flags Flags.background := by
  decide +kernel

/-- The first entry. -/
theorem unjoined_first : ∀ flags : BitVec 8, test flags Flags.pipeIn = false →
    unjoined flags = flags := by
  decide +kernel

/-- The actions set no other bits. -/
theorem spareBits_of_stages (first : Stage) (rest : List Stage) {cmds : List CommandHolder}
    (evaluates : evalStages world first rest = .ok cmds) :
    ∀ entry ∈ cmds, entry.flags &&& spareBits = 0#8 := by
  have alone {stage : Stage} {top : CommandHolder} (evaluates : stage.eval world = .ok top) :
      top.flags &&& spareBits = 0#8 := by
    rcases bind_eq_ok.1 evaluates with ⟨content, -, evaluates⟩
    rcases bind_eq_ok.1 evaluates with ⟨redir, -, evaluates⟩
    obtain rfl := Except.ok.inj evaluates
    rw [cmdTop_eq]
    exact stageFlags_spare _ _ _ _
  apply evalStages_keeps
    (motive := fun _ _ cmds => ∀ entry ∈ cmds, entry.flags &&& spareBits = 0#8) _ _ evaluates
  · intro stage top stageTop
    exact List.forall_mem_singleton.mpr (alone stageTop)
  · intro stage second rest top prev cmds stageTop spare
    rw [List.forall_mem_cons] at spare
    rw [List.forall_mem_cons, List.forall_mem_cons]
    exact ⟨(spareBits_spec _ (alone stageTop)).1 _, (spareBits_spec _ spare.1).2, spare.2⟩

/-! ## Reading the pipeline of the text -/

theorem readStage_eval (rereadable : Rereadable holder) (restorable : Restorable world holder.cmd)
    (background : Bool) :
    (readStage background holder).eval world =
      .ok { holder with flags := ownFlags holder.flags background } := by
  have effective := rereadable.effective
  have append : holder.has Flags.redirectAppend = true → holder.redirectOut.isSome = true := by
    rw [effective.output]
    exact rereadable.printable.append
  have top := cmdTop_eq holder.cmd
    ⟨holder.redirectIn, holder.redirectOut, holder.has Flags.redirectAppend⟩ background
  simp only [effective.input, effective.output] at top
  rw [Stage.eval]
  simp only [readStage, readContent_eval rereadable.printable.cmd rereadable.typed restorable,
    readRedirs_eval append, ok_bind]
  exact congrArg Except.ok top

/-- The pipeline of the text has the entries as its value, the first of them as before it is
joined to others. -/
theorem reread_eval {first background : Bool} {stages : List Stage} {later : List CommandHolder}
    {world₀ : World} (entries : Entries world₀ first stages (holder :: later))
    (spare : ∀ entry ∈ holder :: later, entry.flags &&& spareBits = 0#8)
    (rereadable : ∀ entry ∈ holder :: later, Rereadable entry)
    (restorable : ∀ entry ∈ holder :: later, Restorable world entry.cmd)
    (marked : ∀ entry ∈ holder :: later, entry.has Flags.background = background) :
    (reread background holder later).eval world =
      .ok ({ holder with flags := unjoined holder.flags } :: later) := by
  have resolved {entry : CommandHolder} (restorable : Restorable world entry.cmd) :
      entry.cmd ≠ .cd none := by
    intro severed
    rcases restorable.dir none severed with ⟨path, none, -⟩
    cases none
  induction later generalizing holder first stages with
  | nil =>
      rw [List.forall_mem_singleton] at spare rereadable restorable marked
      have last : test holder.flags Flags.pipeOut = false := entries.pipeOut
      have flags := unjoined_last _ spare last
      have mark : test holder.flags Flags.background = background := marked
      rw [mark] at flags
      rw [reread, if_neg (resolved restorable), Pipeline.eval, evalStages,
        readStage_eval rereadable restorable, ok_bind, flags]
      rfl
  | cons next later ih =>
      rw [List.forall_mem_cons] at spare rereadable restorable marked
      have pipeOut : test holder.flags Flags.pipeOut = true := entries.pipeOut
      obtain ⟨stage, behind, rfl, entry, others⟩ := entries.exists_stages
      obtain ⟨second, behind', rfl, nextEntry, -⟩ := others.exists_stages
      have redirectOut : test holder.flags Flags.redirectOut = false := entry.redirectOut
      have append : test holder.flags Flags.redirectAppend = false := by
        rw [← Bool.not_eq_true]
        intro set
        have output : test holder.flags Flags.redirectOut = true := entry.append set
        rw [redirectOut] at output
        cases output
      have front := unjoined_front _ spare.1 pipeOut redirectOut append
      have nextMarked : test next.flags Flags.background = background :=
        marked.2 next List.mem_cons_self
      have mark : test holder.flags Flags.background = background := marked.1
      obtain ⟨joined, sameMark⟩ := unjoined_behind _ nextEntry.pipeIn nextEntry.redirectIn
      rw [mark] at front
      have read := ih others spare.2 rereadable.2 restorable.2 marked.2
      rw [reread, if_neg (resolved restorable.1), Pipeline.eval, Pipeline.stages, evalStages,
        readStage_eval rereadable.1 restorable.1, ok_bind]
      rw [Pipeline.eval] at read
      rw [read, ok_bind, cmdsPipe_cons, joined, sameMark, nextMarked, front]

/-! ## What is read again -/

/-- The commands are restorable, and all of them are in the background or none is. -/
def Faithful (world : World) (cmds : List CommandHolder) : Prop :=
  (∀ entry ∈ cmds, Restorable world entry.cmd) ∧
    ∀ entry ∈ cmds, entry.has Flags.background = inBackground cmds

theorem Entries.exists_stage {first : Bool} {stages : List Stage} {cmds : List CommandHolder}
    (entries : Entries world first stages cmds) {entry : CommandHolder} (member : entry ∈ cmds) :
    ∃ stage ∈ stages, stage.content.eval world = .ok entry.cmd := by
  induction entries using Entries.along with
  | nil first => cases member
  | cons first stage later head cmds here _ ih =>
      rcases List.mem_cons.mp member with rfl | member
      · exact ⟨stage, List.mem_cons_self, here.cmd⟩
      · rcases ih member with ⟨stage', inside, evaluates⟩
        exact ⟨stage', List.mem_cons_of_mem _ inside, evaluates⟩

/-- A command that is the value of its text is restorable. -/
theorem restorable_of_eval {cmd : Command} (type : getCommandType cmd ∈ readable)
    (evaluates : (readContent cmd).eval world = .ok cmd) : Restorable world cmd := by
  refine ⟨type, ?_⟩
  rintro dir rfl
  cases dir with
  | none =>
      rcases bind_eq_ok.1 evaluates with ⟨home, -, evaluates⟩
      cases evaluates
  | some path =>
      simp only [readContent, Content.eval, bareWord_eval, ok_bind, pure_eq_ok, Except.ok.injEq,
        cdString, mkCdCommand, Command.cd.injEq] at evaluates
      exact ⟨path, rfl, evaluates⟩

theorem reread_content (background : Bool) (later : List CommandHolder) :
    (reread background holder later).first.content = readContent holder.cmd := by
  by_cases severed : holder.cmd = .cd none
  · rw [reread_severed severed, severed]
    rfl
  · cases later with
    | nil => rw [reread, if_neg severed, readStage]
    | cons next later => rw [reread, if_neg severed, readStage]

/-- Entries that are those of the pipeline of their text are restorable, and all of them are
in the background when its last stage is marked. -/
theorem faithful_of_entries {first background : Bool} {later : List CommandHolder}
    (types : ∀ entry ∈ holder :: later, getCommandHolderType entry ∈ readable)
    (entries : Entries world first (reread background holder later).stages (holder :: later)) :
    ∀ entry ∈ holder :: later, Restorable world entry.cmd ∧
      entry.has Flags.background =
        (reread background holder later).stages.any Stage.background := by
  induction later generalizing holder first with
  | nil =>
      rw [List.forall_mem_singleton] at types ⊢
      have content := entries.1.cmd
      rw [reread_content] at content
      exact ⟨restorable_of_eval types content, entries.1.background⟩
  | cons next later ih =>
      rw [List.forall_mem_cons] at types
      have content := entries.1.cmd
      rw [reread_content] at content
      rw [List.forall_mem_cons]
      refine ⟨⟨restorable_of_eval types.1 content, entries.1.background⟩, ?_⟩
      by_cases severed : holder.cmd = .cd none
      · rw [reread_severed severed] at entries
        exact entries.2.elim
      · have stages : (reread background holder (next :: later)).stages =
            readStage false holder :: (reread background next later).stages := by
          rw [reread, if_neg severed]
          rfl
        rw [stages] at entries ⊢
        exact ih types.2 entries.2

/-- The pipeline of the text has the entries as its value exactly when they are faithful. -/
theorem reread_eval_iff {stages : List Stage} {later : List CommandHolder} {world₀ : World}
    (entries : Entries world₀ true stages (holder :: later))
    (spare : ∀ entry ∈ holder :: later, entry.flags &&& spareBits = 0#8)
    (rereadable : ∀ entry ∈ holder :: later, Rereadable entry)
    (types : ∀ entry ∈ holder :: later, getCommandHolderType entry ∈ readable) :
    (reread (inBackground (holder :: later)) holder later).eval world = .ok (holder :: later) ↔
      Faithful world (holder :: later) := by
  constructor
  · intro evaluates
    have again : Entries world true (reread _ holder later).stages (holder :: later) :=
      entries_of_stages _ _ evaluates
    have each := faithful_of_entries types again
    refine ⟨fun entry member => (each entry member).1, fun entry member => ?_⟩
    exact (each entry member).2.trans (each holder List.mem_cons_self).2.symm
  · rintro ⟨restorable, marked⟩
    have evaluates := reread_eval entries spare rereadable restorable marked
    obtain ⟨stage, behind, rfl, entry, -⟩ := entries.exists_stages
    have front : test holder.flags Flags.pipeIn = false := entry.pipeIn
    rw [unjoined_first _ front] at evaluates
    exact evaluates

end QuashLabs.Quash.Parsing
