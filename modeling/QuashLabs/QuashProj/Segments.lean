import QuashLabs.QuashProj.ExecStatement

/-!
# Commands with redirections

A line is a list of segments with pipes between them, and a segment is a list of words with
redirections behind it. The loop of `Runner::execStatement` keeps one list of duplications for
each segment. It stores a command at every redirection, so the second redirection of a segment
stores a command without a word.
-/

namespace QuashLabs.QuashProj

open QuashLabs.Descriptors

variable {File : Type}

/-! ## Lines -/

/-- `<` or `>`. -/
inductive Direction
  | input
  | output
  deriving Repr, DecidableEq

/-- The operator of a direction. -/
def Direction.token : Direction → String
  | .input => "<"
  | .output => ">"

/-- The descriptor that a redirection replaces. -/
def Direction.target : Direction → Nat
  | .input => 0
  | .output => 1

/-- An operator and the name of its file. -/
structure Redirection where
  direction : Direction
  file : String
  plain : isPlain file = true

/-- The tokens of a redirection. -/
def Redirection.tokens (redirection : Redirection) : List String :=
  [redirection.direction.token, redirection.file]

/-- What `open` makes of the file of a redirection. -/
def Redirection.opened (files : Files File) (redirection : Redirection) : Option File :=
  match redirection.direction with
  | .input => files.input redirection.file
  | .output => files.output redirection.file

/-- Words and redirections behind them. -/
structure Segment where
  words : List String
  redirections : List Redirection
  plain : ∀ word ∈ words, isPlain word = true

/-- The tokens of a segment. -/
def Segment.tokens (segment : Segment) : List String :=
  segment.words ++ segment.redirections.flatMap Redirection.tokens

/-- The tokens of a line. -/
def lineTokens (first : Segment) (later : List Segment) : List String :=
  first.tokens ++ later.flatMap fun segment => "|" :: segment.tokens

/-- The variables of the loop behind a redirection. -/
def Statement.redirect (files : Files File) (st : Statement File) (redirection : Redirection) :
    Statement File :=
  st.onFile (redirection.opened files) redirection.direction.target

/-! ## What is asked of the lists -/

/-- A duplication onto the descriptor of a redirection, from a descriptor of its file, or from
-1 where `open` has failed. -/
structure Dup.Serves (files : Files File) (table : Table (Channel File))
    (redirection : Redirection) (dup : Dup) : Prop where
  target : dup.target = redirection.direction.target
  source : dup.source.map table.lookup =
    (redirection.opened files).map fun file => some (.other file)

/-- For every segment the duplications of its redirections. -/
def Redirected (files : Files File) (table : Table (Channel File)) :
    List Segment → List (List Dup) → Prop :=
  List.Forall₂ fun segment dups =>
    List.Forall₂ (Dup.Serves files table) segment.redirections dups

/-- The lists have one entry for every segment, with its words and its redirections, and every
child finds its entries. -/
structure Collects (files : Files File) (segments : List Segment) (st : Statement File) :
    Prop where
  complete : st.complete = segments.map Segment.words
  redirDups : Redirected files st.ipc.table segments st.redirDups
  inRange : ∀ i < st.complete.length, (setUp st i).isSome = true

/-! ## Descriptors stay -/

/-- Every open descriptor refers to the same file in the later table. -/
def Keeps (before after : Table (Channel File)) : Prop :=
  ∀ fd channel, before.lookup fd = some channel → after.lookup fd = some channel

variable {files : Files File} {table before after : Table (Channel File)}

theorem keeps_install (channel : Channel File) (table : Table (Channel File)) :
    Keeps table (table.install channel).2 := by
  intro fd found opened
  rw [Table.lookup_install]
  split
  · rename_i isLowest
    rw [isLowest, Table.lookup_lowest] at opened
    cases opened
  · exact opened

theorem keeps_more (opened : Opened File) : Keeps opened.table opened.more.table := by
  intro fd channel found
  exact keeps_install _ _ fd channel (keeps_install _ _ fd channel found)

theorem Dup.Serves.mono {redirection : Redirection} {dup : Dup} (keeps : Keeps before after)
    (serves : dup.Serves files before redirection) : dup.Serves files after redirection where
  target := serves.target
  source := by
    have source := serves.source
    cases isSource : dup.source with
    | none =>
        rw [isSource] at source
        exact source
    | some fd =>
        cases isOpened : redirection.opened files with
        | none => simp [isSource, isOpened] at source
        | some file =>
            rw [isSource, isOpened] at source
            have found : before.lookup fd = some (.other file) := Option.some.inj source
            simp [keeps _ _ found]

theorem Redirected.mono {segments : List Segment} {redirDups : List (List Dup)}
    (keeps : Keeps before after) (redirected : Redirected files before segments redirDups) :
    Redirected files after segments redirDups :=
  redirected.imp fun _ _ serve => serve.imp fun _ _ serves => serves.mono keeps

/-! ## The loop -/

/-- The commands that are stored for the words and redirections of a segment. -/
def stored (words : List String) (redirections : List Redirection) : List (List String) :=
  words :: List.replicate (redirections.length - 1) []

/-- The commands that the segments of a line store. -/
def allStored (segments : List Segment) : List (List String) :=
  segments.flatMap fun segment => stored segment.words segment.redirections

/-- The variables of the loop behind the segments `done` and a part of the next one. -/
structure Reading (files : Files File) (done : List Segment) (words : List String)
    (redirections : List Redirection) (st : Statement File) : Prop where
  complete : st.close.complete = allStored done ++ stored words redirections
  redirDups : Redirected files st.ipc.table done st.redirDups
  singleCommand : st.singleCommand = if st.alreadyPushedCmd then [] else words
  singleDupList : List.Forall₂ (Dup.Serves files st.ipc.table) redirections st.singleDupList
  pushed : st.alreadyPushedCmd = !redirections.isEmpty

variable {done later : List Segment} {words : List String} {redirections : List Redirection}
variable {redirection : Redirection} {st : Statement File} {atBegin : Bool} {token : String}
variable {first segment : Segment} {rest : List String}

theorem Reading.start (files : Files File) (table : Table File) :
    Reading files [] [] [] (.start table) :=
  ⟨rfl, .nil, rfl, .nil, rfl⟩

theorem ne_operators_of_isPlain (plain : isPlain token = true) :
    token ≠ "|" ∧ token ≠ "<" ∧ token ≠ ">" := by
  simpa [isPlain, and_assoc] using plain

/-- A word is stored until the command has been. -/
theorem collectStatement_word (plain : isPlain token = true) (rest : List String)
    (st : Statement File) :
    collectStatement files atBegin (token :: rest) st =
      if st.alreadyPushedCmd then collectStatement files false rest st
      else collectStatement files false rest
        { st with singleCommand := st.singleCommand ++ [token] } := by
  rcases ne_operators_of_isPlain plain with ⟨notPipe, notIn, notOut⟩
  cases pushed : st.alreadyPushedCmd with
  | true => simp [collectStatement, notPipe, notIn, notOut, pushed]
  | false => simp [collectStatement, notPipe, notIn, notOut, pushed]

/-- The name behind an operator is read by its branch and passed over. -/
theorem collectStatement_redirection (redirection : Redirection) (rest : List String)
    (st : Statement File) :
    collectStatement files false (redirection.tokens ++ rest) st =
      collectStatement files false rest (st.redirect files redirection) := by
  have passed := @collectStatement_word _ files false _ redirection.plain rest
    (st.redirect files redirection)
  refine Eq.trans ?_ (passed.trans (if_pos rfl))
  rcases redirection with ⟨_ | _, file, plain⟩
  · change collectStatement files false ("<" :: file :: rest) st = _
    rw [collectStatement, if_neg (by decide), if_pos (by simp)]
    rfl
  · change collectStatement files false (">" :: file :: rest) st = _
    rw [collectStatement, if_neg (by decide), if_neg (by simp), if_pos (by simp)]
    rfl

theorem Reading.storeWord (reading : Reading files done words [] st) (word : String) :
    Reading files done (words ++ [word]) []
      { st with singleCommand := st.singleCommand ++ [word] } := by
  have open_ : st.alreadyPushedCmd = false := reading.pushed
  have command : st.singleCommand = words := by
    have command := reading.singleCommand
    rwa [open_] at command
  have complete := reading.complete
  simp only [Statement.close, open_, command, stored] at complete
  constructor
  · simpa [Statement.close, open_, command, stored] using complete
  · exact reading.redirDups
  · simp [open_, command]
  · exact reading.singleDupList
  · exact open_

/-- Another redirection stores a command, after the first one one without a word. -/
theorem stored_append (words : List String) (redirections : List Redirection)
    (redirection : Redirection) :
    stored words (redirections ++ [redirection]) =
      stored words redirections ++ if redirections.isEmpty then [] else [[]] := by
  cases redirections with
  | nil => rfl
  | cons first later => simp [stored, List.replicate_succ']

theorem keeps_redirect (st : Statement File) (redirection : Redirection) :
    Keeps st.ipc.table (st.redirect files redirection).ipc.table := by
  rw [Statement.redirect]
  cases redirection.opened files with
  | none => exact fun _ _ found => found
  | some file => exact keeps_install _ _

/-- The duplication that a redirection adds serves it. -/
theorem serves_redirect (st : Statement File) (redirection : Redirection) :
    ∃ dup, (st.redirect files redirection).singleDupList = st.singleDupList ++ [dup] ∧
      dup.Serves files (st.redirect files redirection).ipc.table redirection := by
  refine ⟨_, rfl, rfl, ?_⟩
  rw [Statement.redirect]
  cases redirection.opened files with
  | none => rfl
  | some file =>
      change some (Table.lookup (st.ipc.table.install (.other file)).2 st.ipc.table.lowest) = _
      rw [Table.lookup_install, if_pos rfl]
      rfl

/-- A redirection stores what there is of the command. -/
theorem Reading.complete_redirect (reading : Reading files done words redirections st)
    (redirection : Redirection) :
    (st.redirect files redirection).close.complete =
      st.close.complete ++ if redirections.isEmpty then [] else [[]] := by
  have pushed := reading.pushed
  have command := reading.singleCommand
  cases redirections with
  | nil =>
      rw [List.isEmpty_nil] at pushed
      simp [Statement.close, Statement.redirect, Statement.onFile, pushed]
  | cons =>
      rw [List.isEmpty_cons] at pushed
      rw [pushed] at command
      simp [Statement.close, Statement.redirect, Statement.onFile, pushed, command]

theorem Reading.openFile (reading : Reading files done words redirections st)
    (redirection : Redirection) :
    Reading files done words (redirections ++ [redirection]) (st.redirect files redirection) := by
  have keeps := @keeps_redirect _ files st redirection
  constructor
  · rw [reading.complete_redirect, stored_append, ← List.append_assoc, reading.complete]
  · exact reading.redirDups.mono keeps
  · rfl
  · rcases @serves_redirect _ files st redirection with ⟨dup, added, serves⟩
    have earlier := reading.singleDupList.imp fun _ _ serves => serves.mono keeps
    rw [added]
    exact List.rel_append earlier (.cons serves .nil)
  · simp [Statement.redirect, Statement.onFile]

/-- A pipe ends a segment. -/
theorem Reading.pipe (reading : Reading files done segment.words segment.redirections st) :
    Reading files (done ++ [segment]) [] [] st.onPipe := by
  have redirDups : Redirected files st.ipc.table (done ++ [segment])
      (st.redirDups ++ [st.singleDupList]) :=
    List.rel_append reading.redirDups (.cons reading.singleDupList .nil)
  have command : st.onPipe.singleCommand = [] := by
    have command := reading.singleCommand
    cases pushed : st.alreadyPushedCmd with
    | false => simp [Statement.onPipe, pushed]
    | true => simpa [Statement.onPipe, pushed] using command
  constructor
  · have complete : st.onPipe.close.complete = st.close.complete ++ [[]] := by
      cases pushed : st.alreadyPushedCmd with
      | false => simp [Statement.onPipe, Statement.close, pushed]
      | true => simpa [Statement.onPipe, Statement.close, pushed] using command
    simp [complete, reading.complete, stored, allStored]
  · exact redirDups.mono (keeps_more st.ipc)
  · exact command
  · exact .nil
  · rfl

/-! ## From the loop to the lists -/

theorem Reading.storeWords (reading : Reading files done words [] st) (more : List String)
    (plain : ∀ token ∈ more, isPlain token = true) (atBegin : Bool) (rest : List String) :
    ∃ st', collectStatement files atBegin (more ++ rest) st =
        collectStatement files (atBegin && more.isEmpty) rest st' ∧
      Reading files done (words ++ more) [] st' := by
  induction more generalizing words st atBegin with
  | nil => exact ⟨st, by simp, by simpa using reading⟩
  | cons token more ih =>
      rcases List.forall_mem_cons.mp plain with ⟨isPlain, arePlain⟩
      have open_ : ¬st.alreadyPushedCmd = true := by simp [reading.pushed]
      rcases ih (reading.storeWord token) arePlain false with ⟨st', collected, behind⟩
      refine ⟨st', ?_, by simpa using behind⟩
      rw [List.cons_append, collectStatement_word isPlain, if_neg open_, collected]
      simp

theorem Reading.openFiles (reading : Reading files done words redirections st)
    (more : List Redirection) (rest : List String) :
    ∃ st', collectStatement files false (more.flatMap Redirection.tokens ++ rest) st =
        collectStatement files false rest st' ∧
      Reading files done words (redirections ++ more) st' := by
  induction more generalizing redirections st with
  | nil => exact ⟨st, rfl, by simpa using reading⟩
  | cons redirection more ih =>
      rcases ih (reading.openFile redirection) with ⟨st', collected, behind⟩
      refine ⟨st', ?_, by simpa using behind⟩
      rw [List.flatMap_cons, List.append_assoc, collectStatement_redirection, collected]

/-- A segment that does not start the line with an operator is read to its end. -/
theorem Reading.readSegment (reading : Reading files done [] [] st) (segment : Segment)
    (begins : (atBegin && segment.words.isEmpty) = false) (rest : List String) :
    ∃ st', collectStatement files atBegin (segment.tokens ++ rest) st =
        collectStatement files false rest st' ∧
      Reading files done segment.words segment.redirections st' := by
  rcases reading.storeWords segment.words segment.plain atBegin
    (segment.redirections.flatMap Redirection.tokens ++ rest) with ⟨st₁, collected₁, named⟩
  rcases named.openFiles segment.redirections rest with ⟨st₂, collected₂, behind⟩
  refine ⟨st₂, ?_, by simpa using behind⟩
  rw [Segment.tokens, List.append_assoc, collected₁, begins, collected₂]

theorem Reading.readLine (reading : Reading files done [] [] st)
    (begins : (atBegin && first.words.isEmpty) = false) (later : List Segment) :
    ∃ done' last st', collectStatement files atBegin (lineTokens first later) st = some st' ∧
      Reading files done' last.words last.redirections st' ∧
      done' ++ [last] = done ++ first :: later := by
  induction later generalizing first done st atBegin with
  | nil =>
      rcases reading.readSegment first begins [] with ⟨st', collected, behind⟩
      refine ⟨done, first, st', ?_, behind, rfl⟩
      simpa [lineTokens, collectStatement] using collected
  | cons next later ih =>
      rcases reading.readSegment first begins ("|" :: lineTokens next later) with
        ⟨st', collected, behind⟩
      have onward : (false && next.words.isEmpty) = false := rfl
      rcases ih behind.pipe onward with ⟨done', last, st'', continues, read, all⟩
      refine ⟨done', last, st'', ?_, read, by simpa using all⟩
      rw [← continues]
      simpa [lineTokens, collectStatement] using collected

/-- The lists of a line whose first segment has a word: a segment stores as many commands as it
has redirections, and at least one. -/
theorem collectStatement_line (files : Files File) (table : Table File) (later : List Segment)
    (begins : first.words ≠ []) :
    ∃ st, collectStatement files true (lineTokens first later) (.start table) = some st ∧
      st.close.complete = allStored (first :: later) ∧
      Redirected files st.close.ipc.table (first :: later) st.close.redirDups := by
  have named : (true && first.words.isEmpty) = false := by simpa using begins
  rcases (Reading.start files table).readLine named later with
    ⟨done, last, st, collected, reading, all⟩
  rw [List.nil_append] at all
  refine ⟨st, collected, ?_, ?_⟩
  · rw [reading.complete, ← all]
    simp [allStored]
  · rw [← all]
    exact List.rel_append reading.redirDups (.cons reading.singleDupList .nil)

/-! ## One redirection for each command -/

theorem length_allStored_cons (segment : Segment) (segments : List Segment) :
    (allStored (segment :: segments)).length =
      segment.redirections.length - 1 + 1 + (allStored segments).length := by
  rw [allStored, List.flatMap_cons, List.length_append, stored, List.length_cons,
    List.length_replicate]
  rfl

theorem length_le_allStored (segments : List Segment) :
    segments.length ≤ (allStored segments).length := by
  induction segments with
  | nil => exact Nat.le_refl 0
  | cons segment segments ih =>
      rw [length_allStored_cons, List.length_cons]
      omega

/-- There are as many commands as segments when no segment has a second redirection. -/
theorem length_allStored_iff (segments : List Segment) :
    (allStored segments).length = segments.length ↔
      ∀ segment ∈ segments, segment.redirections.length ≤ 1 := by
  induction segments with
  | nil => simp [allStored]
  | cons segment segments ih =>
      have atLeast := length_le_allStored segments
      rw [List.forall_mem_cons, ← ih, length_allStored_cons, List.length_cons]
      omega

theorem isSome_setUp_iff {i : Nat} : (setUp st i).isSome = true ↔
    (∃ execArgs, st.complete[i]? = some execArgs ∧ execArgs ≠ []) ∧ i < st.redirDups.length := by
  unfold setUp guard
  cases st.complete[i]? with
  | none => simp
  | some execArgs =>
      by_cases empty : execArgs = []
      · simp [empty]
      · cases myDups : st.redirDups[i]? with
        | none =>
            have outside := List.getElem?_eq_none_iff.mp myDups
            simp [empty, outside]
        | some myDups' =>
            have inside := (List.getElem?_eq_some_iff.mp myDups).1
            simp [empty, inside]

theorem Collects.words_ne_nil {segments : List Segment} (collects : Collects files segments st) :
    ∀ segment ∈ segments, segment.words ≠ [] := by
  intro segment member
  rcases List.mem_iff_getElem.mp member with ⟨i, inside, rfl⟩
  have inRange := collects.inRange i (by simpa [collects.complete] using inside)
  rcases (isSome_setUp_iff.mp inRange).1 with ⟨execArgs, found, nonempty⟩
  have isWords : execArgs = segments[i].words := by
    simpa [collects.complete, inside] using found.symm
  exact isWords ▸ nonempty

/-- Segments with at most one redirection store their own commands. -/
theorem allStored_eq {segments : List Segment}
    (single : ∀ segment ∈ segments, segment.redirections.length ≤ 1) :
    allStored segments = segments.map Segment.words := by
  rw [allStored, ← List.flatMap_singleton' (segments.map _), List.flatMap_map]
  apply List.flatMap_congr
  intro segment member
  have none : segment.redirections.length - 1 = 0 := Nat.sub_eq_zero_of_le (single segment member)
  rw [stored, none]
  rfl

/-- The lists have one entry for every segment, and every child finds its own, exactly when each
segment has a word and at most one redirection. -/
theorem collects_iff (files : Files File) (table : Table File) (first : Segment)
    (later : List Segment) :
    (∃ st, collectStatement files true (lineTokens first later) (.start table) = some st ∧
        Collects files (first :: later) st.close) ↔
      ∀ segment ∈ first :: later, segment.words ≠ [] ∧ segment.redirections.length ≤ 1 := by
  constructor
  · rintro ⟨st, collected, collects⟩
    have named := collects.words_ne_nil
    rcases collectStatement_line files table later (named first List.mem_cons_self) with
      ⟨st', collected', complete, -⟩
    obtain rfl : st = st' := Option.some.inj (collected.symm.trans collected')
    have single := (length_allStored_iff (first :: later)).mp (by
      rw [← complete, collects.complete, List.length_map])
    exact fun segment member => ⟨named segment member, single segment member⟩
  · intro each
    rcases collectStatement_line files table later (each first List.mem_cons_self).1 with
      ⟨st, collected, complete, redirDups⟩
    have isComplete := complete.trans (allStored_eq fun segment member => (each segment member).2)
    refine ⟨st, collected, isComplete, redirDups, ?_⟩
    intro i inside
    rw [isComplete, List.length_map] at inside
    rw [isSome_setUp_iff, ← redirDups.length_eq, isComplete]
    have found : ((first :: later).map Segment.words)[i]? = some (first :: later)[i].words := by
      rw [List.getElem?_map, List.getElem?_eq_getElem inside]
      rfl
    exact ⟨⟨_, found, (each _ (List.getElem_mem inside)).1⟩, inside⟩

/-- The input and the output of one command. -/
theorem collects_fails :
    ¬∀ (files : Files Unit) (table : Table Unit) (first : Segment) (later : List Segment),
      ∃ st, collectStatement files true (lineTokens first later) (.start table) = some st ∧
        Collects files (first :: later) st.close := by
  intro each
  let cat : Segment :=
    ⟨["cat"], [⟨.input, "a", (by decide)⟩, ⟨.output, "b", (by decide)⟩], (by decide)⟩
  rcases each ⟨fun _ => some (), fun _ => some ()⟩ [] cat [] with ⟨st, collected, collects⟩
  cases collected
  cases collects.complete

end QuashLabs.QuashProj
