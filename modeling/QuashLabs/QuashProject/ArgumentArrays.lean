import Mathlib.Data.List.TakeWhile
import QuashLabs.QuashProject.Redirections

/-!
# The argument arrays of `execute_redirections`

Every launched process fills an array with the words of its own command, but the size of the
array is that of `args`, where the collecting loop has left the words of the last command, or
nothing when that command has a redirection. The stages of a token list are its pieces
between the pipes; the words of a stage end at its first redirection operator.
-/

namespace QuashLabs.QuashProject

/-! ## Stages of a token list -/

/-- The tokens that redirect. -/
def isRedirection (token : String) : Bool := token == "<" || token == ">" || token == ">>"

/-- The words of a stage. -/
def stageWords (stage : List String) : List String := stage.takeWhile (!isRedirection ·)

/-- What a stage at the end of the list leaves in `args`. -/
def leftOver (stage : List String) : List String := if stage.any isRedirection then [] else stage

/-- What the loop keeps of the first token: a pipe there is a word, a redirection operator is
skipped. -/
def begun (first : String) : List String := if isRedirection first then [] else [first]

/-- The stages of a list. -/
def stages : List String → List (List String)
  | [] => [[]]
  | first :: rest => (rest.splitOn "|").modifyHead (begun first ++ ·)

/-- The last token is an operator without a file name behind it. -/
def Dangling (cmd : List String) : Prop := ∃ token ∈ cmd.tail.getLast?, isRedirection token

/-- No stage has more words than the last one, which counts as having none if it has a
redirection operator. -/
def LastStageIsLongest (cmd : List String) : Prop :=
  ∀ stage ∈ stages cmd,
    (stageWords stage).length ≤ (leftOver ((stages cmd).getLastD [])).length

instance (cmd : List String) : Decidable (LastStageIsLongest cmd) :=
  inferInstanceAs (Decidable (∀ stage ∈ stages cmd, _))

/-- The loop reads nothing behind the list, and the array of every launched process has a slot
for each of its words and one for the null pointer behind them. -/
def ArgListsFit (cmd : List String) : Prop :=
  ∃ st, collect true cmd .start = some st ∧
    ∀ cmdexec ∈ st.close.fullcommand, cmdexec.length + 1 ≤ st.close.args.length + 1

/-! ## The loop on stages -/

variable {st st' : Collected} {finished : List (List String)} {current tokens : List String}
variable {token file : String}

/-- The variables of the loop after the stages `finished` and the part `current` of the next
one. -/
structure Represents (st : Collected) (finished : List (List String)) (current : List String) :
    Prop where
  flag : st.flag = current.any isRedirection
  fullcommand : st.fullcommand =
    finished.map stageWords ++ if st.flag then [stageWords current] else []
  args : st.args = if st.flag then [] else current

theorem stageWords_of_plain (plain : current.any isRedirection = false) :
    stageWords current = current := by
  refine List.takeWhile_eq_self_iff.mpr fun token member => ?_
  simpa using (List.any_eq_false.mp plain) token member

/-- The first redirection operator and what follows it are no words. -/
theorem stageWords_append
    (redirected : current.any isRedirection = true ∨ isRedirection token = true) :
    stageWords (current ++ [token]) = stageWords current := by
  induction current with
  | nil => simpa [stageWords] using redirected
  | cons first rest ih =>
      cases operator : isRedirection first with
      | true => simp [stageWords, operator]
      | false =>
          have later : rest.any isRedirection = true ∨ isRedirection token = true := by
            simpa [operator] using redirected
          have behind := ih later
          simp only [stageWords] at behind ⊢
          rw [List.cons_append, List.takeWhile_cons_of_pos (by simp [operator]), behind,
            List.takeWhile_cons_of_pos (by simp [operator])]

/-- Where a command ends, its words are stored once. -/
theorem Represents.finishCommand (represents : Represents st finished current) :
    st.finishCommand.fullcommand = finished.map stageWords ++ [stageWords current] ∧
      st.finishCommand.args = [] := by
  have flag := represents.flag
  have fullcommand := represents.fullcommand
  have args := represents.args
  cases redirected : st.flag with
  | true => simp_all [Collected.finishCommand]
  | false =>
      rw [redirected] at flag
      simp_all [Collected.finishCommand, stageWords_of_plain flag.symm]

theorem Represents.onPipe (represents : Represents st finished current) :
    Represents st.onPipe (finished ++ [current]) [] where
  flag := rfl
  fullcommand := by simpa [Collected.onPipe] using represents.finishCommand.1
  args := represents.finishCommand.2

/-- An operator ends a command; the words behind it are skipped. -/
theorem Represents.onOperator (represents : Represents st finished current)
    (operator : isRedirection token = true) (flag : st'.flag = true)
    (fullcommand : st'.fullcommand = st.finishCommand.fullcommand)
    (args : st'.args = st.finishCommand.args) :
    Represents st' finished (current ++ [token]) where
  flag := by simp [flag, operator]
  fullcommand := by
    rw [fullcommand, represents.finishCommand.1, flag, if_pos rfl,
      stageWords_append (.inr operator)]
  args := by rw [args, represents.finishCommand.2, flag, if_pos rfl]

theorem Represents.onWord (represents : Represents st finished current)
    (plain : isRedirection token = false) (open_ : st.flag = false) :
    Represents { st with args := st.args ++ [token] } finished (current ++ [token]) where
  flag := by simp [represents.flag, plain]
  fullcommand := by simpa [open_] using represents.fullcommand
  args := by simpa [open_] using represents.args

theorem Represents.onSkipped (represents : Represents st finished current)
    (redirected : st.flag = true) : Represents st finished (current ++ [token]) where
  flag := by
    have flag := represents.flag
    rw [redirected] at flag
    simp [redirected, ← flag]
  fullcommand := by
    have flag := represents.flag
    rw [redirected] at flag
    rw [stageWords_append (.inl flag.symm)]
    exact represents.fullcommand
  args := by simpa [redirected] using represents.args

/-- What is launched, and what the array is sized from. -/
theorem Represents.close (represents : Represents st finished current) :
    st.close.fullcommand = (finished ++ [current]).map stageWords ∧
      st.close.args = leftOver current := by
  have flag := represents.flag
  have fullcommand := represents.fullcommand
  have args := represents.args
  cases redirected : st.flag with
  | true => simp_all [Collected.close, leftOver]
  | false =>
      rw [redirected] at flag
      simp_all [Collected.close, leftOver, stageWords_of_plain flag.symm]

/-- A round of the loop behind the first token: an operator needs a token behind it, a word
is stored or skipped. -/
theorem collect_cons (token : String) (rest : List String) (st : Collected) :
    collect false (token :: rest) st =
      if token = "|" then collect false rest st.onPipe
      else if token = "<" then
        rest.head?.bind fun file => collect false rest (st.onInput token file)
      else if isRedirection token = true then
        rest.head?.bind fun file => collect false rest (st.onOutput token file)
      else if st.flag = true then collect false rest st
      else collect false rest { st with args := st.args ++ [token] } := by
  by_cases pipe : token = "|"
  · simp [collect, pipe]
  by_cases input : token = "<"
  · simp [collect, input]
  by_cases output : token = ">"
  · simp [collect, output, isRedirection]
  by_cases append : token = ">>"
  · simp [collect, append, isRedirection]
  cases redirected : st.flag with
  | true => simp [collect, pipe, input, output, append, redirected, isRedirection]
  | false => simp [collect, pipe, input, output, append, redirected, isRedirection]

/-- A round ends the current stage at a pipe, and goes on with it at any other token. -/
theorem Represents.round (represents : Represents st finished current)
    (collected : collect false (token :: tokens) st = some st') :
    ∃ next, collect false tokens next = some st' ∧
      if token = "|" then Represents next (finished ++ [current]) []
      else Represents next finished (current ++ [token]) := by
  rw [collect_cons] at collected
  by_cases pipe : token = "|"
  · simp only [if_pos pipe] at collected ⊢
    exact ⟨_, collected, represents.onPipe⟩
  simp only [if_neg pipe] at collected ⊢
  by_cases input : token = "<"
  · rw [if_pos input] at collected
    rcases Option.bind_eq_some_iff.mp collected with ⟨file, -, rest⟩
    exact ⟨_, rest, represents.onOperator (by simp [isRedirection, input]) rfl rfl rfl⟩
  rw [if_neg input] at collected
  by_cases output : isRedirection token = true
  · rw [if_pos output] at collected
    rcases Option.bind_eq_some_iff.mp collected with ⟨file, -, rest⟩
    exact ⟨_, rest, represents.onOperator output rfl rfl rfl⟩
  rw [if_neg output] at collected
  by_cases redirected : st.flag = true
  · rw [if_pos redirected] at collected
    exact ⟨_, collected, represents.onSkipped redirected⟩
  · rw [if_neg redirected] at collected
    exact ⟨_, collected, represents.onWord (Bool.eq_false_iff.mpr output)
      (Bool.eq_false_iff.mpr redirected)⟩

/-! ## The whole list -/

/-- The stages of a list of which `finished` and `current` have been seen. -/
def stagesFrom (finished : List (List String)) (current tokens : List String) :
    List (List String) :=
  finished ++ (tokens.splitOn "|").modifyHead (current ++ ·)

theorem stagesFrom_cons (token : String) (rest : List String) :
    stagesFrom finished current (token :: rest) =
      if token = "|" then stagesFrom (finished ++ [current]) [] rest
      else stagesFrom finished (current ++ [token]) rest := by
  have split := List.splitOnP_cons_eq_if_modifyHead (p := (· == "|")) token rest
  have nonempty := List.splitOnP_ne_nil (· == "|") rest
  simp only [stagesFrom, List.splitOn, split]
  cases pieces : rest.splitOnP (· == "|") with
  | nil => exact absurd pieces nonempty
  | cons first later =>
      by_cases pipe : token = "|"
      · simp [pipe]
      · simp [pipe]

/-- The loop takes the stages apart. -/
theorem Represents.collect (represents : Represents st finished current)
    (collected : collect false tokens st = some st') :
    ∃ finished' current', Represents st' finished' current' ∧
      finished' ++ [current'] = stagesFrom finished current tokens := by
  induction tokens generalizing st finished current with
  | nil =>
      cases collected
      exact ⟨finished, current, represents, by simp [stagesFrom]⟩
  | cons token rest ih =>
      rcases represents.round collected with ⟨next, later, represents⟩
      rw [stagesFrom_cons]
      by_cases pipe : token = "|"
      · rw [if_pos pipe] at represents ⊢
        exact ih represents later
      · rw [if_neg pipe] at represents ⊢
        exact ih represents later

/-- Only an operator at the end of the list stops the loop. -/
theorem collect_continues (behind : tokens ≠ [] ∨ isRedirection token = false) (st : Collected) :
    ∃ next, QuashProject.collect false (token :: tokens) st =
      QuashProject.collect false tokens next := by
  rw [collect_cons]
  split
  · exact ⟨_, rfl⟩
  · cases tokens with
    | nil =>
        have plain := behind.resolve_left (fun none => none rfl)
        have notInput : token ≠ "<" := by
          rintro rfl
          cases plain
        simp only [notInput, plain, if_false, Bool.false_eq_true]
        split
        · exact ⟨_, rfl⟩
        · exact ⟨_, rfl⟩
    | cons file rest =>
        simp only [List.head?_cons, Option.bind_some]
        split_ifs
        · exact ⟨_, rfl⟩
        · exact ⟨_, rfl⟩
        · exact ⟨_, rfl⟩
        · exact ⟨_, rfl⟩

/-- The loop reads behind the list exactly when an operator stands at its end. -/
theorem collect_eq_none_iff : QuashProject.collect false tokens st = none ↔
    ∃ token ∈ tokens.getLast?, isRedirection token = true := by
  induction tokens generalizing st with
  | nil => simp [QuashProject.collect]
  | cons token rest ih =>
      by_cases behind : rest ≠ [] ∨ isRedirection token = false
      · rcases collect_continues behind st with ⟨next, continues⟩
        rw [continues, ih]
        cases rest with
        | nil => simpa using behind
        | cons second rest => rw [List.getLast?_cons_cons]
      · obtain ⟨rfl, operator⟩ : rest = [] ∧ isRedirection token = true := by simpa using behind
        have notPipe : token ≠ "|" := by
          rintro rfl
          cases operator
        simp [collect_cons, notPipe, operator]

/-! ## The arrays -/

/-- The first token is kept or skipped. -/
theorem collect_first (first : String) (rest : List String) :
    ∃ st, QuashProject.collect true (first :: rest) .start = QuashProject.collect false rest st ∧
      Represents st [] (begun first) := by
  cases operator : isRedirection first with
  | true =>
      have begins : begun first = [] := by simp [begun, operator]
      rw [begins]
      refine ⟨.start, ?_, ⟨rfl, rfl, rfl⟩⟩
      have other : first = ">>" ∨ first = ">" ∨ first = "<" := by
        simpa [isRedirection, or_comm, or_assoc, or_left_comm] using operator
      rcases other with rfl | rfl | rfl
      · simp [QuashProject.collect]
      · simp [QuashProject.collect]
      · simp [QuashProject.collect]
  | false =>
      have begins : begun first = [first] := by simp [begun, operator]
      rw [begins]
      refine ⟨{ Collected.start with args := [first] }, ?_, ⟨?_, rfl, rfl⟩⟩
      · simp only [isRedirection, Bool.or_eq_false_iff, beq_eq_false_iff_ne] at operator
        simp [QuashProject.collect, Collected.start, operator]
      · simp [Collected.start, operator]

/-- The array of every process is long enough exactly when no stage has more words than the
last one. -/
theorem Represents.fit_iff (represents : Represents st finished current) :
    (∀ cmdexec ∈ st.close.fullcommand, cmdexec.length + 1 ≤ st.close.args.length + 1) ↔
      ∀ stage ∈ finished ++ [current],
        (stageWords stage).length ≤ (leftOver ((finished ++ [current]).getLastD [])).length := by
  rw [represents.close.1, represents.close.2, List.forall_mem_map, List.getLastD_concat]
  simp only [Nat.add_le_add_iff_right]

/-- The loop reads behind the list exactly when it ends with an operator that is not its first
token, and every array is long enough exactly when this is not so and no stage has more words
than the last one, which counts as having none if it has a redirection. -/
theorem argListsFit_iff (cmd : List String) :
    (QuashProject.collect true cmd .start = none ↔ Dangling cmd) ∧
      (ArgListsFit cmd ↔ ¬Dangling cmd ∧ LastStageIsLongest cmd) := by
  cases cmd with
  | nil =>
      simp [QuashProject.collect, Dangling, ArgListsFit, LastStageIsLongest, stages, stageWords,
        Collected.close, Collected.start]
  | cons first rest =>
      rcases collect_first first rest with ⟨st, begins, represents⟩
      rw [ArgListsFit, begins, collect_eq_none_iff]
      refine ⟨Iff.rfl, ?_⟩
      cases collected : QuashProject.collect false rest st with
      | none =>
          have dangling : Dangling (first :: rest) := collect_eq_none_iff.mp collected
          simp [dangling]
      | some st' =>
          have closed : ¬Dangling (first :: rest) := by
            intro dangling
            have none : QuashProject.collect false rest st = none :=
              collect_eq_none_iff.mpr dangling
            rw [collected] at none
            cases none
          rcases represents.collect collected with ⟨finished, current, represents, all⟩
          have split : stages (first :: rest) = finished ++ [current] := by rw [all]; rfl
          simp only [closed, not_false_eq_true, true_and, Option.some.injEq, exists_eq_left',
            LastStageIsLongest, split]
          exact represents.fit_iff

/-- The array of `cat` in `cat a b c | wc` has two slots. -/
theorem argListsFit_fails : ¬∀ cmd, ArgListsFit cmd := by
  intro all
  rcases all ["cat", "a", "b", "c", "|", "wc"] with ⟨st, collected, fit⟩
  cases collected
  have fits := fit ["cat", "a", "b", "c"] (by decide)
  revert fits
  decide

end QuashLabs.QuashProject
