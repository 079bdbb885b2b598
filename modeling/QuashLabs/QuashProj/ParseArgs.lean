import QuashLabs.Checked.Outcome
import QuashLabs.QuashProject.CmdParser

/-!
# The words of a line of `QuashProj`

`parseArgs` cuts a line at its spaces. It moves its cursor behind a word and one position
further, which may be one beyond the end of the line, and skips spaces both before a word
and behind it; every use of the cursor comes after a comparison with the size of the line.
-/

namespace QuashLabs.QuashProj

open QuashLabs.Checked QuashLabs.QuashProject

/-! ## The function -/

/-- A position that is used although no character of the line stands there. -/
structure OutOfLine where
  pos : Nat
  deriving Repr, DecidableEq

/-- `cmd[pos]`. -/
def charAt (cmd : List Char) (pos : Nat) : Except OutOfLine Char :=
  match cmd[pos]? with
  | some c => .ok c
  | none => .error ⟨pos⟩

/-- The loop `while(pos < cmd.size() && cmd[pos] == ' ') pos++;`. -/
def skipBlanks (cmd : List Char) (pos : Nat) : Except OutOfLine Nat :=
  if _inside : pos < cmd.length then do
    let c ← charAt cmd pos
    if c = ' ' then skipBlanks cmd (pos + 1) else .ok pos
  else .ok pos
termination_by cmd.length - pos

/-- The two calls of `substr`, which are meant for a position of the line. -/
def word (cmd : List Char) (pos : Nat) : Except OutOfLine (List Char) :=
  if pos < cmd.length then .ok (wordAt cmd pos) else .error ⟨pos⟩

theorem charAt_eq {cmd : List Char} {pos : Nat} (inside : pos < cmd.length) :
    charAt cmd pos = .ok cmd[pos] := by
  simp [charAt, inside]

/-- The loop never looks behind the line, and skips what `cmdParser` skips. -/
theorem skipBlanks_eq (cmd : List Char) (pos : Nat) :
    skipBlanks cmd pos = .ok (skipSpaces cmd pos) := by
  induction pos using skipSpaces.induct cmd with
  | case1 pos space ih =>
      rcases List.getElem?_eq_some_iff.mp space with ⟨inside, isSpace⟩
      rw [skipBlanks, dif_pos inside, charAt_eq inside, ok_bind, if_pos isSpace, ih,
        skipSpaces.eq_1 cmd pos, dif_pos space]
  | case2 pos other =>
      rw [skipBlanks, skipSpaces, dif_neg other]
      split
      · rename_i inside
        have notSpace : ¬cmd[pos] = ' ' := by simpa [inside] using other
        rw [charAt_eq inside, ok_bind, if_neg notSpace]
      · rfl

/-- The loop `while (pos < cmd.size())`. -/
def parseArgsLoop (cmd : List Char) (pos : Nat) (sep : List (List Char)) :
    Except OutOfLine (List (List Char)) :=
  if _inside : pos < cmd.length then
    match _skipped : skipBlanks cmd pos with
    | .error e => .error e
    | .ok start =>
        if start = cmd.length then .ok sep
        else
          match word cmd start with
          | .error e => .error e
          | .ok word =>
              match _again : skipBlanks cmd (start + word.length + 1) with
              | .error e => .error e
              | .ok next => parseArgsLoop cmd next (sep ++ [word])
  else .ok sep
termination_by cmd.length - pos
decreasing_by
  rw [skipBlanks_eq] at _skipped _again
  have first := le_skipSpaces cmd pos
  have second := le_skipSpaces cmd (start + word.length + 1)
  cases _skipped
  cases _again
  omega

/-- `parseArgs`. -/
def parseArgs (cmd : List Char) : Except OutOfLine (List (List Char)) := do
  let sep ← parseArgsLoop cmd 0 []
  return if cmd = [] then sep ++ [[]] else sep

/-! ## What it returns -/

variable {cmd : List Char} {pos : Nat}

/-- Spaces are skipped up to the end of the line at most. -/
theorem skipSpaces_le (bound : pos ≤ cmd.length) : skipSpaces cmd pos ≤ cmd.length := by
  induction pos using skipSpaces.induct cmd with
  | case1 pos space ih =>
      have inside := (List.getElem?_eq_some_iff.mp space).1
      rw [skipSpaces, dif_pos space]
      exact ih inside
  | case2 pos other => rwa [skipSpaces, dif_neg other]

/-- A round of the loop never uses a position behind the line. -/
theorem parseArgsLoop_round (inside : pos < cmd.length) (sep : List (List Char)) :
    parseArgsLoop cmd pos sep =
      let start := skipSpaces cmd pos
      if start = cmd.length then .ok sep
      else parseArgsLoop cmd (skipSpaces cmd (start + (wordAt cmd start).length + 1))
        (sep ++ [wordAt cmd start]) := by
  have bound := skipSpaces_le (Nat.le_of_lt inside)
  rw [parseArgsLoop, dif_pos inside]
  split
  · rename_i skipped
    rw [skipBlanks_eq] at skipped
    cases skipped
  · rename_i start skipped
    rw [skipBlanks_eq] at skipped
    cases skipped
    by_cases atEnd : skipSpaces cmd pos = cmd.length
    · simp only [atEnd, if_true]
    · have within : skipSpaces cmd pos < cmd.length := by omega
      simp only [atEnd, if_false, word, within, if_true]
      split
      · rename_i again
        rw [skipBlanks_eq] at again
        cases again
      · rename_i next again
        rw [skipBlanks_eq] at again
        cases again
        rfl

theorem parseArgsLoop_beyond (beyond : ¬pos < cmd.length) (sep : List (List Char)) :
    parseArgsLoop cmd pos sep = .ok sep := by
  rw [parseArgsLoop, dif_neg beyond]

/-- The runs of a line are its first word and the runs behind the position to which the
cursor is moved. -/
theorem runs_drop (inside : skipSpaces cmd pos < cmd.length) :
    runs (cmd.drop pos) = wordAt cmd (skipSpaces cmd pos) ::
      runs (cmd.drop (skipSpaces cmd pos + (wordAt cmd (skipSpaces cmd pos)).length + 1)) := by
  have start := @drop_skipSpaces cmd _ pos rfl
  generalize skipSpaces cmd pos = here at inside start ⊢
  have length := congrArg List.length start
  rw [List.length_drop] at length
  have notSpace : ((cmd.drop pos).dropWhile (· == ' ')).head? ≠ some ' ' := by
    intro space
    have := List.head?_dropWhile_not (· == ' ') (cmd.drop pos)
    simp [space] at this
  rw [wordAt_eq start notSpace, ← runs_dropWhile]
  rcases word_or_blank (cmd.drop pos) with blank | ⟨word, plain, nonempty, taken, ends⟩
  · rw [blank, List.length_nil] at length
    omega
  · rw [taken]
    rcases ends with last | ⟨later, more⟩
    · -- The cursor is moved beyond the end of the line.
      have behind : cmd.drop (here + word.length + 1) = [] := by
        rw [List.drop_eq_nil_iff]
        rw [last] at length
        omega
      rw [last, behind, runs_word plain nonempty, runs_nil]
    · rw [more, runs_word_space plain nonempty, (drop_word (start.trans more)).1]

/-- From any position the loop adds the runs of the rest of the line. -/
theorem parseArgsLoop_eq (cmd : List Char) (pos : Nat) (sep : List (List Char)) :
    parseArgsLoop cmd pos sep = .ok (sep ++ runs (cmd.drop pos)) := by
  induction left : cmd.length - pos using Nat.strong_induction_on generalizing pos sep with
  | _ n ih =>
      subst left
      by_cases inside : pos < cmd.length
      · have bound := skipSpaces_le (Nat.le_of_lt inside)
        have first := le_skipSpaces cmd pos
        rw [parseArgsLoop_round inside]
        dsimp only
        split
        · rename_i atEnd
          -- Only spaces are left.
          have blank := @drop_skipSpaces cmd _ pos rfl
          rw [atEnd, List.drop_length] at blank
          rw [← runs_dropWhile, ← blank, runs_nil, List.append_nil]
        · rename_i notAtEnd
          have within : skipSpaces cmd pos < cmd.length := by omega
          have second := le_skipSpaces cmd
            (skipSpaces cmd pos + (wordAt cmd (skipSpaces cmd pos)).length + 1)
          rw [ih _ (by omega) _ _ rfl, drop_skipSpaces rfl, runs_dropWhile, runs_drop within,
            List.append_assoc, List.singleton_append]
      · rw [parseArgsLoop_beyond inside, List.drop_eq_nil_of_le (by omega), runs_nil,
          List.append_nil]

/-- `parseArgs` returns the maximal runs of characters other than spaces, and one empty word
for the empty line; it uses no position behind the line. -/
theorem parseArgs_eq_runs (cmd : List Char) :
    parseArgs cmd = .ok (if cmd = [] then [[]] else runs cmd) := by
  rw [parseArgs, parseArgsLoop_eq, ok_bind, List.drop_zero, List.nil_append]
  split
  · rename_i empty
    rw [empty, runs_nil]
    rfl
  · rfl

end QuashLabs.QuashProj
