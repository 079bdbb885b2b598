import QuashLabs.Checked.Outcome
import QuashLabs.QuashProject.CmdParser
import QuashLabs.QuashProject.Commands

/-!
# The loop of `quash.cpp`

`main` takes the back of the list that `cmdParser` returns for a line. A line whose last
word is `&` is run by a copy of the shell, without that word; every other line is run by the
shell. `execute_commands` takes the front of its list. Neither asks whether there is a word.
-/

namespace QuashLabs.QuashProject

open QuashLabs.Checked

/-- The end of an empty list that is taken. -/
inductive EmptyAccess
  | front
  | back
  deriving Repr, DecidableEq

/-- `cmd.front()`. -/
def frontOf (cmd : List String) : Except EmptyAccess String :=
  match cmd.head? with
  | some word => .ok word
  | none => .error .front

/-- `cmd.back()`. -/
def backOf (cmd : List String) : Except EmptyAccess String :=
  match cmd.getLast? with
  | some word => .ok word
  | none => .error .back

/-- The words of a line as strings. -/
def tokens (usercmd : List Char) : List String := (cmdParser usercmd).map String.ofList

/-- The branch that `execute_commands(cmd)` takes. The tests for `exit` and `quit` look at
the size first, the test for `jobs` looks at the front. -/
def enterBranch (cmd : List String) : Except EmptyAccess Branch := do
  let front ← frontOf cmd
  return branchOf front cmd.length

/-- A line that is run: by a copy of the shell or by the shell itself, with these words. -/
structure Served where
  background : Bool
  cmd : List String
  branch : Branch
  deriving Repr, DecidableEq

/-- The call `execute_commands(cmd)`. -/
def execute (background : Bool) (cmd : List String) : Except EmptyAccess Served := do
  let branch ← enterBranch cmd
  return ⟨background, cmd, branch⟩

/-- What `main` does with a line. -/
def serve (usercmd : List Char) : Except EmptyAccess Served := do
  let cmdlist := tokens usercmd
  let last ← backOf cmdlist
  if last = "&" then execute true cmdlist.dropLast
  else execute false cmdlist

/-! ## Lines without a word -/

/-- A line with a word to run: it begins with a comment, or its first run does not begin one,
and its runs before the comment are not `&` alone, or a space behind them adds an empty
word. -/
def HasCommand (line : List Char) : Prop :=
  front line = '#' ∨
    (∀ run ∈ (runs line).head?, isComment run = false) ∧
      (runsBeforeComment line = [['&']] →
        (runs line).any isComment = false ∧ line.getLast? = some ' ')

instance (line : List Char) : Decidable (HasCommand line) :=
  inferInstanceAs (Decidable (_ ∨ _ ∧ _))

variable {line : List Char} {cmd : List String}

/-- The function has a branch for every list but the empty one. -/
theorem enterBranch_eq (cmd : List String) :
    enterBranch cmd = match branch cmd with
      | some branch => .ok branch
      | none => .error .front := by
  cases cmd with
  | nil => rfl
  | cons front rest => rfl

theorem execute_returns_iff {background : Bool} :
    (∃ served, execute background cmd = .ok served) ↔ cmd ≠ [] := by
  cases cmd with
  | nil => simp [execute, enterBranch, frontOf]
  | cons front rest => simp [execute, enterBranch, frontOf]

/-- `main` gets through a line exactly when its list has a back, and without `&` a front. -/
theorem serve_returns_iff : (∃ served, serve line = .ok served) ↔
    tokens line ≠ [] ∧ ((tokens line).getLast? = some "&" → (tokens line).dropLast ≠ []) := by
  cases last : (tokens line).getLast? with
  | none =>
      have empty : tokens line = [] := List.getLast?_eq_none_iff.mp last
      simp [serve, backOf, empty]
  | some word =>
      have nonempty : tokens line ≠ [] := by
        intro empty
        simp [empty] at last
      simp only [serve, backOf, last, ok_bind, Option.some.injEq]
      split
      · rename_i isAmpersand
        simp [execute_returns_iff, isAmpersand, nonempty]
      · rename_i other
        simp [execute_returns_iff, other, nonempty]

theorem runs_eq_nil_iff : runs line = [] ↔ line.dropWhile (· == ' ') = [] := by
  constructor
  · intro none
    rcases word_or_blank line with blank | ⟨word, plain, nonempty, -, ends⟩
    · exact blank
    · rcases runs_of_word plain nonempty ends with ⟨others, split⟩
      rw [none] at split
      cases split
  · intro blank
    rw [← runs_dropWhile, blank, runs_nil]

/-- No word comes out of a line exactly when its first run begins a comment. -/
theorem wordsOf_eq_nil_iff :
    wordsOf line = [] ↔ ∃ run ∈ (runs line).head?, isComment run = true := by
  cases split : runs line with
  | nil => simp [wordsOf_blank (runs_eq_nil_iff.mp split)]
  | cons run others =>
      cases comment : isComment run with
      | true => simp [wordsOf_comment split comment, comment]
      | false => simp [wordsOf, runsBeforeComment, split, comment]

/-- The only word of a line is `&` exactly when this is its only run before a comment and no
empty word is added. -/
theorem wordsOf_eq_ampersand_iff :
    wordsOf line = [['&']] ↔ runsBeforeComment line = [['&']] ∧
      ((runs line).any isComment = true ∨ line.getLast? ≠ some ' ') := by
  by_cases empty : line = []
  · subst empty
    decide
  · rw [← emptyWord_eq_nil_iff empty, wordsOf]
    constructor
    · intro only
      have kept := congrArg (List.filter (· ≠ [])) only
      rw [← wordsOf, filter_wordsOf] at kept
      have runsOnly : runsBeforeComment line = [['&']] := kept
      rw [runsOnly, List.singleton_append, List.cons_eq_cons] at only
      exact ⟨runsOnly, only.2⟩
    · rintro ⟨runsOnly, none⟩
      rw [runsOnly, none, List.append_nil]

/-- Without a trailing `&` a list is empty only when `&` was all of it. -/
theorem dropLast_ne_nil_iff {words : List String} (nonempty : words ≠ []) :
    (words.getLast? = some "&" → words.dropLast ≠ []) ↔ words ≠ ["&"] := by
  cases words with
  | nil => exact absurd rfl nonempty
  | cons first rest =>
      cases rest with
      | nil => simp
      | cons second rest => simp

theorem map_ofList_eq_ampersand_iff {words : List (List Char)} :
    words.map String.ofList = ["&"] ↔ words = [['&']] := by
  have spelled : ["&"] = [['&']].map String.ofList := rfl
  rw [spelled]
  exact (List.map_injective_iff.mpr fun _ _ => String.ofList_injective).eq_iff

/-- `main` gets through a line exactly when the line has a word to run. -/
theorem serve_returns_iff_hasCommand : (∃ served, serve line = .ok served) ↔ HasCommand line := by
  rw [serve_returns_iff, and_congr_right dropLast_ne_nil_iff]
  rw [tokens, ne_eq, List.map_eq_nil_iff, ne_eq, map_ofList_eq_ampersand_iff, cmdParser_eq,
    HasCommand]
  by_cases comment : front line = '#'
  · simp [comment]
  · simp only [comment, if_false, wordsOf_eq_nil_iff, wordsOf_eq_ampersand_iff, false_or]
    simp

end QuashLabs.QuashProject
