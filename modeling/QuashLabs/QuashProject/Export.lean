import Mathlib.Data.List.TakeWhile
import QuashLabs.Checked.Outcome
import QuashLabs.QuashProject.Variables

/-!
# The `export` of `quash.cpp`

The branch looks for `=` and for a `$` behind it. Wherever the `$` stands, the text from the
second character behind the `=` on is the name of the variable whose value is taken, and the
working directory is taken for `PWD`. Without `=` the position behind it is the beginning of
the word, so that the word is both the name and the value.
-/

namespace QuashLabs.QuashProject

open QuashLabs.Checked
open QuashLabs.Quash.Parsing (isIdentifierChar)

/-! ## The branch -/

/-- `"PWD"`. -/
def pwd : List Char := ['P', 'W', 'D']

/-- `word.substr(pos,npos)`. -/
def exportName (word : List Char) : List Char := word.takeWhile (· != '=')

/-- `word.substr(npos+1)`; without `=` the sum wraps around to the first position. -/
def behindEquals (word : List Char) : List Char :=
  if '=' ∈ word then (word.dropWhile (· != '=')).drop 1 else word

/-- `getcwd(buf,MAX_LIMIT)` where a string is needed. -/
def getcwd (cwd : Option (List Char)) : Except Fault (List Char) :=
  match cwd with
  | some path => .ok path
  | none => .error .nullGetcwd

/-- The value for `setenv`; `cwd` is the result of `getcwd`. -/
def exportValue (env : Variables) (cwd : Option (List Char)) (word : List Char) :
    Except Fault (List Char) :=
  if '$' ∈ behindEquals word then
    if (behindEquals word).drop 1 = pwd then getcwd cwd
    else getenv env ((behindEquals word).drop 1)
  else .ok (behindEquals word)

/-- The branch for `export`, for a list of two words: the environment, and whether an error was
reported. -/
def exportBranch (env : Variables) (cwd : Option (List Char)) (cmd : List (List Char)) :
    Except Fault (Variables × Bool) := do
  let word := cmd.tail.headD []
  let value ← exportValue env cwd word
  match setenv env (exportName word) value with
  | some env => return (env, false)
  | none => return (env, true)

/-! ## Texts of C

The branch gives the name and the value to `setenv` by `c_str`, so that they end at their
first null character; there is none in a word and in what `getenv` and `getcwd` return.
-/

/-- No name and no value has a null character. -/
def NoTerminator (env : Variables) : Prop :=
  ∀ name value, env.lookup name = some value → '\x00' ∉ name ∧ '\x00' ∉ value

/-- What the branch works on. -/
structure ExportInput where
  env : Variables
  cwd : Option (List Char)
  word : List Char
  envTexts : NoTerminator env
  cwdText : ∀ path, cwd = some path → '\x00' ∉ path
  wordText : '\x00' ∉ word

/-! ## What it should do -/

/-- What stands behind a `$`, with the value of the variable that is named at its beginning. -/
def expandBehind (env : Variables) (text : List Char) : List Char :=
  if text.takeWhile isIdentifierChar = [] then '$' :: text
  else (env.lookup (text.takeWhile isIdentifierChar)).getD [] ++ text.dropWhile isIdentifierChar

/-- A text with each `$V` replaced by the value of `V`. -/
def expand (env : Variables) (text : List Char) : List Char :=
  match text.splitOn '$' with
  | [] => []
  | first :: behind => first ++ behind.flatMap (expandBehind env)

/-- `export NAME=VALUE` sets `NAME` to what `VALUE` means, and without `=` nothing is
changed. -/
structure Exports (env : Variables) (cwd : Option (List Char)) (word : List Char) : Prop where
  assigns : ∀ name value, word = name ++ '=' :: value → ∀ isValid : IsVariable name,
    exportBranch env cwd ["export".toList, word] =
      .ok (env.assign name isValid (expand env value), false)
  keeps : '=' ∉ word → ∃ reported,
    exportBranch env cwd ["export".toList, word] = .ok (env, reported)

/-- `$V` and nothing else. -/
def IsReference (value : List Char) : Prop :=
  value.head? = some '$' ∧ value.tail ≠ [] ∧ ∀ c ∈ value.tail, isIdentifierChar c = true

/-- The values that are taken for what they mean: one without `$`, a reference to a variable
that is set, and one behind whose first character the name of a variable stands that has
just this value. The working directory is taken for `$PWD`. -/
def TakenAsMeant (env : Variables) (cwd : Option (List Char)) (value : List Char) : Prop :=
  '$' ∉ value ∨
    (IsReference value ∧
      if value.tail = pwd then cwd = some ((env.lookup pwd).getD [])
      else (env.lookup value.tail).isSome = true) ∨
    (¬IsReference value ∧ env.lookup value.tail = some (expand env value))

/-- What the branch takes for a text: the text itself, or with a `$` in it the value of the
variable named behind its first character. -/
def taken (env : Variables) (cwd : Option (List Char)) (text : List Char) : Option (List Char) :=
  if '$' ∈ text then if text.tail = pwd then cwd else env.lookup text.tail
  else some text

/-- The words for which the branch does what it should: the value is taken for what it means,
and a word without `=` is empty, or the name of a variable that has already the value that is
taken for the word. -/
structure ExportSound (env : Variables) (cwd : Option (List Char)) (word : List Char) : Prop where
  assigned : '=' ∈ word → exportName word ≠ [] → TakenAsMeant env cwd (behindEquals word)
  plain : '=' ∉ word → word ≠ [] →
    ∃ value, env.lookup word = some value ∧ taken env cwd word = some value

variable {env : Variables} {cwd : Option (List Char)} {word name value : List Char}

/-! ## Values -/

theorem expand_plain (plain : '$' ∉ value) : expand env value = value := by
  simp [expand, List.splitOn_eq_singleton plain]

/-- A reference means the value of its variable. -/
theorem expand_reference (nonempty : name ≠ []) (named : ∀ c ∈ name, isIdentifierChar c = true) :
    expand env ('$' :: name) = (env.lookup name).getD [] := by
  have noDollar : '$' ∉ name := by
    intro member
    exact absurd (named '$' member) (by decide)
  have split : ('$' :: name).splitOn '$' = [[], name] := by
    have pieces := List.splitOn_append_cons_self_of_not_mem (List.not_mem_nil (a := '$')) name
    rwa [List.splitOn_eq_singleton noDollar] at pieces
  have all : name.takeWhile isIdentifierChar = name := List.takeWhile_eq_self_iff.mpr named
  have none : name.dropWhile isIdentifierChar = [] := List.dropWhile_eq_nil_iff.mpr named
  simp [expand, split, expandBehind, all, none, nonempty]

/-- The text `$PWD` is a reference, and with another first character it has no `$`. -/
theorem tail_ne_pwd (other : ¬IsReference value) (dollar : '$' ∈ value) : value.tail ≠ pwd := by
  intro isPwd
  cases value with
  | nil => cases dollar
  | cons c name =>
      obtain rfl : name = pwd := isPwd
      have first : c = '$' := by
        rcases List.mem_cons.mp dollar with first | later
        · exact first.symm
        · exact absurd later (by decide)
      subst first
      exact other ⟨rfl, by decide, by simp only [← List.forall_iff_forall_mem]; decide⟩

theorem eq_getD_iff (found : Option (List Char)) :
    found = some (found.getD []) ↔ found.isSome = true := by
  cases found with
  | none => simp
  | some value => simp

/-- The value that is taken is the one that is meant. -/
theorem taken_eq_expand_iff :
    taken env cwd value = some (expand env value) ↔ TakenAsMeant env cwd value := by
  by_cases dollar : '$' ∈ value
  · by_cases reference : IsReference value
    · simp only [taken, TakenAsMeant, dollar, reference, not_true_eq_false, false_or, if_true,
        true_and, false_and, or_false]
      cases value with
      | nil => cases dollar
      | cons c name =>
          rcases reference with ⟨first, nonempty, named⟩
          obtain rfl : c = '$' := by simpa using first
          rw [List.tail_cons] at nonempty named ⊢
          rw [expand_reference nonempty named]
          split
          · rename_i isPwd
            rw [isPwd]
          · exact eq_getD_iff _
    · have notPwd := tail_ne_pwd reference dollar
      simp [taken, TakenAsMeant, dollar, reference, notPwd]
  · simp [taken, TakenAsMeant, dollar, expand_plain dollar]

theorem exportValue_eq_ok_iff :
    exportValue env cwd word = .ok value ↔ taken env cwd (behindEquals word) = some value := by
  simp only [exportValue, taken, List.drop_one]
  split_ifs
  · cases cwd with
    | none => simp [getcwd]
    | some path => simp [getcwd]
  · exact getenv_eq_ok_iff
  · simp

/-! ## Words -/

theorem not_mem_exportName (word : List Char) : '=' ∉ exportName word := by
  intro member
  simpa using List.mem_takeWhile_imp member

/-- A word with `=` is a name and a value. -/
theorem split_equals (equals : '=' ∈ word) :
    word = exportName word ++ '=' :: behindEquals word := by
  have split := List.takeWhile_append_dropWhile (p := (· != '=')) (l := word)
  have first := List.head?_dropWhile_not (· != '=') word
  rw [behindEquals, if_pos equals, exportName]
  generalize word.dropWhile (· != '=') = behind at split first ⊢
  cases behind with
  | nil =>
      rw [List.append_nil] at split
      rw [← split] at equals
      exact absurd equals (not_mem_exportName word)
  | cons c value =>
      obtain rfl : c = '=' := by simpa using first
      exact split.symm

/-- The name and the value of a word. -/
theorem parts_of_equals (noEquals : '=' ∉ name) :
    exportName (name ++ '=' :: value) = name ∧ behindEquals (name ++ '=' :: value) = value := by
  have equals : '=' ∈ name ++ '=' :: value := by simp
  have before : ∀ c ∈ name, (c != '=') = true := by
    intro c member
    simpa using ne_of_mem_of_not_mem member noEquals
  constructor
  · rw [exportName, List.takeWhile_append_of_pos before, List.takeWhile_cons_of_neg (by decide),
      List.append_nil]
  · rw [behindEquals, if_pos equals, List.dropWhile_append_of_pos before,
      List.dropWhile_cons_of_neg (by decide), List.drop_one, List.tail_cons]

/-- Up to a character that is not there stands the whole text. -/
theorem takeWhile_of_not_mem {c : Char} (none : c ∉ word) : word.takeWhile (· != c) = word := by
  refine List.takeWhile_eq_self_iff.mpr fun other member => ?_
  simpa using ne_of_mem_of_not_mem member none

/-- A word without `=` is its own name and its own value. -/
theorem parts_of_plain (noEquals : '=' ∉ word) :
    exportName word = word ∧ behindEquals word = word :=
  ⟨takeWhile_of_not_mem noEquals, if_neg noEquals⟩

/-- With a valid name the branch assigns the value that is taken. -/
theorem exportBranch_of_valid (isName : exportName word = name) (isValid : IsVariable name)
    {after : Variables} {reported : Bool} :
    exportBranch env cwd ["export".toList, word] = .ok (after, reported) ↔
      ∃ value, taken env cwd (behindEquals word) = some value ∧
        env.assign name isValid value = after ∧ reported = false := by
  subst isName
  have assigns (value : List Char) :
      setenv env (exportName word) value = some (env.assign (exportName word) isValid value) :=
    dif_pos isValid
  simp only [exportBranch, List.tail_cons, List.headD_cons, bind_eq_ok, exportValue_eq_ok_iff,
    assigns, pure_eq_ok, Except.ok.injEq, Prod.mk.injEq, eq_comm (a := false)]

theorem noTerminator_assign (texts : NoTerminator env) {isValid : IsVariable name}
    (nameText : '\x00' ∉ name) (valueText : '\x00' ∉ value) :
    NoTerminator (env.assign name isValid value) := by
  intro other found looked
  by_cases same : other = name
  · subst same
    rw [Environment.Store.lookup_assign_self] at looked
    exact ⟨nameText, Option.some.inj looked ▸ valueText⟩
  · rw [Environment.Store.lookup_assign_of_ne same] at looked
    exact texts other found looked

/-- What is taken for a text without null characters has none. -/
theorem noTerminator_taken (input : ExportInput) {text : List Char} (noNull : '\x00' ∉ text)
    (takes : taken input.env input.cwd text = some value) : '\x00' ∉ value := by
  unfold taken at takes
  split at takes
  · split at takes
    · exact input.cwdText value takes
    · exact (input.envTexts _ value takes).2
  · exact Option.some.inj takes ▸ noNull

/-- Behind the branch there is no null character in the environment either. -/
theorem exportBranch_noTerminator (input : ExportInput) {after : Variables} {reported : Bool}
    (returns : exportBranch input.env input.cwd ["export".toList, input.word] =
      .ok (after, reported)) : NoTerminator after := by
  have nameText : '\x00' ∉ exportName input.word := fun member =>
    input.wordText (List.takeWhile_subset _ member)
  have behindText : '\x00' ∉ behindEquals input.word := by
    unfold behindEquals
    split
    · exact fun member =>
        input.wordText (List.dropWhile_subset _ (List.drop_subset 1 _ member))
    · exact input.wordText
  by_cases isValid : IsVariable (exportName input.word)
  · rcases (exportBranch_of_valid rfl isValid).mp returns with ⟨value, takes, rfl, -⟩
    exact noTerminator_assign input.envTexts nameText (noTerminator_taken input behindText takes)
  · rcases bind_eq_ok.mp returns with ⟨value, -, ends⟩
    have refused : setenv input.env (exportName input.word) value = none := dif_neg isValid
    simp only [List.tail_cons, List.headD_cons, refused] at ends
    cases ends
    exact input.envTexts

/-- The branch does what it should exactly for the words whose value is taken for what it
means, and for those without `=` that change nothing. -/
theorem exports_iff (input : ExportInput) :
    Exports input.env input.cwd input.word ↔ ExportSound input.env input.cwd input.word := by
  rcases input with ⟨env, cwd, word, -, -, -⟩
  constructor
  · intro exports
    constructor
    · intro equals nonempty
      have isValid : IsVariable (exportName word) := ⟨nonempty, not_mem_exportName word⟩
      have assigned := exports.assigns _ _ (split_equals equals) isValid
      rcases (exportBranch_of_valid rfl isValid).mp assigned with ⟨value, takes, same, -⟩
      rw [Environment.Store.assign_inj] at same
      rw [← taken_eq_expand_iff, takes, same]
    · intro noEquals nonempty
      rcases exports.keeps noEquals with ⟨reported, kept⟩
      rcases parts_of_plain noEquals with ⟨isName, isValue⟩
      have isValid : IsVariable word := ⟨nonempty, noEquals⟩
      rcases (exportBranch_of_valid isName isValid).mp kept with ⟨value, takes, same, -⟩
      rw [Environment.Store.assign_eq_self_iff] at same
      rw [isValue] at takes
      exact ⟨value, same, takes⟩
  · intro sound
    constructor
    · rintro name value rfl isValid
      rcases @parts_of_equals _ value isValid.2 with ⟨isName, isValue⟩
      have meant := sound.assigned (by simp) (by rw [isName]; exact isValid.1)
      rw [isValue, ← taken_eq_expand_iff] at meant
      apply (exportBranch_of_valid isName isValid).mpr
      exact ⟨expand env value, by rw [isValue, meant], rfl, rfl⟩
    · intro noEquals
      rcases parts_of_plain noEquals with ⟨isName, isValue⟩
      by_cases empty : word = []
      · subst empty
        exact ⟨true, rfl⟩
      · rcases sound.plain noEquals empty with ⟨value, found, takes⟩
        have isValid : IsVariable word := ⟨empty, noEquals⟩
        refine ⟨false, (exportBranch_of_valid isName isValid).mpr ⟨value, ?_, ?_, rfl⟩⟩
        · rw [isValue, takes]
        · exact Environment.Store.assign_eq_self_iff.mpr found

/-- The word `A=b$B`, where `B` has the value `x`. -/
def dollarInside : ExportInput where
  env := Environment.Store.empty.assign ['B'] (by decide) ['x']
  cwd := none
  word := "A=b$B".toList
  envTexts := noTerminator_assign (fun _ _ looked => by cases looked) (by decide) (by decide)
  cwdText := nofun
  wordText := by decide

/-- `export A=b$B` looks for a variable of the name `$B`. -/
theorem exports_fails : ¬Exports dollarInside.env dollarInside.cwd dollarInside.word := by
  intro exports
  have assigned := exports.assigns ['A'] "b$B".toList rfl (by decide)
  cases assigned

end QuashLabs.QuashProject
