import Mathlib.Data.List.Basic
import Mathlib.Data.List.TakeWhile

/-!
# The words of a line

`cmdParser` of `quash.cpp` and `quash_final.cpp` cuts a line at its spaces, up to the first
word that begins with `#`. The loop is bounded by the size of the line inclusively, and the
spaces behind a word are not skipped before the bound is tested: a line that ends with a space
gets an empty word behind its last one.
-/

namespace QuashLabs.QuashProject

/-! ## The function -/

/-- `s.front()`; behind the characters of a string stands its terminator. -/
def front (s : List Char) : Char := s.headD '\x00'

/-- The loop `while(pos<cmd.size() && cmd[pos] == ' ') ++pos;`. -/
def skipSpaces (cmd : List Char) (pos : Nat) : Nat :=
  if _space : cmd[pos]? = some ' ' then skipSpaces cmd (pos + 1) else pos
termination_by cmd.length - pos
decreasing_by
  have := (List.getElem?_eq_some_iff.mp _space).1
  omega

/-- `cmd.find(' ', pos)`, where `none` is `npos`. -/
def findSpace (cmd : List Char) (pos : Nat) : Option Nat :=
  ((cmd.drop pos).findIdx? (· == ' ')).map (pos + ·)

/-- `cmd.substr(pos)` without a space behind `pos`, `cmd.substr(pos, npos - pos)` with one. -/
def wordAt (cmd : List Char) (pos : Nat) : List Char :=
  match findSpace cmd (pos + 1) with
  | none => cmd.drop pos
  | some npos => (cmd.drop pos).take (npos - pos)

theorem le_skipSpaces (cmd : List Char) (pos : Nat) : pos ≤ skipSpaces cmd pos := by
  induction pos using skipSpaces.induct cmd with
  | case1 pos space ih =>
      rw [skipSpaces, dif_pos space]
      omega
  | case2 pos other => rw [skipSpaces, dif_neg other]

/-- The loop `for(size_t pos=0;pos<=cmd.size();pos+=intcmd.size()+1)`. -/
def parseLoop (cmd : List Char) (pos : Nat) (intcmd : List Char) (outcmd : List (List Char)) :
    List (List Char) :=
  if _bound : pos ≤ cmd.length then
    let start := skipSpaces cmd pos
    if cmd = [] then outcmd ++ [intcmd]
    else
      let intcmd := wordAt cmd start
      if front intcmd = '#' then outcmd
      else parseLoop cmd (skipSpaces cmd start + intcmd.length + 1) intcmd (outcmd ++ [intcmd])
  else outcmd
termination_by cmd.length + 1 - pos
decreasing_by
  have skipped := le_skipSpaces cmd pos
  have again := le_skipSpaces cmd (skipSpaces cmd pos)
  omega

/-- `cmdParser`. -/
def cmdParser (cmd : List Char) : List (List Char) :=
  parseLoop cmd 0 [] (if front cmd = '#' then [[]] else [])

/-! ## What it should return -/

/-- The maximal runs of characters other than spaces. -/
def runs (cmd : List Char) : List (List Char) := (cmd.splitOn ' ').filter (· ≠ [])

/-- A run that begins a comment. -/
def isComment (run : List Char) : Bool := front run == '#'

/-- The runs up to the first comment. -/
def runsBeforeComment (cmd : List Char) : List (List Char) :=
  (runs cmd).takeWhile (!isComment ·)

/-- The words are the runs before the first comment, and an empty one stands among them only
where there is no such run. -/
def Splits (cmd : List Char) (words : List (List Char)) : Prop :=
  words.filter (· ≠ []) = runsBeforeComment cmd ∧ (runsBeforeComment cmd ≠ [] → [] ∉ words)

instance (cmd : List Char) (words : List (List Char)) : Decidable (Splits cmd words) :=
  inferInstanceAs (Decidable (_ ∧ _))

/-! ## Positions and suffixes -/

variable {cmd rest word : List Char} {pos : Nat}

theorem getElem?_of_drop {c : Char} (suffix : cmd.drop pos = c :: rest) : cmd[pos]? = some c := by
  rw [← List.head?_drop, suffix, List.head?_cons]

theorem drop_succ_of_drop {c : Char} (suffix : cmd.drop pos = c :: rest) :
    cmd.drop (pos + 1) = rest := by
  rw [← List.drop_drop, suffix, List.drop_one, List.tail_cons]

/-- Skipping spaces stops at the first other character. -/
theorem drop_skipSpaces (suffix : cmd.drop pos = rest) :
    cmd.drop (skipSpaces cmd pos) = rest.dropWhile (· == ' ') := by
  induction rest generalizing pos with
  | nil =>
      have other : ¬ cmd[pos]? = some ' ' := by
        rw [← List.head?_drop, suffix]
        simp
      rw [skipSpaces, dif_neg other, suffix, List.dropWhile_nil]
  | cons c rest ih =>
      have atPos := getElem?_of_drop suffix
      by_cases space : c = ' '
      · subst space
        rw [skipSpaces, dif_pos atPos, ih (drop_succ_of_drop suffix),
          List.dropWhile_cons_of_pos (by decide)]
      · have other : ¬ cmd[pos]? = some ' ' := by simpa [atPos] using space
        rw [skipSpaces, dif_neg other, suffix, List.dropWhile_cons_of_neg (by simpa using space)]

/-- Where no space stands the loop does nothing. -/
theorem skipSpaces_eq_self (suffix : cmd.drop pos = rest) (notSpace : rest.head? ≠ some ' ') :
    skipSpaces cmd pos = pos := by
  have other : ¬ cmd[pos]? = some ' ' := by rwa [← List.head?_drop, suffix]
  rw [skipSpaces, dif_neg other]

/-- The word at a position goes up to the next space. -/
theorem wordAt_eq (suffix : cmd.drop pos = rest) (notSpace : rest.head? ≠ some ' ') :
    wordAt cmd pos = rest.takeWhile (· != ' ') := by
  cases rest with
  | nil =>
      have behind : cmd.drop (pos + 1) = [] := by rw [← List.drop_drop, suffix, List.drop_nil]
      simp [wordAt, findSpace, behind, suffix]
  | cons c rest =>
      have behind := drop_succ_of_drop suffix
      have first : (c :: rest).takeWhile (· != ' ') = c :: rest.takeWhile (· != ' ') :=
        List.takeWhile_cons_of_pos (by simpa using notSpace)
      rw [first, wordAt, findSpace, behind, suffix]
      cases found : rest.findIdx? (· == ' ') with
      | none =>
          rw [List.findIdx?_eq_none_iff] at found
          have all : rest.takeWhile (· != ' ') = rest :=
            List.takeWhile_eq_self_iff.mpr fun c member => by simpa using found c member
          rw [all]
          rfl
      | some index =>
          have position : rest.findIdx (· == ' ') = index :=
            (List.findIdx?_eq_some_iff_findIdx_eq.mp found).2
          have before : rest.takeWhile (· != ' ') = rest.take index := by
            rw [List.takeWhile_eq_take_findIdx_not, ← position]
            simp [bne]
          have length : pos + 1 + index - pos = index + 1 := by omega
          simp only [Option.map_some, length, before, List.take_succ_cons]

/-! ## Runs -/

theorem runs_nil : runs [] = [] := by decide

theorem runs_space (cmd : List Char) : runs (' ' :: cmd) = runs cmd := by
  have split : (' ' :: cmd).splitOn ' ' = [] :: cmd.splitOn ' ' :=
    List.splitOn_append_cons_self_of_not_mem List.not_mem_nil cmd
  rw [runs, split, List.filter_cons_of_neg (by simp), runs]

theorem runs_dropWhile (cmd : List Char) : runs (cmd.dropWhile (· == ' ')) = runs cmd := by
  induction cmd with
  | nil => rfl
  | cons c cmd ih =>
      by_cases space : c = ' '
      · rw [List.dropWhile_cons_of_pos (by simpa using space), ih, space, runs_space]
      · rw [List.dropWhile_cons_of_neg (by simpa using space)]

theorem runs_word (plain : ' ' ∉ word) (nonempty : word ≠ []) : runs word = [word] := by
  rw [runs, List.splitOn_eq_singleton plain, List.filter_cons_of_pos (by simpa using nonempty),
    List.filter_nil]

theorem runs_word_space (plain : ' ' ∉ word) (nonempty : word ≠ []) (rest : List Char) :
    runs (word ++ ' ' :: rest) = word :: runs rest := by
  rw [runs, List.splitOn_append_cons_self_of_not_mem plain,
    List.filter_cons_of_pos (by simpa using nonempty), runs]

/-! ## The loop on a suffix -/

/-- The empty word behind the last one: there is one where no comment begins and a space is the
last character, or nothing is left at all. -/
def emptyWord (rest : List Char) : List (List Char) :=
  if (runs rest).any isComment = false ∧ rest.getLast?.getD ' ' = ' ' then [[]] else []

/-- What the loop adds for the rest of a line. -/
def wordsOf (rest : List Char) : List (List Char) := runsBeforeComment rest ++ emptyWord rest

theorem wordsOf_blank (blank : rest.dropWhile (· == ' ') = []) : wordsOf rest = [[]] := by
  have noRuns : runs rest = [] := by rw [← runs_dropWhile, blank, runs_nil]
  have spaces : ∀ c ∈ rest, c = ' ' := by
    simpa using List.dropWhile_eq_nil_iff.mp blank
  have last : rest.getLast?.getD ' ' = ' ' := by
    cases ends : rest.getLast? with
    | none => rfl
    | some c => exact spaces c (List.mem_of_getLast? ends)
  simp [wordsOf, emptyWord, runsBeforeComment, noRuns, last]

theorem wordsOf_comment {first : List Char} {others : List (List Char)}
    (split : runs rest = first :: others) (comment : isComment first = true) :
    wordsOf rest = [] := by
  simp [wordsOf, emptyWord, runsBeforeComment, split, comment]

/-- Behind its first spaces a line is used up, or goes on with a word and perhaps a space. -/
theorem word_or_blank (rest : List Char) : rest.dropWhile (· == ' ') = [] ∨
    ∃ word, ' ' ∉ word ∧ word ≠ [] ∧ (rest.dropWhile (· == ' ')).takeWhile (· != ' ') = word ∧
      (rest.dropWhile (· == ' ') = word ∨
        ∃ later, rest.dropWhile (· == ' ') = word ++ ' ' :: later) := by
  have first := List.head?_dropWhile_not (· == ' ') rest
  generalize rest.dropWhile (· == ' ') = here at first ⊢
  cases here with
  | nil => exact .inl rfl
  | cons c tail =>
      right
      have plain : (c != ' ') = true := by simpa using first
      have word : (c :: tail).takeWhile (· != ' ') = c :: tail.takeWhile (· != ' ') :=
        List.takeWhile_cons_of_pos plain
      have split := List.takeWhile_append_dropWhile (p := (· != ' ')) (l := c :: tail)
      have behind := List.head?_dropWhile_not (· != ' ') (c :: tail)
      refine ⟨_, fun space => ?_, by simp [word], rfl, ?_⟩
      · simpa using List.mem_takeWhile_imp space
      · generalize (c :: tail).dropWhile (· != ' ') = after at split behind
        cases after with
        | nil =>
            rw [List.append_nil] at split
            exact .inl split.symm
        | cons d later =>
            obtain rfl : d = ' ' := by simpa using behind
            exact .inr ⟨later, split.symm⟩

theorem getLast?_of_dropWhile (nonempty : rest.dropWhile (· == ' ') ≠ []) :
    rest.getLast? = (rest.dropWhile (· == ' ')).getLast? := by
  have split := List.takeWhile_append_dropWhile (p := (· == ' ')) (l := rest)
  have last := List.getLast?_append_of_ne_nil (rest.takeWhile (· == ' ')) nonempty
  rwa [split] at last

/-- The first run is the word behind the first spaces. -/
theorem runs_of_word (plain : ' ' ∉ word) (nonempty : word ≠ [])
    (ends : rest.dropWhile (· == ' ') = word ∨
      ∃ later, rest.dropWhile (· == ' ') = word ++ ' ' :: later) :
    ∃ others, runs rest = word :: others := by
  rw [← runs_dropWhile]
  rcases ends with last | ⟨later, more⟩
  · exact ⟨[], by rw [last, runs_word plain nonempty]⟩
  · exact ⟨runs later, by rw [more, runs_word_space plain nonempty]⟩

theorem wordsOf_last (plain : ' ' ∉ word) (nonempty : word ≠ []) (unmarked : isComment word = false)
    (last : rest.dropWhile (· == ' ') = word) : wordsOf rest = [word] := by
  have runsHere : runs rest = [word] := by rw [← runs_dropWhile, last, runs_word plain nonempty]
  have noSpace : ¬ rest.getLast?.getD ' ' = ' ' := by
    rw [getLast?_of_dropWhile (by rwa [last]), last, List.getLast?_eq_some_getLast nonempty]
    intro space
    exact plain (space ▸ List.getLast_mem nonempty)
  simp [wordsOf, emptyWord, runsBeforeComment, runsHere, unmarked, noSpace]

theorem wordsOf_more {later : List Char} (plain : ' ' ∉ word) (nonempty : word ≠ [])
    (unmarked : isComment word = false)
    (more : rest.dropWhile (· == ' ') = word ++ ' ' :: later) :
    wordsOf rest = word :: wordsOf later := by
  have runsHere : runs rest = word :: runs later := by
    rw [← runs_dropWhile, more, runs_word_space plain nonempty]
  have sameLast : rest.getLast?.getD ' ' = later.getLast?.getD ' ' := by
    rw [getLast?_of_dropWhile (by simp [more]), more,
      List.getLast?_append_of_ne_nil _ (List.cons_ne_nil _ _), List.getLast?_cons, Option.getD_some]
  simp [wordsOf, emptyWord, runsBeforeComment, runsHere, unmarked, sameLast]

/-- Behind a word and a space the line goes on. -/
theorem drop_word {later : List Char} (start : cmd.drop pos = word ++ ' ' :: later) :
    cmd.drop (pos + word.length + 1) = later ∧ pos + word.length + 1 ≤ cmd.length := by
  constructor
  · rw [Nat.add_assoc, ← List.drop_drop, start, List.drop_length_add_append, List.drop_one,
      List.tail_cons]
  · have length := congrArg List.length start
    simp only [List.length_drop, List.length_append, List.length_cons] at length
    omega

/-- A round of the loop takes the word behind the first spaces of the rest of the line. -/
theorem parseLoop_round (nonempty : cmd ≠ []) (suffix : cmd.drop pos = rest)
    (bound : pos ≤ cmd.length) (intcmd : List Char) (outcmd : List (List Char)) :
    parseLoop cmd pos intcmd outcmd =
      let word := (rest.dropWhile (· == ' ')).takeWhile (· != ' ')
      if front word = '#' then outcmd
      else parseLoop cmd (skipSpaces cmd pos + word.length + 1) word (outcmd ++ [word]) := by
  have start := drop_skipSpaces suffix
  have notSpace : (rest.dropWhile (· == ' ')).head? ≠ some ' ' := by
    intro space
    have := List.head?_dropWhile_not (· == ' ') rest
    simp [space] at this
  rw [parseLoop, dif_pos bound]
  simp only [nonempty, if_false, skipSpaces_eq_self start notSpace, wordAt_eq start notSpace]

theorem parseLoop_beyond (beyond : ¬ pos ≤ cmd.length) (intcmd : List Char)
    (outcmd : List (List Char)) : parseLoop cmd pos intcmd outcmd = outcmd := by
  rw [parseLoop, dif_neg beyond]

/-- From any position the loop adds the words of the rest of the line. -/
theorem parseLoop_eq (nonempty : cmd ≠ []) (suffix : cmd.drop pos = rest)
    (bound : pos ≤ cmd.length) (intcmd : List Char) (outcmd : List (List Char)) :
    parseLoop cmd pos intcmd outcmd = outcmd ++ wordsOf rest := by
  induction length : rest.length using Nat.strong_induction_on
    generalizing pos rest intcmd outcmd with
  | _ n ih =>
      subst length
      have start := drop_skipSpaces suffix
      have inside := congrArg List.length start
      rw [List.length_drop] at inside
      rw [parseLoop_round nonempty suffix bound]
      rcases word_or_blank rest with blank | ⟨word, plain, some_, taken, ends⟩
      · -- Only spaces are left: the last word is empty.
        have unmarked : front [] ≠ '#' := by decide
        rw [blank, List.length_nil] at inside
        simp only [blank, List.takeWhile_nil, if_neg unmarked, List.length_nil]
        rw [parseLoop_beyond (by omega), wordsOf_blank blank]
      · simp only [taken]
        by_cases comment : front word = '#'
        · obtain ⟨others, split⟩ := runs_of_word plain some_ ends
          rw [if_pos comment, wordsOf_comment split (by simpa [isComment] using comment),
            List.append_nil]
        · have unmarked : isComment word = false := by simpa [isComment] using comment
          rw [if_neg comment]
          rcases ends with last | ⟨later, more⟩
          · -- The word is the last of the line.
            have positive := List.length_pos_iff.mpr some_
            rw [last] at inside
            rw [parseLoop_beyond (by omega), wordsOf_last plain some_ unmarked last]
          · have shorter := (List.dropWhile_suffix (· == ' ') (l := rest)).length_le
            rw [more, List.length_append, List.length_cons] at shorter
            obtain ⟨behind, room⟩ := drop_word (start.trans more)
            rw [ih later.length (by omega) behind room word _ rfl,
              wordsOf_more plain some_ unmarked more, List.append_assoc, List.singleton_append]

/-! ## Lines -/

/-- A line that begins with a comment has no other run before it. -/
theorem runs_of_front (comment : front cmd = '#') :
    ∃ first others, runs cmd = first :: others ∧ isComment first = true := by
  have first : cmd.dropWhile (· == ' ') = cmd := by
    cases cmd with
    | nil => rfl
    | cons c cmd =>
        obtain rfl : c = '#' := comment
        exact List.dropWhile_cons_of_neg (by decide)
  rcases word_or_blank cmd with blank | ⟨word, plain, some_, taken, ends⟩
  · rw [← first, blank] at comment
    exact absurd comment (by decide)
  · obtain ⟨others, split⟩ := runs_of_word plain some_ ends
    refine ⟨word, others, split, ?_⟩
    rw [first] at taken
    subst taken
    cases cmd with
    | nil => exact absurd comment (by decide)
    | cons c cmd =>
        obtain rfl : c = '#' := comment
        rfl

/-- `cmdParser` returns the runs before the first comment and perhaps an empty word. -/
theorem cmdParser_eq (cmd : List Char) :
    cmdParser cmd = if front cmd = '#' then [[]] else wordsOf cmd := by
  by_cases empty : cmd = []
  · subst empty
    have notComment : front [] ≠ '#' := by decide
    rw [cmdParser, if_neg notComment, if_neg notComment, parseLoop]
    rfl
  · rw [cmdParser, parseLoop_eq empty List.drop_zero (Nat.zero_le _)]
    by_cases comment : front cmd = '#'
    · obtain ⟨first, others, split, marked⟩ := runs_of_front comment
      rw [if_pos comment, if_pos comment, wordsOf_comment split marked, List.append_nil]
    · rw [if_neg comment, if_neg comment, List.nil_append]

/-- Runs are not empty. -/
theorem ne_nil_of_mem {run : List Char} (member : run ∈ runsBeforeComment cmd) : run ≠ [] := by
  have known : run ∈ runs cmd := (List.takeWhile_sublist _).mem member
  simpa using List.of_mem_filter known

theorem filter_wordsOf (cmd : List Char) :
    (wordsOf cmd).filter (· ≠ []) = runsBeforeComment cmd := by
  have kept : (runsBeforeComment cmd).filter (· ≠ []) = runsBeforeComment cmd :=
    List.filter_eq_self.mpr fun run member => by simpa using ne_nil_of_mem member
  rw [wordsOf, List.filter_append, kept, emptyWord]
  split <;> simp

theorem emptyWord_eq_nil_iff (nonempty : cmd ≠ []) : emptyWord cmd = [] ↔
    (runs cmd).any isComment = true ∨ cmd.getLast? ≠ some ' ' := by
  rw [emptyWord, List.getLast?_eq_some_getLast nonempty]
  simp only [Option.getD_some, Option.some.injEq, ite_eq_right_iff, List.cons_ne_self, imp_false,
    not_and, ne_eq]
  cases (runs cmd).any isComment <;> simp

theorem mem_wordsOf_nil : [] ∈ wordsOf cmd ↔ emptyWord cmd ≠ [] := by
  have other : [] ∉ runsBeforeComment cmd := fun member => ne_nil_of_mem member rfl
  rw [wordsOf, List.mem_append, emptyWord]
  split <;> simp [other]

/-- The words are the runs before the first comment, without an empty word where there is such
a run, exactly when there is none, a comment follows, or the line does not end with a space.
They are these runs and nothing else exactly when the line is moreover not empty and does not
begin with a comment. -/
theorem cmdParser_splits_iff (cmd : List Char) :
    (Splits cmd (cmdParser cmd) ↔ runsBeforeComment cmd = [] ∨
        (runs cmd).any isComment = true ∨ cmd.getLast? ≠ some ' ') ∧
      (cmdParser cmd = runsBeforeComment cmd ↔ cmd ≠ [] ∧ front cmd ≠ '#' ∧
        ((runs cmd).any isComment = true ∨ cmd.getLast? ≠ some ' ')) := by
  by_cases comment : front cmd = '#'
  · obtain ⟨first, others, split, marked⟩ := runs_of_front comment
    have none : runsBeforeComment cmd = [] := by simp [runsBeforeComment, split, marked]
    rw [cmdParser_eq, if_pos comment]
    simp [Splits, none, comment]
  · rw [cmdParser_eq, if_neg comment]
    by_cases empty : cmd = []
    · subst empty
      have only : wordsOf [] = [[]] := rfl
      have none : runsBeforeComment [] = [] := rfl
      simp [Splits, only, none]
    · rw [← emptyWord_eq_nil_iff empty, Splits, filter_wordsOf, mem_wordsOf_nil, not_not, wordsOf,
        List.append_right_eq_self]
      simp only [true_and, ne_eq, empty, comment, not_false_eq_true]
      exact ⟨or_iff_not_imp_left.symm, trivial⟩

/-- The line `a` with a space behind it has an empty word. -/
theorem cmdParser_splits_fails : ¬ Splits ['a', ' '] (cmdParser ['a', ' ']) := by
  rw [cmdParser_eq]
  decide

end QuashLabs.QuashProject
