import Mathlib.Data.List.TakeWhile
import QuashLabs.Quash.Parsing.Scanner

/-!
# Writing a text literally

Two ways to write any text as one word of the shell: in single quotes, with a backslash
before each quote of the text, and without quotes, with a backslash before each character
that ends a bare word or begins a variable. The scanner accepts both as one string; the
interpreter removes the backslashes that it knows.
-/

namespace QuashLabs.Quash.Parsing

open QuashLabs.Checked Scanner

variable {s rest : List Char}

/-! ## In single quotes -/

/-- A character of a quoted text. -/
def quotedChar (c : Char) : List Char := if c = '\'' then ['\\', '\''] else [c]

/-- The text in single quotes. -/
def singleQuoted (s : List Char) : List Char := '\'' :: s.flatMap quotedChar ++ ['\'']

theorem quotedText_flatMap (noBackslash : '\\' ∉ s) : QuotedText (s.flatMap quotedChar) := by
  induction s with
  | nil => exact .nil
  | cons c s ih =>
      rw [List.mem_cons, not_or] at noBackslash
      have later := ih noBackslash.2
      by_cases quote : c = '\''
      · simpa [quotedChar, quote] using QuotedText.escaped '\'' later
      · simpa [quotedChar, quote] using QuotedText.plain (Ne.symm noBackslash.1) quote later

/-- In quotes the characters of the text are read as they are. -/
theorem readAll_quoted (noBackslash : '\\' ∉ s) :
    readAll true (s.flatMap quotedChar ++ ['\'']) = (s.map .literal, false) := by
  induction s with
  | nil => simp [readAll_cons, readAll_nil, read]
  | cons c s ih =>
      rw [List.mem_cons, not_or] at noBackslash
      have later := ih noBackslash.2
      by_cases quote : c = '\''
      · simp [quotedChar, quote, readAll_cons, read, later]
      · simp [quotedChar, quote, readAll_cons, read, Ne.symm noBackslash.1, later]

theorem readAll_singleQuoted (noBackslash : '\\' ∉ s) :
    readAll false (singleQuoted s) = (s.map .literal, false) := by
  rw [singleQuoted, List.cons_append, readAll_cons]
  simp [read, readAll_quoted noBackslash]

theorem fill_literals (env : Environment) (s : List Char) : fill env (s.map .literal) = s := by
  simp [fill, List.flatMap_map, Piece.fill]

theorem copyText_eq {text : List Char} (noTerminator : '\x00' ∉ text) : copyText text = text := by
  apply List.takeWhile_eq_self_iff.mpr
  intro c member
  have other : c ≠ '\x00' := fun terminator => noTerminator (terminator ▸ member)
  simpa using other

/-- Any text without backslashes and terminators, in single quotes and with a backslash
before each quote, is one token, if it fits in the buffer of the scanner, and means
itself in every environment. -/
theorem singleQuoted_literal (noBackslash : '\\' ∉ s) (noTerminator : '\x00' ∉ s)
    (short : (singleQuoted s).length < 2 ^ 31 - 1) :
    (∀ rest, Delimited rest → yylex (singleQuoted s ++ rest) = (.str (singleQuoted s), rest)) ∧
      ∀ env, interpretComplexStringToken env (singleQuoted s) = .ok (s ++ ['\x00']) := by
  constructor
  · intro rest delimited
    have pattern : StringPattern (singleQuoted s) :=
      .single (.quoted (quotedText_flatMap noBackslash))
    have kept : '\x00' ∉ singleQuoted s := by
      simp only [singleQuoted, List.cons_append, List.mem_cons, List.mem_append, List.mem_flatMap,
        not_or, not_exists, not_and]
      refine ⟨by decide, fun c member => ?_, by decide⟩
      have other : '\x00' ≠ c := fun terminator => noTerminator (terminator ▸ member)
      unfold quotedChar
      split <;> simp [other]
    have scanned := yylex_string pattern ⟨'\'', List.mem_cons_self, by decide⟩ delimited
    rwa [copyText_eq kept] at scanned
  · intro env
    rw [interpretComplexStringToken_eq env short, template, readAll_singleQuoted noBackslash]
    simp [fill_literals]

/-- The text `it's $HOME`. -/
theorem singleQuoted_literal_home :
    (∀ rest, Delimited rest →
      yylex (singleQuoted "it's $HOME".toList ++ rest) =
        (.str (singleQuoted "it's $HOME".toList), rest)) ∧
      ∀ env, interpretComplexStringToken env (singleQuoted "it's $HOME".toList) =
        .ok ("it's $HOME".toList ++ ['\x00']) :=
  singleQuoted_literal (by decide) (by decide) (by decide)

/-! ## With backslashes -/

/-- The characters that a bare word does not contain: those that the pattern `sim_str`
leaves out. -/
def specials : List Char := '$' :: wordBreakers

/-- A character of a text with backslashes. -/
def escapedChar (c : Char) : List Char := if c ∈ specials then ['\\', c] else [c]

/-- The text with a backslash before each special character. -/
def backslashed (s : List Char) : List Char := s.flatMap escapedChar

/-- The special characters behind which the interpreter keeps the backslash. -/
def keptEscapes : List Char := ['<', '>', '\r']

/-- What a special character with its backslash becomes. -/
def keptChar (c : Char) : List Char := if c ∈ keptEscapes then ['\\', c] else [c]

theorem escapedChar_piece (c : Char) : StringPiece (escapedChar c) := by
  unfold escapedChar
  split
  · exact .escaped c
  · rename_i bare
    rw [specials, List.mem_cons, not_or] at bare
    exact .plain bare.2

theorem backslashed_pattern {c : Char} : StringPattern (backslashed (c :: s)) := by
  induction s generalizing c with
  | nil => simpa [backslashed] using StringPattern.single (escapedChar_piece c)
  | cons d s ih => exact .append (escapedChar_piece c) ih

/-- A special character is escaped for the interpreter too, or one of three. -/
theorem special_cases {c : Char} (special : c ∈ specials) (notNewline : c ≠ '\n') :
    c ∈ escapable ∧ c ∉ keptEscapes ∨ c ∉ escapable ∧ c ∈ keptEscapes := by
  simp only [specials, wordBreakers, List.mem_cons, List.not_mem_nil, or_false] at special
  rcases special with rfl | rfl | rfl | rfl | rfl | rfl | rfl | rfl | rfl | rfl | rfl | rfl | rfl
  all_goals first | decide | exact absurd rfl notNewline

/-- A character that is not special is read as it is. -/
theorem read_bare {c : Char} (bare : c ∉ ['$', '\'', '\\']) (tail : List Char) :
    read false c tail = ⟨[.literal c], false, tail⟩ := by
  simp only [List.mem_cons, List.not_mem_nil, or_false, not_or] at bare
  simp [read, bare]

/-- A backslash before a character that it escapes. -/
theorem read_escape {c : Char} (escapes : c ∈ escapable) (tail : List Char) :
    read false '\\' (c :: tail) = ⟨[.literal c], false, tail⟩ := by
  simp [read, escapes]

/-- A backslash before another character. -/
theorem read_backslash {c : Char} (kept : c ∉ escapable) (notNewline : c ≠ '\n')
    (tail : List Char) : read false '\\' (c :: tail) = ⟨[.literal '\\'], false, c :: tail⟩ := by
  simp [read, kept, notNewline]

theorem bare_of_kept {c : Char} (kept : c ∈ keptEscapes) : c ∉ ['$', '\'', '\\'] := by
  simp only [keptEscapes, List.mem_cons, List.not_mem_nil, or_false] at kept
  rcases kept with rfl | rfl | rfl <;> decide

/-- Outside quotes the text is read with those backslashes that are kept. -/
theorem readAll_backslashed (noNewline : '\n' ∉ s) :
    readAll false (backslashed s) = ((s.flatMap keptChar).map .literal, false) := by
  induction s with
  | nil => simp [backslashed, readAll_nil]
  | cons c s ih =>
      rw [List.mem_cons, not_or] at noNewline
      have later := ih noNewline.2
      rw [backslashed] at later ⊢
      by_cases special : c ∈ specials
      · rcases special_cases special (Ne.symm noNewline.1) with ⟨escapes, dropped⟩ | ⟨escapes, kept⟩
        · simp [escapedChar, keptChar, special, dropped, readAll_cons, read_escape escapes, later]
        · simp [escapedChar, keptChar, special, kept, readAll_cons,
            read_backslash escapes (Ne.symm noNewline.1), read_bare (bare_of_kept kept), later]
      · have bare : c ∉ ['$', '\'', '\\'] := fun member => special (by
          simp only [List.mem_cons, List.not_mem_nil, or_false] at member
          rcases member with rfl | rfl | rfl <;> decide)
        have dropped : c ∉ keptEscapes := fun kept => special (by
          simp only [keptEscapes, List.mem_cons, List.not_mem_nil, or_false] at kept
          rcases kept with rfl | rfl | rfl <;> decide)
        simp [escapedChar, keptChar, special, dropped, readAll_cons, read_bare bare, later]

/-- No backslash is kept exactly in the texts without those three characters. -/
theorem flatMap_keptChar_eq_iff : s.flatMap keptChar = s ↔ ∀ c ∈ s, c ∉ keptEscapes := by
  induction s with
  | nil => simp
  | cons c s ih =>
      rw [List.forall_mem_cons, ← ih, List.flatMap_cons]
      by_cases kept : c ∈ keptEscapes
      · have notBackslash : '\\' ≠ c := by
          rintro rfl
          exact absurd kept (by decide)
        simp [keptChar, kept, notBackslash]
      · simp [keptChar, kept]

theorem backslash_mem_backslashed (special : ∃ c ∈ s, c ∈ specials) : '\\' ∈ backslashed s := by
  obtain ⟨c, member, special⟩ := special
  refine List.mem_flatMap.mpr ⟨c, member, ?_⟩
  rw [escapedChar, if_pos special]
  exact List.mem_cons_self

/-- A text with a special character, but without newlines and terminators, and with a
backslash before each special character, is one token that means the text itself,
exactly when it has no `<`, no `>` and no carriage return. -/
theorem backslashed_literal_iff (noNewline : '\n' ∉ s) (noTerminator : '\x00' ∉ s)
    (special : ∃ c ∈ s, c ∈ specials) (short : (backslashed s).length < 2 ^ 31 - 1) :
    ((∀ rest, Delimited rest → yylex (backslashed s ++ rest) = (.str (backslashed s), rest)) ∧
        ∀ env, interpretComplexStringToken env (backslashed s) = .ok (s ++ ['\x00'])) ↔
      '<' ∉ s ∧ '>' ∉ s ∧ '\r' ∉ s := by
  have scanned (rest : List Char) (delimited : Delimited rest) :
      yylex (backslashed s ++ rest) = (.str (backslashed s), rest) := by
    have pattern : StringPattern (backslashed s) := by
      obtain ⟨c, s', rfl⟩ := List.exists_cons_of_ne_nil (List.ne_nil_of_mem special.choose_spec.1)
      exact backslashed_pattern
    have kept : '\x00' ∉ backslashed s := by
      simp only [backslashed, List.mem_flatMap, not_exists, not_and]
      intro c member
      have other : '\x00' ≠ c := fun terminator => noTerminator (terminator ▸ member)
      unfold escapedChar
      split <;> simp [other]
    have token := yylex_string pattern ⟨_, backslash_mem_backslashed special, by decide⟩ delimited
    rwa [copyText_eq kept] at token
  have interpreted (env : Environment) : interpretComplexStringToken env (backslashed s) =
      .ok (s.flatMap keptChar ++ ['\x00']) := by
    rw [interpretComplexStringToken_eq env short, template, readAll_backslashed noNewline]
    simp [fill_literals]
  have escapes : (∀ c ∈ s, c ∉ keptEscapes) ↔ '<' ∉ s ∧ '>' ∉ s ∧ '\r' ∉ s := by
    simp only [keptEscapes, List.mem_cons, List.not_mem_nil, or_false, not_or]
    constructor
    · intro each
      exact ⟨fun member => (each _ member).1 rfl, fun member => (each _ member).2.1 rfl,
        fun member => (each _ member).2.2 rfl⟩
    · rintro ⟨noLess, noGreater, noReturn⟩ c member
      exact ⟨fun same => noLess (same ▸ member), fun same => noGreater (same ▸ member),
        fun same => noReturn (same ▸ member)⟩
  rw [and_iff_right scanned, ← escapes, ← flatMap_keptChar_eq_iff]
  simp only [interpreted, Except.ok.injEq, List.append_cancel_right_eq]
  exact ⟨fun each => each environmentA, fun same _ => same⟩

/-- The text `a b`. -/
theorem backslashed_literal_blank :
    ((∀ rest, Delimited rest →
        yylex (backslashed "a b".toList ++ rest) = (.str (backslashed "a b".toList), rest)) ∧
        ∀ env, interpretComplexStringToken env (backslashed "a b".toList) =
          .ok ("a b".toList ++ ['\x00'])) ↔
      '<' ∉ "a b".toList ∧ '>' ∉ "a b".toList ∧ '\r' ∉ "a b".toList :=
  backslashed_literal_iff (by decide) (by decide) ⟨' ', by decide, by decide⟩ (by decide)

/-- The word `\<` means itself and not `<`. -/
theorem backslashed_literal_fails : ¬∀ s : List Char, '\n' ∉ s → '\x00' ∉ s →
    (∃ c ∈ s, c ∈ specials) → (backslashed s).length < 2 ^ 31 - 1 →
      (∀ rest, Delimited rest → yylex (backslashed s ++ rest) = (.str (backslashed s), rest)) ∧
        ∀ env, interpretComplexStringToken env (backslashed s) = .ok (s ++ ['\x00']) := by
  intro literal
  have means :=
    (literal ['<'] (by decide) (by decide) ⟨'<', by decide, by decide⟩ (by decide)).2 environmentA
  have kept : interpretComplexStringToken environmentA (backslashed ['<']) =
      .ok ['\\', '<', '\x00'] := rfl
  cases kept.symm.trans means

end QuashLabs.Quash.Parsing
