import Mathlib.Tactic.Tauto
import QuashLabs.Lexing.Munch
import QuashLabs.Quash.Parsing.Quotes
import QuashLabs.Quash.Parsing.Tables

/-!
# The scanner of the shell

The rules of `parse.l` in their order, and `yylex`: it takes the longest match of the
input, by the first rule that has it, returns the token of that rule, and goes on behind
blanks, comments and characters that no other rule matches.
-/

namespace QuashLabs.Quash.Parsing.Scanner

open QuashLabs.Lexing

/-! ## Rules -/

/-- `.`: any character but a newline. -/
def dot : Pattern Char := .one (· != '\n')

/-- `whitesp`. -/
def whitesp : Pattern Char := .plus (.one fun c => c == ' ' || c == '\t' || c == '\r')

/-- `comment`. -/
def comment : Pattern Char := .seq (.one (· == '#')) (.star dot)

/-- `\\(.|\n)`. -/
def escape : Pattern Char := .seq (.one (· == '\\')) (.alt dot (.one (· == '\n')))

/-- `'(\\(.|\n)|[^\\'])*'`. -/
def quoted : Pattern Char :=
  .seq (.one (· == '\''))
    (.seq (.star (.alt escape (.one fun c => c != '\\' && c != '\''))) (.one (· == '\'')))

/-- One alternative of `string`. -/
def stringPiece : Pattern Char :=
  .alt (.one fun c => decide (c ∉ wordBreakers)) (.alt escape quoted)

/-- `string`. -/
def string : Pattern Char := .plus stringPiece

/-- `sim_str`. -/
def simStr : Pattern Char := .plus (.one fun c => decide (c ∉ wordBreakers) && c != '$')

/-- `id`. -/
def id : Pattern Char := .seq (.one isFirstIdentifierChar) (.star (.one isIdentifierChar))

/-- `number`. -/
def number : Pattern Char := .plus (.one Char.isDigit)

/-- `memory_pool_strdup(yytext)`, which ends at the first terminator. -/
def copyText (yytext : List Char) : List Char := yytext.takeWhile (· ≠ '\x00')

/-- What a rule does with its text: it returns a token, it does nothing, or it reports the
text. -/
inductive Handling
  | token (make : List Char → Token)
  | skip
  | unexpected

/-- A rule for a fixed text and a token without a value. -/
def keyword (text : String) (token : Token) : Pattern Char × Handling :=
  (.word text.toList, .token fun _ => token)

/-- The rules before the one for `string`. -/
def rulesBeforeString : List (Pattern Char × Handling) :=
  [keyword "|" .pipe, keyword "&" .bckgrnd, keyword "=" .equals, keyword "<" .redirIn,
    keyword ">" .redirOut, keyword ">>" .redirOutApp, keyword "echo" .echoTok,
    keyword "export" .exportTok, keyword "cd" .cdTok, keyword "pwd" .pwdTok,
    keyword "jobs" .jobsTok, keyword "kill" .killTok, keyword "\n" .eocTok,
    (.alt (.word "exit".toList) (.word "quit".toList), .token fun yytext =>
      .exitTok (copyText yytext)),
    (number, .token fun yytext => .num (copyText yytext)),
    (id, .token fun yytext => .id (copyText yytext)),
    (simStr, .token fun yytext => .simStr (copyText yytext))]

/-- The rule for `string`. -/
def stringRule : Pattern Char × Handling := (string, .token fun yytext => .str (copyText yytext))

/-- The rules behind it. -/
def rulesBehindString : List (Pattern Char × Handling) :=
  [(comment, .skip), (whitesp, .skip), (dot, .unexpected)]

/-- The rules of `parse.l`. -/
def lexRules : List (Pattern Char × Handling) :=
  rulesBeforeString ++ stringRule :: rulesBehindString

/-- `yylex`: the next token and the input behind it. -/
def yylex (input : List Char) : Token × List Char :=
  match found : munch lexRules input with
  | some (.token make, yytext, rest) => (make yytext, rest)
  | some (_, yytext, rest) =>
      have shorter : rest.length < input.length := by
        obtain ⟨split, nonempty⟩ := munch_split found
        rw [split, List.length_append]
        exact Nat.lt_add_of_pos_left (List.length_pos_iff.mpr nonempty)
      yylex rest
  | none =>
      match input with
      | [] => (.endTok, [])
      | _ :: rest => yylex rest
termination_by input.length

theorem yylex_token {input yytext rest : List Char} {make : List Char → Token}
    (found : munch lexRules input = some (.token make, yytext, rest)) :
    yylex input = (make yytext, rest) := by
  unfold yylex
  split
  · rename_i other
    cases found.symm.trans other
    rfl
  · rename_i notToken other
    cases found.symm.trans other
    exact absurd rfl (notToken make)
  · rename_i other
    cases found.symm.trans other

/-- A token other than the end of the input is made of a match, behind what is skipped. -/
theorem match_of_yylex {input rest : List Char} {token : Token}
    (scans : yylex input = (token, rest)) (inner : token ≠ .endTok) :
    ∃ skipped yytext make, input = skipped ++ (yytext ++ rest) ∧ yytext ≠ [] ∧
      firstMatch lexRules yytext = some (.token make) ∧ make yytext = token := by
  induction n : input.length using Nat.strong_induction_on generalizing input with
  | _ n ih =>
      unfold yylex at scans
      split at scans
      · rename_i make yytext behind found
        obtain ⟨same, rfl⟩ := Prod.mk.inj scans
        obtain ⟨split, nonempty⟩ := munch_split found
        exact ⟨[], yytext, make, split, nonempty, firstMatch_of_munch found, same⟩
      · rename_i blank behind other found
        obtain ⟨split, nonempty⟩ := munch_split found
        have positive := List.length_pos_iff.mpr nonempty
        rw [split, List.length_append] at n
        obtain ⟨skipped, yytext, make, rfl, made⟩ := ih behind.length (by omega) scans rfl
        exact ⟨blank ++ skipped, yytext, make, by rw [split, List.append_assoc], made⟩
      · split at scans
        · exact absurd (Prod.mk.inj scans).1.symm inner
        · rename_i c behind none _
          rw [List.length_cons] at n
          obtain ⟨skipped, yytext, make, rfl, made⟩ := ih behind.length (by omega) scans rfl
          exact ⟨c :: skipped, yytext, make, rfl, made⟩

/-! ## The texts of `string` -/

theorem matches_escape_iff {w : List Char} : Matches escape w ↔ ∃ c, w = ['\\', c] := by
  have any (v : List Char) : Matches (.alt dot (.one (· == '\n'))) v ↔ ∃ c, v = [c] := by
    rw [matches_alt_iff, dot, matches_one_iff, matches_one_iff]
    constructor
    · rintro (⟨c, -, rfl⟩ | ⟨c, -, rfl⟩)
      · exact ⟨c, rfl⟩
      · exact ⟨c, rfl⟩
    · rintro ⟨c, rfl⟩
      by_cases newline : c = '\n'
      · exact .inr ⟨c, by simpa using newline, rfl⟩
      · exact .inl ⟨c, by simpa using newline, rfl⟩
  simp only [escape, matches_seq_iff, matches_one_iff, any, beq_iff_eq]
  constructor
  · rintro ⟨_, _, rfl, ⟨_, rfl, rfl⟩, c, rfl⟩
    exact ⟨c, rfl⟩
  · rintro ⟨c, rfl⟩
    exact ⟨['\\'], [c], rfl, ⟨_, rfl, rfl⟩, c, rfl⟩

/-- The inside of a quoted segment, as the pattern and as a predicate. -/
theorem matches_quotedText_iff {w : List Char} :
    Matches (.star (.alt escape (.one fun c => c != '\\' && c != '\''))) w ↔ QuotedText w := by
  constructor
  · intro here
    generalize shape : Pattern.star _ = pattern at here
    induction here with
    | nil => exact .nil
    | cons first more _ ih =>
        cases shape
        have rest := ih rfl
        rcases matches_alt_iff.mp first with escaped | plain
        · obtain ⟨c, rfl⟩ := matches_escape_iff.mp escaped
          exact .escaped c rest
        · obtain ⟨c, passes, rfl⟩ := matches_one_iff.mp plain
          rw [Bool.and_eq_true, bne_iff_ne, bne_iff_ne] at passes
          exact .plain passes.1 passes.2 rest
    | _ => cases shape
  · intro text
    induction text with
    | nil => exact .nil
    | escaped c _ ih => exact .cons (.left (matches_escape_iff.mpr ⟨c, rfl⟩)) ih
    | plain notBackslash notQuote _ ih =>
        exact .cons (.right (.one (by simp [notBackslash, notQuote]))) ih

theorem matches_stringPiece_iff {w : List Char} : Matches stringPiece w ↔ StringPiece w := by
  simp only [stringPiece, quoted, matches_alt_iff, matches_one_iff, matches_escape_iff,
    matches_seq_iff, matches_quotedText_iff, beq_iff_eq, decide_eq_true_eq]
  constructor
  · rintro (⟨c, word, rfl⟩ | ⟨c, rfl⟩ |
      ⟨_, _, rfl, ⟨_, rfl, rfl⟩, text, _, rfl, inside, _, rfl, rfl⟩)
    · exact .plain word
    · exact .escaped c
    · exact .quoted inside
  · intro piece
    cases piece with
    | plain word => exact .inl ⟨_, word, rfl⟩
    | escaped c => exact .inr (.inl ⟨c, rfl⟩)
    | quoted inside =>
        exact .inr (.inr ⟨['\''], _, rfl, ⟨_, rfl, rfl⟩, _, ['\''], rfl, inside, _, rfl, rfl⟩)

/-- Pieces in a row. -/
theorem matches_pieces_iff {w : List Char} :
    Matches (.star stringPiece) w ↔ w = [] ∨ StringPattern w := by
  constructor
  · intro here
    generalize shape : Pattern.star _ = pattern at here
    induction here with
    | nil => exact .inl rfl
    | cons first more _ ih =>
        cases shape
        have piece := matches_stringPiece_iff.mp first
        rcases ih rfl with rfl | rest
        · rw [List.append_nil]
          exact .inr (.single piece)
        · exact .inr (.append piece rest)
    | _ => cases shape
  · rintro (rfl | pattern)
    · exact .nil
    · induction pattern with
      | @single piece is =>
          have whole := Matches.cons (matches_stringPiece_iff.mpr is) .nil
          rwa [List.append_nil] at whole
      | append is _ ih => exact .cons (matches_stringPiece_iff.mpr is) ih

/-- The pattern of the scanner is the one of the tokens. -/
theorem matches_string_iff {w : List Char} : Matches string w ↔ StringPattern w := by
  rw [string, Pattern.plus, matches_seq_iff]
  constructor
  · rintro ⟨u, v, rfl, first, more⟩
    have piece := matches_stringPiece_iff.mp first
    rcases matches_pieces_iff.mp more with rfl | rest
    · rw [List.append_nil]
      exact .single piece
    · exact .append piece rest
  · intro pattern
    cases pattern with
    | single is =>
        exact ⟨w, [], (List.append_nil w).symm, matches_stringPiece_iff.mpr is, .nil⟩
    | append is more =>
        exact ⟨_, _, rfl, matches_stringPiece_iff.mpr is, matches_pieces_iff.mpr (.inr more)⟩

/-! ## Where a string ends -/

/-- The inside of a quoted segment ends at its closing quote. -/
theorem quotedText_unique {text text' u u' : List Char} (inside : QuotedText text)
    (inside' : QuotedText text') (same : text ++ '\'' :: u = text' ++ '\'' :: u') :
    text = text' := by
  induction inside generalizing text' with
  | nil =>
      cases inside' with
      | nil => rfl
      | escaped c _ => cases (List.cons.inj same).1
      | plain _ notQuote _ => exact absurd (List.cons.inj same).1.symm notQuote
  | escaped c _ ih =>
      cases inside' with
      | nil => cases (List.cons.inj same).1
      | escaped c' inside' =>
          simp only [List.cons_append, List.cons.injEq, true_and] at same
          rw [same.1, ih inside' same.2]
      | plain notBackslash _ _ => exact absurd (List.cons.inj same).1.symm notBackslash
  | plain notBackslash notQuote _ ih =>
      cases inside' with
      | nil => exact absurd (List.cons.inj same).1 notQuote
      | escaped c' _ => exact absurd (List.cons.inj same).1 notBackslash
      | plain _ _ inside' =>
          simp only [List.cons_append, List.cons.injEq] at same
          rw [same.1, ih inside' same.2]

/-- A piece says by itself where it ends. -/
theorem stringPiece_prefixFree : PrefixFree stringPiece := by
  intro u v u' v' here here' same
  rw [matches_stringPiece_iff] at here here'
  cases here with
  | @plain c word =>
      cases here' with
      | plain word' => rw [(List.cons.inj same).1]
      | escaped c' => exact absurd (by simp [(List.cons.inj same).1, wordBreakers]) word
      | quoted _ => exact absurd (by simp [(List.cons.inj same).1, wordBreakers]) word
  | escaped c =>
      cases here' with
      | plain word' => exact absurd (by simp [← (List.cons.inj same).1, wordBreakers]) word'
      | escaped c' =>
          simp only [List.cons_append, List.cons.injEq, true_and] at same
          rw [same.1]
      | quoted _ => cases (List.cons.inj same).1
  | @quoted text inside =>
      cases here' with
      | plain word' => exact absurd (by simp [← (List.cons.inj same).1, wordBreakers]) word'
      | escaped c' => cases (List.cons.inj same).1
      | quoted inside' =>
          simp only [List.cons_append, List.append_assoc, List.cons.injEq, true_and] at same
          rw [quotedText_unique inside inside' same]

/-- The characters that begin no piece of a string. -/
def delimiters : List Char := [' ', '\t', '\r', '\n', '#', '<', '>', '=', '&', '|']

/-- The input ends, or goes on with a character that is not part of a word. -/
def Delimited (rest : List Char) : Prop := ∀ c, rest.head? = some c → c ∈ delimiters

theorem stringPiece_begins {c : Char} (begins : stringPiece.begins c = true) : c ∉ delimiters := by
  simp only [stringPiece, escape, quoted, Pattern.begins, Pattern.nullable, Bool.or_eq_true,
    Bool.false_and, Bool.or_false, decide_eq_true_eq, beq_iff_eq] at begins
  rcases begins with word | rfl | rfl
  · intro member
    apply word
    simp only [delimiters, wordBreakers, List.mem_cons, List.not_mem_nil, or_false] at member ⊢
    tauto
  · decide
  · decide

/-- The first character of a string, and of what may follow it in a longer string. -/
theorem head_of_pieces {c : Char} {w : List Char} (here : Matches (.star stringPiece) (c :: w)) :
    c ∉ delimiters := by
  have begins : (Pattern.star stringPiece).begins c = true := begins_of_matches here
  exact stringPiece_begins begins

/-- The characters that only strings, comments and reported characters contain. -/
def stringMarks : List Char := ['\\', '\'', '$']

theorem forall_mem_stringMarks {property : Char → Prop} :
    (∀ c ∈ stringMarks, property c) ↔ property '\\' ∧ property '\'' ∧ property '$' := by
  simp [stringMarks]

theorem rulesBeforeString_contains :
    ∀ rule ∈ rulesBeforeString, ∀ c ∈ stringMarks, rule.1.contains c = false := by
  simp only [forall_mem_stringMarks]
  decide

/-- No rule before the one for strings has a text with one of these characters. -/
theorem not_matches_before {w : List Char} {c : Char} (member : c ∈ w) (mark : c ∈ stringMarks) :
    ∀ rule ∈ rulesBeforeString, ¬Matches rule.1 w := by
  intro rule known here
  have contains := contains_of_matches here c member
  rw [rulesBeforeString_contains rule known c mark] at contains
  cases contains

/-- The texts of the rules behind the one for strings: comments, blanks and single characters. -/
theorem matches_behind {c : Char} {w : List Char} {rule : Pattern Char × Handling}
    (known : rule ∈ rulesBehindString) (here : Matches rule.1 (c :: w)) :
    c = '#' ∨ Matches whitesp (c :: w) ∨ w = [] := by
  simp only [rulesBehindString, List.mem_cons, List.not_mem_nil, or_false] at known
  rcases known with rfl | rfl | rfl
  · have begins := begins_of_matches here
    simp only [comment, Pattern.begins, Pattern.nullable, Bool.false_and, Bool.or_false,
      beq_iff_eq] at begins
    exact .inl begins
  · exact .inr (.inl here)
  · obtain ⟨_, -, single⟩ := matches_one_iff.mp here
    exact .inr (.inr (List.cons.inj single).2)

/-- No rule behind the one for strings has a longer text that begins like a word. -/
theorem not_matches_behind {c d : Char} {u w : List Char} (first : c ∉ delimiters) :
    ∀ rule ∈ rulesBehindString, ¬Matches rule.1 (c :: u ++ d :: w) := by
  intro rule known here
  rcases matches_behind known here with rfl | blank | single
  · exact first (by decide)
  · have begins := begins_of_matches blank
    simp only [whitesp, Pattern.plus, Pattern.begins, Pattern.nullable, Bool.false_and,
      Bool.or_false, Bool.or_eq_true, beq_iff_eq] at begins
    apply first
    rcases begins with (rfl | rfl) | rfl <;> decide
  · simp at single

/-- A string with a quote, a backslash or a dollar sign is one `STR` token, when the input
does not go on with it. -/
theorem yylex_string {text rest : List Char} (pattern : StringPattern text)
    (marked : ∃ mark ∈ text, mark ∈ stringMarks) (delimited : Delimited rest) :
    yylex (text ++ rest) = (.str (copyText text), rest) := by
  obtain ⟨mark, member, marks⟩ := marked
  have pieces : Matches (.star stringPiece) text := matches_pieces_iff.mpr (.inr pattern)
  cases text with
  | nil => cases member
  | cons c text =>
      have found : munch lexRules (c :: text ++ rest) =
          some (.token fun yytext => .str (copyText yytext), c :: text, rest) := by
        apply munch_eq (List.cons_ne_nil _ _)
        · exact firstMatch_append (matches_string_iff.mpr pattern) (not_matches_before member marks)
        · intro more behind split nonempty rule known here
          obtain ⟨d, more, rfl⟩ := List.exists_cons_of_ne_nil nonempty
          rcases List.mem_append.mp known with before | behind
          · exact not_matches_before (List.mem_append_left _ member) marks rule before here
          · rcases List.mem_cons.mp behind with rfl | behind
            · have whole : Matches (.star stringPiece) (c :: text ++ d :: more) :=
                matches_pieces_iff.mpr (.inr (matches_string_iff.mp here))
              have later := matches_star_of_append stringPiece_prefixFree rfl pieces whole
              exact head_of_pieces later (delimited d (by rw [split]; rfl))
            · exact not_matches_behind (head_of_pieces pieces) rule behind here
      rw [yylex_token found]

end QuashLabs.Quash.Parsing.Scanner
