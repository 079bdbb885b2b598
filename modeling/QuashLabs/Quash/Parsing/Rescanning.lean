import QuashLabs.Quash.Parsing.BareWords
import QuashLabs.Quash.Parsing.Stringify

/-!
# Scanning the text of a script

The text of a script is a row of words with a blank behind each. The scanner skips the
blanks, so where each word is one token in front of a blank, the text is the row of these
tokens.
-/

namespace QuashLabs.Quash.Parsing

open QuashLabs.Lexing Scanner

variable {text rest : List Char}

/-! ## All tokens of an input -/

/-- A token other than the end of the input takes some of it. -/
theorem yylex_shorter {input left : List Char} {token : Token}
    (scans : yylex input = (token, left)) (inner : token ≠ .endTok) :
    left.length < input.length := by
  obtain ⟨skipped, yytext, make, rfl, nonempty, -⟩ := match_of_yylex scans inner
  have positive := List.length_pos_iff.mpr nonempty
  rw [List.length_append, List.length_append]
  omega

/-- The tokens that the parser gets from the scanner on this input. -/
def scanAll (input : List Char) : List Token :=
  match scans : yylex input with
  | (token, rest) =>
      if inner : token = .endTok then [.endTok]
      else
        have _shorter : rest.length < input.length := yylex_shorter scans inner
        token :: scanAll rest
termination_by input.length

theorem scanAll_end {input : List Char} (scans : yylex input = (.endTok, rest)) :
    scanAll input = [.endTok] := by
  rw [scanAll]
  split
  rename_i found
  obtain ⟨rfl, -⟩ := Prod.mk.inj (scans.symm.trans found)
  rfl

theorem scanAll_token {input : List Char} {token : Token} (scans : yylex input = (token, rest))
    (inner : token ≠ .endTok) : scanAll input = token :: scanAll rest := by
  rw [scanAll]
  split
  rename_i found
  obtain ⟨rfl, rfl⟩ := Prod.mk.inj (scans.symm.trans found)
  rw [dif_neg inner]

theorem scanAll_congr {input input' : List Char} (same : yylex input = yylex input') :
    scanAll input = scanAll input' := by
  rcases scans : yylex input' with ⟨token, rest⟩
  by_cases ends : token = .endTok
  · subst ends
    rw [scanAll_end scans, scanAll_end (same.trans scans)]
  · rw [scanAll_token scans ends, scanAll_token (same.trans scans) ends]

/-! ## Blanks and operators -/

/-- The characters of `whitesp`. -/
def blanks : List Char := [' ', '\t', '\r']

/-- A text that begins with a delimiter other than `#` is reserved, a row of blanks, or one
character. -/
theorem matches_delimiter {c : Char} {word : List Char} (first : c ∈ delimiters)
    (notHash : c ≠ '#') {rule : Pattern Char × Handling} (known : rule ∈ lexRules)
    (here : Matches rule.1 (c :: word)) :
    c :: word ∈ reserved ∨ Matches whitesp (c :: word) ∨ word = [] := by
  rw [lexRules_split, List.mem_append, List.mem_append, List.mem_cons] at known
  rcases known with known | known | rfl | known
  · by_contra other
    rw [not_or] at other
    exact not_matches_reserved.mpr other.1 rule known here
  · have contains := contains_of_matches here c List.mem_cons_self
    rw [bareRules_delimiters rule known c first] at contains
    cases contains
  · have pieces := matches_pieces_iff.mpr (.inr (matches_string_iff.mp here))
    exact absurd first (head_of_pieces pieces)
  · exact .inr ((matches_behind known here).resolve_left notHash)

theorem whitesp_blanks (here : Matches whitesp text) : ∀ c ∈ text, c ∈ blanks := by
  intro c member
  have contains := contains_of_matches here c member
  simpa [whitesp, Pattern.plus, Pattern.contains, blanks, or_assoc] using contains

theorem reserved_notBlank : ∀ word ∈ reserved, ' ' ∉ word := by
  decide

theorem yylex_skip {input yytext : List Char}
    (found : munch lexRules input = some (.skip, yytext, rest)) : yylex input = yylex rest := by
  conv_lhs => unfold yylex
  split
  · rename_i other
    cases found.symm.trans other
  · rename_i other
    cases found.symm.trans other
    rfl
  · rename_i other
    cases found.symm.trans other

/-- One blank is skipped. -/
theorem yylex_blank (next : ∀ c, rest.head? = some c → c ∉ blanks) :
    yylex (' ' :: rest) = yylex rest := by
  have found : munch lexRules ([' '] ++ rest) = some (.skip, [' '], rest) := by
    apply munch_eq (List.cons_ne_nil _ _) rfl
    intro more behind split nonempty rule known here
    obtain ⟨d, more, rfl⟩ := List.exists_cons_of_ne_nil nonempty
    have inside : d ∈ ' ' :: d :: more := List.mem_cons_of_mem _ List.mem_cons_self
    rcases matches_delimiter (by decide) (by decide) known here with member | blank | none
    · exact reserved_notBlank _ member List.mem_cons_self
    · exact next d (by rw [split]; rfl) (whitesp_blanks blank d inside)
    · cases none
  exact yylex_skip found

/-- The characters that begin an operator between words. -/
def operators : List Char := ['|', '&', '<', '>']

theorem operators_spec : ∀ c ∈ operators, c ∈ delimiters ∧ c ≠ '#' ∧ c ∉ blanks :=
  List.forall_iff_forall_mem.mp (by decide)

/-- An operator is the token of the rule that takes it, in front of a blank. -/
theorem yylex_operator {c : Char} {word : List Char} {make : List Char → Token}
    (operator : c ∈ operators) (first : firstMatch lexRules (c :: word) = some (.token make)) :
    yylex (c :: word ++ ' ' :: rest) = (make (c :: word), ' ' :: rest) := by
  obtain ⟨delimiter, notHash, notBlank⟩ := operators_spec c operator
  have found : munch lexRules (c :: word ++ ' ' :: rest) =
      some (.token make, c :: word, ' ' :: rest) := by
    apply munch_eq (List.cons_ne_nil _ _) first
    intro more behind split nonempty rule known here
    obtain ⟨d, more, rfl⟩ := List.exists_cons_of_ne_nil nonempty
    obtain ⟨rfl, -⟩ := List.cons.inj split
    have inside : ' ' ∈ c :: word ++ ' ' :: more := List.mem_append_right _ List.mem_cons_self
    rcases matches_delimiter delimiter notHash known here with member | blank | none
    · exact reserved_notBlank _ member inside
    · exact notBlank (whitesp_blanks blank c List.mem_cons_self)
    · exact absurd (List.append_eq_nil_iff.mp none).2 (List.cons_ne_nil _ _)
  rw [yylex_token found]

/-! ## Words -/

/-- In front of a blank the word is scanned as the token, which is not the end of a line. -/
structure ScansAs (word : List Char) (token : Token) : Prop where
  begins : ∃ c tail, word = c :: tail ∧ c ∉ blanks
  noTerminator : '\x00' ∉ word
  inner : token ≠ .eocTok ∧ token ≠ .endTok
  scans : ∀ rest, yylex (word ++ ' ' :: rest) = (token, ' ' :: rest)

theorem delimited_blank (rest : List Char) : Delimited (' ' :: rest) := by
  intro c first
  obtain rfl := Option.some.inj first
  decide

theorem blanks_special : ∀ c ∈ blanks, c ∈ specials :=
  List.forall_iff_forall_mem.mp (by decide)

theorem scansAs_bare (bare : BareText text) : ScansAs text (bareToken text) := by
  obtain ⟨c, tail, rfl⟩ := List.exists_cons_of_ne_nil bare.nonempty
  have first : c ∉ blanks := fun blank =>
    bare.not_special c List.mem_cons_self (blanks_special c blank)
  have isBare := (bareToken_spec (c :: tail)).1
  refine ⟨⟨c, tail, rfl, first⟩, bare.noTerminator, ⟨?_, ?_⟩, fun rest =>
    yylex_bareText bare (delimited_blank rest)⟩
  · intro same
    rw [same] at isBare
    cases isBare
  · intro same
    rw [same] at isBare
    cases isBare

/-- The name of a builtin is the token of its rule. -/
theorem scansAs_name {name : List Char} {token : Token}
    (first : firstMatch lexRules name = some (.token fun _ => token)) (nonempty : name ≠ [])
    (plain : name.Forall (· ∉ '\x00' :: specials)) (inner : token ≠ .eocTok ∧ token ≠ .endTok) :
    ScansAs name token := by
  rw [List.forall_iff_forall_mem] at plain
  have notSpecial : ∀ c ∈ name, c ∉ specials := fun c member special =>
    plain c member (List.mem_cons_of_mem _ special)
  obtain ⟨c, tail, rfl⟩ := List.exists_cons_of_ne_nil nonempty
  have notBlank : c ∉ blanks := fun blank =>
    notSpecial c List.mem_cons_self (blanks_special c blank)
  have noTerminator : '\x00' ∉ c :: tail := fun member => plain _ member List.mem_cons_self
  exact ⟨⟨c, tail, rfl, notBlank⟩, noTerminator, inner, fun rest =>
    yylex_plain nonempty notSpecial first (delimited_blank rest)⟩

theorem scansAs_operator {c : Char} {tail : List Char} {token : Token}
    (first : firstMatch lexRules (c :: tail) = some (.token fun _ => token))
    (operator : c ∈ operators) (noTerminator : '\x00' ∉ c :: tail)
    (inner : token ≠ .eocTok ∧ token ≠ .endTok) : ScansAs (c :: tail) token :=
  ⟨⟨c, tail, rfl, (operators_spec c operator).2.2⟩, noTerminator, inner, fun _ =>
    yylex_operator operator first⟩

/-- The names of builtins that a text has as they are typed. -/
def printedNames : List (List Char × Token) :=
  [("echo".toList, .echoTok), ("export".toList, .exportTok), ("cd".toList, .cdTok),
    ("kill".toList, .killTok)]

theorem scansAs_printedName {name : List Char} {token : Token}
    (known : (name, token) ∈ printedNames) : ScansAs name token := by
  simp only [printedNames, List.mem_cons, List.not_mem_nil, or_false, Prod.mk.injEq] at known
  rcases known with ⟨rfl, rfl⟩ | ⟨rfl, rfl⟩ | ⟨rfl, rfl⟩ | ⟨rfl, rfl⟩
  all_goals exact scansAs_name rfl (by decide) (by decide) (by decide)

/-- The operators that a text has. -/
def printedOperators : List (List Char × Token) :=
  [("|".toList, .pipe), ("&".toList, .bckgrnd), ("<".toList, .redirIn), (">".toList, .redirOut),
    (">>".toList, .redirOutApp)]

theorem scansAs_printedOperator {text : List Char} {token : Token}
    (known : (text, token) ∈ printedOperators) : ScansAs text token := by
  simp only [printedOperators, List.mem_cons, List.not_mem_nil, or_false, Prod.mk.injEq] at known
  rcases known with ⟨rfl, rfl⟩ | ⟨rfl, rfl⟩ | ⟨rfl, rfl⟩ | ⟨rfl, rfl⟩ | ⟨rfl, rfl⟩
  all_goals exact scansAs_operator rfl (by decide) (by decide) (by decide)

/-- A text of words that are tokens is the row of these tokens. -/
theorem scanAll_render {words : List (List Char)} {tokens : List Token}
    (each : List.Forall₂ ScansAs words tokens) :
    scanAll (render words) = tokens ++ [.endTok] := by
  induction each with
  | nil =>
      have ends : yylex [] = (.endTok, []) := by
        rw [yylex]
        rfl
      exact scanAll_end ends
  | @cons word token words tokens here later ih =>
      have next : ∀ c, (render words).head? = some c → c ∉ blanks := by
        intro c first
        cases later with
        | nil => cases first
        | cons second _ =>
            obtain ⟨d, tail, rfl, notBlank⟩ := second.begins
            obtain rfl := Option.some.inj first
            exact notBlank
      rw [render_cons, scanAll_token (here.scans _) here.inner.2, scanAll_congr (yylex_blank next),
        ih, List.cons_append]

end QuashLabs.Quash.Parsing
