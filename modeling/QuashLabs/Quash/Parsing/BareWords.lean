import QuashLabs.Quash.Parsing.Literals

/-!
# Bare words

A bare word is a text that the scanner takes whole as one `NUM`, `ID` or `SIM_STR` token.
It has none of the characters that end a word or begin a variable, and is not the name of
a builtin. Followed by a blank or another delimiter it is scanned as the same token.
-/

namespace QuashLabs.Quash.Parsing

open QuashLabs.Lexing Scanner

/-- The text that a token carries. -/
def Token.text : Token → List Char
  | .str text | .simStr text | .id text | .num text | .exitTok text => text
  | _ => []

/-- The token is a word that means itself. -/
def Token.isBare : Token → Bool
  | .num _ | .id _ | .simStr _ => true
  | _ => false

/-- The scanner takes the text as one `NUM`, `ID` or `SIM_STR` token with this text. -/
def BareWord (text : List Char) : Prop :=
  ∃ token : Token, token.isBare = true ∧ token.text = text ∧ yylex text = (token, [])

/-- The texts of the rules that return a token for a fixed text. -/
def reserved : List (List Char) :=
  ["|", "&", "=", "<", ">", ">>", "echo", "export", "cd", "pwd", "jobs", "kill", "\n", "exit",
    "quit"].map String.toList

/-- The token of the first rule for bare words that matches. -/
def bareToken (text : List Char) : Token :=
  if Matches number text then .num text
  else if Matches Scanner.id text then .id text
  else .simStr text

variable {text rest : List Char}

/-! ## The rules -/

/-- The rules for reserved texts. -/
def reservedRules : List (Pattern Char × Handling) := rulesBeforeString.take 14

/-- The rule for `number`. -/
def numberRule : Pattern Char × Handling := (number, .token fun yytext => .num (copyText yytext))

/-- The rule for `id`. -/
def idRule : Pattern Char × Handling := (Scanner.id, .token fun yytext => .id (copyText yytext))

/-- The rule for `sim_str`. -/
def simStrRule : Pattern Char × Handling :=
  (simStr, .token fun yytext => .simStr (copyText yytext))

/-- The rules for bare words. -/
def bareRules : List (Pattern Char × Handling) := [numberRule, idRule, simStrRule]

theorem lexRules_split :
    lexRules = reservedRules ++ (bareRules ++ stringRule :: rulesBehindString) := rfl

theorem lexRules_number : lexRules =
    reservedRules ++ numberRule :: idRule :: simStrRule :: stringRule :: rulesBehindString := rfl

theorem lexRules_id : lexRules =
    (reservedRules ++ [numberRule]) ++ idRule :: simStrRule :: stringRule :: rulesBehindString :=
  rfl

theorem lexRules_simStr : lexRules =
    (reservedRules ++ [numberRule] ++ [idRule]) ++ simStrRule :: stringRule :: rulesBehindString :=
  rfl

theorem not_matches_reserved :
    (∀ rule ∈ reservedRules, ¬Matches rule.1 text) ↔ text ∉ reserved := by
  simp [reservedRules, rulesBeforeString, keyword, reserved, matches_word_iff]

/-- The text of a token is not longer than the text that its rule matches. -/
theorem text_length_le {make : List Char → Token} {rule : Pattern Char × Handling}
    (known : rule ∈ lexRules) (makes : rule.2 = .token make) (yytext : List Char) :
    (make yytext).text.length ≤ yytext.length := by
  have copied : (copyText yytext).length ≤ yytext.length := (List.takeWhile_prefix _).length_le
  simp only [lexRules, rulesBeforeString, stringRule, rulesBehindString, keyword, List.cons_append,
    List.nil_append, List.mem_cons, List.not_mem_nil, or_false] at known
  rcases known with rfl | rfl | rfl | rfl | rfl | rfl | rfl | rfl | rfl | rfl | rfl | rfl | rfl |
    rfl | rfl | rfl | rfl | rfl | rfl | rfl | rfl <;> cases makes
  all_goals first | exact Nat.zero_le _ | exact copied

/-- A bare token is made by one of the rules for bare words. -/
theorem mem_bareRules {make : List Char → Token} {rule : Pattern Char × Handling}
    (known : rule ∈ lexRules) (makes : rule.2 = .token make) {yytext : List Char}
    (bare : (make yytext).isBare = true) :
    rule ∈ bareRules ∧ (make yytext).text = copyText yytext := by
  simp only [lexRules, rulesBeforeString, stringRule, rulesBehindString, keyword, List.cons_append,
    List.nil_append, List.mem_cons, List.not_mem_nil, or_false] at known
  rcases known with rfl | rfl | rfl | rfl | rfl | rfl | rfl | rfl | rfl | rfl | rfl | rfl | rfl |
    rfl | rfl | rfl | rfl | rfl | rfl | rfl | rfl <;> cases makes
  all_goals cases bare
  all_goals exact ⟨by simp [bareRules, numberRule, idRule, simStrRule], rfl⟩

theorem not_bare_of_reserved {make : List Char → Token} {rule : Pattern Char × Handling}
    (known : rule ∈ reservedRules) (makes : rule.2 = .token make) (yytext : List Char) :
    (make yytext).isBare = false := by
  simp only [reservedRules, rulesBeforeString, List.take_succ_cons, List.take_zero, keyword,
    List.mem_cons, List.not_mem_nil, or_false] at known
  rcases known with rfl | rfl | rfl | rfl | rfl | rfl | rfl | rfl | rfl | rfl | rfl | rfl | rfl |
    rfl <;> cases makes
  all_goals rfl

/-! ## What a bare word looks like -/

/-- A text of one of the rules for bare words, without terminators, that is not reserved. -/
structure BareText (text : List Char) : Prop where
  nonempty : text ≠ []
  noTerminator : '\x00' ∉ text
  notReserved : text ∉ reserved
  here : ∃ rule ∈ bareRules, Matches rule.1 text

theorem BareWord.bareText (bare : BareWord text) : BareText text := by
  obtain ⟨token, isBare, same, scans⟩ := bare
  have inner : token ≠ .endTok := by
    rintro rfl
    cases isBare
  obtain ⟨skipped, yytext, make, split, nonempty, first, rfl⟩ := match_of_yylex scans inner
  obtain ⟨rule, known, makes, here⟩ := rule_of_firstMatch first
  -- The text is no longer than the match, so nothing is skipped.
  have short := text_length_le known makes yytext
  rw [same, split, List.length_append, List.append_nil] at short
  obtain rfl : skipped = [] := List.eq_nil_of_length_eq_zero (by omega)
  obtain rfl : text = yytext := by simpa using split
  obtain ⟨bareRule, copied⟩ := mem_bareRules known makes isBare
  refine ⟨nonempty, ?_, ?_, rule, bareRule, here⟩
  · intro terminator
    have kept := List.takeWhile_eq_self_iff.mp (copied.symm.trans same) _ terminator
    simp at kept
  · rw [← not_matches_reserved]
    intro rule' known' here'
    obtain ⟨kind, taken⟩ : ∃ kind, firstMatch reservedRules text = some kind := by
      rw [← Option.isSome_iff_exists, ← Option.ne_none_iff_isSome, ne_eq,
        firstMatch_eq_none_iff]
      exact fun none => none rule' known' here'
    have whole : firstMatch lexRules text = some kind := by
      rw [lexRules_split]
      exact firstMatch_append_left taken
    obtain rfl := Option.some.inj (first.symm.trans whole)
    obtain ⟨rule'', known'', makes', -⟩ := rule_of_firstMatch taken
    rw [not_bare_of_reserved known'' makes'] at isBare
    cases isBare

theorem bareRules_contains :
    ∀ rule ∈ bareRules, ∀ c ∈ specials, rule.1.contains c = false := by
  simp only [← List.forall_iff_forall_mem]
  decide

theorem BareText.not_special (bare : BareText text) : ∀ c ∈ text, c ∉ specials := by
  obtain ⟨rule, known, here⟩ := bare.here
  intro c member special
  have contains := contains_of_matches here c member
  rw [bareRules_contains rule known c special] at contains
  cases contains

/-! ## Scanning a bare word -/

/-- The rule that takes a bare word makes its token. -/
theorem BareText.firstMatch (bare : BareText text) : ∃ make : List Char → Token,
    firstMatch lexRules text = some (.token make) ∧ make text = bareToken text := by
  have reserved := not_matches_reserved.mpr bare.notReserved
  have kept := copyText_eq bare.noTerminator
  by_cases isNumber : Matches number text
  · refine ⟨fun yytext => .num (copyText yytext), ?_, ?_⟩
    · rw [lexRules_number]
      exact firstMatch_append isNumber reserved
    · simp only [bareToken, if_pos isNumber, kept]
  · have earlier : ∀ rule ∈ reservedRules ++ [numberRule], ¬Matches rule.1 text :=
      List.forall_mem_append.mpr ⟨reserved, List.forall_mem_singleton.mpr isNumber⟩
    by_cases isId : Matches Scanner.id text
    · refine ⟨fun yytext => .id (copyText yytext), ?_, ?_⟩
      · rw [lexRules_id]
        exact firstMatch_append isId earlier
      · simp only [bareToken, if_neg isNumber, if_pos isId, kept]
    · have earlier : ∀ rule ∈ reservedRules ++ [numberRule] ++ [idRule], ¬Matches rule.1 text :=
        List.forall_mem_append.mpr ⟨earlier, List.forall_mem_singleton.mpr isId⟩
      have isSimStr : Matches simStr text := by
        obtain ⟨rule, known, here⟩ := bare.here
        simp only [bareRules, List.mem_cons, List.not_mem_nil, or_false] at known
        rcases known with rfl | rfl | rfl
        · exact absurd here isNumber
        · exact absurd here isId
        · exact here
      refine ⟨fun yytext => .simStr (copyText yytext), ?_, ?_⟩
      · rw [lexRules_simStr]
        exact firstMatch_append isSimStr earlier
      · simp only [bareToken, if_neg isNumber, if_neg isId, kept]

theorem reserved_head :
    ∀ word ∈ reserved, word.Forall (· ∉ delimiters) ∨ word.head?.any (· ∈ delimiters) = true := by
  decide

theorem bareRules_delimiters :
    ∀ rule ∈ bareRules, ∀ d ∈ delimiters, rule.1.contains d = false := by
  simp only [← List.forall_iff_forall_mem]
  decide

/-- The characters of words without quotes and variables. -/
theorem matches_pieces_of_plain (plain : ∀ c ∈ text, c ∉ specials) :
    Matches (.star stringPiece) text := by
  induction text with
  | nil => exact .nil
  | cons c text ih =>
      rw [List.forall_mem_cons] at plain
      have word : c ∉ wordBreakers := fun member => plain.1 (List.mem_cons_of_mem _ member)
      exact .cons (u := [c]) (matches_stringPiece_iff.mpr (.plain word)) (ih plain.2)

/-- No rule matches a plain word together with a delimiter behind it. -/
theorem not_matches_longer {d : Char} {more : List Char} (nonempty : text ≠ [])
    (plain : ∀ c ∈ text, c ∉ specials) (delimiter : d ∈ delimiters) :
    ∀ rule ∈ lexRules, ¬Matches rule.1 (text ++ d :: more) := by
  have pieces := matches_pieces_of_plain plain
  obtain ⟨c, word, rfl⟩ := List.exists_cons_of_ne_nil nonempty
  have first := head_of_pieces pieces
  have inside : d ∈ c :: word ++ d :: more := List.mem_append_right _ List.mem_cons_self
  rw [lexRules_split, List.forall_mem_append, List.forall_mem_append, List.forall_mem_cons]
  refine ⟨not_matches_reserved.mpr fun member => ?_, fun rule known here => ?_, fun here => ?_, ?_⟩
  · rcases reserved_head _ member with apart | begins
    · exact List.forall_iff_forall_mem.mp apart d inside delimiter
    · exact first (of_decide_eq_true begins)
  · have contains := contains_of_matches here d inside
    rw [bareRules_delimiters rule known d delimiter] at contains
    cases contains
  · have whole := matches_pieces_iff.mpr (.inr (matches_string_iff.mp here))
    exact head_of_pieces (matches_star_of_append stringPiece_prefixFree rfl pieces whole) delimiter
  · exact not_matches_behind first

/-- A plain word is the token of the rule that takes it, when the input does not go on with
it. -/
theorem yylex_plain {make : List Char → Token} (nonempty : text ≠ [])
    (plain : ∀ c ∈ text, c ∉ specials) (first : firstMatch lexRules text = some (.token make))
    (delimited : Delimited rest) : yylex (text ++ rest) = (make text, rest) := by
  have found : munch lexRules (text ++ rest) = some (.token make, text, rest) := by
    apply munch_eq nonempty first
    intro more behind split some_
    obtain ⟨d, more, rfl⟩ := List.exists_cons_of_ne_nil some_
    exact not_matches_longer nonempty plain (delimited d (by rw [split]; rfl))
  rw [yylex_token found]

/-- A bare word is one token, when the input does not go on with it. -/
theorem yylex_bareText (bare : BareText text) (delimited : Delimited rest) :
    yylex (text ++ rest) = (bareToken text, rest) := by
  obtain ⟨make, first, same⟩ := bare.firstMatch
  rw [yylex_plain bare.nonempty bare.not_special first delimited, same]

theorem bareToken_spec (text : List Char) :
    (bareToken text).isBare = true ∧ (bareToken text).text = text := by
  unfold bareToken
  split
  · exact ⟨rfl, rfl⟩
  · split <;> exact ⟨rfl, rfl⟩

theorem delimited_nil : Delimited [] := by
  intro c first
  cases first

theorem bareWord_iff : BareWord text ↔ BareText text := by
  constructor
  · exact BareWord.bareText
  · intro bare
    have scans := yylex_bareText bare delimited_nil
    rw [List.append_nil] at scans
    exact ⟨bareToken text, (bareToken_spec text).1, (bareToken_spec text).2, scans⟩

/-! ## Numerals -/

theorem matches_number_iff : Matches number text ↔ text ≠ [] ∧ ∀ c ∈ text, c.isDigit = true :=
  matches_plus_one_iff

theorem reserved_not_digits : ∀ word ∈ reserved, word.all Char.isDigit = false := by
  decide

/-- A text of digits is one `NUM` token, when the input does not go on with it. -/
theorem yylex_number (digits : Matches number text) (delimited : Delimited rest) :
    yylex (text ++ rest) = (.num text, rest) := by
  have all := matches_number_iff.mp digits
  have bare : BareText text := by
    refine ⟨all.1, fun terminator => ?_, fun member => ?_, numberRule, List.mem_cons_self, digits⟩
    · exact absurd (all.2 _ terminator) (by decide)
    · have notDigits := reserved_not_digits text member
      rw [List.all_eq_true.mpr all.2] at notDigits
      cases notDigits
  rw [yylex_bareText bare delimited, bareToken, if_pos digits]

/-- The texts that are scanned as one `NUM` token are those of digits. -/
theorem yylex_eq_num_iff : yylex text = (.num text, []) ↔ Matches number text := by
  constructor
  · intro scans
    have bare : BareWord text := ⟨.num text, rfl, rfl, scans⟩
    have again := yylex_bareText bare.bareText delimited_nil
    rw [List.append_nil, scans] at again
    by_contra other
    rw [bareToken, if_neg other] at again
    split at again <;> simp at again
  · intro digits
    have scans := yylex_number digits delimited_nil
    rwa [List.append_nil] at scans

end QuashLabs.Quash.Parsing
