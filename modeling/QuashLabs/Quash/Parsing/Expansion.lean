import QuashLabs.Quash.Parsing.Quotes

/-!
# Which variables a token depends on

A dollar sign names a variable when it is neither quoted nor escaped and an identifier
follows it. Whether a character is quoted or escaped is a matter of the characters
before it. The template of a text holds no other variables, so a token that is
interpreted depends on these variables alone, and only through its template.
-/

namespace QuashLabs.Quash.Parsing

open QuashLabs.Checked

/-! ## Quoted and escaped characters -/

/-- What the characters of a text make of the next one: it stands outside quotes or in
quotes, and a backslash before it may escape it. -/
inductive Quoting
  | outside
  | escaping
  | quoted
  | quotedEscaping
  deriving Repr, DecidableEq

/-- Behind a character that does not escape anything. -/
def Quoting.bare (inQuotes : Bool) : Quoting := if inQuotes then .quoted else .outside

/-- Behind a character that is not escaped. -/
def Quoting.afterChar (inQuotes : Bool) (c : Char) : Quoting :=
  if c = '\\' then if inQuotes then .quotedEscaping else .escaping
  else if c = '\'' then .bare !inQuotes
  else .bare inQuotes

/-- Behind one more character. Outside quotes a backslash escapes some characters and
joins lines, in quotes it escapes the quote. -/
def Quoting.next : Quoting → Char → Quoting
  | .outside, c => .afterChar false c
  | .escaping, c => if c ∈ escapable ∨ c = '\n' then .outside else .afterChar false c
  | .quoted, c => .afterChar true c
  | .quotedEscaping, c => if c = '\'' then .quoted else .afterChar true c

/-- The text names a variable: an identifier behind a dollar sign that is neither quoted
nor escaped. -/
def NamedIn (text name : List Char) : Prop :=
  ∃ before after, text = before ++ '$' :: after ∧
    before.foldl Quoting.next .outside = .outside ∧
    isFirstIdentifierChar (after.headD '\x00') = true ∧ name = after.takeWhile isIdentifierChar

/-- A pending backslash does not escape the next character. -/
def Agrees (state : Quoting) (inQuotes : Bool) (text : List Char) : Prop :=
  state = .bare inQuotes ∨
    (state = .escaping ∧ inQuotes = false ∧
      text.headD '\x00' ∉ escapable ∧ text.headD '\x00' ≠ '\n') ∨
    (state = .quotedEscaping ∧ inQuotes = true ∧ text.headD '\x00' ≠ '\'')

theorem Agrees.next {state : Quoting} {inQuotes : Bool} {c : Char} {tail : List Char}
    (agrees : Agrees state inQuotes (c :: tail)) : state.next c = .afterChar inQuotes c := by
  rcases agrees with rfl | ⟨rfl, rfl, notEscaped, notNewline⟩ | ⟨rfl, rfl, notQuote⟩
  · cases inQuotes <;> rfl
  · exact if_neg (not_or.mpr ⟨notEscaped, notNewline⟩)
  · exact if_neg notQuote

theorem foldl_identifier {name : List Char} (identifier : ∀ c ∈ name, isIdentifierChar c) :
    name.foldl Quoting.next .outside = .outside := by
  induction name with
  | nil => rfl
  | cons c name ih =>
      rw [List.forall_mem_cons] at identifier
      have notBackslash : c ≠ '\\' := by
        rintro rfl
        exact absurd identifier.1 (by decide)
      have notQuote : c ≠ '\'' := by
        rintro rfl
        exact absurd identifier.1 (by decide)
      have plain : Quoting.next .outside c = .outside := by
        simp [Quoting.next, Quoting.afterChar, Quoting.bare, notBackslash, notQuote]
      rw [List.foldl_cons, plain, ih identifier.2]

/-- What is read next takes characters from the text; what is behind it is quoted as the
characters before it say. -/
theorem read_agrees {state : Quoting} {inQuotes : Bool} {c : Char} {tail : List Char}
    (agrees : Agrees state inQuotes (c :: tail)) :
    ∃ taken, c :: tail = taken ++ (read inQuotes c tail).rest ∧
      Agrees (taken.foldl Quoting.next state) (read inQuotes c tail).inQuotes
        (read inQuotes c tail).rest := by
  have first := agrees.next
  by_cases backslash : c = '\\'
  · subst backslash
    cases inQuotes with
    | false =>
        by_cases escapes : tail.headD '\x00' ∈ escapable ∨ tail.headD '\x00' = '\n'
        · obtain ⟨tail', split⟩ := exists_tail_of_headD tail (by
            rintro terminator
            rw [terminator] at escapes
            exact absurd escapes (by decide))
          have rest : (read false '\\' tail).rest = tail' ∧
              (read false '\\' tail).inQuotes = false := by
            rw [read, if_pos rfl, if_pos rfl]
            rcases escapes with escapes | newline
            · rw [if_pos escapes]
              exact ⟨by rw [split]; rfl, rfl⟩
            · rw [if_neg (by rw [newline]; decide), if_pos newline]
              exact ⟨by rw [split]; rfl, rfl⟩
          rw [rest.1, rest.2]
          refine ⟨['\\', tail.headD '\x00'], by rw [split]; rfl, .inl ?_⟩
          rw [List.foldl_cons, first, List.foldl_cons]
          exact if_pos escapes
        · rw [not_or] at escapes
          rw [read, if_pos rfl, if_pos rfl, if_neg escapes.1, if_neg escapes.2]
          exact ⟨['\\'], rfl, .inr (.inl ⟨first, rfl, escapes.1, escapes.2⟩)⟩
    | true =>
        by_cases quote : tail.headD '\x00' = '\''
        · obtain ⟨tail', split⟩ := exists_tail_of_headD tail (by
            rw [quote]
            decide)
          rw [quote] at split
          subst split
          refine ⟨['\\', '\''], rfl, .inl ?_⟩
          rw [List.foldl_cons, first]
          rfl
        · rw [read, if_pos rfl, if_neg (by simp), if_neg quote]
          exact ⟨['\\'], rfl, .inr (.inr ⟨first, rfl, quote⟩)⟩
  · by_cases quote : c = '\''
    · subst quote
      exact ⟨['\''], rfl, .inl first⟩
    · have plain : state.next c = .bare inQuotes := by
        rw [first, Quoting.afterChar, if_neg backslash, if_neg quote]
      rw [read, if_neg backslash, if_neg quote]
      split
      · rename_i named
        obtain ⟨rfl, rfl, -⟩ := named
        refine ⟨'$' :: tail.takeWhile isIdentifierChar, ?_, .inl ?_⟩
        · rw [List.cons_append, List.takeWhile_append_dropWhile]
        · rw [List.foldl_cons, plain]
          exact foldl_identifier (List.all_eq_true.mp List.all_takeWhile)
      · exact ⟨[c], rfl, .inl plain⟩

/-- A variable is read only behind a dollar sign that is neither quoted nor escaped. -/
theorem read_variable {state : Quoting} {inQuotes : Bool} {c : Char} {tail name : List Char}
    (agrees : Agrees state inQuotes (c :: tail))
    (named : .valueOf name ∈ (read inQuotes c tail).pieces) :
    c = '$' ∧ state = .outside ∧ isFirstIdentifierChar (tail.headD '\x00') = true ∧
      name = tail.takeWhile isIdentifierChar := by
  unfold read at named
  by_cases dollar : c = '$' ∧ inQuotes = false ∧ isFirstIdentifierChar (tail.headD '\x00') = true
  · obtain ⟨rfl, rfl, identifier⟩ := dollar
    rw [if_neg (by decide), if_neg (by decide), if_pos ⟨rfl, rfl, identifier⟩] at named
    refine ⟨rfl, ?_, identifier, by simpa using named⟩
    rcases agrees with rfl | ⟨-, -, notEscaped, -⟩ | ⟨-, quoted, -⟩
    · rfl
    · exact absurd (by decide : '$' ∈ escapable) notEscaped
    · cases quoted
  · rw [if_neg dollar] at named
    repeat' split at named
    all_goals simp at named

/-- The template of a text holds the variables that the text names. -/
theorem namedIn_of_mem {state : Quoting} {inQuotes : Bool} {text name : List Char}
    (agrees : Agrees state inQuotes text) (named : .valueOf name ∈ (readAll inQuotes text).1) :
    ∃ before after, text = before ++ '$' :: after ∧ before.foldl Quoting.next state = .outside ∧
      isFirstIdentifierChar (after.headD '\x00') = true ∧
      name = after.takeWhile isIdentifierChar := by
  induction length : text.length using Nat.strong_induction_on
    generalizing state inQuotes text with
  | _ n ih =>
      cases text with
      | nil => simp [readAll_nil] at named
      | cons c tail =>
          rw [readAll_cons, List.mem_append] at named
          rcases named with here | later
          · rcases read_variable agrees here with ⟨rfl, rfl, identifier, rfl⟩
            exact ⟨[], tail, rfl, rfl, identifier, rfl⟩
          · rcases read_agrees agrees with ⟨taken, split, agrees'⟩
            have shorter := length_read_rest inQuotes c tail
            rw [List.length_cons] at length
            rcases ih _ (by omega) agrees' later rfl with ⟨before, after, rest, state', identifier⟩
            refine ⟨taken ++ before, after, ?_, ?_, identifier⟩
            · rw [split, rest, List.append_assoc]
            · rw [List.foldl_append, state']

/-! ## The results of all environments -/

/-- Environments that agree on the variables of a template fill it equally. -/
theorem fill_congr {env env' : Environment} {pieces : List Piece}
    (same : ∀ name, .valueOf name ∈ pieces → env.lookup name = env'.lookup name) :
    fill env pieces = fill env' pieces := by
  refine List.flatMap_congr fun piece member => ?_
  cases piece with
  | literal c => rfl
  | valueOf name => rw [Piece.fill, Piece.fill, same name member]

/-- A token that is interpreted in one environment is interpreted in all, as its template
with the values filled in. The template holds only variables that the token names outside
quotes and without a backslash, and the result depends on no other variable. -/
theorem interpret_template (token : StrToken) {env₀ : Environment} {text₀ : List Char}
    (returns : interpretComplexStringToken env₀ token.str = .ok text₀) :
    (∀ env, interpretComplexStringToken env token.str =
        .ok (fill env (template token.str) ++ ['\x00'])) ∧
      (∀ name, .valueOf name ∈ template token.str → NamedIn token.str name) ∧
      ∀ env env', (∀ name, NamedIn token.str name → env.lookup name = env'.lookup name) →
        interpretComplexStringToken env token.str = interpretComplexStringToken env' token.str := by
  have result (env : Environment) : interpretComplexStringToken env token.str =
      if (readAll false token.str).2 then .error .assertion
      else .ok (fill env (template token.str) ++ ['\x00']) :=
    interpretComplexStringToken_eq env token.str_length
  have outside : (readAll false token.str).2 = false := by
    rw [result] at returns
    by_contra quoted
    rw [Bool.not_eq_false] at quoted
    simp [quoted] at returns
  have named (name : List Char) (member : .valueOf name ∈ template token.str) :
      NamedIn token.str name := namedIn_of_mem (.inl rfl) member
  simp only [outside, Bool.false_eq_true, if_false] at result
  refine ⟨result, named, fun env env' same => ?_⟩
  rw [result, result, fill_congr fun name member => same name (named name member)]

/-- The token `$A\$`. -/
def dollarToken : StrToken where
  text := "$A\\$".toList
  matched := .append (.plain (by decide)) (.append (.plain (by decide)) (.single (.escaped '$')))
  short := by decide

theorem interpret_template_dollar :
    (∀ env, interpretComplexStringToken env dollarToken.str =
        .ok (fill env (template dollarToken.str) ++ ['\x00'])) ∧
      (∀ name, .valueOf name ∈ template dollarToken.str → NamedIn dollarToken.str name) ∧
      ∀ env env', (∀ name, NamedIn dollarToken.str name → env.lookup name = env'.lookup name) →
        interpretComplexStringToken env dollarToken.str =
          interpretComplexStringToken env' dollarToken.str := by
  let env : Environment :=
    { lookup := fun _ => none, short := by simp, noTerminator := by simp }
  have returns : interpretComplexStringToken env dollarToken.str = .ok ['$', '\x00'] := rfl
  exact interpret_template dollarToken returns

end QuashLabs.Quash.Parsing
