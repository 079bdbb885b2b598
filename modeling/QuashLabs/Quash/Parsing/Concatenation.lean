import Mathlib.Data.List.TakeWhile
import QuashLabs.Quash.Parsing.Expansion

/-!
# Words next to each other

A text that the scanner takes as a string ends at a character that the interpreter has
read too: no backslash at its end is left to escape what follows. So, unless the name of
a variable goes on behind the text, what follows is read as if it stood alone.
-/

namespace QuashLabs.Quash.Parsing

open QuashLabs.Checked

variable {u v text : List Char} {state : Quoting} {inQuotes : Bool}

/-! ## No backslash is pending -/

theorem afterChar_ne_escaping {c : Char} (notBackslash : c ≠ '\\') :
    Quoting.afterChar inQuotes c ≠ .escaping := by
  cases inQuotes <;> by_cases quote : c = '\'' <;>
    simp [Quoting.afterChar, Quoting.bare, notBackslash, quote]

theorem afterChar_quoted_ne_escaping (c : Char) : Quoting.afterChar true c ≠ .escaping := by
  by_cases backslash : c = '\\'
  · simp [Quoting.afterChar, backslash]
  · exact afterChar_ne_escaping backslash

/-- Behind another character than a backslash. -/
theorem next_ne_escaping {c : Char} (notBackslash : c ≠ '\\') : state.next c ≠ .escaping := by
  cases state with
  | outside => exact afterChar_ne_escaping notBackslash
  | escaping =>
      simp only [Quoting.next]
      split
      · intro same
        cases same
      · exact afterChar_ne_escaping notBackslash
  | quoted => exact afterChar_ne_escaping notBackslash
  | quotedEscaping =>
      simp only [Quoting.next]
      split
      · intro same
        cases same
      · exact afterChar_ne_escaping notBackslash

/-- Behind a backslash with the next character, unless another backslash is pending. -/
theorem next_next_ne_escaping (settled : state ≠ .escaping) (c : Char) :
    (state.next '\\').next c ≠ .escaping := by
  have quoted : Quoting.next .quotedEscaping c ≠ .escaping := by
    simp only [Quoting.next]
    split
    · intro same
      cases same
    · exact afterChar_quoted_ne_escaping c
  cases state with
  | outside =>
      change Quoting.next .escaping c ≠ .escaping
      simp only [Quoting.next]
      split
      · intro same
        cases same
      · rename_i kept
        apply afterChar_ne_escaping
        rintro rfl
        exact kept (.inl (by decide))
  | escaping => exact absurd rfl settled
  | quoted => exact quoted
  | quotedEscaping => exact quoted

theorem foldl_stringPiece (piece : StringPiece text) (settled : state ≠ .escaping) :
    text.foldl Quoting.next state ≠ .escaping := by
  cases piece with
  | plain word =>
      apply next_ne_escaping
      rintro rfl
      exact word (by decide)
  | escaped c => exact next_next_ne_escaping settled c
  | quoted inside =>
      rw [List.foldl_append]
      exact next_ne_escaping (by decide)

/-- Where a string of the scanner ends, no backslash is pending. -/
theorem foldl_stringPattern (pattern : StringPattern text) (settled : state ≠ .escaping) :
    text.foldl Quoting.next state ≠ .escaping := by
  induction pattern generalizing state with
  | single piece => exact foldl_stringPiece piece settled
  | append piece _ ih =>
      rw [List.foldl_append]
      exact ih (foldl_stringPiece piece settled)

/-- Reading a whole text ends in the state that its characters leave. -/
theorem readAll_agrees (agrees : Agrees state inQuotes text) :
    Agrees (text.foldl Quoting.next state) (readAll inQuotes text).2 [] := by
  induction length : text.length using Nat.strong_induction_on
    generalizing state inQuotes text with
  | _ n ih =>
      cases text with
      | nil => simpa [readAll_nil] using agrees
      | cons c tail =>
          rcases read_agrees agrees with ⟨taken, split, agrees'⟩
          have shorter := length_read_rest inQuotes c tail
          rw [List.length_cons] at length
          have later := ih _ (by omega) agrees' rfl
          rw [readAll_cons, split, List.foldl_append]
          exact later

/-- A string of the scanner that ends outside quotes leaves nothing pending. -/
theorem foldl_outside (pattern : StringPattern text) (outside : (readAll false text).2 = false) :
    text.foldl Quoting.next .outside = .outside := by
  have bare : Agrees .outside false text := .inl rfl
  have agrees := readAll_agrees bare
  rw [outside] at agrees
  rcases agrees with bare | ⟨pending, -⟩ | ⟨-, quoted, -⟩
  · exact bare
  · exact absurd pending (foldl_stringPattern pattern (by decide))
  · cases quoted

/-! ## Reading on -/

/-- A name of a variable. -/
def IsIdentifier (name : List Char) : Prop :=
  isFirstIdentifierChar (name.headD '\x00') = true ∧ ∀ c ∈ name, isIdentifierChar c = true

theorem isIdentifierChar_of_first {c : Char} (first : isFirstIdentifierChar c = true) :
    isIdentifierChar c = true := by
  simp only [isFirstIdentifierChar, isIdentifierChar, Bool.or_eq_true, Char.isAlphanum] at first ⊢
  exact first.imp_left .inl

/-- Behind a dollar sign that is neither quoted nor escaped, the end of the text and the
first character of the next one make a name. -/
def StraddlesFrom (state : Quoting) (u v : List Char) : Prop :=
  ∃ before name c rest, u = before ++ '$' :: name ∧ before.foldl Quoting.next state = .outside ∧
    v = c :: rest ∧ IsIdentifier (name ++ [c])

/-- The name of a variable straddles the boundary between two texts. -/
def Straddles (u v : List Char) : Prop := StraddlesFrom .outside u v

/-- A name that ends with the text is not longer with what follows. -/
theorem takeWhile_append_of_not_identifier {tail : List Char}
    (first : isFirstIdentifierChar (tail.headD '\x00') = true)
    (ends : ∀ c rest, v = c :: rest → ¬IsIdentifier (tail ++ [c])) :
    (tail ++ v).takeWhile isIdentifierChar = tail.takeWhile isIdentifierChar ∧
      (tail ++ v).dropWhile isIdentifierChar = tail.dropWhile isIdentifierChar ++ v := by
  by_cases whole : ∀ c ∈ tail, isIdentifierChar c = true
  · have stops : v.takeWhile isIdentifierChar = [] ∧ v.dropWhile isIdentifierChar = v := by
      cases v with
      | nil => exact ⟨rfl, rfl⟩
      | cons c rest =>
          have other : ¬isIdentifierChar c = true := by
            intro identifier
            refine ends c rest rfl ⟨?_, fun d member => ?_⟩
            · cases tail with
              | nil => exact absurd first (by decide)
              | cons d tail => exact first
            · rcases List.mem_append.mp member with old | last
              · exact whole d old
              · rw [List.mem_singleton.mp last]
                exact identifier
          simp [other]
    rw [List.takeWhile_append_of_pos whole, List.dropWhile_append_of_pos whole, stops.1, stops.2,
      List.append_nil, List.takeWhile_eq_self_iff.mpr whole, List.dropWhile_eq_nil_iff.mpr whole]
    exact ⟨rfl, rfl⟩
  · have some : tail.dropWhile isIdentifierChar ≠ [] := fun none =>
      whole (List.dropWhile_eq_nil_iff.mp none)
    have shorter : (tail.takeWhile isIdentifierChar).length ≠ tail.length := fun same =>
      whole (List.takeWhile_eq_self_iff.mp ((List.takeWhile_prefix _).eq_of_length same))
    rw [List.takeWhile_append, if_neg shorter, List.dropWhile_append,
      if_neg (by simpa using some)]
    exact ⟨rfl, rfl⟩

/-- What is read next does not depend on what follows the text. -/
theorem read_append {c : Char} {tail : List Char} (agrees : Agrees state inQuotes (c :: tail))
    (outside : (c :: tail).foldl Quoting.next state = .outside)
    (apart : ¬StraddlesFrom state (c :: tail) v) :
    read inQuotes c (tail ++ v) =
      ⟨(read inQuotes c tail).pieces, (read inQuotes c tail).inQuotes,
        (read inQuotes c tail).rest ++ v⟩ := by
  have first := agrees.next
  by_cases backslash : c = '\\'
  · subst backslash
    cases tail with
    | nil =>
        rw [List.foldl_cons, first] at outside
        cases inQuotes <;> cases outside
    | cons d tail =>
        cases inQuotes with
        | false =>
            by_cases escapes : d ∈ escapable
            · simp [read, escapes]
            · by_cases newline : d = '\n'
              · subst newline
                rfl
              · simp [read, escapes, newline]
        | true =>
            by_cases quote : d = '\''
            · simp [read, quote]
            · simp [read, quote]
  · by_cases quote : c = '\''
    · simp [read, quote]
    · by_cases dollar : c = '$' ∧ inQuotes = false
      · obtain ⟨rfl, rfl⟩ := dollar
        have bare : state = .outside := by
          rcases agrees with bare | ⟨-, -, kept, -⟩ | ⟨-, quoted, -⟩
          · exact bare
          · exact absurd (by decide : '$' ∈ escapable) kept
          · cases quoted
        have ends : ∀ d rest, v = d :: rest → ¬IsIdentifier (tail ++ [d]) :=
          fun d rest split name => apart ⟨[], tail, d, rest, rfl, bare, split, name⟩
        by_cases named : isFirstIdentifierChar (tail.headD '\x00') = true
        · obtain ⟨name, rest⟩ := takeWhile_append_of_not_identifier named ends
          have named' : isFirstIdentifierChar ((tail ++ v).headD '\x00') = true := by
            cases tail with
            | nil => exact absurd named (by decide)
            | cons d tail => exact named
          simp only [read, named, named', name, rest]
          rfl
        · have named' : ¬isFirstIdentifierChar ((tail ++ v).headD '\x00') = true := by
            cases tail with
            | nil =>
                cases v with
                | nil => exact named
                | cons d rest =>
                    intro first
                    refine ends d rest rfl ⟨first, fun e member => ?_⟩
                    rw [List.mem_singleton.mp member]
                    exact isIdentifierChar_of_first first
            | cons d tail => exact named
          simp only [read, named, named']
          rfl
      · simp [read, backslash, quote, ← and_assoc, dollar]

/-- A text that ends outside quotes and what follows it are read one after the other. -/
theorem readAll_append (agrees : Agrees state inQuotes text)
    (outside : text.foldl Quoting.next state = .outside) (apart : ¬StraddlesFrom state text v) :
    readAll inQuotes (text ++ v) =
      ((readAll inQuotes text).1 ++ (readAll false v).1, (readAll false v).2) := by
  induction length : text.length using Nat.strong_induction_on
    generalizing state inQuotes text with
  | _ n ih =>
      cases text with
      | nil =>
          obtain rfl : inQuotes = false := by
            rcases agrees with bare | ⟨-, plain, -⟩ | ⟨pending, -⟩
            · obtain rfl : state = .outside := outside
              cases inQuotes with
              | false => rfl
              | true => cases bare
            · exact plain
            · cases pending.symm.trans outside
          simp [readAll_nil]
      | cons c tail =>
          have next := read_append agrees outside apart
          rcases read_agrees agrees with ⟨taken, split, agrees'⟩
          have shorter := length_read_rest inQuotes c tail
          rw [List.length_cons] at length
          rw [split, List.foldl_append] at outside
          have later := ih _ (by omega) agrees' outside ?_ rfl
          · rw [List.cons_append, readAll_cons, next, later, readAll_cons, List.append_assoc]
          · rintro ⟨before, name, d, rest, inside, bare, follows, identifier⟩
            refine apart ⟨taken ++ before, name, d, rest, ?_, ?_, follows, identifier⟩
            · rw [split, inside, List.append_assoc]
            · rw [List.foldl_append, bare]

/-- A string of the scanner and a text behind it that are interpreted in some environment
are interpreted in all. There their concatenation means what the one means and then what
the other means, unless the name of a variable straddles the boundary. -/
theorem interpret_append (matched : StringPattern u) (short : (u ++ v).length < 2 ^ 31 - 1)
    (apart : ¬Straddles u v) {env₀ : Environment} {x y : List Char}
    (left : interpretComplexStringToken env₀ u = .ok x)
    (right : interpretComplexStringToken env₀ v = .ok y) (env : Environment) :
    ∃ a b, interpretComplexStringToken env u = .ok (a ++ ['\x00']) ∧
      interpretComplexStringToken env v = .ok (b ++ ['\x00']) ∧
      interpretComplexStringToken env (u ++ v) = .ok (a ++ b ++ ['\x00']) := by
  have lengths : (u ++ v).length = u.length + v.length := List.length_append
  have shortLeft : u.length < 2 ^ 31 - 1 := by omega
  have shortRight : v.length < 2 ^ 31 - 1 := by omega
  have unquoted {text result : List Char} (fits : text.length < 2 ^ 31 - 1)
      (returns : interpretComplexStringToken env₀ text = .ok result) :
      (readAll false text).2 = false := by
    rw [interpretComplexStringToken_eq env₀ fits] at returns
    by_contra quoted
    rw [Bool.not_eq_false] at quoted
    simp [quoted] at returns
  have outsideLeft := unquoted shortLeft left
  have outsideRight := unquoted shortRight right
  have bare : Agrees .outside false u := .inl rfl
  have joined := readAll_append bare (foldl_outside matched outsideLeft) apart
  refine ⟨fill env (template u), fill env (template v), ?_, ?_, ?_⟩
  · simp [interpretComplexStringToken_eq env shortLeft, outsideLeft]
  · simp [interpretComplexStringToken_eq env shortRight, outsideRight]
  · simp [interpretComplexStringToken_eq env short, joined, outsideRight, template, fill_append]

/-- The texts `a\ b` and `$A`. -/
theorem interpret_append_blank :
    ∃ a b, interpretComplexStringToken environmentA "a\\ b".toList = .ok (a ++ ['\x00']) ∧
      interpretComplexStringToken environmentA "$A".toList = .ok (b ++ ['\x00']) ∧
      interpretComplexStringToken environmentA ("a\\ b".toList ++ "$A".toList) =
        .ok (a ++ b ++ ['\x00']) := by
  have noDollar : ¬Straddles "a\\ b".toList "$A".toList := by
    rintro ⟨before, name, c, rest, split, -⟩
    have dollar : '$' ∈ "a\\ b".toList := by simp [split]
    exact absurd dollar (by decide)
  have plain {c : Char} (word : c ∉ wordBreakers) : StringPiece [c] := .plain word
  have left : interpretComplexStringToken environmentA "a\\ b".toList = .ok "a b\x00".toList := rfl
  have right : interpretComplexStringToken environmentA "$A".toList = .ok "x\x00".toList := rfl
  apply interpret_append _ (by decide) noDollar left right environmentA
  exact .append (plain (by decide)) (.append (.escaped ' ') (.single (plain (by decide))))

end QuashLabs.Quash.Parsing
