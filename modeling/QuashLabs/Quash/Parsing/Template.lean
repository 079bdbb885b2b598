import QuashLabs.Quash.Parsing.Strings

/-!
# Templates of tokens

The text of a token determines a template: characters to take as they are and names of
variables. One round of the scan reads the next piece of the text and appends what the
environment makes of it, so the result is the template with the values filled in.
Which characters of the text are quoted or escaped is a matter of the text alone.
-/

namespace QuashLabs.Quash.Parsing

open QuashLabs.Checked

/-! ## Templates -/

/-- A character, or the name of a variable whose value stands here. -/
inductive Piece
  | literal (c : Char)
  | valueOf (name : List Char)
  deriving Repr, DecidableEq

/-- What an environment makes of a piece. -/
def Piece.fill (env : Environment) : Piece → List Char
  | .literal c => [c]
  | .valueOf name => (env.lookup name).getD []

/-- What an environment makes of a template. -/
def fill (env : Environment) (pieces : List Piece) : List Char := pieces.flatMap (Piece.fill env)

@[simp]
theorem fill_append (env : Environment) (pieces more : List Piece) :
    fill env (pieces ++ more) = fill env pieces ++ fill env more := List.flatMap_append

/-- What is read next: the pieces, whether the text behind it is in quotes, and this text. -/
structure Reading where
  pieces : List Piece
  inQuotes : Bool
  rest : List Char

/-- Reading a text that starts with `c`. -/
def read (inQuotes : Bool) (c : Char) (tail : List Char) : Reading :=
  if c = '\\' then
    if inQuotes = false then
      if tail.headD '\x00' ∈ escapable then ⟨[.literal (tail.headD '\x00')], false, tail.tail⟩
      else if tail.headD '\x00' = '\n' then ⟨[], false, tail.tail⟩
      else ⟨[.literal '\\'], false, tail⟩
    else if tail.headD '\x00' = '\'' then ⟨[.literal '\''], true, tail.tail⟩
    else ⟨[.literal '\\'], true, tail⟩
  else if c = '\'' then ⟨[], !inQuotes, tail⟩
  else if c = '$' ∧ inQuotes = false ∧ isFirstIdentifierChar (tail.headD '\x00') then
    ⟨[.valueOf (tail.takeWhile isIdentifierChar)], false, tail.dropWhile isIdentifierChar⟩
  else ⟨[.literal c], inQuotes, tail⟩

theorem length_read_rest (inQuotes : Bool) (c : Char) (tail : List Char) :
    (read inQuotes c tail).rest.length ≤ tail.length := by
  have dropped : (tail.dropWhile isIdentifierChar).length ≤ tail.length :=
    (List.dropWhile_suffix _).length_le
  unfold read
  repeat' split
  all_goals simp [dropped]

/-- The template of a text, and whether the text ends in quotes. -/
def readAll (inQuotes : Bool) : List Char → List Piece × Bool
  | [] => ([], inQuotes)
  | c :: tail =>
      have := length_read_rest inQuotes c tail
      let next := read inQuotes c tail
      let later := readAll next.inQuotes next.rest
      (next.pieces ++ later.1, later.2)
termination_by text => text.length
decreasing_by simp only [List.length_cons]; omega

/-- The template of a text. -/
def template (text : List Char) : List Piece := (readAll false text).1

theorem readAll_nil (inQuotes : Bool) : readAll inQuotes [] = ([], inQuotes) := by
  rw [readAll]

theorem readAll_cons (inQuotes : Bool) (c : Char) (tail : List Char) :
    readAll inQuotes (c :: tail) =
      ((read inQuotes c tail).pieces ++
        (readAll (read inQuotes c tail).inQuotes (read inQuotes c tail).rest).1,
        (readAll (read inQuotes c tail).inQuotes (read inQuotes c tail).rest).2) := by
  rw [readAll]

/-! ## The scan fills the template -/

section Scanning

variable {env : Environment} {str bld bld' tail : List Char} {c : Char} {i : Nat} {inQuotes : Bool}

@[simp]
theorem onBuilder_pushBack (c : Char) (bld : List Char) :
    onBuilder (.pushBack c) bld = .ok (bld ++ [c]) := rfl

@[simp]
theorem onBuilder_popBack (c : Char) (bld : List Char) :
    onBuilder .popBack (bld ++ [c]) = .ok bld := by
  simp [onBuilder, Deque.execList]

@[simp]
theorem onBuilder_updateBack (c x : Char) (bld : List Char) :
    onBuilder (.updateBack x) (bld ++ [c]) = .ok (bld ++ [x]) := by
  simp [onBuilder, Deque.execList]

theorem appendValue_eq (value bld : List Char) : appendValue value bld = .ok (bld ++ value) := by
  induction value generalizing bld with
  | nil => simp [appendValue]
  | cons c value ih =>
      have later := ih (bld ++ [c])
      simpa [appendValue] using later

/-- Reading at the start of a suffix. -/
theorem charAt_of_drop (suffix : str.drop i = c :: tail) :
    charAt str i = .ok c ∧ charAt str (i + 1) = .ok (tail.headD '\x00') := by
  have inside : i < str.length := by
    by_contra past
    rw [List.drop_eq_nil_of_le (by omega)] at suffix
    cases suffix
  have first : str[i]? = some c := by
    rw [← List.head?_drop, suffix, List.head?_cons]
  have second : str[i + 1]? = tail.head? := by
    rw [← List.head?_drop, ← List.drop_drop, suffix]
    simp
  refine ⟨by rw [charAt, if_pos inside, List.getD_eq_getElem?_getD, first]; rfl, ?_⟩
  cases tail with
  | nil =>
      have final : i + 1 = str.length := by
        have length := congrArg List.length suffix
        simp only [List.length_drop, List.length_singleton] at length
        omega
      simp [charAt, final]
  | cons d tail =>
      have inside' : i + 1 < str.length := by
        have length := congrArg List.length suffix
        simp only [List.length_drop, List.length_cons] at length
        omega
      rw [charAt, if_pos inside', List.getD_eq_getElem?_getD, second]
      rfl

theorem exists_suffix (before : i < str.length) : ∃ c tail, str.drop i = c :: tail :=
  List.exists_cons_of_ne_nil (by simpa using before)

theorem length_of_drop (suffix : str.drop i = c :: tail) : str.length = i + 1 + tail.length := by
  have length := congrArg List.length suffix
  simp only [List.length_drop, List.length_cons] at length
  omega

theorem drop_succ (suffix : str.drop i = c :: tail) : str.drop (i + 1) = tail := by
  rw [← List.drop_drop, suffix, List.drop_one, List.tail_cons]

theorem exists_tail_of_headD (tail : List Char) (head : tail.headD '\x00' ≠ '\x00') :
    ∃ tail', tail = tail.headD '\x00' :: tail' := by
  cases tail with
  | nil => simp at head
  | cons d tail => exact ⟨tail, rfl⟩

theorem exists_tail_of_escapable (tail : List Char) (escapes : tail.headD '\x00' ∈ escapable) :
    ∃ tail', tail = tail.headD '\x00' :: tail' := by
  apply exists_tail_of_headD
  intro terminator
  rw [terminator] at escapes
  exact absurd escapes (by decide)

/-- A round returns, appends what the next pieces become, and stays before the terminator. -/
structure Round (env : Environment) (str : List Char) (st : Scan) (next : Reading)
    (st' : Scan) : Prop where
  filled : st'.bld = st.bld ++ fill env next.pieces
  quotes : st'.inQuotes = next.inQuotes
  forward : st.i ≤ st'.i
  inside : st'.i < str.length
  rest : str.drop (st'.i + 1) = next.rest

/-- A round that reads one character. -/
theorem Round.one {st : Scan} {next : Reading} {bld' : List Char} {inQuotes' : Bool}
    (suffix : str.drop st.i = c :: tail) (filled : bld' = st.bld ++ fill env next.pieces)
    (quotes : inQuotes' = next.inQuotes) (rest : next.rest = tail) :
    Round env str st next ⟨bld', st.i, inQuotes'⟩ where
  filled := filled
  quotes := quotes
  forward := le_rfl
  inside := by
    have length := length_of_drop suffix
    change st.i < str.length
    omega
  rest := (drop_succ suffix).trans rest.symm

/-- A round that reads two characters. -/
theorem Round.two {st : Scan} {next : Reading} {d : Char} {bld' : List Char} {inQuotes' : Bool}
    (suffix : str.drop st.i = c :: d :: tail) (filled : bld' = st.bld ++ fill env next.pieces)
    (quotes : inQuotes' = next.inQuotes) (rest : next.rest = tail) :
    Round env str st next ⟨bld', st.i + 1, inQuotes'⟩ where
  filled := filled
  quotes := quotes
  forward := Nat.le_succ _
  inside := by
    have length := length_of_drop suffix
    rw [List.length_cons] at length
    change st.i + 1 < str.length
    omega
  rest := (drop_succ (drop_succ suffix)).trans rest.symm

theorem scanBackslash_reads (short : str.length < 2 ^ 31 - 1)
    (suffix : str.drop i = '\\' :: tail) :
    ∃ st', scanBackslash str ⟨bld ++ ['\\'], i, inQuotes⟩ = .ok st' ∧
      Round env str ⟨bld, i, inQuotes⟩ (read inQuotes '\\' tail) st' := by
  rcases charAt_of_drop suffix with ⟨-, next⟩
  have length := length_of_drop suffix
  have step : incInt i = .ok (i + 1) := incInt_eq (by omega)
  cases inQuotes with
  | false =>
      simp only [scanBackslash, if_true, next, ok_bind]
      by_cases escapes : tail.headD '\x00' ∈ escapable
      · obtain ⟨tail', split⟩ := exists_tail_of_escapable tail escapes
        simp only [if_pos escapes, step, ok_bind, onBuilder_updateBack, pure_eq_ok]
        refine ⟨_, rfl, ?_⟩
        rw [read, if_pos rfl, if_pos rfl, if_pos escapes]
        exact .two (split ▸ suffix) rfl rfl (by rw [split]; rfl)
      · rw [if_neg escapes]
        by_cases newline : tail.headD '\x00' = '\n'
        · obtain ⟨tail', split⟩ := exists_tail_of_headD tail (by
            rw [newline]
            decide)
          simp only [if_pos newline, step, ok_bind, onBuilder_popBack, pure_eq_ok]
          refine ⟨_, rfl, ?_⟩
          rw [read, if_pos rfl, if_pos rfl, if_neg escapes, if_pos newline]
          exact .two (split ▸ suffix) (by simp [fill]) rfl (by rw [split]; rfl)
        · simp only [if_neg newline, pure_eq_ok]
          refine ⟨_, rfl, ?_⟩
          rw [read, if_pos rfl, if_pos rfl, if_neg escapes, if_neg newline]
          exact .one suffix rfl rfl rfl
  | true =>
      simp only [scanBackslash, Bool.true_eq_false, if_false, next, ok_bind]
      by_cases quote : tail.headD '\x00' = '\''
      · obtain ⟨tail', split⟩ := exists_tail_of_headD tail (by
          rw [quote]
          decide)
        simp only [if_pos quote, step, ok_bind, onBuilder_updateBack, pure_eq_ok]
        refine ⟨_, rfl, ?_⟩
        rw [read, if_pos rfl, if_neg (by simp), if_pos quote]
        exact .two (split ▸ suffix) rfl rfl (by rw [split]; rfl)
      · simp only [if_neg quote, pure_eq_ok]
        refine ⟨_, rfl, ?_⟩
        rw [read, if_pos rfl, if_neg (by simp), if_neg quote]
        exact .one suffix rfl rfl rfl

theorem scanQuote_reads (suffix : str.drop i = '\'' :: tail) :
    ∃ st', scanQuote ⟨bld ++ ['\''], i, inQuotes⟩ = .ok st' ∧
      Round env str ⟨bld, i, inQuotes⟩ (read inQuotes '\'' tail) st' := by
  simp only [scanQuote, onBuilder_popBack, ok_bind, pure_eq_ok]
  refine ⟨_, rfl, ?_⟩
  rw [read, if_neg (by decide), if_pos rfl]
  exact .one suffix (by simp [fill]) rfl rfl

theorem scanDollar_reads (short : str.length < 2 ^ 31 - 1) (suffix : str.drop i = '$' :: tail) :
    ∃ st', scanDollar env str ⟨bld ++ ['$'], i, inQuotes⟩ = .ok st' ∧
      Round env str ⟨bld, i, inQuotes⟩ (read inQuotes '$' tail) st' := by
  rcases charAt_of_drop suffix with ⟨dollar, next⟩
  rw [read, if_neg (by decide), if_neg (by decide)]
  cases inQuotes with
  | true => exact ⟨_, rfl, .one suffix rfl rfl rfl⟩
  | false =>
      simp only [scanDollar, if_true, next, ok_bind]
      by_cases identifier : isFirstIdentifierChar (tail.headD '\x00') = true
      · have length := length_of_drop suffix
        let name := tail.takeWhile isIdentifierChar
        have after : str.drop (i + name.length + 1) = tail.dropWhile isIdentifierChar := by
          rw [show i + name.length + 1 = i + 1 + name.length by omega, ← List.drop_drop,
            drop_succ suffix]
          nth_rewrite 1 [← List.takeWhile_append_dropWhile (p := isIdentifierChar) (l := tail)]
          exact List.drop_left
        have shorter : name.length ≤ tail.length := (List.takeWhile_prefix _).length_le
        have stop : incInt (i + name.length) = .ok (i + name.length + 1) := incInt_eq (by omega)
        have id : identifierAfter str i = name := by
          rw [identifierAfter, drop_succ suffix]
        simp only [if_pos identifier, interpretDeref, dollar, ok_bind, ne_eq, not_true_eq_false,
          if_false, assertDereference, List.getLast?_concat, if_true, onBuilder_popBack, id, stop,
          appendValue_eq, pure_eq_ok]
        refine ⟨_, rfl, ?_⟩
        rw [if_pos ⟨True.intro, True.intro, identifier⟩]
        exact {
          filled := by simp [fill, Piece.fill, name]
          quotes := rfl
          forward := Nat.le_add_right _ _
          inside := by
            change i + name.length < str.length
            omega
          rest := after }
      · simp only [identifier, Bool.false_eq_true, and_false, if_false, pure_eq_ok]
        exact ⟨_, rfl, .one suffix rfl rfl rfl⟩

/-- One round of the loop before the terminator reads the next pieces of the text. -/
theorem scanBody_reads (env : Environment) {st : Scan} (short : str.length < 2 ^ 31 - 1)
    (suffix : str.drop st.i = c :: tail) :
    ∃ st', scanBody env str st = .ok st' ∧ Round env str st (read st.inQuotes c tail) st' := by
  rcases st with ⟨bld, i, inQuotes⟩
  rcases charAt_of_drop suffix with ⟨first, -⟩
  simp only [scanBody, first, ok_bind, onBuilder_pushBack]
  by_cases backslash : c = '\\'
  · subst backslash
    exact scanBackslash_reads short suffix
  · rw [if_neg backslash]
    by_cases quote : c = '\''
    · subst quote
      exact scanQuote_reads suffix
    · rw [if_neg quote]
      by_cases dollar : c = '$'
      · subst dollar
        exact scanDollar_reads short suffix
      · rw [if_neg dollar, read, if_neg backslash, if_neg quote, if_neg (by simp [dollar])]
        exact ⟨_, rfl, .one suffix rfl rfl rfl⟩

/-- The round at the terminator. -/
theorem scanBody_terminator {st : Scan} (final : st.i = str.length) :
    scanBody env str st = .ok { st with bld := st.bld ++ ['\x00'] } := by
  have terminator : charAt str st.i = .ok '\x00' := by simp [charAt, final]
  simp [scanBody, terminator]

/-- The loop runs to the terminator, keeps it at the back of the builder and fills the
template of the text. -/
theorem scanLoop_fills (env : Environment) (short : str.length < 2 ^ 31 - 1) (fuel : Nat)
    (st : Scan) (inside : st.i ≤ str.length) (enough : str.length + 2 ≤ st.i + fuel) :
    scanLoop env str str.length fuel st =
      .ok ⟨st.bld ++ fill env (readAll st.inQuotes (str.drop st.i)).1 ++ ['\x00'],
        str.length + 1, (readAll st.inQuotes (str.drop st.i)).2⟩ := by
  induction fuel generalizing st with
  | zero => omega
  | succ fuel ih =>
      rw [scanLoop, if_pos (by omega)]
      rcases Nat.lt_or_eq_of_le inside with before | final
      · rcases exists_suffix before with ⟨c, tail, suffix⟩
        obtain ⟨st', body, round⟩ := scanBody_reads env short suffix
        have inside' := round.inside
        have forward := round.forward
        have step : incInt st'.i = .ok (st'.i + 1) := incInt_eq (by omega)
        have runs := ih { st' with i := st'.i + 1 } (by simp only; omega) (by simp only; omega)
        simp only [round.rest, round.filled, round.quotes] at runs
        rw [body, ok_bind, step, ok_bind, suffix, readAll_cons, fill_append, ← List.append_assoc]
        simpa [round.filled, round.quotes] using runs
      · have step : incInt st.i = .ok (st.i + 1) := incInt_eq (by omega)
        rcases fuel with _ | fuel
        · omega
        · rw [scanBody_terminator final, ok_bind, step, ok_bind, scanLoop,
            if_neg (by simp only; omega)]
          simp [final, readAll_nil, fill]

end Scanning

/-- The scan of a C string that an `int` can index fills its template. -/
theorem scan_fills (env : Environment) {str : List Char} (short : str.length < 2 ^ 31 - 1) :
    scan env str = .ok ⟨fill env (template str) ++ ['\x00'], str.length + 1,
      (readAll false str).2⟩ := by
  have length : intOfSize str.length = str.length := intOfSize_eq (by omega)
  have runs := scanLoop_fills env short (str.length + 2) ⟨[], 0, false⟩ (Nat.zero_le _)
    (by simp only; omega)
  rw [scan, length, runs]
  rfl

/-- A C string that an `int` can index is interpreted as its template, unless it ends in
quotes. -/
theorem interpretComplexStringToken_eq (env : Environment) {str : List Char}
    (short : str.length < 2 ^ 31 - 1) :
    interpretComplexStringToken env str =
      if (readAll false str).2 then .error .assertion
      else .ok (fill env (template str) ++ ['\x00']) := by
  simp only [interpretComplexStringToken, scan_fills env short, ok_bind, onBuilder_updateBack,
    pure_eq_ok]

end QuashLabs.Quash.Parsing
