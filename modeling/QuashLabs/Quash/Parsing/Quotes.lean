import Mathlib.Algebra.Group.Nat.Even
import QuashLabs.Quash.Parsing.Template

/-!
# Where quoted segments end

The scanner pairs every backslash inside single quotes with the next character,
the interpreter only pairs it with a quote. What the interpreter does at a quote
depends on the length of the run of backslashes directly before it: after no
backslash the quote toggles, after an odd run it is escaped in either state,
and after a nonempty even run it always leaves the scan inside quotes. The text
decides by these lengths alone whether the scan ends outside.
-/

namespace QuashLabs.Quash.Parsing

open QuashLabs.Checked

/-! ## The pattern of the scanner -/

/-- The characters that the pattern keeps out of words. -/
def wordBreakers : List Char := [' ', '\t', '\r', '\n', '\'', '#', '<', '>', '=', '&', '|', '\\']

/-- The inside of a quoted segment: `(\\(.|\n)|[^\\'])*`. -/
inductive QuotedText : List Char → Prop
  | nil : QuotedText []
  | escaped (c : Char) {rest : List Char} (text : QuotedText rest) : QuotedText ('\\' :: c :: rest)
  | plain {c : Char} {rest : List Char} (notBackslash : c ≠ '\\') (notQuote : c ≠ '\'')
      (text : QuotedText rest) : QuotedText (c :: rest)

/-- One alternative of the pattern `string`. -/
inductive StringPiece : List Char → Prop
  | plain {c : Char} (word : c ∉ wordBreakers) : StringPiece [c]
  | escaped (c : Char) : StringPiece ['\\', c]
  | quoted {text : List Char} (inside : QuotedText text) : StringPiece ('\'' :: text ++ ['\''])

/-- The texts that the pattern `string` matches: one or more pieces. -/
inductive StringPattern : List Char → Prop
  | single {piece : List Char} (is : StringPiece piece) : StringPattern piece
  | append {piece rest : List Char} (is : StringPiece piece) (more : StringPattern rest) :
      StringPattern (piece ++ rest)

/-- A token of the rule `STR`. The scanner addresses its buffer with an `int`, so
it cannot build a longer text. -/
structure StrToken where
  text : List Char
  matched : StringPattern text
  short : text.length < 2 ^ 31 - 1

/-- `memory_pool_strdup(yytext)`: the text up to its first terminator. -/
def StrToken.str (token : StrToken) : List Char :=
  token.text.takeWhile (· ≠ '\x00')

/-! ## Runs of backslashes -/

/-- For each quote the length of the run of backslashes directly before it, when
`pending` backslashes directly precede the text. -/
def quoteRuns (pending : Nat) : List Char → List Nat
  | [] => []
  | c :: rest =>
      if c = '\\' then quoteRuns (pending + 1) rest
      else if c = '\'' then pending :: quoteRuns 0 rest
      else quoteRuns 0 rest

/-- What a quote after `run` backslashes does to `in_quotes`. -/
def quoteToggle (inQuotes : Bool) (run : Nat) : Bool :=
  if run = 0 then !inQuotes else if run % 2 = 0 then true else inQuotes

/-- The state after all the quotes of a text. -/
def quotesAfter (inQuotes : Bool) (pending : Nat) (text : List Char) : Bool :=
  (quoteRuns pending text).foldl quoteToggle inQuotes

/-- Between two rounds the backslashes read so far decide nothing that the next
character could still change. -/
def Settled (inQuotes : Bool) (pending : Nat) (text : List Char) : Prop :=
  if inQuotes then pending = 0 ∨ text.head? ≠ some '\''
  else pending % 2 = 0 ∨ text.head? ≠ some '\\' ∧ text.head? ≠ some '\''

@[simp]
theorem settled_zero (inQuotes : Bool) (text : List Char) : Settled inQuotes 0 text := by
  cases inQuotes <;> simp [Settled]

/-- Characters of an identifier contain no quotes and no backslashes. -/
theorem quotesAfter_identifier {inQuotes : Bool} {name : List Char}
    (identifier : ∀ c ∈ name, isIdentifierChar c) (rest : List Char) :
    quotesAfter inQuotes 0 (name ++ rest) = quotesAfter inQuotes 0 rest := by
  induction name with
  | nil => rfl
  | cons c name ih =>
      have notBackslash : c ≠ '\\' := by
        rintro rfl
        exact absurd (identifier _ List.mem_cons_self) (by decide)
      have notQuote : c ≠ '\'' := by
        rintro rfl
        exact absurd (identifier _ List.mem_cons_self) (by decide)
      rw [← ih fun d member => identifier d (List.mem_cons_of_mem _ member)]
      simp [quotesAfter, quoteRuns, notBackslash, notQuote]

/-- What is read next accounts for the quotes that it passes. -/
structure Accounts (inQuotes : Bool) (pending : Nat) (text : List Char) (next : Reading)
    (pending' : Nat) : Prop where
  settled : Settled next.inQuotes pending' next.rest
  quotes : quotesAfter inQuotes pending text = quotesAfter next.inQuotes pending' next.rest

theorem read_backslash_accounts {inQuotes : Bool} {pending : Nat} {tail : List Char}
    (settled : Settled inQuotes pending ('\\' :: tail)) :
    ∃ pending', Accounts inQuotes pending ('\\' :: tail) (read inQuotes '\\' tail) pending' := by
  cases inQuotes with
  | false =>
      have even : pending % 2 = 0 := by simpa [Settled] using settled
      by_cases escapes : tail.headD '\x00' ∈ escapable
      · obtain ⟨tail', split⟩ := exists_tail_of_escapable tail escapes
        rw [read, if_pos rfl, if_pos rfl, if_pos escapes]
        generalize tail.headD '\x00' = d at split escapes ⊢
        subst split
        by_cases backslash : d = '\\'
        · refine ⟨pending + 2, ?_, ?_⟩
          · exact .inl (by omega)
          · simp [quotesAfter, quoteRuns, backslash]
        · refine ⟨0, settled_zero _ _, ?_⟩
          by_cases quote : d = '\''
          · have odd : (pending + 1) % 2 ≠ 0 := by omega
            simp [quotesAfter, quoteRuns, quote, quoteToggle, odd]
          · simp [quotesAfter, quoteRuns, backslash, quote]
      · by_cases newline : tail.headD '\x00' = '\n'
        · obtain ⟨tail', split⟩ := exists_tail_of_headD tail (by
            rw [newline]
            decide)
          rw [read, if_pos rfl, if_pos rfl, if_neg escapes, if_pos newline]
          rw [newline] at split
          subst split
          exact ⟨0, settled_zero _ _, by simp [quotesAfter, quoteRuns]⟩
        · rw [read, if_pos rfl, if_pos rfl, if_neg escapes, if_neg newline]
          refine ⟨pending + 1, .inr ?_, by simp [quotesAfter, quoteRuns]⟩
          cases tail with
          | nil => simp
          | cons d tail =>
              simp only [List.headD_cons, escapable, List.mem_cons, not_or] at escapes
              simp [escapes.1, escapes.2.1]
  | true =>
      by_cases quote : tail.headD '\x00' = '\''
      · obtain ⟨tail', split⟩ := exists_tail_of_headD tail (by
          rw [quote]
          decide)
        rw [read, if_pos rfl, if_neg (by simp), if_pos quote]
        rw [quote] at split
        subst split
        exact ⟨0, settled_zero _ _, by simp [quotesAfter, quoteRuns, quoteToggle]⟩
      · rw [read, if_pos rfl, if_neg (by simp), if_neg quote]
        refine ⟨pending + 1, .inr ?_, by simp [quotesAfter, quoteRuns]⟩
        cases tail <;> simp_all

theorem read_quote_accounts {inQuotes : Bool} {pending : Nat} {tail : List Char}
    (settled : Settled inQuotes pending ('\'' :: tail)) :
    Accounts inQuotes pending ('\'' :: tail) (read inQuotes '\'' tail) 0 := by
  rw [read, if_neg (by decide), if_pos rfl]
  refine ⟨settled_zero _ _, ?_⟩
  cases inQuotes with
  | false =>
      have even : pending % 2 = 0 := by simpa [Settled] using settled
      simp [quotesAfter, quoteRuns, quoteToggle, even]
  | true =>
      have bare : pending = 0 := by simpa [Settled] using settled
      simp [quotesAfter, quoteRuns, quoteToggle, bare]

theorem read_accounts {inQuotes : Bool} {pending : Nat} {c : Char} {tail : List Char}
    (settled : Settled inQuotes pending (c :: tail)) :
    ∃ pending', Accounts inQuotes pending (c :: tail) (read inQuotes c tail) pending' := by
  by_cases backslash : c = '\\'
  · subst backslash
    exact read_backslash_accounts settled
  · by_cases quote : c = '\''
    · subst quote
      exact ⟨0, read_quote_accounts settled⟩
    · have plain : quotesAfter inQuotes pending (c :: tail) = quotesAfter inQuotes 0 tail := by
        simp [quotesAfter, quoteRuns, backslash, quote]
      refine ⟨0, ?_⟩
      rw [read, if_neg backslash, if_neg quote]
      split
      · rename_i named
        refine ⟨settled_zero _ _, ?_⟩
        rw [plain, named.2.1]
        nth_rewrite 1 [← List.takeWhile_append_dropWhile (p := isIdentifierChar) (l := tail)]
        exact quotesAfter_identifier (List.all_eq_true.mp List.all_takeWhile) _
      · exact ⟨settled_zero _ _, plain⟩

/-- The quotes of a text decide whether it ends in quotes. -/
theorem readAll_quotes {inQuotes : Bool} {pending : Nat} {text : List Char}
    (settled : Settled inQuotes pending text) :
    (readAll inQuotes text).2 = quotesAfter inQuotes pending text := by
  induction length : text.length using Nat.strong_induction_on
    generalizing inQuotes pending text with
  | _ n ih =>
      cases text with
      | nil => simp [readAll_nil, quotesAfter, quoteRuns]
      | cons c tail =>
          rcases read_accounts settled with ⟨pending', settled', quotes⟩
          have shorter := length_read_rest inQuotes c tail
          rw [List.length_cons] at length
          rw [readAll_cons, quotes]
          exact ih _ (by omega) settled' rfl

/-- The scan of a C string that an `int` can index always ends, with the state
that its quotes determine. -/
theorem scan_eq (env : Environment) {str : List Char} (short : str.length < 2 ^ 31 - 1) :
    ∃ bld, scan env str = .ok ⟨bld ++ ['\x00'], str.length + 1, quotesAfter false 0 str⟩ := by
  refine ⟨fill env (template str), ?_⟩
  rw [scan_fills env short, readAll_quotes (settled_zero false str)]

/-! ## The condition on the runs -/

/-- The quote follows no backslash, or an odd number of them. -/
def Unpaired (run : Nat) : Prop :=
  run = 0 ∨ run % 2 = 1

/-- The lengths of the runs leave the scan outside quotes: there is no quote after
a nonempty even run and the number of bare quotes is even, or the number of
bare quotes after the last quote of that kind is odd. -/
def RunsEndOutside (runs : List Nat) : Prop :=
  (∀ run ∈ runs, Unpaired run) ∧ runs.count 0 % 2 = 0 ∨
    ∃ before run after, runs = before ++ run :: after ∧ ¬Unpaired run ∧
      (∀ later ∈ after, Unpaired later) ∧ after.count 0 % 2 = 1

/-- Without nonempty even runs the bare quotes alone toggle. -/
theorem foldl_quoteToggle {runs : List Nat} (unpaired : ∀ run ∈ runs, Unpaired run)
    (inQuotes : Bool) :
    runs.foldl quoteToggle inQuotes = (inQuotes ^^ decide (runs.count 0 % 2 = 1)) := by
  induction runs generalizing inQuotes with
  | nil => simp
  | cons run runs ih =>
      rw [List.foldl_cons, ih fun later member => unpaired later (List.mem_cons_of_mem _ member)]
      rcases unpaired run List.mem_cons_self with rfl | odd
      · have flip : decide ((runs.count 0 + 1) % 2 = 1) = !decide (runs.count 0 % 2 = 1) := by
          rcases Nat.mod_two_eq_zero_or_one (runs.count 0) with even | odd
          · simp [Nat.add_mod, even]
          · simp [Nat.add_mod, odd]
        rw [List.count_cons_self, flip]
        cases inQuotes <;> simp [quoteToggle]
      · have nonzero : run ≠ 0 := by omega
        rw [List.count_cons_of_ne nonzero]
        simp [quoteToggle, nonzero, odd]

/-- The last quote after a nonempty even run. -/
theorem exists_last_paired {runs : List Nat} (paired : ¬∀ run ∈ runs, Unpaired run) :
    ∃ before run after, runs = before ++ run :: after ∧ ¬Unpaired run ∧
      ∀ later ∈ after, Unpaired later := by
  induction runs with
  | nil => simp at paired
  | cons run runs ih =>
      by_cases later : ∀ run ∈ runs, Unpaired run
      · have first : ¬Unpaired run := by
          intro unpaired
          exact paired (List.forall_mem_cons.mpr ⟨unpaired, later⟩)
        exact ⟨[], run, runs, rfl, first, later⟩
      · rcases ih later with ⟨before, last, after, split, isPaired, unpaired⟩
        exact ⟨run :: before, last, after, by rw [split, List.cons_append], isPaired, unpaired⟩

/-- From the last quote after a nonempty even run on, only bare quotes count. -/
theorem foldl_quoteToggle_last {before after : List Nat} {run : Nat} (paired : ¬Unpaired run)
    (unpaired : ∀ later ∈ after, Unpaired later) (inQuotes : Bool) :
    (before ++ run :: after).foldl quoteToggle inQuotes = !decide (after.count 0 % 2 = 1) := by
  have inside (state : Bool) : quoteToggle state run = true := by
    unfold Unpaired at paired
    have nonzero : run ≠ 0 := fun zero => paired (.inl zero)
    have even : run % 2 = 0 := by omega
    simp [quoteToggle, nonzero, even]
  rw [List.foldl_append, List.foldl_cons, inside, foldl_quoteToggle unpaired, Bool.true_xor]

theorem foldl_quoteToggle_eq_false_iff (runs : List Nat) :
    runs.foldl quoteToggle false = false ↔ RunsEndOutside runs := by
  constructor
  · intro outside
    by_cases unpaired : ∀ run ∈ runs, Unpaired run
    · rw [foldl_quoteToggle unpaired, Bool.false_xor, decide_eq_false_iff_not] at outside
      exact .inl ⟨unpaired, by omega⟩
    · rcases exists_last_paired unpaired with ⟨before, run, after, rfl, paired, later⟩
      rw [foldl_quoteToggle_last paired later] at outside
      exact .inr ⟨before, run, after, rfl, paired, later, by simpa using outside⟩
  · rintro (⟨unpaired, even⟩ | ⟨before, run, after, rfl, paired, later, odd⟩)
    · simp [foldl_quoteToggle unpaired, even]
    · simp [foldl_quoteToggle_last paired later, odd]

/-! ## What the scanner pairs -/

/-- The number of quotes after an even run of backslashes. -/
def evenQuotes (pending : Nat) (text : List Char) : Nat :=
  (quoteRuns pending text).countP (· % 2 = 0)

/-- A backslash with the next character changes neither the number of these quotes
nor the parity of the run. -/
theorem evenQuotes_escaped {pending : Nat} (even : pending % 2 = 0) (c : Char) (rest : List Char) :
    ∃ pending', pending' % 2 = 0 ∧
      evenQuotes pending ('\\' :: c :: rest) = evenQuotes pending' rest := by
  by_cases backslash : c = '\\'
  · exact ⟨pending + 2, by omega, by simp [evenQuotes, quoteRuns, backslash]⟩
  · refine ⟨0, rfl, ?_⟩
    by_cases quote : c = '\''
    · have odd : (pending + 1) % 2 = 1 := by omega
      simp [evenQuotes, quoteRuns, quote, odd]
    · simp [evenQuotes, quoteRuns, backslash, quote]

/-- No quote inside a quoted segment follows an even run. -/
theorem evenQuotes_quotedText {text : List Char} (inside : QuotedText text) {pending : Nat}
    (even : pending % 2 = 0) (rest : List Char) :
    ∃ pending', pending' % 2 = 0 ∧
      evenQuotes pending (text ++ rest) = evenQuotes pending' rest := by
  induction inside generalizing pending with
  | nil => exact ⟨pending, even, rfl⟩
  | @escaped c text _ ih =>
      rcases evenQuotes_escaped even c (text ++ rest) with ⟨pending', even', first⟩
      rcases ih even' with ⟨pending'', even'', later⟩
      exact ⟨pending'', even'', first.trans later⟩
  | @plain c text notBackslash notQuote _ ih =>
      rcases ih (Nat.zero_mod 2) with ⟨pending', even', later⟩
      refine ⟨pending', even', ?_⟩
      rw [← later]
      simp [evenQuotes, quoteRuns, notBackslash, notQuote]

/-- A piece of the pattern holds an even number of these quotes. -/
theorem evenQuotes_piece {piece : List Char} (is : StringPiece piece) {pending : Nat}
    (even : pending % 2 = 0) (rest : List Char) :
    ∃ pending', pending' % 2 = 0 ∧
      evenQuotes pending (piece ++ rest) % 2 = evenQuotes pending' rest % 2 := by
  cases is with
  | @plain c word =>
      simp only [wordBreakers, List.mem_cons, not_or] at word
      refine ⟨0, rfl, ?_⟩
      simp [evenQuotes, quoteRuns, word]
  | escaped c =>
      rcases evenQuotes_escaped even c rest with ⟨pending', even', same⟩
      exact ⟨pending', even', congrArg (· % 2) same⟩
  | @quoted text inside =>
      obtain ⟨pending', even', same⟩ := evenQuotes_quotedText inside (Nat.zero_mod 2)
        ('\'' :: rest)
      have opening : evenQuotes pending (('\'' :: text ++ ['\'']) ++ rest) =
          evenQuotes 0 (text ++ '\'' :: rest) + 1 := by
        simp [evenQuotes, quoteRuns, even]
      have closing : evenQuotes pending' ('\'' :: rest) = evenQuotes 0 rest + 1 := by
        simp [evenQuotes, quoteRuns, even']
      exact ⟨0, rfl, by omega⟩

/-- In a text of the pattern the quotes after even runs, which are those that the
scanner pairs, are even in number. -/
theorem evenQuotes_of_pattern {text : List Char} (matched : StringPattern text) {pending : Nat}
    (even : pending % 2 = 0) : evenQuotes pending text % 2 = 0 := by
  induction matched generalizing pending with
  | single is =>
      rcases evenQuotes_piece is even [] with ⟨pending', -, same⟩
      simpa [evenQuotes, quoteRuns] using same
  | append is more ih =>
      rcases evenQuotes_piece is even _ with ⟨pending', even', same⟩
      exact same.trans (ih even')

/-- For a text of the pattern without a terminator inside, only the quotes after
nonempty even runs matter: there are none, or the bare quotes after the last one
are odd in number. -/
theorem runsEndOutside_iff_of_pattern {text : List Char} (matched : StringPattern text) :
    RunsEndOutside (quoteRuns 0 text) ↔
      (∀ run ∈ quoteRuns 0 text, Unpaired run) ∨
        ∃ before run after, quoteRuns 0 text = before ++ run :: after ∧ ¬Unpaired run ∧
          (∀ later ∈ after, Unpaired later) ∧ after.count 0 % 2 = 1 := by
  refine or_congr (and_iff_left_of_imp fun unpaired => ?_) Iff.rfl
  have even : evenQuotes 0 text % 2 = 0 := evenQuotes_of_pattern matched rfl
  have bare : (quoteRuns 0 text).count 0 = evenQuotes 0 text := by
    apply List.countP_congr
    intro run member
    rcases unpaired run member with rfl | odd
    · simp
    · have nonzero : run ≠ 0 := by omega
      simp [nonzero, odd]
  rwa [bare]

/-! ## Tokens -/

theorem StrToken.str_length (token : StrToken) : token.str.length < 2 ^ 31 - 1 :=
  Nat.lt_of_le_of_lt (List.takeWhile_prefix _).length_le token.short

/-- The scan of a token ends outside quotes, and the token is interpreted, exactly
when the runs of backslashes before its quotes say so. -/
theorem endsOutside_iff (token : StrToken) (env : Environment) :
    (∃ st text, scan env token.str = .ok st ∧ st.inQuotes = false ∧
        interpretComplexStringToken env token.str = .ok text) ↔
      RunsEndOutside (quoteRuns 0 token.str) := by
  rcases scan_eq env token.str_length with ⟨bld, scanned⟩
  rw [← foldl_quoteToggle_eq_false_iff]
  simp only [interpretComplexStringToken, scanned, ok_bind, Except.ok.injEq, exists_and_left,
    exists_eq_left', onBuilder_updateBack]
  constructor
  · rintro ⟨outside, -⟩
    exact outside
  · intro outside
    exact ⟨outside, by simp [quotesAfter, outside]⟩

/-- The token of a quote, two backslashes and a quote, which the scanner reads as
one quoted backslash. -/
def quotedBackslash : StrToken where
  text := ['\'', '\\', '\\', '\'']
  matched := .single (.quoted (.escaped '\\' .nil))
  short := by decide

/-- The interpreter takes the closing quote of `quotedBackslash` for an escaped one. -/
theorem endsOutside_fails : ¬∀ (token : StrToken) (env : Environment),
    ∃ st, scan env token.str = .ok st ∧ st.inQuotes = false := by
  intro ends
  let env : Environment :=
    { lookup := fun _ => none, short := by simp, noTerminator := by simp }
  rcases ends quotedBackslash env with ⟨st, scanned, outside⟩
  have stuck : scan env quotedBackslash.str =
      .ok ⟨['\\', '\'', '\x00'], 5, true⟩ := by
    rfl
  cases stuck.symm.trans scanned
  cases outside

end QuashLabs.Quash.Parsing
