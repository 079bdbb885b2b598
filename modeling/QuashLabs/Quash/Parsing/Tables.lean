import QuashLabs.Bison.Completeness

/-!
# The tables of the parser

The tokens of the scanner, the tables that Bison generated from the grammar of the
shell, and the automaton and the items they come from. The automaton and the items
are checked against the tables in the kernel.
-/

namespace QuashLabs.Quash.Parsing

open QuashLabs.Bison

/-- The tokens of the scanner, with the texts that some of them carry. -/
inductive Token
  | pipe
  | bckgrnd
  | squote
  | equals
  | redirIn
  | redirOut
  | redirOutApp
  | endTok
  | echoTok
  | exportTok
  | cdTok
  | pwdTok
  | jobsTok
  | killTok
  | eocTok
  | str (text : List Char)
  | simStr (text : List Char)
  | id (text : List Char)
  | num (text : List Char)
  | exitTok (text : List Char)
  deriving Repr, DecidableEq

/-- The internal number of a token, as `YYTRANSLATE` gives it. -/
def Token.symbol : Token → Nat
  | .pipe => 3
  | .bckgrnd => 4
  | .squote => 5
  | .equals => 6
  | .redirIn => 7
  | .redirOut => 8
  | .redirOutApp => 9
  | .endTok => 10
  | .echoTok => 11
  | .exportTok => 12
  | .cdTok => 13
  | .pwdTok => 14
  | .jobsTok => 15
  | .killTok => 16
  | .eocTok => 17
  | .str _ => 18
  | .simStr _ => 19
  | .id _ => 20
  | .num _ => 21
  | .exitTok _ => 22

/-- The tables of the parser. -/
def tables : Tables where
  pact := [
      2, -6, 32, -12, 32, -18, -18, -11, -18, -18, -18, -18, -18, -18, 9, 21, 34, -2, -18, 32,
      -18, -18, -18, -18, -18, -18, -18, -18, -18, 32, -18, -18, 35, -18, 28, -18, -18, -18, 14,
      -18, -18, -18, 38, -18, 32, -18, -18, 32, -18, -18, -18, -18, -2, -18, -18]
  pactNinf := -18
  defact := [
      0, 0, 11, 0, 14, 16, 17, 0, 2, 41, 42, 44, 43, 18, 0, 0, 7, 21, 10, 30, 6, 5, 35, 36, 38,
      39, 37, 40, 12, 31, 34, 33, 0, 15, 0, 1, 4, 3, 0, 24, 25, 26, 27, 20, 0, 29, 32, 0, 19, 8,
      28, 9, 23, 13, 22]
  table := [
      33, 19, 45, 1, 20, 39, 40, 41, 32, 35, 34, 21, 46, 2, 3, 4, 5, 6, 7, 8, 9, 10, 11, 12, 13,
      2, 3, 4, 5, 6, 7, 36, 9, 10, 11, 12, 13, 38, 37, 19, 52, 47, 50, 53, 22, 23, 24, 25, 26,
      48, 9, 10, 11, 12, 27, 49, 54]
  check := [
      4, 0, 19, 1, 10, 7, 8, 9, 20, 0, 21, 17, 29, 11, 12, 13, 14, 15, 16, 17, 18, 19, 20, 21,
      22, 11, 12, 13, 14, 15, 16, 10, 18, 19, 20, 21, 22, 3, 17, 38, 44, 6, 4, 47, 12, 13, 14,
      15, 16, 21, 18, 19, 20, 21, 22, 38, 52]
  last := 56
  pgoto := [
      -18, -18, 17, -18, -18, -18, 4, -18, -18, -18, -17, -4, -18, 1]
  defgoto := [
      -1, 14, 15, 16, 17, 42, 43, 44, 51, 18, 28, 29, 30, 31]
  r1 := [
      0, 23, 24, 24, 24, 24, 24, 25, 25, 26, 27, 27, 27, 27, 27, 27, 27, 27, 27, 27, 28, 28, 29,
      29, 30, 30, 30, 31, 31, 32, 32, 33, 33, 34, 34, 35, 35, 35, 35, 35, 35, 36, 36, 36, 36]
  r2 := [
      0, 2, 1, 2, 2, 2, 2, 1, 3, 3, 1, 1, 2, 4, 1, 2, 1, 1, 1, 3, 1, 0, 3, 2, 1, 1, 1, 0, 1, 2,
      1, 1, 2, 1, 1, 1, 1, 1, 1, 1, 1, 1, 1, 1, 1]
  ntokens := 23
  final := 35

/-- The automaton of the parser. -/
def automaton : Automaton where
  stos := [
      0, 1, 11, 12, 13, 14, 15, 16, 17, 18, 19, 20, 21, 22, 24, 25, 26, 27, 32, 36, 10, 17, 12,
      13, 14, 15, 16, 22, 33, 34, 35, 36, 20, 34, 21, 0, 10, 17, 3, 7, 8, 9, 28, 29, 30, 33, 33,
      6, 21, 25, 4, 31, 34, 34, 29]
  rhs := [
      [], [24, 0], [17], [25, 17], [25, 10], [1, 17], [1, 10], [26], [26, 3, 25], [27, 28, 31],
      [32], [11], [11, 33], [12, 20, 6, 34], [13], [13, 34], [14], [15], [22], [16, 21, 21],
      [29], [], [30, 34, 29], [30, 34], [7], [8], [9], [], [4], [36, 33], [36], [34], [34, 33],
      [36], [35], [12], [13], [16], [14], [15], [22], [18], [19], [21], [20]]
  preds := [
      [], [0], [0, 38], [0, 38], [0, 38], [0, 38], [0, 38], [0, 38], [0],
      [0, 2, 4, 19, 29, 38, 44, 47], [0, 2, 4, 19, 29, 38, 44, 47],
      [0, 2, 4, 19, 29, 38, 44, 47], [0, 2, 4, 19, 29, 38, 44, 47], [0, 38], [], [0], [0, 38],
      [0, 38], [0, 38], [0, 38], [1], [1], [2, 4, 19, 29, 44, 47], [2, 4, 19, 29, 44, 47],
      [2, 4, 19, 29, 44, 47], [2, 4, 19, 29, 44, 47], [2, 4, 19, 29, 44, 47],
      [2, 4, 19, 29, 44, 47], [2], [2, 19, 29], [2, 4, 19, 29, 44, 47], [2, 4, 19, 29, 44, 47],
      [3], [4], [7], [], [15], [15], [16], [17, 52], [17, 52], [17, 52], [17], [17], [17, 52],
      [19], [29], [32], [34], [38], [42], [42], [44], [47], [52]]
  rank := [
      0, 0, 5, 0, 5, 5, 5, 0, 0, 8, 8, 8, 8, 5, 0, 0, 1, 4, 5, 6, 0, 0, 8, 8, 8, 8, 8, 8, 4, 6,
      7, 7, 0, 4, 0, 0, 0, 0, 0, 1, 1, 1, 2, 3, 0, 5, 5, 0, 3, 0, 1, 0, 3, 2, 2]
  rankBound := 10
  terminals := List.range' 3 20
  finals := [2, 3, 4, 5, 6]
  ends := [10, 17]
  errorState := 1

theorem Token.symbol_mem (token : Token) : token.symbol ∈ automaton.terminals := by
  cases token <;> simp [Token.symbol, automaton]

theorem automaton_valid : automaton.Valid tables where
  preds_zero := rfl
  preds_count := rfl
  zero_lt := by decide
  zero_not_end := by decide
  symbol_ne_zero := by decide
  rank_lt := by decide +kernel
  choices := by decide +kernel
  finish := by decide +kernel
  error_zero := by decide +kernel
  error_other := by decide +kernel
  error_edge := by decide +kernel
  error_looks := by decide +kernel
  error_not_final := by decide
  error_resumes := by decide +kernel

/-! ## Items -/

/-- What may follow a line. -/
def behindLine : List Nat := [10, 17]

/-- What may follow a command with its redirections and its mark. -/
def behindStage : List Nat := [3, 10, 17]

/-- What may follow redirections. -/
def behindRedir : List Nat := [3, 4, 10, 17]

/-- What may follow a command. -/
def behindContent : List Nat := [3, 4, 7, 8, 9, 10, 17]

/-- The tokens that are words. -/
def words : List Nat := [12, 13, 14, 15, 16, 18, 19, 20, 21, 22]

/-- What may follow a word of a command. -/
def behindWord : List Nat := behindContent ++ words

/-- The items for a word. -/
def word (follow : List Nat) : List Item :=
  [33, 34, 35, 36, 37, 38, 39, 40, 41, 42, 43, 44].map fun rule => (rule, 0, follow)

/-- The items for the arguments of a command. -/
def arguments : List Item :=
  [(31, 0, behindContent), (32, 0, behindContent)] ++ word behindWord

/-- The items for redirections. -/
def redirections : List Item :=
  [(22, 0, behindRedir), (23, 0, behindRedir), (24, 0, words), (25, 0, words), (26, 0, words)]

/-- The items for the commands of a line. -/
def stages : List Item :=
  [(7, 0, behindLine), (8, 0, behindLine), (9, 0, behindStage)] ++
    ([10, 11, 12, 13, 14, 15, 16, 17, 18, 19, 29, 30].map fun rule => (rule, 0, behindContent)) ++
    [41, 42, 43, 44].map fun rule => (rule, 0, behindWord)

/-- The items of the states of the parser. -/
def items : Items where
  states := [
      [(2, 0, [10]), (3, 0, [10]), (4, 0, [10]), (5, 0, [10]), (6, 0, [10])] ++ stages,
      [(5, 1, [10]), (6, 1, [10])], [(11, 1, behindContent), (12, 1, behindContent)] ++ arguments,
      [(13, 1, behindContent)],
      [(14, 1, behindContent), (15, 1, behindContent)] ++ word behindContent,
      [(16, 1, behindContent)], [(17, 1, behindContent)], [(19, 1, behindContent)],
      [(2, 1, [10])], [(41, 1, behindWord)], [(42, 1, behindWord)], [(44, 1, behindWord)],
      [(43, 1, behindWord)], [(18, 1, behindContent)], [], [(3, 1, [10]), (4, 1, [10])],
      [(7, 1, behindLine), (8, 1, behindLine)],
      [(9, 1, behindStage)] ++ redirections ++ [(20, 0, behindRedir), (21, 0, behindRedir)],
      [(10, 1, behindContent)], [(29, 1, behindContent), (30, 1, behindContent)] ++ arguments,
      [(6, 2, [10])], [(5, 2, [10])], [(35, 1, behindWord)], [(36, 1, behindWord)],
      [(38, 1, behindWord)], [(39, 1, behindWord)], [(37, 1, behindWord)], [(40, 1, behindWord)],
      [(12, 2, behindContent)], [(31, 1, behindContent), (32, 1, behindContent)] ++ arguments,
      [(34, 1, behindWord)], [(33, 1, behindWord)], [(13, 2, behindContent)],
      [(15, 2, behindContent)], [(19, 2, behindContent)], [], [(4, 2, [10])], [(3, 2, [10])],
      [(8, 2, behindLine)] ++ stages, [(24, 1, words)], [(25, 1, words)], [(26, 1, words)],
      [(9, 2, behindStage)] ++ [(27, 0, behindStage), (28, 0, behindStage)],
      [(20, 1, behindRedir)], [(22, 1, behindRedir), (23, 1, behindRedir)] ++ word behindContent,
      [(29, 2, behindContent)], [(32, 2, behindContent)],
      [(13, 3, behindContent)] ++ word behindContent, [(19, 3, behindContent)],
      [(8, 3, behindLine)], [(28, 1, behindStage)], [(9, 3, behindStage)],
      [(22, 2, behindRedir), (23, 2, behindRedir)] ++ redirections, [(13, 4, behindContent)],
      [(22, 3, behindRedir)]]
  nullable := [28, 31]
  first := (List.range 23).map ([·]) ++
    [1 :: 11 :: 17 :: words, 1 :: 11 :: 17 :: words, 11 :: words, 11 :: words, 11 :: words,
      [7, 8, 9], [7, 8, 9], [7, 8, 9], [4], [18, 19, 20, 21], words, words,
      [12, 13, 14, 15, 16, 22], [18, 19, 20, 21]]

theorem items_valid : items.Valid automaton tables where
  item_closed := by decide +kernel
  first_terminal := by decide +kernel
  terminal_lt := by decide +kernel
  rule_ge := by decide +kernel
  first_rule := by decide +kernel
  nullable_rule := by decide +kernel

end QuashLabs.Quash.Parsing
