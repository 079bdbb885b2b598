import QuashLabs.Quash.Parsing.Heights
import QuashLabs.Quash.Parsing.Session
import QuashLabs.Quash.Parsing.Stringify

/-!
# The pointer of `parse`

`parse` declares `holders` without a value and hands its address to `yyparse`. The
actions of `top` assign it, and a call that ends without one of them leaves it unset:
this is what happens when the stack is full.
-/

namespace QuashLabs.Quash.Parsing

open QuashLabs.Bison

/-- `holders` behind a call of `yyparse`, where it has a value. -/
def readHolders : Result Token Answer Failure → Except Failure (Option (List CommandHolder))
  | .returned _ (some answer) _ => .ok answer.retCmds
  | .returned _ none _ | .exhausted => .error .uninitialised
  | .failed reason => .error reason
  | .underflow => .error .outOfBounds

/-- `parse`, within `fuel` rounds of the parser: the pointer that it returns, and
`state->parsed_str` before and after. -/
def parseCall (world : World) (fuel : Nat) (input : List Token) (parsedStr : Option Buffer) :
    Option (Except Failure (Option (List CommandHolder) × Option Buffer)) :=
  ((parser world).yyparse fuel input).map fun result => do
    let holders ← readHolders result
    let parsedStr ← parse holders parsedStr
    return (holders, parsedStr)

/-- `holders` has been assigned when `yyparse` returns. A call in which an action stops the
program does not return. -/
def Assigns : Result Token Answer Failure → Prop
  | .returned _ (some _) _ | .failed _ => True
  | .returned _ none _ | .exhausted | .underflow => False

/-- `holders` has been assigned on every way in which a call on these tokens returns. -/
def HoldersAssigned (world : World) (input : List Token) : Prop :=
  ∀ fuel result, (parser world).yyparse fuel input = some result → Assigns result

/-- The pointer is assigned on a stream of tokens exactly when the height that its first
line needs fits on the stack. -/
theorem holders_assigned_iff (world : World) (line : Line) (rest : List Token) :
    HoldersAssigned world (line.tokens ++ rest) ↔
      stackPeak world line.tokens + 1 < world.maxDepth := by
  obtain ⟨result, -, ⟨fuel, runs⟩, comes⟩ := call_of_line world line
  have only : HoldersAssigned world (line.tokens ++ rest) ↔ Assigns (result.append rest) := by
    constructor
    · intro assigned
      exact assigned fuel _ (runs rest)
    · intro assigns fuel' result' returns
      rwa [← (parser world).yyparse_unique (runs rest) returns]
  rw [only]
  by_cases room : stackPeak world line.tokens + 1 < world.maxDepth
  · rw [if_pos room] at comes
    refine iff_of_true ?_ room
    cases failure : lineFailure world line.tokens with
    | some reason =>
        rw [failure] at comes
        obtain rfl : result = .failed reason := comes
        trivial
    | none =>
        rw [failure] at comes
        obtain ⟨status, answer, rfl⟩ := comes
        trivial
  · rw [if_neg room] at comes
    exact iff_of_false (comes ▸ id) room

/-! ## Lines of many words -/

/-- Every argument of a command stays on the stack until the command is complete. -/
theorem length_le_advanceAll {world : World} {words : List Token}
    (plain : ∀ word ∈ words, word.isArgument = true ∧ word.failure world = none)
    (rest : List Token) (pipes : Nat) (echo : Bool) (args : Nat) :
    2 * pipes + args + 1 + words.length ≤ max (2 * pipes + args + 1)
      (advanceAll world pipes (.words echo args) (words ++ rest)).1 := by
  induction words generalizing args with
  | nil => simp
  | cons word words ih =>
      rw [List.forall_mem_cons] at plain
      have later := ih plain.2 (args + 1)
      have moves : advance world pipes (.words echo args) word =
          (2 * pipes + (args + 1) + 1, .on pipes (.words echo (args + 1))) := by
        simp [advance, Phase.next, Phase.height, plain.1]
      rw [List.cons_append, advanceAll, moves, List.length_cons]
      simp only
      omega

/-- A line of this many words behind the first one. -/
def wordsLine (count : Nat) : Line :=
  .ended (.simStr ['a'] :: List.replicate count (.simStr ['a'])) (by simp)

theorem length_le_stackPeak (world : World) (count : Nat) :
    count + 1 ≤ stackPeak world (wordsLine count).tokens := by
  have plain : ∀ word ∈ List.replicate count (Token.simStr ['a']),
      word.isArgument = true ∧ word.failure world = none := by
    simp [Token.isArgument, Token.failure]
  have later := length_le_advanceAll plain [.eocTok] 0 false 0
  have moves : advance world 0 .start (.simStr ['a']) = (1, .on 0 (.words false 0)) := rfl
  have tokens : (wordsLine count).tokens =
      .simStr ['a'] :: (List.replicate count (.simStr ['a']) ++ [.eocTok]) := rfl
  rw [List.length_replicate] at later
  rw [stackPeak, tokens, advanceAll, moves]
  simp only
  omega

/-- A line of too many words leaves the pointer unset. -/
theorem unassigned_of_words {world : World} {count : Nat} (many : world.maxDepth ≤ count + 2)
    (rest : List Token) : ¬ HoldersAssigned world ((wordsLine count).tokens ++ rest) := by
  have peak := length_le_stackPeak world count
  have full : ¬ stackPeak world (wordsLine count).tokens + 1 < world.maxDepth := by omega
  obtain ⟨result, -, ⟨fuel, runs⟩, comes⟩ := call_of_line world (wordsLine count)
  obtain rfl : result = .exhausted := by rwa [if_neg full] at comes
  intro assigned
  exact assigned fuel _ (runs rest)

/-- With 9999 words on a line the stack is full. -/
theorem holders_assigned_fails :
    ¬ HoldersAssigned plainWorld ((wordsLine 9998).tokens ++ [.endTok]) :=
  unassigned_of_words (le_refl yymaxdepth) [.endTok]

end QuashLabs.Quash.Parsing
