import QuashLabs.Bison.Skeleton

/-!
# Rounds of the driver

What one round does, in terms of the tokens that are still pending: the lookahead
token and the input. A round looks at the first pending token only, so tokens
behind it do not matter; appending them commutes with every round that does not
reach the end of the input.
-/

namespace QuashLabs.Bison

namespace Tables

/-- What a state does when a token of the symbol `symbol` is next. -/
def choice (T : Tables) (state symbol : Nat) : Decision :=
  if T.isDefault state then T.defaultDecision state else T.decision state symbol

theorem defaultDecision_ne_shift (T : Tables) (state target : Nat) :
    T.defaultDecision state ≠ .shift target := by
  unfold defaultDecision
  split <;> simp

end Tables

variable {Token Value Out ε : Type}

@[simp]
theorem topState_nil : topState ([] : Stack Value) = 0 := rfl

@[simp]
theorem topState_cons (entry : Nat × Value) (below : Stack Value) :
    topState (entry :: below) = entry.1 := rfl

namespace Config

/-- The tokens that no round has used up. -/
def pending (c : Config Token Value) : List Token := c.lookahead.toList ++ c.input

/-- The configuration with more tokens behind its input. -/
def append (c : Config Token Value) (rest : List Token) : Config Token Value :=
  { c with input := c.input ++ rest }

@[simp]
theorem append_stack (c : Config Token Value) (rest : List Token) :
    (c.append rest).stack = c.stack := rfl

@[simp]
theorem append_lookahead (c : Config Token Value) (rest : List Token) :
    (c.append rest).lookahead = c.lookahead := rfl

@[simp]
theorem append_errstatus (c : Config Token Value) (rest : List Token) :
    (c.append rest).errstatus = c.errstatus := rfl

@[simp]
theorem append_input (c : Config Token Value) (rest : List Token) :
    (c.append rest).input = c.input ++ rest := rfl

end Config

/-- The result with more tokens left unread. -/
def Result.append (result : Result Token Out ε) (rest : List Token) : Result Token Out ε :=
  match result with
  | .returned status out input => .returned status out (input ++ rest)
  | result => result

theorem Result.append_nil (result : Result Token Out ε) : result.append [] = result := by
  cases result <;> simp [Result.append]

theorem Result.eq_exhausted {result : Result Token Out ε} {rest : List Token}
    (eq : result.append rest = .exhausted) : result = .exhausted := by
  cases result with
  | exhausted => rfl
  | returned => cases eq
  | failed => cases eq
  | underflow => cases eq

theorem Result.eq_failed {result : Result Token Out ε} {rest : List Token} {reason : ε}
    (eq : result.append rest = .failed reason) : result = .failed reason := by
  cases result with
  | failed => exact eq
  | returned => cases eq
  | exhausted => cases eq
  | underflow => cases eq

/-- The outcome of a round with more tokens behind the input. -/
def Next.append (next : Next Token Value Out ε) (rest : List Token) : Next Token Value Out ε :=
  match next with
  | .go c => .go (c.append rest)
  | .stop result => .stop (result.append rest)

namespace Parser

variable (P : Parser Token Value Out ε)

/-! ## What a round does -/

variable {c : Config Token Value} {token : Token} {rest : List Token}

theorem peek_eq (pending : c.pending = token :: rest) :
    P.peek c = (token, { c with lookahead := some token, input := rest }) := by
  rcases c with ⟨stack, lookahead, errstatus, input⟩
  cases lookahead with
  | none =>
      obtain rfl : input = token :: rest := pending
      rfl
  | some t =>
      obtain ⟨rfl, rfl⟩ : t = token ∧ input = rest := by simpa [Config.pending] using pending
      rfl

/-- A round that shifts. -/
theorem step_shift {target : Nat} (pending : c.pending = token :: rest)
    (shifts : P.tables.choice (topState c.stack) (P.symbol token) = .shift target) :
    P.step c = P.push target (P.tokenValue token) ⟨c.stack, none, c.errstatus - 1, rest⟩ := by
  by_cases default : P.tables.isDefault (topState c.stack)
  · rw [Tables.choice, if_pos default] at shifts
    exact absurd shifts (P.tables.defaultDecision_ne_shift _ _)
  · rw [Tables.choice, if_neg default] at shifts
    simp [step, default, P.peek_eq pending, shifts]

/-- A round in a state that reduces without looking. -/
theorem step_default {rule : Nat} (default : P.tables.isDefault (topState c.stack) = true)
    (reduces : P.tables.defaultDecision (topState c.stack) = .reduce rule) :
    P.step c = P.reduce rule c := by
  simp [step, default, reduces]

/-- A round that reduces. -/
theorem step_reduce {rule : Nat} (pending : c.pending = token :: rest)
    (reduces : P.tables.choice (topState c.stack) (P.symbol token) = .reduce rule) :
    ∃ c', P.step c = P.reduce rule c' ∧ c'.stack = c.stack ∧ c'.pending = token :: rest ∧
      c'.errstatus = c.errstatus := by
  by_cases default : P.tables.isDefault (topState c.stack)
  · rw [Tables.choice, if_pos default] at reduces
    exact ⟨c, P.step_default default reduces, rfl, pending, rfl⟩
  · rw [Tables.choice, if_neg default] at reduces
    exact ⟨{ c with lookahead := some token, input := rest },
      by simp [step, default, P.peek_eq pending, reduces], rfl, rfl, rfl⟩

/-- A round that finds an error. -/
theorem step_error (pending : c.pending = token :: rest)
    (looks : P.tables.isDefault (topState c.stack) = false)
    (errs : P.tables.choice (topState c.stack) (P.symbol token) = .error) :
    P.step c = P.syntaxError { c with lookahead := some token, input := rest } := by
  rw [Tables.choice, if_neg (by simp [looks])] at errs
  simp [step, looks, P.peek_eq pending, errs]

/-! ## Tokens behind the input -/

variable (c) (rest)

theorem push_append (state : Nat) (value : Value) :
    P.push state value (c.append rest) = (P.push state value c).append rest := by
  by_cases full : P.maxDepth ≤ c.stack.length + 2
  · simp [push, full, Next.append, Result.append]
  · by_cases final : state = P.tables.final
    · simp [push, full, final, Next.append, Result.append]
    · simp [push, full, final, Next.append, Config.append]

theorem reduced_append (rule : Nat) (below : Stack Value)
    (action : Except ε (Action Value Out)) :
    P.reduced rule below (c.append rest) action = (P.reduced rule below c action).append rest := by
  cases action with
  | error reason => rfl
  | ok action =>
      cases action with
      | value v => exact P.push_append { c with stack := below } rest _ _
      | accept out => rfl
      | abort out => rfl

theorem reduce_append (rule : Nat) :
    P.reduce rule (c.append rest) = (P.reduce rule c).append rest := by
  by_cases short : c.stack.length < P.tables.length rule
  · simp [reduce, short, Next.append, Result.append]
  · simpa [reduce, short] using P.reduced_append c rest rule _ _

theorem recover_append : P.recover (c.append rest) = (P.recover c).append rest := by
  simp only [recover, Config.append_stack]
  cases P.popToError c.stack with
  | none => rfl
  | some popped => exact P.push_append { c with stack := popped.1, errstatus := 3 } rest _ _

theorem syntaxError_append :
    P.syntaxError (c.append rest) = (P.syntaxError c).append rest := by
  have recovered := P.recover_append c rest
  by_cases again : c.errstatus = 3
  · rcases c with ⟨stack, lookahead, errstatus, input⟩
    obtain rfl : errstatus = 3 := again
    cases lookahead with
    | none => simpa [syntaxError] using recovered
    | some token =>
        by_cases last : P.symbol token = 0
        · simp [syntaxError, last, Next.append, Result.append]
        · simpa [syntaxError, last, Config.append]
            using P.recover_append ⟨stack, none, 3, input⟩ rest
  · simpa [syntaxError, again] using recovered

variable {c}

/-- The next round does not reach the end of the input. -/
def Ready (c : Config Token Value) : Prop :=
  c.pending ≠ [] ∨ P.tables.isDefault (topState c.stack) = true

theorem peek_append (pending : c.pending ≠ []) :
    P.peek (c.append rest) = ((P.peek c).1, (P.peek c).2.append rest) := by
  rcases List.exists_cons_of_ne_nil pending with ⟨token, left, eq⟩
  have behind : (c.append rest).pending = token :: (left ++ rest) := by
    have := congrArg (· ++ rest) eq
    simpa [Config.pending] using this
  rw [P.peek_eq eq, P.peek_eq behind]
  rfl

theorem step_append (ready : P.Ready c) : P.step (c.append rest) = (P.step c).append rest := by
  by_cases default : P.tables.isDefault (topState c.stack)
  · simp only [step, Config.append_stack, default, if_true]
    split
    · exact P.reduce_append c rest _
    · exact P.syntaxError_append c rest
  · have pending : c.pending ≠ [] := ready.resolve_right (by simpa using default)
    rw [step, step, if_neg (by simpa using default), if_neg default, P.peek_append rest pending]
    generalize P.peek c = peeked
    rcases peeked with ⟨token, c'⟩
    simp only [Config.append_stack]
    split
    · exact P.push_append { c' with lookahead := none, errstatus := c'.errstatus - 1 } rest _ _
    · exact P.reduce_append c' rest _
    · exact P.syntaxError_append c' rest

/-! ## Runs to the end -/

/-- The run from `c` ends with `result`, whatever tokens follow. -/
def Ends (c : Config Token Value) (result : Result Token Out ε) : Prop :=
  ∃ fuel, ∀ rest, P.run fuel (c.append rest) = .stop (result.append rest)

theorem ends_of_stop {result : Result Token Out ε} (ready : P.Ready c)
    (stops : P.step c = .stop result) : P.Ends c result :=
  ⟨1, fun rest => by simp [run, P.step_append rest ready, stops, Next.append]⟩

theorem ends_of_go {c' : Config Token Value} {result : Result Token Out ε} (ready : P.Ready c)
    (goes : P.step c = .go c') (ends : P.Ends c' result) : P.Ends c result := by
  rcases ends with ⟨fuel, runs⟩
  refine ⟨fuel + 1, fun rest => ?_⟩
  simp only [run, P.step_append rest ready, goes, Next.append]
  exact runs rest

/-- A round that exhausts the stack or goes on to a configuration with an end. -/
theorem exists_ends {good : Result Token Out ε → Prop} {c' : Config Token Value}
    (ready : P.Ready c) (next : P.step c = .stop .exhausted ∨ P.step c = .go c')
    (exhausted : good .exhausted) (goes : ∃ result, good result ∧ P.Ends c' result) :
    ∃ result, good result ∧ P.Ends c result := by
  rcases next with full | room
  · exact ⟨.exhausted, exhausted, P.ends_of_stop ready full⟩
  · rcases goes with ⟨result, holds, ends⟩
    exact ⟨result, holds, P.ends_of_go ready room ends⟩

theorem run_add (first second : Nat) (c : Config Token Value) :
    P.run (first + second) c =
      match P.run first c with
      | .go c' => P.run second c'
      | .stop result => .stop result := by
  induction first generalizing c with
  | zero => simp [run]
  | succ first ih =>
      rw [Nat.add_right_comm]
      simp only [run]
      split
      · exact ih _
      · rfl

/-- More fuel does not change how a run ends. -/
theorem run_stop_mono (more : Nat) {fuel : Nat} {result : Result Token Out ε}
    {c : Config Token Value} (stops : P.run fuel c = .stop result) :
    P.run (fuel + more) c = .stop result := by
  rw [P.run_add, stops]

/-- A call ends in one way. -/
theorem yyparse_unique {first second : Nat} {input : List Token}
    {result result' : Result Token Out ε} (one : P.yyparse first input = some result)
    (other : P.yyparse second input = some result') : result = result' := by
  have stops : ∀ {fuel result}, P.yyparse fuel input = some result →
      P.run fuel (start input) = .stop result := by
    intro fuel result returns
    unfold yyparse at returns
    split at returns
    · simp at returns
    · next eq => rw [eq, Option.some.inj returns]
  have one' := P.run_stop_mono second (stops one)
  have other' := P.run_stop_mono first (stops other)
  rw [Nat.add_comm, one'] at other'
  injection other'

/-- A call with nothing behind its input. -/
theorem yyparse_alone {fuel : Nat} {input : List Token} {result : Result Token Out ε}
    (runs : ∀ rest, P.yyparse fuel (input ++ rest) = some (result.append rest)) :
    P.yyparse fuel input = some result := by
  have alone := runs []
  rwa [List.append_nil, Result.append_nil] at alone

end Parser

end QuashLabs.Bison
