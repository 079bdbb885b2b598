import Mathlib.Data.List.Basic

/-!
# The parser skeleton of Bison

The driver that Bison puts around its tables: it keeps a stack of states with
semantic values, reads a lookahead token only in states that need one, reduces by
default elsewhere, and recovers from a syntax error by popping states until one
shifts the token `error` and then discarding tokens. State `0` lies below the
stack. The tables, the tokens and the semantic actions are parameters.
-/

namespace QuashLabs.Bison

universe u

/-- The tables of a generated parser. -/
structure Tables where
  pact : List Int
  pactNinf : Int
  defact : List Nat
  table : List Int
  check : List Int
  last : Int
  pgoto : List Int
  defgoto : List Int
  r1 : List Nat
  r2 : List Nat
  ntokens : Nat
  final : Nat

/-- What to do in a state. -/
inductive Decision
  | shift (state : Nat)
  | reduce (rule : Nat)
  | error
  deriving Repr, DecidableEq

namespace Tables

variable (T : Tables)

/-- The state acts without a lookahead token. -/
def isDefault (state : Nat) : Bool :=
  T.pact.getD state 0 == T.pactNinf

/-- `yydefault`. -/
def defaultDecision (state : Nat) : Decision :=
  if T.defact.getD state 0 = 0 then .error else .reduce (T.defact.getD state 0)

/-- The number of symbols on the right of a rule. -/
def length (rule : Nat) : Nat := T.r2.getD rule 0

/-- The symbol on the left of a rule. -/
def lhs (rule : Nat) : Nat := T.r1.getD rule 0

/-- The decision of a state on the symbol of a lookahead token. -/
def decision (state symbol : Nat) : Decision :=
  let n := T.pact.getD state 0 + symbol
  if n < 0 ∨ T.last < n ∨ T.check.getD n.toNat 0 ≠ symbol then T.defaultDecision state
  else if T.table.getD n.toNat 0 ≤ 0 then .reduce (-T.table.getD n.toNat 0).toNat
  else .shift (T.table.getD n.toNat 0).toNat

/-- The state after a reduction to the symbol `lhs` on top of `state`. -/
def goto (state lhs : Nat) : Nat :=
  let n := T.pgoto.getD (lhs - T.ntokens) 0 + state
  if 0 ≤ n ∧ n ≤ T.last ∧ T.check.getD n.toNat 0 = state then (T.table.getD n.toNat 0).toNat
  else (T.defgoto.getD (lhs - T.ntokens) 0).toNat

/-- The state that `state` moves to on the token `error`, where it shifts that. -/
def shiftsError (state : Nat) : Option Nat :=
  let n := T.pact.getD state 0 + 1
  if T.isDefault state = false ∧ 0 ≤ n ∧ n ≤ T.last ∧ T.check.getD n.toNat 0 = 1 ∧
      0 < T.table.getD n.toNat 0 then
    some (T.table.getD n.toNat 0).toNat
  else none

end Tables

/-- What a semantic action does: it gives a value, or it accepts or aborts. -/
inductive Action (Value Out : Type)
  | value (v : Value)
  | accept (out : Out)
  | abort (out : Out)

/-- A generated parser: tables, tokens with `0` the symbol of the end of input,
what the scanner returns behind the tokens, and the semantic actions. -/
structure Parser (Token Value Out ε : Type) where
  tables : Tables
  symbol : Token → Nat
  tokenValue : Token → Value
  atEnd : Token
  errorValue : Value
  act : Nat → List Value → Except ε (Action Value Out)
  maxDepth : Nat

/-- The states above state `0` with their semantic values, the top first. -/
abbrev Stack (Value : Type) := List (Nat × Value)

/-- The current state. -/
def topState {Value : Type} : Stack Value → Nat
  | [] => 0
  | (state, _) :: _ => state

/-- The variables of `yyparse` and the tokens that the scanner has not returned. -/
structure Config (Token Value : Type) where
  stack : Stack Value
  lookahead : Option Token
  errstatus : Nat
  input : List Token

/-- How a call of `yyparse` ends: it returns a status, with what the last action
left behind and the tokens not read; it exhausts its stack; or it ends the program. -/
inductive Result (Token Out ε : Type)
  | returned (status : Nat) (out : Option Out) (input : List Token)
  | exhausted
  | failed (reason : ε)
  | underflow

/-- The next configuration, or the end. -/
inductive Next (Token Value Out ε : Type)
  | go (c : Config Token Value)
  | stop (result : Result Token Out ε)

namespace Parser

variable {Token Value Out ε : Type} (P : Parser Token Value Out ε)

/-- The next token of the scanner. -/
def yylex : List Token → Token × List Token
  | [] => (P.atEnd, [])
  | token :: input => (token, input)

/-- `yynewstate`: a state is pushed unless the stack is full. -/
def push (state : Nat) (value : Value) (c : Config Token Value) : Next Token Value Out ε :=
  if P.maxDepth ≤ c.stack.length + 2 then .stop .exhausted
  else if state = P.tables.final then .stop (.returned 0 none c.input)
  else .go { c with stack := (state, value) :: c.stack }

/-- The end of `yyreduce`, for what the semantic action does and the stack below the
popped states. -/
def reduced (rule : Nat) (below : Stack Value) (c : Config Token Value) :
    Except ε (Action Value Out) → Next Token Value Out ε
  | .error reason => .stop (.failed reason)
  | .ok (.accept out) => .stop (.returned 0 (some out) c.input)
  | .ok (.abort out) => .stop (.returned 1 (some out) c.input)
  | .ok (.value v) =>
      P.push (P.tables.goto (topState below) (P.tables.lhs rule)) v { c with stack := below }

/-- `yyreduce`. -/
def reduce (rule : Nat) (c : Config Token Value) : Next Token Value Out ε :=
  let len := P.tables.length rule
  if c.stack.length < len then .stop .underflow
  else
    P.reduced rule (c.stack.drop len) c (P.act rule ((c.stack.take len).reverse.map Prod.snd))

/-- The stack popped to a state that shifts `error`, and the state that is shifted to. -/
def popToError : Stack Value → Option (Stack Value × Nat)
  | [] => (P.tables.shiftsError 0).map fun state => ([], state)
  | (top, value) :: below =>
      match P.tables.shiftsError top with
      | some state => some ((top, value) :: below, state)
      | none => popToError below

/-- `yyerrlab1`. -/
def recover (c : Config Token Value) : Next Token Value Out ε :=
  match P.popToError c.stack with
  | none => .stop (.returned 1 none c.input)
  | some (stack, state) => P.push state P.errorValue { c with stack := stack, errstatus := 3 }

/-- `yyerrlab`: a second error in a row discards the lookahead token. -/
def syntaxError (c : Config Token Value) : Next Token Value Out ε :=
  if c.errstatus = 3 then
    match c.lookahead with
    | none => P.recover c
    | some token =>
        if P.symbol token = 0 then .stop (.returned 1 none c.input)
        else P.recover { c with lookahead := none }
  else P.recover c

/-- The configuration with a lookahead token, which is read if there is none. -/
def peek (c : Config Token Value) : Token × Config Token Value :=
  match c.lookahead with
  | some token => (token, c)
  | none =>
      let (token, input) := P.yylex c.input
      (token, { c with lookahead := some token, input := input })

/-- One round of the driver from `yybackup` on. -/
def step (c : Config Token Value) : Next Token Value Out ε :=
  if P.tables.isDefault (topState c.stack) then
    match P.tables.defaultDecision (topState c.stack) with
    | .reduce rule => P.reduce rule c
    | _ => P.syntaxError c
  else
    let (token, c) := P.peek c
    match P.tables.decision (topState c.stack) (P.symbol token) with
    | .shift state =>
        P.push state (P.tokenValue token)
          { c with lookahead := none, errstatus := c.errstatus - 1 }
    | .reduce rule => P.reduce rule c
    | .error => P.syntaxError c

/-- Several rounds. -/
def run : Nat → Config Token Value → Next Token Value Out ε
  | 0, c => .go c
  | fuel + 1, c =>
      match P.step c with
      | .go c' => run fuel c'
      | .stop result => .stop result

/-- The configuration at the call. -/
def start (input : List Token) : Config Token Value := ⟨[], none, 0, input⟩

/-- `yyparse`, if it ends within `fuel` rounds. -/
def yyparse (fuel : Nat) (input : List Token) : Option (Result Token Out ε) :=
  match P.run fuel (start input) with
  | .go _ => none
  | .stop result => some result

end Parser

end QuashLabs.Bison
