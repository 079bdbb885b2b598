import QuashLabs.Bison.Steps

/-!
# Automata under the tables

The tables of a generated parser do not say which grammar they belong to. An
`Automaton` adds what the generator knew: the symbols on the right of each rule,
the symbol by which each state is entered and the states it is entered from. It is
checked against the tables, state by state and terminal by terminal. A stack that
follows the edges of the automaton can be popped along the right-hand side of
every rule that the tables reduce, and it spells the tokens read so far.
-/

namespace QuashLabs.Bison

/-- What the tables leave out. The rules in `finals` end the parse, the symbols in
`ends` end a line, and `errorState` is entered by the token `error`. The ranks bound
the number of reductions between two shifts. -/
structure Automaton where
  stos : List Nat
  rhs : List (List Nat)
  preds : List (List Nat)
  rank : List Nat
  rankBound : Nat
  terminals : List Nat
  finals : List Nat
  ends : List Nat
  errorState : Nat

namespace Automaton

variable (A : Automaton)

/-- The number of states. -/
def count : Nat := A.stos.length

/-- The symbol by which a state is entered. -/
def accessing (state : Nat) : Nat := A.stos.getD state 0

/-- The right-hand side of a rule. -/
def right (rule : Nat) : List Nat := A.rhs.getD rule []

/-- The numbers of the rules. -/
def rules : List Nat := List.range' 1 (A.rhs.length - 1)

/-- The rank of a state. -/
def rankOf (state : Nat) : Nat := A.rank.getD state 0

/-- The state `target` is entered from `state`. -/
def edge (state target : Nat) : Bool := (A.preds.getD target []).contains state

/-- Popping states by these symbols ends in states that pass the check. -/
def pops (check : Nat → Bool) : List Nat → Nat → Bool
  | [], state => check state
  | symbol :: symbols, state =>
      state != 0 && A.accessing state == symbol &&
        (A.preds.getD state []).all (pops check symbols)

/-- A reduction in `state` by `rule` may go on from the state `below`. -/
def lands (T : Tables) (state rule below : Nat) : Bool :=
  let target := T.goto below (T.lhs rule)
  A.edge below target && A.accessing target == T.lhs rule && target != T.final &&
    !A.ends.contains (A.accessing target) &&
      decide (A.rankOf target + 1 < A.rankOf state + (A.right rule).length)

/-- A decision of `state` on `symbol` fits the automaton. -/
def fits (T : Tables) (state symbol : Nat) : Decision → Bool
  | .shift target =>
      A.edge state target && A.accessing target == symbol && target != T.final
  | .reduce rule =>
      A.rules.contains rule && T.length rule == (A.right rule).length &&
        if A.finals.contains rule then
          A.ends.contains (A.accessing state) && A.pops (· == 0) (A.right rule).reverse state
        else !A.ends.contains (A.accessing state) &&
          A.pops (A.lands T state rule) (A.right rule).reverse state
  | .error => !T.isDefault state

/-- In the state of the token `error` the ends of lines are shifted, to states that
reduce a final rule, and all other terminals are errors. -/
def resumes (symbol : Nat) : Decision → Bool
  | .shift target => A.ends.contains symbol && A.edge A.errorState target
  | .reduce _ => false
  | .error => !A.ends.contains symbol

/-- In a state that is entered by an end of line a final rule is reduced without a
lookahead token. -/
def finishes (T : Tables) (state : Nat) : Bool :=
  T.isDefault state &&
    match T.defaultDecision state with
    | .reduce rule => A.finals.contains rule
    | _ => false

/-- The tables fit the automaton. -/
structure Valid (T : Tables) : Prop where
  preds_zero : A.preds.getD 0 [] = []
  preds_count : A.preds.length = A.count
  zero_lt : 0 < A.count
  zero_not_end : A.accessing 0 ∉ A.ends
  symbol_ne_zero : 0 ∉ A.terminals
  rank_lt : ∀ state < A.count, A.rankOf state + 1 < A.rankBound
  choices : ∀ state < A.count, ∀ symbol ∈ A.terminals,
    A.fits T state symbol (T.choice state symbol) = true
  finish : ∀ state < A.count, A.ends.contains (A.accessing state) = true →
    A.finishes T state = true
  error_zero : T.shiftsError 0 = some A.errorState
  error_other : ∀ state < A.count, state ≠ 0 → T.shiftsError state = none
  error_edge : A.edge 0 A.errorState = true
  error_looks : T.isDefault A.errorState = false
  error_not_final : A.errorState ≠ T.final
  error_resumes : ∀ symbol ∈ A.terminals,
    A.resumes symbol (T.choice A.errorState symbol) = true

variable {A} {T : Tables} {Token Value Out ε : Type}

namespace Valid

variable (valid : A.Valid T)
include valid

theorem lt_of_edge {state target : Nat} (enters : A.edge state target = true) :
    target < A.count := by
  rw [← valid.preds_count]
  by_contra beyond
  rw [edge, List.getD_eq_getElem?_getD, List.getElem?_eq_none (by omega)] at enters
  simp at enters

theorem ne_zero_of_edge {state target : Nat} (enters : A.edge state target = true) :
    target ≠ 0 := by
  rintro rfl
  rw [edge, valid.preds_zero] at enters
  simp at enters

end Valid

/-! ## Stacks along the edges -/

variable (A) in
/-- Every state of the stack is entered from the one below. -/
def Linked : Stack Value → Prop
  | [] => True
  | (state, _) :: below => A.edge (topState below) state = true ∧ Linked below

theorem Linked.top_lt (valid : A.Valid T) {stack : Stack Value} (linked : A.Linked stack) :
    topState stack < A.count := by
  cases stack with
  | nil => exact valid.zero_lt
  | cons entry below => exact valid.lt_of_edge linked.1

/-- Only the empty stack has state `0` on top. -/
theorem Linked.eq_nil (valid : A.Valid T) {stack : Stack Value} (linked : A.Linked stack)
    (bottom : topState stack = 0) : stack = [] := by
  cases stack with
  | nil => rfl
  | cons entry below => exact absurd bottom (valid.ne_zero_of_edge linked.1)

/-- A stack with edges can be popped as `pops` says. -/
theorem Linked.pops {check : Nat → Bool} {symbols : List Nat} {stack : Stack Value}
    (linked : A.Linked stack) (pops : A.pops check symbols (topState stack) = true) :
    symbols.length ≤ stack.length ∧
      (stack.take symbols.length).map (fun entry => A.accessing entry.1) = symbols ∧
      A.Linked (stack.drop symbols.length) ∧
      check (topState (stack.drop symbols.length)) = true := by
  induction symbols generalizing stack with
  | nil => simpa [linked, Automaton.pops] using pops
  | cons symbol symbols ih =>
      cases stack with
      | nil => simp [Automaton.pops] at pops
      | cons entry below =>
          simp only [Automaton.pops, topState_cons, Bool.and_eq_true, beq_iff_eq, List.all_eq_true]
            at pops
          rcases pops with ⟨⟨-, entered⟩, deeper⟩
          have mem : topState below ∈ A.preds.getD entry.1 [] := by
            simpa [edge] using linked.1
          rcases ih linked.2 (deeper _ mem) with ⟨length, spelled, rest, checked⟩
          refine ⟨by simpa using length, ?_, rest, checked⟩
          simp [entered, spelled]

variable (A) in
/-- A bound on the rounds before `left` more tokens are shifted: every shift uses up a
token, and every reduction brings down the height of the stack plus the rank. -/
def weight (left : Nat) (stack : Stack Value) : Nat :=
  A.rankBound * left + stack.length + A.rankOf (topState stack)

theorem weight_shift (valid : A.Valid T) {left target : Nat} {stack : Stack Value}
    (enters : A.edge (topState stack) target = true) (value : Value) :
    A.weight left ((target, value) :: stack) < A.weight (left + 1) stack := by
  have small := valid.rank_lt target (valid.lt_of_edge enters)
  simp only [weight, Nat.mul_succ, List.length_cons, topState_cons]
  omega

/-! ## Derivations with values -/

/-- The symbols derive the tokens, and evaluating the semantic actions from left to
right gives the values or stops. -/
inductive Yields (P : Parser Token Value Out ε) (A : Automaton) :
    List Nat → List Token → Except ε (List Value) → Prop
  | nil : Yields P A [] [] (.ok [])
  | token {symbols tokens values} (token : Token) (rest : Yields P A symbols tokens values) :
      Yields P A (P.symbol token :: symbols) (token :: tokens)
        (do let values ← values; return P.tokenValue token :: values)
  | rule {rule symbols tokens values rhsTokens rhsValues} {action : List Value → Except ε Value}
      (known : rule ∈ A.rules)
      (acts : ∀ values, P.act rule values = Action.value <$> action values)
      (derives : Yields P A (A.right rule) rhsTokens rhsValues)
      (rest : Yields P A symbols tokens values) :
      Yields P A (P.tables.lhs rule :: symbols) (rhsTokens ++ tokens)
        (do
          let rhsValues ← rhsValues
          let value ← action rhsValues
          let values ← values
          return value :: values)

variable {P : Parser Token Value Out ε}

/-- A rule whose action gives a value. -/
theorem Yields.of_rule {rule : Nat} {tokens : List Token} {values : List Value} {value : Value}
    {action : List Value → Except ε Value} (known : rule ∈ A.rules)
    (acts : ∀ values, P.act rule values = Action.value <$> action values)
    (derives : Yields P A (A.right rule) tokens (.ok values)) (gives : action values = .ok value) :
    Yields P A [P.tables.lhs rule] tokens (.ok [value]) := by
  have derived := Yields.rule known acts derives .nil
  rw [List.append_nil] at derived
  change Yields P A _ _ (do let value ← action values; return [value]) at derived
  rwa [gives] at derived

/-- Derivations one after the other. -/
theorem Yields.append {symbols symbols' : List Nat} {tokens tokens' : List Token}
    {values values' : Except ε (List Value)} (first : Yields P A symbols tokens values)
    (second : Yields P A symbols' tokens' values') :
    Yields P A (symbols ++ symbols') (tokens ++ tokens')
      (do
        let values ← values
        let values' ← values'
        return values ++ values') := by
  induction first with
  | nil => cases values' <;> exact second
  | @token _ _ values token _ ih =>
      have derived := Yields.token token ih
      cases values <;> cases values' <;> exact derived
  | @rule _ _ _ values _ rhsValues action known acts derives _ _ ih =>
      have derived := Yields.rule known acts derives ih
      rw [List.append_assoc]
      cases rhsValues with
      | error reason => exact derived
      | ok rhsValues =>
          change Yields P A _ _ (action rhsValues >>= _) at derived
          change Yields P A _ _ ((action rhsValues >>= _) >>= _)
          cases result : action rhsValues with
          | error reason =>
              rw [result] at derived
              exact derived
          | ok value =>
              rw [result] at derived
              cases values <;> cases values' <;> exact derived

/-- The stack spells tokens: each state's symbol derives some of them. -/
inductive Spans (P : Parser Token Value Out ε) (A : Automaton) :
    Stack Value → List Token → Prop
  | nil : Spans P A [] []
  | push {below : Stack Value} {tokens tokens' : List Token} {state : Nat} {value : Value}
      (spans : Spans P A below tokens)
      (top : Yields P A [A.accessing state] tokens' (.ok [value])) :
      Spans P A ((state, value) :: below) (tokens ++ tokens')

/-- The popped states derive the last of the tokens. -/
theorem Spans.popped {stack : Stack Value} {tokens : List Token} (spans : Spans P A stack tokens)
    (count : Nat) :
    ∃ before popped, tokens = before ++ popped ∧ Spans P A (stack.drop count) before ∧
      Yields P A ((stack.take count).map fun entry => A.accessing entry.1).reverse popped
        (.ok ((stack.take count).reverse.map Prod.snd)) := by
  induction count generalizing stack tokens with
  | zero => exact ⟨tokens, [], by simp, by simpa using spans, by simpa using .nil⟩
  | succ count ih =>
      cases spans with
      | nil => exact ⟨[], [], rfl, .nil, .nil⟩
      | push spans top =>
          rcases ih spans with ⟨before, popped, rfl, rest, derives⟩
          refine ⟨before, popped ++ _, List.append_assoc .., rest, ?_⟩
          have joined : Yields P A _ _ (.ok (_ ++ _)) := derives.append top
          simpa using joined

/-- The whole stack derives the tokens. -/
theorem Spans.yields {stack : Stack Value} {tokens : List Token} (spans : Spans P A stack tokens) :
    Yields P A (stack.map fun entry => A.accessing entry.1).reverse tokens
      (.ok (stack.reverse.map Prod.snd)) := by
  rcases spans.popped stack.length with ⟨before, popped, rfl, rest, derives⟩
  rw [List.drop_length] at rest
  cases rest
  simpa using derives

end Automaton

end QuashLabs.Bison
