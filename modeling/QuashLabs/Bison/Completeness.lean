import QuashLabs.Bison.Lines

/-!
# Derivations are found

The items of a state say which rules may be in progress there, how far, and which
tokens may follow them. If the items are closed and every decision of the tables
agrees with them, then the parser follows every derivation: it evaluates the actions
of the derivation in their order, unless the stack is full.
-/

namespace QuashLabs.Bison

/-- An item: a rule, the number of symbols read and the symbols that may follow. -/
abbrev Item := Nat × Nat × List Nat

/-- The items of each state, and the symbols that derive no token or start with one. -/
structure Items where
  states : List (List Item)
  nullable : List Nat
  first : List (List Nat)

namespace Items

variable (I : Items)

/-- A state has the item with `symbol` among the symbols that may follow. -/
def has (state rule dot symbol : Nat) : Bool :=
  (I.states.getD state []).any fun item =>
    item.1 == rule && item.2.1 == dot && item.2.2.contains symbol

/-- The symbols of the first tokens of `symbols`, followed by one of `follow`. -/
def firstOf : List Nat → List Nat → List Nat
  | [], follow => follow
  | symbol :: symbols, follow =>
      I.first.getD symbol [] ++ if I.nullable.contains symbol then firstOf symbols follow else []

/-- The state behind `symbol`, which is shifted or reduced to. -/
def next (T : Tables) (state symbol : Nat) : Option Nat :=
  if symbol < T.ntokens then
    match T.choice state symbol with
    | .shift target => some target
    | _ => none
  else some (T.goto state symbol)

/-- An item is reduced at its end; before a symbol it moves on, and the rules for the
symbol are items too. -/
def closed (A : Automaton) (T : Tables) (state : Nat) (item : Item) : Bool :=
  match (A.right item.1).drop item.2.1 with
  | [] =>
      T.length item.1 == (A.right item.1).length &&
        item.2.2.all fun symbol => T.choice state symbol == .reduce item.1
  | symbol :: symbols =>
      (match next T state symbol with
        | some target =>
            target != T.final &&
              item.2.2.all fun follow => I.has target item.1 (item.2.1 + 1) follow
        | none => false) &&
      A.rules.all fun rule =>
        T.lhs rule != symbol ||
          (I.firstOf symbols item.2.2).all fun follow => I.has state rule 0 follow

/-- The items fit the automaton and the tables. -/
structure Valid (A : Automaton) (T : Tables) : Prop where
  item_closed : ∀ state < I.states.length, ∀ item ∈ I.states.getD state [],
    I.closed A T state item = true
  first_terminal : ∀ symbol ∈ A.terminals, symbol ∈ I.first.getD symbol []
  terminal_lt : ∀ symbol ∈ A.terminals, symbol < T.ntokens
  rule_ge : ∀ rule ∈ A.rules, T.ntokens ≤ T.lhs rule
  first_rule : ∀ rule ∈ A.rules, ∀ symbol ∈ I.firstOf (A.right rule) [],
    symbol ∈ I.first.getD (T.lhs rule) []
  nullable_rule : ∀ rule ∈ A.rules, (A.right rule).all I.nullable.contains = true →
    I.nullable.contains (T.lhs rule) = true

variable {I} {A : Automaton} {T : Tables}

theorem has_iff {state rule dot symbol : Nat} :
    I.has state rule dot symbol = true ↔
      ∃ follow, (rule, dot, follow) ∈ I.states.getD state [] ∧ symbol ∈ follow := by
  simp only [has, List.any_eq_true, Bool.and_eq_true, beq_iff_eq, List.contains_iff_mem]
  constructor
  · rintro ⟨⟨_, _, follow⟩, mem, ⟨rfl, rfl⟩, symbol⟩
    exact ⟨follow, mem, symbol⟩
  · rintro ⟨follow, mem, symbol⟩
    exact ⟨_, mem, ⟨rfl, rfl⟩, symbol⟩

theorem Valid.closed_of_has (valid : I.Valid A T) {state rule dot : Nat} {follow : List Nat}
    (mem : (rule, dot, follow) ∈ I.states.getD state []) :
    I.closed A T state (rule, dot, follow) = true := by
  refine valid.item_closed state ?_ _ mem
  by_contra beyond
  rw [List.getD_eq_getElem?_getD, List.getElem?_eq_none (by omega)] at mem
  simp at mem

/-- The end of a rule is reduced. -/
theorem Valid.reduces (valid : I.Valid A T) {state rule dot symbol : Nat}
    (has : I.has state rule dot symbol = true) (done : (A.right rule).drop dot = []) :
    T.length rule = (A.right rule).length ∧ T.choice state symbol = .reduce rule := by
  rcases has_iff.1 has with ⟨follow, mem, among⟩
  have checked := valid.closed_of_has mem
  simp only [closed, done, Bool.and_eq_true, beq_iff_eq, List.all_eq_true] at checked
  exact ⟨checked.1, checked.2 symbol among⟩

/-- Before a symbol the item moves on. -/
theorem Valid.moves (valid : I.Valid A T) {state rule dot follow symbol : Nat}
    {symbols : List Nat} (has : I.has state rule dot follow = true)
    (before : (A.right rule).drop dot = symbol :: symbols) :
    ∃ target, next T state symbol = some target ∧ target ≠ T.final ∧
      I.has target rule (dot + 1) follow = true := by
  rcases has_iff.1 has with ⟨follows, mem, among⟩
  have checked := valid.closed_of_has mem
  simp only [closed, before, Bool.and_eq_true] at checked
  cases target : next T state symbol with
  | none => simp [target] at checked
  | some target' =>
      simp only [target, Bool.and_eq_true, bne_iff_ne, List.all_eq_true] at checked
      exact ⟨target', rfl, checked.1.1, checked.1.2 follow among⟩

/-- Before a symbol the rules for it start. -/
theorem Valid.starts (valid : I.Valid A T) {state rule dot rule' : Nat} {symbols follows : List Nat}
    (mem : (rule, dot, follows) ∈ I.states.getD state []) (known : rule' ∈ A.rules)
    (before : (A.right rule).drop dot = T.lhs rule' :: symbols) :
    ∀ follow ∈ I.firstOf symbols follows, I.has state rule' 0 follow = true := by
  have checked := valid.closed_of_has mem
  simp only [closed, before, Bool.and_eq_true, List.all_eq_true] at checked
  simpa using checked.2 rule' known

theorem firstOf_cases {symbols follow : List Nat} {symbol : Nat}
    (mem : symbol ∈ I.firstOf symbols follow) :
    symbol ∈ I.firstOf symbols [] ∨
      symbols.all I.nullable.contains = true ∧ symbol ∈ follow := by
  induction symbols with
  | nil => exact .inr ⟨rfl, mem⟩
  | cons head symbols ih =>
      rw [firstOf, List.mem_append] at mem ⊢
      rcases mem with mem | mem
      · exact .inl (.inl mem)
      · by_cases nullable : I.nullable.contains head = true
        · rw [if_pos nullable] at mem ⊢
          rcases ih mem with inside | ⟨all, behind⟩
          · exact .inl (.inr inside)
          · exact .inr ⟨by rw [List.all_cons, nullable, all]; rfl, behind⟩
        · rw [if_neg nullable] at mem
          simp at mem

variable {Token Value Out ε : Type} {P : Parser Token Value Out ε}

/-- Before a terminal the state shifts it. -/
theorem Valid.shifts (valid : I.Valid A P.tables) {state symbol target : Nat}
    (terminal : symbol ∈ A.terminals) (moves : next P.tables state symbol = some target) :
    P.tables.choice state symbol = .shift target := by
  rw [next, if_pos (valid.terminal_lt _ terminal)] at moves
  split at moves
  · next eq => rw [eq, Option.some.inj moves]
  · cases moves

/-- Before the symbol of a rule the state goes to the next one. -/
theorem Valid.goes (valid : I.Valid A P.tables) {state rule target : Nat} (known : rule ∈ A.rules)
    (moves : next P.tables state (P.tables.lhs rule) = some target) :
    P.tables.goto state (P.tables.lhs rule) = target := by
  rw [next, if_neg (Nat.not_lt.2 (valid.rule_ge _ known))] at moves
  exact Option.some.inj moves

/-- The token after a point in a derivation is one of the first symbols there. -/
theorem Valid.first_of_yields (valid : I.Valid A P.tables)
    (terminal : ∀ token, P.symbol token ∈ A.terminals) {symbols : List Nat} {tokens : List Token}
    {values : Except ε (List Value)} (derives : Automaton.Yields P A symbols tokens values)
    {follow : List Nat} {token : Token} (rest : List Token) (among : P.symbol token ∈ follow) :
    ∃ token' rest', tokens ++ token :: rest = token' :: rest' ∧
      P.symbol token' ∈ I.firstOf symbols follow := by
  induction derives generalizing follow token rest with
  | nil => exact ⟨token, rest, rfl, among⟩
  | token t _ _ =>
      exact ⟨t, _, rfl, List.mem_append_left _ (valid.first_terminal _ (terminal t))⟩
  | rule known _ _ _ inner outer =>
      rcases outer rest among with ⟨middle, rest', eq, among'⟩
      rcases inner rest' among' with ⟨token', rest'', eq', among''⟩
      refine ⟨token', rest'', by rw [List.append_assoc, eq, eq'], ?_⟩
      rw [firstOf, List.mem_append]
      rcases firstOf_cases among'' with inside | ⟨all, behind⟩
      · exact .inl (valid.first_rule _ known _ inside)
      · exact .inr (by rwa [if_pos (valid.nullable_rule _ known all)])

/-- Before the symbol of a rule the rule is an item, for the first token of what follows. -/
theorem Valid.starts_front (valid : I.Valid A P.tables)
    (terminal : ∀ token, P.symbol token ∈ A.terminals) {state rule dot rule' : Nat}
    {symbols : List Nat} {tokens : List Token} {values : Except ε (List Value)}
    (derives : Automaton.Yields P A symbols tokens values) (known : rule' ∈ A.rules)
    (before : (A.right rule).drop dot = P.tables.lhs rule' :: symbols) {token : Token}
    (rest : List Token) (has : I.has state rule dot (P.symbol token) = true) :
    ∃ token' rest', tokens ++ token :: rest = token' :: rest' ∧
      I.has state rule' 0 (P.symbol token') = true := by
  rcases has_iff.1 has with ⟨follow, mem, follows⟩
  rcases valid.first_of_yields terminal derives rest follows with ⟨token', rest', front, first⟩
  exact ⟨token', rest', front, valid.starts mem known before _ first⟩

end Items

namespace Parser

variable {Token Value Out ε : Type} {P : Parser Token Value Out ε} {A : Automaton} {I : Items}
  {c : Config Token Value}

/-! ## Following a derivation -/

variable (P) in
/-- The run from `c` exhausts the stack or comes to a point that is good. -/
def Leads (c : Config Token Value) (good : Next Token Value Out ε → Prop) : Prop :=
  ∃ fuel, P.run fuel c = .stop .exhausted ∨ good (P.run fuel c)

theorem Leads.refl {good : Next Token Value Out ε → Prop} (holds : good (.go c)) :
    P.Leads c good :=
  ⟨0, .inr holds⟩

/-- A round and the run behind it. -/
theorem Leads.step {good : Next Token Value Out ε → Prop} {c' : Config Token Value}
    (next : P.step c = .stop .exhausted ∨ P.step c = .go c') (leads : P.Leads c' good) :
    P.Leads c good := by
  rcases next with full | room
  · exact ⟨1, .inl (by simp [run, full])⟩
  · rcases leads with ⟨fuel, reaches⟩
    exact ⟨fuel + 1, by simpa only [run, room] using reaches⟩

/-- A round that ends the run. -/
theorem Leads.stop {good : Next Token Value Out ε → Prop} {result : Result Token Out ε}
    (stops : P.step c = .stop result) (holds : good (.stop result)) : P.Leads c good :=
  ⟨1, .inr (by simpa only [run, stops] using holds)⟩

theorem Leads.mono {good good' : Next Token Value Out ε → Prop} (leads : P.Leads c good)
    (weaker : ∀ next, good next → good' next) : P.Leads c good' := by
  rcases leads with ⟨fuel, full | holds⟩
  · exact ⟨fuel, .inl full⟩
  · exact ⟨fuel, .inr (weaker _ holds)⟩

/-- One run after another. -/
theorem Leads.bind {middle good : Next Token Value Out ε → Prop} (first : P.Leads c middle)
    (go : ∀ c', middle (.go c') → P.Leads c' good)
    (stop : ∀ result, middle (.stop result) → good (.stop result)) : P.Leads c good := by
  rcases first with ⟨fuel, full | holds⟩
  · exact ⟨fuel, .inl full⟩
  · cases point : P.run fuel c with
    | stop result => exact ⟨fuel, .inr (point ▸ stop result (point ▸ holds))⟩
    | go c' =>
        rcases go c' (point ▸ holds) with ⟨more, reaches⟩
        exact ⟨fuel + more, by rwa [P.run_add, point]⟩

/-- The point behind `count` symbols of a derivation: their values are on the stack, or
an action has failed. -/
def Behind (I : Items) (rule dot count : Nat) (c : Config Token Value) (pending : List Token)
    (follow : Nat) : Except ε (List Value) → Next Token Value Out ε → Prop
  | .error reason, next => next = .stop (.failed reason)
  | .ok values, next => ∃ c' pushed, next = .go c' ∧ c'.stack = pushed ++ c.stack ∧
      pushed.length = count ∧ pushed.reverse.map Prod.snd = values ∧ c'.pending = pending ∧
      I.has (topState c'.stack) rule (dot + count) follow = true

/-- Values behind one more symbol. -/
theorem Behind.cons {rule dot count : Nat} {entry : Nat × Value} {pending : List Token}
    {follow : Nat} {values : Except ε (List Value)} {next : Next Token Value Out ε}
    {c' : Config Token Value} (stack : c'.stack = entry :: c.stack)
    (behind : Behind I rule (dot + 1) count c' pending follow values next) :
    Behind I rule dot (count + 1) c pending follow (do return entry.2 :: (← values)) next := by
  cases values with
  | error reason => exact behind
  | ok values =>
      rcases behind with ⟨c₂, pushed, rfl, stack', rfl, rfl, pending', has⟩
      refine ⟨c₂, pushed ++ [entry], rfl, ?_, by simp, by simp, pending', ?_⟩
      · rw [stack', stack, List.append_assoc]
        rfl
      · rwa [Nat.add_right_comm] at has

/-- Before the end of a rule whose action gives a value, the parser reduces. -/
theorem reduces_value (valid : I.Valid A P.tables) {rule : Nat} {pushed : Stack Value}
    {token : Token} {rest : List Token} {action : List Value → Except ε Value}
    (acts : ∀ values, P.act rule values = Action.value <$> action values)
    {c' : Config Token Value} (stack : c'.stack = pushed ++ c.stack)
    (length : pushed.length = (A.right rule).length) (pending : c'.pending = token :: rest)
    (has : I.has (topState c'.stack) rule (A.right rule).length (P.symbol token) = true) :
    ∃ c₁, c₁.stack = c.stack ∧ c₁.pending = token :: rest ∧
      P.step c' =
        match action (pushed.reverse.map Prod.snd) with
        | .error reason => .stop (.failed reason)
        | .ok v => P.push (P.tables.goto (topState c.stack) (P.tables.lhs rule)) v c₁ := by
  rcases valid.reduces has (List.drop_length ..) with ⟨size, reduces⟩
  rcases P.step_reduce pending reduces with ⟨c₁, step, stack₁, pending₁, -⟩
  have below : c₁.stack.drop (P.tables.length rule) = c.stack := by
    rw [stack₁, stack, size, ← length, List.drop_left]
  have popped : c₁.stack.take (P.tables.length rule) = pushed := by
    rw [stack₁, stack, size, ← length, List.take_left]
  refine ⟨{ c₁ with stack := c.stack }, rfl, pending₁, ?_⟩
  have enough : ¬ c₁.stack.length < P.tables.length rule := by
    rw [stack₁, stack, size, ← length, List.length_append]
    omega
  rw [step, Parser.reduce, if_neg enough, below, popped, acts]
  cases action (pushed.reverse.map Prod.snd) <;> rfl

/-- Behind the right-hand side of a rule the parser reduces, and goes on behind its symbol. -/
theorem leads_reduction (valid : I.Valid A P.tables) {rule dot rule' follow : Nat}
    {symbols : List Nat} (known : rule' ∈ A.rules) {action : List Value → Except ε Value}
    (acts : ∀ values, P.act rule' values = Action.value <$> action values)
    (before : (A.right rule).drop dot = P.tables.lhs rule' :: symbols)
    (has : I.has (topState c.stack) rule dot follow = true) {c' : Config Token Value}
    {pushed : Stack Value} (stack : c'.stack = pushed ++ c.stack)
    (length : pushed.length = (A.right rule').length) {token : Token} {rest pending : List Token}
    (front : c'.pending = token :: rest)
    (done : I.has (topState c'.stack) rule' (A.right rule').length (P.symbol token) = true)
    {values : Except ε (List Value)}
    (outer : ∀ c₂ : Config Token Value, c₂.pending = token :: rest →
      I.has (topState c₂.stack) rule (dot + 1) follow = true →
      P.Leads c₂ (Behind I rule (dot + 1) symbols.length c₂ pending follow values)) :
    P.Leads c' (Behind I rule dot (symbols.length + 1) c pending follow
      (do let value ← action (pushed.reverse.map Prod.snd); return value :: (← values))) := by
  rcases reduces_value valid acts stack length front done with ⟨c₁, stack₁, pending₁, step⟩
  rcases valid.moves has before with ⟨target, next, other, moved⟩
  obtain rfl := valid.goes known next
  cases value : action (pushed.reverse.map Prod.snd) with
  | error reason =>
      rw [value] at step
      exact .stop step rfl
  | ok v =>
      rw [value] at step
      have pushes := push_cases v other c₁
      rw [show P.push _ v c₁ = P.step c' from step.symm] at pushes
      have leads := outer { c₁ with stack := (_, v) :: c₁.stack } pending₁ moved
      exact .step pushes (leads.mono fun _ behind => behind.cons (congrArg ((_, v) :: ·) stack₁))

/-- The parser follows every derivation. -/
theorem leads_behind (valid : I.Valid A P.tables)
    (terminal : ∀ token, P.symbol token ∈ A.terminals) {symbols : List Nat} {tokens : List Token}
    {values : Except ε (List Value)} (derives : Automaton.Yields P A symbols tokens values)
    {rule dot : Nat} (before : (A.right rule).drop dot = symbols) {token : Token}
    {rest : List Token} (pending : c.pending = tokens ++ token :: rest)
    (has : I.has (topState c.stack) rule dot (P.symbol token) = true) :
    P.Leads c (Behind I rule dot symbols.length c (token :: rest) (P.symbol token) values) := by
  induction derives generalizing c rule dot token rest with
  | nil => exact .refl ⟨c, [], rfl, rfl, rfl, rfl, pending, has⟩
  | @token symbols tokens values t _ ih =>
      rcases valid.moves has before with ⟨target, next, other, has'⟩
      have after : (A.right rule).drop (dot + 1) = symbols := by
        rw [← List.tail_drop, before, List.tail_cons]
      have step := P.step_shift pending (valid.shifts (terminal t) next)
      have leads := ih (c := ⟨(target, P.tokenValue t) :: c.stack, none, c.errstatus - 1, _⟩)
        after (rfl : _ = tokens ++ token :: rest) has'
      exact .step (step ▸ push_cases _ other _) (leads.mono fun _ behind => behind.cons rfl)
  | @rule rule' symbols tokens values rhsTokens rhsValues action known acts _ derives inner outer =>
      have after : (A.right rule).drop (dot + 1) = symbols := by
        rw [← List.tail_drop, before, List.tail_cons]
      obtain ⟨token', rest', front, among⟩ :=
        valid.starts_front terminal derives known before rest has
      rw [List.append_assoc, front] at pending
      apply (inner List.drop_zero pending among).bind
      · intro c' behind
        cases rhsValues with
        | error reason => cases behind
        | ok rhsValues =>
            rcases behind with ⟨_, pushed, point, stack, length, rfl, pending', has'⟩
            obtain rfl := Next.go.inj point
            rw [Nat.zero_add] at has'
            exact leads_reduction valid known acts before has stack length pending' has'
              fun c₂ pending₂ moved => outer after (pending₂.trans front.symm) moved
      · intro result behind
        cases rhsValues with
        | error reason => exact behind
        | ok rhsValues =>
            rcases behind with ⟨_, _, next, _⟩
            cases next

/-! ## Derived lines -/

/-- With one more token in the input at most that token is left. -/
theorem returned_append {result : Result Token Out ε} {filler : Token} {status : Nat}
    {out : Option Out} {input : List Token} (short : input.length ≤ 1)
    (eq : .returned status out input = result.append [filler]) :
    .returned status out [] = result := by
  cases result with
  | returned status' out' input' =>
      obtain ⟨rfl, rfl, rfl⟩ : status = status' ∧ out = out' ∧ input = input' ++ [filler] := by
        simpa [Result.append] using eq
      obtain rfl : input' = [] := List.length_eq_zero_iff.1 (by simpa using short)
      rfl
  | exhausted => cases eq
  | failed reason => cases eq
  | underflow => cases eq

/-- A final rule ends a call with the same answer, whatever tokens are left. -/
theorem finish_of_reduced (certified : Certified P A) {rule : Nat} (final : rule ∈ A.finals)
    {below : Stack Value} {values : List Value} {filler : Token} {result : Result Token Out ε}
    (short : c.input.length ≤ 1)
    (ends : P.reduced rule below c (P.act rule values) = .stop (result.append [filler])) :
    P.finish rule values = .stop result := by
  have ends' := certified.finals_end rule final values
  unfold finish
  cases action : P.act rule values with
  | error reason =>
      rw [action] at ends
      cases result with
      | failed reason' => exact ends
      | returned => cases ends
      | exhausted => cases ends
      | underflow => cases ends
  | ok action' =>
      rw [action] at ends
      cases action' with
      | value v => exact absurd action (ends' v)
      | accept out => exact congrArg _ (returned_append short (Next.stop.inj ends))
      | abort out => exact congrArg _ (returned_append short (Next.stop.inj ends))

variable (P) in
/-- The end of a call on a line that a rule derives with these values. -/
def Concludes (rule : Nat) (result : Result Token Out ε) : Except ε (List Value) → Prop
  | .error reason => result = .failed reason
  | .ok values => P.finish rule values = .stop result

/-- On a line with a token behind it the run follows the derivation up to the reduction of
the final rule. -/
theorem leads_final (certified : Certified P A) (valid : I.Valid A P.tables) {rule : Nat}
    (final : rule ∈ A.finals) {filler : Token} (item : I.has 0 rule 0 (P.symbol filler) = true)
    {line : List Token} {values : Except ε (List Value)}
    (derives : Automaton.Yields P A (A.right rule) line values) :
    P.Leads (start (line ++ [filler])) fun next =>
      match values with
      | .error reason => next = .stop (.failed reason)
      | .ok values => ∃ c below result, c.input.length ≤ 1 ∧ next = .stop result ∧
          P.reduced rule below c (P.act rule values) = .stop result := by
  have follows := leads_behind valid certified.symbol_mem derives (c := start _) List.drop_zero
    (rfl : _ = line ++ [filler]) item
  apply follows.bind
  · intro c behind
    cases values with
    | error reason => cases behind
    | ok values =>
        rcases behind with ⟨_, pushed, point, stack, length, rfl, pending, has⟩
        obtain rfl := Next.go.inj point
        rw [Nat.zero_add] at has
        rcases valid.reduces has (List.drop_length ..) with ⟨size, reduces⟩
        rcases P.step_reduce pending reduces with ⟨c', step, stack', pending', -⟩
        have all : c'.stack = pushed := by
          rw [stack', stack]
          exact List.append_nil pushed
        have short : c'.input.length ≤ 1 := by
          have left := congrArg List.length pending'
          simp only [Config.pending, List.length_append, List.length_singleton] at left
          omega
        have enough : ¬ c'.stack.length < P.tables.length rule := by
          rw [all, size, length]
          exact Nat.lt_irrefl _
        rw [Parser.reduce, if_neg enough, all, size, ← length, List.take_length] at step
        rcases reduced_stops certified final _ c' _ with ⟨result, stops⟩
        exact .stop (step.trans stops) ⟨c', _, result, short, rfl, stops⟩
  · intro result behind
    cases values with
    | error reason => exact behind
    | ok values =>
        rcases behind with ⟨_, _, point, _⟩
        cases point

/-- A call on a line that a final rule derives ends as the derivation says. -/
theorem derived_result (certified : Certified P A) (valid : I.Valid A P.tables) {last : Token}
    (isEnd : P.symbol last ∈ A.ends) {body : List Token}
    (inner : ∀ token ∈ body, P.symbol token ∉ A.ends) {rule : Nat} (final : rule ∈ A.finals)
    (filler : Token) (item : I.has 0 rule 0 (P.symbol filler) = true)
    {values : Except ε (List Value)}
    (derives : Automaton.Yields P A (A.right rule) (body ++ [last]) values) {fuel : Nat}
    {result : Result Token Out ε} (returns : P.yyparse fuel (body ++ [last]) = some result) :
    result = .exhausted ∨ P.Concludes rule result values := by
  rcases line_ends certified isEnd body inner with ⟨result', -, fuel', runs⟩
  obtain rfl := P.yyparse_unique (P.yyparse_alone runs) returns
  have agree {fuel : Nat} {result : Result Token Out ε}
      (stops : P.run fuel (start (body ++ [last] ++ [filler])) = .stop result) :
      result = result'.append [filler] := by
    have returns : P.yyparse fuel (body ++ [last] ++ [filler]) = some result := by
      rw [yyparse, stops]
    exact P.yyparse_unique returns (runs [filler])
  rcases leads_final certified valid final item derives with ⟨fuel, full | point⟩
  · exact .inl (Result.eq_exhausted (agree full).symm)
  · cases values with
    | error reason => exact .inr (Result.eq_failed (agree point).symm)
    | ok values =>
        rcases point with ⟨c, below, result, short, stops, reduced⟩
        exact .inr (finish_of_reduced certified final short (agree stops ▸ reduced))

end Parser

end QuashLabs.Bison
