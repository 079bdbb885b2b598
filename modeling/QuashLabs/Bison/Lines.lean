import QuashLabs.Bison.Automaton

/-!
# Parsing line by line

A grammar whose final rules all end with the end of a line is parsed one line at a
time. The run of a call on a line ends, whatever tokens follow the line: the line is
derived by a final rule, or the parser meets an error, drops the rest of the line
and reduces the rule for an error before its end, or it stops early because the
stack is full or an action fails.
-/

namespace QuashLabs.Bison

variable {Token Value Out ε : Type}

/-- A parser that fits an automaton: only the final rules end the parse. -/
structure Certified (P : Parser Token Value Out ε) (A : Automaton) : Prop where
  valid : A.Valid P.tables
  symbol_mem : ∀ token, P.symbol token ∈ A.terminals
  finals_end : ∀ rule ∈ A.finals, ∀ values v, P.act rule values ≠ .ok (.value v)
  others_value : ∀ rule ∉ A.finals,
    ∃ action : List Value → Except ε Value,
      ∀ values, P.act rule values = Action.value <$> action values

namespace Parser

variable (P : Parser Token Value Out ε)

/-- The end of a call by a final rule, with no token left. -/
def finish (rule : Nat) (values : List Value) : Next Token Value Out ε :=
  P.reduced rule [] (start []) (P.act rule values)

/-- The results of a call on a line with the end `last`. -/
inductive LineResult (A : Automaton) (line : List Token) (last : Token) :
    Result Token Out ε → Prop
  | exhausted : LineResult A line last .exhausted
  | failed (reason : ε) : LineResult A line last (.failed reason)
  | derived {rule : Nat} {values : List Value} {result : Result Token Out ε}
      (final : rule ∈ A.finals)
      (derives : Automaton.Yields P A (A.right rule) line (.ok values))
      (ends : P.finish rule values = .stop result) : LineResult A line last result
  | recovered {rule : Nat} {result : Result Token Out ε}
      (final : rule ∈ A.finals)
      (right : A.right rule = [A.accessing A.errorState, P.symbol last])
      (ends : P.finish rule [P.errorValue, P.tokenValue last] = .stop result) :
      LineResult A line last result

variable {P} {A : Automaton} {c : Config Token Value}

/-- A final rule ends the call. -/
theorem reduced_stops (certified : Certified P A) {rule : Nat} (final : rule ∈ A.finals)
    (below : Stack Value) (c : Config Token Value) (values : List Value) :
    ∃ result, P.reduced rule below c (P.act rule values) = .stop result := by
  have ends := certified.finals_end rule final values
  cases action : P.act rule values with
  | error reason => exact ⟨_, rfl⟩
  | ok action' =>
      cases action' with
      | value v => exact absurd action (ends v)
      | accept out => exact ⟨_, rfl⟩
      | abort out => exact ⟨_, rfl⟩

/-- A final rule ends the call in the same way on every stack. -/
theorem reduced_eq_finish (certified : Certified P A) {rule : Nat} (final : rule ∈ A.finals)
    (below : Stack Value) (drained : c.input = []) (values : List Value) :
    P.reduced rule below c (P.act rule values) = P.finish rule values := by
  have ends := certified.finals_end rule final values
  unfold finish
  cases action : P.act rule values with
  | error reason => rfl
  | ok action' =>
      cases action' with
      | value v => exact absurd action (ends v)
      | accept out => simp [reduced, drained, start]
      | abort out => simp [reduced, drained, start]

/-- Pushing a state exhausts the stack or goes on. -/
theorem push_cases {target : Nat} (value : Value) (other : target ≠ P.tables.final)
    (c : Config Token Value) :
    P.push target value c = .stop .exhausted ∨
      P.push target value c = .go { c with stack := (target, value) :: c.stack } := by
  unfold push
  by_cases full : P.maxDepth ≤ c.stack.length + 2
  · exact .inl (if_pos full)
  · exact .inr (by rw [if_neg full, if_neg other])

/-- Popping for the token `error` empties the stack. -/
theorem popToError_eq (valid : A.Valid P.tables) {stack : Stack Value}
    (linked : A.Linked stack) : P.popToError stack = some ([], A.errorState) := by
  induction stack with
  | nil => simp [popToError, valid.error_zero]
  | cons entry below ih =>
      have none := valid.error_other entry.1 (valid.lt_of_edge linked.1)
        (valid.ne_zero_of_edge linked.1)
      simp [popToError, none, ih linked.2]

/-- Recovery leaves the token `error` alone on the stack, if the stack has room. -/
theorem recover_cases (valid : A.Valid P.tables) (linked : A.Linked c.stack) :
    P.recover c = .stop .exhausted ∨
      P.recover c = .go { c with stack := [(A.errorState, P.errorValue)], errstatus := 3 } := by
  rw [recover, popToError_eq valid linked]
  exact push_cases P.errorValue valid.error_not_final { c with stack := [], errstatus := 3 }

theorem ready_of_pending {left : List Token} {last : Token} (pending : c.pending = left ++ [last]) :
    P.Ready c :=
  .inl (by simp [pending])

/-! ## Behind the end of the line -/

/-- What the automaton knows of a final reduction: it takes the whole stack. -/
theorem final_reduction (valid : A.Valid P.tables) {symbol rule : Nat} {stack : Stack Value}
    (linked : A.Linked stack) (terminal : symbol ∈ A.terminals) (final : rule ∈ A.finals)
    (reduces : P.tables.choice (topState stack) symbol = .reduce rule) :
    P.tables.length rule = stack.length ∧
      (stack.map fun entry => A.accessing entry.1) = (A.right rule).reverse := by
  have fits := valid.choices _ (linked.top_lt valid) _ terminal
  simp only [reduces, Automaton.fits, List.contains_iff_mem.2 final, if_true, Bool.and_eq_true,
    beq_iff_eq] at fits
  rcases fits with ⟨⟨-, length⟩, -, pops⟩
  rcases linked.pops pops with ⟨enough, spelled, rest, bottom⟩
  have empty := rest.eq_nil valid (by simpa using bottom)
  have all : (A.right rule).reverse.length = stack.length :=
    Nat.le_antisymm enough (List.drop_eq_nil_iff.1 empty)
  rw [all, List.take_length] at spelled
  exact ⟨by rw [length, ← all, List.length_reverse], spelled⟩

/-- In a state entered by the end of the line a final rule ends the call. -/
theorem ended_ends (certified : Certified P A) (last : Token) (linked : A.Linked c.stack)
    (drained : c.input = [])
    (ended : A.ends.contains (A.accessing (topState c.stack)) = true) :
    ∃ rule result, rule ∈ A.finals ∧
      (c.stack.map fun entry => A.accessing entry.1) = (A.right rule).reverse ∧
      P.finish rule (c.stack.reverse.map Prod.snd) = .stop result ∧ P.Ends c result := by
  have valid := certified.valid
  have finishes := valid.finish _ (linked.top_lt valid) ended
  rw [Automaton.finishes, Bool.and_eq_true] at finishes
  rcases finishes with ⟨default, final⟩
  cases decision : P.tables.defaultDecision (topState c.stack) with
  | shift target => simp [decision] at final
  | error => simp [decision] at final
  | reduce rule =>
      have final : rule ∈ A.finals := by simpa [decision] using final
      have reduces : P.tables.choice (topState c.stack) (P.symbol last) = .reduce rule := by
        rw [Tables.choice, if_pos default, decision]
      obtain ⟨length, spelled⟩ :=
        final_reduction valid linked (certified.symbol_mem last) final reduces
      obtain ⟨result, stops⟩ :=
        reduced_stops certified final [] (start []) (c.stack.reverse.map Prod.snd)
      refine ⟨rule, result, final, spelled, stops, P.ends_of_stop (.inr default) ?_⟩
      rw [P.step_default default decision, Parser.reduce, if_neg (by omega), length,
        List.take_length, reduced_eq_finish certified final _ drained, finish, stops]

/-- What the automaton knows of a shift. -/
theorem shift_fits (valid : A.Valid P.tables) {symbol target : Nat} {stack : Stack Value}
    (linked : A.Linked stack) (terminal : symbol ∈ A.terminals)
    (shifts : P.tables.choice (topState stack) symbol = .shift target) :
    A.edge (topState stack) target = true ∧ A.accessing target = symbol ∧
      target ≠ P.tables.final := by
  have fits := valid.choices _ (linked.top_lt valid) _ terminal
  simpa [shifts, Automaton.fits, and_assoc] using fits

/-! ## Dropping the rest of a line -/

section Line

variable (certified : Certified P A) {last : Token} (isEnd : P.symbol last ∈ A.ends)
include certified isEnd

/-- After an error the parser drops the tokens before the end of the line and reduces
a rule for the error. -/
theorem recovering_ends (line left : List Token) (inner : ∀ token ∈ left, P.symbol token ∉ A.ends)
    (stack : c.stack = [(A.errorState, P.errorValue)]) (status : c.errstatus = 3)
    (pending : c.pending = left ++ [last]) :
    ∃ result, P.LineResult A line last result ∧ P.Ends c result := by
  have valid := certified.valid
  have linked : A.Linked c.stack := by simp [stack, Automaton.Linked, valid.error_edge]
  have top : topState c.stack = A.errorState := by simp [stack]
  have ready : P.Ready c := ready_of_pending pending
  induction left generalizing c with
  | nil =>
      have terminal := certified.symbol_mem last
      have resumes := valid.error_resumes _ terminal
      cases choice : P.tables.choice A.errorState (P.symbol last) with
      | reduce rule => simp [choice, Automaton.resumes] at resumes
      | error => exact absurd isEnd (by simpa [choice, Automaton.resumes] using resumes)
      | shift target =>
          rw [← top] at choice
          rcases shift_fits valid linked terminal choice with ⟨edge, entered, other⟩
          have step := P.step_shift pending choice
          apply P.exists_ends ready (step ▸ push_cases _ other _) .exhausted
          obtain ⟨rule, result, final, spelled, stops, ends⟩ :=
            ended_ends certified last (c := ⟨(target, P.tokenValue last) :: c.stack, none, _, []⟩)
              ⟨edge, linked⟩ rfl (by simpa [entered] using isEnd)
          refine ⟨result, .recovered final ?_ ?_, ends⟩
          · simpa [stack, entered] using (congrArg List.reverse spelled).symm
          · simpa [stack] using stops
  | cons token left ih =>
      have terminal := certified.symbol_mem token
      have resumes := valid.error_resumes _ terminal
      have notEnd := inner token (List.mem_cons_self ..)
      have nonzero : P.symbol token ≠ 0 := fun zero => valid.symbol_ne_zero (zero ▸ terminal)
      cases choice : P.tables.choice A.errorState (P.symbol token) with
      | reduce rule => simp [choice, Automaton.resumes] at resumes
      | shift target => exact absurd (by simp_all [Automaton.resumes]) notEnd
      | error =>
          rw [← top] at choice
          have looks : P.tables.isDefault (topState c.stack) = false := top ▸ valid.error_looks
          have step : P.step c = P.recover ⟨c.stack, none, c.errstatus, left ++ [last]⟩ := by
            rw [P.step_error pending looks choice, syntaxError, if_pos status]
            simp [nonzero]
          have recovers :=
            recover_cases valid (c := ⟨c.stack, none, c.errstatus, left ++ [last]⟩) linked
          apply P.exists_ends ready (step ▸ recovers) .exhausted
          exact ih (fun t mem => inner t (List.mem_cons_of_mem _ mem)) rfl rfl rfl
            (by simp [Automaton.Linked, valid.error_edge]) rfl
            (ready_of_pending rfl)

/-! ## Reading a line -/

omit isEnd in
/-- A reduction that does not end the parse keeps the tokens that the stack spells and
brings the rank down. -/
theorem reduces_inside {symbol rule : Nat} {done : List Token} (terminal : symbol ∈ A.terminals)
    (linked : A.Linked c.stack) (spans : Automaton.Spans P A c.stack done)
    (top : A.accessing (topState c.stack) ∉ A.ends)
    (reduces : P.tables.choice (topState c.stack) symbol = .reduce rule) :
    (∃ reason, P.reduce rule c = .stop (.failed reason)) ∨
      ∃ target v below, P.reduce rule c = P.push target v { c with stack := below } ∧
        target ≠ P.tables.final ∧ A.accessing target ∉ A.ends ∧
        A.Linked ((target, v) :: below) ∧ Automaton.Spans P A ((target, v) :: below) done ∧
        ∀ left, A.weight left ((target, v) :: below) < A.weight left c.stack := by
  have valid := certified.valid
  have fits := valid.choices _ (linked.top_lt valid) _ terminal
  by_cases final : rule ∈ A.finals
  · simp [reduces, Automaton.fits, final, top] at fits
  simp only [reduces, Automaton.fits, List.contains_iff_mem, final, if_false, Bool.and_eq_true,
    beq_iff_eq] at fits
  rcases fits with ⟨⟨known, length⟩, -, pops⟩
  rcases linked.pops pops with ⟨enough, spelled, rest, lands⟩
  rw [List.length_reverse, ← length] at enough spelled rest lands
  rcases spans.popped (P.tables.length rule) with ⟨before, popped, rfl, kept, derives⟩
  rw [spelled, List.reverse_reverse] at derives
  rcases certified.others_value rule final with ⟨action, acts⟩
  have reduced : P.reduce rule c =
      P.reduced rule (c.stack.drop (P.tables.length rule)) c (Action.value <$>
        action ((c.stack.take (P.tables.length rule)).reverse.map Prod.snd)) := by
    rw [Parser.reduce, if_neg (by omega), acts]
  cases value : action ((c.stack.take (P.tables.length rule)).reverse.map Prod.snd) with
  | error reason => exact .inl ⟨reason, by rw [reduced, value]; rfl⟩
  | ok v =>
      simp only [Automaton.lands, Bool.and_eq_true, beq_iff_eq, bne_iff_ne, ne_eq,
        Bool.not_eq_true', decide_eq_true_eq] at lands
      rcases lands with ⟨⟨⟨⟨edge, entered⟩, other⟩, notEnd⟩, less⟩
      refine .inr ⟨_, v, _, by rw [reduced, value]; rfl, other, by simpa using notEnd,
        ⟨edge, rest⟩, .push kept ?_, fun left => ?_⟩
      · rw [entered]
        exact .of_rule known acts derives value
      · simp only [Automaton.weight, List.length_cons, List.length_drop, topState_cons]
        omega

/-- Reading a line, a call ends on this line. -/
theorem reading_ends (done left : List Token) (inner : ∀ token ∈ left, P.symbol token ∉ A.ends)
    (linked : A.Linked c.stack) (spans : Automaton.Spans P A c.stack done)
    (pending : c.pending = left ++ [last])
    (top : A.accessing (topState c.stack) ∉ A.ends) (status : c.errstatus = 0) :
    ∃ result, P.LineResult A (done ++ left ++ [last]) last result ∧ P.Ends c result := by
  have valid := certified.valid
  have ready : P.Ready c := ready_of_pending pending
  induction weight : A.weight left.length c.stack using Nat.strongRecOn
    generalizing c done left with
  | ind _ ih =>
      subst weight
      obtain ⟨token, rest, next⟩ : ∃ token rest, c.pending = token :: rest :=
        List.exists_cons_of_ne_nil (by simp [pending])
      have terminal := certified.symbol_mem token
      cases choice : P.tables.choice (topState c.stack) (P.symbol token) with
      | shift target =>
          rcases shift_fits valid linked terminal choice with ⟨edge, entered, other⟩
          have step := P.step_shift next choice
          apply P.exists_ends ready (step ▸ push_cases _ other _) .exhausted
          have shifted : Automaton.Spans P A ((target, P.tokenValue token) :: c.stack)
              (done ++ [token]) :=
            .push spans (by simpa [entered] using Automaton.Yields.token token .nil)
          cases left with
          | nil =>
              obtain ⟨rfl, rfl⟩ : token = last ∧ rest = [] := by simpa [next] using pending
              obtain ⟨rule, result, final, spelled, stops, ends⟩ :=
                ended_ends certified token
                  (c := ⟨(target, P.tokenValue token) :: c.stack, none, c.errstatus - 1, []⟩)
                  ⟨edge, linked⟩ rfl (by simpa [entered] using isEnd)
              refine ⟨result, .derived final ?_ stops, ends⟩
              have derives := shifted.yields
              rwa [spelled, List.reverse_reverse, ← List.append_nil done] at derives
          | cons t left =>
              obtain ⟨rfl, rfl⟩ : token = t ∧ rest = left ++ [last] := by
                simpa [next] using pending
              have goes := ih _ (Automaton.weight_shift valid edge (P.tokenValue token))
                (c := ⟨(target, P.tokenValue token) :: c.stack, none, c.errstatus - 1,
                  left ++ [last]⟩)
                (done ++ [token]) left (fun t mem => inner t (List.mem_cons_of_mem _ mem))
                ⟨edge, linked⟩ shifted rfl
                (by simpa [entered] using inner token (List.mem_cons_self ..))
                (by simp [status]) (ready_of_pending rfl) rfl
              simpa using goes
      | reduce rule =>
          rcases P.step_reduce next choice with ⟨c', step, stack, pending', status'⟩
          rw [← stack] at choice linked spans top
          rcases reduces_inside certified terminal linked spans top choice with
            ⟨reason, fails⟩ | ⟨target, v, below, goes, other, notEnd, linked', spans', less⟩
          · exact ⟨_, .failed reason, P.ends_of_stop ready (step.trans fails)⟩
          · rw [goes] at step
            apply P.exists_ends ready (step ▸ push_cases _ other _) .exhausted
            have pending' := pending'.trans (next.symm.trans pending)
            exact ih _ (stack ▸ less left.length) done left inner linked' spans' pending' notEnd
              (status'.trans status) (ready_of_pending pending') rfl
      | error =>
          have fits := valid.choices _ (linked.top_lt valid) _ terminal
          have looks : P.tables.isDefault (topState c.stack) = false := by
            simpa [choice, Automaton.fits] using fits
          have step : P.step c = P.recover ⟨c.stack, some token, c.errstatus, rest⟩ := by
            rw [P.step_error next looks choice, syntaxError, if_neg (by simp [status])]
          have recovers :=
            recover_cases valid (c := ⟨c.stack, some token, c.errstatus, rest⟩) linked
          apply P.exists_ends ready (step ▸ recovers) .exhausted
          exact recovering_ends certified isEnd _ left inner rfl rfl (next.symm.trans pending)

/-- A call that starts with a line ends, with a result of the line alone, and leaves
the tokens behind the line. -/
theorem line_ends (body : List Token) (inner : ∀ token ∈ body, P.symbol token ∉ A.ends) :
    ∃ result, P.LineResult A (body ++ [last]) last result ∧
      ∃ fuel, ∀ rest, P.yyparse fuel (body ++ [last] ++ rest) = some (result.append rest) := by
  obtain ⟨result, holds, fuel, runs⟩ := reading_ends certified isEnd (c := start (body ++ [last]))
    [] body inner trivial .nil rfl certified.valid.zero_not_end rfl
  refine ⟨result, holds, fuel, fun rest => ?_⟩
  have ends : P.run fuel (start (body ++ [last] ++ rest)) = .stop (result.append rest) := runs rest
  rw [yyparse, ends]

end Line

end Parser

end QuashLabs.Bison
