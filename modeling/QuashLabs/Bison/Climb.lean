import Mathlib.Data.List.Forall2
import QuashLabs.Bison.Lines

/-!
# How high the stack climbs

The driver gives up when the stack is full, and only a push makes the stack higher. A
reduction that pops something pushes no higher than the stack was before, so what a
stretch of a run needs is a matter of its shifts and of the rules with nothing on the
right. Values do not matter either, as long as every state carries a value of the type
of its symbol and the actions give values of their types.
-/

namespace QuashLabs.Bison

variable {Token Value Out ε : Type}

/-- Types for the values of symbols. The final rules end the call with an answer. -/
structure Typing (P : Parser Token Value Out ε) (A : Automaton) where
  typed : Nat → Value → Prop
  ofToken : ∀ token, typed (P.symbol token) (P.tokenValue token)
  ofError : typed (A.accessing A.errorState) P.errorValue
  final : ∀ rule ∈ A.finals, ∀ values, List.Forall₂ typed (A.right rule) values →
    ∃ out, P.act rule values = .ok (.accept out) ∨ P.act rule values = .ok (.abort out)

namespace Typing

variable {P : Parser Token Value Out ε} {A : Automaton} (types : Typing P A)

/-- The action of the rule gives a value whenever its values are of their types. -/
def Calm (rule : Nat) : Prop :=
  ∀ values, List.Forall₂ types.typed (A.right rule) values →
    ∃ v, P.act rule values = .ok (.value v) ∧ types.typed (P.tables.lhs rule) v

/-- A configuration with these states on the stack and these tokens pending, in which the
values are of their types and the highest push has found room. -/
structure Stands (states : List Nat) (pending : List Token) (status : Nat)
    (c : Config Token Value) : Prop where
  states : c.stack.map Prod.fst = states
  typed : ∀ entry ∈ c.stack, types.typed (A.accessing entry.1) entry.2
  pending : c.pending = pending
  status : c.errstatus = status
  room : c.stack ≠ [] → c.stack.length + 1 < P.maxDepth

/-- The state that a reduction to the symbol of the rule enters above these states. -/
def Enters (A : Automaton) (T : Tables) (rule : Nat) (below : List Nat) (target : Nat) : Prop :=
  T.goto (below.headD 0) (T.lhs rule) = target ∧ A.accessing target = T.lhs rule ∧
    target ≠ T.final

/-- Reductions before a token, by rules that pop something. -/
inductive Settles (symbol : Nat) : List Nat → List Nat → Prop
  | refl (states : List Nat) : Settles symbol states states
  | reduce {state : Nat} (popped : List Nat) {below states : List Nat} {rule target : Nat}
      (decides : P.tables.choice state symbol = .reduce rule) (calm : types.Calm rule)
      (length : P.tables.length rule = popped.length + 1)
      (spelled : (state :: popped).map A.accessing = (A.right rule).reverse)
      (enters : Enters A P.tables rule below target)
      (rest : Settles symbol (target :: below) states) :
      Settles symbol (state :: (popped ++ below)) states

variable {types} {states states' below : List Nat} {pending rest : List Token}
  {status symbol target : Nat} {token : Token} {c : Config Token Value}

theorem Settles.trans {middle : List Nat} (first : types.Settles symbol states middle)
    (second : types.Settles symbol middle states') : types.Settles symbol states states' := by
  induction first with
  | refl => exact second
  | reduce popped decides calm length spelled enters _ ih =>
      exact .reduce popped decides calm length spelled enters (ih second)

theorem topState_eq (stack : Stack Value) : topState stack = (stack.map Prod.fst).headD 0 := by
  cases stack <;> rfl

namespace Stands

theorem top (stands : types.Stands states pending status c) :
    topState c.stack = states.headD 0 := by
  rw [topState_eq, stands.states]

theorem length_eq (stands : types.Stands states pending status c) :
    c.stack.length = states.length := by
  rw [← stands.states, List.length_map]

theorem room_of_cons {state : Nat} (stands : types.Stands (state :: states) pending status c) :
    states.length + 2 < P.maxDepth := by
  have height := stands.length_eq
  rw [List.length_cons] at height
  have room := stands.room fun empty => by simp [empty] at height
  omega

/-- The empty stack. -/
theorem empty (lookahead : Option Token) (input : List Token) :
    types.Stands [] (lookahead.toList ++ input) status
      ⟨[], lookahead, status, input⟩ where
  states := rfl
  typed _ mem := absurd mem List.not_mem_nil
  pending := rfl
  status := rfl
  room some := absurd rfl some

/-- The popped values are of the types of the symbols they are popped for. -/
theorem popped (stands : types.Stands states pending status c) (count : Nat) :
    List.Forall₂ types.typed ((states.take count).map A.accessing).reverse
      ((c.stack.take count).reverse.map Prod.snd) := by
  rw [← stands.states, ← List.map_take, List.map_map, List.map_reverse,
    List.forall₂_reverse_iff, List.forall₂_map_left_iff, List.forall₂_map_right_iff,
    List.forall₂_same]
  intro entry mem
  exact stands.typed entry (List.mem_of_mem_take mem)

/-- The states below those that a rule pops. -/
theorem drop {top : List Nat} (stands : types.Stands (top ++ below) pending status c) :
    (c.stack.drop top.length).map Prod.fst = below ∧
      topState (c.stack.drop top.length) = below.headD 0 := by
  have states : (c.stack.drop top.length).map Prod.fst = below := by
    rw [List.map_drop, stands.states, List.drop_left]
  exact ⟨states, by rw [topState_eq, states]⟩

end Stands

end Typing

namespace Parser

variable {P : Parser Token Value Out ε} {A : Automaton} {types : Typing P A}
  {states states' below : List Nat} {pending rest : List Token} {status target : Nat}
  {token : Token} {c c' : Config Token Value} {good good' : Next Token Value Out ε → Prop}
  {peak peak' : Nat}

/-! ## Reductions -/

variable (P) in
/-- The run goes on from one configuration to another. -/
def Goes (c c' : Config Token Value) : Prop := ∃ fuel, P.run fuel c = .go c'

theorem Goes.refl (c : Config Token Value) : P.Goes c c := ⟨0, rfl⟩

theorem Goes.step {c₁ : Config Token Value} (step : P.step c = .go c₁) (goes : P.Goes c₁ c') :
    P.Goes c c' := by
  rcases goes with ⟨fuel, runs⟩
  exact ⟨fuel + 1, by simpa only [run, step] using runs⟩

theorem Goes.trans {c₁ : Config Token Value} (first : P.Goes c c₁) (later : P.Goes c₁ c') :
    P.Goes c c' := by
  rcases first with ⟨fuel, goes⟩
  rcases later with ⟨more, goes'⟩
  refine ⟨fuel + more, ?_⟩
  rw [P.run_add, goes]
  exact goes'

/-- What comes behind a run. -/
theorem Goes.run (goes : P.Goes c c') (good : Next Token Value Out ε → Prop)
    (runs : ∃ fuel, good (P.run fuel c')) : ∃ fuel, good (P.run fuel c) := by
  rcases goes with ⟨fuel, first⟩
  rcases runs with ⟨more, second⟩
  refine ⟨fuel + more, ?_⟩
  rw [P.run_add, first]
  exact second

theorem push_of_room {v : Value} (other : target ≠ P.tables.final)
    (room : c.stack.length + 2 < P.maxDepth) :
    P.push target v c = .go { c with stack := (target, v) :: c.stack } := by
  rw [push, if_neg (by omega), if_neg other]

/-- A reduction by a rule that gives a value pushes a state with this value. -/
theorem reduce_value {rule : Nat} {popped : List Nat} {v : Value}
    (stands : types.Stands (popped ++ below) pending status c)
    (length : P.tables.length rule = popped.length)
    (gives : P.act rule ((c.stack.take popped.length).reverse.map Prod.snd) = .ok (.value v))
    (enters : Typing.Enters A P.tables rule below target) :
    P.reduce rule c = P.push target v { c with stack := c.stack.drop popped.length } := by
  have height := stands.length_eq
  rw [List.length_append] at height
  rw [Parser.reduce, length, if_neg (by omega), gives, reduced, stands.drop.2, enters.1]

/-- The values for a rule that cannot fail. -/
theorem exists_value {rule : Nat} {popped : List Nat} (calm : types.Calm rule)
    (stands : types.Stands (popped ++ below) pending status c)
    (spelled : popped.map A.accessing = (A.right rule).reverse) :
    ∃ v, P.act rule ((c.stack.take popped.length).reverse.map Prod.snd) = .ok (.value v) ∧
      types.typed (P.tables.lhs rule) v := by
  have values := stands.popped popped.length
  rw [List.take_left, spelled, List.reverse_reverse] at values
  exact calm _ values

/-- The configuration after a push. -/
theorem stands_push {v : Value} {stack : Stack Value}
    (stands : types.Stands states pending status c)
    (value : types.typed (A.accessing target) v) (states_eq : stack.map Prod.fst = below)
    (part : ∀ entry ∈ stack, entry ∈ c.stack) (room : stack.length + 2 < P.maxDepth) :
    types.Stands (target :: below) pending status { c with stack := (target, v) :: stack } where
  states := by rw [List.map_cons, states_eq]
  typed := List.forall_mem_cons.2 ⟨value, fun entry mem => stands.typed entry (part entry mem)⟩
  pending := stands.pending
  status := stands.status
  room _ := room

/-- A reduction that pops something always finds room. -/
theorem goes_of_reduce {rule state : Nat} (popped : List Nat) {v : Value}
    (stands : types.Stands (state :: (popped ++ below)) (token :: rest) status c)
    (reduces : P.tables.choice state (P.symbol token) = .reduce rule)
    (length : P.tables.length rule = popped.length + 1)
    (gives : P.act rule ((c.stack.take (popped.length + 1)).reverse.map Prod.snd) =
      .ok (.value v))
    (typed : types.typed (P.tables.lhs rule) v)
    (enters : Typing.Enters A P.tables rule below target) :
    ∃ c', P.Goes c c' ∧ types.Stands (target :: below) (token :: rest) status c' := by
  have decides : P.tables.choice (topState c.stack) (P.symbol token) = .reduce rule := by
    rw [stands.top]
    exact reduces
  rcases P.step_reduce stands.pending decides with ⟨c₁, step, stack, front, same⟩
  have stands : types.Stands (state :: popped ++ below) (token :: rest) status c₁ :=
    ⟨stack ▸ stands.states, stack ▸ stands.typed, front, same.trans stands.status,
      stack ▸ stands.room⟩
  have room := stands.room_of_cons
  have free : (c₁.stack.drop (state :: popped).length).length + 2 < P.maxDepth := by
    have dropped : (c₁.stack.drop (state :: popped).length).length = below.length := by
      rw [← List.length_map Prod.fst, stands.drop.1]
    rw [dropped]
    have part : below.length ≤ (popped.append below).length := by
      rw [List.append_eq, List.length_append]
      omega
    omega
  have pushed := stands_push stands (enters.2.1.symm ▸ typed) stands.drop.1
    (fun entry mem => List.mem_of_mem_drop mem) free
  refine ⟨_, .step ?_ (.refl _), pushed⟩
  rw [step, reduce_value stands length (stack ▸ gives) enters, push_of_room enters.2.2 free]

/-- Reductions by rules that pop something and cannot fail always go through. -/
theorem goes_of_settles (stands : types.Stands states (token :: rest) status c)
    (settles : types.Settles (P.symbol token) states states') :
    ∃ c', P.Goes c c' ∧ types.Stands states' (token :: rest) status c' := by
  induction settles generalizing c with
  | refl => exact ⟨c, .refl c, stands⟩
  | @reduce state popped below states rule target decides calm length spelled enters _ ih =>
      have values : types.Stands (state :: popped ++ below) (token :: rest) status c := stands
      rcases exists_value calm values spelled with ⟨v, gives, typed⟩
      rcases goes_of_reduce popped stands decides length gives typed enters with
        ⟨c₁, first, stands₁⟩
      rcases ih stands₁ with ⟨c', later, stands'⟩
      exact ⟨c', first.trans later, stands'⟩

/-! ## Pushes -/

variable (P) in
/-- The run from `c` needs the height `peak` on the stack: with room for it the run comes to
a good point, and otherwise it exhausts the stack. -/
structure Climbs (c : Config Token Value) (peak : Nat) (good : Next Token Value Out ε → Prop) :
    Prop where
  fits : peak + 1 < P.maxDepth → ∃ fuel, good (P.run fuel c)
  full : P.maxDepth ≤ peak + 1 → ∃ fuel, P.run fuel c = .stop .exhausted

theorem Goes.climbs (goes : P.Goes c c') (climbs : P.Climbs c' peak good) :
    P.Climbs c peak good where
  fits room := goes.run good (climbs.fits room)
  full room := goes.run (· = .stop .exhausted) (climbs.full room)

theorem Climbs.mono (climbs : P.Climbs c peak good) (weaker : ∀ next, good next → good' next) :
    P.Climbs c peak good' where
  fits room := by
    rcases climbs.fits room with ⟨fuel, holds⟩
    exact ⟨fuel, weaker _ holds⟩
  full := climbs.full

/-- What follows without a higher push. -/
theorem Climbs.then {middle : Config Token Value → Prop}
    (climbs : P.Climbs c peak fun next => ∃ c', next = .go c' ∧ middle c')
    (later : ∀ c', middle c' → ∃ fuel, good (P.run fuel c')) : P.Climbs c peak good where
  fits room := by
    rcases climbs.fits room with ⟨fuel, c', goes, holds⟩
    exact Goes.run ⟨fuel, goes⟩ good (later c' holds)
  full := climbs.full

/-- One stretch after another needs the higher of the two heights. -/
theorem Climbs.bind {middle : Config Token Value → Prop}
    (climbs : P.Climbs c peak fun next => ∃ c', next = .go c' ∧ middle c')
    (later : ∀ c', middle c' → P.Climbs c' peak' good) : P.Climbs c (max peak peak') good := by
  constructor
  · intro room
    rcases climbs.fits (by omega) with ⟨fuel, c', goes, holds⟩
    exact Goes.run ⟨fuel, goes⟩ good ((later c' holds).fits (by omega))
  · intro full
    by_cases room : peak + 1 < P.maxDepth
    · rcases climbs.fits room with ⟨fuel, c', goes, holds⟩
      exact (Goes.climbs ⟨fuel, goes⟩ (later c' holds)).full (by omega)
    · exact climbs.full (by omega)

/-- A push needs one more than the height of the stack. -/
theorem climbs_push {v : Value} {c₁ : Config Token Value} (step : P.step c = P.push target v c₁)
    (other : target ≠ P.tables.final) :
    P.Climbs c (c₁.stack.length + 1) fun next => c₁.stack.length + 2 < P.maxDepth ∧
      next = .go { c₁ with stack := (target, v) :: c₁.stack } := by
  constructor
  · intro room
    refine ⟨1, room, ?_⟩
    rw [run, step, push_of_room other room]
    rfl
  · intro full
    refine ⟨1, ?_⟩
    rw [run, step, push, if_pos full]

/-- A shift. -/
theorem climbs_shift (stands : types.Stands states (token :: rest) status c)
    (shifts : P.tables.choice (states.headD 0) (P.symbol token) = .shift target)
    (entered : A.accessing target = P.symbol token) (other : target ≠ P.tables.final) :
    P.Climbs c (states.length + 1) fun next => ∃ c', next = .go c' ∧
      types.Stands (target :: states) rest (status - 1) c' ∧
      c'.stack = (target, P.tokenValue token) :: c.stack := by
  have step := P.step_shift stands.pending (stands.top ▸ shifts)
  have shifted : types.Stands states rest (status - 1)
      ⟨c.stack, none, c.errstatus - 1, rest⟩ :=
    ⟨stands.states, stands.typed, rfl, by rw [stands.status], stands.room⟩
  rw [← stands.length_eq]
  apply (climbs_push step other).mono
  rintro next ⟨room, rfl⟩
  exact ⟨_, rfl, stands_push shifted (entered ▸ types.ofToken token) stands.states
    (fun _ mem => mem) room, rfl⟩

/-- A reduction by a rule with nothing on the right. -/
theorem climbs_empty {rule : Nat} (stands : types.Stands states (token :: rest) status c)
    (reduces : P.tables.choice (states.headD 0) (P.symbol token) = .reduce rule)
    (calm : types.Calm rule) (length : P.tables.length rule = 0) (empty : A.right rule = [])
    (enters : Typing.Enters A P.tables rule states target) :
    P.Climbs c (states.length + 1) fun next => ∃ c', next = .go c' ∧
      types.Stands (target :: states) (token :: rest) status c' := by
  rcases P.step_reduce stands.pending (stands.top ▸ reduces) with ⟨c₁, step, stack, front, same⟩
  have stands : types.Stands ([] ++ states) (token :: rest) status c₁ :=
    ⟨stack ▸ stands.states, stack ▸ stands.typed, front, same.trans stands.status,
      stack ▸ stands.room⟩
  rcases exists_value calm stands (by rw [empty]; rfl) with ⟨v, gives, typed⟩
  have height : c₁.stack.length = states.length := stands.length_eq
  rw [← height]
  apply (climbs_push (step.trans (reduce_value stands length gives enters)) enters.2.2).mono
  rintro next ⟨room, rfl⟩
  exact ⟨_, rfl, stands_push stands (enters.2.1.symm ▸ typed) stands.states (fun _ mem => mem)
    room⟩

/-- An action that fails ends the call. -/
theorem stop_of_failure {rule : Nat} (popped : List Nat) {reason : ε}
    (stands : types.Stands (popped ++ below) (token :: rest) status c)
    (reduces : P.tables.choice ((popped ++ below).headD 0) (P.symbol token) = .reduce rule)
    (length : P.tables.length rule = popped.length)
    (fails : P.act rule ((c.stack.take popped.length).reverse.map Prod.snd) = .error reason) :
    ∃ fuel, P.run fuel c = .stop (.failed reason) := by
  rcases P.step_reduce stands.pending (stands.top ▸ reduces) with ⟨c₁, step, stack, -, -⟩
  have height := stands.length_eq
  rw [List.length_append] at height
  refine ⟨1, ?_⟩
  rw [run, step, Parser.reduce, length, stack, if_neg (by omega), fails]
  rfl

/-! ## Errors -/

/-- Popping for the token `error` empties a stack of states that do not shift it. -/
theorem popToError_of_states (valid : A.Valid P.tables) {stack : Stack Value}
    (none : ∀ state ∈ stack.map Prod.fst, P.tables.shiftsError state = none) :
    P.popToError stack = some ([], A.errorState) := by
  induction stack with
  | nil => simp [popToError, valid.error_zero]
  | cons entry below ih =>
      rw [List.map_cons, List.forall_mem_cons] at none
      simp [popToError, none.1, ih none.2]

/-- At the first error of a line the token `error` is pushed on the empty stack. -/
theorem climbs_error (valid : A.Valid P.tables)
    (stands : types.Stands states (token :: rest) 0 c)
    (none : ∀ state ∈ states, P.tables.shiftsError state = none)
    (looks : P.tables.isDefault (states.headD 0) = false)
    (errs : P.tables.choice (states.headD 0) (P.symbol token) = .error) :
    P.Climbs c 1 fun next => ∃ c', next = .go c' ∧
      types.Stands [A.errorState] (token :: rest) 3 c' := by
  have step := P.step_error stands.pending (stands.top ▸ looks) (stands.top ▸ errs)
  rw [syntaxError, if_neg (by simp [stands.status]), recover,
    popToError_of_states valid (stands.states.symm ▸ none)] at step
  apply (climbs_push step valid.error_not_final).mono
  rintro next ⟨room, rfl⟩
  have emptied : types.Stands [] (token :: rest) 3 ⟨[], some token, 3, rest⟩ :=
    .empty (some token) rest
  exact ⟨_, rfl, stands_push emptied types.ofError rfl (fun _ mem => mem) room⟩

/-- The tokens behind an error are dropped up to the end of the line. -/
theorem goes_to_end (valid : A.Valid P.tables) (terminal : ∀ token, P.symbol token ∈ A.terminals)
    {left : List Token} {last : Token} (inner : ∀ token ∈ left, P.symbol token ∉ A.ends)
    (stands : types.Stands [A.errorState] (left ++ [last]) 3 c) :
    ∃ c', P.Goes c c' ∧ types.Stands [A.errorState] [last] 3 c' := by
  induction left generalizing c with
  | nil => exact ⟨c, .refl c, stands⟩
  | cons token left ih =>
      rw [List.forall_mem_cons] at inner
      have resumes := valid.error_resumes _ (terminal token)
      have errs : P.tables.choice A.errorState (P.symbol token) = .error := by
        cases choice : P.tables.choice A.errorState (P.symbol token) with
        | shift target =>
            rw [choice, Automaton.resumes, Bool.and_eq_true, List.contains_iff_mem] at resumes
            exact absurd resumes.1 inner.1
        | reduce rule => simp [choice, Automaton.resumes] at resumes
        | error => rfl
      have nonzero : P.symbol token ≠ 0 := fun zero =>
        valid.symbol_ne_zero (zero ▸ terminal token)
      have none : P.tables.shiftsError A.errorState = none :=
        valid.error_other _ (valid.lt_of_edge valid.error_edge)
          (valid.ne_zero_of_edge valid.error_edge)
      have pops : P.popToError c.stack = some ([], A.errorState) :=
        popToError_of_states valid (stands.states.symm ▸ by simpa using none)
      have step := P.step_error stands.pending (stands.top ▸ valid.error_looks)
        (stands.top ▸ errs)
      have room : 0 + 2 < P.maxDepth := stands.room_of_cons
      rw [syntaxError, if_pos stands.status] at step
      simp only [if_neg nonzero, recover, pops] at step
      have emptied : types.Stands [] (left ++ [last]) 3 ⟨[], .none, 3, left ++ [last]⟩ :=
        .empty .none (left ++ [last])
      have again : types.Stands [A.errorState] (left ++ [last]) 3
          ⟨[(A.errorState, P.errorValue)], .none, 3, left ++ [last]⟩ :=
        stands_push emptied types.ofError rfl (fun _ mem => mem) room
      rcases ih inner.2 again with ⟨c', goes, ends⟩
      have free : P.push A.errorState P.errorValue ⟨[], .none, 3, left ++ [last]⟩ =
          .go ⟨[(A.errorState, P.errorValue)], .none, 3, left ++ [last]⟩ :=
        push_of_room valid.error_not_final room
      exact ⟨c', .step (step.trans free) goes, ends⟩

/-! ## Ends of lines -/

/-- Behind these states the token of the symbol is shifted and a final rule takes the whole
stack. -/
structure Closes (A : Automaton) (T : Tables) (states : List Nat) (symbol target rule : Nat) :
    Prop where
  shifts : T.choice (states.headD 0) symbol = .shift target
  entered : A.accessing target = symbol
  other : target ≠ T.final
  default : T.isDefault target = true
  reduces : T.defaultDecision target = .reduce rule
  final : rule ∈ A.finals
  length : T.length rule = states.length + 1
  spelled : (target :: states).map A.accessing = (A.right rule).reverse

/-- The call returns with an answer and has read all tokens. -/
def Answered (next : Next Token Value Out ε) : Prop :=
  ∃ status out, next = .stop (.returned status (some out) [])

/-- A final rule that takes the whole stack ends the call. -/
theorem answered_of_closes {rule : Nat}
    (closes : Closes A P.tables states (P.symbol token) target rule)
    (stands : types.Stands (target :: states) [] status c) :
    ∃ fuel, Answered (P.run fuel c) := by
  have top : topState c.stack = target := stands.top
  have drained : c.input = [] := (List.append_eq_nil_iff.1 stands.pending).2
  have height := stands.length_eq
  have step := P.step_default (top ▸ closes.default) (top ▸ closes.reduces)
  have values := stands.popped c.stack.length
  rw [height, List.take_length, closes.spelled, List.reverse_reverse, ← height] at values
  refine ⟨1, ?_⟩
  rw [run, step, Parser.reduce, closes.length]
  rw [List.length_cons] at height
  rw [if_neg (by omega), ← height]
  rcases types.final rule closes.final _ values with ⟨out, accepts | aborts⟩
  · exact ⟨0, out, by rw [accepts, reduced, drained]⟩
  · exact ⟨1, out, by rw [aborts, reduced, drained]⟩

/-- The end of a line ends the call. -/
theorem climbs_end {rule : Nat} (stands : types.Stands states [token] status c)
    (closes : Closes A P.tables states (P.symbol token) target rule) :
    P.Climbs c (states.length + 1) Answered :=
  (climbs_shift stands closes.shifts closes.entered closes.other).then fun _ shifted =>
    answered_of_closes closes shifted.1

/-- The first error of a line ends the call once the line is read. -/
theorem climbs_recovery (valid : A.Valid P.tables)
    (terminal : ∀ token, P.symbol token ∈ A.terminals)
    {left : List Token} {last : Token} {rule : Nat}
    (inner : ∀ token ∈ left, P.symbol token ∉ A.ends) (line : token :: rest = left ++ [last])
    (stands : types.Stands states (token :: rest) 0 c)
    (none : ∀ state ∈ states, P.tables.shiftsError state = none)
    (looks : P.tables.isDefault (states.headD 0) = false)
    (errs : P.tables.choice (states.headD 0) (P.symbol token) = .error)
    (closes : Closes A P.tables [A.errorState] (P.symbol last) target rule) :
    P.Climbs c 2 Answered := by
  have recovers : ∀ c', types.Stands [A.errorState] (token :: rest) 3 c' →
      P.Climbs c' 2 Answered := by
    intro c' stands'
    rw [line] at stands'
    rcases goes_to_end valid terminal inner stands' with ⟨c'', goes, ends⟩
    exact goes.climbs (climbs_end ends closes)
  exact (climbs_error valid stands none looks errs).bind recovers

end Parser

end QuashLabs.Bison
