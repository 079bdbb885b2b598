import QuashLabs.Quash.Parsing.Entries

/-!
# The arrays of arguments

The rules for the words of a command push them to the front of a deque, from the last
one to the first, behind which stands `NULL`. The deque starts with room for nothing and
grows with the words; the array that it is turned into is what the command keeps.
-/

namespace QuashLabs.Quash.Parsing

open QuashLabs.Checked

variable {world : World} {M : Type} {mem : Allocation M} {m : M}

/-! ## The deque -/

/-- The deque of a word and the words behind it: `new_CmdStrs(1)` with a push at each end
for the last word, one more push to the front for every other. -/
def argsDeque (mem : Allocation M) (str : CStr) :
    List CStr → M → Except Failure (Deque (Option CStr) M × M)
  | [], m => do
      let (args, m) ← Deque.new mem 1 m
      let (args, m) ← args.pushFront mem (some str) m
      args.pushBack mem none m
  | next :: later, m => do
      let (args, m) ← argsDeque mem next later m
      args.pushFront mem (some str) m

/-- The array of the deque, by `as_array_CmdStrs`. -/
def argsArray (mem : Allocation M) (str : CStr) (strs : List CStr) (m : M) :
    Except Failure (Block (Option CStr)) := do
  let (args, m) ← argsDeque mem str strs m
  let ((array, _), _) ← args.asArray mem false m
  return array

theorem fits_of_le {cap cap' : Nat} (fits : mem.Fits cap') (le : cap ≤ cap') : mem.Fits cap := by
  constructor
  · exact Nat.lt_of_le_of_lt le fits.small
  · exact Nat.lt_of_le_of_lt (Nat.mul_le_mul_right _ le) fits.bytes

/-- The deque holds the items with at most twice the capacity that they need. -/
def HoldsArgs (mem : Allocation M) (items : List (Option CStr))
    (made : Deque (Option CStr) M × M) : Prop :=
  (∃ block, made.1.Represents mem block items) ∧ made.1.cap ≤ 2 * (items.length + 1)

/-- A push keeps the capacity in bounds. -/
theorem pushCap_le {made : Deque (Option CStr) M × M} {items : List (Option CStr)}
    (holds : HoldsArgs mem items made) : made.1.pushCap ≤ 2 * (items.length + 2) := by
  rcases holds with ⟨⟨block, rep⟩, bound⟩
  rw [Deque.pushCap_eq rep]
  split <;> omega

theorem holds_pushFront {made : Deque (Option CStr) M × M} {items : List (Option CStr)}
    (holds : HoldsArgs mem items made) (fits : mem.Fits (2 * (items.length + 2)))
    (element : Option CStr) :
    Ends (HoldsArgs mem (element :: items)) Failure.OutOfMemory
      (made.1.pushFront mem element made.2) := by
  have bound := pushCap_le holds
  rcases holds with ⟨⟨block, rep⟩, -⟩
  apply (Deque.pushFront_ends rep (fits_of_le fits bound) element made.2).mono
  · rintro after - ⟨⟨block', rep', -⟩, cap⟩
    exact ⟨⟨block', rep'⟩, cap ▸ bound⟩
  · exact fun _ stops => stops

theorem holds_pushBack {made : Deque (Option CStr) M × M} {items : List (Option CStr)}
    (holds : HoldsArgs mem items made) (fits : mem.Fits (2 * (items.length + 2)))
    (element : Option CStr) :
    Ends (HoldsArgs mem (items ++ [element])) Failure.OutOfMemory
      (made.1.pushBack mem element made.2) := by
  have bound := pushCap_le holds
  rcases holds with ⟨⟨block, rep⟩, -⟩
  apply (Deque.pushBack_ends rep (fits_of_le fits bound) element made.2).mono
  · rintro after - ⟨⟨block', rep', -⟩, cap⟩
    refine ⟨⟨block', rep'⟩, ?_⟩
    rw [cap, List.length_append, List.length_singleton]
    exact bound
  · exact fun _ stops => stops

/-- While memory lasts, the deque holds the words in their order and `NULL` behind them. -/
theorem argsDeque_ends (str : CStr) (strs : List CStr) (fits : mem.Fits (2 * (strs.length + 3)))
    (m : M) :
    Ends (HoldsArgs mem ((str :: strs).map some ++ [none])) Failure.OutOfMemory
      (argsDeque mem str strs m) := by
  induction strs generalizing str m with
  | nil =>
      have fits : mem.Fits 6 := fits
      have made : Ends (HoldsArgs mem []) Failure.OutOfMemory (Deque.new mem 1 m) := by
        apply (Deque.new_ends (Deque.fits_one mem) m).mono
        · rintro empty - ⟨block, rep, cap, -⟩
          exact ⟨⟨block, rep⟩, by simp [cap]⟩
        · exact fun _ stops => stops
      apply made.bind
      intro empty holds
      apply (holds_pushFront holds (fits_of_le fits (by simp)) (some str)).bind
      intro one holds
      exact holds_pushBack holds fits none
  | cons next later ih =>
      rw [List.length_cons] at fits
      apply (ih next (fits_of_le fits (by omega)) m).bind
      intro made holds
      apply holds_pushFront holds
      apply fits_of_le fits
      simp only [List.length_append, List.length_map, List.length_cons, List.length_nil]
      omega

/-- While memory lasts, the array holds the words in their order and `NULL` behind them. -/
theorem argsArray_ends (str : CStr) (strs : List CStr) (fits : mem.Fits (2 * (strs.length + 3)))
    (m : M) :
    Ends (fun array => array.slots.take (strs.length + 2) =
        ((str :: strs).map some ++ [none]).map some)
      Failure.OutOfMemory (argsArray mem str strs m) := by
  apply (argsDeque_ends str strs fits m).bind
  rintro ⟨args, m'⟩ ⟨⟨block, rep⟩, -⟩
  apply (Deque.asArray_ends rep false m').bind
  rintro ⟨⟨array, len⟩, args', m''⟩ ⟨elements, -⟩
  simpa using elements

/-! ## The array of a command -/

/-- The type of a command with an array, and the words that go into it. -/
def Content.listed : Content → Option (CommandType × List Word)
  | .command first args => some (.generic, .first first :: args)
  | .echo args => some (.echo, args)
  | _ => none

/-- The values of words. -/
def Values (world : World) (words : List Word) (strs : List CStr) : Prop :=
  List.Forall₂ (fun word str => word.eval world = .ok str) words strs

/-- The actions put the values of the words in front of `NULL`. -/
theorem evalArgs_values (args : List Word) {array : List (Option CStr)}
    (evaluates : evalArgs world args = .ok array) :
    ∃ strs : List CStr, Values world args strs ∧ array = strs.map some ++ [none] := by
  induction args generalizing array with
  | nil =>
      obtain rfl := Except.ok.inj evaluates
      exact ⟨[], .nil, rfl⟩
  | cons word args ih =>
      rw [evalArgs_cons] at evaluates
      rcases bind_eq_ok.1 evaluates with ⟨str, value, evaluates⟩
      rcases bind_eq_ok.1 evaluates with ⟨later, behind, evaluates⟩
      rcases ih behind with ⟨strs, values, rfl⟩
      obtain rfl := Except.ok.inj evaluates
      exact ⟨str :: strs, .cons value values, rfl⟩

theorem eval_listed {content : Content} {cmd : Command} {type : CommandType} {words : List Word}
    (evaluates : content.eval world = .ok cmd) (listed : content.listed = some (type, words)) :
    ∃ strs : List CStr, Values world words strs ∧
      cmd = .generic type (strs.map some ++ [none]) := by
  cases content with
  | command first args =>
      obtain ⟨rfl, rfl⟩ := Prod.mk.inj (Option.some.inj listed)
      rcases bind_eq_ok.1 evaluates with ⟨array, command, evaluates⟩
      rcases evalArgs_values (.first first :: args) command with ⟨strs, values, rfl⟩
      obtain rfl := Except.ok.inj evaluates
      exact ⟨strs, values, rfl⟩
  | echo args =>
      obtain ⟨rfl, rfl⟩ := Prod.mk.inj (Option.some.inj listed)
      rcases bind_eq_ok.1 evaluates with ⟨array, behind, evaluates⟩
      rcases evalArgs_values args behind with ⟨strs, values, rfl⟩
      obtain rfl := Except.ok.inj evaluates
      exact ⟨strs, values, rfl⟩
  | exportVar | cdAlone | cd | pwd | jobs | exit | kill => cases listed

/-- The array of an accepted command that is not a builtin, or is `echo`, consists of the
values of the words in their order, without the leading `echo`, and one `NULL` behind
them. The deque of the words, of whatever length, gives this array unless memory runs
out. -/
theorem args_of_accepted (world : World) {pipeline : Pipeline} {line : Line}
    (body : line.body = pipeline.tokens) (rest : List Token) {answer : Answer} {left : List Token}
    (returns : Returns world (line.tokens ++ rest) answer left) {i : Nat} {stage : Stage}
    (atStage : pipeline.stages[i]? = some stage) {type : CommandType} {words : List Word}
    (listed : stage.content.listed = some (type, words)) :
    ∃ entries entry strs, answer.retCmds = some entries ∧ entries[i]? = some entry ∧
      Values world words strs ∧ entry.cmd = .generic type (strs.map some ++ [none]) ∧
      ∀ str strs', strs = str :: strs' →
        ∀ {M : Type} (mem : Allocation M) (m : M), mem.Fits (2 * (strs.length + 2)) →
          Ends (fun array => array.slots.take (strs.length + 1) =
              (strs.map some ++ [none]).map some)
            Failure.OutOfMemory (argsArray mem str strs' m) := by
  rcases commands_of_returns body returns with ⟨-, cmds, evaluates, rfl⟩
  rcases pipeline_entries evaluates with ⟨length, entries⟩
  have inside : i < cmds.length := by
    rw [length]
    exact (List.getElem?_eq_some_iff.1 atStage).1
  have atEntry : cmds[i]? = some cmds[i] := List.getElem?_eq_getElem inside
  rcases eval_listed (entries i stage _ atStage atEntry).cmd listed with ⟨strs, values, cmd⟩
  refine ⟨cmds ++ [eocHolder], cmds[i], strs, rfl, ?_, values, cmd, ?_⟩
  · rw [List.getElem?_append_left inside, atEntry]
  · rintro str strs' rfl M mem m fits
    exact argsArray_ends str strs' fits m

/-- The commands `echo a export 7` and `sort jobs 'b c' d > z`. -/
def severalWords : Pipeline :=
  ⟨⟨.echo [.first (.id ['a']), .exportTok, .first (.num ['7'])], [], false⟩,
    [⟨.command (.id "sort".toList) [.jobsTok, .first (.str "'b c'".toList), .first (.id ['d'])],
      [(.redirOut, .first (.simStr ['z']))], false⟩]⟩

/-- The line of this pipeline. -/
def severalWordsLine : Line := .ended severalWords.tokens (by decide)

theorem args_of_accepted_several :
    ∃ answer left, Returns plainWorld (severalWordsLine.tokens ++ [.endTok]) answer left ∧
      ∃ entries entry strs, answer.retCmds = some entries ∧ entries[1]? = some entry ∧
        Values plainWorld [.first (.id "sort".toList), .jobsTok, .first (.str "'b c'".toList),
          .first (.id ['d'])] strs ∧
        entry.cmd = .generic .generic (strs.map some ++ [none]) ∧
        ∀ str strs', strs = str :: strs' →
          ∀ {M : Type} (mem : Allocation M) (m : M), mem.Fits (2 * (strs.length + 2)) →
            Ends (fun array => array.slots.take (strs.length + 1) =
                (strs.map some ++ [none]).map some)
              Failure.OutOfMemory (argsArray mem str strs' m) := by
  have returns : Returns plainWorld (severalWordsLine.tokens ++ [.endTok]) _ [.endTok] :=
    ⟨100, 0, rfl⟩
  have body : severalWordsLine.body = severalWords.tokens := rfl
  exact ⟨_, _, returns, args_of_accepted plainWorld body [.endTok] returns rfl rfl⟩

end QuashLabs.Quash.Parsing
