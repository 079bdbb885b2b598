import QuashLabs.Quash.Parsing.Command

/-!
# The text of a script

`parse` sets `state->parsed_str` from the command array: a first pass pushes the words
of the commands on a deque of strings with `NULL` behind them, and a second pass joins
the strings up to the first `NULL` in one buffer. The buffer is modelled by its
characters, which are `none` until they are written. The strings of a script do not
share memory, so the sum of their sizes is a `size_t`.
-/

namespace QuashLabs.Quash.Parsing

open QuashLabs.Checked

/-! ## From commands to strings -/

/-- The strings of a `CmdStrs`. -/
abbrev CmdStrs := List (Option CStr)

/-- `push_back_CmdStrs(strs, memory_pool_strdup(str))`. -/
def pushDup (str : String) (strs : CmdStrs) : Except Failure CmdStrs := do
  let copy ← memoryPoolStrdup (some str.toList)
  pushBack (some copy) strs

/-- The loop `for (size_t i = 0; cmd.args[i] != NULL; ++i)`. -/
def pushArgs : List (Option CStr) → CmdStrs → Except Failure CmdStrs
  | [], _ => .error .outOfBounds
  | none :: _, strs => .ok strs
  | some arg :: args, strs => do
      let strs ← pushBack (some arg) strs
      pushArgs args strs

/-- `__stringify_generic_cmd`. -/
def stringifyGenericCmd (args : List (Option CStr)) (strs : CmdStrs) : Except Failure CmdStrs :=
  pushArgs args strs

/-- `__stringify_echo_cmd`. -/
def stringifyEchoCmd (args : List (Option CStr)) (strs : CmdStrs) : Except Failure CmdStrs := do
  let strs ← pushDup "echo" strs
  pushArgs args strs

/-- `__stringify_export_cmd`. -/
def stringifyExportCmd (envVar val : CStr) (strs : CmdStrs) : Except Failure CmdStrs := do
  let strs ← pushDup "export" strs
  let strs ← pushBack (some envVar) strs
  pushBack (some val) strs

/-- `__stringify_cd_cmd`. -/
def stringifyCdCmd (dir : Option CStr) (strs : CmdStrs) : Except Failure CmdStrs := do
  let strs ← pushDup "cd" strs
  pushBack dir strs

/-- `__stringify_kill_cmd`. -/
def stringifyKillCmd (sigStr jobStr : CStr) (strs : CmdStrs) : Except Failure CmdStrs := do
  let strs ← pushDup "kill" strs
  let strs ← pushBack (some sigStr) strs
  pushBack (some jobStr) strs

/-- `__stringify_simple_cmd`. -/
def stringifySimpleCmd (str : String) (strs : CmdStrs) : Except Failure CmdStrs := pushDup str strs

/-- `__stringify_command`. Members of the union that were not written are not read. -/
def stringifyCommand (cmd : Command) (strs : CmdStrs) : Except Failure CmdStrs :=
  match getCommandType cmd, cmd with
  | .generic, .generic _ args => stringifyGenericCmd args strs
  | .echo, .generic _ args => stringifyEchoCmd args strs
  | .export_, .export_ envVar val => stringifyExportCmd envVar val strs
  | .cd, .cd dir => stringifyCdCmd dir strs
  | .kill, .kill _ _ sigStr jobStr => stringifyKillCmd sigStr jobStr strs
  | .pwd, _ => stringifySimpleCmd "PWD" strs
  | .jobs, _ => stringifySimpleCmd "JOBS" strs
  | .exit, _ => stringifySimpleCmd "EXIT" strs
  | .eoc, _ => .ok strs
  | _, _ => .error .uninitialised

/-- `__stringify_holder`. -/
def stringifyHolder (holder : CommandHolder) (strs : CmdStrs) : Except Failure CmdStrs := do
  let strs ← stringifyCommand holder.cmd strs
  let strs ←
    if holder.has Flags.redirectIn then do
      let strs ← pushDup "<" strs
      pushBack holder.redirectIn strs
    else pure strs
  let strs ←
    if holder.has Flags.redirectAppend then pushDup ">>" strs
    else if holder.has Flags.redirectOut then pushDup ">" strs
    else pure strs
  let strs ←
    if holder.has Flags.redirectOut then pushBack holder.redirectOut strs else pure strs
  if holder.has Flags.pipeOut then pushDup "|" strs else return strs

/-- The loop over the entries before the one for the end. -/
def stringifyHolders : List CommandHolder → CmdStrs → Except Failure CmdStrs
  | [], _ => .error .outOfBounds
  | holder :: holders, strs =>
      if getCommandHolderType holder = .eoc then .ok strs
      else do
        let strs ← stringifyHolder holder strs
        stringifyHolders holders strs

/-- `__stringify_script` for an array that is not `NULL`. -/
def stringifyScript (holders : List CommandHolder) (strs : CmdStrs) : Except Failure CmdStrs := do
  let strs ← stringifyHolders holders strs
  match holders with
  | [] => .error .outOfBounds
  | first :: _ =>
      let strs ← if first.has Flags.background then pushDup "&" strs else pure strs
      pushBack none strs

/-! ## From strings to one string -/

/-- The characters of a buffer. -/
abbrev Buffer := List (Option Char)

/-- `buffer[pos] = c`. -/
def storeAt (buffer : Buffer) (pos : Nat) (c : Char) : Except Failure Buffer :=
  if pos < buffer.length then .ok (buffer.set pos (some c)) else .error .outOfBounds

/-- `strcpy(buffer + pos, str)`, which copies the terminator too. -/
def strcpy : CStr → Nat → Buffer → Except Failure Buffer
  | [], pos, buffer => storeAt buffer pos '\x00'
  | c :: str, pos, buffer => do
      let buffer ← storeAt buffer pos c
      strcpy str (pos + 1) buffer

/-- The first loop of `__condense_string_array`: the queue of the sizes and their sum. -/
def measureLoop : List (Option CStr) → List Nat → Nat → Except Failure (List Nat × Nat)
  | [], _, _ => .error .outOfBounds
  | none :: _, ss, len => .ok (ss, len)
  | some str :: strs, ss, len => do
      let size := str.length + 1
      let ss ← pushBack size ss
      measureLoop strs ss (len + size)

/-- The second loop of `__condense_string_array`: the buffer and `pos`. -/
def copyStrings : List (Option CStr) → List Nat → Nat → Buffer → Except Failure (Buffer × Nat)
  | [], _, _, _ => .error .outOfBounds
  | none :: _, _, pos, ret => .ok (ret, pos)
  | some str :: strs, ss, pos, ret => do
      let ret ← strcpy str pos ret
      let (size, ss) ← popFront ss
      let pos := pos + size
      let ret ← storeAt ret (pos - 1) ' '
      copyStrings strs ss pos ret

/-- `__condense_string_array`. -/
def condenseStringArray (strArr : List (Option CStr)) : Except Failure Buffer := do
  let (ss, len) ← measureLoop strArr [] 0
  let (ret, pos) ← copyStrings strArr ss 0 (List.replicate (len + 1) none)
  storeAt ret pos '\x00'

/-- `parse` behind `yyparse`: `state->parsed_str` before and after. -/
def parse (holders : Option (List CommandHolder)) (parsedStr : Option Buffer) :
    Except Failure (Option Buffer) :=
  match holders with
  | none => .ok parsedStr
  | some holders => do
      let strs ← stringifyScript holders []
      let ret ← condenseStringArray strs
      return some ret

/-! ## Joining -/

/-- Words, each followed by a space. -/
def render (words : List CStr) : List Char := words.flatMap fun word => word ++ [' ']

@[simp]
theorem render_nil : render [] = [] := rfl

@[simp]
theorem render_cons (word : CStr) (words : List CStr) :
    render (word :: words) = word ++ ' ' :: render words := by
  simp [render]

@[simp]
theorem render_append (words more : List CStr) :
    render (words ++ more) = render words ++ render more := List.flatMap_append

theorem storeAt_append (done : Buffer) (old : Option Char) (rest : Buffer) (c : Char) :
    storeAt (done ++ old :: rest) done.length c = .ok (done ++ some c :: rest) := by
  simp [storeAt]

/-- Copying a string writes its characters and the terminator. -/
theorem strcpy_append (str : CStr) (done old rest : Buffer) (room : old.length = str.length + 1) :
    strcpy str done.length (done ++ old ++ rest) =
      .ok (done ++ str.map some ++ some '\x00' :: rest) := by
  induction str generalizing done old with
  | nil =>
      obtain ⟨slot, rfl⟩ := List.length_eq_one_iff.1 room
      simpa [strcpy] using storeAt_append done slot rest '\x00'
  | cons c str ih =>
      obtain ⟨slot, old, rfl⟩ := List.exists_cons_of_length_eq_add_one room
      have next := ih (done ++ [some c]) old (by simpa using room)
      have stored := storeAt_append done slot (old ++ rest) c
      rw [strcpy, List.append_assoc, List.cons_append, stored, ok_bind]
      simpa using next

/-- The first loop sums the sizes of the strings before the first `NULL`. -/
theorem measureLoop_eq (words : List CStr) (more : List (Option CStr)) (ss : List Nat) (len : Nat) :
    measureLoop (words.map some ++ none :: more) ss len =
      .ok (ss ++ words.map fun word => word.length + 1, len + (render words).length) := by
  induction words generalizing ss len with
  | nil => simp [measureLoop]
  | cons word words ih =>
      simp [measureLoop, ih]
      omega

/-- The second loop renders the strings before the first `NULL`. -/
theorem copyStrings_eq (words : List CStr) (more : List (Option CStr)) (done old rest : Buffer)
    (room : old.length = (render words).length) :
    copyStrings (words.map some ++ none :: more) (words.map fun word => word.length + 1)
        done.length (done ++ old ++ rest) =
      .ok (done ++ (render words).map some ++ rest, done.length + (render words).length) := by
  induction words generalizing done old with
  | nil =>
      obtain rfl : old = [] := by simpa using room
      simp [copyStrings]
  | cons word words ih =>
      obtain ⟨here, later, rfl, length⟩ : ∃ here later, old = here ++ later ∧
          here.length = word.length + 1 :=
        ⟨old.take (word.length + 1), old.drop (word.length + 1),
          (List.take_append_drop _ old).symm, by simp at room ⊢; omega⟩
      have copied := strcpy_append word done here (later ++ rest) length
      have spaced := storeAt_append (done ++ word.map some) (some '\x00') (later ++ rest) ' '
      have next := ih (done ++ word.map some ++ [some ' ']) later (by simp at room; omega)
      have last : done.length + (word.length + 1) - 1 = (done ++ word.map some).length := by simp
      have behind : done.length + (word.length + 1) =
          (done ++ word.map some ++ [some ' ']).length := by
        simp
      have ends : done.length + (render (word :: words)).length =
          (done ++ word.map some ++ [some ' ']).length + (render words).length := by
        simp
        omega
      rw [← List.append_assoc, List.append_assoc (done ++ here), List.map_cons, List.cons_append,
        copyStrings, copied, ok_bind, List.map_cons, popFront_cons]
      simp only [ok_bind]
      rw [last, spaced, ok_bind, behind, ends]
      simpa using next

/-- The buffer holds the strings before the first `NULL`, each followed by a space. -/
theorem condenseStringArray_eq (words : List CStr) (more : List (Option CStr)) :
    condenseStringArray (words.map some ++ none :: more) =
      .ok ((render words ++ ['\x00']).map some) := by
  have copied := copyStrings_eq words more [] (List.replicate (render words).length none) [none]
    (by simp)
  have stored := storeAt_append ((render words).map some) none [] '\x00'
  rw [List.length_map] at stored
  simp only [List.nil_append, List.length_nil, Nat.zero_add] at copied
  simp only [condenseStringArray, measureLoop_eq, ok_bind, List.nil_append, Nat.zero_add,
    List.replicate_succ', copied, stored]
  simp

end QuashLabs.Quash.Parsing
