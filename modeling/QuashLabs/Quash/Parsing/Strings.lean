import QuashLabs.Quash.Deque.Runs

/-!
# Interpreting string tokens

`interpret_complex_string_token` removes escapes and single quotes from the
text of a token and puts in the values of environment variables. A C string is
the list of its characters before the terminator. The string builder is a
deque of characters, taken here at its meaning on lists.
-/

namespace QuashLabs.Quash.Parsing

open QuashLabs.Checked

/-- `str[i]` of a C string. -/
def charAt (str : List Char) (i : Nat) : Except Failure Char :=
  if i < str.length then .ok (str.getD i '\x00')
  else if i = str.length then .ok '\x00'
  else .error .outOfBounds

/-- The environment the shell was started with: its values are C strings that an
`int` can index. -/
structure Environment where
  lookup : List Char → Option (List Char)
  short : ∀ {name value}, lookup name = some value → value.length < 2 ^ 31
  noTerminator : ∀ {name value}, lookup name = some value → '\x00' ∉ value

/-- The environment in which `A` is `x`. -/
def environmentA : Environment where
  lookup name := if name = ['A'] then some ['x'] else none
  short := by
    intro name value found
    obtain ⟨-, ⟨⟩⟩ := Option.ite_none_right_eq_some.1 found
    decide
  noTerminator := by
    intro name value found
    obtain ⟨-, ⟨⟩⟩ := Option.ite_none_right_eq_some.1 found
    decide

/-- An operation on a string builder. -/
def onBuilder (op : Deque.Op Char Unit) (bld : List Char) : Except Failure (List Char) :=
  (fun result => result.2.1) <$> Deque.execList op (bld, ())

/-- `__is_first_identifier_char`. -/
def isFirstIdentifierChar (c : Char) : Bool := c.isAlpha || c == '_'

/-- `__is_identifier_char`. -/
def isIdentifierChar (c : Char) : Bool := c.isAlphanum || c == '_'

/-- The identifier that the loop of `__interpret_deref` collects behind `str[idx]`. -/
def identifierAfter (str : List Char) (idx : Nat) : List Char :=
  (str.drop (idx + 1)).takeWhile isIdentifierChar

/-- The loop that appends the value of a variable. -/
def appendValue (value bld : List Char) : Except Failure (List Char) :=
  value.foldlM (fun bld c => onBuilder (.pushBack c) bld) bld

/-- `assert(peek_back(bld) == '$')`. -/
def assertDereference (bld : List Char) : Except Failure Unit :=
  if bld.getLast? = some '$' then .ok () else .error .assertion

/-- `__interpret_deref`: the builder and `*idx` afterwards. -/
def interpretDeref (env : Environment) (str : List Char) (idx : Nat) (bld : List Char) :
    Except Failure (List Char × Nat) := do
  let c ← charAt str idx
  if c ≠ '$' then .error .assertion
  assertDereference bld
  let bld ← onBuilder .popBack bld
  let id := identifierAfter str idx
  -- The index runs to the first character behind the identifier and back by one.
  let stop ← incInt (idx + id.length)
  let bld ← appendValue ((env.lookup id).getD []) bld
  return (bld, stop - 1)

/-- The characters that lose a backslash before them outside quotes. -/
def escapable : List Char := ['\\', '\'', '#', '$', '=', '&', '|', ';', ' ', '\t']

/-- The variables of the loop: the builder, `i` and `in_quotes`. -/
structure Scan where
  bld : List Char
  i : Nat
  inQuotes : Bool
  deriving Repr, DecidableEq

/-- The case for a backslash. -/
def scanBackslash (str : List Char) (st : Scan) : Except Failure Scan := do
  if st.inQuotes = false then
    let next ← charAt str (st.i + 1)
    if next ∈ escapable then
      let i ← incInt st.i
      let bld ← onBuilder (.updateBack next) st.bld
      return { st with bld := bld, i := i }
    else if next = '\n' then
      let bld ← onBuilder .popBack st.bld
      let i ← incInt st.i
      return { st with bld := bld, i := i }
    else return st
  else
    let next ← charAt str (st.i + 1)
    if next = '\'' then
      let bld ← onBuilder (.updateBack '\'') st.bld
      let i ← incInt st.i
      return { st with bld := bld, i := i }
    else return st

/-- The case for a single quote. -/
def scanQuote (st : Scan) : Except Failure Scan := do
  let bld ← onBuilder .popBack st.bld
  return { st with bld := bld, inQuotes := !st.inQuotes }

/-- The case for a dollar sign. -/
def scanDollar (env : Environment) (str : List Char) (st : Scan) : Except Failure Scan := do
  if st.inQuotes = false then
    let next ← charAt str (st.i + 1)
    if isFirstIdentifierChar next then
      let (bld, i) ← interpretDeref env str st.i st.bld
      return { st with bld := bld, i := i }
    else return st
  else return st

/-- The body of the loop. -/
def scanBody (env : Environment) (str : List Char) (st : Scan) : Except Failure Scan := do
  let c ← charAt str st.i
  let bld ← onBuilder (.pushBack c) st.bld
  let st := { st with bld := bld }
  if c = '\\' then scanBackslash str st
  else if c = '\'' then scanQuote st
  else if c = '$' then scanDollar env str st
  else return st

/-- The loop `for (i = 0; i <= len; ++i)`, for at most `fuel` rounds. -/
def scanLoop (env : Environment) (str : List Char) (len : Int) :
    Nat → Scan → Except Failure Scan
  | 0, _ => .error .unfinished
  | fuel + 1, st =>
      if (st.i : Int) ≤ len then do
        let st ← scanBody env str st
        let i ← incInt st.i
        scanLoop env str len fuel { st with i := i }
      else .ok st

/-- The scan of `interpret_complex_string_token`. A round never repeats an index,
so the rounds suffice. -/
def scan (env : Environment) (str : List Char) : Except Failure Scan :=
  scanLoop env str (intOfSize str.length) (str.length + 2) ⟨[], 0, false⟩

/-- `interpret_complex_string_token`: the characters of the returned array. -/
def interpretComplexStringToken (env : Environment) (str : List Char) :
    Except Failure (List Char) := do
  let st ← scan env str
  let bld ← onBuilder (.updateBack '\x00') st.bld
  if st.inQuotes then .error .assertion else return bld

end QuashLabs.Quash.Parsing
