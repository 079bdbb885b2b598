import QuashLabs.Environment.Store
import QuashLabs.Quash.Parsing.Command

/-!
# Variables and numbers in `quash.cpp`

The builtins of `execute_commands` take the result of `getenv` for a string and that of
`stoi` for a number without looking at it first: a variable that is not set is a null
pointer, and a word that is no number, or too large a one, is an exception that nothing
catches. The characters of a word and of a value are none of them null.
-/

namespace QuashLabs.QuashProject

open QuashLabs.Quash.Parsing (isSpace strtol)

/-- A name that `setenv` accepts. -/
def IsVariable (name : List Char) : Prop := name ≠ [] ∧ '=' ∉ name

instance : DecidablePred IsVariable := fun _ => inferInstanceAs (Decidable (_ ∧ _))

/-- The environment of the shell. -/
abbrev Variables := Environment.Store IsVariable (List Char)

/-- The ways in which a builtin ends the shell. -/
inductive Fault
  /-- The null pointer of `getenv` is used as a string. -/
  | nullGetenv
  /-- The null pointer of `getcwd` is used as a string. -/
  | nullGetcwd
  /-- `std::invalid_argument`. -/
  | invalidArgument
  /-- `std::out_of_range`. -/
  | outOfRange
  deriving Repr, DecidableEq

/-- `getenv(name.c_str())` where a string is needed. -/
def getenv (env : Variables) (name : List Char) : Except Fault (List Char) :=
  match env.lookup name with
  | some value => .ok value
  | none => .error .nullGetenv

/-- `setenv(name.c_str(), value.c_str(), 1)`, which fails for a name that is not valid. -/
def setenv (env : Variables) (name value : List Char) : Option Variables :=
  env.assignIfValid name value

/-- What stands behind the blanks and the sign of a numeral. -/
def unsigned (str : List Char) : List Char :=
  match str.dropWhile isSpace with
  | '-' :: digits => digits
  | '+' :: digits => digits
  | digits => digits

/-- `stoi`: a number without digits, or beyond the range of `int`, is an exception. -/
def stoi (str : List Char) : Except Fault Int :=
  if (unsigned str).takeWhile Char.isDigit = [] then .error .invalidArgument
  else if -2 ^ 31 ≤ strtol str ∧ strtol str < 2 ^ 31 then .ok (strtol str)
  else .error .outOfRange

variable {env : Variables} {name value : List Char}

theorem getenv_eq_ok_iff : getenv env name = .ok value ↔ env.lookup name = some value := by
  cases found : env.lookup name with
  | none => simp [getenv, found]
  | some value' => simp [getenv, found]

theorem getenv_returns_iff : (∃ value, getenv env name = .ok value) ↔
    (env.lookup name).isSome = true := by
  simp only [getenv_eq_ok_iff, Option.isSome_iff_exists]

end QuashLabs.QuashProject
