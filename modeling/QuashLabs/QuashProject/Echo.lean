import Mathlib.Data.List.Forall2
import Mathlib.Data.List.TakeWhile
import QuashLabs.Checked.Outcome
import QuashLabs.QuashProject.Variables

/-!
# The `echo` of `quash.cpp`

The branch takes the quotes out of every word and looks for a `$` in the arguments. It always
takes the name of the variable from the second character on, up to a slash, and appends what
follows the slash to the value where the value stands: the string that `getenv` has returned
is that of the environment.
-/

namespace QuashLabs.QuashProject

open QuashLabs.Checked

/-! ## The branch -/

/-- The two loops that take the quotes out of a word. -/
def dequote (it : List Char) : List Char :=
  it.filter fun c => c != '\'' && c != '"'

/-- `strcat(getenv(subword.c_str()), rest)`: the value of the variable becomes longer. What
stands behind it in memory is overwritten, which is left out here. -/
def strcatValue (env : Variables) (subword rest : List Char) :
    Except Fault (List Char × Variables) :=
  match found : env.lookup subword with
  | some value => .ok (value ++ rest, env.assign subword (env.named found) (value ++ rest))
  | none => .error .nullGetenv

/-- A round of the loop over the arguments: what is printed, and the environment behind it.
The null pointer of `getenv` is a fault here, because `operator<<` requires a string that is
not null; a library may as well set `badbit` and print nothing from then on. -/
def echoArgument (env : Variables) (it : List Char) : Except Fault (List Char × Variables) :=
  if '$' ∈ it then
    let word := it.drop 1
    if '/' ∈ word then
      strcatValue env (word.takeWhile (· != '/')) (word.dropWhile (· != '/'))
    else do
      let value ← getenv env word
      return (value, env)
  else return (it ++ [' '], env)

/-- The loop over the arguments. -/
def echoLoop (env : Variables) : List (List Char) → Except Fault (List (List Char) × Variables)
  | [] => .ok ([], env)
  | it :: rest => do
      let (text, env) ← echoArgument env it
      let (texts, env) ← echoLoop env rest
      return (text :: texts, env)

/-- The arguments that the loop sees. -/
def echoArguments (cmd : List (List Char)) : List (List Char) := (cmd.map dequote).tail

/-- The branch for `echo`: what is printed, and the environment behind it. -/
def echoBranch (env : Variables) (cmd : List (List Char)) :
    Except Fault (List Char × Variables) :=
  if cmd.length = 1 then .ok ([], env)
  else do
    let (texts, env) ← echoLoop env (echoArguments cmd)
    return (texts.flatten ++ ['\n'], env)

/-! ## What it should do -/

/-- For an argument `$NAME/rest` the value of the variable is printed, and what follows the
name. -/
def PrintsPath (env : Variables) (it text : List Char) : Prop :=
  ∀ name rest, '/' ∉ name → it = '$' :: name ++ '/' :: rest →
    ∃ value, env.lookup name = some value ∧ text = value ++ '/' :: rest

/-- The command twice in a row. -/
def echoTwice (env : Variables) (cmd : List (List Char)) :
    Except Fault (List Char × List Char × Variables) := do
  let (first, env) ← echoBranch env cmd
  let (second, env) ← echoBranch env cmd
  return (first, second, env)

/-- The command prints its arguments, and the same again when it is run again, and the
environment is as it was. -/
structure EchoKeeps (env : Variables) (cmd : List (List Char)) : Prop where
  prints : ∃ texts, echoLoop env (echoArguments cmd) = .ok (texts, env) ∧
    List.Forall₂ (PrintsPath env) (echoArguments cmd) texts
  again : ∃ printed, echoTwice env cmd = .ok (printed, printed, env)

/-- An argument with a `$` has no slash behind its first character, and what stands there is
the name of a variable that is set. -/
def EchoSound (env : Variables) (it : List Char) : Prop :=
  '$' ∈ it → '/' ∉ it.drop 1 ∧ (env.lookup (it.drop 1)).isSome = true

instance (env : Variables) (it : List Char) : Decidable (EchoSound env it) :=
  inferInstanceAs (Decidable (_ → _))

variable {env env' env'' : Variables} {it text subword rest value : List Char}
variable {cmd : List (List Char)} {texts : List (List Char)}

/-! ## What the branch does to values -/

theorem strcatValue_of_some (found : env.lookup subword = some value) :
    strcatValue env subword rest =
      .ok (value ++ rest, env.assign subword (env.named found) (value ++ rest)) := by
  rw [strcatValue]
  split
  · rename_i value' found'
    obtain rfl : value = value' := Option.some.inj (found.symm.trans found')
    rfl
  · rename_i none
    rw [found] at none
    cases none

theorem strcatValue_of_none (none : env.lookup subword = none) :
    strcatValue env subword rest = .error .nullGetenv := by
  rw [strcatValue]
  split
  · rename_i value found
    rw [none] at found
    cases found
  · rfl

/-- No variable is lost or new, and every value is the beginning of what it becomes. -/
def Extends (env env' : Variables) : Prop :=
  ∀ name, Option.Rel List.IsPrefix (env.lookup name) (env'.lookup name)

theorem Extends.refl (env : Variables) : Extends env env := by
  intro name
  cases env.lookup name with
  | none => exact .none
  | some value => exact .some List.prefix_rfl

theorem Extends.trans (first : Extends env env') (second : Extends env' env'') :
    Extends env env'' := by
  intro name
  have before := first name
  have behind := second name
  generalize env.lookup name = start at before ⊢
  generalize env'.lookup name = middle at before behind
  generalize env''.lookup name = stop at behind ⊢
  cases before with
  | none => exact behind
  | some here =>
      cases behind with
      | some there => exact .some (here.trans there)

/-- Values that have become longer do not become shorter again. -/
theorem Extends.antisymm (first : Extends env env') (back : Extends env' env) : env' = env := by
  ext1
  funext name
  have before := first name
  have behind := back name
  generalize env.lookup name = start at before behind ⊢
  generalize env'.lookup name = middle at before behind ⊢
  cases before with
  | none => rfl
  | some here =>
      cases behind with
      | some there => rw [here.eq_of_length (here.length_le.antisymm there.length_le)]

theorem strcatValue_extends (runs : strcatValue env subword rest = .ok (text, env')) :
    Extends env env' := by
  cases found : env.lookup subword with
  | none =>
      rw [strcatValue_of_none found] at runs
      cases runs
  | some value =>
      rw [strcatValue_of_some found] at runs
      cases runs
      intro name
      by_cases same : name = subword
      · rw [same, found, Environment.Store.lookup_assign_self]
        exact .some (List.prefix_append value rest)
      · rw [Environment.Store.lookup_assign_of_ne same]
        exact Extends.refl env name

theorem echoArgument_extends (runs : echoArgument env it = .ok (text, env')) :
    Extends env env' := by
  simp only [echoArgument] at runs
  split_ifs at runs
  · exact strcatValue_extends runs
  · rcases bind_eq_ok.mp runs with ⟨value, -, returns⟩
    cases returns
    exact .refl env
  · cases runs
    exact .refl env

/-- A sound argument is printed and nothing is changed. -/
theorem EchoSound.echoArgument (sound : EchoSound env it) :
    ∃ text, QuashProject.echoArgument env it = .ok (text, env) := by
  simp only [QuashProject.echoArgument]
  split_ifs with dollar slash
  · exact absurd slash (sound dollar).1
  · rcases getenv_returns_iff.mpr (sound dollar).2 with ⟨value, returns⟩
    exact ⟨value, by rw [returns]; rfl⟩
  · exact ⟨_, rfl⟩

/-- An argument that is printed without a change is sound: behind a slash stands something, and
the value becomes longer by it. -/
theorem echoSound_of_echoArgument (runs : echoArgument env it = .ok (text, env)) :
    EchoSound env it := by
  intro dollar
  simp only [echoArgument, if_pos dollar] at runs
  split_ifs at runs with slash
  · cases found : env.lookup ((it.drop 1).takeWhile (· != '/')) with
    | none =>
        rw [strcatValue_of_none found] at runs
        cases runs
    | some value =>
        rw [strcatValue_of_some found] at runs
        have unchanged := congrArg Prod.snd (Except.ok.inj runs)
        rw [Environment.Store.assign_eq_self_iff, found, Option.some.injEq,
          List.self_eq_append_right, List.dropWhile_eq_nil_iff] at unchanged
        simpa using unchanged '/' slash
  · rcases bind_eq_ok.mp runs with ⟨value, returns, -⟩
    exact ⟨slash, getenv_returns_iff.mp ⟨value, returns⟩⟩

/-! ## All arguments -/

/-- The loop runs when its first round does, and then its other rounds. -/
theorem echoLoop_cons_eq_ok {its : List (List Char)} :
    echoLoop env (it :: its) = .ok (texts, env'') ↔
      ∃ text env' others, echoArgument env it = .ok (text, env') ∧
        echoLoop env' its = .ok (others, env'') ∧ texts = text :: others := by
  simp only [echoLoop, bind_eq_ok, pure_eq_ok, Except.ok.injEq, Prod.mk.injEq]
  constructor
  · rintro ⟨⟨text, env'⟩, first, ⟨others, last⟩, later, rfl, rfl⟩
    exact ⟨text, env', others, first, later, rfl⟩
  · rintro ⟨text, env', others, first, later, rfl⟩
    exact ⟨⟨text, env'⟩, first, ⟨others, env''⟩, later, rfl, rfl⟩

theorem echoLoop_extends {its : List (List Char)} (runs : echoLoop env its = .ok (texts, env')) :
    Extends env env' := by
  induction its generalizing env texts with
  | nil =>
      cases runs
      exact .refl _
  | cons it rest ih =>
      rcases echoLoop_cons_eq_ok.mp runs with ⟨text, middle, others, first, later, -⟩
      exact (echoArgument_extends first).trans (ih later)

/-- A sound argument is no path behind a variable. -/
theorem EchoSound.printsPath (sound : EchoSound env it) (text : List Char) :
    PrintsPath env it text := by
  rintro name rest - rfl
  have slash := (sound (by simp)).1
  simp at slash

/-- Sound arguments are printed as they should be. -/
theorem echoLoop_of_sound {its : List (List Char)} (sound : ∀ it ∈ its, EchoSound env it) :
    ∃ texts, echoLoop env its = .ok (texts, env) ∧ List.Forall₂ (PrintsPath env) its texts := by
  induction its with
  | nil => exact ⟨[], rfl, .nil⟩
  | cons it rest ih =>
      have soundHere := sound it List.mem_cons_self
      rcases soundHere.echoArgument with ⟨text, first⟩
      rcases ih fun it member => sound it (List.mem_cons_of_mem _ member) with
        ⟨texts, later, printed⟩
      refine ⟨text :: texts, ?_, .cons (soundHere.printsPath text) printed⟩
      exact echoLoop_cons_eq_ok.mpr ⟨text, env, texts, first, later, rfl⟩

/-- Where the environment is in the end as it was, no argument has changed it. -/
theorem sound_of_echoLoop {its : List (List Char)} (runs : echoLoop env its = .ok (texts, env)) :
    ∀ it ∈ its, EchoSound env it := by
  induction its generalizing texts with
  | nil => exact nofun
  | cons it rest ih =>
      rcases echoLoop_cons_eq_ok.mp runs with ⟨text, middle, others, first, later, -⟩
      obtain rfl : middle = env :=
        (echoArgument_extends first).antisymm (echoLoop_extends later)
      intro it' member
      rcases List.mem_cons.mp member with rfl | member
      · exact echoSound_of_echoArgument first
      · exact ih later it' member

/-- The branch keeps the environment and prints what it should exactly when every argument is
sound. -/
theorem echoKeeps_iff (env : Variables) (cmd : List (List Char)) :
    EchoKeeps env cmd ↔ ∀ it ∈ echoArguments cmd, EchoSound env it := by
  constructor
  · intro keeps
    rcases keeps.prints with ⟨texts, runs, -⟩
    exact sound_of_echoLoop runs
  · intro sound
    rcases echoLoop_of_sound sound with ⟨texts, runs, printed⟩
    have once : ∃ printed, echoBranch env cmd = .ok (printed, env) := by
      rw [echoBranch, runs]
      split
      · exact ⟨[], rfl⟩
      · exact ⟨_, rfl⟩
    constructor
    · exact ⟨texts, runs, printed⟩
    · rcases once with ⟨text, runs⟩
      exact ⟨text, by simp [echoTwice, runs]⟩

/-- Where `A` is `x` and nothing else is set. -/
def variablesA : Variables := Environment.Store.empty.assign ['A'] (by decide) ['x']

/-- `echo $A/b` changes `A`. -/
theorem echoKeeps_fails : ¬EchoKeeps variablesA ["echo".toList, "$A/b".toList] := by
  intro keeps
  rcases keeps.prints with ⟨texts, runs, -⟩
  have sound := sound_of_echoLoop runs "$A/b".toList (by decide)
  revert sound
  decide

end QuashLabs.QuashProject
