import QuashLabs.QuashProject.CmdParser
import QuashLabs.QuashProject.Echo
import QuashLabs.QuashProject.Execution
import QuashLabs.QuashProject.Export
import QuashLabs.QuashProject.Kill

/-!
# Builtins with arguments that are no good

The branches for `cd`, `echo`, `export` and `kill` change the directory, the environment and
the job list of the shell. A variable that is not set ends the shell in each of them that
takes its value, except in a `cd` without an argument, where the null pointer goes to `chdir`;
a word that is no number ends it in the branch for `kill`.
-/

namespace QuashLabs.QuashProject

open QuashLabs.Checked

/-! ## The branches -/

/-- The calls of the operating system: what `chdir` does with a path, what `getcwd` returns
for a buffer of `MAX_LIMIT` bytes, and whether `kill` succeeds. -/
structure System (Dir : Type) where
  chdir : Dir → List Char → Option Dir
  getcwd : Dir → Option (List Char)
  kill : Int → Int → Bool

/-- The state of the shell. -/
structure Shell (Dir : Type) where
  dir : Dir
  env : Variables
  jobWaitList : List BackgroundJob

/-- What a branch leaves. -/
structure Reply (Dir : Type) where
  shell : Shell Dir
  printed : List Char
  sent : List (Int × Int)
  reported : Bool

variable {Dir : Type}

/-- A branch that prints nothing. -/
def Shell.reply (shell : Shell Dir) (reported : Bool) : Reply Dir := ⟨shell, [], [], reported⟩

/-- The path for `chdir`: a variable at its front is replaced. -/
def cdPath (env : Variables) (path : List Char) : Except Fault (List Char) :=
  if front path = '$' then
    if '/' ∉ path then getenv env (path.drop 1)
    else do
      let value ← getenv env ((path.takeWhile (· != '/')).drop 1)
      return value ++ path.dropWhile (· != '/')
  else .ok path

theorem isVariable_pwd : IsVariable pwd := by decide

/-- The call of `chdir` and what follows it: a null pointer and a path that is no directory are
reported. -/
def changeDirectory (system : System Dir) (shell : Shell Dir) (path : Option (List Char)) :
    Except Fault (Reply Dir) :=
  match path.bind (system.chdir shell.dir) with
  | none => .ok (shell.reply true)
  | some dir => do
      let path ← getcwd (system.getcwd dir)
      let env := shell.env.assign pwd isVariable_pwd path
      return { shell with dir := dir, env := env }.reply false

/-- The branch for `cd`, for a list of one or two words. -/
def cdBranch (system : System Dir) (shell : Shell Dir) (cmd : List (List Char)) :
    Except Fault (Reply Dir) :=
  if cmd.length = 2 then do
    let path ← cdPath shell.env (cmd.tail.headD [])
    changeDirectory system shell (some path)
  else changeDirectory system shell (shell.env.lookup "HOME".toList)

/-- The branches for `cd`, `echo`, `export` and `kill`. -/
def runBuiltin (system : System Dir) (shell : Shell Dir) (cmd : List (List Char)) :
    Branch → Option (Except Fault (Reply Dir))
  | .cd => some (cdBranch system shell cmd)
  | .echo => some do
      let (printed, env) ← echoBranch shell.env cmd
      return ⟨{ shell with env := env }, printed, [], false⟩
  | .export_ => some do
      let (env, reported) ← exportBranch shell.env (system.getcwd shell.dir) cmd
      return { shell with env := env }.reply reported
  | .kill => some do
      let killed ← killBranch system.kill shell.jobWaitList cmd
      return ⟨{ shell with jobWaitList := killed.jobWaitList }, [], killed.sent, killed.reported⟩
  | _ => none

/-- The branches that change the state of the shell. -/
def changing : List Branch := [.cd, .echo, .export_, .kill]

/-! ## Arguments -/

/-- The variable at the front of a path. -/
def pathNames (path : List Char) : List (List Char) :=
  if front path = '$' then [(path.takeWhile (· != '/')).drop 1] else []

/-- The variable of an argument of `echo`. -/
def echoNames (it : List Char) : List (List Char) :=
  if '$' ∈ it then [(it.drop 1).takeWhile (· != '/')] else []

/-- The variable of a word of `export`. -/
def exportNames (word : List Char) : List (List Char) :=
  if '$' ∈ behindEquals word ∧ (behindEquals word).drop 1 ≠ pwd then
    [(behindEquals word).drop 1]
  else []

/-- The variables whose values a branch uses as strings. -/
def usedNames (cmd : List (List Char)) : Branch → List (List Char)
  | .cd => if cmd.length = 2 then pathNames (cmd.tail.headD []) else []
  | .echo => (echoArguments cmd).flatMap echoNames
  | .export_ => exportNames (cmd.tail.headD [])
  | _ => []

/-- All the variables that a branch looks up. -/
def names (cmd : List (List Char)) (branch : Branch) : List (List Char) :=
  usedNames cmd branch ++ if branch = .cd ∧ cmd.length ≠ 2 then ["HOME".toList] else []

/-- The words that a branch reads as numbers. -/
def numerals (cmd : List (List Char)) : Branch → List (List Char)
  | .kill => [cmd.getLastD [], cmd.tail.headD []]
  | _ => []

/-- A word that is the numeral of an `int`. -/
def IsInt (numeral : List Char) : Prop := ∃ n, stoi numeral = .ok n

/-- A variable is not set, or a word is no number or out of range. -/
def Faulty (shell : Shell Dir) (cmd : List (List Char)) (branch : Branch) : Prop :=
  (∃ name ∈ names cmd branch, shell.env.lookup name = none) ∨
    ∃ numeral ∈ numerals cmd branch, ¬IsInt numeral

/-- The branch finishes, and where an argument is no good the state is as it was. -/
def Robust (system : System Dir) (shell : Shell Dir) (cmd : List (List Char)) (branch : Branch) :
    Prop :=
  ∃ reply, runBuiltin system shell cmd branch = some (.ok reply) ∧
    (Faulty shell cmd branch → reply.shell = shell)

/-- The path that `cd` goes to. -/
def cdTarget (env : Variables) (cmd : List (List Char)) : Option (List Char) :=
  if cmd.length = 2 then (cdPath env (cmd.tail.headD [])).toOption
  else env.lookup "HOME".toList

/-- The directory that a branch asks `getcwd` for has a path that fits its buffer. -/
def PathFits (system : System Dir) (shell : Shell Dir) (cmd : List (List Char)) :
    Branch → Prop
  | .cd => ∀ path ∈ cdTarget shell.env cmd, ∀ dir ∈ system.chdir shell.dir path,
      (system.getcwd dir).isSome = true
  | .export_ => '$' ∈ behindEquals (cmd.tail.headD []) →
      (behindEquals (cmd.tail.headD [])).drop 1 = pwd → (system.getcwd shell.dir).isSome = true
  | _ => True

/-- Every variable whose value is used is set, every number is one, and the path of the
directory fits. -/
structure Sound (system : System Dir) (shell : Shell Dir) (cmd : List (List Char))
    (branch : Branch) : Prop where
  set : ∀ name ∈ usedNames cmd branch, (shell.env.lookup name).isSome = true
  numbers : ∀ numeral ∈ numerals cmd branch, IsInt numeral
  fits : PathFits system shell cmd branch

variable {system : System Dir} {shell : Shell Dir} {cmd : List (List Char)} {env env' : Variables}
variable {it word path : List Char}

/-! ## `cd` -/

theorem cdPath_returns_iff : (∃ target, cdPath env path = .ok target) ↔
    ∀ name ∈ pathNames path, (env.lookup name).isSome = true := by
  simp only [cdPath, pathNames]
  split_ifs with variable_ slash
  · rw [List.forall_mem_singleton, ← getenv_returns_iff]
    simp [bind_eq_ok]
  · rw [getenv_returns_iff, takeWhile_of_not_mem slash, List.forall_mem_singleton]
  · simp

theorem changeDirectory_returns_iff {target : Option (List Char)} :
    (∃ reply, changeDirectory system shell target = .ok reply) ↔
      ∀ path ∈ target, ∀ dir ∈ system.chdir shell.dir path, (system.getcwd dir).isSome = true := by
  rw [changeDirectory]
  cases reached : target.bind (system.chdir shell.dir) with
  | none =>
      rw [Option.bind_eq_none_iff] at reached
      simp_all
  | some dir =>
      obtain ⟨path, rfl, there⟩ := Option.bind_eq_some_iff.mp reached
      cases known : system.getcwd dir with
      | none => simp [getcwd, there, known]
      | some path => simp [getcwd, there, known]

/-- `cd` finishes exactly when it finds its variable and the path of the directory fits. -/
theorem cdBranch_returns_iff : (∃ reply, cdBranch system shell cmd = .ok reply) ↔
    (∀ name ∈ usedNames cmd .cd, (shell.env.lookup name).isSome = true) ∧
      PathFits system shell cmd .cd := by
  by_cases pair : cmd.length = 2
  · simp only [cdBranch, usedNames, PathFits, cdTarget, if_pos pair, ← cdPath_returns_iff]
    cases found : cdPath shell.env (cmd.tail.headD []) with
    | error fault => simp
    | ok target => simp [changeDirectory_returns_iff, Except.toOption]
  · simp [cdBranch, usedNames, PathFits, cdTarget, pair, changeDirectory_returns_iff]

/-- Without a home `cd` changes nothing. -/
theorem cdBranch_of_homeless (single : cmd.length ≠ 2)
    (homeless : shell.env.lookup "HOME".toList = none) :
    cdBranch system shell cmd = .ok (shell.reply true) := by
  rw [cdBranch, if_neg single, homeless]
  rfl

/-! ## `echo` -/

theorem Extends.isSome_iff (extends_ : Extends env env') (name : List Char) :
    (env'.lookup name).isSome = (env.lookup name).isSome := by
  have both := extends_ name
  generalize env.lookup name = before at both ⊢
  generalize env'.lookup name = behind at both ⊢
  cases both with
  | none => rfl
  | some _ => rfl

theorem echoArgument_returns_iff : (∃ result, echoArgument env it = .ok result) ↔
    ∀ name ∈ echoNames it, (env.lookup name).isSome = true := by
  simp only [echoArgument, echoNames]
  split_ifs with dollar slash
  · rw [List.forall_mem_singleton]
    cases found : env.lookup ((it.drop 1).takeWhile (· != '/')) with
    | none =>
        rw [strcatValue_of_none found]
        simp
    | some value =>
        rw [strcatValue_of_some found]
        simp
  · rw [List.forall_mem_singleton, takeWhile_of_not_mem slash, ← getenv_returns_iff]
    simp [bind_eq_ok]
  · simp

/-- The loop finishes exactly when every variable is set: no argument sets or removes one. -/
theorem echoLoop_returns_iff {its : List (List Char)} :
    (∃ result, echoLoop env its = .ok result) ↔
      ∀ name ∈ its.flatMap echoNames, (env.lookup name).isSome = true := by
  induction its generalizing env with
  | nil => simp [echoLoop]
  | cons it rest ih =>
      rw [List.flatMap_cons, List.forall_mem_append, ← echoArgument_returns_iff, echoLoop]
      cases first : echoArgument env it with
      | error fault => simp
      | ok result =>
          rcases result with ⟨text, middle⟩
          have kept := (echoArgument_extends first).isSome_iff
          simp only [← kept, ← ih, ok_bind]
          cases later : echoLoop middle rest with
          | error fault => simp
          | ok result => simp

theorem echoBranch_returns_iff : (∃ result, echoBranch env cmd = .ok result) ↔
    ∀ name ∈ usedNames cmd .echo, (env.lookup name).isSome = true := by
  rw [usedNames, ← echoLoop_returns_iff, echoBranch]
  split
  · rename_i single
    have none : echoArguments cmd = [] := by
      rw [echoArguments, ← List.length_eq_zero_iff, List.length_tail, List.length_map, single]
    simp [none, echoLoop]
  · cases echoLoop env (echoArguments cmd) with
    | error fault => simp
    | ok result => simp

/-! ## `export` and `kill` -/

/-- `export` finishes exactly when it finds its variable, or its directory. -/
theorem exportBranch_returns_iff :
    (∃ result, exportBranch shell.env (system.getcwd shell.dir) cmd = .ok result) ↔
      (∀ name ∈ usedNames cmd .export_, (shell.env.lookup name).isSome = true) ∧
        PathFits system shell cmd .export_ := by
  simp only [exportBranch, usedNames, PathFits]
  generalize cmd.tail.headD [] = word
  have finishes : (∃ value, exportValue shell.env (system.getcwd shell.dir) word = .ok value) ↔
      (∀ name ∈ exportNames word, (shell.env.lookup name).isSome = true) ∧
        ('$' ∈ behindEquals word → (behindEquals word).drop 1 = pwd →
          (system.getcwd shell.dir).isSome = true) := by
    simp only [exportValue_eq_ok_iff, ← Option.isSome_iff_exists, taken, exportNames,
      List.drop_one]
    by_cases dollar : '$' ∈ behindEquals word
    · by_cases isPwd : (behindEquals word).tail = pwd
      · simp [dollar, isPwd]
      · simp [dollar, isPwd]
    · simp [dollar]
  rw [← finishes]
  cases exportValue shell.env (system.getcwd shell.dir) word with
  | error fault => simp
  | ok value =>
      cases assigned : setenv shell.env (exportName word) value with
      | none => simp [assigned]
      | some env => simp [assigned]

/-- `kill` finishes exactly when it reads two numbers. -/
theorem killBranch_returns_iff {jobWaitList : List BackgroundJob} :
    (∃ killed, killBranch system.kill jobWaitList cmd = .ok killed) ↔
      ∀ numeral ∈ numerals cmd .kill, IsInt numeral := by
  simp only [killBranch, numerals, List.forall_mem_cons, List.not_mem_nil, IsInt]
  cases stoi (cmd.getLastD []) with
  | error fault => simp
  | ok pid =>
      cases stoi (cmd.tail.headD []) with
      | error fault => simp
      | ok signal =>
          by_cases none : pid = -1
          · simp [none]
          · simp [none]

/-! ## All branches -/

theorem sound_iff {branch : Branch} : Sound system shell cmd branch ↔
    (∀ name ∈ usedNames cmd branch, (shell.env.lookup name).isSome = true) ∧
      (∀ numeral ∈ numerals cmd branch, IsInt numeral) ∧ PathFits system shell cmd branch :=
  ⟨fun sound => ⟨sound.set, sound.numbers, sound.fits⟩, fun all => ⟨all.1, all.2.1, all.2.2⟩⟩

/-- A branch finishes exactly when its arguments are sound. -/
theorem runBuiltin_returns_iff {branch : Branch}
    (member : branch ∈ changing) :
    (∃ reply, runBuiltin system shell cmd branch = some (.ok reply)) ↔
      Sound system shell cmd branch := by
  simp only [changing, List.mem_cons, List.not_mem_nil, or_false] at member
  rw [sound_iff]
  rcases member with rfl | rfl | rfl | rfl
  · have noNumerals : ∀ numeral ∈ numerals cmd .cd, IsInt numeral := nofun
    rw [and_iff_right noNumerals, ← cdBranch_returns_iff]
    simp only [runBuiltin, Option.some.injEq]
  · have noNumerals : ∀ numeral ∈ numerals cmd .echo, IsInt numeral := nofun
    have fits : PathFits system shell cmd .echo := trivial
    rw [and_iff_right noNumerals, and_iff_left fits, ← echoBranch_returns_iff]
    simp only [runBuiltin, Option.some.injEq]
    cases echoBranch shell.env cmd with
    | error fault => simp
    | ok result => simp
  · have noNumerals : ∀ numeral ∈ numerals cmd .export_, IsInt numeral := nofun
    rw [and_iff_right noNumerals, ← exportBranch_returns_iff]
    simp only [runBuiltin, Option.some.injEq]
    cases exportBranch shell.env (system.getcwd shell.dir) cmd with
    | error fault => simp
    | ok result => simp
  · have noNames : ∀ name ∈ usedNames cmd .kill, (shell.env.lookup name).isSome = true := nofun
    have fits : PathFits system shell cmd .kill := trivial
    rw [and_iff_right noNames, and_iff_left fits,
      ← @killBranch_returns_iff _ system cmd shell.jobWaitList]
    simp only [runBuiltin, Option.some.injEq]
    cases killBranch system.kill shell.jobWaitList cmd with
    | error fault => simp
    | ok result => simp

/-- In a list of one word `cd` is the only branch that looks a variable up without using its
value. -/
theorem home_of_mem {branch : Branch} {name : List Char}
    (member : name ∈ if branch = .cd ∧ cmd.length ≠ 2 then ["HOME".toList] else []) :
    branch = .cd ∧ cmd.length ≠ 2 ∧ name = "HOME".toList := by
  split at member
  · rename_i single
    exact ⟨single.1, single.2, List.mem_singleton.mp member⟩
  · cases member

/-- A branch does its work, or leaves the state alone, exactly when its arguments are sound. -/
theorem robust_iff {branch : Branch} (member : branch ∈ changing) :
    Robust system shell cmd branch ↔ Sound system shell cmd branch := by
  constructor
  · rintro ⟨reply, runs, -⟩
    exact (runBuiltin_returns_iff member).mp ⟨reply, runs⟩
  · intro sound
    rcases (runBuiltin_returns_iff member).mpr sound with ⟨reply, runs⟩
    refine ⟨reply, runs, ?_⟩
    rintro (⟨name, looked, none⟩ | ⟨numeral, read, noInt⟩)
    · rcases List.mem_append.mp looked with used | home
      · have set := sound.set name used
        rw [none] at set
        cases set
      · obtain ⟨rfl, single, rfl⟩ := home_of_mem home
        have unchanged : runBuiltin system shell cmd .cd = some (.ok (shell.reply true)) :=
          congrArg some (cdBranch_of_homeless single none)
        rw [unchanged] at runs
        cases runs
        rfl
    · exact absurd (sound.numbers numeral read) noInt

/-- Whichever of these branches runs its own code for a list of words, it finishes, and leaves
the state alone where an argument is no good. -/
def Survives (system : System Dir) (shell : Shell Dir) (words : List String) : Prop :=
  ∀ branch ∈ changing, executeCommands words = some [.own branch] →
    Robust system shell (words.map String.toList) branch

/-- The branches survive a list of words exactly when every variable whose value they use as a
string is set, every word that they read as a number is one, and the path of the directory
that they ask for fits its buffer. -/
theorem survives_iff (system : System Dir) (shell : Shell Dir) (words : List String) :
    Survives system shell words ↔
      ∀ branch ∈ changing, executeCommands words = some [.own branch] →
        Sound system shell (words.map String.toList) branch :=
  forall₂_congr fun _ member => imp_congr_right fun _ => robust_iff member

/-- `cd $X` where nothing is set. -/
theorem survives_fails : ¬∀ (system : System Unit) (shell : Shell Unit) (words : List String),
    hasOperator words = false → Survives system shell words := by
  intro all
  have survives := all ⟨fun _ _ => some (), fun _ => some ['/'], fun _ _ => true⟩
    ⟨(), Environment.Store.empty, []⟩ ["cd", "$X"] (by decide)
  rcases survives .cd (by decide) (by decide) with ⟨reply, runs, -⟩
  cases runs

end QuashLabs.QuashProject
