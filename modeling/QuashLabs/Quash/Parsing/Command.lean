import QuashLabs.Quash.Parsing.Strings

/-!
# Commands

The command structures of the shell and the semantic actions that build them. A
pointer to a C string is an `Option`, where `none` is `NULL`; the strings, arrays
and deques that the actions allocate in the memory pool are taken at their meaning.
-/

namespace QuashLabs.Quash.Parsing

/-- The characters of a C string before its terminator. -/
abbrev CStr := List Char

/-- `CommandType`. -/
inductive CommandType
  | eoc
  | generic
  | echo
  | export_
  | kill
  | cd
  | pwd
  | jobs
  | exit
  deriving Repr, DecidableEq

/-- `Command`: the union of the command structures. -/
inductive Command
  | simple (type : CommandType)
  | generic (type : CommandType) (args : List (Option CStr))
  | export_ (envVar val : CStr)
  | cd (dir : Option CStr)
  | kill (sig job : Int) (sigStr jobStr : CStr)
  deriving Repr, DecidableEq

/-- `get_command_type`. -/
def getCommandType : Command → CommandType
  | .simple type => type
  | .generic type _ => type
  | .export_ .. => .export_
  | .cd _ => .cd
  | .kill .. => .kill

/-- `CommandHolder`. -/
structure CommandHolder where
  redirectIn : Option CStr
  redirectOut : Option CStr
  flags : BitVec 8
  cmd : Command
  deriving Repr, DecidableEq

/-- `get_command_holder_type`. -/
def getCommandHolderType (holder : CommandHolder) : CommandType := getCommandType holder.cmd

/-! ## Flags -/

namespace Flags

/-- `REDIRECT_IN`. -/
def redirectIn : BitVec 8 := 0x01#8

/-- `REDIRECT_OUT`. -/
def redirectOut : BitVec 8 := 0x04#8

/-- `REDIRECT_APPEND`. -/
def redirectAppend : BitVec 8 := 0x08#8

/-- `PIPE_IN`. -/
def pipeIn : BitVec 8 := 0x10#8

/-- `PIPE_OUT`. -/
def pipeOut : BitVec 8 := 0x20#8

/-- `BACKGROUND`. -/
def background : BitVec 8 := 0x40#8

end Flags

/-- `flags & flag` as a condition. -/
def CommandHolder.has (holder : CommandHolder) (flag : BitVec 8) : Bool :=
  holder.flags &&& flag != 0#8

/-! ## Constructors -/

/-- `mk_generic_command`. -/
def mkGenericCommand (args : List (Option CStr)) : Command := .generic .generic args

/-- `mk_echo_command`. -/
def mkEchoCommand (strs : List (Option CStr)) : Command := .generic .echo strs

/-- `mk_export_command`. -/
def mkExportCommand (envVar val : CStr) : Command := .export_ envVar val

/-- `mk_cd_command`. -/
def mkCdCommand (dir : Option CStr) : Command := .cd dir

/-- `isspace`. -/
def isSpace (c : Char) : Bool :=
  c == ' ' || c == '\t' || c == '\n' || c == '\x0b' || c == '\x0c' || c == '\r'

/-- The value of the leading decimal digits. -/
def decimal (digits : CStr) : Nat :=
  (digits.takeWhile Char.isDigit).foldl (fun n c => 10 * n + (c.toNat - '0'.toNat)) 0

/-- `strtol(str, NULL, 10)`: a `long` of 64 bits, at its bound where the number is
beyond it. -/
def strtol (str : CStr) : Int :=
  match str.dropWhile isSpace with
  | '-' :: digits => max (-decimal digits) (-2 ^ 63)
  | '+' :: digits => min (decimal digits) (2 ^ 63 - 1)
  | digits => min (decimal digits) (2 ^ 63 - 1)

/-- A `long` stored in an `int`. -/
def intOfLong (n : Int) : Int := n.bmod (2 ^ 32)

/-- `mk_kill_command`. -/
def mkKillCommand (sig job : CStr) : Command :=
  .kill (intOfLong (strtol sig)) (intOfLong (strtol job)) sig job

/-- `mk_pwd_command`. -/
def mkPwdCommand : Command := .simple .pwd

/-- `mk_jobs_command`. -/
def mkJobsCommand : Command := .simple .jobs

/-- `mk_exit_command`. -/
def mkExitCommand : Command := .simple .exit

/-- `mk_eoc`. -/
def mkEoc : Command := .simple .eoc

/-- `mk_command_holder`. -/
def mkCommandHolder (redirectIn redirectOut : Option CStr) (flags : BitVec 8) (cmd : Command) :
    CommandHolder :=
  ⟨redirectIn, redirectOut, flags, cmd⟩

/-- `Redirect`. -/
structure Redirect where
  inFile : Option CStr
  outFile : Option CStr
  append : Bool
  deriving Repr, DecidableEq

/-- `mk_redirect`. -/
def mkRedirect (inFile outFile : Option CStr) (append : Bool) : Redirect :=
  ⟨inFile, outFile, append⟩

/-! ## Deques of the actions -/

variable {α : Type}

/-- An operation on a deque, which is taken at its meaning on lists. -/
def onDeque (op : Deque.Op α Unit) (items : List α) :
    Except Failure (Deque.Answer α × List α) := do
  let (answer, items, _) ← Deque.execList op (items, ())
  return (answer, items)

/-- `push_front`. -/
def pushFront (element : α) (items : List α) : Except Failure (List α) :=
  Prod.snd <$> onDeque (.pushFront element) items

/-- `push_back`. -/
def pushBack (element : α) (items : List α) : Except Failure (List α) :=
  Prod.snd <$> onDeque (.pushBack element) items

/-- `pop_front`. -/
def popFront (items : List α) : Except Failure (α × List α) := do
  match ← onDeque .popFront items with
  | (.element element, items) => return (element, items)
  | _ => .error .uninitialised

@[simp]
theorem pushFront_eq (element : α) (items : List α) :
    pushFront element items = .ok (element :: items) := rfl

@[simp]
theorem pushBack_eq (element : α) (items : List α) :
    pushBack element items = .ok (items ++ [element]) := rfl

@[simp]
theorem popFront_cons (element : α) (items : List α) :
    popFront (element :: items) = .ok (element, items) := rfl

/-! ## Semantic actions -/

/-- What a call of `yyparse` depends on besides the tokens: the environment, the
answers of `realpath`, and the number of states for which its stack has room, which
is `YYMAXDEPTH` unless memory runs out before. -/
structure World where
  env : Environment
  realpath : CStr → Option CStr
  maxDepth : Nat

/-- `YYMAXDEPTH`. -/
def yymaxdepth : Nat := 10000

/-- `memory_pool_strdup`. -/
def memoryPoolStrdup : Option CStr → Except Failure CStr
  | none => .error .assertion
  | some str => .ok str

/-- The end of a line: the entry for it is put behind the commands. -/
def topCmds (cmds : List CommandHolder) : Except Failure (List CommandHolder) :=
  pushBack (mkCommandHolder none none 0#8 mkEoc) cmds

/-- `cmds: cmd_top`. -/
def cmdsLast (top : CommandHolder) : Except Failure (List CommandHolder) :=
  pushFront top []

/-- `cmds: cmd_top PIPE cmds`. -/
def cmdsPipe (top : CommandHolder) (cmds : List CommandHolder) :
    Except Failure (List CommandHolder) := do
  let (prev, cmds) ← popFront cmds
  let top := { top with
    flags := top.flags &&& ~~~(Flags.redirectAppend ||| Flags.redirectOut) ||| Flags.pipeOut }
  let prev := { prev with flags := prev.flags &&& ~~~Flags.redirectIn ||| Flags.pipeIn }
  let top :=
    if prev.has Flags.background then { top with flags := top.flags ||| Flags.background }
    else top
  let cmds ← pushFront prev cmds
  pushFront top cmds

/-- `cmd_top: cmd_content redir cmd_bg`. -/
def cmdTop (content : Command) (redir : Redirect) (bg : Int) : CommandHolder :=
  let flags :=
    (if redir.append then Flags.redirectAppend else 0#8) |||
      (if redir.outFile.isSome then Flags.redirectOut else 0#8) |||
      (if redir.inFile.isSome then Flags.redirectIn else 0#8) |||
      (if bg ≠ 0 then Flags.background else 0#8)
  mkCommandHolder redir.inFile redir.outFile flags content

/-- `cmd_content: CD_TOK`. -/
def cdHome (world : World) : Except Failure Command := do
  let home ← memoryPoolStrdup (world.env.lookup "HOME".toList)
  return mkCdCommand (some home)

/-- `cmd_content: CD_TOK string`. -/
def cdString (world : World) (str : CStr) : Command :=
  mkCdCommand (world.realpath str)

/-- The value of `redir_mark` for a flag. -/
def redirMark (flag : BitVec 8) : Int := flag.toNat

/-- `redir_inner: redir_mark string redir_inner`. -/
def redirInnerMore (mark : Int) (file : CStr) (redir : Redirect) : Redirect :=
  if mark = redirMark Flags.redirectIn then { redir with inFile := some file }
  else if mark = redirMark Flags.redirectOut then
    { redir with outFile := some file, append := false }
  else if mark = redirMark Flags.redirectAppend then
    { redir with outFile := some file, append := true }
  else redir

/-- `redir_inner: redir_mark string`. -/
def redirInnerLast (mark : Int) (file : CStr) : Redirect :=
  if mark = redirMark Flags.redirectIn then mkRedirect (some file) none false
  else if mark = redirMark Flags.redirectOut then mkRedirect none (some file) false
  else if mark = redirMark Flags.redirectAppend then mkRedirect none (some file) true
  else mkRedirect none none false

/-- The deque of one word and the `NULL` behind it. -/
def argsLast (str : CStr) : Except Failure (List (Option CStr)) := do
  let args ← pushFront (some str) []
  pushBack none args

/-- One more word in front of a deque. -/
def argsMore (str : CStr) (args : List (Option CStr)) : Except Failure (List (Option CStr)) :=
  pushFront (some str) args

/-- `first_string: STR`: the returned array is read as a C string. -/
def firstStringStr (world : World) (str : CStr) : Except Failure CStr :=
  List.takeWhile (· ≠ '\x00') <$> interpretComplexStringToken world.env str

end QuashLabs.Quash.Parsing
