import Mathlib.Data.List.Basic

/-!
# The branches of `execute_commands`

`execute_commands` of `quash.cpp` compares the first word and the number of words with
those of its builtins, one after the other, and takes the last branch for every other
program. A branch that sees an operator among the words leaves the whole list to
`execute_redirections`; the branch for `cat` does not look for pipes.
-/

namespace QuashLabs.QuashProject

/-- The branches in the order of their tests. -/
inductive Branch
  | exit
  | jobs
  | kill
  | cd
  | pwd
  | ls
  | grep
  | find
  | cat
  | echo
  | export_
  | program
  deriving Repr, DecidableEq

/-- The branch for a list with this front and this many words. -/
def branchOf (front : String) (size : Nat) : Branch :=
  if size = 1 ∧ front = "exit" ∨ size = 1 ∧ front = "quit" then .exit
  else if front = "jobs" ∧ size = 1 then .jobs
  else if front = "kill" ∧ size = 3 then .kill
  else if front = "cd" ∧ size ≤ 2 then .cd
  else if front = "pwd" ∧ size = 1 then .pwd
  else if front = "ls" then .ls
  else if front = "grep" then .grep
  else if front = "find" then .find
  else if front = "cat" then .cat
  else if front = "echo" then .echo
  else if front = "export" ∧ size = 2 then .export_
  else .program

/-- The branch that a list takes. An empty list has no front to compare. -/
def branch (cmd : List String) : Option Branch :=
  cmd.head?.map fun front => branchOf front cmd.length

/-- The loop that sets `redirections`, in every branch that has it but that for `cat`. -/
def hasOperator (cmd : List String) : Bool :=
  cmd.any fun arg => arg == "<" || arg == ">" || arg == ">>" || arg == "|"

/-- The loop that sets `redirections` in the branch for `cat`. -/
def hasRedirection (cmd : List String) : Bool :=
  cmd.any fun arg => arg == "<" || arg == ">" || arg == ">>"

/-- What a call of `execute_commands` does to processes: it ends its own, it returns
without a fork, or it forks a child, in `execute_redirections` or by itself. -/
inductive Conduct
  | exits
  | returns
  | redirections
  | forks
  deriving Repr, DecidableEq

/-- What the branches do. -/
def Branch.conduct (cmd : List String) : Branch → Conduct
  | .exit => .exits
  | .jobs | .kill | .cd | .pwd | .export_ => .returns
  | .cat => if hasRedirection cmd then .redirections else .returns
  | .echo => if hasOperator cmd then .redirections else .returns
  | .ls | .grep | .find | .program => if hasOperator cmd then .redirections else .forks

/-- What `execute_commands(cmd)` does. -/
def conduct (cmd : List String) : Option Conduct := (branch cmd).map (Branch.conduct cmd)

/-- The call forks a child and waits. -/
def isForeground (cmd : List String) : Bool :=
  conduct cmd == some .redirections || conduct cmd == some .forks

/-- The only lists without a branch are the empty ones. -/
theorem conduct_eq_none_iff {cmd : List String} : conduct cmd = none ↔ cmd = [] := by
  simp [conduct, branch]

end QuashLabs.QuashProject
