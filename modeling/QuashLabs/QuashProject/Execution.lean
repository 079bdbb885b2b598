import QuashLabs.QuashProject.Commands
import QuashLabs.QuashProject.Redirections

/-!
# What `execute_commands` hands on

The branches of `execute_commands` that leave a list with an operator to
`execute_redirections` have each their own copy of the loop that looks for one; some branches
compare the size of the list first and have none. The branches for `ls`, `grep` and `find`
name the words of a list one by one, for the sizes that they know.
-/

namespace QuashLabs.QuashProject

/-! ## The branches -/

/-- A call of the `exec` family: the file, and whether it is searched for in `PATH`. -/
structure Exec where
  file : String
  searched : Bool
  argv : List String
  deriving Repr, DecidableEq

/-- The words behind the name of the program. -/
def Exec.arguments (exec : Exec) : List String := exec.argv.tail

/-- What a branch does, in this order. -/
inductive Effect
  | exit
  /-- The branch goes on with its own code in the shell. -/
  | own (branch : Branch)
  /-- The lines of a file are printed. -/
  | show (file : String)
  /-- `execute_redirections(cmd)`. -/
  | executeRedirections (cmd : List String)
  /-- A child is forked and waited for; it runs a program or ends at once. -/
  | child (exec : Option Exec)
  deriving Repr, DecidableEq

/-- `LS_EXEC`. -/
def lsExec : List String → Option Exec
  | [_] => some ⟨"/bin/ls", false, ["ls"]⟩
  | [_, a] => some ⟨"/bin/ls", false, ["ls", a]⟩
  | [_, a, b] => some ⟨"/bin/ls", false, ["ls", a, b]⟩
  | _ => none

/-- The calls of `execl` for `grep` and `find`. -/
def pathExec (path : String) : List String → Option Exec
  | [_] => some ⟨path, false, [path]⟩
  | [_, a] => some ⟨path, false, [path, a]⟩
  | [_, a, b] => some ⟨path, false, [path, a, b]⟩
  | [_, a, b, c] => some ⟨path, false, [path, a, b, c]⟩
  | _ => none

/-- `GREP_EXEC`. -/
def grepExec : List String → Option Exec := pathExec "/bin/grep"

/-- `FIND_EXEC`. -/
def findExec : List String → Option Exec := pathExec "/bin/find"

/-- The child of the last branch, for a list with a front. -/
def programExec : List String → Option Exec
  | [] => none
  | front :: rest =>
      if ['.', '/'].isPrefixOf front.toList then some ⟨front, false, front :: rest⟩
      else if front = "cat" ∧ rest = [] then none
      else if front = "" then none
      else some ⟨front, true, front :: rest⟩

/-- The test for an operator in front of the rest of a branch. -/
def unlessOperator (cmd : List String) (effect : Effect) : List Effect :=
  if hasOperator cmd then [.executeRedirections cmd] else [effect]

/-- What the branches do. -/
def Branch.effects (cmd : List String) : Branch → List Effect
  | .exit => [.exit]
  | .jobs => [.own .jobs]
  | .kill => [.own .kill]
  | .cd => [.own .cd]
  | .pwd => [.own .pwd]
  | .ls => unlessOperator cmd (.child (lsExec cmd))
  | .grep => unlessOperator cmd (.child (grepExec cmd))
  | .find => unlessOperator cmd (.child (findExec cmd))
  | .cat =>
      (if cmd.length = 2 then [.show (cmd.getLastD "")] else []) ++
        if hasRedirection cmd then [.executeRedirections cmd] else []
  | .echo => unlessOperator cmd (.own .echo)
  | .export_ => [.own .export_]
  | .program => unlessOperator cmd (.child (programExec cmd))

/-- `execute_commands`. -/
def executeCommands (cmd : List String) : Option (List Effect) :=
  (branch cmd).map (Branch.effects cmd)

/-! ## The conduct of a branch -/

/-- The effect forks a child in `execute_redirections`. -/
def Effect.redirects : Effect → Bool
  | .executeRedirections _ => true
  | _ => false

/-- The effect forks a child by itself. -/
def Effect.forks : Effect → Bool
  | .child _ => true
  | _ => false

/-- What some effects mean for processes. -/
def conductOf (effects : List Effect) : Conduct :=
  if .exit ∈ effects then .exits
  else if effects.any Effect.redirects then .redirections
  else if effects.any Effect.forks then .forks
  else .returns

theorem conductOf_unlessOperator (cmd : List String) (effect : Effect) :
    conductOf (unlessOperator cmd effect) =
      if hasOperator cmd then .redirections else conductOf [effect] := by
  rw [unlessOperator]
  split
  · rfl
  · rfl

/-- The conduct of a branch is that of its effects. -/
theorem conductOf_effects (cmd : List String) (branch : Branch) :
    conductOf (branch.effects cmd) = branch.conduct cmd := by
  cases branch with
  | ls | grep | find | echo | program => exact conductOf_unlessOperator cmd _
  | cat =>
      simp only [Branch.effects, Branch.conduct]
      split_ifs
      · rfl
      · rfl
      · rfl
      · rfl
  | _ => rfl

theorem conduct_eq (cmd : List String) : conduct cmd = (executeCommands cmd).map conductOf := by
  rw [conduct, executeCommands, Option.map_map]
  congr 1
  funext branch
  exact (conductOf_effects cmd branch).symm

/-! ## Lists with an operator -/

/-- A list whose operators have a word on either side. -/
structure WordsAround (cmd : List String) : Prop where
  first : ∀ token ∈ cmd.head?, isWord token = true
  last : ∀ token ∈ cmd.getLast?, isWord token = true
  between : cmd.IsChain fun token next => isWord token = true ∨ isWord next = true

/-- The list is handed to `execute_redirections` and nothing else happens. -/
def HandsOver (cmd : List String) : Prop := executeCommands cmd = some [.executeRedirections cmd]

instance (cmd : List String) : Decidable (HandsOver cmd) := inferInstanceAs (Decidable (_ = _))

variable {cmd : List String} {front : String} {rest : List String}

theorem hasOperator_iff : hasOperator cmd = true ↔ ∃ token ∈ cmd, isWord token = false := by
  simp only [hasOperator, List.any_eq_true]
  refine exists_congr fun token => and_congr_right fun _ => ?_
  simp [isWord]
  tauto

/-- Such a list has two words at least beside an operator. -/
theorem WordsAround.length (around : WordsAround cmd) (operator : hasOperator cmd = true) :
    3 ≤ cmd.length := by
  rcases hasOperator_iff.mp operator with ⟨token, member, notWord⟩
  have first := around.first
  have last := around.last
  match cmd with
  | [] => cases member
  | [only] =>
      obtain rfl := List.mem_singleton.mp member
      simp [notWord] at first
  | [one, other] =>
      rcases List.mem_pair.mp member with rfl | rfl
      · simp [notWord] at first
      · simp [notWord] at last
  | _ :: _ :: _ :: _ => simp

/-- Of the branches that compare a size only one is left for three words and more. -/
theorem branchOf_long {size : Nat} (long : 3 ≤ size) : branchOf front size =
    if front = "kill" ∧ size = 3 then .kill
    else if front = "ls" then .ls
    else if front = "grep" then .grep
    else if front = "find" then .find
    else if front = "cat" then .cat
    else if front = "echo" then .echo
    else .program := by
  have notOne : size ≠ 1 := by omega
  have notTwo : size ≠ 2 := by omega
  have notShort : ¬size ≤ 2 := by omega
  simp [branchOf, notOne, notTwo, notShort]

/-- A list with an operator is handed over except by the branch for `kill`, which knows only
the size, and by the branch for `cat` where the only operators are pipes. -/
theorem handsOver_iff (around : WordsAround cmd) (operator : hasOperator cmd = true) :
    HandsOver cmd ↔ ¬(cmd.head? = some "kill" ∧ cmd.length = 3) ∧
      ¬(cmd.head? = some "cat" ∧ hasRedirection cmd = false) := by
  have long := around.length operator
  cases cmd with
  | nil => cases operator
  | cons front rest =>
      have notPair : (front :: rest).length ≠ 2 := by omega
      have handed (effect : Effect) :
          unlessOperator (front :: rest) effect = [.executeRedirections (front :: rest)] :=
        if_pos operator
      simp only [HandsOver, executeCommands, branch, List.head?_cons, Option.map_some,
        branchOf_long long, Option.some.injEq]
      by_cases kill : front = "kill" ∧ (front :: rest).length = 3
      · rw [if_pos kill]
        refine iff_of_false ?_ fun others => others.1 kill
        intro same
        cases same
      rw [if_neg kill]
      by_cases cat : front = "cat"
      · subst cat
        have looks : Branch.cat.effects ("cat" :: rest) =
            if hasRedirection ("cat" :: rest) then [.executeRedirections ("cat" :: rest)]
            else [] := by
          rw [Branch.effects, if_neg notPair, List.nil_append]
        cases redirection : hasRedirection ("cat" :: rest) with
        | true => simp [looks, redirection]
        | false => simp [looks, redirection]
      · refine iff_of_true ?_ ⟨kill, fun isCat => cat isCat.1⟩
        -- Every other branch has the whole test.
        split_ifs
        all_goals exact handed _

/-- `ls -l | wc` is handed over. -/
theorem handsOver_ls : HandsOver ["ls", "-l", "|", "wc"] := by
  apply (handsOver_iff ⟨by decide, by decide, by decide⟩ (by decide)).mpr
  decide

/-- `cat a | wc` is not handed over. -/
theorem handsOver_fails : ¬∀ cmd, WordsAround cmd → hasOperator cmd = true →
    cmd.head? ≠ some "exit" → cmd.head? ≠ some "quit" → HandsOver cmd := by
  intro all
  have handed := all ["cat", "a", "|", "wc"] ⟨by decide, by decide, by decide⟩ (by decide)
    (by decide) (by decide)
  revert handed
  decide

/-! ## Lists without an operator -/

/-- The calls of `execl` for `ls` know up to two arguments. -/
theorem lsExec_cons (front : String) (rest : List String) : lsExec (front :: rest) =
    if rest.length ≤ 2 then some ⟨"/bin/ls", false, "ls" :: rest⟩ else none := by
  match rest with
  | [] => rfl
  | [_] => rfl
  | [_, _] => rfl
  | _ :: _ :: _ :: _ => simp [lsExec]

/-- The calls of `execl` for `grep` and `find` know up to three. -/
theorem pathExec_cons (path front : String) (rest : List String) : pathExec path (front :: rest) =
    if rest.length ≤ 3 then some ⟨path, false, path :: rest⟩ else none := by
  match rest with
  | [] => rfl
  | [_] => rfl
  | [_, _] => rfl
  | [_, _, _] => rfl
  | _ :: _ :: _ :: _ :: _ => simp [pathExec]

/-- A program in the current directory is run by its name, any other one is searched for, and
either gets every word. -/
theorem programExec_cons (nonempty : front ≠ "") (program : rest ≠ [] ∨ front ≠ "cat") :
    ∃ searched, programExec (front :: rest) = some ⟨front, searched, front :: rest⟩ := by
  rw [programExec]
  split_ifs with here alone
  · exact ⟨false, rfl⟩
  · exact absurd alone (by tauto)
  · exact ⟨true, rfl⟩

/-- A child runs the program of that name with the arguments that the last branch would give
it, which are all the words behind the name. -/
def RunsArguments (cmd : List String) : Prop :=
  ∃ exec generic, executeCommands cmd = some [.child (some exec)] ∧
    programExec cmd = some generic ∧ exec.file = "/bin/" ++ generic.file ∧
    exec.arguments = generic.arguments ∧ exec.arguments = cmd.tail

/-- The most words that a special branch has a call for. -/
def mostWords (front : String) : Nat := if front = "ls" then 3 else 4

/-- A call that is made for up to `most` arguments. -/
theorem runsArguments_iff_of_call {call : Option Exec} {name : String} {most : Nat}
    (executes : executeCommands (front :: rest) = some [.child call])
    (called : call =
      if rest.length ≤ most then some ⟨"/bin/" ++ front, false, name :: rest⟩ else none)
    (nonempty : front ≠ "") (notCat : front ≠ "cat") :
    RunsArguments (front :: rest) ↔ rest.length ≤ most := by
  rcases programExec_cons nonempty (.inr notCat) with ⟨searched, program⟩
  constructor
  · rintro ⟨exec, generic, runs, -⟩
    by_contra more
    rw [executes, called, if_neg more] at runs
    cases runs
  · intro few
    rw [called, if_pos few] at executes
    exact ⟨_, _, executes, program, rfl, rfl, rfl⟩

/-- The branches for `ls`, `grep` and `find` run their program with every word exactly when
there is a call for so many words. -/
theorem runsArguments_iff (special : cmd.head? ∈ [some "ls", some "grep", some "find"])
    (free : hasOperator cmd = false) :
    RunsArguments cmd ↔ cmd.length ≤ mostWords (cmd.headD "") := by
  cases cmd with
  | nil => simp at special
  | cons front rest =>
      have runs (effect : Effect) : unlessOperator (front :: rest) effect = [effect] :=
        if_neg (by simp [free])
      have executes {branch : Branch} {call : Option Exec}
          (taken : branchOf front (front :: rest).length = branch)
          (calls : branch.effects (front :: rest) = [.child call]) :
          executeCommands (front :: rest) = some [.child call] := by
        simp only [executeCommands, QuashProject.branch, List.head?_cons, Option.map_some, taken,
          calls]
      simp only [List.head?_cons, List.mem_cons, Option.some.injEq, List.not_mem_nil,
        or_false] at special
      rcases special with rfl | rfl | rfl
      · have taken : branchOf "ls" ("ls" :: rest).length = .ls := by simp [branchOf]
        rw [runsArguments_iff_of_call (executes taken (runs _)) (lsExec_cons _ _) (by decide)
          (by decide), List.length_cons]
        exact Nat.succ_le_succ_iff.symm
      · have taken : branchOf "grep" ("grep" :: rest).length = .grep := by simp [branchOf]
        rw [runsArguments_iff_of_call (executes taken (runs _)) (pathExec_cons _ _ _) (by decide)
          (by decide), List.length_cons]
        exact Nat.succ_le_succ_iff.symm
      · have taken : branchOf "find" ("find" :: rest).length = .find := by simp [branchOf]
        rw [runsArguments_iff_of_call (executes taken (runs _)) (pathExec_cons _ _ _) (by decide)
          (by decide), List.length_cons]
        exact Nat.succ_le_succ_iff.symm

/-- `grep -n main a.c` runs `grep` with its three arguments. -/
theorem runsArguments_grep : RunsArguments ["grep", "-n", "main", "a.c"] := by
  apply (runsArguments_iff (by decide) (by decide)).mpr
  decide

/-- `ls -l -a src` runs nothing. -/
theorem runsArguments_fails : ¬∀ cmd : List String,
    cmd.head? ∈ [some "ls", some "grep", some "find"] → hasOperator cmd = false →
      RunsArguments cmd := by
  intro all
  rcases all ["ls", "-l", "-a", "src"] (by decide) (by decide) with ⟨exec, generic, runs, -⟩
  have nothing : executeCommands ["ls", "-l", "-a", "src"] = some [.child none] := by decide
  rw [nothing] at runs
  cases runs

end QuashLabs.QuashProject
