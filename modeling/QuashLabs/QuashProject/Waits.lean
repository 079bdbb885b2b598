import QuashLabs.QuashProject.Commands
import QuashLabs.Transition.Reachable

/-!
# The waits of `quash.cpp`

A process of the shell reads lines, forks a copy of itself for a line that ends with `&`,
and runs every other line with `execute_commands`. A foreground command forks a child
and calls `wait(NULL)`, which returns when it has reaped any one child that has
terminated. Children terminate at any time. A command is served by its wait when its own
child has terminated behind it; this is certain only where no other child is outstanding.
-/

namespace QuashLabs.QuashProject.Waits

open QuashLabs.Transition

/-- A child that no wait has reaped. -/
structure Child where
  pid : Int
  terminated : Bool
  deriving Repr, DecidableEq

/-- Where a process stands. `ret` is what the `fork` of a foreground command has
returned. -/
inductive Point
  /-- At `getline`. -/
  | reading
  /-- At the call of `execute_commands`. -/
  | calling (cmd : List String)
  /-- At `wait(NULL)`. -/
  | waiting (ret : Int)
  /-- Behind the return of `execute_commands` or `execute_redirections`. -/
  | returned (ret : Int)
  | ended
  deriving Repr, DecidableEq

/-- A process of the shell and its children. -/
structure Process where
  point : Point
  children : List Child
  deriving Repr, DecidableEq

/-- The shell at its start. -/
def Process.shell : Process := ⟨.reading, []⟩

/-- The copy of the shell for a line `cmd &`, which has no children. -/
def Process.copy (cmd : List String) : Process := ⟨.calling cmd, []⟩

/-- The processes that run the program, at their start. -/
def Process.Initial (p : Process) : Prop := p = .shell ∨ ∃ cmd, p = .copy cmd

/-- The children behind a `fork` that returns `ret`: it fails, or the child is new. -/
def fork (ret : Int) (children : List Child) : Option (List Child) :=
  if ret = -1 then some children
  else if 0 < ret ∧ ∀ child ∈ children, child.pid ≠ ret then some (children ++ [⟨ret, false⟩])
  else none

/-- The children behind the end of one of them. -/
def terminate (pid : Int) (children : List Child) : List Child :=
  children.map fun child => if child.pid = pid then { child with terminated := true } else child

/-- What a process does, and what happens to its children. -/
inductive Event
  /-- A line that ends with `&`, for which `fork` returns `ret`. -/
  | background (cmdlist : List String) (ret : Int)
  /-- Any other line. -/
  | foreground (cmdlist : List String)
  /-- A call of `execute_commands` that does not fork. -/
  | builtin
  /-- The `fork` of a foreground command. -/
  | fork (ret : Int)
  /-- `wait(NULL)` returns the child that it has reaped. -/
  | reap (pid : Int)
  /-- `wait(NULL)` fails, since there is no child. -/
  | noChild
  /-- The process goes back to its loop. -/
  | resume
  /-- A child terminates. -/
  | terminates (pid : Int)
  deriving Repr, DecidableEq

/-- One step of a process or of one of its children. -/
def step : LabelledStep Event Process
  | .background cmdlist ret, p =>
      if p.point = .reading ∧ cmdlist.getLast? = some "&" then
        (fork ret p.children).map fun children => { p with children := children }
      else none
  | .foreground cmdlist, p =>
      if p.point = .reading ∧ cmdlist ≠ [] ∧ cmdlist.getLast? ≠ some "&" then
        some { p with point := .calling cmdlist }
      else none
  | .builtin, p =>
      match p.point with
      | .calling cmd =>
          if conduct cmd = some .exits then some { p with point := .ended }
          else if conduct cmd = some .returns then some { p with point := .reading }
          else none
      | _ => none
  | .fork ret, p =>
      match p.point with
      | .calling cmd =>
          if isForeground cmd then
            (fork ret p.children).map fun children => ⟨.waiting ret, children⟩
          else none
      | _ => none
  | .reap pid, p =>
      match p.point with
      | .waiting ret =>
          if ⟨pid, true⟩ ∈ p.children then some ⟨.returned ret, p.children.erase ⟨pid, true⟩⟩
          else none
      | _ => none
  | .noChild, p =>
      match p.point with
      | .waiting ret => if p.children = [] then some { p with point := .returned ret } else none
      | _ => none
  | .resume, p =>
      match p.point with
      | .returned _ => some { p with point := .reading }
      | _ => none
  | .terminates pid, p =>
      if ⟨pid, false⟩ ∈ p.children then
        some { p with children := terminate pid p.children }
      else none

/-- Behind the return of a foreground command the child that was forked for it is not
running. -/
def Served (p : Process) : Prop :=
  ∀ ret, p.point = .returned ret → ret ≠ -1 → ⟨ret, false⟩ ∉ p.children

/-- No other child is outstanding where a foreground command forks its child. -/
def Alone : Event → Process → Prop
  | .fork ret, p => ret = -1 ∨ p.children = []
  | _, _ => True

/-- The steps of a foreground command from its fork until it goes back to the loop. -/
def stepInCall : LabelledStep Event Process := fun event p =>
  if event = .resume then none else step event p

/-! ## A command that is alone -/

variable {p q : Process} {event : Event} {children children' : List Child} {pid ret : Int}

theorem fork_cases (forks : fork ret children = some children') :
    ret = -1 ∧ children' = children ∨
      ret ≠ -1 ∧ (∀ child ∈ children, child.pid ≠ ret) ∧
        children' = children ++ [⟨ret, false⟩] := by
  unfold fork at forks
  split at forks
  · rename_i fails
    exact .inl ⟨fails, (Option.some.inj forks).symm⟩
  · rename_i succeeds
    split at forks
    · rename_i new
      exact .inr ⟨succeeds, new.2, (Option.some.inj forks).symm⟩
    · cases forks

/-- The process is in no call that waits or has just returned. -/
def Idle (p : Process) : Prop := ∀ ret, p.point ≠ .waiting ret ∧ p.point ≠ .returned ret

/-- What a step does to a process and its children. -/
inductive Effect : Event → Process → Process → Prop
  | idle {event : Event} (other : ∀ ret, event ≠ .fork ret) {p q : Process} (before : Idle p)
      (after : Idle q) : Effect event p q
  | fork (cmd : List String) {ret : Int} {children children' : List Child}
      (forks : Waits.fork ret children = some children') :
      Effect (.fork ret) ⟨.calling cmd, children⟩ ⟨.waiting ret, children'⟩
  | reap {pid : Int} {children : List Child} (ret : Int) (zombie : ⟨pid, true⟩ ∈ children) :
      Effect (.reap pid) ⟨.waiting ret, children⟩ ⟨.returned ret, children.erase ⟨pid, true⟩⟩
  | noChild (ret : Int) : Effect .noChild ⟨.waiting ret, []⟩ ⟨.returned ret, []⟩
  | resume (ret : Int) (children : List Child) :
      Effect .resume ⟨.returned ret, children⟩ ⟨.reading, children⟩
  | terminates (pid : Int) (p : Process) :
      Effect (.terminates pid) p { p with children := terminate pid p.children }

theorem step_effect (steps : step event p = some q) : Effect event p q := by
  rcases p with ⟨point, children⟩
  have reading (children : List Child) : Idle ⟨.reading, children⟩ := fun _ => ⟨nofun, nofun⟩
  have calling (cmd : List String) (children : List Child) : Idle ⟨.calling cmd, children⟩ :=
    fun _ => ⟨nofun, nofun⟩
  cases event with
  | background cmdlist ret =>
      obtain ⟨⟨rfl, -⟩, forked⟩ := Option.ite_none_right_eq_some.mp steps
      obtain ⟨children', -, rfl⟩ := Option.map_eq_some_iff.mp forked
      exact .idle (by simp) (reading _) (reading _)
  | foreground cmdlist =>
      obtain ⟨⟨rfl, -⟩, ⟨⟩⟩ := Option.ite_none_right_eq_some.mp steps
      exact .idle (by simp) (reading _) (calling _ _)
  | builtin =>
      cases point with
      | calling cmd =>
          simp only [step] at steps
          split at steps
          · cases steps
            exact .idle (by simp) (calling _ _) fun _ => ⟨nofun, nofun⟩
          · obtain ⟨-, ⟨⟩⟩ := Option.ite_none_right_eq_some.mp steps
            exact .idle (by simp) (calling _ _) (reading _)
      | _ => cases steps
  | fork ret =>
      cases point with
      | calling cmd =>
          obtain ⟨-, forked⟩ := Option.ite_none_right_eq_some.mp steps
          obtain ⟨children', forks, rfl⟩ := Option.map_eq_some_iff.mp forked
          exact .fork cmd forks
      | _ => cases steps
  | reap pid =>
      cases point with
      | waiting ret =>
          obtain ⟨zombie, ⟨⟩⟩ := Option.ite_none_right_eq_some.mp steps
          exact .reap ret zombie
      | _ => cases steps
  | noChild =>
      cases point with
      | waiting ret =>
          obtain ⟨rfl, ⟨⟩⟩ := Option.ite_none_right_eq_some.mp steps
          exact .noChild ret
      | _ => cases steps
  | resume =>
      cases point with
      | returned ret =>
          cases steps
          exact .resume ret children
      | _ => cases steps
  | terminates pid =>
      obtain ⟨-, ⟨⟩⟩ := Option.ite_none_right_eq_some.mp steps
      exact .terminates pid _

theorem terminate_singleton (terminated : Bool) :
    ∃ terminated', terminate pid [⟨ret, terminated⟩] = [⟨ret, terminated'⟩] := by
  by_cases same : ret = pid
  · exact ⟨true, by simp [terminate, same]⟩
  · exact ⟨terminated, by simp [terminate, same]⟩

/-- A foreground command has no child but its own while it waits, and none when it
returns. -/
structure Attended (p : Process) : Prop where
  waiting : ∀ ret, p.point = .waiting ret →
    ret = -1 ∨ ∃ terminated, p.children = [⟨ret, terminated⟩]
  returned : ∀ ret, p.point = .returned ret → ret = -1 ∨ p.children = []

theorem Attended.served (attended : Attended p) : Served p := by
  intro ret point succeeds running
  rcases attended.returned ret point with fails | none
  · exact succeeds fails
  · rw [none] at running
    cases running

theorem Idle.attended (idle : Idle p) : Attended p where
  waiting ret point := absurd point (idle ret).1
  returned ret point := absurd point (idle ret).2

theorem Process.Initial.attended (initial : p.Initial) : Attended p := by
  apply Idle.attended
  rcases initial with rfl | ⟨cmd, rfl⟩
  · exact fun _ => ⟨nofun, nofun⟩
  · exact fun _ => ⟨nofun, nofun⟩

/-- What the end of a child leaves is as good as before. -/
theorem Attended.terminate (attended : Attended p) (pid : Int) :
    Attended { p with children := terminate pid p.children } where
  waiting ret point := by
    rcases attended.waiting ret point with fails | ⟨terminated, own⟩
    · exact .inl fails
    · exact .inr (own ▸ terminate_singleton terminated)
  returned ret point := by
    rcases attended.returned ret point with fails | none
    · exact .inl fails
    · exact .inr (by simp [Waits.terminate, none])

/-- Where a wait returns, no child is left. -/
theorem Attended.reap (attended : Attended ⟨.waiting ret, children⟩)
    (zombie : ⟨pid, true⟩ ∈ children) :
    Attended ⟨.returned ret, children.erase ⟨pid, true⟩⟩ where
  waiting := nofun
  returned := by
    rintro _ ⟨⟩
    rcases attended.waiting ret rfl with fails | ⟨terminated, own⟩
    · exact .inl fails
    · obtain rfl : children = [⟨ret, terminated⟩] := own
      rw [List.mem_singleton] at zombie
      exact .inr (by simp [zombie])

/-- The fork of a command that is alone. -/
theorem Attended.fork (alone : ret = -1 ∨ children = [])
    (forks : Waits.fork ret children = some children') : Attended ⟨.waiting ret, children'⟩ where
  waiting := by
    rintro _ ⟨⟩
    rcases fork_cases forks with ⟨fails, -⟩ | ⟨succeeds, -, rfl⟩
    · exact .inl fails
    · obtain rfl := alone.resolve_left succeeds
      exact .inr ⟨false, rfl⟩
  returned := nofun

/-- Every step but the fork of a command that is not alone keeps the invariant. -/
theorem Attended.step (attended : Attended p) (alone : Alone event p)
    (steps : Waits.step event p = some q) : Attended q := by
  cases step_effect steps with
  | idle other before after => exact after.attended
  | fork cmd forks => exact .fork alone forks
  | reap ret zombie => exact attended.reap zombie
  | noChild ret => exact ⟨nofun, fun _ _ => .inr rfl⟩
  | resume ret children => exact Idle.attended fun _ => ⟨nofun, nofun⟩
  | terminates pid => exact attended.terminate pid

/-! ## From the fork to the return -/

/-- The process waits for a foreground command, or has just returned from it. -/
def InCall (p : Process) : Prop := ∃ ret, p.point = .waiting ret ∨ p.point = .returned ret

theorem InCall.not_idle (inCall : InCall p) : ¬Idle p := by
  intro idle
  rcases inCall with ⟨ret, waiting | returned⟩
  · exact (idle ret).1 waiting
  · exact (idle ret).2 returned

/-- During a call nothing is forked, and the call lasts until the process goes on. -/
theorem InCall.step (inCall : InCall p) (steps : stepInCall event p = some q) :
    Alone event p ∧ Waits.step event p = some q ∧ InCall q := by
  obtain ⟨notResume, steps⟩ := Option.ite_none_left_eq_some.mp steps
  cases step_effect steps with
  | idle other before after => exact absurd before inCall.not_idle
  | fork cmd forks => exact absurd (fun _ => ⟨nofun, nofun⟩) inCall.not_idle
  | reap ret zombie => exact ⟨trivial, steps, ret, .inr rfl⟩
  | noChild ret => exact ⟨trivial, steps, ret, .inr rfl⟩
  | resume ret children => exact absurd rfl notResume
  | terminates pid => exact ⟨trivial, steps, inCall⟩

/-- A call that starts with no child but its own is served. -/
theorem InCall.always_served (inCall : InCall q) (attended : Attended q) :
    Always stepInCall Served q := by
  intro r reachable
  have kept : InCall r ∧ Attended r := by
    refine Reachable.invariant (P := fun r => InCall r ∧ Attended r) reachable
      ⟨inCall, attended⟩ ?_
    rintro event p q ⟨inCall, attended⟩ steps
    rcases inCall.step steps with ⟨alone, steps, inCall⟩
    exact ⟨inCall, attended.step alone steps⟩
  exact kept.2.served

/-- The wait may return with another child that has terminated. -/
theorem not_served_of_zombie (zombie : ⟨pid, true⟩ ∈ children) (succeeds : ret ≠ -1)
    (own : ⟨ret, false⟩ ∈ children) : ¬Always stepInCall Served ⟨.waiting ret, children⟩ := by
  intro always
  have reaped : stepInCall (.reap pid) ⟨.waiting ret, children⟩ =
      some ⟨.returned ret, children.erase ⟨pid, true⟩⟩ := if_pos zombie
  refine always _ (.single reaped) ret rfl succeeds ?_
  rw [List.mem_erase_of_ne (by simp)]
  exact own

/-- Another child may terminate first. -/
theorem not_served_of_other {child : Child} (member : child ∈ children)
    (other : child.pid ≠ ret) (succeeds : ret ≠ -1) (own : ⟨ret, false⟩ ∈ children) :
    ¬Always stepInCall Served ⟨.waiting ret, children⟩ := by
  rcases child with ⟨pid, terminated | terminated⟩
  · have ends : stepInCall (.terminates pid) ⟨.waiting ret, children⟩ =
        some ⟨.waiting ret, terminate pid children⟩ := if_pos member
    have zombie : ⟨pid, true⟩ ∈ terminate pid children :=
      List.mem_map.mpr ⟨_, member, if_pos rfl⟩
    have still : ⟨ret, false⟩ ∈ terminate pid children :=
      List.mem_map.mpr ⟨_, own, if_neg (Ne.symm other)⟩
    intro always
    exact not_served_of_zombie zombie succeeds still fun r later =>
      always r ((Reachable.single ends).trans later)
  · exact not_served_of_zombie member succeeds own

/-- A foreground command is served in every order in which children terminate exactly when
it forks its child with no other child outstanding. -/
theorem always_served_iff (steps : step (.fork ret) p = some q) :
    Always stepInCall Served q ↔ Alone (.fork ret) p := by
  cases step_effect steps with
  | idle other before after => exact absurd rfl (other ret)
  | fork cmd forks =>
      constructor
      · intro always
        rcases fork_cases forks with ⟨fails, -⟩ | ⟨succeeds, new, rfl⟩
        · exact .inl fails
        · by_contra alone
          obtain ⟨child, member⟩ := List.exists_mem_of_ne_nil _ (not_or.mp alone).2
          exact not_served_of_other (List.mem_append_left _ member) (new child member) succeeds
            (List.mem_append_right _ List.mem_cons_self) always
      · intro alone
        exact InCall.always_served ⟨ret, .inl rfl⟩ (.fork alone forks)

/-- In a run of a process every foreground command is served in every order in which
children terminate exactly when it forks its child with no other child outstanding, and the
run is served throughout when each of its foreground commands does so. -/
theorem wait_serves_iff {start : Process} (initial : start.Initial) (labels : List Event) :
    (∀ p, Reachable step start p → ∀ ret q, step (.fork ret) p = some q →
      (Always stepInCall Served q ↔ Alone (.fork ret) p)) ∧
    (Along step Alone labels start → Throughout step Served labels start) := by
  constructor
  · intro p reachable ret q steps
    exact always_served_iff steps
  · intro along
    have each : ∀ ⦃event p q⦄, Attended p → Alone event p → step event p = some q → Attended q :=
      fun _ _ _ => Attended.step
    exact throughout_of_along each (fun _ => Attended.served) initial.attended along

/-- The program `sleep 5` in the foreground, behind a line whose copy of the shell is still
outstanding and in a run without it. -/
theorem wait_serves_iff_sleep :
    (Always stepInCall Served ⟨.waiting 102, [⟨101, false⟩, ⟨102, false⟩]⟩ ↔
      Alone (.fork 102) ⟨.calling ["sleep", "5"], [⟨101, false⟩]⟩) ∧
    Throughout step Served
      [.foreground ["sleep", "5"], .fork 102, .terminates 102, .reap 102] .shell := by
  constructor
  · have runs : runLabels step [.background ["exit", "&"] 101, .foreground ["sleep", "5"]] .shell =
        some ⟨.calling ["sleep", "5"], [⟨101, false⟩]⟩ := by
      decide
    exact (wait_serves_iff (.inl rfl) []).1 _ (.of_runLabels runs) 102 _ (by decide)
  · refine (wait_serves_iff (.inl rfl) _).2 ?_
    rintro p ⟨⟩
    exact ⟨trivial, fun p steps => by cases steps; exact ⟨.inr rfl, by simp [Along, Alone]⟩⟩

/-- After the line `exit &` the wait for `sleep 5` may return with the child of that line. -/
theorem wait_serves_fails : ¬∀ start : Process, start.Initial → Always step Served start := by
  intro always
  have runs : runLabels step [.background ["exit", "&"] 101, .foreground ["sleep", "5"],
      .fork 102, .terminates 101, .reap 101] .shell = some ⟨.returned 102, [⟨102, false⟩]⟩ := by
    decide
  exact always .shell (.inl rfl) _ (.of_runLabels runs) 102 rfl (by decide) List.mem_cons_self

end QuashLabs.QuashProject.Waits
