import QuashLabs.Bison.Climb
import QuashLabs.Quash.Parsing.Actions

/-!
# Types of semantic values

Every symbol of the grammar has its member of the union of semantic values. The actions
give values of the right types and read no member that was not written. Only two of them
can fail: interpreting a string, and looking up the home directory.
-/

namespace QuashLabs.Quash.Parsing

open QuashLabs.Bison QuashLabs.Checked

/-- The value is of the type of the symbol. -/
def Typed : Nat → Value → Prop
  | 18, v | 19, v | 20, v | 21, v | 22, v | 34, v | 35, v | 36, v => ∃ s, v = .str s
  | 25, v => ∃ cmd cmds, v = .cmdList (cmd :: cmds)
  | 26, v => ∃ h, v = .holder h
  | 27, v => ∃ c, v = .cmd c
  | 28, v | 29, v => ∃ r, v = .redirect r
  | 30, v | 31, v => ∃ i, v = .integer i
  | 32, v | 33, v => ∃ args, v = .cmdStrs args
  | _, _ => True

/-- The values of the parser. -/
def types (world : World) : Typing (parser world) automaton where
  typed := Typed
  ofToken token := by cases token <;> first | trivial | exact ⟨_, rfl⟩
  ofError := trivial
  final rule final values typed := by
    have top : rule = 2 ∨ rule = 3 ∨ rule = 4 ∨ rule = 5 ∨ rule = 6 := by
      simpa [automaton] using final
    rcases top with rfl | rfl | rfl | rfl | rfl
    · exact ⟨_, .inl rfl⟩
    · rcases typed with _ | ⟨⟨cmd, cmds, rfl⟩, _ | ⟨_, _ | _⟩⟩
      exact ⟨_, .inl rfl⟩
    · rcases typed with _ | ⟨⟨cmd, cmds, rfl⟩, _ | ⟨_, _ | _⟩⟩
      exact ⟨_, .inl rfl⟩
    · exact ⟨_, .inr rfl⟩
    · exact ⟨_, .inr rfl⟩

variable {world : World}

/-- The rules whose actions cannot fail. -/
def calmRules : List Nat :=
  [7, 8, 9, 10, 11, 12, 13] ++ List.range' 15 26 ++ [42, 43, 44]

theorem calm_rule {rule : Nat} (mem : rule ∈ calmRules) : (types world).Calm rule := by
  intro values typed
  simp only [calmRules, List.range', List.mem_cons, List.not_mem_nil, or_false,
    List.cons_append, List.nil_append] at mem
  rcases mem with rfl | rfl | rfl | rfl | rfl | rfl | rfl | rfl | rfl | rfl | rfl | rfl | rfl |
    rfl | rfl | rfl | rfl | rfl | rfl | rfl | rfl | rfl | rfl | rfl | rfl | rfl | rfl | rfl | rfl |
    rfl | rfl | rfl | rfl | rfl | rfl | rfl
  -- `cmds` and `cmd_top`
  · rcases typed with _ | ⟨⟨top, rfl⟩, _ | _⟩
    exact ⟨_, rfl, _, _, rfl⟩
  · rcases typed with _ | ⟨⟨top, rfl⟩, _ | ⟨_, _ | ⟨⟨cmd, cmds, rfl⟩, _ | _⟩⟩⟩
    exact ⟨_, rfl, _, _, rfl⟩
  · rcases typed with _ | ⟨⟨content, rfl⟩, _ | ⟨⟨redir, rfl⟩, _ | ⟨⟨bg, rfl⟩, _ | _⟩⟩⟩
    exact ⟨_, rfl, _, rfl⟩
  -- `cmd_content`
  · rcases typed with _ | ⟨⟨args, rfl⟩, _ | _⟩
    exact ⟨_, rfl, _, rfl⟩
  · exact ⟨_, rfl, _, rfl⟩
  · rcases typed with _ | ⟨_, _ | ⟨⟨args, rfl⟩, _ | _⟩⟩
    exact ⟨_, rfl, _, rfl⟩
  · rcases typed with _ | ⟨_, _ | ⟨⟨name, rfl⟩, _ | ⟨_, _ | ⟨⟨val, rfl⟩, _ | _⟩⟩⟩⟩
    exact ⟨_, rfl, _, rfl⟩
  · rcases typed with _ | ⟨_, _ | ⟨⟨dir, rfl⟩, _ | _⟩⟩
    exact ⟨_, rfl, _, rfl⟩
  · exact ⟨_, rfl, _, rfl⟩
  · exact ⟨_, rfl, _, rfl⟩
  · exact ⟨_, rfl, _, rfl⟩
  · rcases typed with _ | ⟨_, _ | ⟨⟨sig, rfl⟩, _ | ⟨⟨job, rfl⟩, _ | _⟩⟩⟩
    exact ⟨_, rfl, _, rfl⟩
  -- `redir`, `redir_inner`, `redir_mark` and `cmd_bg`
  · rcases typed with _ | ⟨⟨redir, rfl⟩, _ | _⟩
    exact ⟨_, rfl, _, rfl⟩
  · exact ⟨_, rfl, _, rfl⟩
  · rcases typed with _ | ⟨⟨mark, rfl⟩, _ | ⟨⟨file, rfl⟩, _ | ⟨⟨redir, rfl⟩, _ | _⟩⟩⟩
    exact ⟨_, rfl, _, rfl⟩
  · rcases typed with _ | ⟨⟨mark, rfl⟩, _ | ⟨⟨file, rfl⟩, _ | _⟩⟩
    exact ⟨_, rfl, _, rfl⟩
  · exact ⟨_, rfl, _, rfl⟩
  · exact ⟨_, rfl, _, rfl⟩
  · exact ⟨_, rfl, _, rfl⟩
  · exact ⟨_, rfl, _, rfl⟩
  · exact ⟨_, rfl, _, rfl⟩
  -- `cmd` and `cmd_arguments`
  · rcases typed with _ | ⟨⟨str, rfl⟩, _ | ⟨⟨args, rfl⟩, _ | _⟩⟩
    exact ⟨_, rfl, _, rfl⟩
  · rcases typed with _ | ⟨⟨str, rfl⟩, _ | _⟩
    exact ⟨_, rfl, _, rfl⟩
  · rcases typed with _ | ⟨⟨str, rfl⟩, _ | _⟩
    exact ⟨_, rfl, _, rfl⟩
  · rcases typed with _ | ⟨⟨str, rfl⟩, _ | ⟨⟨args, rfl⟩, _ | _⟩⟩
    exact ⟨_, rfl, _, rfl⟩
  -- `string`, `special_string` and `first_string`
  · rcases typed with _ | ⟨⟨str, rfl⟩, _ | _⟩
    exact ⟨_, rfl, _, rfl⟩
  · rcases typed with _ | ⟨⟨str, rfl⟩, _ | _⟩
    exact ⟨_, rfl, _, rfl⟩
  · exact ⟨_, rfl, _, rfl⟩
  · exact ⟨_, rfl, _, rfl⟩
  · exact ⟨_, rfl, _, rfl⟩
  · exact ⟨_, rfl, _, rfl⟩
  · exact ⟨_, rfl, _, rfl⟩
  · rcases typed with _ | ⟨⟨str, rfl⟩, _ | _⟩
    exact ⟨_, rfl, _, rfl⟩
  · rcases typed with _ | ⟨⟨str, rfl⟩, _ | _⟩
    exact ⟨_, rfl, _, rfl⟩
  · rcases typed with _ | ⟨⟨str, rfl⟩, _ | _⟩
    exact ⟨_, rfl, _, rfl⟩
  · rcases typed with _ | ⟨⟨str, rfl⟩, _ | _⟩
    exact ⟨_, rfl, _, rfl⟩

end QuashLabs.Quash.Parsing
