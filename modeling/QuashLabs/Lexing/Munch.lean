import QuashLabs.Lexing.Pattern

/-!
# The longest match

A scanner has rules, each a pattern with something to do. It takes the longest nonempty
prefix of the input that some rule matches, and the first rule that matches it.
-/

namespace QuashLabs.Lexing

universe u v

variable {α : Type u} {κ : Type v}

/-- The first rule that matches a word. -/
def firstMatch (rules : List (Pattern α × κ)) (word : List α) : Option κ :=
  (rules.find? fun rule => rule.1.accepts word).map Prod.snd

/-- The longest match among the prefixes of at most `bound` characters. -/
def longestMatch (rules : List (Pattern α × κ)) (input : List α) : Nat → Option (κ × Nat)
  | 0 => none
  | bound + 1 =>
      match firstMatch rules (input.take (bound + 1)) with
      | some kind => some (kind, bound + 1)
      | none => longestMatch rules input bound

/-- The longest match of the input: its rule, the matched text and the rest. -/
def munch (rules : List (Pattern α × κ)) (input : List α) : Option (κ × List α × List α) :=
  (longestMatch rules input input.length).map fun found =>
    (found.1, input.take found.2, input.drop found.2)

variable {rules before after : List (Pattern α × κ)} {pattern : Pattern α} {kind : κ}
variable {input lexeme rest : List α}

theorem firstMatch_eq_none_iff {word : List α} :
    firstMatch rules word = none ↔ ∀ rule ∈ rules, ¬Matches rule.1 word := by
  simp [firstMatch, ← accepts_iff]

/-- A rule is the first to match when those before it do not. -/
theorem firstMatch_append {word : List α} (here : Matches pattern word)
    (earlier : ∀ rule ∈ before, ¬Matches rule.1 word) :
    firstMatch (before ++ (pattern, kind) :: after) word = some kind := by
  have none : before.find? (fun rule => rule.1.accepts word) = none := by
    simpa [← accepts_iff] using earlier
  simp [firstMatch, List.find?_append, none, accepts_iff.mpr here]

/-- A word that some rule matches is taken by these rules, whatever rules stand behind. -/
theorem firstMatch_append_left {word : List α} (first : firstMatch before word = some kind) :
    firstMatch (before ++ after) word = some kind := by
  obtain ⟨rule, found, rfl⟩ := Option.map_eq_some_iff.mp first
  rw [firstMatch, List.find?_append, found]
  rfl

theorem longestMatch_spec {bound n : Nat}
    (found : longestMatch rules input bound = some (kind, n)) :
    0 < n ∧ n ≤ bound ∧ firstMatch rules (input.take n) = some kind := by
  induction bound with
  | zero => cases found
  | succ bound ih =>
      rw [longestMatch] at found
      split at found
      · rename_i first
        cases found
        exact ⟨Nat.succ_pos bound, Nat.le_refl _, first⟩
      · obtain ⟨positive, inside, first⟩ := ih found
        exact ⟨positive, Nat.le_succ_of_le inside, first⟩

/-- Nothing longer than the matched text matches. -/
theorem longestMatch_eq {bound n : Nat} (inside : n ≤ bound) (positive : 0 < n)
    (first : firstMatch rules (input.take n) = some kind)
    (longer : ∀ m, n < m → m ≤ bound → firstMatch rules (input.take m) = none) :
    longestMatch rules input bound = some (kind, n) := by
  induction bound with
  | zero => omega
  | succ bound ih =>
      rw [longestMatch]
      rcases Nat.lt_or_eq_of_le inside with shorter | rfl
      · rw [longer (bound + 1) shorter (Nat.le_refl _)]
        exact ih (Nat.le_of_lt_succ shorter) fun m above below =>
          longer m above (Nat.le_succ_of_le below)
      · rw [first]

/-- The matched text is a nonempty prefix of the input. -/
theorem munch_split (found : munch rules input = some (kind, lexeme, rest)) :
    input = lexeme ++ rest ∧ lexeme ≠ [] := by
  obtain ⟨⟨kind', n⟩, longest, parts⟩ := Option.map_eq_some_iff.mp found
  obtain ⟨positive, inside, -⟩ := longestMatch_spec longest
  simp only [Prod.mk.injEq] at parts
  obtain ⟨-, rfl, rfl⟩ := parts
  refine ⟨(List.take_append_drop n input).symm, ?_⟩
  rw [← List.length_pos_iff, List.length_take_of_le inside]
  exact positive

/-- What a rule does that matches first. -/
theorem rule_of_firstMatch {word : List α} (first : firstMatch rules word = some kind) :
    ∃ rule ∈ rules, rule.2 = kind ∧ Matches rule.1 word := by
  obtain ⟨rule, found, rfl⟩ := Option.map_eq_some_iff.mp first
  have accepted : rule.1.accepts word = true := by simpa using List.find?_some found
  exact ⟨rule, List.mem_of_find?_eq_some found, rfl, accepts_iff.mp accepted⟩

/-- The matched text is a word of one of the rules, the first of them. -/
theorem firstMatch_of_munch (found : munch rules input = some (kind, lexeme, rest)) :
    firstMatch rules lexeme = some kind := by
  obtain ⟨⟨kind', n⟩, longest, parts⟩ := Option.map_eq_some_iff.mp found
  obtain ⟨-, -, first⟩ := longestMatch_spec longest
  simp only [Prod.mk.injEq] at parts
  obtain ⟨rfl, rfl, -⟩ := parts
  exact first

/-- The longest match is the text that a rule matches first, when no rule matches a text
that goes on behind it. -/
theorem munch_eq (nonempty : lexeme ≠ []) (first : firstMatch rules lexeme = some kind)
    (longer : ∀ more behind, rest = more ++ behind → more ≠ [] →
      ∀ rule ∈ rules, ¬Matches rule.1 (lexeme ++ more)) :
    munch rules (lexeme ++ rest) = some (kind, lexeme, rest) := by
  have found : longestMatch rules (lexeme ++ rest) (lexeme ++ rest).length =
      some (kind, lexeme.length) := by
    apply longestMatch_eq
    · simp
    · exact List.length_pos_iff.mpr nonempty
    · rw [List.take_left]
      exact first
    · intro m above below
      rw [firstMatch_eq_none_iff, List.take_append, List.take_of_length_le (Nat.le_of_lt above)]
      apply longer _ (rest.drop (m - lexeme.length)) (List.take_append_drop _ rest).symm
      rw [List.length_append] at below
      rw [← List.length_pos_iff, List.length_take]
      omega
  rw [munch, found]
  simp

end QuashLabs.Lexing
