import Mathlib.Data.List.Basic

/-!
# Patterns

Regular expressions whose letters are classes of characters, given by a test. A pattern
decides its words one character at a time through its derivatives. Two simple tests on a
pattern, which characters its words may begin with and which they may contain, exclude
most words without looking at derivatives.
-/

namespace QuashLabs.Lexing

universe u

/-- Patterns over characters of any kind. -/
inductive Pattern (α : Type u)
  | nothing
  | empty
  | one (test : α → Bool)
  | seq (first second : Pattern α)
  | alt (left right : Pattern α)
  | star (item : Pattern α)

variable {α : Type u}

/-- The words of a pattern. -/
inductive Matches : Pattern α → List α → Prop
  | empty : Matches .empty []
  | one {test : α → Bool} {c : α} (passes : test c = true) : Matches (.one test) [c]
  | seq {first second : Pattern α} {u v : List α} (before : Matches first u)
      (after : Matches second v) : Matches (.seq first second) (u ++ v)
  | left {left right : Pattern α} {w : List α} (here : Matches left w) :
      Matches (.alt left right) w
  | right {left right : Pattern α} {w : List α} (here : Matches right w) :
      Matches (.alt left right) w
  | nil {item : Pattern α} : Matches (.star item) []
  | cons {item : Pattern α} {u v : List α} (first : Matches item u)
      (more : Matches (.star item) v) : Matches (.star item) (u ++ v)

namespace Pattern

/-- One or more words of a pattern. -/
def plus (item : Pattern α) : Pattern α := .seq item (.star item)

/-- A fixed word. -/
def word [DecidableEq α] : List α → Pattern α
  | [] => .empty
  | c :: rest => .seq (.one (· == c)) (word rest)

/-- The pattern has the empty word. -/
def nullable : Pattern α → Bool
  | .nothing => false
  | .empty => true
  | .one _ => false
  | .seq first second => first.nullable && second.nullable
  | .alt left right => left.nullable || right.nullable
  | .star _ => true

/-- What may stand behind a first character. -/
def deriv (c : α) : Pattern α → Pattern α
  | .nothing => .nothing
  | .empty => .nothing
  | .one test => if test c then .empty else .nothing
  | .seq first second =>
      if first.nullable then .alt (.seq (first.deriv c) second) (second.deriv c)
      else .seq (first.deriv c) second
  | .alt left right => .alt (left.deriv c) (right.deriv c)
  | .star item => .seq (item.deriv c) (.star item)

/-- The pattern has the word. -/
def accepts : Pattern α → List α → Bool
  | p, [] => p.nullable
  | p, c :: rest => (p.deriv c).accepts rest

/-- A word of the pattern may begin with the character. -/
def begins (c : α) : Pattern α → Bool
  | .nothing => false
  | .empty => false
  | .one test => test c
  | .seq first second => first.begins c || first.nullable && second.begins c
  | .alt left right => left.begins c || right.begins c
  | .star item => item.begins c

/-- A word of the pattern may contain the character. -/
def contains (c : α) : Pattern α → Bool
  | .nothing => false
  | .empty => false
  | .one test => test c
  | .seq first second => first.contains c || second.contains c
  | .alt left right => left.contains c || right.contains c
  | .star item => item.contains c

end Pattern

variable {p first second left right item : Pattern α} {c : α} {u v w : List α}

/-! ## What matches -/

@[simp]
theorem matches_one_iff {test : α → Bool} :
    Matches (.one test) w ↔ ∃ c, test c = true ∧ w = [c] := by
  constructor
  · rintro ⟨⟩
    rename_i c passes
    exact ⟨c, passes, rfl⟩
  · rintro ⟨c, passes, rfl⟩
    exact .one passes

@[simp]
theorem matches_alt_iff : Matches (.alt left right) w ↔ Matches left w ∨ Matches right w := by
  constructor
  · intro either
    cases either with
    | left here => exact .inl here
    | right here => exact .inr here
  · rintro (here | here)
    · exact .left here
    · exact .right here

theorem matches_seq_iff :
    Matches (.seq first second) w ↔ ∃ u v, w = u ++ v ∧ Matches first u ∧ Matches second v := by
  constructor
  · rintro ⟨⟩
    rename_i u v before after
    exact ⟨u, v, rfl, before, after⟩
  · rintro ⟨u, v, rfl, before, after⟩
    exact .seq before after

/-- A nonempty word of a star begins with a nonempty word of the pattern. -/
theorem matches_star_cons_iff :
    Matches (.star item) (c :: w) ↔
      ∃ u v, w = u ++ v ∧ Matches item (c :: u) ∧ Matches (.star item) v := by
  constructor
  · intro whole
    generalize split : c :: w = word at whole
    generalize shape : Pattern.star item = pattern at whole
    induction whole with
    | nil => cases split
    | @cons item' u v first more _ ih =>
        cases shape
        cases u with
        | nil => exact ih split rfl
        | cons d u =>
            obtain ⟨rfl, rfl⟩ := List.cons.inj split
            exact ⟨u, v, rfl, first, more⟩
    | _ => cases shape
  · rintro ⟨u, v, rfl, first, more⟩
    exact .cons first more

/-- A fixed word matches itself only. -/
theorem matches_word_iff [DecidableEq α] {word : List α} : Matches (.word word) w ↔ w = word := by
  induction word generalizing w with
  | nil =>
      constructor
      · rintro ⟨⟩
        rfl
      · rintro rfl
        exact .empty
  | cons d word ih =>
      simp only [Pattern.word, matches_seq_iff, matches_one_iff, ih, beq_iff_eq]
      constructor
      · rintro ⟨_, _, rfl, ⟨_, rfl, rfl⟩, rfl⟩
        rfl
      · rintro rfl
        exact ⟨[d], word, rfl, ⟨d, rfl, rfl⟩, rfl⟩

/-- Any number of characters of a class. -/
theorem matches_star_one_iff {test : α → Bool} :
    Matches (.star (.one test)) w ↔ ∀ c ∈ w, test c = true := by
  induction w with
  | nil => exact ⟨fun _ c member => absurd member List.not_mem_nil, fun _ => .nil⟩
  | cons c w ih =>
      rw [matches_star_cons_iff, List.forall_mem_cons, ← ih]
      constructor
      · rintro ⟨u, v, rfl, first, more⟩
        obtain ⟨d, passes, same⟩ := matches_one_iff.mp first
        obtain ⟨rfl, rfl⟩ := List.cons.inj same
        exact ⟨passes, more⟩
      · rintro ⟨passes, more⟩
        exact ⟨[], w, rfl, .one passes, more⟩

/-- One or more characters of a class. -/
theorem matches_plus_one_iff {test : α → Bool} :
    Matches (.plus (.one test)) w ↔ w ≠ [] ∧ ∀ c ∈ w, test c = true := by
  rw [Pattern.plus, matches_seq_iff]
  constructor
  · rintro ⟨u, v, rfl, first, more⟩
    obtain ⟨c, passes, rfl⟩ := matches_one_iff.mp first
    rw [List.singleton_append, List.forall_mem_cons]
    exact ⟨List.cons_ne_nil c v, passes, matches_star_one_iff.mp more⟩
  · rintro ⟨nonempty, all⟩
    obtain ⟨c, v, rfl⟩ := List.exists_cons_of_ne_nil nonempty
    rw [List.forall_mem_cons] at all
    exact ⟨[c], v, rfl, .one all.1, matches_star_one_iff.mpr all.2⟩

/-! ## Deciding -/

theorem nullable_iff : p.nullable = true ↔ Matches p [] := by
  induction p with
  | nothing => exact ⟨nofun, nofun⟩
  | empty => exact ⟨fun _ => .empty, fun _ => rfl⟩
  | one test => simp [Pattern.nullable]
  | seq first second ihFirst ihSecond =>
      rw [Pattern.nullable, Bool.and_eq_true, ihFirst, ihSecond, matches_seq_iff]
      constructor
      · rintro ⟨before, after⟩
        exact ⟨[], [], rfl, before, after⟩
      · rintro ⟨u, v, split, before, after⟩
        obtain ⟨rfl, rfl⟩ := List.append_eq_nil_iff.mp split.symm
        exact ⟨before, after⟩
  | alt left right ihLeft ihRight =>
      rw [Pattern.nullable, Bool.or_eq_true, ihLeft, ihRight, matches_alt_iff]
  | star item _ => exact ⟨fun _ => .nil, fun _ => rfl⟩

/-- The derivative has what stands behind the character. -/
theorem matches_deriv_iff : Matches (p.deriv c) w ↔ Matches p (c :: w) := by
  induction p generalizing w with
  | nothing => exact ⟨nofun, nofun⟩
  | empty => exact ⟨nofun, nofun⟩
  | one test =>
      unfold Pattern.deriv
      by_cases passes : test c = true
      · rw [if_pos passes]
        constructor
        · rintro ⟨⟩
          exact .one passes
        · rintro ⟨⟩
          exact .empty
      · rw [if_neg passes]
        exact ⟨nofun, fun here => by cases here; contradiction⟩
  | seq first second ihFirst ihSecond =>
      have split : Matches (.seq first second) (c :: w) ↔
          Matches (.seq (first.deriv c) second) w ∨
            Matches first [] ∧ Matches second (c :: w) := by
        simp only [matches_seq_iff, ihFirst]
        constructor
        · rintro ⟨u, v, split, before, after⟩
          cases u with
          | nil => exact .inr ⟨before, by rw [split]; exact after⟩
          | cons d u =>
              obtain ⟨rfl, rfl⟩ := List.cons.inj split
              exact .inl ⟨u, v, rfl, before, after⟩
        · rintro (⟨u, v, rfl, before, after⟩ | ⟨before, after⟩)
          · exact ⟨c :: u, v, rfl, before, after⟩
          · exact ⟨[], c :: w, rfl, before, after⟩
      rw [split, ← nullable_iff, Pattern.deriv]
      by_cases null : first.nullable = true
      · simp [null, ihSecond]
      · simp [null]
  | alt left right ihLeft ihRight =>
      rw [Pattern.deriv, matches_alt_iff, matches_alt_iff, ihLeft, ihRight]
  | star item ih =>
      simp only [Pattern.deriv, matches_seq_iff, matches_star_cons_iff, ih]

/-- A pattern decides its words. -/
theorem accepts_iff : p.accepts w = true ↔ Matches p w := by
  induction w generalizing p with
  | nil => exact nullable_iff
  | cons c w ih => rw [Pattern.accepts, ih, matches_deriv_iff]

instance : Decidable (Matches p w) := decidable_of_iff _ accepts_iff

/-! ## Excluding words -/

theorem begins_of_matches (here : Matches p (c :: w)) : p.begins c = true := by
  induction p generalizing w with
  | nothing => cases here
  | empty => cases here
  | one test =>
      obtain ⟨_, passes, rest⟩ := matches_one_iff.mp here
      cases rest
      exact passes
  | seq first second ihFirst ihSecond =>
      rw [Pattern.begins, Bool.or_eq_true, Bool.and_eq_true]
      obtain ⟨u, v, split, before, after⟩ := matches_seq_iff.mp here
      cases u with
      | nil =>
          obtain rfl : c :: w = v := split
          exact .inr ⟨nullable_iff.mpr before, ihSecond after⟩
      | cons d u =>
          obtain ⟨rfl, rfl⟩ := List.cons.inj split
          exact .inl (ihFirst before)
  | alt left right ihLeft ihRight =>
      rw [Pattern.begins, Bool.or_eq_true]
      exact (matches_alt_iff.mp here).imp ihLeft ihRight
  | star item ih =>
      obtain ⟨u, v, -, first, -⟩ := matches_star_cons_iff.mp here
      exact ih first

theorem contains_of_matches (here : Matches p w) : ∀ c ∈ w, p.contains c = true := by
  induction here with
  | empty => exact nofun
  | one passes =>
      intro c member
      rw [List.mem_singleton.mp member]
      exact passes
  | seq _ _ ihBefore ihAfter =>
      intro c member
      rw [Pattern.contains, Bool.or_eq_true]
      exact (List.mem_append.mp member).imp (ihBefore c) (ihAfter c)
  | left _ ih =>
      intro c member
      rw [Pattern.contains, Bool.or_eq_true]
      exact .inl (ih c member)
  | right _ ih =>
      intro c member
      rw [Pattern.contains, Bool.or_eq_true]
      exact .inr (ih c member)
  | nil => exact nofun
  | cons _ _ ihFirst ihMore =>
      intro c member
      exact (List.mem_append.mp member).elim (ihFirst c) (ihMore c)

/-! ## Patterns whose words end by themselves -/

/-- No word of the pattern begins another one. -/
def PrefixFree (p : Pattern α) : Prop :=
  ∀ {u v u' v'}, Matches p u → Matches p u' → u ++ v = u' ++ v' → u = u'

/-- Behind words of such a pattern a longer sequence goes on with further words. -/
theorem matches_star_of_append (free : PrefixFree item) (null : item.nullable = false)
    (before : Matches (.star item) u) (whole : Matches (.star item) (u ++ v)) :
    Matches (.star item) v := by
  generalize shape : Pattern.star item = pattern at before
  induction before with
  | nil =>
      cases shape
      exact whole
  | @cons item' first' more' first more _ ih =>
      cases shape
      cases first' with
      | nil =>
          rw [nullable_iff.mpr first] at null
          cases null
      | cons c first' =>
          rw [List.append_assoc, List.cons_append, matches_star_cons_iff] at whole
          obtain ⟨u, rest, split, other, later⟩ := whole
          have same : c :: first' = c :: u := free first other (congrArg (c :: ·) split)
          obtain ⟨-, rfl⟩ := List.cons.inj same
          exact ih ((List.append_cancel_left split) ▸ later) rfl
  | _ => cases shape

end QuashLabs.Lexing
