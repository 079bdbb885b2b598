import Mathlib.Data.Nat.Digits.Defs
import QuashLabs.Quash.Parsing.BareWords
import QuashLabs.Quash.Parsing.Command

/-!
# The numbers of a `kill`

`mk_kill_command` reads its two numerals with `strtol`, which stops at the largest `long`,
and stores the results in an `int`, which drops the upper bits. A numeral that fits an
`int` is stored as it is and a numeral beyond the largest `long` as -1, but between the two
bounds one of each two numbers is stored as another positive number.
-/

namespace QuashLabs.Quash.Parsing

open QuashLabs.Lexing Scanner

variable {text text' : CStr}

/-- The digit that a character stands for. -/
def digitOf (c : Char) : Nat := c.toNat - '0'.toNat

/-- The number that a text of digits denotes. -/
def numberOf (text : CStr) : Nat := Nat.ofDigits 10 (text.reverse.map digitOf)

/-- The number is stored as written when it fits an `int`. -/
def StoredAsWritten (text : CStr) (stored : Int) : Prop :=
  numberOf text < 2 ^ 31 → stored = numberOf text

/-- Different numbers are not stored as the same positive number. -/
def StoredApart (text text' : CStr) (stored stored' : Int) : Prop :=
  numberOf text ≠ numberOf text' → ¬(0 < stored ∧ stored = stored')

/-- Two `kill` commands hold the numbers that are written and fit an `int`, and the same
positive signal or job only for the same number. -/
def HoldNumbers (sig job sig' job' : CStr) : Prop :=
  ∃ s j s' j', mkKillCommand sig job = .kill s j sig job ∧
    mkKillCommand sig' job' = .kill s' j' sig' job' ∧
    (StoredAsWritten sig s ∧ StoredAsWritten job j ∧
      StoredAsWritten sig' s' ∧ StoredAsWritten job' j') ∧
    StoredApart sig sig' s s' ∧ StoredApart job job' j j'

/-- Two different numbers up to the largest `long` that differ by a multiple of `2 ^ 32`,
and whose lower bits are those of a positive `int`. -/
def Confused (text text' : CStr) : Prop :=
  numberOf text ≠ numberOf text' ∧ numberOf text < 2 ^ 63 ∧ numberOf text' < 2 ^ 63 ∧
    numberOf text % 2 ^ 32 = numberOf text' % 2 ^ 32 ∧
    0 < numberOf text % 2 ^ 32 ∧ numberOf text % 2 ^ 32 < 2 ^ 31

/-! ## What is stored -/

theorem decimal_eq (digits : ∀ c ∈ text, c.isDigit = true) : decimal text = numberOf text := by
  have all : text.takeWhile Char.isDigit = text := List.takeWhile_eq_self_iff.mpr digits
  rw [decimal, all, numberOf, Nat.ofDigits_eq_foldr, List.foldr_map, List.foldr_reverse]
  simp [digitOf, Nat.add_comm]

/-- `strtol` reads the number up to the largest `long`. -/
theorem strtol_eq (digits : Matches number text) :
    strtol text = min (numberOf text : Int) (2 ^ 63 - 1) := by
  have all := (matches_number_iff.mp digits).2
  rw [← decimal_eq all]
  cases text with
  | nil => rfl
  | cons c text =>
      have other : ∀ d : Char, d.isDigit = false → c ≠ d := by
        rintro d notDigit rfl
        rw [all c List.mem_cons_self] at notDigit
        cases notDigit
      have word : (c :: text).dropWhile isSpace = c :: text := by
        rw [List.dropWhile_cons_of_neg]
        simp [isSpace, other]
      unfold strtol
      rw [word]
      split
      · rename_i same
        exact absurd (List.cons.inj same).1 (other '-' rfl)
      · rename_i same
        exact absurd (List.cons.inj same).1 (other '+' rfl)
      · rfl

/-- A number up to the largest `long` keeps its lower bits, and a larger one is stored
as -1. -/
theorem stored_eq (digits : Matches number text) :
    intOfLong (strtol text) =
      if numberOf text < 2 ^ 63 then (numberOf text : Int).bmod (2 ^ 32) else -1 := by
  rw [strtol_eq digits, intOfLong]
  split
  · rename_i small
    rw [min_eq_left (by omega)]
  · rename_i large
    rw [min_eq_right (by omega)]
    rfl

theorem storedAsWritten (digits : Matches number text) :
    StoredAsWritten text (intOfLong (strtol text)) := by
  intro fits
  rw [stored_eq digits, if_pos (by omega)]
  exact Int.bmod_eq_of_le_mul_two (by omega) (by omega)

/-- A stored number is positive when the lower bits of the written one are those of a
positive `int`. -/
theorem stored_positive {n : Nat} (positive : 0 < (n : Int).bmod (2 ^ 32)) :
    (n : Int).bmod (2 ^ 32) = (n % 2 ^ 32 : Nat) ∧ 0 < n % 2 ^ 32 ∧ n % 2 ^ 32 < 2 ^ 31 := by
  rw [Int.bmod_def] at positive ⊢
  split at positive
  · rename_i small
    rw [if_pos small]
    omega
  · omega

theorem stored_of_lower {n : Nat} (small : n % 2 ^ 32 < 2 ^ 31) :
    (n : Int).bmod (2 ^ 32) = (n % 2 ^ 32 : Nat) := by
  rw [Int.bmod_def, if_pos (by omega)]
  omega

theorem storedApart_iff (digits : Matches number text) (digits' : Matches number text') :
    StoredApart text text' (intOfLong (strtol text)) (intOfLong (strtol text')) ↔
      ¬ Confused text text' := by
  rw [stored_eq digits, stored_eq digits']
  constructor
  · rintro apart ⟨different, small, small', lower, positive, half⟩
    apply apart different
    rw [if_pos small, if_pos small', stored_of_lower half, stored_of_lower (lower ▸ half), lower]
    rw [lower] at positive
    exact ⟨Int.natCast_pos.mpr positive, rfl⟩
  · rintro distinguished different ⟨positive, same⟩
    apply distinguished
    by_cases small : numberOf text < 2 ^ 63
    · rw [if_pos small] at positive same
      by_cases small' : numberOf text' < 2 ^ 63
      · rw [if_pos small'] at same
        rcases stored_positive positive with ⟨value, above, below⟩
        rcases stored_positive (same ▸ positive) with ⟨value', -, -⟩
        rw [value, value'] at same
        exact ⟨different, small, small', Int.natCast_inj.mp same, above, below⟩
      · rw [if_neg small'] at same
        omega
    · rw [if_neg small] at positive
      omega

/-- Two `kill` commands hold the numbers of their numerals exactly when neither the two
signals nor the two jobs are different numbers with the same lower bits. -/
theorem kill_numbers_iff {sig job sig' job' : CStr} (isSig : yylex sig = (.num sig, []))
    (isJob : yylex job = (.num job, [])) (isSig' : yylex sig' = (.num sig', []))
    (isJob' : yylex job' = (.num job', [])) :
    HoldNumbers sig job sig' job' ↔ ¬ Confused sig sig' ∧ ¬ Confused job job' := by
  rw [yylex_eq_num_iff] at isSig isJob isSig' isJob'
  rw [← storedApart_iff isSig isSig', ← storedApart_iff isJob isJob']
  constructor
  · rintro ⟨s, j, s', j', command, command', -, sigs, jobs⟩
    cases command
    cases command'
    exact ⟨sigs, jobs⟩
  · rintro ⟨sigs, jobs⟩
    exact ⟨_, _, _, _, rfl, rfl, ⟨storedAsWritten isSig, storedAsWritten isJob,
      storedAsWritten isSig', storedAsWritten isJob'⟩, sigs, jobs⟩

/-- For `kill 9 1` and `kill 9 2`. -/
theorem kill_numbers_iff_two :
    HoldNumbers "9".toList "1".toList "9".toList "2".toList ↔
      ¬ Confused "9".toList "9".toList ∧ ¬ Confused "1".toList "2".toList :=
  kill_numbers_iff (yylex_eq_num_iff.mpr (by decide)) (yylex_eq_num_iff.mpr (by decide))
    (yylex_eq_num_iff.mpr (by decide)) (yylex_eq_num_iff.mpr (by decide))

/-- The job 4294967297 is the job 1. -/
theorem kill_numbers_fails :
    yylex "1".toList = (.num "1".toList, []) ∧
      yylex "4294967297".toList = (.num "4294967297".toList, []) ∧
      ¬ HoldNumbers "1".toList "1".toList "1".toList "4294967297".toList := by
  refine ⟨yylex_eq_num_iff.mpr (by decide), yylex_eq_num_iff.mpr (by decide), ?_⟩
  rintro ⟨s, j, s', j', command, command', -, -, jobs⟩
  cases command
  cases command'
  exact jobs (by decide) (by decide)

end QuashLabs.Quash.Parsing
