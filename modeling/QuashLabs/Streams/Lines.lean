import Mathlib.Data.List.DropRight

/-!
# Lines of a stream

`fgets` takes a line from the front of a stream, or the part of it that fits into its buffer. It
notices the end of the stream only when it looks for more. How much of a stream lies behind the
last piece is then a matter of the last line alone.
-/

namespace QuashLabs.Streams

universe u

variable {α : Type u} [DecidableEq α]

/-- What `fgets` takes, what it leaves, and whether it has seen the end. -/
structure Line (α : Type u) where
  str : List α
  rest : List α
  eof : Bool
  deriving Repr, DecidableEq

/-- `fgets` with room for `count` elements. -/
def fgets (newline : α) : Nat → List α → Line α
  | 0, stream => ⟨[], stream, false⟩
  | _ + 1, [] => ⟨[], [], true⟩
  | count + 1, c :: rest =>
      if c = newline then ⟨[c], rest, false⟩
      else { fgets newline count rest with str := c :: (fgets newline count rest).str }

/-- What stands behind the last newline. -/
def lastLine (newline : α) (stream : List α) : List α := stream.rtakeWhile (· ≠ newline)

variable {newline : α} {count : Nat} {stream before after : List α}

theorem str_append_rest (newline : α) (count : Nat) (stream : List α) :
    (fgets newline count stream).str ++ (fgets newline count stream).rest = stream := by
  induction count, stream using fgets.induct newline with
  | case1 stream => rfl
  | case2 count => rfl
  | case3 count rest => simp [fgets]
  | case4 count c rest other ih => simp [fgets, other, ih]

/-- A piece at the end of the stream is shorter than its room and has no newline. -/
theorem eof_spec (eof : (fgets newline count stream).eof = true) :
    newline ∉ stream ∧ stream.length < count := by
  induction count, stream using fgets.induct newline with
  | case1 stream => cases eof
  | case2 count => exact ⟨List.not_mem_nil, Nat.succ_pos count⟩
  | case3 count rest => simp [fgets] at eof
  | case4 count c rest other ih =>
      rw [fgets, if_neg other] at eof
      rcases ih eof with ⟨absent, less⟩
      exact ⟨by simp [absent, Ne.symm other], Nat.succ_lt_succ less⟩

/-- A piece before the end of the stream is a line, or as long as its room. -/
theorem not_eof_spec (more : (fgets newline count stream).eof = false) :
    (∃ text, (fgets newline count stream).str = text ++ [newline]) ∨
      newline ∉ (fgets newline count stream).str ∧
        (fgets newline count stream).str.length = count := by
  induction count, stream using fgets.induct newline with
  | case1 stream => exact .inr ⟨List.not_mem_nil, rfl⟩
  | case2 count => cases more
  | case3 count rest => exact .inl ⟨[], by simp [fgets]⟩
  | case4 count c rest other ih =>
      rw [fgets, if_neg other] at more ⊢
      rcases ih more with ⟨text, ends⟩ | ⟨absent, full⟩
      · exact .inl ⟨c :: text, by simp [ends]⟩
      · exact .inr ⟨by simp [absent, Ne.symm other], congrArg (· + 1) full⟩

/-- A piece before the end of the stream shortens it. -/
theorem length_rest_lt (room : 0 < count) (more : (fgets newline count stream).eof = false) :
    (fgets newline count stream).rest.length < stream.length := by
  have nonempty : 0 < (fgets newline count stream).str.length := by
    rcases not_eof_spec more with ⟨text, ends⟩ | ⟨-, full⟩
    · simp [ends]
    · omega
  have lengths := congrArg List.length (str_append_rest newline count stream)
  rw [List.length_append] at lengths
  omega

/-! ## The last line -/

/-- The test for another element, on a stream without this one. -/
theorem forall_ne_of_not_mem {x : α} (absent : x ∉ stream) : ∀ c ∈ stream, decide (c ≠ x) = true :=
  fun _ member => decide_eq_true fun same => absent (same ▸ member)

theorem lastLine_eq_self (absent : newline ∉ stream) : lastLine newline stream = stream := by
  rw [lastLine, List.rtakeWhile_eq_self_iff]
  exact forall_ne_of_not_mem absent

theorem lastLine_append_of_mem (present : newline ∈ after) :
    lastLine newline (before ++ after) = lastLine newline after := by
  have stops : ¬((after.reverse.takeWhile (· ≠ newline)).length = after.reverse.length) := by
    intro all
    have whole := (List.takeWhile_prefix _).eq_of_length all
    have member := List.mem_reverse.mpr present
    rw [← whole] at member
    simpa using List.mem_takeWhile_imp member
  rw [lastLine, lastLine, List.rtakeWhile, List.rtakeWhile, List.reverse_append,
    List.takeWhile_append, if_neg stops]

theorem lastLine_append_of_not_mem (absent : newline ∉ after) :
    lastLine newline (before ++ after) = lastLine newline before ++ after := by
  have absent' : newline ∉ after.reverse := fun member => absent (List.mem_reverse.mp member)
  rw [lastLine, lastLine, List.rtakeWhile, List.rtakeWhile, List.reverse_append,
    List.takeWhile_append_of_pos (forall_ne_of_not_mem absent'), List.reverse_append,
    List.reverse_reverse]

/-- Pieces before the end of the stream take whole rooms from its last line. -/
theorem length_lastLine_mod (more : (fgets newline count stream).eof = false) :
    (lastLine newline stream).length % count =
      (lastLine newline (fgets newline count stream).rest).length % count := by
  have whole : (lastLine newline (fgets newline count stream).str).length % count = 0 := by
    rcases not_eof_spec more with ⟨text, ends⟩ | ⟨absent, full⟩
    · simp [ends, lastLine]
    · rw [lastLine_eq_self absent, full, Nat.mod_self]
  nth_rewrite 1 [← str_append_rest newline count stream]
  by_cases present : newline ∈ (fgets newline count stream).rest
  · rw [lastLine_append_of_mem present]
  · rw [lastLine_append_of_not_mem present, List.length_append, lastLine_eq_self present,
      Nat.add_mod, whole, Nat.zero_add, Nat.mod_mod]

end QuashLabs.Streams
