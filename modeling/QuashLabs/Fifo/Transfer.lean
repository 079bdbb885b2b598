import QuashLabs.Streams.Lines

/-!
# A producer and a consumer over a FIFO

The producer writes its standard input piece by piece and stops when `feof` answers, before it
has written the piece at the end of the input. The consumer reads what is there, up to the size
of its buffer, stores a terminator behind it and prints the string. The FIFO keeps the bytes in
order, but not the pieces in which they were written.
-/

namespace QuashLabs.Fifo

open QuashLabs.Streams

/-- `MAX_LENGTH`. -/
def maxLength : Nat := 1000

/-- `'\n'`. -/
def newline : UInt8 := 10

/-- The bytes of a string in front of its terminator. -/
def cString (bytes : List UInt8) : List UInt8 := bytes.takeWhile (· ≠ 0)

/-! ## `fifo_producer` -/

/-- `fgets(str, MAX_LENGTH, stdin)`, which leaves room for the terminator. -/
def readPiece (stdin : List UInt8) : Line UInt8 := fgets newline (maxLength - 1) stdin

/-- What the producer writes, call by call. -/
def produce (stdin : List UInt8) : List (List UInt8) :=
  if _more : (readPiece stdin).eof = false then
    cString (readPiece stdin).str :: produce (readPiece stdin).rest
  else []
termination_by stdin.length
decreasing_by exact length_rest_lt (by decide) _more

/-! ## `fifo_consumer` -/

/-- What one `read` of at most `MAX_LENGTH` bytes takes from the FIFO. -/
structure Chunk where
  bytes : List UInt8
  nonempty : bytes ≠ []
  fits : bytes.length ≤ maxLength

/-- `str`. -/
structure Buffer where
  bytes : List UInt8
  length_eq : bytes.length = maxLength

/-- `read(fd, str, MAX_LENGTH)`. -/
def Buffer.read (str : Buffer) (chunk : Chunk) : Buffer where
  bytes := chunk.bytes ++ str.bytes.drop chunk.bytes.length
  length_eq := by
    have fits := chunk.fits
    have length := str.length_eq
    rw [List.length_append, List.length_drop]
    omega

/-- `str[num] = '\0'`, if it falls inside the buffer. -/
def Buffer.terminate (str : Buffer) (num : Nat) : Option Buffer :=
  if num < maxLength then some ⟨str.bytes.set num 0, by rw [List.length_set, str.length_eq]⟩
  else none

/-- `printf("%s", str)`, if it finds a terminator. -/
def Buffer.print (str : Buffer) : Option (List UInt8) :=
  if 0 ∈ str.bytes then some (cString str.bytes) else none

/-- The data that the consumer prints. Behind the last chunk `read` returns 0. -/
def consume : List Chunk → Buffer → Option (List UInt8)
  | [], str => do
      let str ← str.terminate 0
      str.print
  | chunk :: chunks, str => do
      let str ← (str.read chunk).terminate chunk.bytes.length
      let data ← str.print
      let later ← consume chunks str
      return data ++ later

/-! ## What is written -/

variable {stdin stream : List UInt8} {chunks : List Chunk} {str : Buffer}

theorem cString_eq_self {bytes : List UInt8} (noNul : 0 ∉ bytes) : cString bytes = bytes := by
  rw [cString, List.takeWhile_eq_self_iff]
  exact forall_ne_of_not_mem noNul

/-- The producer writes its input up to the part of the last line that does not fill its
buffer. -/
theorem produce_flatten (noNul : 0 ∉ stdin) : ∃ lost,
    (produce stdin).flatten ++ lost = stdin ∧
      lost.length = (lastLine newline stdin).length % (maxLength - 1) := by
  induction stdin using produce.induct with
  | case1 stdin more ih =>
      have split : (readPiece stdin).str ++ (readPiece stdin).rest = stdin := str_append_rest _ _ _
      rw [← split, List.mem_append, not_or] at noNul
      rcases ih noNul.2 with ⟨lost, rest, length⟩
      refine ⟨lost, ?_, ?_⟩
      · rw [produce, dif_pos more, List.flatten_cons, List.append_assoc, rest,
          cString_eq_self noNul.1, split]
      · rw [length, readPiece, ← length_lastLine_mod more]
  | case2 stdin noMore =>
      rcases eof_spec ((Bool.not_eq_false _).mp noMore) with ⟨absent, less⟩
      refine ⟨stdin, by rw [produce, dif_neg noMore]; rfl, ?_⟩
      rw [lastLine_eq_self absent, Nat.mod_eq_of_lt less]

theorem produce_flatten_iff (noNul : 0 ∉ stdin) : (produce stdin).flatten = stdin ↔
    (lastLine newline stdin).length % (maxLength - 1) = 0 := by
  rcases produce_flatten noNul with ⟨lost, split, length⟩
  rw [← length, List.length_eq_zero_iff]
  nth_rewrite 2 [← split]
  exact List.self_eq_append_right

/-! ## What is printed -/

/-- A terminator stored behind some data ends the string there. -/
theorem print_terminate {data rest : List UInt8} {old : UInt8} (noNul : 0 ∉ data)
    (split : str.bytes = data ++ old :: rest) :
    ∃ str', str.terminate data.length = some str' ∧ str'.print = some data := by
  have inside : data.length < maxLength := by
    have length := str.length_eq
    rw [split, List.length_append, List.length_cons] at length
    omega
  have stored : str.bytes.set data.length 0 = data ++ 0 :: rest := by
    rw [split, List.set_append_right _ _ (Nat.le_refl _), Nat.sub_self, List.set_cons_zero]
  refine ⟨_, if_pos inside, ?_⟩
  change (if 0 ∈ str.bytes.set data.length 0 then some (cString (str.bytes.set data.length 0))
    else none) = some data
  rw [stored, if_pos (by simp), cString,
    List.takeWhile_append_of_pos (forall_ne_of_not_mem noNul)]
  simp

/-- The bytes behind a chunk that does not fill the buffer stay there. -/
theorem exists_read_eq (chunk : Chunk) (less : chunk.bytes.length < maxLength) (str : Buffer) :
    ∃ old rest, (str.read chunk).bytes = chunk.bytes ++ old :: rest := by
  have behind : str.bytes.drop chunk.bytes.length ≠ [] := by
    rw [ne_eq, List.drop_eq_nil_iff, str.length_eq]
    omega
  rcases List.exists_cons_of_ne_nil behind with ⟨old, rest, isRest⟩
  exact ⟨old, rest, congrArg (chunk.bytes ++ ·) isRest⟩

/-- The consumer prints what it reads unless a chunk fills its buffer. -/
theorem consume_eq (noNul : ∀ chunk ∈ chunks, 0 ∉ chunk.bytes) (str : Buffer) :
    consume chunks str = if ∀ chunk ∈ chunks, chunk.bytes.length < maxLength then
      some (chunks.flatMap Chunk.bytes) else none := by
  induction chunks generalizing str with
  | nil =>
      have nonempty : str.bytes ≠ [] := by
        rw [← List.length_pos_iff, str.length_eq]
        decide
      rcases List.exists_cons_of_ne_nil nonempty with ⟨old, rest, split⟩
      rcases @print_terminate str [] rest old List.not_mem_nil split with ⟨str', stored, printed⟩
      have empty : consume [] str = some [] := (congrArg (·.bind Buffer.print) stored).trans printed
      rw [empty, if_pos (by simp)]
      rfl
  | cons chunk chunks ih =>
      rcases List.forall_mem_cons.mp noNul with ⟨here, later⟩
      rw [consume]
      simp only [List.forall_mem_cons]
      by_cases less : chunk.bytes.length < maxLength
      · rcases exists_read_eq chunk less str with ⟨old, rest, split⟩
        rcases print_terminate here split with ⟨str', stored, printed⟩
        simp only [stored, printed, ih later, less, true_and, Option.bind_eq_bind,
          Option.bind_some, List.flatMap_cons]
        split_ifs <;> rfl
      · simp [Buffer.terminate, less]

/-! ## From the input to the output -/

/-- The consumer prints the producer's input, and stores inside its buffer, exactly when the
last line of the input fills the producer's buffer a number of times and no chunk fills the
consumer's. -/
theorem transfer_iff (noNul : 0 ∉ stream)
    (chunked : chunks.flatMap Chunk.bytes = (produce stream).flatten) (str : Buffer) :
    consume chunks str = some stream ↔
      (lastLine newline stream).length % (maxLength - 1) = 0 ∧
        ∀ chunk ∈ chunks, chunk.bytes.length ≠ maxLength := by
  have written : ∀ byte ∈ (produce stream).flatten, byte ∈ stream := by
    rcases produce_flatten noNul with ⟨lost, split, -⟩
    intro byte member
    rw [← split]
    exact List.mem_append_left _ member
  have chunkNoNul : ∀ chunk ∈ chunks, 0 ∉ chunk.bytes := by
    intro chunk member nul
    apply noNul (written 0 _)
    rw [← chunked]
    exact List.mem_flatMap.mpr ⟨chunk, member, nul⟩
  have noneFull : (∀ chunk ∈ chunks, chunk.bytes.length < maxLength) ↔
      ∀ chunk ∈ chunks, chunk.bytes.length ≠ maxLength :=
    forall₂_congr fun chunk member => (Nat.lt_iff_le_and_ne.trans (and_iff_right chunk.fits))
  rw [consume_eq chunkNoNul, chunked, ← produce_flatten_iff noNul, ← noneFull]
  constructor
  · intro printed
    rcases Option.ite_none_right_eq_some.mp printed with ⟨none, same⟩
    exact ⟨Option.some.inj same, none⟩
  · rintro ⟨same, none⟩
    rw [if_pos none, same]

theorem transfer_a :
    0 ∉ [97, newline] ∧ consume [⟨[97, newline], by simp, by decide⟩]
      ⟨List.replicate maxLength 1, List.length_replicate⟩ = some [97, newline] := by
  have written : (produce [97, newline]).flatten = [97, newline] := by
    rw [produce_flatten_iff (by decide)]
    decide
  refine ⟨by decide, (transfer_iff (by decide) (by rw [written]; rfl) _).mpr ?_⟩
  exact ⟨by decide, by decide⟩

/-- The producer loses a last line without a newline. -/
theorem transfer_fails :
    ¬∀ stream, 0 ∉ stream → ∀ chunks : List Chunk,
      chunks.flatMap Chunk.bytes = (produce stream).flatten →
        ∀ str, consume chunks str = some stream := by
  intro each
  have written : produce [97] = [] := by
    rw [produce, dif_neg (by decide)]
  have printed := each [97] (by decide) [] (by rw [written]; rfl)
    ⟨List.replicate maxLength 1, List.length_replicate⟩
  rw [consume_eq (by simp)] at printed
  simp at printed

end QuashLabs.Fifo
