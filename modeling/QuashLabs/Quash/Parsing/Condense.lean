import QuashLabs.Quash.Parsing.Stringify

/-!
# Sizes of joined strings

`__condense_string_array` once more, with its sums in `size_t` and its request for a buffer. An
array may hold the same string many times, so the sum of the sizes need not be a `size_t`. Where
it is one, the function joins the strings as in the rest of the model, and takes the sizes from
the queue as the first pass has put them there.
-/

namespace QuashLabs.Quash.Parsing.Condense

open QuashLabs.Checked

/-- `memory_pool_alloc`, which has room for a request or stops the program. -/
def memoryPoolAlloc (hasRoom : Nat → Bool) (size : Nat) : Except Failure Buffer :=
  if hasRoom size then .ok (List.replicate size none)
  else .error (.exit (-1) "ERROR: Unable to allocate more memory to the memory pool.\n")

/-- The first loop: the queue of the sizes and their sum. -/
def measureLoop : List (Option CStr) → List Nat → Nat → Except Failure (List Nat × Nat)
  | [], _, _ => .error .outOfBounds
  | none :: _, ss, len => .ok (ss, len)
  | some str :: strs, ss, len => do
      let size := addSize str.length 1
      let ss ← pushBack size ss
      measureLoop strs ss (addSize len size)

/-- The variables of the second loop, and the sizes taken from the queue so far. -/
structure Copying where
  ss : List Nat
  pos : Nat
  ret : Buffer
  popped : List Nat
  deriving Repr, DecidableEq

/-- The second loop. -/
def copyStrings : List (Option CStr) → Copying → Except Failure Copying
  | [], _ => .error .outOfBounds
  | none :: _, st => .ok st
  | some str :: strs, st => do
      let ret ← strcpy str st.pos st.ret
      let front ← popFront st.ss
      let pos := addSize st.pos front.1
      let ret ← storeAt ret (subSize pos 1) ' '
      copyStrings strs ⟨front.2, pos, ret, st.popped ++ [front.1]⟩

/-- The returned buffer, the sizes that were pushed and popped, and those left in the queue. -/
structure Condensed where
  ret : Buffer
  pushed : List Nat
  popped : List Nat
  left : List Nat
  deriving Repr, DecidableEq

/-- `__condense_string_array`. -/
def condenseStringArray (hasRoom : Nat → Bool) (strArr : List (Option CStr)) :
    Except Failure Condensed := do
  let measured ← measureLoop strArr [] 0
  let ret ← memoryPoolAlloc hasRoom (addSize measured.2 1)
  let st ← copyStrings strArr ⟨measured.1, 0, ret, []⟩
  let ret ← storeAt st.ret st.pos '\x00'
  return ⟨ret, measured.1, st.popped, st.ss⟩

/-! ## What is asked of it -/

/-- `strlen(str) + 1` for every string. -/
def sizes (words : List CStr) : List Nat := words.map fun word => word.length + 1

/-- The buffer holds the strings, each followed by a space, and the terminator; the queue has
given back all sizes in their order. A store outside the buffer would have no result. -/
structure Condenses (words : List CStr) (result : Condensed) : Prop where
  ret : result.ret = (render words ++ ['\x00']).map some
  pushed : result.pushed = sizes words
  popped : result.popped = result.pushed
  left : result.left = []

variable {hasRoom : Nat → Bool} {words : List CStr} {more : List (Option CStr)}
variable {strArr : List (Option CStr)} {str : CStr} {buffer buffer' : Buffer} {pos : Nat} {c : Char}

/-! ## Buffers keep their length -/

theorem length_of_storeAt (stored : storeAt buffer pos c = .ok buffer') :
    buffer'.length = buffer.length := by
  unfold storeAt at stored
  split at stored
  · cases stored
    exact List.length_set
  · cases stored

theorem length_of_strcpy (copied : strcpy str pos buffer = .ok buffer') :
    buffer'.length = buffer.length := by
  induction str generalizing pos buffer with
  | nil => exact length_of_storeAt copied
  | cons c str ih =>
      rcases bind_eq_ok.mp copied with ⟨middle, stored, later⟩
      rw [ih later, length_of_storeAt stored]

theorem length_of_copyStrings {st st' : Copying} (copied : copyStrings strArr st = .ok st') :
    st'.ret.length = st.ret.length := by
  induction strArr generalizing st with
  | nil => cases copied
  | cons entry strArr ih =>
      cases entry with
      | none =>
          cases copied
          rfl
      | some str =>
          rcases bind_eq_ok.mp copied with ⟨middle, first, rest⟩
          rcases bind_eq_ok.mp rest with ⟨front, -, rest⟩
          rcases bind_eq_ok.mp rest with ⟨last, stored, later⟩
          rw [ih later, length_of_storeAt stored, length_of_strcpy first]

/-! ## Sums in `size_t` -/

/-- The first loop adds up the sizes, up to the range of a `size_t`. -/
theorem measureLoop_eq (words : List CStr) (more : List (Option CStr)) (ss : List Nat) (len : Nat) :
    measureLoop (words.map some ++ none :: more) ss (len % sizeRange) =
      .ok (ss ++ words.map fun word => addSize word.length 1,
        (len + (render words).length) % sizeRange) := by
  induction words generalizing ss len with
  | nil => simp [measureLoop]
  | cons word words ih =>
      have sum : addSize (len % sizeRange) (addSize word.length 1) =
          (len + (word.length + 1)) % sizeRange := by
        rw [addSize, addSize, ← Nat.add_mod]
      have total : len + (word.length + 1) + (render words).length =
          len + (render (word :: words)).length := by
        simp
        omega
      rw [List.map_cons, List.cons_append, measureLoop, pushBack_eq, ok_bind, sum, ih, total]
      simp

theorem length_lt_render {word : CStr} (member : word ∈ words) :
    word.length < (render words).length := by
  rcases List.append_of_mem member with ⟨before, behind, rfl⟩
  simp
  omega

theorem wrapped_sizes (fits : (render words).length < sizeRange) :
    (words.map fun word => addSize word.length 1) = sizes words := by
  apply List.map_congr_left
  intro word member
  exact addSize_eq (Nat.lt_of_le_of_lt (length_lt_render member) fits)

/-- A round of the second loop. -/
theorem copyStrings_some (str : CStr) (strs : List (Option CStr)) (size : Nat) (ss : List Nat)
    (pos : Nat) (ret : Buffer) (popped : List Nat) :
    copyStrings (some str :: strs) ⟨size :: ss, pos, ret, popped⟩ =
      strcpy str pos ret >>= fun ret =>
        storeAt ret (subSize (addSize pos size) 1) ' ' >>= fun ret =>
          copyStrings strs ⟨ss, addSize pos size, ret, popped ++ [size]⟩ := by
  rw [copyStrings]
  cases strcpy str pos ret with
  | error e => rw [error_bind, error_bind]
  | ok copied => rw [ok_bind, ok_bind, popFront_cons, ok_bind]

/-- The second loop copies as in the rest of the model, and empties the queue. -/
theorem copyStrings_eq (words : List CStr) (more : List (Option CStr)) (pos : Nat) (ret : Buffer)
    (popped : List Nat) (fits : pos + (render words).length < sizeRange) :
    copyStrings (words.map some ++ none :: more) ⟨sizes words, pos, ret, popped⟩ =
      (fun result => ⟨[], result.2, result.1, popped ++ sizes words⟩) <$>
        Parsing.copyStrings (words.map some ++ none :: more) (sizes words) pos ret := by
  induction words generalizing pos ret popped with
  | nil => simp [copyStrings, Parsing.copyStrings, sizes]
  | cons word words ih =>
      have length : (render (word :: words)).length = word.length + 1 + (render words).length := by
        simp
        omega
      have next : addSize pos (word.length + 1) = pos + (word.length + 1) :=
        addSize_eq (by omega)
      have last : subSize (pos + (word.length + 1)) 1 = pos + (word.length + 1) - 1 :=
        subSize_eq (by omega) (by omega)
      rw [sizes, List.map_cons, List.map_cons, List.cons_append, copyStrings_some, next, last,
        Parsing.copyStrings]
      cases strcpy word pos ret with
      | error e => rfl
      | ok copied =>
          simp only [ok_bind, popFront_cons]
          cases storeAt copied (pos + (word.length + 1) - 1) ' ' with
          | error e => rfl
          | ok spaced =>
              have later := ih (pos + (word.length + 1)) spaced (popped ++ [word.length + 1])
                (by omega)
              simpa [sizes] using later

/-- Where the sizes fit, the strings are joined as in the rest of the model. -/
theorem condenseStringArray_eq (fits : (render words).length + 1 < sizeRange)
    (room : hasRoom ((render words).length + 1) = true) :
    condenseStringArray hasRoom (words.map some ++ none :: more) =
      (fun ret => ⟨ret, sizes words, sizes words, []⟩) <$>
        Parsing.condenseStringArray (words.map some ++ none :: more) := by
  have measured := measureLoop_eq words more [] 0
  rw [Nat.zero_mod, Nat.zero_add, List.nil_append, wrapped_sizes (by omega),
    Nat.mod_eq_of_lt (show (render words).length < sizeRange by omega)] at measured
  have request : addSize (render words).length 1 = (render words).length + 1 := addSize_eq fits
  have queue : ([] ++ words.map fun word => word.length + 1) = sizes words := rfl
  rw [condenseStringArray, measured, ok_bind, request, memoryPoolAlloc, if_pos room, ok_bind,
    copyStrings_eq words more 0 _ [] (by omega), Parsing.condenseStringArray,
    Parsing.measureLoop_eq, ok_bind]
  simp only [Nat.zero_add, queue]
  cases Parsing.copyStrings (words.map some ++ none :: more) (sizes words) 0
      (List.replicate ((render words).length + 1) none) with
  | error e => rfl
  | ok copied =>
      change (storeAt copied.1 copied.2 '\x00' >>= fun ret =>
        (.ok ⟨ret, sizes words, sizes words, []⟩ : Except Failure Condensed)) =
          _ <$> storeAt copied.1 copied.2 '\x00'
      cases storeAt copied.1 copied.2 '\x00' <;> rfl

/-! ## Which arrays are joined -/

/-- The buffer has room for the strings only where the sum of their sizes did not wrap around. -/
theorem fits_of_condenses {result : Condensed}
    (returns : condenseStringArray hasRoom (words.map some ++ none :: more) = .ok result)
    (condenses : Condenses words result) :
    (render words).length + 1 < sizeRange ∧ hasRoom ((render words).length + 1) = true := by
  have measured := measureLoop_eq words more [] 0
  rw [Nat.zero_mod, Nat.zero_add] at measured
  rw [condenseStringArray, measured, ok_bind, addSize, Nat.mod_add_mod] at returns
  rcases bind_eq_ok.mp returns with ⟨buffer, allocated, rest⟩
  rcases bind_eq_ok.mp rest with ⟨st, copied, rest⟩
  rcases bind_eq_ok.mp rest with ⟨ret, stored, ⟨⟩⟩
  unfold memoryPoolAlloc at allocated
  split at allocated
  · rename_i room
    cases allocated
    have length := congrArg List.length condenses.ret
    rw [length_of_storeAt stored, length_of_copyStrings copied] at length
    simp only [List.length_replicate, List.length_map, List.length_append,
      List.length_singleton] at length
    rw [length] at room
    exact ⟨length ▸ Nat.mod_lt _ (by decide), room⟩
  · cases allocated

/-- The strings are joined inside the buffer, and the queue gives back their sizes, exactly when
the size of the buffer is a `size_t` and the pool has room for it. -/
theorem condenses_iff (hasRoom : Nat → Bool) (words : List CStr) (more : List (Option CStr)) :
    (∃ result, condenseStringArray hasRoom (words.map some ++ none :: more) = .ok result ∧
        Condenses words result) ↔
      (render words).length + 1 < sizeRange ∧ hasRoom ((render words).length + 1) = true := by
  constructor
  · rintro ⟨result, returns, condenses⟩
    exact fits_of_condenses returns condenses
  · rintro ⟨fits, room⟩
    rw [condenseStringArray_eq fits room, Parsing.condenseStringArray_eq]
    exact ⟨_, rfl, rfl, rfl, rfl, rfl⟩

theorem length_render_replicate (count : Nat) (word : CStr) :
    (render (List.replicate count word)).length = count * (word.length + 1) := by
  induction count with
  | zero => rw [Nat.zero_mul, List.replicate_zero, render_nil, List.length_nil]
  | succ count ih =>
      rw [List.replicate_succ, render_cons, List.length_append, List.length_cons, ih, Nat.succ_mul]
      omega

/-- An array that has a string of 2^31 - 1 characters 2^33 times. -/
theorem condenses_fails :
    ¬∃ result, condenseStringArray (fun _ => true)
        ((List.replicate (2 ^ 33) (List.replicate (2 ^ 31 - 1) 'a')).map some ++ [none]) =
          .ok result ∧
      Condenses (List.replicate (2 ^ 33) (List.replicate (2 ^ 31 - 1) 'a')) result := by
  rintro ⟨result, returns, condenses⟩
  have fits := (fits_of_condenses returns condenses).1
  rw [length_render_replicate, List.length_replicate] at fits
  exact absurd fits (by decide)

end QuashLabs.Quash.Parsing.Condense
