import QuashLabs.Quash.Parsing.Template
import QuashLabs.Transition.Reachable

/-!
# The scan of any string

Here the name of a variable and its value are read character by character, as in
`__interpret_deref`, and neither the string nor a value is assumed to fit into the `int` that
runs over it. A string and values that do fit are scanned as in the rest of the model; the index
then stops at the terminator once, on its way out of the loop.
-/

namespace QuashLabs.Quash.Parsing.AnyString

open QuashLabs.Checked QuashLabs.Transition

/-- An environment with values of any length. -/
structure Environment where
  lookup : List Char → Option (List Char)
  noTerminator : ∀ {name value}, lookup name = some value → '\x00' ∉ value

/-! ## Reading character by character -/

/-- The loop that collects an identifier, for at most `fuel` rounds: the identifier and `*idx`
behind it. -/
def nameLoop (str : List Char) : Nat → Nat → List Char → Except Failure (List Char × Nat)
  | 0, _, _ => .error .unfinished
  | fuel + 1, idx, tmp => do
      let idx ← incInt idx
      let c ← charAt str idx
      if isIdentifierChar c then do
        let tmp ← onBuilder (.pushBack c) tmp
        nameLoop str fuel idx tmp
      else return (tmp, idx)

/-- The loop that appends a value, for at most `fuel` rounds. -/
def valueLoop (envVar : List Char) : Nat → Nat → List Char → Except Failure (List Char)
  | 0, _, _ => .error .unfinished
  | fuel + 1, i, bld => do
      let c ← charAt envVar i
      if c = '\x00' then return bld
      else do
        let bld ← onBuilder (.pushBack c) bld
        let i ← incInt i
        valueLoop envVar fuel i bld

/-- What `__interpret_deref` appends for the result of `lookup_env`. -/
def appendVar (envVar : Option (List Char)) (bld : List Char) : Except Failure (List Char) :=
  match envVar with
  | some envVar => valueLoop envVar (envVar.length + 1) 0 bld
  | none => .ok bld

/-- `__interpret_deref`: the builder and `*idx` afterwards. -/
def interpretDeref (env : Environment) (str : List Char) (idx : Nat) (bld : List Char) :
    Except Failure (List Char × Nat) := do
  let c ← charAt str idx
  if c ≠ '$' then .error .assertion
  assertDereference bld
  let bld ← onBuilder .popBack bld
  let (id, stop) ← nameLoop str (str.length + 1) idx []
  let bld ← appendVar (env.lookup id) bld
  return (bld, stop - 1)

/-- The case for a dollar sign. -/
def scanDollar (env : Environment) (str : List Char) (st : Scan) : Except Failure Scan := do
  if st.inQuotes = false then
    let next ← charAt str (st.i + 1)
    if isFirstIdentifierChar next then
      let (bld, i) ← interpretDeref env str st.i st.bld
      return { st with bld := bld, i := i }
    else return st
  else return st

/-- The body of the loop. -/
def scanBody (env : Environment) (str : List Char) (st : Scan) : Except Failure Scan := do
  let c ← charAt str st.i
  let bld ← onBuilder (.pushBack c) st.bld
  let st := { st with bld := bld }
  if c = '\\' then scanBackslash str st
  else if c = '\'' then scanQuote st
  else if c = '$' then scanDollar env str st
  else return st

/-- The loop `for (i = 0; i <= len; ++i)`, for at most `fuel` rounds. -/
def scanLoop (env : Environment) (str : List Char) (len : Int) :
    Nat → Scan → Except Failure Scan
  | 0, _ => .error .unfinished
  | fuel + 1, st =>
      if (st.i : Int) ≤ len then do
        let st ← scanBody env str st
        let i ← incInt st.i
        scanLoop env str len fuel { st with i := i }
      else .ok st

/-- The scan of `interpret_complex_string_token`. -/
def scan (env : Environment) (str : List Char) : Except Failure Scan :=
  scanLoop env str (intOfSize str.length) (str.length + 2) ⟨[], 0, false⟩

/-! ## What is asked of the scan -/

/-- A round of the loop. -/
def round (env : Environment) (str : List Char) : LabelledStep Unit Scan := fun _ st =>
  if (st.i : Int) ≤ intOfSize str.length then
    ((scanBody env str st).bind fun st => (incInt st.i).map fun i => { st with i := i }).toOption
  else none

/-- The rounds come to the terminator, which is pushed behind the payload and stays there; the
loop then ends, and the last update changes nothing. No round reads outside the string or pops
an empty builder, or it would have no result. -/
structure ScansExactly (env : Environment) (str payload : List Char) (inQuotes : Bool) :
    Prop where
  reaches : Reachable (round env str) ⟨[], 0, false⟩ ⟨payload, str.length, inQuotes⟩
  terminator : scanBody env str ⟨payload, str.length, inQuotes⟩ =
    .ok ⟨payload ++ ['\x00'], str.length, inQuotes⟩
  ends : scan env str = .ok ⟨payload ++ ['\x00'], str.length + 1, inQuotes⟩
  overwrites : onBuilder (.updateBack '\x00') (payload ++ ['\x00']) = .ok (payload ++ ['\x00'])

/-- The value of a variable fits into an `int`. -/
def Environment.Fits (env : Environment) (name : List Char) : Prop :=
  ∀ value, env.lookup name = some value → value.length < 2 ^ 31

/-- The values that a template asks for fit. -/
def Environment.FitsAll (env : Environment) (pieces : List Piece) : Prop :=
  ∀ name, .valueOf name ∈ pieces → env.Fits name

/-- The environment without the values that do not fit. -/
def Environment.restrict (env : Environment) : Parsing.Environment where
  lookup name := (env.lookup name).filter fun value => value.length < 2 ^ 31
  short := by
    intro name value found
    exact of_decide_eq_true (Option.filter_eq_some_iff.mp found).2
  noTerminator := by
    intro name value found
    exact env.noTerminator (Option.filter_eq_some_iff.mp found).1

variable {env : Environment} {str tail bld : List Char} {st : Scan} {c : Char} {idx fuel : Nat}

/-! ## The loops over a name and over a value -/

theorem nameLoop_eq (short : str.length < 2 ^ 31 - 1) (suffix : str.drop idx = c :: tail)
    (enough : tail.length < fuel) (tmp : List Char) :
    nameLoop str fuel idx tmp = .ok (tmp ++ tail.takeWhile isIdentifierChar,
      idx + (tail.takeWhile isIdentifierChar).length + 1) := by
  induction fuel generalizing idx c tail tmp with
  | zero => omega
  | succ fuel ih =>
      have length := length_of_drop suffix
      have step : incInt idx = .ok (idx + 1) := incInt_eq (by omega)
      rw [nameLoop, step, ok_bind, (charAt_of_drop suffix).2, ok_bind]
      cases tail with
      | nil =>
          rw [if_neg (by decide)]
          simp
      | cons d tail =>
          rw [List.headD_cons]
          by_cases identifier : isIdentifierChar d = true
          · have later := ih (drop_succ suffix) (by simpa using enough) (tmp ++ [d])
            rw [if_pos identifier, onBuilder_pushBack, ok_bind, later,
              List.takeWhile_cons_of_pos identifier]
            simp
            omega
          · rw [if_neg identifier, List.takeWhile_cons_of_neg identifier]
            simp

theorem valueLoop_eq {envVar : List Char} {i : Nat} (noTerminator : '\x00' ∉ envVar)
    (suffix : envVar.drop i = tail) (inside : i ≤ envVar.length) (small : i < 2 ^ 31)
    (enough : tail.length < fuel) (bld : List Char) :
    valueLoop envVar fuel i bld =
      if envVar.length < 2 ^ 31 then .ok (bld ++ tail) else .error .signedOverflow := by
  induction fuel generalizing i tail bld with
  | zero => omega
  | succ fuel ih =>
      rw [valueLoop]
      cases tail with
      | nil =>
          have final : i = envVar.length := Nat.le_antisymm inside (List.drop_eq_nil_iff.mp suffix)
          have terminator : charAt envVar i = .ok '\x00' := by simp [charAt, final]
          rw [terminator, ok_bind, if_pos rfl, if_pos (final ▸ small), List.append_nil]
          rfl
      | cons c tail =>
          have length := length_of_drop suffix
          have member : c ∈ envVar := List.mem_of_mem_drop (suffix ▸ List.mem_cons_self)
          have character : c ≠ '\x00' := fun same => noTerminator (same ▸ member)
          rw [(charAt_of_drop suffix).1, ok_bind, if_neg character, onBuilder_pushBack, ok_bind]
          by_cases next : i + 1 < 2 ^ 31
          · rw [incInt_eq next, ok_bind, ih (drop_succ suffix) (by omega) next
              (by simpa using enough), List.append_assoc, List.singleton_append]
          · rw [incInt, if_neg next, error_bind, if_neg (by omega)]

/-! ## Where the values fit -/

theorem restrict_lookup {name : List Char} (fits : env.Fits name) :
    env.restrict.lookup name = env.lookup name := by
  change (env.lookup name).filter _ = env.lookup name
  cases found : env.lookup name with
  | none => rfl
  | some value => exact if_pos (decide_eq_true (fits value found))

/-- A value that fits is appended as in the rest of the model; another one overflows its index. -/
theorem appendVar_eq_ok_iff {name bld' : List Char} :
    appendVar (env.lookup name) bld = .ok bld' ↔
      env.Fits name ∧ bld ++ (env.restrict.lookup name).getD [] = bld' := by
  have loop {envVar : List Char} (found : env.lookup name = some envVar) :
      valueLoop envVar (envVar.length + 1) 0 bld =
        if envVar.length < 2 ^ 31 then .ok (bld ++ envVar) else .error .signedOverflow :=
    valueLoop_eq (env.noTerminator found) List.drop_zero (Nat.zero_le _) (by decide)
      (Nat.lt_succ_self _) bld
  by_cases fits : env.Fits name
  · rw [restrict_lookup fits, and_iff_right fits]
    cases found : env.lookup name with
    | none => simp [appendVar]
    | some envVar =>
        rw [appendVar, loop found, if_pos (fits envVar found)]
        simp
  · rcases not_forall₂.mp fits with ⟨envVar, found, large⟩
    rw [found, appendVar, loop found, if_neg large]
    simp [fits]

/-- A dereference returns when the value fits, and then as in the rest of the model. -/
theorem interpretDeref_eq_ok_iff {result : List Char × Nat} (short : str.length < 2 ^ 31 - 1)
    (suffix : str.drop idx = '$' :: tail) :
    interpretDeref env str idx (bld ++ ['$']) = .ok result ↔
      env.Fits (tail.takeWhile isIdentifierChar) ∧
        Parsing.interpretDeref env.restrict str idx (bld ++ ['$']) = .ok result := by
  have length := length_of_drop suffix
  have shorter : (tail.takeWhile isIdentifierChar).length ≤ tail.length :=
    (List.takeWhile_prefix _).length_le
  have name := nameLoop_eq short suffix (show tail.length < str.length + 1 by omega) []
  have stop : incInt (idx + (tail.takeWhile isIdentifierChar).length) =
      .ok (idx + (tail.takeWhile isIdentifierChar).length + 1) := incInt_eq (by omega)
  have id : identifierAfter str idx = tail.takeWhile isIdentifierChar := by
    rw [identifierAfter, drop_succ suffix]
  simp only [interpretDeref, Parsing.interpretDeref, (charAt_of_drop suffix).1, ok_bind, ne_eq,
    not_true_eq_false, if_false, assertDereference, List.getLast?_concat, if_true,
    onBuilder_popBack, name, id, stop, List.nil_append, appendValue_eq, pure_eq_ok]
  constructor
  · intro returns
    rcases bind_eq_ok.mp returns with ⟨bld', appended, ⟨⟩⟩
    rcases appendVar_eq_ok_iff.mp appended with ⟨fits, rfl⟩
    exact ⟨fits, rfl⟩
  · rintro ⟨fits, ⟨⟩⟩
    exact bind_eq_ok.mpr ⟨_, appendVar_eq_ok_iff.mpr ⟨fits, rfl⟩, rfl⟩

/-- Only a dollar sign in front of an identifier asks for a value. -/
theorem valueOf_mem_read {inQuotes : Bool} {name : List Char}
    (member : .valueOf name ∈ (read inQuotes c tail).pieces) :
    c = '$' ∧ inQuotes = false ∧ isFirstIdentifierChar (tail.headD '\x00') = true := by
  unfold read at member
  split_ifs at member with _ _ _ _ _ _ dollar
  · simp at member
  · simp at member
  · simp at member
  · simp at member
  · simp at member
  · simp at member
  · exact dollar
  · simp at member

theorem scanDollar_eq_ok_iff {i : Nat} {inQuotes : Bool} {st' : Scan}
    (short : str.length < 2 ^ 31 - 1) (suffix : str.drop i = '$' :: tail) :
    scanDollar env str ⟨bld ++ ['$'], i, inQuotes⟩ = .ok st' ↔
      env.FitsAll (read inQuotes '$' tail).pieces ∧
        Parsing.scanDollar env.restrict str ⟨bld ++ ['$'], i, inQuotes⟩ = .ok st' := by
  by_cases asks : inQuotes = false ∧ isFirstIdentifierChar (tail.headD '\x00') = true
  · rcases asks with ⟨rfl, identifier⟩
    have pieces : env.FitsAll (read false '$' tail).pieces ↔
        env.Fits (tail.takeWhile isIdentifierChar) := by
      rw [read, if_neg (by decide), if_neg (by decide), if_pos ⟨rfl, rfl, identifier⟩]
      simp [Environment.FitsAll]
    simp only [scanDollar, Parsing.scanDollar, if_true, (charAt_of_drop suffix).2, ok_bind,
      if_pos identifier, pieces, bind_eq_ok, interpretDeref_eq_ok_iff short suffix, and_assoc,
      exists_and_left]
  · have fits : env.FitsAll (read inQuotes '$' tail).pieces :=
      fun name member => absurd (valueOf_mem_read member).2 asks
    rw [and_iff_right fits]
    cases inQuotes with
    | true => rfl
    | false =>
        have plain : ¬isFirstIdentifierChar (tail.headD '\x00') = true := fun is => asks ⟨rfl, is⟩
        simp only [scanDollar, Parsing.scanDollar, if_true, (charAt_of_drop suffix).2, ok_bind,
          if_neg plain]

/-- A round returns when the values that it asks for fit, and then as in the rest of the
model. -/
theorem scanBody_eq_ok_iff {st' : Scan} (short : str.length < 2 ^ 31 - 1)
    (suffix : str.drop st.i = c :: tail) :
    scanBody env str st = .ok st' ↔
      env.FitsAll (read st.inQuotes c tail).pieces ∧
        Parsing.scanBody env.restrict str st = .ok st' := by
  simp only [scanBody, Parsing.scanBody, (charAt_of_drop suffix).1, ok_bind, onBuilder_pushBack]
  by_cases dollar : c = '$'
  · subst dollar
    exact scanDollar_eq_ok_iff short suffix
  · have fits : env.FitsAll (read st.inQuotes c tail).pieces :=
      fun name member => absurd (valueOf_mem_read member).1 dollar
    rw [and_iff_right fits, if_neg dollar, if_neg dollar]

/-- The round at the terminator. -/
theorem scanBody_terminator (final : st.i = str.length) :
    scanBody env str st = .ok { st with bld := st.bld ++ ['\x00'] } := by
  have terminator : charAt str st.i = .ok '\x00' := by simp [charAt, final]
  simp [scanBody, terminator]

/-! ## The loop -/

theorem fitsAll_nil (env : Environment) : env.FitsAll [] := fun _ member => nomatch member

theorem fitsAll_append {pieces more : List Piece} :
    env.FitsAll (pieces ++ more) ↔ env.FitsAll pieces ∧ env.FitsAll more := by
  simp only [Environment.FitsAll, List.mem_append, or_imp, forall_and]

/-- The loop returns when the values that it asks for fit, and then as in the rest of the
model. -/
theorem scanLoop_eq_ok_iff {st' : Scan} (short : str.length < 2 ^ 31 - 1) (fuel : Nat) (st : Scan)
    (inside : st.i ≤ str.length) :
    scanLoop env str str.length fuel st = .ok st' ↔
      env.FitsAll (readAll st.inQuotes (str.drop st.i)).1 ∧
        Parsing.scanLoop env.restrict str str.length fuel st = .ok st' := by
  induction fuel generalizing st with
  | zero => simp [scanLoop, Parsing.scanLoop]
  | succ fuel ih =>
      rw [scanLoop, Parsing.scanLoop, if_pos (by omega), if_pos (by omega)]
      rcases Nat.lt_or_eq_of_le inside with before | final
      · rcases exists_suffix before with ⟨c, tail, suffix⟩
        rcases scanBody_reads env.restrict short suffix with ⟨mid, body, round⟩
        have inside' := round.inside
        have step : incInt mid.i = .ok (mid.i + 1) := incInt_eq (by omega)
        have later := ih { mid with i := mid.i + 1 } inside'
        simp only [round.rest] at later
        rw [suffix, readAll_cons, fitsAll_append, ← round.quotes, body, ok_bind, step, ok_bind]
        by_cases fits : env.FitsAll (read st.inQuotes c tail).pieces
        · rw [(scanBody_eq_ok_iff short suffix).mpr ⟨fits, body⟩, ok_bind, step, ok_bind, later,
            and_iff_right fits, round.quotes]
        · apply iff_of_false
          · intro returns
            rcases bind_eq_ok.mp returns with ⟨mid', body', -⟩
            exact fits ((scanBody_eq_ok_iff short suffix).mp body').1
          · exact fun both => fits both.1.1
      · have step : incInt st.i = .ok (st.i + 1) := incInt_eq (by omega)
        have rest : str.drop st.i = [] := List.drop_eq_nil_of_le (Nat.le_of_eq final.symm)
        rw [rest, readAll_nil, and_iff_right (fitsAll_nil env), scanBody_terminator final,
          Parsing.scanBody_terminator final, ok_bind, ok_bind, step, ok_bind, ok_bind]
        cases fuel with
        | zero => rfl
        | succ fuel =>
            rw [scanLoop, Parsing.scanLoop, if_neg (by simp only; omega),
              if_neg (by simp only; omega)]

/-- The index of a scan that returns is an `int`. -/
theorem index_lt_of_scanLoop {len : Int} {st' : Scan} (small : st.i < 2 ^ 31)
    (returns : scanLoop env str len fuel st = .ok st') : st'.i < 2 ^ 31 := by
  induction fuel generalizing st with
  | zero => cases returns
  | succ fuel ih =>
      rw [scanLoop] at returns
      split at returns
      · rcases bind_eq_ok.mp returns with ⟨behind, -, onward⟩
        rcases bind_eq_ok.mp onward with ⟨i, step, later⟩
        unfold incInt at step
        split at step
        · rename_i next
          cases step
          exact ih next later
        · cases step
      · cases returns
        exact small

/-- The rounds reach the terminator with the payload in the builder. -/
theorem reaches_terminator (short : str.length < 2 ^ 31 - 1) (st : Scan)
    (inside : st.i ≤ str.length)
    (fits : env.FitsAll (readAll st.inQuotes (str.drop st.i)).1) :
    Reachable (round env str) st
      ⟨st.bld ++ fill env.restrict (readAll st.inQuotes (str.drop st.i)).1, str.length,
        (readAll st.inQuotes (str.drop st.i)).2⟩ := by
  induction remaining : str.length - st.i using Nat.strong_induction_on generalizing st with
  | _ remaining ih =>
      rcases Nat.lt_or_eq_of_le inside with before | final
      · rcases exists_suffix before with ⟨c, tail, suffix⟩
        rw [suffix, readAll_cons, fitsAll_append] at fits
        rcases scanBody_reads env.restrict short suffix with ⟨mid, body, reads⟩
        have inside' := reads.inside
        have forward := reads.forward
        have body' := (scanBody_eq_ok_iff short suffix).mpr ⟨fits.1, body⟩
        have length : intOfSize str.length = str.length := intOfSize_eq (by omega)
        have step : round env str () st = some { mid with i := mid.i + 1 } := by
          rw [round, length, if_pos (by omega), body']
          simp only [Except.bind, incInt_eq (show mid.i + 1 < 2 ^ 31 by omega)]
          rfl
        have later := ih (str.length - (mid.i + 1)) (by omega) { mid with i := mid.i + 1 } inside'
        simp only [reads.rest] at later
        rw [← reads.quotes] at fits
        rw [suffix, readAll_cons, fill_append, ← List.append_assoc, ← reads.filled, ← reads.quotes]
        exact (Reachable.single step).trans (later fits.2 True.intro)
      · have rest : str.drop st.i = [] := List.drop_eq_nil_of_le (Nat.le_of_eq final.symm)
        rcases st with ⟨bld, i, inQuotes⟩
        obtain rfl : i = str.length := final
        rw [rest, readAll_nil]
        simpa [fill] using Reachable.refl

/-! ## Which scans are exact -/

variable {payload : List Char} {inQuotes : Bool}

theorem ScansExactly.short (scans : ScansExactly env str payload inQuotes) :
    str.length < 2 ^ 31 - 1 := by
  have small : str.length + 1 < 2 ^ 31 := index_lt_of_scanLoop (by decide) scans.ends
  omega

theorem scan_eq_ok_iff {st' : Scan} (short : str.length < 2 ^ 31 - 1) :
    scan env str = .ok st' ↔
      env.FitsAll (template str) ∧ Parsing.scan env.restrict str = .ok st' := by
  have length : intOfSize str.length = str.length := intOfSize_eq (by omega)
  rw [scan, Parsing.scan, length]
  exact scanLoop_eq_ok_iff short _ _ (Nat.zero_le _)

theorem ScansExactly.fitsAll (scans : ScansExactly env str payload inQuotes) :
    env.FitsAll (template str) :=
  ((scan_eq_ok_iff scans.short).mp scans.ends).1

/-- The scan is exact when the string and the values that it asks for fit into an `int`. -/
theorem scansExactly_iff (env : Environment) (str : List Char) :
    (∃ payload inQuotes, ScansExactly env str payload inQuotes) ↔
      str.length < 2 ^ 31 - 1 ∧ env.FitsAll (template str) := by
  constructor
  · rintro ⟨payload, inQuotes, scans⟩
    exact ⟨scans.short, scans.fitsAll⟩
  · rintro ⟨short, fits⟩
    refine ⟨fill env.restrict (template str), (readAll false str).2, ?_⟩
    constructor
    · exact reaches_terminator short ⟨[], 0, false⟩ (Nat.zero_le _) fits
    · exact scanBody_terminator rfl
    · exact (scan_eq_ok_iff short).mpr ⟨fits, scan_fills env.restrict short⟩
    · exact onBuilder_updateBack _ _ _

/-- The environment in which every variable has this value. -/
def Environment.constant (value : List Char) (noTerminator : '\x00' ∉ value) : Environment where
  lookup _ := some value
  noTerminator := by
    rintro name value ⟨⟩
    exact noTerminator

theorem terminator_not_mem_replicate (count : Nat) : '\x00' ∉ List.replicate count 'a' :=
  fun member => absurd (List.eq_of_mem_replicate member) (by decide)

/-- A string of 2^31 characters, and a variable with such a value. -/
theorem scansExactly_fails :
    (¬∃ payload inQuotes, ScansExactly (.constant [] List.not_mem_nil)
        (List.replicate (2 ^ 31) 'a') payload inQuotes) ∧
      ¬∃ payload inQuotes, ScansExactly (.constant (List.replicate (2 ^ 31) 'a')
        (terminator_not_mem_replicate _)) ['$', 'A'] payload inQuotes := by
  constructor
  · rintro ⟨payload, inQuotes, scans⟩
    have short := scans.short
    rw [List.length_replicate] at short
    omega
  · rintro ⟨payload, inQuotes, scans⟩
    have asked : Piece.valueOf ['A'] ∈ template ['$', 'A'] := by
      rw [template, readAll_cons]
      exact List.mem_append_left _ List.mem_cons_self
    have small := scans.fitsAll ['A'] asked _ rfl
    rw [List.length_replicate] at small
    omega

end QuashLabs.Quash.Parsing.AnyString
