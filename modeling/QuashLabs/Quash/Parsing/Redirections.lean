import QuashLabs.Quash.Parsing.Session

/-!
# Which redirection counts

A sequence of redirections becomes one record with a file for the input and a file for
the output. The rules for the sequence build the record from its end and overwrite it
on the way to the front, so of several redirections of one kind the first one counts.
-/

namespace QuashLabs.Quash.Parsing

open QuashLabs.Bison

variable {world : World}

/-- The redirections of a sequence with the names of their files. -/
def fileNames (world : World) : List (Mark × Word) → Except Failure (List (Mark × CStr))
  | [] => .ok []
  | (mark, word) :: redirs => do
      let file ← word.eval world
      let files ← fileNames world redirs
      return (mark, file) :: files

/-- The files after `<`. -/
def inputs (files : List (Mark × CStr)) : List CStr :=
  (files.filter fun file => file.1 == .redirIn).map Prod.snd

/-- The redirections by `>` and `>>`. -/
def outputs (files : List (Mark × CStr)) : List (Mark × CStr) :=
  files.filter fun file => file.1 != .redirIn

/-- The record of one redirection of the input and one of the output. -/
def redirectOf (input : Option CStr) (output : Option (Mark × CStr)) : Redirect :=
  ⟨input, output.map Prod.snd, output.map Prod.fst == some .redirOutApp⟩

/-- One more redirection in front takes the place of the others of its kind. -/
theorem redirInnerMore_redirectOf (mark : Mark) (file : CStr) (files : List (Mark × CStr)) :
    redirInnerMore (redirMark mark.flag) file
        (redirectOf (inputs files).head? (outputs files).head?) =
      redirectOf (inputs ((mark, file) :: files)).head?
        (outputs ((mark, file) :: files)).head? := by
  cases mark <;> rfl

/-- The rules keep the first redirection of each kind. -/
theorem evalRedirs_first {redirs : List (Mark × Word)} {redir : Redirect}
    (evaluates : evalRedirs world redirs = .ok redir) :
    ∃ files, fileNames world redirs = .ok files ∧
      redir = redirectOf (inputs files).head? (outputs files).head? := by
  induction redirs generalizing redir with
  | nil =>
      obtain rfl := Except.ok.inj evaluates
      exact ⟨[], rfl, rfl⟩
  | cons head redirs ih =>
      rcases head with ⟨mark, word⟩
      rw [evalRedirs_cons] at evaluates
      rcases Checked.bind_eq_ok.1 evaluates with ⟨file, name, evaluates⟩
      rcases Checked.bind_eq_ok.1 evaluates with ⟨behind, before, evaluates⟩
      obtain rfl := Except.ok.inj evaluates
      rcases ih before with ⟨files, names, rfl⟩
      refine ⟨(mark, file) :: files, ?_, redirInnerMore_redirectOf mark file files⟩
      rw [fileNames, name, names]
      rfl

theorem mark_of_mem_outputs {files : List (Mark × CStr)} {output : Mark × CStr}
    (mem : output ∈ outputs files) : output.1 = .redirOut ∨ output.1 = .redirOutApp := by
  have other := (List.mem_filter.1 mem).2
  rcases output with ⟨mark, file⟩
  cases mark with
  | redirIn => cases other
  | redirOut => exact .inl rfl
  | redirOutApp => exact .inr rfl

/-- The record tells its redirections. -/
theorem redirectOf_inj {input input' : Option CStr} {output output' : Option (Mark × CStr)}
    (mark : ∀ out ∈ output, out.1 = .redirOut ∨ out.1 = .redirOutApp)
    (mark' : ∀ out ∈ output', out.1 = .redirOut ∨ out.1 = .redirOutApp) :
    redirectOf input output = redirectOf input' output' ↔ input = input' ∧ output = output' := by
  constructor
  · intro same
    simp only [redirectOf, Redirect.mk.injEq] at same
    obtain ⟨inFile, outFile, append⟩ := same
    refine ⟨inFile, ?_⟩
    rcases output with - | ⟨out, file⟩ <;> rcases output' with - | ⟨out', file'⟩
    · rfl
    · cases outFile
    · cases outFile
    · obtain rfl := Option.some.inj outFile
      rcases mark _ rfl with rfl | rfl <;> rcases mark' _ rfl with rfl | rfl
      · rfl
      · cases append
      · cases append
      · rfl
  · rintro ⟨rfl, rfl⟩
    rfl

/-- The record that the parser builds from a sequence names the file of the last `<` and
the file of the last `>` or `>>`, for appending if that is `>>`, exactly when the first
of each kind says the same as the last. -/
theorem redirInner_last_iff {redirs : List (Mark × Word)} {redir : Redirect}
    (evaluates : evalRedirs world redirs = .ok redir) :
    Reads world [28] (redirTokens redirs) (.ok [.redirect redir]) ∧
      ∃ files, fileNames world redirs = .ok files ∧
        (redir = redirectOf (inputs files).getLast? (outputs files).getLast? ↔
          (inputs files).head? = (inputs files).getLast? ∧
            (outputs files).head? = (outputs files).getLast?) := by
  have reads : Reads world [28] (redirTokens redirs) _ := reads_redir redirs
  rw [evaluates] at reads
  rcases evalRedirs_first evaluates with ⟨files, names, rfl⟩
  refine ⟨reads, files, names, redirectOf_inj ?_ ?_⟩
  · intro output first
    exact mark_of_mem_outputs (List.mem_of_mem_head? first)
  · intro output last
    exact mark_of_mem_outputs (List.mem_of_mem_getLast? last)

/-- The redirections `> x < y > x`. -/
theorem redirInner_last_iff_three :
    Reads plainWorld [28]
        (redirTokens [(.redirOut, .first (.simStr ['x'])), (.redirIn, .first (.simStr ['y'])),
          (.redirOut, .first (.simStr ['x']))])
        (.ok [.redirect ⟨some ['y'], some ['x'], false⟩]) ∧
      ∃ files, fileNames plainWorld [(.redirOut, .first (.simStr ['x'])),
          (.redirIn, .first (.simStr ['y'])), (.redirOut, .first (.simStr ['x']))] = .ok files ∧
        (⟨some ['y'], some ['x'], false⟩ =
            redirectOf (inputs files).getLast? (outputs files).getLast? ↔
          (inputs files).head? = (inputs files).getLast? ∧
            (outputs files).head? = (outputs files).getLast?) :=
  redirInner_last_iff rfl

/-- The redirections `> x > y` name the file `x`. -/
theorem redirInner_last_fails : ¬∀ (world : World) (redirs : List (Mark × Word))
    (redir : Redirect) (files : List (Mark × CStr)), evalRedirs world redirs = .ok redir →
      fileNames world redirs = .ok files →
        redir = redirectOf (inputs files).getLast? (outputs files).getLast? := by
  intro last
  have same := last plainWorld [(.redirOut, .first (.simStr ['x'])),
    (.redirOut, .first (.simStr ['y']))] ⟨none, some ['x'], false⟩ _ rfl rfl
  exact absurd same (by decide)

end QuashLabs.Quash.Parsing
