import QuashLabs.QuashProject.Redirections

/-!
# What the collecting loop of `execute_redirections` collects

The collecting loop keeps one mark per redirection and one per pipe in a single
vector, and leaves in `args` the words of the last command, or nothing when that
command has a redirection.
-/

namespace QuashLabs.QuashProject

/-! ## The loop on the tokens of a line -/

theorem isWord_iff {token : String} :
    isWord token = true ↔ token ≠ "|" ∧ token ≠ "<" ∧ token ≠ ">" ∧ token ≠ ">>" := by
  simp [isWord, and_assoc]

theorem Segment.isWord_of_mem_words {seg : Segment} {token : String} (member : token ∈ seg.words) :
    isWord token = true := by
  rcases List.mem_map.mp member with ⟨word, -, rfl⟩
  exact word.property

theorem Segment.isWord_of_mem_files {seg : Segment} {file : Operator × String}
    (member : file ∈ seg.files) : isWord file.2 = true := by
  rcases List.mem_map.mp member with ⟨redirection, -, rfl⟩
  exact redirection.2.property

/-- A word at the front of the line is not compared with the operators. -/
theorem collect_atBegin {word : String} (plain : isWord word = true) (rest : List String)
    (st : Collected) : collect true (word :: rest) st = collect false (word :: rest) st := by
  rcases isWord_iff.mp plain with ⟨notPipe, notIn, notOut, notApp⟩
  simp [collect, notPipe, notIn, notOut, notApp]

theorem collect_word {word : String} (plain : isWord word = true) (rest : List String)
    {st : Collected} (open_ : st.flag = false) :
    collect false (word :: rest) st =
      collect false rest { st with args := st.args ++ [word] } := by
  rcases isWord_iff.mp plain with ⟨notPipe, notIn, notOut, notApp⟩
  simp [collect, notPipe, notIn, notOut, notApp, open_]

theorem collect_words {words : List String} (plain : ∀ word ∈ words, isWord word = true)
    (rest : List String) {st : Collected} (open_ : st.flag = false) :
    collect false (words ++ rest) st =
      collect false rest { st with args := st.args ++ words } := by
  induction words generalizing st with
  | nil => simp
  | cons word words ih =>
      rw [List.cons_append, collect_word (plain word List.mem_cons_self) _ open_,
        ih (fun w member => plain w (List.mem_cons_of_mem word member)) (by exact open_)]
      simp

/-- The effect of one operator with its file name. -/
def Collected.onFile (st : Collected) (file : Operator × String) : Collected :=
  match file.1 with
  | .input => st.onInput "<" file.2
  | .output => st.onOutput ">" file.2
  | .append => st.onOutput ">>" file.2

theorem collect_file {file : Operator × String} (plain : isWord file.2 = true)
    (rest : List String) (st : Collected) :
    collect false (file.1.token :: file.2 :: rest) st = collect false rest (st.onFile file) := by
  rcases isWord_iff.mp plain with ⟨notPipe, notIn, notOut, notApp⟩
  rcases file with ⟨op, name⟩
  cases op <;>
    simp_all [collect, Operator.token, Collected.onFile, Collected.onInput, Collected.onOutput]

theorem collect_files {files : List (Operator × String)}
    (plain : ∀ file ∈ files, isWord file.2 = true) (rest : List String) (st : Collected) :
    collect false (files.flatMap (fun file => [file.1.token, file.2]) ++ rest) st =
      collect false rest (files.foldl Collected.onFile st) := by
  induction files generalizing st with
  | nil => rfl
  | cons file files ih =>
      simp only [List.flatMap_cons, List.cons_append, List.nil_append, List.foldl_cons]
      rw [collect_file (plain file List.mem_cons_self),
        ih fun f member => plain f (List.mem_cons_of_mem file member)]

/-- The two shared file names after the redirections `files`. -/
def sharedNames (names : String × String) (files : List (Operator × String)) : String × String :=
  files.foldl (fun names file =>
    match file.1 with
    | .input => (file.2, names.2)
    | _ => (names.1, file.2)) names

/-- What the loop has collected once a segment with the words `args` was read. -/
structure SegmentRead (st : Collected) (seg : Segment) (after : Collected) : Prop where
  fullcommand :
    after.fullcommand ++ (if after.flag then [] else [after.args]) =
      st.fullcommand ++ [seg.words]
  args : after.args = if seg.files = [] then seg.words else []
  flag : after.flag = decide (seg.files ≠ [])
  redirection : after.redirection = st.redirection ++ seg.files.map fun file => file.1.token
  pipecommand : after.pipecommand = st.pipecommand
  names : (after.inFile, after.outFile) = sharedNames (st.inFile, st.outFile) seg.files

/-- After the first operator the rest of a segment only adds marks and names. -/
theorem foldl_onFile_of_flag (files : List (Operator × String)) {st : Collected}
    (closed : st.flag = true) :
    files.foldl Collected.onFile st =
      { st with
        op := (files.foldl Collected.onFile st).op
        redirection := st.redirection ++ files.map fun file => file.1.token
        inFile := (sharedNames (st.inFile, st.outFile) files).1
        outFile := (sharedNames (st.inFile, st.outFile) files).2 } := by
  induction files generalizing st with
  | nil => simp [sharedNames]
  | cons file files ih =>
      rcases file with ⟨op, name⟩
      rw [List.foldl_cons, ih (by cases op <;> rfl)]
      cases op <;>
        simp [Collected.onFile, Collected.onInput, Collected.onOutput, Collected.finishCommand,
          closed, sharedNames, Operator.token]

theorem collect_segment (seg : Segment) (rest : List String) {st : Collected}
    (open_ : st.flag = false) (fresh : st.args = []) :
    ∃ after, collect false (seg.tokens ++ rest) st = collect false rest after ∧
      SegmentRead st seg after := by
  refine ⟨seg.files.foldl Collected.onFile { st with args := seg.words }, ?_, ?_⟩
  · rw [Segment.tokens, List.append_assoc,
      collect_words (fun _ member => Segment.isWord_of_mem_words member) _ open_, fresh,
      List.nil_append, Segment.redirectionTokens,
      collect_files fun _ member => Segment.isWord_of_mem_files member]
  · cases files : seg.files with
    | nil => constructor <;> simp [files, open_, sharedNames]
    | cons file files' =>
        -- The first operator stores the words and closes the command.
        rcases file with ⟨op, name⟩
        rw [List.foldl_cons, foldl_onFile_of_flag files' (by cases op <;> rfl)]
        cases op <;> constructor <;>
          simp [Collected.onFile, Collected.onInput, Collected.onOutput, Collected.finishCommand,
            open_, files, sharedNames, Operator.token]

/-! ## The loop on a whole line -/

/-- The mark that the vector holds for a redirection or for a pipe. -/
def markText : Option Operator → String
  | none => "x"
  | some op => op.token

/-- The operators of a segment in order. -/
def Segment.operators (seg : Segment) : List Operator :=
  seg.files.map Prod.fst

/-- The marks of a line: one per redirection and one per pipe, in source order. -/
def marks : List Segment → List (Option Operator)
  | [] => []
  | [seg] => seg.operators.map some
  | seg :: rest => seg.operators.map some ++ none :: marks rest

/-- What the loop has collected once the whole line was read. -/
structure LineRead (st : Collected) (line : List Segment) (after : Collected) : Prop where
  fullcommand :
    after.fullcommand ++ (if after.flag then [] else [after.args]) =
      st.fullcommand ++ line.map Segment.words
  args : ∀ last, line.getLast? = some last →
    after.args = if last.files = [] then last.words else []
  redirection : after.redirection = st.redirection ++ (marks line).map markText
  names : (after.inFile, after.outFile) =
    sharedNames (st.inFile, st.outFile) (line.flatMap Segment.files)

/-- A pipe after a segment leaves no words behind. -/
theorem SegmentRead.onPipe {seg : Segment} {st after : Collected}
    (read : SegmentRead st seg after) :
    after.onPipe.flag = false ∧ after.onPipe.args = [] ∧
      after.onPipe.fullcommand = st.fullcommand ++ [seg.words] ∧
      (after.onPipe.inFile, after.onPipe.outFile) = (after.inFile, after.outFile) := by
  have stored := read.fullcommand
  have left := read.args
  have flagged := read.flag
  cases flag : after.flag with
  | false => simp_all [Collected.onPipe, Collected.finishCommand]
  | true =>
      have files : seg.files ≠ [] := by simpa [flag] using flagged
      simp_all [Collected.onPipe, Collected.finishCommand]

theorem sharedNames_append (names : String × String) (files later : List (Operator × String)) :
    sharedNames names (files ++ later) = sharedNames (sharedNames names files) later := by
  simp [sharedNames]

theorem collect_line (seg : Segment) (line : List Segment) (st : Collected)
    (open_ : st.flag = false) (fresh : st.args = []) :
    ∃ after, collect false (lineTokens (seg :: line)) st = some after ∧
      LineRead st (seg :: line) after := by
  induction line generalizing seg st with
  | nil =>
      rcases collect_segment seg [] open_ fresh with ⟨after, runs, read⟩
      refine ⟨after, by simpa [lineTokens, collect] using runs, ?_⟩
      constructor
      · simpa using read.fullcommand
      · simpa using read.args
      · simpa [marks, Segment.operators, Function.comp_def, markText] using read.redirection
      · simpa using read.names
  | cons next line ih =>
      rcases collect_segment seg ("|" :: lineTokens (next :: line)) open_ fresh with
        ⟨middle, runs, read⟩
      rcases read.onPipe with ⟨opened, emptied, stored, sameNames⟩
      rcases ih next _ opened emptied with ⟨after, continues, later⟩
      have piped : collect false ("|" :: lineTokens (next :: line)) middle =
          collect false (lineTokens (next :: line)) middle.onPipe := by
        simp [collect]
      refine ⟨after, ?_, ?_⟩
      · rw [lineTokens, runs, piped, continues]
        simp
      · constructor
        · rw [later.fullcommand, stored]
          simp
        · intro last isLast
          exact later.args last (by simpa using isLast)
        · rw [later.redirection]
          simp [Collected.onPipe, read.redirection, marks, Segment.operators, Function.comp_def,
            markText]
        · rw [later.names, sameNames, read.names, ← sharedNames_append, ← List.flatMap_cons]

end QuashLabs.QuashProject
