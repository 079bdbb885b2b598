import Mathlib.Data.List.Forall2
import QuashLabs.QuashProject.Alignment

/-!
# Which process gets which redirection

The vector of marks has one entry per redirection and one per pipe, but it is
read with the number of the process. The two numberings agree only up to the
second redirection of the line. Apart from that, every process builds its
argument array with the length left over in `args`, which is the length of the
last command, or zero when that command has a redirection.
-/

namespace QuashLabs.QuashProject

/-! ## One process -/

/-- The shared file name that the `freopen` branch of an operator reads. -/
def Collected.nameOf (st : Collected) : Operator → String
  | .input => st.inFile
  | _ => st.outFile

theorem launch_eq_some_iff {st : Collected} {k : Nat} {seg : Segment} {mark : Option Operator}
    (command : st.fullcommand[k]? = some seg.words)
    (marked : st.redirection[k]? = some (markText mark)) (process : Launch) :
    launch st k = some process ↔ seg.words.length ≤ st.args.length ∧
      process = Launch.redirect st (markText mark)
        { program := seg.command.val
          argv := seg.words
          stdin := if k ≤ st.pipecommand ∧ 0 < k then .pipe (k - 1) else .inherited
          stdout := if k ≤ st.pipecommand ∧ k < st.pipecommand then .pipe k else .inherited
          reopened := [] } := by
  have first : seg.words.head? = some seg.command.val := rfl
  simp only [launch, command, marked, first, Option.bind_eq_bind, Option.bind_some, guard,
    Nat.add_le_add_iff_right]
  by_cases fits : seg.words.length ≤ st.args.length
  · simp [fits, eq_comm]
  · simp [fits, failure]

/-- The process serves its segment exactly when its mark and the shared names
are the redirections of the segment. -/
theorem serves_redirect_iff {st : Collected} {seg : Segment} {mark : Option Operator}
    {base : Launch} (program : base.program = seg.command.val) (argv : base.argv = seg.words)
    (plain : base.reopened = []) :
    Serves seg (Launch.redirect st (markText mark) base) ↔
      seg.files = mark.toList.map fun op => (op, st.nameOf op) := by
  constructor
  · intro serves
    rw [← serves.reopened]
    rcases mark with _ | op
    · simp [Launch.redirect, markText, plain]
    · cases op <;> simp [Launch.redirect, markText, Operator.token, Collected.nameOf]
  · intro own
    rcases mark with _ | op
    · constructor <;> simp_all [Launch.redirect, markText]
    · cases op <;> constructor <;>
        simp_all [Launch.redirect, markText, Operator.token, Collected.nameOf]

/-! ## Positions of the marks -/

/-- The mark that process `k` reads; past the marks the vector is padded. -/
def markAt (marked : List (Option Operator)) (k : Nat) : Option Operator :=
  (marked[k]?).join

/-- Every segment of the line has exactly the operators of the mark at its position. -/
def Aligned (marked : List (Option Operator)) (segs : List Segment) : Prop :=
  ∀ k, ∀ inside : k < segs.length, segs[k].operators = (markAt marked k).toList

/-- All redirections of a line. -/
def lineFiles (line : List Segment) : List (Operator × String) :=
  line.flatMap Segment.files

theorem aligned_cons_iff {mark : Option Operator} {marked : List (Option Operator)}
    {seg : Segment} {line : List Segment} :
    Aligned (mark :: marked) (seg :: line) ↔
      seg.operators = mark.toList ∧ Aligned marked line := by
  constructor
  · intro aligned
    exact ⟨aligned 0 (Nat.succ_pos _), fun k inside => aligned (k + 1) (Nat.succ_lt_succ inside)⟩
  · rintro ⟨first, others⟩ k inside
    cases k with
    | zero => exact first
    | succ k => exact others k (Nat.lt_of_succ_lt_succ inside)

theorem marks_eq_of_plain {seg : Segment} (line : List Segment) (plain : seg.files = []) :
    marks (seg :: line) = if line = [] then [] else none :: marks line := by
  cases line <;> simp [marks, Segment.operators, plain]

/-- Marks that are read one position late belong to no segment. -/
theorem aligned_late_iff {line : List Segment} :
    Aligned (none :: marks line) line ↔ lineFiles line = [] := by
  induction line with
  | nil => simp [Aligned, lineFiles]
  | cons seg line ih =>
      rw [aligned_cons_iff]
      by_cases plain : seg.files = []
      · rw [marks_eq_of_plain line plain]
        by_cases final : line = []
        · simp [final, Aligned, lineFiles, plain, Segment.operators]
        · simp only [final, if_false, ih]
          simp [lineFiles, plain, Segment.operators]
      · simp [lineFiles, plain, Segment.operators]

/-- The marks stand at the positions of their segments exactly when the line has
at most one redirection. -/
theorem aligned_marks_iff {line : List Segment} :
    Aligned (marks line) line ↔ (lineFiles line).length ≤ 1 := by
  induction line with
  | nil => simp [Aligned, lineFiles]
  | cons seg line ih =>
      have split : lineFiles (seg :: line) = seg.files ++ lineFiles line := by
        simp [lineFiles]
      cases files : seg.files with
      | nil =>
          rw [marks_eq_of_plain line files, split, files, List.nil_append, ← ih]
          by_cases final : line = []
          · simp [final, Aligned, marks, markAt, Segment.operators, files]
          · simp [final, aligned_cons_iff, Segment.operators, files]
      | cons file files' =>
          -- The pipe after a redirection shifts every later mark by one.
          have others : marks (seg :: line) = some file.1 ::
              (files'.map fun file => some file.1) ++
                (if line = [] then [] else none :: marks line) := by
            cases line <;> simp [marks, Segment.operators, files]
          rw [others, List.cons_append, aligned_cons_iff, split, files]
          simp only [Segment.operators, files, List.map_cons, Option.toList_some,
            List.cons.injEq, true_and, List.map_eq_nil_iff, List.cons_append, List.length_cons,
            List.length_append]
          cases files' with
          | cons _ _ => simp
          | nil =>
              by_cases final : line = []
              · simp [final, Aligned, lineFiles]
              · simp [final, aligned_late_iff, List.length_eq_zero_iff]

/-! ## The whole line -/

theorem close_redirection_getElem? {st : Collected} {marked : List (Option Operator)}
    (collected : st.redirection = marked.map markText) {k : Nat}
    (inside : k < st.close.fullcommand.length) :
    st.close.redirection[k]? = some (markText (markAt marked k)) := by
  have padded : st.close.redirection = marked.map markText ++
      List.replicate (st.close.fullcommand.length - marked.length) "x" := by
    simp [Collected.close, collected]
  rw [padded]
  by_cases within : k < marked.length
  · rw [List.getElem?_append_left (by simpa using within)]
    simp [markAt, within]
  · rw [List.getElem?_append_right (by simpa using within)]
    simp [markAt, markText, List.getElem?_eq_none (Nat.le_of_not_lt within),
      show k - marked.length < st.close.fullcommand.length - marked.length by omega]

theorem nameOf_eq_of_mem {st : Collected} {files : List (Operator × String)}
    (names : (st.inFile, st.outFile) = sharedNames ("", "") files) (single : files.length ≤ 1)
    {file : Operator × String} (member : file ∈ files) : st.nameOf file.1 = file.2 := by
  match files, single with
  | [only], _ =>
      obtain rfl := List.mem_singleton.mp member
      rcases file with ⟨op, name⟩
      cases op <;> simp_all [sharedNames, Collected.nameOf]

/-- The last command has no redirection and at least as many words as any other. -/
def LastIsLongest (line : List Segment) : Prop :=
  ∃ last, line.getLast? = some last ∧ last.files = [] ∧
    ∀ seg ∈ line, seg.words.length ≤ last.words.length

/-- Every process has room for its arguments exactly when the last command
leaves its words behind and is the longest. -/
theorem fits_iff {st : Collected} {line : List Segment} (nonempty : line ≠ [])
    (args : ∀ last, line.getLast? = some last →
      st.args = if last.files = [] then last.words else []) :
    (∀ seg ∈ line, seg.words.length ≤ st.args.length) ↔ LastIsLongest line := by
  have isLast := List.getLast?_eq_some_getLast nonempty
  have left := args _ isLast
  by_cases plain : (line.getLast nonempty).files = []
  · rw [if_pos plain] at left
    simp [LastIsLongest, isLast, plain, left]
  · rw [if_neg plain] at left
    have some_ := List.getLast_mem nonempty
    constructor
    · intro fits
      have none_ := fits _ some_
      simp [left, Segment.words] at none_
    · rintro ⟨last, same, noFiles, -⟩
      rw [isLast] at same
      cases same
      exact absurd noFiles plain

/-- The commands that the launches are made from. -/
theorem LineRead.commands {segs : List Segment} {st : Collected}
    (read : LineRead .start segs st) : st.close.fullcommand = segs.map Segment.words := by
  rw [← List.nil_append (segs.map _), ← show Collected.start.fullcommand = [] from rfl,
    ← read.fullcommand]
  cases flag : st.flag <;> simp [Collected.close, flag]

/-- The process of a segment serves it exactly when its words fit and its redirections are
those of the mark that the process reads. -/
theorem LineRead.serves_iff {segs : List Segment} {st : Collected} (read : LineRead .start segs st)
    (k : Nat) (inside : k < segs.length) :
    (∃ launched, launch st.close k = some launched ∧ Serves segs[k] launched) ↔
      segs[k].words.length ≤ st.args.length ∧
        segs[k].files = (markAt (marks segs) k).toList.map fun op => (op, st.nameOf op) := by
  have command : st.close.fullcommand[k]? = some segs[k].words := by simp [read.commands, inside]
  have marked := close_redirection_getElem? (k := k) (read.redirection.trans (List.nil_append _))
    (by simpa [read.commands] using inside)
  simp only [launch_eq_some_iff command marked, and_assoc, exists_and_left, exists_eq_left]
  rw [serves_redirect_iff rfl rfl rfl]
  rfl

/-- Every process reads the redirections of its segment exactly when the line has at most
one. -/
theorem LineRead.ownFiles_iff {segs : List Segment} {st : Collected}
    (read : LineRead .start segs st) :
    (∀ k, ∀ inside : k < segs.length,
      segs[k].files = (markAt (marks segs) k).toList.map fun op => (op, st.nameOf op)) ↔
        (lineFiles segs).length ≤ 1 := by
  rw [← aligned_marks_iff]
  constructor
  · intro files k inside
    simp [Segment.operators, files k inside, Function.comp_def]
  · intro aligned k inside
    have single := aligned_marks_iff.mp aligned
    rw [← aligned k inside, Segment.operators, List.map_map]
    apply (List.map_id _).symm.trans
    apply List.map_congr_left
    intro file member
    have inLine : file ∈ lineFiles segs :=
      List.mem_flatMap.mpr ⟨_, List.getElem_mem inside, member⟩
    simp [nameOf_eq_of_mem read.names single inLine]

/-- `execute_redirections` serves a line exactly when it has at most one
redirection, its last command has none and its last command is the longest. -/
theorem lineServed_iff (line : List Segment) :
    LineServed line ↔ (lineFiles line).length ≤ 1 ∧ LastIsLongest line := by
  rcases line with _ | ⟨seg, line⟩
  · simp [LineServed, LastIsLongest, executeRedirections, lineTokens, collect, Collected.start,
      Collected.close, List.forall₂_nil_left_iff]
  rcases collect_line seg line .start rfl rfl with ⟨st, runs, read⟩
  have begins : collect true (lineTokens (seg :: line)) .start = some st := by
    rw [← runs]
    cases line <;> exact collect_atBegin seg.command.property _ _
  rw [← read.ownFiles_iff, ← fits_iff (List.cons_ne_nil seg line) read.args]
  simp only [LineServed, executeRedirections, begins, Option.map_some, Option.some.injEq,
    exists_eq_left', List.forall₂_iff_get, List.length_map, List.length_range, read.commands,
    List.get_eq_getElem, List.getElem_map, List.getElem_range, true_and]
  constructor
  · intro each
    constructor
    · intro k inside
      exact ((read.serves_iff k inside).mp (each k inside inside)).2
    · intro seg member
      rcases List.getElem_of_mem member with ⟨k, inside, rfl⟩
      exact ((read.serves_iff k inside).mp (each k inside inside)).1
  · rintro ⟨files, fits⟩ k inside -
    exact (read.serves_iff k inside).mpr ⟨fits _ (List.getElem_mem inside), files k inside⟩

/-- `cat < in | tee > out | wc`: the redirection of `tee` is dropped and the
output of `wc` goes to its file instead. -/
theorem lineServed_fails : ¬∀ line : List Segment, line ≠ [] → LineServed line := by
  intro served
  let cat : Segment := ⟨⟨"cat", by decide⟩, [], [(.input, ⟨"in", by decide⟩)]⟩
  let tee : Segment := ⟨⟨"tee", by decide⟩, [], [(.output, ⟨"out", by decide⟩)]⟩
  let wc : Segment := ⟨⟨"wc", by decide⟩, [], []⟩
  have run : executeRedirections (lineTokens [cat, tee, wc]) =
      some [some ⟨"cat", ["cat"], .file "in", .pipe 0, [(.input, "in")]⟩,
        some ⟨"tee", ["tee"], .pipe 0, .pipe 1, []⟩,
        some ⟨"wc", ["wc"], .pipe 1, .file "out" "w", [(.output, "out")]⟩] := by
    decide
  rcases served [cat, tee, wc] (by simp) with ⟨processes, runs, serve⟩
  obtain rfl := Option.some.inj (run.symm.trans runs)
  rcases serve with _ | ⟨-, _ | ⟨⟨launched, same, serves⟩, -⟩⟩
  cases same
  exact absurd serves.reopened (by decide)

end QuashLabs.QuashProject
