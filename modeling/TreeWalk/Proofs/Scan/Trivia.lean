import TreeWalk.Proofs.Scan.Joined

/-!
# Texts with trivia between them

Blanks and comments separate what they stand between. From a line end on, whatever the text in front of it has
left open apart from strings and block comments is closed, so the texts in front of trivia and behind them are
scanned each for itself.
-/

namespace TreeWalk

/-- Blanks and comments that are closed: line comments by a line end, block comments by as many `*/` as they have
openings. -/
inductive Trivia : List Char → Prop where
  | nil : Trivia []
  | blank {c : Char} {rest : List Char} (h : Blank c) (hrest : Trivia rest) : Trivia (c :: rest)
  | lineComment {text rest : List Char} (h : '\n' ∉ text) (hrest : Trivia rest) :
    Trivia ('/' :: '/' :: text ++ '\n' :: rest)
  | blockComment {text rest : List Char} (h : ClosesComment text) (hrest : Trivia rest) :
    Trivia ('/' :: '*' :: text ++ rest)

/-- Trivia in front of a text are segments of their own, whatever the text. -/
theorem Trivia.partition {trivia : List Char} (h : Trivia trivia) {text : List Char} {segments : List Segment}
    (htext : Partition text segments) : ∃ between : List Segment, Partition (trivia ++ text) (between ++ segments) ∧
      between.flatMap Segment.text = trivia ∧ ∀ s ∈ between, s.token? = none ∧ s.cause? = none := by
  have hend : Blank '\n' := .inr (.inr (.inr rfl))
  induction h with
  | nil => exact ⟨[], htext, rfl, by simp⟩
  | @blank c rest hblank _ ih =>
    obtain ⟨between, hpartition, htrivia, hsilent⟩ := ih
    exact ⟨.blank c :: between, hpartition.blank hblank, by simp [Segment.text, htrivia],
      List.forall_mem_cons.2 ⟨⟨rfl, rfl⟩, hsilent⟩⟩
  | @lineComment inside rest hinside _ ih =>
    obtain ⟨between, hpartition, htrivia, hsilent⟩ := ih
    refine ⟨.lineComment ('/' :: '/' :: inside) :: .blank '\n' :: between, ?_, by simp [Segment.text, htrivia],
      List.forall_mem_cons.2 ⟨⟨rfl, rfl⟩, List.forall_mem_cons.2 ⟨⟨rfl, rfl⟩, hsilent⟩⟩⟩
    have hcomment := (Segment.Spelled.lineComment inside hinside).partition
    have hjoined := hcomment.joined hend (by simp [Segment.OpenTo]) hpartition
    rwa [← List.cons_append, ← List.append_assoc] at hjoined
  | @blockComment inside rest hinside _ ih =>
    obtain ⟨between, hpartition, htrivia, hsilent⟩ := ih
    refine ⟨.blockComment ('/' :: '*' :: inside) :: between, ?_, by simp [Segment.text, htrivia],
      List.forall_mem_cons.2 ⟨⟨rfl, rfl⟩, hsilent⟩⟩
    have hsplit : Segment.split '/' ('*' :: (inside ++ (rest ++ text))) =
        (.blockComment ('/' :: '*' :: inside), rest ++ text) := by
      show Segment.afterSlash ('*' :: (inside ++ (rest ++ text))) = _
      rw [Segment.afterSlash, Segment.splitComment_of_closes hinside 0]
    obtain ⟨hspelled, hlongest, -⟩ := Segment.longest_of_split hsplit
    have hcons := Partition.cons hspelled hlongest hpartition
    rwa [Segment.text, ← List.append_assoc] at hcons

namespace Scan

/-- A string or a comment that goes on over a line end has no end, and that is an error. -/
theorem closed_of_errors {source : String}
    (h : ∀ e ∈ (ofSource source).errors, e.cause ≠ .unterminatedString ∧ e.cause ≠ .unterminatedBlockComment) :
    ∀ s ∈ Segment.ofText source.toList, ¬ s.OpenTo '\n' := by
  have hcauses := errors_ofSegments 1 (Segment.ofText source.toList)
  intro s hs hopen
  cases s with
  | fault cause text =>
    have hmem : cause ∈ (ofSource source).errors.map (·.cause) :=
      (congrArg (cause ∈ ·) hcauses).mpr (List.mem_filterMap.2 ⟨_, hs, rfl⟩)
    obtain ⟨e, he, rfl⟩ := List.mem_map.1 hmem
    obtain ⟨hstring, hcomment⟩ := h e he
    generalize e.cause = cause at hopen hstring hcomment
    cases cause with
    | unterminatedString => exact hstring rfl
    | unterminatedBlockComment => exact hcomment rfl
    | _ => exact hopen
  | lineComment => exact hopen rfl
  | _ => exact hopen

/-- Over trivia that begin with a line end, the scan of a text is composed of the scans of its parts. What comes
from the second part is so many lines further down and otherwise the same. -/
theorem composes_over_trivia {source : String}
    (h : ∀ e ∈ (ofSource source).errors, e.cause ≠ .unterminatedString ∧ e.cause ≠ .unterminatedBlockComment)
    {trivia : String} {rest : List Char} (hstart : trivia.toList = '\n' :: rest) (htrivia : Trivia rest) (behind : String) :
    (ofSource (source ++ trivia ++ behind)).tokens = (ofSource source).tokens.dropLast ++
        (ofSource behind).tokens.map (fun t => { t with line := t.line + newlines (source ++ trivia).toList }) ∧
      (ofSource (source ++ trivia ++ behind)).errors = (ofSource source).errors ++
        (ofSource behind).errors.map fun e => { e with line := e.line + newlines (source ++ trivia).toList } := by
  obtain ⟨between, hbehind, hrest, hsilent⟩ := htrivia.partition (partition_ofText behind.toList)
  have hjoined := (partition_ofText source.toList).joined (.inr (.inr (.inr rfl))) (closed_of_errors h) hbehind
  have hsegments : Segment.ofText (source ++ trivia ++ behind).toList =
      Segment.ofText source.toList ++ (.blank '\n' :: between ++ Segment.ofText behind.toList) := by
    simpa [hstart] using hjoined.eq_ofText.symm
  refine ofSource_of_segments hsegments (List.forall_mem_cons.2 ⟨⟨rfl, rfl⟩, hsilent⟩) ?_
  simp [Segment.text, hstart, hrest]

/-- A line comment is open in front of the trivia, and these have a block comment in another one. -/
theorem composes_over_trivia_nested :
    (∀ e ∈ (ofSource "1. @ // a").errors, e.cause ≠ .unterminatedString ∧ e.cause ≠ .unterminatedBlockComment) ∧
      Trivia "/*/**/*/ // x\n".toList ∧
      (ofSource ("1. @ // a" ++ "\n/*/**/*/ // x\n" ++ "b\n#")).errors =
        [⟨1, .malformedNumber "1."⟩, ⟨1, .unexpectedCharacter '@'⟩, ⟨4, .unexpectedCharacter '#'⟩] :=
  have herrors : ∀ e ∈ (ofSource "1. @ // a").errors,
      e.cause ≠ .unterminatedString ∧ e.cause ≠ .unterminatedBlockComment := by decide +kernel
  have hcomment : Trivia (['/', '/'] ++ [' ', 'x'] ++ ['\n']) := .lineComment (by decide) .nil
  have htrivia : Trivia "/*/**/*/ // x\n".toList := .blockComment (.nested .close .close) (.blank (.inl rfl) hcomment)
  ⟨herrors, htrivia, (composes_over_trivia herrors rfl htrivia "b\n#").2.trans (by decide +kernel)⟩

end Scan

end TreeWalk
