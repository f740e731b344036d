import TreeWalk.Proofs.Scan.Partition

/-!
# Lines of tokens and lexical errors

A token stands on the line on which its lexeme ends, counted by the line ends of the source up to there. Of
the errors, those about a single piece stand on the line of that piece, and those that take the rest of the
source on its last line.
-/

namespace TreeWalk

namespace Scan

/-! ## Segments that start on a line -/

/-- The segment `s` stands behind `count` others of which something is made, and its last line is `last`. -/
def EndsOn {α : Type} (made : Segment → Option α) (line : Nat) (segments : List Segment) (count : Nat) (s : Segment)
    (last : Nat) : Prop :=
  ∃ before after, segments = before ++ s :: after ∧ (before.filterMap made).length = count ∧
    last = line + newlines (before.flatMap Segment.text ++ s.text)

theorem add_newlines (line : Nat) (text rest : List Char) :
    line + newlines text + newlines rest = line + newlines (text ++ rest) := by
  simp [newlines, Nat.add_assoc]

theorem EndsOn.first {α : Type} (made : Segment → Option α) (line : Nat) (s : Segment) (rest : List Segment) :
    EndsOn made line (s :: rest) 0 s (line + newlines s.text) := ⟨[], rest, rfl, rfl, rfl⟩

theorem EndsOn.behind {α : Type} {made : Segment → Option α} {line count last : Nat} {first s : Segment}
    {rest : List Segment} (h : EndsOn made (line + newlines first.text) rest count s last) :
    EndsOn made line (first :: rest) (([first].filterMap made).length + count) s last := by
  obtain ⟨before, after, rfl, rfl, rfl⟩ := h
  refine ⟨first :: before, after, rfl, ?_, ?_⟩
  · rw [← List.length_append, ← List.filterMap_append, List.singleton_append]
  · rw [add_newlines, List.flatMap_cons, List.append_assoc]

/-- A token was read from the segment behind those of the tokens before it, or closes the list. -/
theorem tokens_at {line : Nat} {segments : List Segment} {earlier later : List Token} {t : Token}
    (h : (ofSegments line segments).tokens = earlier ++ t :: later) :
    (later = [] ∧ t = .endOfInput (line + newlines (segments.flatMap Segment.text))) ∨
      later ≠ [] ∧ EndsOn Segment.token? line segments earlier.length (.lexeme t.kind t.lexeme.toList) t.line := by
  induction segments generalizing line earlier with
  | nil =>
    rcases earlier with _ | ⟨first, earlier⟩
    · obtain ⟨rfl, rfl⟩ := List.cons_eq_cons.1 h
      exact .inl ⟨rfl, rfl⟩
    · simp [ofSegments] at h
  | cons s rest ih =>
    -- The segment `s` is no lexeme, or its token is among the earlier ones.
    have hlater {earlier' : List Token}
        (hrest : (ofSegments (line + newlines s.text) rest).tokens = earlier' ++ t :: later)
        (hlength : earlier.length = ([s].filterMap Segment.token?).length + earlier'.length) :
        (later = [] ∧ t = .endOfInput (line + newlines ((s :: rest).flatMap Segment.text))) ∨
          later ≠ [] ∧
            EndsOn Segment.token? line (s :: rest) earlier.length (.lexeme t.kind t.lexeme.toList) t.line := by
      rcases ih hrest with ⟨hnil, heof⟩ | ⟨hmore, hends⟩
      · exact .inl ⟨hnil, by rw [heof, add_newlines, List.flatMap_cons]⟩
      · exact .inr ⟨hmore, hlength ▸ hends.behind⟩
    cases s with
    | lexeme kind text =>
      rcases earlier with _ | ⟨first, earlier⟩
      · obtain ⟨rfl, rfl⟩ := List.cons_eq_cons.1 h
        refine .inr ⟨ofSegments_tokens_ne_nil _ rest, ?_⟩
        simpa [Segment.text] using EndsOn.first Segment.token? line (.lexeme kind text) rest
      · obtain ⟨-, hrest⟩ := List.cons_eq_cons.1 h
        exact hlater hrest (by simp [Segment.token?, Nat.add_comm])
    | _ => exact hlater h (by simp [Segment.token?])

/-- An error was made by the segment behind those of the errors before it. -/
theorem errors_at {line : Nat} {segments : List Segment} {earlier later : List LexicalError} {e : LexicalError}
    (h : (ofSegments line segments).errors = earlier ++ e :: later) :
    ∃ text, EndsOn Segment.cause? line segments earlier.length (.fault e.cause text) e.line := by
  induction segments generalizing line earlier with
  | nil => simp [ofSegments] at h
  | cons s rest ih =>
    have hlater {earlier' : List LexicalError}
        (hrest : (ofSegments (line + newlines s.text) rest).errors = earlier' ++ e :: later)
        (hlength : earlier.length = ([s].filterMap Segment.cause?).length + earlier'.length) :
        ∃ text, EndsOn Segment.cause? line (s :: rest) earlier.length (.fault e.cause text) e.line := by
      obtain ⟨text, hends⟩ := ih hrest
      exact ⟨text, hlength ▸ hends.behind⟩
    cases s with
    | fault cause text =>
      rcases earlier with _ | ⟨first, earlier⟩
      · obtain ⟨rfl, -⟩ := List.cons_eq_cons.1 h
        exact ⟨text, .first ..⟩
      · obtain ⟨-, hrest⟩ := List.cons_eq_cons.1 h
        exact hlater hrest (by simp [Segment.cause?, Nat.add_comm])
    | _ => exact hlater h (by simp [Segment.cause?])

end Scan

/-! ## Line ends within faulty pieces -/

theorem Digits.newline_not_mem {digits : List Char} (h : Digits digits) : '\n' ∉ digits :=
  fun hmem => absurd (h.digits _ hmem).1 (by decide)

namespace Segment

/-- A faulty piece that does not take the rest of the source has no line end. -/
theorem Spelled.newlines_eq_zero {cause : LexicalCause} {text : List Char} (h : Spelled (.fault cause text))
    (hstring : cause ≠ .unterminatedString) (hcomment : cause ≠ .unterminatedBlockComment) :
    Scan.newlines text = 0 := by
  refine List.count_eq_zero.2 ?_
  cases h with
  | @unexpected c h =>
    rintro hmem
    obtain rfl := List.mem_singleton.1 hmem
    exact h.blank (.inr (.inr (.inr rfl)))
  | malformed h => simpa using h.newline_not_mem
  | openString => exact absurd rfl hstring
  | openComment => exact absurd rfl hcomment

end Segment

namespace Scan

/-- The lines of a source are exact. Its tokens and errors stem from the segments of its only partition, one
after the other, and each carries the line that the line ends in front of it tell. -/
theorem lines_exact (source : String) :
    ∃ segments, (∀ other, Partition source.toList other ↔ other = segments) ∧
      source.toList = segments.flatMap Segment.text ∧
      (∀ earlier t later, (ofSource source).tokens = earlier ++ t :: later →
        (later = [] ∧ t = .endOfInput (1 + source.toList.count '\n')) ∨
          later ≠ [] ∧ ∃ before after, segments = before ++ .lexeme t.kind t.lexeme.toList :: after ∧
            (before.filterMap Segment.token?).length = earlier.length ∧
            t.line = 1 + (before.flatMap Segment.text ++ t.lexeme.toList).count '\n') ∧
      ∀ earlier e later, (ofSource source).errors = earlier ++ e :: later →
        ∃ before text after, segments = before ++ .fault e.cause text :: after ∧
          (before.filterMap Segment.cause?).length = earlier.length ∧
          match e.cause with
          | .unexpectedCharacter _ | .malformedNumber _ => e.line = 1 + (before.flatMap Segment.text).count '\n'
          | .unterminatedString | .unterminatedBlockComment => e.line = 1 + source.toList.count '\n' := by
  have hpartition := partition_ofText source.toList
  refine ⟨Segment.ofText source.toList, fun other => ⟨Partition.eq_ofText, fun h => h ▸ hpartition⟩,
    hpartition.text_eq, fun earlier t later h => ?_, fun earlier e later h => ?_⟩
  · have hat := tokens_at h
    rw [← hpartition.text_eq] at hat
    exact hat
  · obtain ⟨text, before, after, hsegments, hbefore, hline⟩ := errors_at h
    simp only [Segment.text] at hline
    rw [hsegments] at hpartition
    have hspelled := hpartition.spelled (.fault e.cause text) (by simp)
    have hprecedes := hpartition.longest.precedes hspelled
    have htext := hpartition.text_eq
    refine ⟨before, text, after, hsegments, hbefore, ?_⟩
    have hpiece (hzero : newlines text = 0) : e.line = 1 + (before.flatMap Segment.text).count '\n' := by
      rw [hline, newlines, List.count_append, ← newlines, ← newlines, hzero, Nat.add_zero, newlines]
    have hlast (hrest : after.flatMap Segment.text = []) : e.line = 1 + source.toList.count '\n' := by
      rw [hline, htext]
      simp [newlines, Segment.text, hrest]
    generalize e.cause = cause at *
    cases cause with
    | unexpectedCharacter c => exact hpiece (hspelled.newlines_eq_zero (by simp) (by simp))
    | malformedNumber digits => exact hpiece (hspelled.newlines_eq_zero (by simp) (by simp))
    | unterminatedString => exact hlast hprecedes
    | unterminatedBlockComment => exact hlast hprecedes

end Scan

end TreeWalk
