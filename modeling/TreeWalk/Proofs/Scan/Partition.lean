import TreeWalk.Proofs.Scan.Longest

/-!
# Source texts are cut into the longest segments

The segments of a text are its only partition, and the tokens and errors of the text are those of its
segments in order.
-/

namespace TreeWalk

namespace Segment

theorem take_append {s : Segment} {rest : List Char} (h : s.Spelled) (hlongest : s.Longest rest) (limit : Nat) :
    take (limit + 1) (s.text ++ rest) = s :: take limit rest := by
  obtain ⟨c, tail, htext⟩ := List.exists_cons_of_ne_nil (List.append_ne_nil_of_left_ne_nil h.text_ne_nil rest)
  rw [htext, take, h.split_eq hlongest htext]

theorem partition_take {limit : Nat} {text : List Char} (h : text.length ≤ limit) : Partition text (take limit text) := by
  induction limit generalizing text with
  | zero =>
    obtain rfl := List.length_eq_zero_iff.1 (Nat.le_zero.1 h)
    exact .nil
  | succ limit ih =>
    rcases text with _ | ⟨c, tail⟩
    · exact .nil
    · obtain ⟨s, rest, hspelled, hlongest, htext⟩ := exists_longest c tail
      have hlength := List.length_pos_iff.2 hspelled.text_ne_nil
      rw [← htext, List.length_append] at h
      rw [← htext, take_append hspelled hlongest]
      exact .cons hspelled hlongest (ih (by omega))

end Segment

theorem partition_ofText (text : List Char) : Partition text (Segment.ofText text) := Segment.partition_take (Nat.le_refl _)

namespace Partition

theorem eq_take {text : List Char} {segments : List Segment} (h : Partition text segments) {limit : Nat}
    (hlimit : text.length ≤ limit) : segments = Segment.take limit text := by
  induction h generalizing limit with
  | nil => cases limit <;> rfl
  | @cons s rest segments hspelled hlongest _ ih =>
    have hlength := List.length_pos_iff.2 hspelled.text_ne_nil
    rw [List.length_append] at hlimit
    obtain ⟨limit, rfl⟩ : ∃ n, limit = n + 1 := ⟨limit - 1, by omega⟩
    rw [Segment.take_append hspelled hlongest, ← ih (by omega)]

/-- A text has one partition only. -/
theorem eq_ofText {text : List Char} {segments : List Segment} (h : Partition text segments) :
    segments = Segment.ofText text := h.eq_take (Nat.le_refl _)

theorem spelled {text : List Char} {segments : List Segment} (h : Partition text segments) :
    ∀ s ∈ segments, s.Spelled := by
  induction h with
  | nil => simp
  | cons hspelled _ _ ih => exact List.forall_mem_cons.2 ⟨hspelled, ih⟩

/-- Each segment stands in front of the texts of the others. -/
theorem longest {text : List Char} {before after : List Segment} {s : Segment} (h : Partition text (before ++ s :: after)) :
    s.Longest (after.flatMap Segment.text) := by
  induction before generalizing text with
  | nil =>
    cases h with
    | cons _ hlongest hs => rwa [← hs.text_eq]
  | cons _ before ih =>
    cases h with
    | cons _ _ hs => exact ih hs

end Partition

namespace Segment

theorem Longest.precedes {s : Segment} {rest : List Char} (hlongest : s.Longest rest) (h : s.Spelled) : s.Precedes rest := by
  cases h with
  | lineComment text h => exact stops_of_lineComment h hlongest
  | malformed h =>
    intro d hd hdigit
    exact hlongest.next hd (.lexeme (.decimal h (.single hdigit))) (by simp [text])
  | openString text h => exact rest_of_openString h hlongest
  | openComment text h => exact rest_of_openComment h hlongest
  | _ => trivial

end Segment

/-! ## Tokens and errors -/

namespace Scan

theorem literal?_eq_none {kind : TokenKind} (h : kind ≠ .number ∧ kind ≠ .string) (text : List Char) :
    literal? kind text = none := by
  unfold literal?
  split
  · exact absurd rfl h.1
  · exact absurd rfl h.2
  · rfl

theorem literal?_of_spells {kind : TokenKind} {text : List Char} {literal : Option TokenLiteral}
    (h : Spells kind text literal) : literal? kind text = literal := by
  have hpoint {digits : List Char} (h : Digits digits) : ∀ c ∈ digits, (c != '.') = true := by
    intro c hc
    have hdigit := h.digits c hc
    have hne : c ≠ '.' := by
      rintro rfl
      exact absurd hdigit.1 (by decide)
    simpa using hne
  cases h with
  | operator h =>
    have hall : ∀ e ∈ operators, e.2 ≠ .number ∧ e.2 ≠ .string := by decide
    exact literal?_eq_none (hall _ h) text
  | keyword h =>
    have hall : ∀ e ∈ TokenKind.keywords, e.2 ≠ .number ∧ e.2 ≠ .string := by decide
    exact literal?_eq_none (hall _ h) _
  | identifier h hfree => rfl
  | whole h =>
    obtain ⟨htake, hdrop⟩ := Segment.span_eq (hpoint h) [] (by simp)
    rw [List.append_nil] at htake hdrop
    rw [literal?, htake, hdrop]
    rfl
  | @decimal whole fraction h h' =>
    obtain ⟨htake, hdrop⟩ := Segment.span_eq (hpoint h) ('.' :: fraction) (by simp)
    rw [literal?, htake, hdrop]
    rfl
  | @string inside h =>
    show some (TokenLiteral.text (String.ofList ((inside ++ ['"']).dropLast))) = _
    rw [List.dropLast_concat]

end Scan

/-- Kind and literal of a token are determined by its lexeme. -/
theorem Spells.unique {kind kind' : TokenKind} {text : List Char} {literal literal' : Option TokenLiteral}
    (h : Spells kind text literal) (h' : Spells kind' text literal') : kind = kind' ∧ literal = literal' := by
  have hlongest (s : Segment) : s.Longest [] := fun _ _ more after hnil _ => (List.append_eq_nil_iff.1 hnil.symm).1
  obtain ⟨c, tail, htext⟩ := List.exists_cons_of_ne_nil (Segment.Spelled.lexeme h).text_ne_nil
  have hwhole : text ++ [] = c :: tail := (List.append_nil text).trans htext
  have hsplit := (Segment.Spelled.lexeme h).split_eq (hlongest _) hwhole
  have hsplit' := (Segment.Spelled.lexeme h').split_eq (hlongest _) hwhole
  obtain rfl : kind = kind' := by
    rw [hsplit] at hsplit'
    simpa using hsplit'
  exact ⟨rfl, (Scan.literal?_of_spells h).symm.trans (Scan.literal?_of_spells h')⟩

namespace Segment

/-- The kind and the lexeme of a segment that is a token. -/
def token? : Segment → Option (TokenKind × String)
  | lexeme kind text => some (kind, String.ofList text)
  | _ => none

def cause? : Segment → Option LexicalCause
  | fault cause _ => some cause
  | _ => none

end Segment

namespace Scan

theorem ofSegments_tokens_ne_nil (line : Nat) (segments : List Segment) : (ofSegments line segments).tokens ≠ [] := by
  induction segments generalizing line with
  | nil => exact List.cons_ne_nil _ _
  | cons s rest ih =>
    cases s with
    | lexeme => exact List.cons_ne_nil _ _
    | _ => exact ih _

/-- The tokens of segments, without the one that closes the input. -/
theorem tokens_ofSegments (line : Nat) {segments : List Segment} (h : ∀ s ∈ segments, s.Spelled) :
    ∃ tokens last, (ofSegments line segments).tokens = tokens ++ [.endOfInput last] ∧
      tokens.map (fun t => (t.kind, t.lexeme)) = segments.filterMap Segment.token? ∧
      ∀ t ∈ tokens, Spells t.kind t.lexeme.toList t.literal := by
  induction segments generalizing line with
  | nil => exact ⟨[], line, rfl, rfl, by simp⟩
  | cons s rest ih =>
    obtain ⟨hs, hrest⟩ := List.forall_mem_cons.1 h
    obtain ⟨tokens, last, htokens, hmap, hspells⟩ := ih (line + newlines s.text) hrest
    cases hs with
    | @lexeme kind text literal hlexeme =>
      refine ⟨⟨kind, String.ofList text, literal? kind text, line + newlines text⟩ :: tokens, last, ?_, ?_, ?_⟩
      · simp only [Segment.text] at htokens
        simp [ofSegments, Segment.text, htokens]
      · simp [Segment.token?, hmap]
      · refine List.forall_mem_cons.2 ⟨?_, hspells⟩
        rw [literal?_of_spells hlexeme]
        simpa using hlexeme
    | _ => exact ⟨tokens, last, htokens, hmap, hspells⟩

theorem errors_ofSegments (line : Nat) (segments : List Segment) :
    (ofSegments line segments).errors.map (·.cause) = segments.filterMap Segment.cause? := by
  induction segments generalizing line with
  | nil => rfl
  | cons s rest ih =>
    have hrest := ih (line + newlines s.text)
    cases s with
    | fault cause text => simpa [ofSegments, Segment.cause?] using hrest
    | _ => exact hrest

/-- No identifier of a source text is a keyword. -/
theorem ofWord_of_identifier {source : String} {t : Token} (h : t ∈ (ofSource source).tokens)
    (hkind : t.kind = .identifier) : TokenKind.ofWord t.lexeme = .identifier := by
  obtain ⟨tokens, last, htokens, -, hspells⟩ := tokens_ofSegments 1 (partition_ofText source.toList).spelled
  have hmem : t ∈ tokens ++ [.endOfInput last] := htokens ▸ h
  rcases List.mem_append.1 hmem with hmem | hmem
  · have hidentifier := hspells t hmem
    rw [hkind] at hidentifier
    simpa using Segment.ofWord_of_identifier hidentifier
  · obtain rfl := List.mem_singleton.1 hmem
    cases hkind

/-- A source text has exactly one partition, whose lexemes and faulty pieces in order are the tokens and the
errors. Faults that take the rest of the text are last. -/
theorem partitions_source (source : String) :
    ∃ segments, (∀ other, Partition source.toList other ↔ other = segments) ∧
      source.toList = segments.flatMap Segment.text ∧
      (∀ before s after, segments = before ++ s :: after → s.Precedes (after.flatMap Segment.text)) ∧
      (∃ tokens last, (ofSource source).tokens = tokens ++ [.endOfInput last] ∧
        tokens.map (fun t => (t.kind, t.lexeme)) = segments.filterMap Segment.token? ∧
        ∀ t ∈ tokens, Spells t.kind t.lexeme.toList t.literal ∧
          ∀ kind literal, Spells kind t.lexeme.toList literal → kind = t.kind ∧ literal = t.literal) ∧
      (ofSource source).errors.map (·.cause) = segments.filterMap Segment.cause? := by
  have hpartition := partition_ofText source.toList
  refine ⟨Segment.ofText source.toList, fun other => ⟨Partition.eq_ofText, fun h => h ▸ hpartition⟩,
    hpartition.text_eq, fun before s after heq => ?_, ?_, errors_ofSegments 1 _⟩
  · rw [heq] at hpartition
    exact hpartition.longest.precedes (hpartition.spelled s (by simp))
  · obtain ⟨tokens, last, htokens, hmap, hspells⟩ := tokens_ofSegments 1 hpartition.spelled
    exact ⟨tokens, last, htokens, hmap, fun t ht => ⟨hspells t ht, fun _ _ h => h.unique (hspells t ht)⟩⟩

end Scan

end TreeWalk
