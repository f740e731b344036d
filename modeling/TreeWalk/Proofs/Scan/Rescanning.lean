import TreeWalk.Proofs.Scan.Joined

/-!
# Lexemes on their own

A lexeme is spelled out in full: wherever it has been read, between blanks it is the same token again.
-/

namespace TreeWalk

/-- What a token is, apart from its place in the source text. -/
def Token.content (t : Token) : TokenKind × String × Option TokenLiteral := (t.kind, t.lexeme, t.literal)

/-- The lexemes of tokens, each with a blank behind it. -/
def spaced (tokens : List Token) : List Char := tokens.flatMap fun t => t.lexeme.toList ++ [' ']

theorem toList_intercalate_spaced (tokens : List Token) (line : Nat) :
    (" ".intercalate ((tokens ++ [Token.endOfInput line]).map (·.lexeme))).toList = spaced tokens := by
  rw [String.toList_intercalate]
  induction tokens with
  | nil => rfl
  | cons t rest ih =>
    have hrest : ((rest ++ [Token.endOfInput line]).map (·.lexeme)).map String.toList ≠ [] := by simp
    rw [List.cons_append, List.map_cons, List.map_cons, List.intercalate_cons_of_ne_nil hrest, ih]
    simp [spaced]

/-- The segments of lexemes with blanks behind them. -/
def spacedSegments (tokens : List Token) : List Segment :=
  tokens.flatMap fun t => [.lexeme t.kind t.lexeme.toList, .blank ' ']

theorem partition_spaced {tokens : List Token} (h : ∀ t ∈ tokens, Spells t.kind t.lexeme.toList t.literal) :
    Partition (spaced tokens) (spacedSegments tokens) := by
  induction tokens with
  | nil => exact .nil
  | cons t rest ih =>
    obtain ⟨ht, hrest⟩ := List.forall_mem_cons.1 h
    have hjoined := (Segment.Spelled.lexeme ht).partition.joined (.inl rfl) (by simp [Segment.OpenTo]) (ih hrest)
    simpa [spaced, spacedSegments, Segment.text] using hjoined

namespace Scan

theorem ofSegments_spaced (line : Nat) {tokens : List Token} (h : ∀ t ∈ tokens, Spells t.kind t.lexeme.toList t.literal) :
    ∃ read last, (ofSegments line (spacedSegments tokens)).tokens = read ++ [.endOfInput last] ∧
      read.map Token.content = tokens.map Token.content ∧ (ofSegments line (spacedSegments tokens)).errors = [] := by
  induction tokens generalizing line with
  | nil => exact ⟨[], line, rfl, rfl, rfl⟩
  | cons t rest ih =>
    obtain ⟨ht, hrest⟩ := List.forall_mem_cons.1 h
    obtain ⟨read, last, hread, hcontent, herrors⟩ :=
      ih (line + newlines t.lexeme.toList + newlines (Segment.blank ' ').text) hrest
    have hliteral := literal?_of_spells ht
    refine ⟨⟨t.kind, String.ofList t.lexeme.toList, literal? t.kind t.lexeme.toList, line + newlines t.lexeme.toList⟩ :: read,
      last, congrArg (_ :: ·) hread, ?_, herrors⟩
    rw [List.map_cons, List.map_cons, hcontent]
    simp [Token.content, hliteral]

/-- The lexemes of a text, with single spaces between them, are scanned as the same tokens and without an error,
also if the text has errors. -/
theorem lexemes_rescan (source : String) :
    (ofSource (" ".intercalate ((ofSource source).tokens.map (·.lexeme)))).errors = [] ∧
      (ofSource (" ".intercalate ((ofSource source).tokens.map (·.lexeme)))).tokens.map Token.content =
        (ofSource source).tokens.map Token.content := by
  obtain ⟨tokens, last, htokens, -, hspells⟩ := tokens_ofSegments 1 (partition_ofText source.toList).spelled
  have hspells : ∀ t ∈ tokens, Spells t.kind t.lexeme.toList t.literal := hspells
  obtain ⟨read, last', hread, hcontent, herrors⟩ := ofSegments_spaced 1 hspells
  have hsegments : ofSource (" ".intercalate ((ofSource source).tokens.map (·.lexeme))) =
      ofSegments 1 (spacedSegments tokens) := by
    rw [ofSource, show (ofSource source).tokens = _ from htokens, toList_intercalate_spaced,
      (partition_spaced hspells).eq_ofText]
  rw [hsegments, show (ofSource source).tokens = _ from htokens]
  refine ⟨herrors, ?_⟩
  rw [hread, List.map_append, List.map_append, hcontent]
  rfl

end Scan

end TreeWalk
