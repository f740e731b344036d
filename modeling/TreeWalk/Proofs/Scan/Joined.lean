import TreeWalk.Proofs.Scan.Partition
import TreeWalk.Proofs.Syntax.Relabeling
import TreeWalk.Syntax.Grammar

/-!
# Texts with a blank between them

A string or a comment that is not closed goes on over a blank. A text that does not end in one keeps its segments
when a blank and another text are put behind it. The other text keeps its segments too, and its tokens and errors
are so many lines further down.
-/

namespace TreeWalk

namespace Segment

/-! ## Segments over a blank -/

theorem not_letter_of_blank {b : Char} (hb : Blank b) : ¬ Letter b ∧ ¬ Digit b := by
  rcases hb with rfl | rfl | rfl | rfl <;> unfold Letter Digit <;> decide

theorem not_mem_of_word {text : List Char} (h : Word text) {b : Char} (hb : Blank b) : b ∉ text := fun hmem =>
  (h.rest b hmem).elim (not_letter_of_blank hb).1 (not_letter_of_blank hb).2

theorem not_mem_of_digits {text : List Char} (h : Digits text) {b : Char} (hb : Blank b) : b ∉ text := fun hmem =>
  (not_letter_of_blank hb).2 (h.digits b hmem)

theorem ne_point_of_blank {b : Char} (hb : Blank b) : b ≠ '.' := by
  rcases hb with rfl | rfl | rfl | rfl <;> decide

theorem not_mem_of_malformed {digits : List Char} (h : Digits digits) {b : Char} (hb : Blank b) : b ∉ digits ++ ['.'] := by
  intro hmem
  rcases List.mem_append.1 hmem with hmem | hmem
  · exact not_mem_of_digits h hb hmem
  · exact ne_point_of_blank hb (List.mem_singleton.1 hmem)

/-- Of all lexemes only strings go over blanks. -/
theorem string_of_mem {kind : TokenKind} {text : List Char} {literal : Option TokenLiteral} (h : Spells kind text literal)
    {b : Char} (hb : Blank b) (hmem : b ∈ text) : ∃ inside, '"' ∉ inside ∧ text = '"' :: inside ++ ['"'] := by
  cases h with
  | operator h =>
    have hall : ∀ e ∈ operators, e.1.all (!isBlank ·) = true := by decide
    have hnot := List.all_eq_true.1 (hall _ h) b hmem
    exact absurd (isBlank_iff.2 hb) (by simpa using hnot)
  | keyword h => exact absurd hmem (not_mem_of_word (ofWord_of_keyword h).1 hb)
  | identifier h => exact absurd hmem (not_mem_of_word h hb)
  | whole h => exact absurd hmem (not_mem_of_digits h hb)
  | @decimal whole fraction h h' =>
    rcases List.mem_append.1 hmem with hmem | hmem
    · exact absurd hmem (not_mem_of_digits h hb)
    · rcases List.mem_cons.1 hmem with hpoint | hmem
      · exact absurd hpoint (ne_point_of_blank hb)
      · exact absurd hmem (not_mem_of_digits h' hb)
  | string h => exact ⟨_, h, rfl⟩

/-- A comment is closed only once. -/
theorem eq_nil_of_closesComment {body rest : List Char} (h : ClosesComment body) (h' : ClosesComment (body ++ rest)) :
    rest = [] := by
  have hsplit := splitComment_of_closes h' 0 []
  rw [List.append_nil, splitComment_of_closes h 0 rest] at hsplit
  exact Option.some.inj (Prod.mk.inj hsplit).2

/-- A quote, with no other one up to the blank, opens a string that goes on behind it. -/
theorem openString_of_prefix {start rest inside tail : List Char} {b : Char} (hb : Blank b) (hstart : start ≠ [])
    (h : '"' ∉ inside) (htail : tail = [] ∨ tail = ['"']) (heq : start ++ b :: rest = '"' :: inside ++ tail) :
    (fault .unterminatedString start).Spelled := by
  obtain ⟨c, start, rfl⟩ := List.exists_cons_of_ne_nil hstart
  simp only [List.cons_append, List.cons.injEq] at heq
  obtain ⟨rfl, heq⟩ := heq
  refine .openString start fun hmem => ?_
  rcases List.append_eq_append_iff.1 heq with ⟨more, rfl, -⟩ | ⟨more, rfl, hmore⟩
  · exact h (List.mem_append_left _ hmem)
  · -- The blank would be the closing quote.
    rcases htail with rfl | rfl
    · cases more <;> cases hmore
    · rcases more with _ | ⟨d, more⟩
      · obtain rfl : b = '"' := (List.cons.inj hmore).1.symm
        exact absurd (isBlank_iff.2 hb) (by decide)
      · simp at hmore

/-- The opening of a comment that is not closed up to the blank. -/
theorem openComment_of_prefix {start rest text : List Char} {b : Char} (hb : Blank b) (hstart : start ≠ [])
    (heq : start ++ b :: rest = '/' :: '*' :: text)
    (h : ∀ inside more, text = inside ++ b :: more → ∀ body behind, inside = body ++ behind → ¬ ClosesComment body) :
    (fault .unterminatedBlockComment start).Spelled := by
  rcases start with _ | ⟨c, _ | ⟨d, start⟩⟩
  · exact absurd rfl hstart
  · obtain rfl : b = '*' := by simpa using (List.cons.inj (List.cons.inj heq).2).1
    exact absurd (isBlank_iff.2 hb) (by decide)
  · simp only [List.cons_append, List.cons.injEq] at heq
    obtain ⟨rfl, rfl, heq⟩ := heq
    exact .openComment start fun body behind hstart => h start rest heq.symm body behind hstart

/-- A segment to which a blank belongs that stands behind it. -/
def OpenTo (b : Char) : Segment → Prop
  | lineComment _ => b ≠ '\n'
  | fault .unterminatedString _ | fault .unterminatedBlockComment _ => True
  | _ => False

/-- Cut off at a blank, a string or a comment is open to it. -/
theorem Spelled.cut {s : Segment} (h : s.Spelled) {start rest : List Char} {b : Char} (hb : Blank b) (hstart : start ≠ [])
    (htext : s.text = start ++ b :: rest) : ∃ s' : Segment, s'.Spelled ∧ s'.OpenTo b ∧ s'.text = start := by
  have hmem : b ∈ s.text := by simp [htext]
  have hlong : 2 ≤ s.text.length := by
    have hlength := List.length_pos_iff.2 hstart
    rw [htext, List.length_append, List.length_cons]
    omega
  cases h with
  | blank | unexpected => exact absurd hlong (by simp [text])
  | lineComment inside h =>
    rcases start with _ | ⟨c, _ | ⟨d, start⟩⟩
    · exact absurd rfl hstart
    · obtain rfl : '/' = b := (List.cons.inj (List.cons.inj htext).2).1
      exact absurd (isBlank_iff.2 hb) (by decide)
    · simp only [text, List.cons_append, List.cons.injEq] at htext
      obtain ⟨rfl, rfl, rfl⟩ := htext
      simp only [List.mem_append, List.mem_cons, not_or] at h
      exact ⟨_, .lineComment start h.1, Ne.symm h.2.1, rfl⟩
  | malformed h => exact absurd hmem (not_mem_of_malformed h hb)
  | blockComment h =>
    refine ⟨_, openComment_of_prefix hb hstart htext.symm fun inside more hbody body behind hinside hcloses => ?_, trivial, rfl⟩
    rw [hbody, hinside, List.append_assoc] at h
    exact absurd (eq_nil_of_closesComment hcloses h) (by simp)
  | lexeme h =>
    obtain ⟨inside, hinside, hwhole⟩ := string_of_mem h hb hmem
    exact ⟨_, openString_of_prefix hb hstart hinside (.inr rfl) (htext.symm.trans hwhole), trivial, rfl⟩
  | openString inside h =>
    exact ⟨_, openString_of_prefix hb hstart h (.inl rfl) (by simpa [text] using htext.symm), trivial, rfl⟩
  | openComment text h =>
    refine ⟨_, openComment_of_prefix hb hstart htext.symm fun inside more hbody body behind hinside => ?_, trivial, rfl⟩
    exact h body (behind ++ b :: more) (by simp [hbody, hinside])

/-- What is split off a text is its longest segment. -/
theorem longest_of_split {c : Char} {tail rest : List Char} {s : Segment} (h : split c tail = (s, rest)) :
    s.Spelled ∧ s.Longest rest ∧ s.text ++ rest = c :: tail := by
  obtain ⟨s', rest', hspelled, hlongest, htext⟩ := exists_longest c tail
  obtain ⟨rfl, rfl⟩ := Prod.mk.inj ((hspelled.split_eq hlongest htext).symm.trans h)
  exact ⟨hspelled, hlongest, htext⟩

theorem longest_nil (s : Segment) : s.Longest [] := fun _ _ _ _ hnil _ => (List.append_eq_nil_iff.1 hnil.symm).1

theorem Spelled.partition {s : Segment} (h : s.Spelled) : Partition s.text [s] := by
  have hcons := Partition.cons h s.longest_nil .nil
  rwa [List.append_nil] at hcons

/-- In front of a blank, a segment is as long as it can be if it is so at the end of the text and nothing there is
open to the blank. -/
theorem Longest.beforeBlank {s : Segment} {rest : List Char} {segments : List Segment} (hspelled : s.Spelled)
    (hlongest : s.Longest rest) (hs : Partition rest segments) {b : Char} (hb : Blank b)
    (hclosed : ∀ s' ∈ s :: segments, ¬ s'.OpenTo b) (behind : List Char) : s.Longest (rest ++ b :: behind) := by
  intro other hother more after hmore htext
  rcases List.append_eq_append_iff.1 hmore with ⟨beyond, rfl, hbeyond⟩ | ⟨left, rfl, -⟩
  · rcases beyond with _ | ⟨c, beyond⟩
    · rw [List.append_nil] at htext ⊢
      exact hlongest other hother rest [] (by simp) htext
    · -- The other segment takes all of this text with the blank, so the text would be a single open segment.
      obtain ⟨rfl, -⟩ : b = c ∧ behind = beyond ++ after := by simpa using hbeyond
      have hnonempty : s.text ++ rest ≠ [] := List.append_ne_nil_of_left_ne_nil hspelled.text_ne_nil rest
      obtain ⟨s', hspelled', hopen, htext'⟩ := hother.cut hb hnonempty (htext.trans (List.append_assoc ..).symm)
      have hsame := (Partition.cons hspelled hlongest hs).eq_ofText.trans (htext' ▸ hspelled'.partition).eq_ofText.symm
      exact absurd hopen (hclosed s' (hsame ▸ List.mem_cons_self))
  · exact hlongest other hother more left rfl htext

end Segment

theorem Partition.blank {b : Char} (hb : Blank b) {text : List Char} {segments : List Segment} (h : Partition text segments) :
    Partition (b :: text) (.blank b :: segments) := by
  have hsplit : Segment.split b text = (.blank b, text) := by simp [Segment.split, Segment.isBlank_iff.2 hb]
  obtain ⟨hspelled, hlongest, -⟩ := Segment.longest_of_split hsplit
  exact .cons hspelled hlongest h

/-- Texts with a blank between them keep their segments, if none in the first one is open to the blank. -/
theorem Partition.joined {text behind : List Char} {segments others : List Segment} (h : Partition text segments) {b : Char}
    (hb : Blank b) (hclosed : ∀ s ∈ segments, ¬ s.OpenTo b) (hbehind : Partition behind others) :
    Partition (text ++ b :: behind) (segments ++ .blank b :: others) := by
  induction h with
  | nil => exact hbehind.blank hb
  | @cons s rest segments hspelled hlongest hs ih =>
    have hrest := ih fun s' hs' => hclosed s' (List.mem_cons_of_mem s hs')
    rw [List.append_assoc]
    exact .cons hspelled (hlongest.beforeBlank hspelled hs hb hclosed behind) hrest

/-! ## Tokens -/

theorem Spells.kind_ne_endOfInput {kind : TokenKind} {text : List Char} {literal : Option TokenLiteral}
    (h : Spells kind text literal) : kind ≠ .endOfInput := by
  cases h with
  | operator h =>
    have hall : ∀ e ∈ operators, e.2 ≠ .endOfInput := by decide
    exact hall _ h
  | keyword h =>
    have hall : ∀ e ∈ TokenKind.keywords, e.2 ≠ .endOfInput := by decide
    exact hall _ h
  | _ => nofun

def LexicalError.relabel (r : Relabeling) (e : LexicalError) : LexicalError := { e with line := r.line e.line }

namespace Scan

theorem ofSegments_append (line : Nat) (segments others : List Segment) :
    (ofSegments line (segments ++ others)).tokens = (ofSegments line segments).tokens.dropLast ++
        (ofSegments (line + newlines (segments.flatMap Segment.text)) others).tokens ∧
      (ofSegments line (segments ++ others)).errors = (ofSegments line segments).errors ++
        (ofSegments (line + newlines (segments.flatMap Segment.text)) others).errors := by
  induction segments generalizing line with
  | nil => exact ⟨rfl, rfl⟩
  | cons s rest ih =>
    have hlines : line + newlines ((s :: rest).flatMap Segment.text) =
        line + newlines s.text + newlines (rest.flatMap Segment.text) := by
      simp [newlines, Nat.add_assoc]
    obtain ⟨htokens, herrors⟩ := ih (line + newlines s.text)
    have hnonempty := ofSegments_tokens_ne_nil (line + newlines s.text) rest
    rw [hlines, List.cons_append]
    cases s with
    | lexeme kind text =>
      refine ⟨?_, herrors⟩
      simp only [ofSegments]
      rw [List.dropLast_cons_of_ne_nil hnonempty, htokens, List.cons_append]
    | fault cause text => exact ⟨htokens, congrArg (_ :: ·) herrors⟩
    | _ => exact ⟨htokens, herrors⟩

theorem ofSegments_down (line lines : Nat) (segments : List Segment) :
    (ofSegments (line + lines) segments).tokens = (ofSegments line segments).tokens.map (Token.relabel (.down lines)) ∧
      (ofSegments (line + lines) segments).errors =
        (ofSegments line segments).errors.map (LexicalError.relabel (.down lines)) := by
  induction segments generalizing line with
  | nil => exact ⟨rfl, rfl⟩
  | cons s rest ih =>
    obtain ⟨htokens, herrors⟩ := ih (line + newlines s.text)
    have hlines : line + lines + newlines s.text = line + newlines s.text + lines := Nat.add_right_comm ..
    rw [← hlines] at htokens herrors
    cases s with
    | lexeme kind text =>
      refine ⟨?_, herrors⟩
      simp only [ofSegments, List.map_cons, htokens]
      rw [hlines]
      rfl
    | fault cause text =>
      refine ⟨htokens, ?_⟩
      simp only [ofSegments, List.map_cons, herrors]
      rw [hlines]
      rfl
    | _ => exact ⟨htokens, herrors⟩

/-- Segments that are no tokens and no errors leave nothing but their lines. -/
theorem ofSegments_silent (line : Nat) {segments : List Segment} (h : ∀ s ∈ segments, s.token? = none ∧ s.cause? = none)
    (others : List Segment) :
    ofSegments line (segments ++ others) = ofSegments (line + newlines (segments.flatMap Segment.text)) others := by
  induction segments generalizing line with
  | nil => rfl
  | cons s rest ih =>
    obtain ⟨⟨htoken, hcause⟩, hrest⟩ := List.forall_mem_cons.1 h
    have hlines : line + newlines ((s :: rest).flatMap Segment.text) =
        line + newlines s.text + newlines (rest.flatMap Segment.text) := by
      simp [newlines, Nat.add_assoc]
    rw [hlines, ← ih _ hrest]
    cases s with
    | lexeme => cases htoken
    | fault => cases hcause
    | _ => rfl

/-- With nothing but silent segments between them, texts have the tokens and the errors of both. -/
theorem ofSource_of_segments {source behind joined : String} {between : List Segment}
    (hsegments : Segment.ofText joined.toList = Segment.ofText source.toList ++ (between ++ Segment.ofText behind.toList))
    (hsilent : ∀ s ∈ between, s.token? = none ∧ s.cause? = none) {lines : Nat}
    (hlines : lines = newlines (source.toList ++ between.flatMap Segment.text)) :
    (ofSource joined).tokens =
        (ofSource source).tokens.dropLast ++ (ofSource behind).tokens.map (Token.relabel (.down lines)) ∧
      (ofSource joined).errors =
        (ofSource source).errors ++ (ofSource behind).errors.map (LexicalError.relabel (.down lines)) := by
  have happend := ofSegments_append 1 (Segment.ofText source.toList) (between ++ Segment.ofText behind.toList)
  have hdown := ofSegments_down 1 lines (Segment.ofText behind.toList)
  have hline : 1 + newlines source.toList + newlines (between.flatMap Segment.text) = 1 + lines := by
    simp [hlines, newlines, Nat.add_assoc]
  rw [← hsegments, ofSegments_silent _ hsilent, ← (partition_ofText source.toList).text_eq, hline, hdown.1, hdown.2] at happend
  exact happend

/-- All tokens of a text but the last one are read. -/
theorem delimited_ofSource (source : String) :
    (Parse.delimited (ofSource source).tokens).1 = (ofSource source).tokens.dropLast := by
  obtain ⟨tokens, last, htokens, -, hspells⟩ := tokens_ofSegments 1 (partition_ofText source.toList).spelled
  have hread : ∀ t ∈ tokens, (!(t.kind == .endOfInput)) = true := fun t ht => by
    simpa using (hspells t ht).kind_ne_endOfInput
  change (ofSource source).tokens = _ at htokens
  rw [htokens, List.dropLast_concat]
  exact (Segment.span_eq hread [.endOfInput last] (by simp [Token.endOfInput])).1

/-- Source texts on consecutive lines have the tokens of the first, if that has no errors, and behind them those
of the second. -/
theorem ofSource_joined {source : String} (h : (ofSource source).errors = []) (behind : String) : ∃ lines,
    (Parse.delimited (ofSource (source ++ "\n" ++ behind)).tokens).1 =
      (Parse.delimited (ofSource source).tokens).1 ++
        (Parse.delimited (ofSource behind).tokens).1.map (Token.relabel (.down lines)) ∧
      ((ofSource behind).errors = [] → (ofSource (source ++ "\n" ++ behind)).errors = []) := by
  have hclosed : ∀ s ∈ Segment.ofText source.toList, ¬ s.OpenTo '\n' := by
    have hcauses := errors_ofSegments 1 (Segment.ofText source.toList)
    change (ofSource source).errors.map (·.cause) = _ at hcauses
    rw [h] at hcauses
    intro s hs hopen
    have hnone := List.filterMap_eq_nil_iff.1 hcauses.symm s hs
    cases s with
    | fault => cases hnone
    | lineComment => exact hopen rfl
    | _ => exact hopen
  have hjoined := ((partition_ofText source.toList).joined (b := '\n') (.inr (.inr (.inr rfl))) hclosed
    (partition_ofText behind.toList)).eq_ofText.symm
  have hsegments : Segment.ofText (source ++ "\n" ++ behind).toList =
      Segment.ofText source.toList ++ ([.blank '\n'] ++ Segment.ofText behind.toList) := by simpa using hjoined
  obtain ⟨htokens, herrors⟩ := ofSource_of_segments hsegments (by simp [Segment.token?, Segment.cause?]) rfl
  refine ⟨newlines (source.toList ++ ['\n']), ?_, fun hbehind => by rw [herrors, h, hbehind]; rfl⟩
  have hnonempty : (ofSource behind).tokens ≠ [] := ofSegments_tokens_ne_nil 1 _
  rw [delimited_ofSource, delimited_ofSource, delimited_ofSource, htokens,
    List.dropLast_append_of_ne_nil (by simpa using hnonempty), List.map_dropLast]
  rfl

/-- The tokens of every text are closed. -/
theorem ofSource_ends (source : String) : ∃ t ∈ (ofSource source).tokens, t.kind = .endOfInput := by
  have hends (line : Nat) (segments : List Segment) : ∃ t ∈ (ofSegments line segments).tokens, t.kind = .endOfInput := by
    induction segments generalizing line with
    | nil => exact ⟨.endOfInput line, by simp [ofSegments], rfl⟩
    | cons s rest ih =>
      obtain ⟨t, ht, hkind⟩ := ih (line + newlines s.text)
      refine ⟨t, ?_, hkind⟩
      cases s with
      | lexeme => exact List.mem_cons_of_mem _ ht
      | _ => exact ht
  exact hends 1 _

end Scan

end TreeWalk
