import Mathlib
import TreeWalk.Proofs.Parser.Progress
import TreeWalk.Proofs.Parser.Relabeling

/-!
# The order of syntax errors

Errors are recorded while tokens are read from the front, so they come in the order of their tokens, with one
exception. The target of an assignment is checked only when the value has been read, so an invalid target is recorded
behind all errors of its value. Where an error stands is told by numbers on the tokens: for a while each token is on
a line of its own.
-/

namespace TreeWalk

open TreeWalk.Parser TreeWalk.Grammar

/-- Errors in the order of the lines of their tokens, except that an invalid target comes behind the errors of the
value that is assigned to it. -/
inductive SourceOrder : List SyntaxError → Prop where
  | nil : SourceOrder []
  | add {before value : List SyntaxError} {e : SyntaxError} (h : SourceOrder (before ++ value))
    (hbefore : ∀ d ∈ before, d.line ≤ e.line) (hvalue : ∀ d ∈ value, e.line < d.line)
    (hcause : value ≠ [] → e.cause = .invalidAssignmentTarget) : SourceOrder (before ++ value ++ [e])

namespace SourceOrder

variable {es es' : List SyntaxError}

theorem single (e : SyntaxError) : SourceOrder [e] :=
  @add [] [] e .nil (by simp) (by simp) fun h => absurd rfl h

theorem append (h : SourceOrder es) (h' : SourceOrder es') (hes : ∀ e ∈ es, ∀ e' ∈ es', e.line ≤ e'.line) :
    SourceOrder (es ++ es') := by
  induction h' with
  | nil => rwa [List.append_nil]
  | @add before value e _ hbefore hvalue hcause ih =>
    have hinner := ih fun d hd d' hd' => hes d hd d' (List.mem_append_left [e] hd')
    rw [← List.append_assoc] at hinner
    rw [← List.append_assoc, ← List.append_assoc]
    refine hinner.add (fun d hd => ?_) hvalue hcause
    rcases List.mem_append.1 hd with hd | hd
    · exact hes d hd e (by simp)
    · exact hbefore d hd

/-- An error is listed in front of one at an earlier token only if that one is an invalid target, and then all errors
from there up to it stand behind its `=`. -/
theorem pairs (h : SourceOrder es) {i j : Nat} (hij : i < j) {d e : SyntaxError} (hd : es[i]? = some d)
    (he : es[j]? = some e) : d.line ≤ e.line ∨ e.cause = .invalidAssignmentTarget ∧
      ∀ k f, i ≤ k → k < j → es[k]? = some f → e.line < f.line := by
  induction h with
  | nil => simp at hd
  | @add before value last _ hbefore hvalue hcause ih =>
    -- Only where the later one is the last that was added is there anything to show.
    by_cases hlast : j < (before ++ value).length
    · rw [List.getElem?_append_left hlast] at he
      rw [List.getElem?_append_left (Nat.lt_trans hij hlast)] at hd
      refine (ih hd he).imp_right fun ⟨hcause, hbehind⟩ => ⟨hcause, fun k f hik hkj hf => ?_⟩
      rw [List.getElem?_append_left (Nat.lt_trans hkj hlast)] at hf
      exact hbehind k f hik hkj hf
    · obtain ⟨hj, -⟩ := List.getElem?_eq_some_iff.1 he
      rw [List.length_append, List.length_singleton] at hj
      obtain rfl : j = (before ++ value).length := by omega
      obtain rfl : last = e := by simpa using he
      rw [List.getElem?_append_left hij] at hd
      by_cases hi : i < before.length
      · left
        rw [List.getElem?_append_left hi] at hd
        exact hbefore d (List.mem_of_getElem? hd)
      · right
        have hvalues (k : Nat) (f : SyntaxError) (hik : i ≤ k) (hk : (before ++ value)[k]? = some f) : f ∈ value := by
          rw [List.getElem?_append_right (by omega)] at hk
          exact List.mem_of_getElem? hk
        refine ⟨hcause (List.ne_nil_of_mem (hvalues i d (Nat.le_refl i) hd)), fun k f hik hkj hf => ?_⟩
        rw [List.getElem?_append_left hkj] at hf
        exact hvalue f (hvalues k f hik hf)

end SourceOrder

/-! ## Where reading is -/

namespace ParserState

/-- The tokens still to be read, with the one that closes the input. -/
def ahead (s : ParserState) : List Token := s.tokens ++ [.endOfInput s.endLine]

/-- Every token ahead is on a later line than those in front of it. -/
def Numbered (s : ParserState) : Prop := s.ahead.Pairwise (·.line < ·.line)

/-- Reading has gone on to the second state and has recorded errors at tokens that it has come to. -/
structure Records (es : List SyntaxError) (s s' : ParserState) : Prop where
  errors : s'.errors = s.errors ++ es
  ahead : s'.ahead <:+ s.ahead
  order : SourceOrder es
  among : ∀ e ∈ es, e.token ∈ s.ahead
  passed : ∀ e ∈ es, ∀ t ∈ s'.ahead, e.line ≤ t.line

namespace Records

variable {es es' : List SyntaxError} {s s' s'' : ParserState}

theorem none (herrors : s'.errors = s.errors) (hahead : s'.ahead <:+ s.ahead) : Records [] s s' :=
  ⟨by rw [herrors, List.append_nil], hahead, .nil, by simp, by simp⟩

theorem trans (h : Records es s s') (h' : Records es' s' s'') : Records (es ++ es') s s'' where
  errors := by rw [h'.errors, h.errors, List.append_assoc]
  ahead := h'.ahead.trans h.ahead
  order := h.order.append h'.order fun e he e' he' => h.passed e he _ (h'.among e' he')
  among e he := by
    rcases List.mem_append.1 he with he | he
    · exact h.among e he
    · exact h.ahead.subset (h'.among e he)
  passed e he t ht := by
    rcases List.mem_append.1 he with he | he
    · exact h.passed e he t (h'.ahead.subset ht)
    · exact h'.passed e he t ht

end Records

theorem Numbered.later {s s' : ParserState} (h : s.Numbered) (hahead : s'.ahead <:+ s.ahead) : s'.Numbered :=
  h.sublist hahead.sublist

end ParserState

open ParserState

/-- Where a parser stops reading, also when it gives up. -/
def landing {α : Type} : EStateM.Result GivenUp ParserState α → ParserState
  | .ok _ s => s
  | .error _ s => s

/-- From the state on a parser records errors in order. -/
def OrderedAt {α : Type} (p : Parser α) (s : ParserState) : Prop := ∃ es, s.Records es (landing (p s))

/-- A parser records errors in order, if the tokens are numbered. -/
def Ordered {α : Type} (p : Parser α) : Prop := ∀ s : ParserState, s.Numbered → OrderedAt p s

section Combinators

variable {α β : Type} {p : Parser α} {f : α → Parser β} {s s' : ParserState} {es : List SyntaxError}

theorem OrderedAt.behind (h : s.Records es s') {q : Parser α} (hq : OrderedAt q s') (heq : p s = q s') : OrderedAt p s := by
  obtain ⟨es', hes'⟩ := hq
  exact ⟨es ++ es', by rw [heq]; exact h.trans hes'⟩

protected theorem OrderedAt.pure (a : α) : OrderedAt (Pure.pure a) s := ⟨[], .none rfl (List.suffix_refl _)⟩

theorem OrderedAt.bind (hp : OrderedAt p s) (hf : ∀ a s', p s = .ok a s' → OrderedAt (f a) s') :
    OrderedAt (p >>= f) s := by
  obtain ⟨es, hes⟩ := hp
  cases h : p s with
  | ok a s' =>
    rw [h] at hes
    exact .behind hes (hf a s' h) (bind_ok h)
  | error e s' =>
    rw [h] at hes
    refine ⟨es, ?_⟩
    rw [bind_error h]
    exact hes

namespace Ordered

/-- A parser that only goes on is in order. -/
theorem of_silent (h : ∀ s, (landing (p s)).errors = s.errors ∧ (landing (p s)).ahead <:+ s.ahead) : Ordered p :=
  fun s _ => ⟨[], .none (h s).1 (h s).2⟩

protected theorem pure (a : α) : Ordered (Pure.pure a) := fun _ _ => .pure a

protected theorem throw (e : GivenUp) : Ordered (MonadExcept.throw e : Parser α) :=
  of_silent fun _ => ⟨rfl, List.suffix_refl _⟩

theorem numbered (hp : Ordered p) (hs : s.Numbered) {a : α} (h : p s = .ok a s') : s'.Numbered := by
  obtain ⟨es, hes⟩ := hp s hs
  rw [h] at hes
  exact hs.later hes.ahead

theorem bind (hp : Ordered p) (hf : ∀ a, Ordered (f a)) : Ordered (p >>= f) :=
  fun s hs => (hp s hs).bind fun a s' h => hf a s' (hp.numbered hs h)

theorem map {f : α → β} (hp : Ordered p) : Ordered (f <$> p) := hp.bind fun a => .pure (f a)

theorem ite {c : Bool} {p' : Parser α} (hp : Ordered p) (hp' : Ordered p') : Ordered (if c then p else p') := by
  cases c with
  | true => exact hp
  | false => exact hp'

end Ordered

end Combinators

section Parsers

variable {α β : Type} {s : ParserState}

/-! ## Single tokens -/

theorem ahead_suffix {tokens : List Token} (h : tokens <:+ s.tokens) :
    ({ s with tokens := tokens } : ParserState).ahead <:+ s.ahead := by
  obtain ⟨taken, htaken⟩ := h
  exact ⟨taken, by rw [ParserState.ahead, ← List.append_assoc, htaken]; rfl⟩

/-- What is done with the next token is done from the same state. -/
theorem OrderedAt.current {f : Token → Parser α} (h : OrderedAt (f (s.tokens.head?.getD (.endOfInput s.endLine))) s) :
    OrderedAt (Parser.current >>= f) s := h

theorem remaining_ordered : Ordered remaining := .of_silent fun _ => ⟨rfl, List.suffix_refl _⟩

theorem atEnd_ordered : Ordered atEnd := .of_silent fun _ => ⟨rfl, List.suffix_refl _⟩

theorem sees_ordered (kind : TokenKind) : Ordered (sees kind) := .of_silent fun _ => ⟨rfl, List.suffix_refl _⟩

theorem fresh_ordered : Ordered fresh := .of_silent fun _ => ⟨rfl, List.suffix_refl _⟩

theorem reference_ordered (name : Name) : Ordered (reference name) := fresh_ordered.bind fun _ => .pure _

theorem advance_ordered : Ordered advance := .of_silent fun s => ⟨rfl, ahead_suffix (List.tail_suffix s.tokens)⟩

theorem acceptWhere_ordered (choose : Token → Option α) : Ordered (acceptWhere choose) := by
  refine .of_silent fun s => ?_
  unfold acceptWhere
  split
  · exact ⟨rfl, List.suffix_refl _⟩
  case _ t rest htokens =>
    split
    · exact ⟨rfl, List.suffix_refl _⟩
    · exact ⟨rfl, ahead_suffix (htokens ▸ List.suffix_cons t rest)⟩

theorem accept_ordered (kind : TokenKind) : Ordered (accept kind) := acceptWhere_ordered _

theorem seesFunctionDeclaration_ordered : Ordered seesFunctionDeclaration := by
  refine .of_silent fun s => ?_
  unfold seesFunctionDeclaration
  split <;> exact ⟨rfl, List.suffix_refl _⟩

/-! ## Errors -/

/-- An error is recorded at a token that had come before all that are still to be read. -/
theorem records_error {s' : ParserState} {token : Token} {cause : SyntaxCause}
    (herrors : s'.errors = s.errors ++ [⟨token, cause⟩]) (hahead : s'.ahead <:+ s.ahead) (hamong : token ∈ s.ahead)
    (hpassed : ∀ t ∈ s'.ahead, token.line ≤ t.line) : s.Records [⟨token, cause⟩] s' where
  errors := herrors
  ahead := hahead
  order := .single _
  among e he := by
    rw [List.mem_singleton.1 he]
    exact hamong
  passed e he := by
    rw [List.mem_singleton.1 he]
    exact hpassed

theorem Numbered.lt {t u : Token} {rest : List Token} (hs : s.Numbered) (h : s.tokens = t :: rest)
    (hu : u ∈ ({ s with tokens := rest } : ParserState).ahead) : t.line < u.line := by
  rw [ParserState.Numbered, ParserState.ahead, h] at hs
  exact List.rel_of_pairwise_cons hs hu

/-- At the token that comes next an error is in order. -/
theorem records_current (hs : s.Numbered) (cause : SyntaxCause) :
    s.Records [⟨s.tokens.head?.getD (.endOfInput s.endLine), cause⟩]
      { s with errors := s.errors ++ [⟨s.tokens.head?.getD (.endOfInput s.endLine), cause⟩] } := by
  refine records_error rfl (List.suffix_refl _) ?_ fun u hu => ?_
  · rcases h : s.tokens with _ | ⟨t, rest⟩ <;> simp [ParserState.ahead, h]
  · rcases h : s.tokens with _ | ⟨t, rest⟩
    · obtain rfl : u = .endOfInput s.endLine := by simpa [ParserState.ahead, h] using hu
      exact Nat.le_refl _
    · have hmem : u = t ∨ u ∈ ({ s with tokens := rest } : ParserState).ahead := by
        simpa [ParserState.ahead, h, or_assoc] using hu
      rcases hmem with rfl | hmem
      · exact Nat.le_refl _
      · exact Nat.le_of_lt (Numbered.lt hs h hmem)

/-- Behind a token that has just been read, an error at it is in order. -/
theorem records_taken (hs : s.Numbered) {t : Token} {rest : List Token} (h : s.tokens = t :: rest) (cause : SyntaxCause) :
    s.Records [⟨t, cause⟩] { s with tokens := rest, errors := s.errors ++ [⟨t, cause⟩] } :=
  records_error rfl (ahead_suffix (h ▸ List.suffix_cons t rest)) (by simp [ParserState.ahead, h])
    fun _ hu => Nat.le_of_lt (Numbered.lt hs h hu)

theorem report_current_ordered (cause : SyntaxCause) {p : Parser α} (hp : Ordered p) :
    Ordered (current >>= fun t => report t cause >>= fun _ => p) :=
  fun _ hs => .behind (records_current hs cause) (hp _ hs) rfl

theorem fail_current_ordered (cause : SyntaxCause) : Ordered (current >>= fun t => (fail t cause : Parser α)) :=
  report_current_ordered cause (.throw _)

/-- A parser that reads a token, records an error at it and goes on. -/
theorem report_taken_ordered (hs : s.Numbered) {t : Token} {rest : List Token} (h : s.tokens = t :: rest)
    (cause : SyntaxCause) {p : Parser α} (hp : Ordered p) :
    OrderedAt (advance >>= fun _ => report t cause >>= fun _ => p) s := by
  have htaken := records_taken hs h cause
  refine .behind htaken (hp _ (hs.later htaken.ahead)) ?_
  have hadvance : advance s = .ok () { s with tokens := rest } := by rw [advance, h, List.tail_cons]
  rw [bind_ok hadvance]
  rfl

theorem expect_ordered (kind : TokenKind) (what : String) : Ordered (expect kind what) := by
  apply (accept_ordered kind).bind
  intro found
  cases found with
  | some t => exact .pure t
  | none => exact fail_current_ordered _

theorem expectName_ordered (what : String) : Ordered (expectName what) :=
  (expect_ordered .identifier what).bind fun _ => .pure _

theorem orSkip_ordered {p : Parser α} (h : Ordered p) : Ordered (orSkip p) := by
  intro s hs
  obtain ⟨es, hes⟩ := h s hs
  refine ⟨es, ?_⟩
  unfold orSkip
  cases hp : p s with
  | ok a s' =>
    rw [hp] at hes
    exact hes
  | error e s' =>
    rw [hp] at hes
    cases e with
    | tooDeep => exact hes
    | reported =>
      -- What is skipped is ahead of all errors.
      have hskip : s'.Records [] (synchronize s') := by
        unfold synchronize
        split
        · exact .none rfl (List.suffix_refl _)
        case _ t rest htokens =>
          exact .none rfl (ahead_suffix (htokens ▸ (resume_suffix t rest).trans (List.suffix_cons t rest)))
      exact List.append_nil es ▸ hes.trans hskip

theorem atLoopDepth_ordered (depth : Nat → Nat) {p : Parser α} (h : Ordered p) : Ordered (atLoopDepth depth p) := by
  intro s hs
  obtain ⟨es, hes⟩ := h { s with loopDepth := depth s.loopDepth } hs
  refine ⟨es, ?_⟩
  unfold atLoopDepth
  cases hp : p { s with loopDepth := depth s.loopDepth } <;> rw [hp] at hes <;>
    exact ⟨hes.errors, hes.ahead, hes.order, hes.among, hes.passed⟩

/-! ## Repetition -/

theorem commaItems_ordered {item : Parser α} (h : Ordered item) (tooMany : Option SyntaxCause) (bound count : Nat) :
    Ordered (commaItems item tooMany bound count) := by
  induction bound generalizing count with
  | zero => exact .throw _
  | succ bound ih =>
    have hround : Ordered (commaRound item (commaItems item tooMany bound (count + 1))) := by
      apply h.bind
      intro first
      apply (accept_ordered .comma).bind
      intro found
      cases found with
      | none => exact .pure _
      | some _ => exact (ih (count + 1)).bind fun _ => .pure _
    unfold commaItems
    cases tooMany with
    | none => exact hround
    | some cause => exact Ordered.ite (report_current_ordered cause hround) hround

theorem commaList_ordered {item : Parser α} (h : Ordered item) (tooMany : Option SyntaxCause) (closing : TokenKind) :
    Ordered (commaList item tooMany closing) := by
  apply (sees_ordered closing).bind
  intro terminated
  exact Ordered.ite (.pure _) (remaining_ordered.bind fun n => commaItems_ordered h tooMany (n + 1) 0)

theorem leftGrouped_ordered {κ : Type} (operator : TokenKind → Option κ) (build : Expr → Operator κ → Expr → Expr)
    {operand : Parser Expr} (h : Ordered operand) (bound : Nat) (left : Expr) :
    Ordered (leftGrouped operator build operand bound left) := by
  induction bound generalizing left with
  | zero => exact .pure left
  | succ bound ih =>
    apply (acceptWhere_ordered _).bind
    intro found
    cases found with
    | none => exact .pure left
    | some op => exact h.bind fun right => ih (build left op right)

theorem leftAssociative_ordered {κ : Type} (operator : TokenKind → Option κ)
    (build : Expr → Operator κ → Expr → Expr) {operand : Parser Expr} (h : Ordered operand) :
    Ordered (leftAssociative operator build operand) :=
  h.bind fun first => remaining_ordered.bind fun n => leftGrouped_ordered operator build h n first

theorem declarations_ordered {declaration : Parser (Option Stmt)} (h : Ordered declaration) (bound : Nat) :
    Ordered (declarations declaration bound) := by
  induction bound with
  | zero => exact .pure []
  | succ bound ih =>
    apply (sees_ordered .rightBrace).bind
    intro terminated
    apply atEnd_ordered.bind
    intro ended
    exact Ordered.ite (.pure []) (h.bind fun first => ih.bind fun rest => .pure (first.toList ++ rest))

end Parsers

/-! ## The grammar -/

structure Rules.Ordered (r : Rules) : Prop where
  expression : TreeWalk.Ordered r.expression
  conditional : TreeWalk.Ordered r.conditional
  unary : TreeWalk.Ordered r.unary
  statement : TreeWalk.Ordered r.statement
  declaration : TreeWalk.Ordered r.declaration

section Grammar

variable {r : Rules} (hr : r.Ordered)
include hr

theorem block_ordered : Ordered (block r) :=
  remaining_ordered.bind fun n => (declarations_ordered hr.declaration n).bind fun body =>
    (expect_ordered .rightBrace _).bind fun _ => .pure body

theorem function_ordered : Ordered (function r) := by
  apply (expect_ordered .leftParen _).bind
  intro _
  apply (commaList_ordered (expectName_ordered _) _ .rightParen).bind
  intro params
  apply (expect_ordered .rightParen _).bind
  intro _
  apply (expect_ordered .leftBrace _).bind
  intro _
  exact (atLoopDepth_ordered _ (block_ordered hr)).bind fun body => .pure _

/-! ### Expressions -/

omit hr in
/-- A token that does not close the input is the next one of the list. -/
theorem tokens_of_current {s : ParserState} (h : (s.tokens.head?.getD (.endOfInput s.endLine)).kind ≠ .endOfInput) :
    ∃ rest, s.tokens = s.tokens.head?.getD (.endOfInput s.endLine) :: rest := by
  rcases htokens : s.tokens with _ | ⟨t, rest⟩
  · rw [htokens] at h
    exact absurd rfl h
  · exact ⟨rest, rfl⟩

theorem primary_ordered : Ordered (primary r) := by
  intro s hs
  have htaken := tokens_of_current (s := s)
  have hfail := records_current hs .expectedExpression
  apply OrderedAt.current
  generalize s.tokens.head?.getD (.endOfInput s.endLine) = t at htaken hfail
  have hother (kind : TokenKind) (hkind : t.kind = kind) : OrderedAt
      (if lacksLeftOperand kind then
        advance >>= fun _ => report t .missingLeftOperand >>= fun _ => r.expression >>= fun _ =>
          (throw .reported : Parser Expr)
      else fail t .expectedExpression) s := by
    split
    case isTrue hlacks =>
      have hopen : t.kind ≠ .endOfInput := by
        intro hend
        rw [← hkind, hend] at hlacks
        cases hlacks
      obtain ⟨rest, htokens⟩ := htaken hopen
      exact report_taken_ordered hs htokens _ (hr.expression.bind fun _ => .throw _)
    case isFalse => exact .behind hfail (Ordered.throw _ _ (hs.later hfail.ahead)) rfl
  cases hkind : t.kind with
  | falseKeyword | trueKeyword | nilKeyword | number | string => exact (advance_ordered.bind fun _ => .pure _) s hs
  | thisKeyword => exact (advance_ordered.bind fun _ => fresh_ordered.bind fun _ => .pure _) s hs
  | parentKeyword =>
    exact (advance_ordered.bind fun _ => (expect_ordered .dot _).bind fun _ => (expectName_ordered _).bind fun method =>
      fresh_ordered.bind fun _ => .pure _) s hs
  | identifier => exact (advance_ordered.bind fun _ => (reference_ordered _).bind fun _ => .pure _) s hs
  | leftParen =>
    exact (advance_ordered.bind fun _ => hr.expression.bind fun inner => (expect_ordered .rightParen _).bind fun _ =>
      .pure _) s hs
  | funKeyword => exact (advance_ordered.bind fun _ => (function_ordered hr).bind fun _ => .pure _) s hs
  | leftBracket =>
    exact (advance_ordered.bind fun _ => (commaList_ordered hr.expression none .rightBracket).bind fun elements =>
      (expect_ordered .rightBracket _).bind fun _ => .pure _) s hs
  | _ => exact hother _ hkind

theorem suffix_ordered (target : Expr) (t : Token) : Ordered (suffix r target t) := by
  unfold suffix
  split
  · exact (commaList_ordered hr.expression _ .rightParen).bind fun arguments =>
      (expect_ordered .rightParen _).bind fun closing => .pure _
  · exact hr.expression.bind fun position => (expect_ordered .rightBracket _).bind fun _ => .pure _
  · exact (expectName_ordered _).bind fun name => .pure _

theorem suffixes_ordered (bound : Nat) (target : Expr) : Ordered (suffixes r bound target) := by
  induction bound generalizing target with
  | zero => exact .pure target
  | succ bound ih =>
    apply (acceptWhere_ordered _).bind
    intro found
    cases found with
    | none => exact .pure target
    | some t => exact (suffix_ordered hr target t).bind fun target => ih target

theorem call_ordered : Ordered (call r) :=
  (primary_ordered hr).bind fun target => remaining_ordered.bind fun n => suffixes_ordered hr n target

theorem unary_ordered : Ordered (unary r) := by
  apply (acceptWhere_ordered _).bind
  intro found
  cases found with
  | some op => exact hr.unary.bind fun operand => .pure _
  | none => exact call_ordered hr

theorem disjunction_ordered : Ordered (disjunction r) := by
  have hfactor : Ordered (factor r) := leftAssociative_ordered _ _ (unary_ordered hr)
  have hterm : Ordered (term r) := leftAssociative_ordered _ _ hfactor
  have hcomparison : Ordered (comparison r) := leftAssociative_ordered _ _ hterm
  have hequality : Ordered (equality r) := leftAssociative_ordered _ _ hcomparison
  exact leftAssociative_ordered _ _ (leftAssociative_ordered _ _ hequality)

theorem conditional_ordered : Ordered (conditional r) := by
  apply (disjunction_ordered hr).bind
  intro condition
  apply (accept_ordered .question).bind
  intro found
  cases found with
  | none => exact .pure condition
  | some _ =>
    apply hr.expression.bind
    intro thenBranch
    exact (expect_ordered .colon _).bind fun _ => hr.conditional.bind fun elseBranch => .pure _

omit hr in
/-- An invalid target is recorded behind the errors of the value, though its `=` stands in front of them. -/
theorem records_target {s s' : ParserState} (hs : s.Numbered) {equal : Token} {rest : List Token}
    (h : s.tokens = equal :: rest) {es : List SyntaxError} (hes : { s with tokens := rest }.Records es s') :
    s.Records (es ++ [⟨equal, .invalidAssignmentTarget⟩])
      { s' with errors := s'.errors ++ [⟨equal, .invalidAssignmentTarget⟩] } := by
  have hahead : ({ s with tokens := rest } : ParserState).ahead <:+ s.ahead :=
    ahead_suffix (h ▸ List.suffix_cons equal rest)
  have hequal : equal ∈ s.ahead := by simp [ParserState.ahead, h]
  refine ⟨?_, hes.ahead.trans hahead, ?_, fun e he => ?_, fun e he t ht => ?_⟩
  · rw [← List.append_assoc]
    exact congrArg (· ++ _) hes.errors
  · have hvalue : ∀ d ∈ es, equal.line < d.line := fun d hd => Numbered.lt hs h (hes.among d hd)
    exact @SourceOrder.add [] es ⟨equal, .invalidAssignmentTarget⟩ hes.order (by simp) hvalue fun _ => rfl
  · rcases List.mem_append.1 he with he | he
    · exact hahead.subset (hes.among e he)
    · rw [List.mem_singleton.1 he]
      exact hequal
  · rcases List.mem_append.1 he with he | he
    · exact hes.passed e he t ht
    · rw [List.mem_singleton.1 he]
      exact Nat.le_of_lt (Numbered.lt hs h (hes.ahead.subset ht))

theorem assignment_ordered (target : Expr) {s : ParserState} (hs : s.Numbered) {equal : Token} {rest : List Token}
    (h : s.tokens = equal :: rest) :
    ∃ es, s.Records es (landing ((r.expression >>= fun value => assignTo target equal value) { s with tokens := rest })) := by
  have hstart : s.Records [] { s with tokens := rest } := .none rfl (ahead_suffix (h ▸ List.suffix_cons equal rest))
  obtain ⟨es, hes⟩ := hr.expression _ (hs.later hstart.ahead)
  cases hvalue : r.expression { s with tokens := rest } with
  | error e s' =>
    rw [hvalue] at hes
    refine ⟨es, ?_⟩
    rw [bind_error hvalue]
    exact hstart.trans hes
  | ok value s' =>
    rw [hvalue] at hes
    rw [bind_ok hvalue]
    have hplain : s.Records es s' := hstart.trans hes
    -- All errors of the value stand behind the token of the assignment, and are listed in front of the one at it.
    cases target with
    | «variable» use =>
      obtain ⟨es', hes'⟩ := (reference_ordered use.name).bind (fun target => Ordered.pure (Expr.assign target value)) s'
        (hs.later hplain.ahead)
      exact ⟨es ++ es', hplain.trans hes'⟩
    | get object name => exact ⟨es, hplain⟩
    | _ => exact ⟨_, records_target hs h hes⟩

theorem expression_ordered : Ordered (expression r) := by
  intro s hs
  refine (conditional_ordered hr s hs).bind fun target s' htarget => ?_
  have hs' := (conditional_ordered hr).numbered hs htarget
  rw [OrderedAt, bind_eq_match, accept, acceptWhere]
  rcases htokens : s'.tokens with _ | ⟨t, rest⟩
  · exact ⟨[], .none rfl (List.suffix_refl _)⟩
  · by_cases hequal : (t.kind == .equal) = true
    · simp only [hequal, if_true]
      exact assignment_ordered hr target hs' htokens
    · simp only [hequal]
      exact ⟨[], .none rfl (List.suffix_refl _)⟩

/-! ### Statements -/

theorem varDeclaration_ordered : Ordered (varDeclaration r) := by
  apply (expectName_ordered _).bind
  intro name
  apply (accept_ordered .equal).bind
  intro found
  cases found with
  | none => exact (expect_ordered .semicolon _).bind fun _ => .pure _
  | some _ => exact hr.expression.map.bind fun value => (expect_ordered .semicolon _).bind fun _ => .pure _

theorem functionDeclaration_ordered : Ordered (functionDeclaration r) :=
  (expectName_ordered _).bind fun _ => (function_ordered hr).bind fun _ => .pure _

theorem methods_ordered (bound : Nat) : Ordered (methods r bound) := by
  induction bound with
  | zero => exact .pure []
  | succ bound ih =>
    apply (sees_ordered .rightBrace).bind
    intro terminated
    apply atEnd_ordered.bind
    intro ended
    apply Ordered.ite
    · exact .pure []
    · exact (expectName_ordered _).bind fun name => (function_ordered hr).bind fun body => ih.bind fun rest => .pure _

omit hr in
theorem parentClause_ordered : Ordered parentClause := by
  apply (acceptWhere_ordered _).bind
  intro found
  cases found with
  | none => exact .pure none
  | some _ => exact (expectName_ordered _).bind fun name => (reference_ordered name).bind fun _ => .pure _

theorem classDeclaration_ordered : Ordered (classDeclaration r) := by
  apply (expectName_ordered _).bind
  intro name
  apply parentClause_ordered.bind
  intro parent
  apply (expect_ordered .leftBrace _).bind
  intro _
  exact remaining_ordered.bind fun n => (methods_ordered hr n).bind fun body =>
    (expect_ordered .rightBrace _).bind fun _ => .pure _

theorem expressionStatement_ordered : Ordered (expressionStatement r) :=
  (expression_ordered hr).bind fun _ => (expect_ordered .semicolon _).bind fun _ => .pure _

theorem forInitializer_ordered : Ordered (forInitializer r) := by
  apply (accept_ordered .semicolon).bind
  intro found
  cases found with
  | some _ => exact .pure none
  | none =>
    apply (accept_ordered .varKeyword).bind
    intro found
    cases found with
    | some _ => exact (varDeclaration_ordered hr).map
    | none => exact hr.expression.bind fun value => (expect_ordered .semicolon _).bind fun _ => .pure _

theorem unlessClosed_ordered (closing : TokenKind) : Ordered (unlessClosed r closing) := by
  apply (sees_ordered closing).bind
  intro terminated
  exact Ordered.ite (.pure none) hr.expression.map

theorem forStatement_ordered : Ordered (forStatement r) := by
  apply (expect_ordered .leftParen _).bind
  intro _
  apply (forInitializer_ordered hr).bind
  intro initializer
  apply (unlessClosed_ordered hr .semicolon).bind
  intro condition
  apply (expect_ordered .semicolon _).bind
  intro _
  apply (unlessClosed_ordered hr .rightParen).bind
  intro increment
  apply (expect_ordered .rightParen _).bind
  intro _
  apply (atLoopDepth_ordered (· + 1) hr.statement).bind
  intro body
  cases initializer <;> exact .pure _

theorem ifStatement_ordered : Ordered (ifStatement r) := by
  apply (expect_ordered .leftParen _).bind
  intro _
  apply hr.expression.bind
  intro condition
  apply (expect_ordered .rightParen _).bind
  intro _
  apply hr.statement.bind
  intro thenBranch
  apply (accept_ordered .elseKeyword).bind
  intro found
  cases found with
  | none => exact .pure _
  | some _ => exact hr.statement.bind fun elseBranch => .pure _

theorem whileStatement_ordered : Ordered (whileStatement r) := by
  apply (expect_ordered .leftParen _).bind
  intro _
  apply hr.expression.bind
  intro condition
  exact (expect_ordered .rightParen _).bind fun _ => (atLoopDepth_ordered (· + 1) hr.statement).bind fun body => .pure _

omit hr in
/-- A misplaced keyword is reported before its semicolon is read. -/
theorem loopControl_ordered {s : ParserState} (hs : s.Numbered) {keyword : Token} {rest : List Token}
    (h : s.tokens = keyword :: rest) (word : String) : OrderedAt (advance >>= fun _ => loopControl keyword word) s := by
  have hend : Ordered (expect .semicolon "';' after loop control" >>= fun _ => pure ()) :=
    (expect_ordered .semicolon _).bind fun _ => .pure ()
  have hadvance : advance s = .ok () { s with tokens := rest } := by rw [advance, h, List.tail_cons]
  by_cases hinside : (s.loopDepth != 0) = true
  · have hstart : s.Records [] { s with tokens := rest } := .none rfl (ahead_suffix (h ▸ List.suffix_cons keyword rest))
    refine .behind hstart (hend _ (hs.later hstart.ahead)) ?_
    rw [bind_ok hadvance]
    show (if (!(s.loopDepth != 0)) = true then _ else _ : Parser Unit) _ = _
    rw [if_neg (by simp [hinside])]
  · have htaken := records_taken hs h (.outsideLoop word)
    refine .behind htaken (hend _ (hs.later htaken.ahead)) ?_
    rw [bind_ok hadvance]
    show (if (!(s.loopDepth != 0)) = true then _ else _ : Parser Unit) _ = _
    rw [if_pos (by simpa using hinside)]
    rfl

theorem statement_ordered : Ordered (statement r) := by
  intro s hs
  have hexpression := expressionStatement_ordered hr s hs
  have htaken := tokens_of_current (s := s)
  apply OrderedAt.current
  generalize s.tokens.head?.getD (.endOfInput s.endLine) = t at htaken
  cases hkind : t.kind with
  | forKeyword => exact (advance_ordered.bind fun _ => forStatement_ordered hr) s hs
  | ifKeyword => exact (advance_ordered.bind fun _ => ifStatement_ordered hr) s hs
  | whileKeyword => exact (advance_ordered.bind fun _ => whileStatement_ordered hr) s hs
  | printKeyword =>
    exact (advance_ordered.bind fun _ => hr.expression.bind fun value => (expect_ordered .semicolon _).bind fun _ =>
      .pure _) s hs
  | returnKeyword =>
    exact (advance_ordered.bind fun _ => (unlessClosed_ordered hr .semicolon).bind fun value =>
      (expect_ordered .semicolon _).bind fun _ => .pure _) s hs
  | breakKeyword =>
    obtain ⟨rest, htokens⟩ := htaken (by simp [hkind])
    exact (bind_assoc advance _ _) ▸ (loopControl_ordered hs htokens "break").bind fun _ _ _ => .pure (Stmt.break t.line)
  | continueKeyword =>
    obtain ⟨rest, htokens⟩ := htaken (by simp [hkind])
    exact (bind_assoc advance _ _) ▸ (loopControl_ordered hs htokens "continue").bind fun _ _ _ => .pure (Stmt.continue t.line)
  | leftBrace => exact (advance_ordered.bind fun _ => (block_ordered hr).bind fun body => .pure _) s hs
  | semicolon => exact (advance_ordered.bind fun _ => .pure _) s hs
  | _ => exact hexpression

theorem item_ordered : Ordered (item r) := by
  apply (accept_ordered .classKeyword).bind
  intro found
  cases found with
  | some _ => exact classDeclaration_ordered hr
  | none =>
    apply seesFunctionDeclaration_ordered.bind
    intro sees
    apply Ordered.ite
    · exact advance_ordered.bind fun _ => functionDeclaration_ordered hr
    · apply (accept_ordered .varKeyword).bind
      intro found
      cases found with
      | some _ => exact varDeclaration_ordered hr
      | none => exact statement_ordered hr

theorem program_ordered (bound : Nat) : Ordered (program r bound) := by
  induction bound with
  | zero => exact .pure []
  | succ bound ih =>
    apply atEnd_ordered.bind
    intro ended
    exact Ordered.ite (.pure []) (hr.declaration.bind fun first => ih.bind fun rest => .pure (first.toList ++ rest))

end Grammar

theorem rules_ordered (levels : Nat) : (rules levels).Ordered := by
  induction levels with
  | zero => exact ⟨.throw _, .throw _, .throw _, .throw _, .throw _⟩
  | succ levels ih =>
    exact ⟨expression_ordered ih, conditional_ordered ih, unary_ordered ih, statement_ordered ih,
      orSkip_ordered (item_ordered ih)⟩

/-! ## Positions -/

namespace Parse

/-- The tokens up to the one that closes the input, which is added if there is none. -/
def terminated (tokens : List Token) : List Token := (delimited tokens).1 ++ [.endOfInput (delimited tokens).2]

/-- The same tokens, each on a line with the number of its position. -/
def numbered (tokens : List Token) : List Token := (terminated tokens).mapIdx fun i t => { t with line := i }

/-- The positions of the tokens at which errors are recorded, in the order of the errors. -/
def positions (firstId : NodeId) (tokens : List Token) : List Nat :=
  (ofTokens firstId (numbered tokens)).errors.map (·.line)

theorem delimited_terminated {body : List Token} (h : ∀ t ∈ body, t.kind ≠ .endOfInput) (line : Nat) :
    delimited (body ++ [.endOfInput line]) = (body, line) := by
  have hopen : ∀ t ∈ body, (!(t.kind == .endOfInput)) = true := fun t ht => by simpa using h t ht
  refine Prod.ext ?_ ?_
  · show (body ++ [Token.endOfInput line]).takeWhile (fun t => !(t.kind == .endOfInput)) = body
    rw [List.takeWhile_append_of_pos hopen]
    exact List.append_nil body
  · have hfind : (body ++ [Token.endOfInput line]).find? (fun t => t.kind == .endOfInput) = some (.endOfInput line) := by
      rw [List.find?_append, List.find?_eq_none.2 fun t ht => by simpa using h t ht]
      rfl
    unfold delimited
    dsimp only
    rw [hfind]
    rfl

theorem open_delimited (tokens : List Token) : ∀ t ∈ (delimited tokens).1, t.kind ≠ .endOfInput :=
  fun t ht => by simpa using List.mem_takeWhile_imp ht

theorem ofTokens_terminated (firstId : NodeId) (tokens : List Token) :
    ofTokens firstId (terminated tokens) = ofTokens firstId tokens := by
  unfold ofTokens
  rw [terminated, delimited_terminated (open_delimited tokens)]

/-- The line of the token at a position. -/
def lineAt (tokens : List Token) (i : Nat) : Nat := ((terminated tokens)[i]?.map (·.line)).getD 0

theorem getElem?_numbered (tokens : List Token) (i : Nat) :
    (numbered tokens)[i]? = (terminated tokens)[i]?.map fun t => { t with line := i } := List.getElem?_mapIdx

theorem terminated_eq (tokens : List Token) :
    terminated tokens = (numbered tokens).map (Token.relabel (.onLines (lineAt tokens))) := by
  refine List.ext_getElem? fun i => ?_
  rw [List.getElem?_map, getElem?_numbered]
  cases h : (terminated tokens)[i]? with
  | none => rfl
  | some t => simp [Token.relabel, Relabeling.onLines, lineAt, h]

theorem numbered_eq (tokens : List Token) : numbered tokens =
    (delimited tokens).1.mapIdx (fun i t => { t with line := i }) ++ [.endOfInput (delimited tokens).1.length] :=
  List.mapIdx_concat

/-- In front of a program its tokens are numbered. -/
theorem numbered_start (firstId : NodeId) (tokens : List Token) :
    (start firstId (numbered tokens)).ahead = numbered tokens ∧ (start firstId (numbered tokens)).Numbered := by
  have hopen : ∀ t ∈ (delimited tokens).1.mapIdx (fun i t => ({ t with line := i } : Token)), t.kind ≠ .endOfInput := by
    intro t ht
    obtain ⟨i, hi, rfl⟩ := List.mem_mapIdx.1 ht
    exact open_delimited tokens (delimited tokens).1[i] (List.getElem_mem hi)
  have hahead : (start firstId (numbered tokens)).ahead = numbered tokens := by
    rw [start, ParserState.ahead, numbered_eq, delimited_terminated hopen]
  refine ⟨hahead, ?_⟩
  rw [ParserState.Numbered, hahead, List.pairwise_iff_getElem]
  intro i j hi hj hij
  simpa [numbered] using hij

/-- With numbers on the tokens, errors are recorded in order and at tokens of the list. -/
theorem records_numbered (firstId : NodeId) (tokens : List Token) :
    SourceOrder (ofTokens firstId (numbered tokens)).errors ∧
      ∀ e ∈ (ofTokens firstId (numbered tokens)).errors, (numbered tokens)[e.line]? = some e.token := by
  obtain ⟨hahead, hnumbered⟩ := numbered_start firstId tokens
  obtain ⟨es, hes⟩ := program_ordered (rules_ordered ((delimited (numbered tokens)).1.length + 1))
    (delimited (numbered tokens)).1.length _ hnumbered
  obtain ⟨statements, s', hread, -, -⟩ := program_finishes ((delimited (numbered tokens)).1.length + 1)
    (delimited (numbered tokens)).1.length (s := start firstId (numbered tokens)) (Nat.lt_succ_self _) (Nat.le_refl _)
  have herrors : (ofTokens firstId (numbered tokens)).errors = es := by
    rw [ofTokens_of_ok hread]
    rw [hread] at hes
    exact hes.errors
  rw [herrors]
  refine ⟨hes.order, fun e he => ?_⟩
  obtain ⟨i, hi⟩ := List.getElem?_of_mem (hahead ▸ hes.among e he)
  have hline : e.line = i := by
    rw [getElem?_numbered] at hi
    obtain ⟨t, -, ht⟩ := Option.map_eq_some_iff.1 hi
    exact (congrArg Token.line ht).symm
  rw [hline, hi]

/-- Every syntax error stands at the token of its position, and positions only ever go back for an invalid target of
an assignment: it comes behind the errors of its value, all of which stand behind its `=`. -/
theorem errors_in_order (firstId : NodeId) (tokens : List Token) :
    List.Forall₂ (fun e i => (terminated tokens)[i]? = some e.token) (ofTokens firstId tokens).errors
      (positions firstId tokens) ∧
    ∀ (i j p q : Nat) (e : SyntaxError), i < j → (positions firstId tokens)[i]? = some p → (positions firstId tokens)[j]? = some q →
      (ofTokens firstId tokens).errors[j]? = some e →
      p ≤ q ∨ e.cause = .invalidAssignmentTarget ∧
        ∀ k l, i ≤ k → k < j → (positions firstId tokens)[k]? = some l → q < l := by
  obtain ⟨horder, hamong⟩ := records_numbered firstId tokens
  have herrors : (ofTokens firstId tokens).errors =
      (ofTokens firstId (numbered tokens)).errors.map (SyntaxError.relabel (.onLines (lineAt tokens))) := by
    -- Numbering changes nothing but the lines, so the errors are those of the numbered tokens.
    have hclosing : ∃ t ∈ numbered tokens, t.kind = .endOfInput := by
      rw [numbered_eq]
      exact ⟨_, List.mem_append_right _ (List.mem_singleton_self _), rfl⟩
    have hlines := ofTokens_onLines firstId hclosing (lineAt tokens)
    rw [← terminated_eq, ofTokens_terminated] at hlines
    rw [hlines]
  refine ⟨?_, fun i j p q e hij hp hq he => ?_⟩
  · rw [herrors, positions, List.forall₂_map_left_iff, List.forall₂_map_right_iff, List.forall₂_same]
    intro e he
    rw [terminated_eq, List.getElem?_map, hamong e he]
    rfl
  · rw [positions, List.getElem?_map, Option.map_eq_some_iff] at hp hq
    obtain ⟨d, hd, rfl⟩ := hp
    obtain ⟨f, hf, rfl⟩ := hq
    have hcause : e.cause = f.cause := by
      rw [herrors, List.getElem?_map, hf] at he
      exact (congrArg SyntaxError.cause (Option.some.inj he)).symm
    rw [hcause]
    refine (horder.pairs hij hd hf).imp_right fun ⟨hinvalid, hbehind⟩ => ⟨hinvalid, fun k l hik hkj hl => ?_⟩
    rw [positions, List.getElem?_map, Option.map_eq_some_iff] at hl
    obtain ⟨g, hg, rfl⟩ := hl
    exact hbehind k g hik hkj hg

/-- In two assignments to a literal, one inside the other, the inner one is reported first. -/
theorem errors_in_order_nested :
    let tokens : List Token := [⟨.nilKeyword, "nil", none, 1⟩, ⟨.equal, "=", none, 1⟩, ⟨.nilKeyword, "nil", none, 2⟩,
      ⟨.equal, "=", none, 2⟩, ⟨.nilKeyword, "nil", none, 2⟩, ⟨.semicolon, ";", none, 2⟩]
    positions 0 tokens = [3, 1] ∧ (ofTokens 0 tokens).errors.map (·.line) = [2, 1] ∧ ∀ e, (ofTokens 0 tokens).errors[1]? = some e →
      e.cause = .invalidAssignmentTarget ∧ ∀ k l, 0 ≤ k → k < 1 → (positions 0 tokens)[k]? = some l → 1 < l := by
  intro tokens
  have hpositions : positions 0 tokens = [3, 1] := by cbv
  refine ⟨hpositions, by cbv, fun e he => ?_⟩
  have hmain := (errors_in_order 0 tokens).2 0 1 3 1 e (by decide) (by rw [hpositions]; rfl) (by rw [hpositions]; rfl) he
  exact hmain.resolve_left (by decide)

end Parse

end TreeWalk
