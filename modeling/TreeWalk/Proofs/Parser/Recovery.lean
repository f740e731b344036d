import TreeWalk.Proofs.Parser.Progress

/-!
# Errors stay in their statement

Tokens among which no statement ends, no body opens or closes and no other statement starts are read as
one expression or given up, and then skipped up to the semicolon behind them. What comes before and behind
is read as if they were not there.
-/

namespace TreeWalk

open TreeWalk.Parser TreeWalk.Grammar

/-- The token does not end a statement, open or close a body, close the input or start a statement. -/
structure Token.Plain (t : Token) : Prop where
  semicolon : t.kind ≠ .semicolon
  leftBrace : t.kind ≠ .leftBrace
  rightBrace : t.kind ≠ .rightBrace
  endOfInput : t.kind ≠ .endOfInput
  starts : t.kind.startsStatement = false

instance (t : Token) : Decidable t.Plain :=
  decidable_of_iff (t.kind ≠ .semicolon ∧ t.kind ≠ .leftBrace ∧ t.kind ≠ .rightBrace ∧ t.kind ≠ .endOfInput ∧
      t.kind.startsStatement = false)
    ⟨fun ⟨h₁, h₂, h₃, h₄, h₅⟩ => ⟨h₁, h₂, h₃, h₄, h₅⟩,
      fun h => ⟨h.semicolon, h.leftBrace, h.rightBrace, h.endOfInput, h.starts⟩⟩

/-! ## Expressions are read up to the semicolon -/

/-- Plain tokens in front of a semicolon, and the tokens behind it. -/
structure Stretch where
  plain : List Token
  semicolon : Token
  behind : List Token
  allPlain : ∀ t ∈ plain, t.Plain
  ends : semicolon.kind = .semicolon

namespace Stretch

variable (x : Stretch)

/-- Reading stands at the semicolon or before it, and the errors added are at tokens up to there. -/
structure Holds (before : List SyntaxError) (s : ParserState) : Prop where
  tokens : ∃ left, left <:+ x.plain ∧ s.tokens = left ++ x.semicolon :: x.behind
  errors : ∃ es, s.errors = before ++ es ∧ ∀ e ∈ es, e.token ∈ x.plain ++ [x.semicolon]

/-- Reading ended there, and its result is as stated. -/
def Kept {α : Type} (before : List SyntaxError) (post : α → Prop) : EStateM.Result GivenUp ParserState α → Prop
  | .ok a s => x.Holds before s ∧ post a
  | .error _ s => x.Holds before s

/-- The parser does not leave the tokens up to the semicolon, and its result is as stated. -/
def Keeps {α : Type} (p : Parser α) (post : α → Prop) : Prop :=
  ∀ before s, x.Holds before s → x.Kept before post (p s)

/-- Nothing is asked of the result. -/
abbrev Any {α : Type} (_ : α) : Prop := True

variable {x} {α β κ : Type} {p : Parser α} {post : α → Prop}

namespace Keeps

protected theorem pure {a : α} (h : post a) : x.Keeps (Pure.pure a) post := fun _ _ hs => ⟨hs, h⟩

protected theorem throw (e : GivenUp) : x.Keeps (MonadExcept.throw e : Parser α) post := fun _ _ hs => hs

theorem bind {f : α → Parser β} {post' : β → Prop} (hp : x.Keeps p post) (hf : ∀ a, post a → x.Keeps (f a) post') :
    x.Keeps (p >>= f) post' := by
  intro before s hs
  have hfirst := hp before s hs
  rw [bind_eq_match]
  cases h : p s with
  | ok a s' =>
    rw [h] at hfirst
    exact hf a hfirst.2 before s' hfirst.1
  | error e s' =>
    rw [h] at hfirst
    exact hfirst

theorem mono {post' : α → Prop} (hp : x.Keeps p post) (h : ∀ a, post a → post' a) : x.Keeps p post' := by
  intro before s hs
  have hkept := hp before s hs
  cases hps : p s with
  | ok a s' =>
    rw [hps] at hkept
    exact ⟨hkept.1, h a hkept.2⟩
  | error e s' =>
    rw [hps] at hkept
    exact hkept

theorem ite {c : Bool} {p' : Parser α} (hp : x.Keeps p post) (hp' : x.Keeps p' post) :
    x.Keeps (if c then p else p') post := by
  cases c with
  | true => exact hp
  | false => exact hp'

end Keeps

theorem Holds.current {before : List SyntaxError} {s : ParserState} (h : x.Holds before s) :
    (∃ t rest, s.tokens = t :: rest ∧ t ∈ x.plain ∧ x.Holds before { s with tokens := rest }) ∨
      s.tokens = x.semicolon :: x.behind := by
  obtain ⟨⟨left, hleft, htokens⟩, herrors⟩ := h
  cases left with
  | nil =>
    right
    exact htokens
  | cons t rest =>
    left
    refine ⟨t, rest ++ x.semicolon :: x.behind, htokens, hleft.subset List.mem_cons_self, ?_, herrors⟩
    exact ⟨rest, (List.suffix_cons t rest).trans hleft, rfl⟩

/-! ### Single tokens -/

/-- The next token is plain or the semicolon. -/
theorem keeps_current : x.Keeps current (· ∈ x.plain ++ [x.semicolon]) := by
  intro before s hs
  refine ⟨hs, ?_⟩
  rcases hs.current with ⟨t, rest, htokens, ht, -⟩ | htokens
  · rw [htokens]
    exact List.mem_append_left _ ht
  · rw [htokens]
    exact List.mem_append_right _ (List.mem_singleton_self _)

theorem keeps_remaining : x.Keeps remaining Any := fun _ _ hs => ⟨hs, trivial⟩

theorem keeps_sees (kind : TokenKind) : x.Keeps (sees kind) Any := fun _ _ hs => ⟨hs, trivial⟩

/-- A token that is taken is plain, unless semicolons are wanted. -/
theorem keeps_acceptWhere {choose : Token → Option α} (hchoose : choose x.semicolon = none) :
    x.Keeps (acceptWhere choose) (fun found => ∀ a ∈ found, ∃ t ∈ x.plain, choose t = some a) := by
  intro before s hs
  unfold acceptWhere
  rcases hs.current with ⟨t, rest, htokens, ht, hnext⟩ | htokens
  · simp only [htokens]
    cases h : choose t with
    | none => exact ⟨hs, by simp⟩
    | some a => exact ⟨hnext, fun b hb => ⟨t, ht, Option.some.inj hb ▸ h⟩⟩
  · simp only [htokens, hchoose]
    exact ⟨hs, by simp⟩

theorem keeps_accept {kind : TokenKind} (hkind : kind ≠ .semicolon) :
    x.Keeps (accept kind) (fun found => ∀ t ∈ found, t ∈ x.plain) := by
  have hnone : (if x.semicolon.kind == kind then some x.semicolon else none) = none := by
    rw [x.ends]
    simp [Ne.symm hkind]
  apply (keeps_acceptWhere hnone).mono
  intro found h t ht
  obtain ⟨u, hu, hchosen⟩ := h t ht
  simp only [Option.ite_none_right_eq_some, Option.some.injEq] at hchosen
  exact hchosen.2 ▸ hu

/-- An error is recorded at a plain token or at the semicolon. -/
theorem keeps_report {token : Token} (htoken : token ∈ x.plain ++ [x.semicolon]) (cause : SyntaxCause) :
    x.Keeps (report token cause) Any := by
  intro before s hs
  obtain ⟨htokens, es, herrors, hes⟩ := hs
  refine ⟨⟨htokens, es ++ [⟨token, cause⟩], ?_, ?_⟩, trivial⟩
  · simp only [herrors, List.append_assoc]
  · intro e he
    rcases List.mem_append.1 he with he | he
    · exact hes e he
    · rw [List.mem_singleton.1 he]
      exact htoken

theorem keeps_fail {token : Token} (htoken : token ∈ x.plain ++ [x.semicolon]) (cause : SyntaxCause) :
    x.Keeps (fail token cause : Parser α) post :=
  (keeps_report htoken cause).bind fun _ _ => .throw _

theorem keeps_expect {kind : TokenKind} (hkind : kind ≠ .semicolon) (what : String) : x.Keeps (expect kind what) Any := by
  apply (keeps_accept hkind).bind
  intro found _
  cases found with
  | some t => exact .pure trivial
  | none => exact keeps_current.bind fun t ht => keeps_fail ht _

theorem keeps_expectName (what : String) : x.Keeps (expectName what) Any :=
  (keeps_expect (by decide) what).bind fun _ _ => .pure trivial

theorem keeps_fresh : x.Keeps fresh Any := fun _ _ hs => ⟨⟨hs.tokens, hs.errors⟩, trivial⟩

theorem keeps_reference (name : Name) : x.Keeps (reference name) Any := keeps_fresh.bind fun _ _ => .pure trivial

/-! ### Repetition -/

theorem keeps_commaRound {item : Parser α} {others : Parser (List α)} (hitem : x.Keeps item Any)
    (hothers : x.Keeps others Any) : x.Keeps (commaRound item others) Any := by
  apply hitem.bind
  intro first _
  apply (keeps_accept (by decide)).bind
  intro found _
  cases found with
  | none => exact .pure trivial
  | some _ => exact hothers.bind fun _ _ => .pure trivial

theorem keeps_commaItems {item : Parser α} (hitem : x.Keeps item Any) (tooMany : Option SyntaxCause)
    (bound count : Nat) : x.Keeps (commaItems item tooMany bound count) Any := by
  induction bound generalizing count with
  | zero => exact .throw _
  | succ bound ih =>
    have hround := keeps_commaRound hitem (ih (count + 1))
    unfold commaItems
    cases tooMany with
    | none => exact hround
    | some cause =>
      apply Keeps.ite
      · exact keeps_current.bind fun t ht => (keeps_report ht cause).bind fun _ _ => hround
      · exact hround

theorem keeps_commaList {item : Parser α} (hitem : x.Keeps item Any) (tooMany : Option SyntaxCause)
    (closing : TokenKind) : x.Keeps (commaList item tooMany closing) Any := by
  apply (keeps_sees closing).bind
  intro closed _
  apply Keeps.ite
  · exact .pure trivial
  · exact keeps_remaining.bind fun n _ => keeps_commaItems hitem tooMany (n + 1) 0

theorem Keeps.extending {loop : Nat → Expr → Parser Expr} {choose : Token → Option κ} {step : Expr → κ → Parser Expr}
    (h : Extending loop choose step) (hchoose : choose x.semicolon = none)
    (hstep : ∀ left k, (∃ t ∈ x.plain, choose t = some k) → x.Keeps (step left k) Any) (bound : Nat) (left : Expr) :
    x.Keeps (loop bound left) Any := by
  induction bound generalizing left with
  | zero =>
    rw [h.zero]
    exact .pure trivial
  | succ bound ih =>
    rw [h.succ]
    apply (keeps_acceptWhere hchoose).bind
    intro found hfound
    cases found with
    | none => exact .pure trivial
    | some k => exact (hstep left k (hfound k rfl)).bind fun left' _ => ih left'

theorem keeps_leftAssociative {operator : TokenKind → Option κ} {build : Expr → Operator κ → Expr → Expr}
    {operand : Parser Expr} (hoperator : operator .semicolon = none) (hoperand : x.Keeps operand Any) :
    x.Keeps (leftAssociative operator build operand) Any := by
  apply hoperand.bind
  intro first _
  apply keeps_remaining.bind
  intro n _
  apply Keeps.extending (extending_leftGrouped operator build operand)
  · simp only [x.ends, hoperator, Option.map_none]
  · intro left op _
    exact hoperand.bind fun right _ => .pure trivial

/-! ### The rules for expressions -/

/-- The rules inside expressions do not leave the tokens up to the semicolon. -/
structure KeepsRules (x : Stretch) (r : Rules) : Prop where
  expression : x.Keeps r.expression Any
  conditional : x.Keeps r.conditional Any
  unary : x.Keeps r.unary Any

section Rules

variable {r : Rules} (hr : x.KeepsRules r)
include hr

theorem keeps_primary : x.Keeps (primary r) Any := by
  intro before s hs
  rw [primary, bind_current]
  rcases hs.current with ⟨t, rest, htokens, ht, hnext⟩ | htokens
  · have hmem : t ∈ x.plain ++ [x.semicolon] := List.mem_append_left _ ht
    -- What begins with a plain token goes on behind it.
    have hadvance {f : Unit → Parser Expr} (hf : x.Keeps (f ()) Any) : x.Kept before Any ((advance >>= f) s) := by
      show x.Kept before Any (f () { s with tokens := s.tokens.tail })
      rw [htokens]
      exact hf before { s with tokens := rest } hnext
    have hplain := x.allPlain t ht
    rw [htokens]
    simp only [List.head?_cons, Option.getD_some]
    cases hkind : t.kind with
    | falseKeyword | trueKeyword | nilKeyword | number | string => exact hadvance (.pure trivial)
    | thisKeyword => exact hadvance (keeps_fresh.bind fun _ _ => .pure trivial)
    | parentKeyword =>
      apply hadvance
      apply (keeps_expect (by decide) _).bind
      intro _ _
      exact (keeps_expectName _).bind fun _ _ => keeps_fresh.bind fun _ _ => .pure trivial
    | identifier => exact hadvance ((keeps_reference _).bind fun _ _ => .pure trivial)
    | leftParen =>
      apply hadvance
      exact hr.expression.bind fun inner _ => (keeps_expect (by decide) _).bind fun _ _ => .pure trivial
    | funKeyword =>
      have hstarts := hplain.starts
      rw [hkind] at hstarts
      cases hstarts
    | leftBracket =>
      apply hadvance
      apply (keeps_commaList hr.expression none .rightBracket).bind
      intro elements _
      exact (keeps_expect (by decide) _).bind fun _ _ => .pure trivial
    | bangEqual | equalEqual | greater | greaterEqual | less | lessEqual | plus | star | slash =>
      apply hadvance
      exact (keeps_report hmem _).bind fun _ _ => hr.expression.bind fun _ _ => .throw _
    | _ => exact keeps_fail hmem _ before s hs
  · -- No expression begins with the semicolon.
    have hmem : x.semicolon ∈ x.plain ++ [x.semicolon] := List.mem_append_right _ (List.mem_singleton_self _)
    rw [htokens]
    simp only [List.head?_cons, Option.getD_some, x.ends]
    exact keeps_fail hmem _ before s hs

theorem keeps_suffix (target : Expr) (t : Token) : x.Keeps (suffix r target t) Any := by
  unfold suffix
  cases t.kind with
  | leftParen =>
    apply (keeps_commaList hr.expression _ .rightParen).bind
    intro arguments _
    exact (keeps_expect (by decide) _).bind fun closing _ => .pure trivial
  | leftBracket => exact hr.expression.bind fun position _ => (keeps_expect (by decide) _).bind fun _ _ => .pure trivial
  | _ => exact (keeps_expectName _).bind fun name _ => .pure trivial

theorem keeps_call : x.Keeps (call r) Any := by
  apply (keeps_primary hr).bind
  intro target _
  apply keeps_remaining.bind
  intro n _
  apply Keeps.extending (extending_suffixes r)
  · simp only [x.ends]
    rfl
  · intro target t _
    exact keeps_suffix hr target t

theorem keeps_unary : x.Keeps (unary r) Any := by
  have hnone : (unaryKind x.semicolon.kind).map (fun kind => (⟨kind, x.semicolon.lexeme, x.semicolon.line⟩ : Operator UnaryKind)) = none := by
    rw [x.ends]
    rfl
  apply (keeps_acceptWhere hnone).bind
  intro found _
  cases found with
  | some op => exact hr.unary.bind fun operand _ => .pure trivial
  | none => exact keeps_call hr

theorem keeps_disjunction : x.Keeps (disjunction r) Any := by
  have hfactor : x.Keeps (factor r) Any := keeps_leftAssociative rfl (keeps_unary hr)
  have hterm : x.Keeps (term r) Any := keeps_leftAssociative rfl hfactor
  have hcomparison : x.Keeps (comparison r) Any := keeps_leftAssociative rfl hterm
  have hequality : x.Keeps (equality r) Any := keeps_leftAssociative rfl hcomparison
  exact keeps_leftAssociative rfl (keeps_leftAssociative rfl hequality)

theorem keeps_conditional : x.Keeps (conditional r) Any := by
  apply (keeps_disjunction hr).bind
  intro condition _
  apply (keeps_accept (by decide)).bind
  intro found _
  cases found with
  | none => exact .pure trivial
  | some _ =>
    apply hr.expression.bind
    intro thenBranch _
    exact (keeps_expect (by decide) _).bind fun _ _ => hr.conditional.bind fun elseBranch _ => .pure trivial

omit hr in
theorem keeps_assignTo (target : Expr) {equal : Token} (hequal : equal ∈ x.plain) (value : Expr) :
    x.Keeps (assignTo target equal value) Any := by
  cases target with
  | «variable» use => exact (keeps_reference _).bind fun _ _ => .pure trivial
  | get object name => exact .pure trivial
  | _ => exact (keeps_report (List.mem_append_left _ hequal) _).bind fun _ _ => .pure trivial

theorem keeps_expression : x.Keeps (expression r) Any := by
  apply (keeps_conditional hr).bind
  intro target _
  apply (keeps_accept (by decide)).bind
  intro found hfound
  cases found with
  | none => exact .pure trivial
  | some equal => exact hr.expression.bind fun value _ => keeps_assignTo target (hfound equal rfl) value

end Rules

theorem keeps_rules (levels : Nat) : x.KeepsRules (rules levels) := by
  induction levels with
  | zero => exact ⟨.throw _, .throw _, .throw _⟩
  | succ levels ih => exact ⟨keeps_expression ih, keeps_conditional ih, keeps_unary ih⟩

/-! ## Skipping up to the semicolon -/

theorem resume_semicolon : resume x.semicolon x.behind = x.behind := by
  rcases x.behind with _ | ⟨t, rest⟩
  · rfl
  · simp [resume, x.ends]

/-- Behind plain tokens reading resumes after the semicolon. -/
theorem resume_plain {previous : Token} (hprevious : previous.Plain) {left : List Token} (hleft : left <:+ x.plain) :
    resume previous (left ++ x.semicolon :: x.behind) = x.behind := by
  induction left generalizing previous with
  | nil =>
    have hsemicolon : x.semicolon.kind.startsStatement = false := by rw [x.ends]; rfl
    simp [resume, hprevious.semicolon, hsemicolon, resume_semicolon]
  | cons t rest ih =>
    have ht : t.Plain := x.allPlain t (hleft.subset List.mem_cons_self)
    simp only [List.cons_append, resume]
    rw [if_neg (by simp [hprevious.semicolon, ht.starts])]
    exact ih ht ((List.suffix_cons t rest).trans hleft)

/-- Wherever reading was given up, it resumes behind the semicolon. -/
theorem Holds.synchronize {before : List SyntaxError} {s : ParserState} (h : x.Holds before s) :
    Parser.synchronize s = { s with tokens := x.behind } := by
  obtain ⟨⟨left, hleft, htokens⟩, -⟩ := h
  obtain ⟨tokens, endLine, loopDepth, nextId, errors⟩ := s
  simp only at htokens
  subst htokens
  cases left with
  | nil => simp [Parser.synchronize, resume_semicolon]
  | cons t rest =>
    have ht : t.Plain := x.allPlain t (hleft.subset List.mem_cons_self)
    simp [Parser.synchronize, resume_plain ht ((List.suffix_cons t rest).trans hleft)]

theorem accept_skips {kind : TokenKind} {f : Option Token → Parser β} {s : ParserState}
    (h : ∀ t ∈ s.tokens.head?, t.kind ≠ kind) : (accept kind >>= f) s = f none s :=
  bind_ok (acceptWhere_skips fun t ht => if_neg (by simpa using h t ht))

theorem expect_takes {kind : TokenKind} (what : String) {s : ParserState} {t : Token} {rest : List Token}
    (htokens : s.tokens = t :: rest) (hkind : t.kind = kind) : expect kind what s = .ok t { s with tokens := rest } :=
  bind_ok (acceptWhere_takes htokens (if_pos (by simpa using hkind)))

theorem expect_fails {kind : TokenKind} (what : String) {s : ParserState} {t : Token} {rest : List Token}
    (htokens : s.tokens = t :: rest) (hkind : t.kind ≠ kind) :
    expect kind what s = .error .reported { s with errors := s.errors ++ [⟨t, .expected what⟩] } := by
  have hnot : ∀ u ∈ s.tokens.head?, u.kind ≠ kind := by
    intro u hu
    obtain rfl : t = u := by simpa [htokens] using hu
    exact hkind
  rw [expect, accept_skips hnot]
  have hcurrent : s.tokens.head?.getD (.endOfInput s.endLine) = t := by
    rw [htokens]
    rfl
  show fail (s.tokens.head?.getD (.endOfInput s.endLine)) (.expected what) s = _
  rw [hcurrent]
  rfl

/-- What starts with none of the keywords of declarations is a statement. -/
theorem item_statement (r : Rules) {s : ParserState}
    (h : ∀ t ∈ s.tokens.head?, t.kind ≠ .classKeyword ∧ t.kind ≠ .funKeyword ∧ t.kind ≠ .varKeyword) :
    item r s = statement r s := by
  have hfun : seesFunctionDeclaration s = .ok false s := by
    obtain ⟨sees, hsees, hkeyword⟩ := seesFunctionDeclaration_eq s
    cases sees with
    | false => exact hsees
    | true =>
      obtain ⟨t, rest, htokens, hkind⟩ := hkeyword rfl
      exact absurd hkind (h t (by simp [htokens])).2.1
  calc item r s
    _ = (seesFunctionDeclaration >>= fun sees => if sees = true then advance >>= fun _ => functionDeclaration r
          else accept .varKeyword >>= fun found => if found.isSome = true then varDeclaration r else statement r) s :=
        accept_skips fun t ht => (h t ht).1
    _ = (accept .varKeyword >>= fun found => if found.isSome = true then varDeclaration r else statement r) s := by
        rw [bind_ok hfun]
        rfl
    _ = statement r s := accept_skips fun t ht => (h t ht).2.2

/-- A semicolon on its own is a statement. -/
theorem item_semicolon (r : Rules) {s : ParserState} {t : Token} {rest : List Token} (htokens : s.tokens = t :: rest)
    (ht : t.kind = .semicolon) : item r s = .ok .empty { s with tokens := rest } := by
  rw [item_statement r (by simp [htokens, ht]), statement, bind_current, htokens]
  simp only [List.head?_cons, Option.getD_some, ht]
  show (pure Stmt.empty : Parser Stmt) { s with tokens := s.tokens.tail } = _
  rw [htokens]
  rfl

/-- A plain token begins an expression, if anything. -/
theorem item_plain (r : Rules) {s : ParserState} {t : Token} {rest : List Token} (htokens : s.tokens = t :: rest)
    (ht : t.Plain) : item r s = expressionStatement r s := by
  have hstarts := ht.starts
  have hbrace := ht.leftBrace
  have hsemicolon := ht.semicolon
  have hitem : item r s = statement r s := by
    apply item_statement
    intro u hu
    obtain rfl : t = u := by simpa [htokens] using hu
    refine ⟨fun hkind => ?_, fun hkind => ?_, fun hkind => ?_⟩ <;> simp [hkind, TokenKind.startsStatement] at hstarts
  rw [hitem, statement, bind_current, htokens]
  simp only [List.head?_cons, Option.getD_some]
  cases hkind : t.kind <;> first | rfl | (rw [hkind] at hstarts hbrace hsemicolon; contradiction)

/-- The stretch is read as at most one statement, and then comes what is behind it. All errors are in it. -/
theorem declaration_stretch (x : Stretch) {levels : Nat} {s : ParserState}
    (htokens : s.tokens = x.plain ++ x.semicolon :: x.behind) (hlevels : s.tokens.length < levels) :
    ∃ o es next, (rules levels).declaration s =
        .ok o { s with tokens := x.behind, nextId := next, errors := s.errors ++ es } ∧
      (∀ e ∈ es, e.token ∈ x.plain ++ [x.semicolon]) ∧ s.nextId ≤ next := by
  obtain ⟨inner, rfl⟩ : ∃ inner, levels = inner + 1 := ⟨levels - 1, by omega⟩
  have hstart : x.Holds s.errors s := ⟨⟨x.plain, List.suffix_refl _, htokens⟩, [], by simp, by simp⟩
  -- Behind the stretch the state differs from the first only as stated.
  have hbehind (o : Option Stmt) {s' : ParserState} (hlater : Later s s') (h : x.Holds s.errors s')
      (hread : (rules (inner + 1)).declaration s = .ok o { s' with tokens := x.behind }) :
      ∃ o es next, (rules (inner + 1)).declaration s =
          .ok o { s with tokens := x.behind, nextId := next, errors := s.errors ++ es } ∧
        (∀ e ∈ es, e.token ∈ x.plain ++ [x.semicolon]) ∧ s.nextId ≤ next := by
    obtain ⟨es, herrors, hes⟩ := h.errors
    refine ⟨o, es, s'.nextId, ?_, hes, hlater.nextId⟩
    rw [hread, hlater.endLine, hlater.loopDepth, herrors]
  have hskipped {s' : ParserState} (hitem : item (rules inner) s = .error .reported s') (h : x.Holds s.errors s') :
      (rules (inner + 1)).declaration s = .ok none { s' with tokens := x.behind } := by
    show orSkip (item (rules inner)) s = _
    simp only [orSkip, hitem, h.synchronize]
  by_cases hplain : x.plain = []
  · -- Without plain tokens there is an empty statement.
    rw [hplain, List.nil_append] at htokens
    have hitem := item_semicolon (rules inner) htokens x.ends
    refine ⟨some .empty, [], s.nextId, ?_, by simp, Nat.le_refl _⟩
    show orSkip (item (rules inner)) s = _
    simp only [orSkip, hitem, List.append_nil]
  · obtain ⟨t, rest, hcons⟩ := List.exists_cons_of_ne_nil hplain
    rw [hcons, List.cons_append] at htokens
    have ht := x.allPlain t (hcons ▸ List.mem_cons_self)
    have hitem := item_plain (rules inner) htokens ht
    have hends := expression_ends (sound_rules inner) (Nat.le_of_lt_succ hlevels)
    have hkept := keeps_expression (keeps_rules inner) s.errors s hstart
    have hstatement : expressionStatement (rules inner) s = (expression (rules inner) >>= fun value =>
        expect .semicolon "';' after expression" >>= fun _ => pure (.expression value)) s := rfl
    simp only [bind_eq_match] at hstatement
    cases hread : expression (rules inner) s with
    | error e s₁ =>
      rw [hread] at hends hkept hstatement
      obtain ⟨hlater, rfl, -⟩ := hends
      exact hbehind none hlater hkept (hskipped (hitem.trans hstatement) hkept)
    | ok value s₁ =>
      rw [hread] at hends hkept hstatement
      obtain ⟨hlater, -⟩ := hends
      obtain ⟨hholds, -⟩ := hkept
      obtain ⟨left, hleft, hnext⟩ := hholds.tokens
      cases left with
      | nil =>
        simp only [expect_takes _ hnext x.ends] at hstatement
        apply hbehind (some (.expression value)) hlater hholds
        show orSkip (item (rules inner)) s = _
        simp only [orSkip, hitem, hstatement]
        rfl
      | cons u left =>
        have hu : u ∈ x.plain := hleft.subset List.mem_cons_self
        simp only [expect_fails _ hnext (x.allPlain u hu).semicolon] at hstatement
        have hreported : x.Kept s.errors Any (report u (.expected "';' after expression") s₁) :=
          keeps_report (List.mem_append_left _ hu) _ s.errors s₁ hholds
        exact hbehind none (hlater.trans (report_later u _ s₁)) hreported.1 (hskipped (hitem.trans hstatement) hreported.1)

end Stretch

/-! ## Programs with a stretch in the middle -/

namespace Parse

/-- What a piece is read as on its own it is read as in front of other tokens. -/
theorem piece_reads {piece : List Token} {first middle : NodeId} {statement : Stmt}
    (hderives : Derives (.symbol (.declaration false)) piece) (hopen : ∀ t ∈ piece, t.kind ≠ .endOfInput)
    (hread : ofTokens first piece = ⟨[statement], [], middle⟩) :
    Reads 1 (fun n _ => (rules n).declaration) false ElseFree piece first (some statement) middle := by
  obtain ⟨_, middle', ⟨statement', rfl⟩, hreads⟩ :=
    (complete (piece.length + 1)).declaration false piece (Nat.lt_succ_self _) hderives first
  have hnonempty : piece ≠ [] := by
    obtain ⟨t, us, rfl, -⟩ := starts_declaration hderives
    exact List.cons_ne_nil t us
  have hdelimited : (delimited piece).1 = piece :=
    List.takeWhile_eq_self_iff.2 fun t ht => by simpa using hopen t ht
  have halone : ofTokens first piece = ⟨[statement'], [], middle'⟩ :=
    ofTokens_of_reads (by
      rw [hdelimited, ← List.append_nil piece]
      exact program_cons hreads (program_nil middle') hnonempty nofun)
  rw [hread] at halone
  obtain ⟨hsame, -, rfl⟩ := Parse.mk.inj halone
  obtain rfl := (List.cons.inj hsame).1
  exact hreads

theorem Pieces.nonempty_elseFree {first next : NodeId} {pieces : List (List Token)} {statements : List Stmt}
    (h : Pieces first pieces statements next) {rest : List Token} (hrest : ElseFree rest) :
    ElseFree (pieces.flatten ++ rest) := by
  cases h with
  | nil => exact hrest
  | cons hderives _ _ =>
    obtain ⟨t, us, rfl, -, helse⟩ := starts_declaration hderives
    exact fun u hu => Option.some.inj hu ▸ helse

/-- The pieces are read one by one, and then the tokens behind them. -/
theorem Pieces.program {first next : NodeId} {pieces : List (List Token)} {statements : List Stmt}
    (h : Pieces first pieces statements next) (hopen : ∀ piece ∈ pieces, ∀ t ∈ piece, t.kind ≠ .endOfInput)
    (levels rounds : Nat) {s : ParserState} {rest : List Token} (hrest : ElseFree rest)
    (htokens : s.tokens = pieces.flatten ++ rest) (hfirst : s.nextId = first) (hlevels : s.tokens.length < levels)
    (hrounds : s.tokens.length ≤ rounds) {tail : List Stmt} {s' : ParserState}
    (htail : Grammar.program (rules levels) rest.length { s with tokens := rest, nextId := next } = .ok tail s') :
    Grammar.program (rules levels) rounds s = .ok (statements ++ tail) s' := by
  have hloop := collecting_program (rules levels)
  induction h generalizing s rounds with
  | nil id =>
    obtain rfl : s.tokens = rest := htokens
    subst hfirst
    have hsame := hloop.rounds (fun s hmore hs => rules_declaration_shorter (Nat.lt_of_le_of_lt hs hlevels) hmore)
      (Nat.le_refl _) hrounds (Nat.le_refl _)
    exact hsame.trans htail
  | @cons first middle next piece pieces statement statements hderives hread hs ih =>
    have hreads := piece_reads hderives (hopen piece List.mem_cons_self) hread
    rw [List.flatten_cons, List.append_assoc] at htokens
    have hfirst : (rules levels).declaration s =
        .ok (some statement) { s with tokens := pieces.flatten ++ rest, nextId := middle } :=
      hreads levels levels s (pieces.flatten ++ rest)
        ⟨htokens, hlevels, hlevels, hfirst, nofun, hs.nonempty_elseFree hrest⟩
    obtain ⟨t, us, rfl, -⟩ := starts_declaration hderives
    have hmore : s.tokens ≠ [] := by simp [htokens]
    rw [htokens, List.length_append, List.length_cons] at hlevels hrounds
    obtain ⟨rounds, rfl⟩ : ∃ n, rounds = n + 1 := ⟨rounds - 1, by omega⟩
    have hothers : Grammar.program (rules levels) rounds
        { s with tokens := pieces.flatten ++ rest, nextId := middle } = .ok (statements ++ tail) s' :=
      ih (fun other hother => hopen other (List.mem_cons_of_mem _ hother)) rounds rfl rfl (by simp only; omega)
        (by simp only; omega) htail
    exact hloop.round hmore hfirst hothers

/-- Tokens that do not close the input are put in front of the others. -/
theorem delimited_append {front : List Token} (h : ∀ t ∈ front, t.kind ≠ .endOfInput) (tokens : List Token) :
    (delimited (front ++ tokens)).1 = front ++ (delimited tokens).1 ∧
      (tokens ≠ [] → (delimited (front ++ tokens)).2 = (delimited tokens).2) := by
  constructor
  · simp only [delimited]
    apply List.takeWhile_append_of_pos
    intro t ht
    simpa using h t ht
  · intro hmore
    have hnone : front.find? (fun t => t.kind == .endOfInput) = none := by
      rw [List.find?_eq_none]
      intro t ht
      simpa using h t ht
    simp only [delimited, List.find?_append, hnone, Option.none_or, List.getLast?_append_of_ne_nil front hmore]

/-- Behind other errors tokens are read as they are on their own. -/
theorem program_alone (levels rounds line : Nat) (middle : NodeId) (es : List SyntaxError) (tokens : List Token)
    (hlevels : (delimited tokens).1.length < levels) (hrounds : (delimited tokens).1.length ≤ rounds)
    (hline : tokens ≠ [] → line = (delimited tokens).2) :
    ∃ s, Grammar.program (rules levels) rounds ⟨(delimited tokens).1, line, 0, middle, es⟩ =
        .ok (ofTokens middle tokens).statements s ∧
      s.errors = es ++ (ofTokens middle tokens).errors ∧ s.nextId = (ofTokens middle tokens).nextId := by
  by_cases hempty : tokens = []
  · subst hempty
    exact ⟨⟨[], line, 0, middle, es⟩, (collecting_program _).stop _ _ rfl, (List.append_nil es).symm, rfl⟩
  · rw [hline hempty]
    let length := (delimited tokens).1.length
    obtain ⟨statements, s, hread, -, -⟩ :=
      program_finishes (length + 1) length (s := start middle tokens) (Nat.lt_succ_self _) (Nat.le_refl _)
    have hagrees := program_agrees (length + 1) es (s := start middle tokens) (Nat.lt_succ_self _)
      hlevels (Nat.le_refl length) hrounds
    rw [hread] at hagrees
    rw [ofTokens_of_ok hread]
    refine ⟨s.behind es, ?_, rfl, rfl⟩
    simpa only [ParserState.behind, outcomeBehind, start, List.append_nil] using hagrees

/-- Behind a program without errors, tokens up to a semicolon among which no statement ends or starts and no body opens
or closes are read as at most one statement. Their errors are at them, and the tokens behind the semicolon are read as
they are on their own, with the ids that come next. -/
theorem recovers_behind_semicolon (firstId : NodeId) {before plain behind : List Token} {semicolon : Token}
    (hbefore : (ofTokens firstId before).errors = []) (hplain : ∀ t ∈ plain, t.Plain)
    (helse : ∀ t ∈ plain.head?, t.kind ≠ .elseKeyword) (hsemicolon : semicolon.kind = .semicolon) :
    ∃ (o : Option Stmt) (es : List SyntaxError) (middle : NodeId),
      (∀ e ∈ es, e.token ∈ plain ++ [semicolon]) ∧ (ofTokens firstId before).nextId ≤ middle ∧
      ofTokens firstId ((delimited before).1 ++ plain ++ [semicolon] ++ behind) =
        ⟨(ofTokens firstId before).statements ++ o.toList ++ (ofTokens middle behind).statements,
          es ++ (ofTokens middle behind).errors, (ofTokens middle behind).nextId⟩ := by
  obtain ⟨pieces, statements, next, hpieces, hread, hparse⟩ :=
    ofTokens_of_derives firstId ((ofTokens_sound firstId before).derives hbefore)
  rw [hparse]
  let x : Stretch := ⟨plain, semicolon, (delimited behind).1, hplain, hsemicolon⟩
  have hopen : ∀ t ∈ (delimited before).1 ++ plain ++ [semicolon], t.kind ≠ .endOfInput := by
    intro t ht
    simp only [List.mem_append, List.mem_singleton] at ht
    rcases ht with (ht | ht) | rfl
    · simpa using List.mem_takeWhile_imp ht
    · exact (hplain t ht).endOfInput
    · simp [hsemicolon]
  obtain ⟨hbody, hline⟩ := delimited_append hopen behind
  generalize hwhole : (delimited before).1 ++ plain ++ [semicolon] ++ behind = whole at hbody hline
  have htokens : (delimited whole).1 = pieces.flatten ++ (plain ++ semicolon :: (delimited behind).1) := by
    rw [hbody, hpieces]
    simp
  let length := (delimited whole).1.length
  have hlength : plain.length + (delimited behind).1.length + 1 ≤ length := by
    simp only [length, htokens, List.length_append, List.length_cons]
    omega
  -- The stretch is read from the state behind the program before it.
  let s₁ : ParserState := ⟨plain ++ semicolon :: (delimited behind).1, (delimited whole).2, 0, next, []⟩
  have hlevels₁ : s₁.tokens.length < length + 1 := by
    simp only [s₁, List.length_append, List.length_cons]
    omega
  obtain ⟨o, es, middle, hstretch, hes, hmiddle⟩ := x.declaration_stretch (s := s₁) rfl hlevels₁
  -- What is behind the stretch is read from the state after it.
  obtain ⟨s₃, hrest, herrors, hnext⟩ := program_alone (length + 1)
    (plain.length + (delimited behind).1.length) (delimited whole).2 middle es behind (by omega) (by omega) hline
  have htail : Grammar.program (rules (length + 1)) (plain ++ semicolon :: (delimited behind).1).length s₁ =
      .ok (o.toList ++ (ofTokens middle behind).statements) s₃ := by
    have hmore : s₁.tokens ≠ [] := by simp [s₁]
    rw [List.length_append, List.length_cons, ← Nat.add_assoc]
    exact (collecting_program _).round hmore hstretch hrest
  refine ⟨o, es, middle, hes, hmiddle, ?_⟩
  have hfree : ElseFree (plain ++ semicolon :: (delimited behind).1) := by
    cases plain with
    | nil => simp [ElseFree, hsemicolon]
    | cons t rest => exact fun u hu => helse u hu
  have hall := hread.program (open_of_delimited hpieces) (length + 1) length (s := start firstId whole) hfree htokens rfl
    (Nat.lt_succ_self _) (Nat.le_refl _) htail
  rw [ofTokens_of_ok hall, herrors, hnext, List.append_assoc]

/-- `a; * b ); c;` -/
theorem recovers_behind_semicolon_operand :
    (ofTokens 0 [⟨.identifier, "a", none, 1⟩, ⟨.semicolon, ";", none, 1⟩]).errors = [] ∧
      ∃ (o : Option Stmt) (es : List SyntaxError) (middle : NodeId),
        (∀ e ∈ es, e.token ∈ [⟨.star, "*", none, 1⟩, ⟨.identifier, "b", none, 1⟩, ⟨.rightParen, ")", none, 1⟩] ++
          [⟨.semicolon, ";", none, 1⟩]) ∧
        (ofTokens 0 [⟨.identifier, "a", none, 1⟩, ⟨.semicolon, ";", none, 1⟩]).nextId ≤ middle ∧
        ofTokens 0 ([⟨.identifier, "a", none, 1⟩, ⟨.semicolon, ";", none, 1⟩] ++
            [⟨.star, "*", none, 1⟩, ⟨.identifier, "b", none, 1⟩, ⟨.rightParen, ")", none, 1⟩] ++
            [⟨.semicolon, ";", none, 1⟩] ++ [⟨.identifier, "c", none, 2⟩, ⟨.semicolon, ";", none, 2⟩]) =
          ⟨(ofTokens 0 [⟨.identifier, "a", none, 1⟩, ⟨.semicolon, ";", none, 1⟩]).statements ++ o.toList ++
              (ofTokens middle [⟨.identifier, "c", none, 2⟩, ⟨.semicolon, ";", none, 2⟩]).statements,
            es ++ (ofTokens middle [⟨.identifier, "c", none, 2⟩, ⟨.semicolon, ";", none, 2⟩]).errors,
            (ofTokens middle [⟨.identifier, "c", none, 2⟩, ⟨.semicolon, ";", none, 2⟩]).nextId⟩ :=
  ⟨rfl, recovers_behind_semicolon 0 rfl (by decide) (by decide) rfl⟩

end Parse

end TreeWalk
