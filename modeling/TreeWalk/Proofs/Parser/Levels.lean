import TreeWalk.Proofs.Sequencing
import TreeWalk.Syntax.Grammar

/-!
# Being prepared for deeper nesting

A parser that is prepared for more levels does what one for fewer levels does, as long as these were
enough. Nor do the errors recorded so far make a difference: they only stand in front of the new ones.
-/

namespace TreeWalk

open TreeWalk.Parser TreeWalk.Grammar

/-- The state with other errors in front of its own. -/
def ParserState.behind (es : List SyntaxError) (s : ParserState) : ParserState := { s with errors := es ++ s.errors }

/-- The outcome with other errors in front of its own. -/
def outcomeBehind {α : Type} (es : List SyntaxError) :
    EStateM.Result GivenUp ParserState α → EStateM.Result GivenUp ParserState α
  | .ok a s => .ok a (s.behind es)
  | .error e s => .error e (s.behind es)

/-- Unless the nesting is too deep for the first parser, the second does the same, whatever errors there
were before. -/
def Deepens {α : Type} (p q : Parser α) : Prop :=
  ∀ s, (∃ s', p s = .error .tooDeep s') ∨ ∀ es, q (s.behind es) = outcomeBehind es (p s)

namespace Deepens

variable {α β : Type} {p q : Parser α}

protected theorem pure (a : α) : Deepens (Pure.pure a) (Pure.pure a) := fun _ => .inr fun _ => rfl

protected theorem throw (e : GivenUp) : Deepens (MonadExcept.throw e : Parser α) (MonadExcept.throw e) :=
  fun _ => .inr fun _ => rfl

theorem bind {f g : α → Parser β} (hp : Deepens p q) (hf : ∀ a, Deepens (f a) (g a)) :
    Deepens (p >>= f) (q >>= g) := by
  intro s
  simp only [bind_eq_match]
  rcases hp s with ⟨s', hdeep⟩ | hsame
  · left
    exact ⟨s', by rw [hdeep]⟩
  · cases h : p s with
    | ok a s' =>
      rcases hf a s' with hdeep | hrest
      · left
        exact hdeep
      · right
        intro es
        rw [hsame es, h]
        exact hrest es
    | error e s' =>
      right
      intro es
      rw [hsame es, h]
      rfl

theorem map {f : α → β} (hp : Deepens p q) : Deepens (f <$> p) (f <$> q) := hp.bind fun a => .pure (f a)

theorem ite {c : Bool} {p' q' : Parser α} (hp : Deepens p q) (hp' : Deepens p' q') :
    Deepens (if c then p else p') (if c then q else q') := by
  cases c with
  | true => exact hp
  | false => exact hp'

end Deepens

section Parsers

variable {α : Type}

/-! ## Single tokens -/

theorem current_deepens : Deepens current current := fun _ => .inr fun _ => rfl

theorem remaining_deepens : Deepens remaining remaining := fun _ => .inr fun _ => rfl

theorem atEnd_deepens : Deepens atEnd atEnd := fun _ => .inr fun _ => rfl

theorem sees_deepens (kind : TokenKind) : Deepens (sees kind) (sees kind) := fun _ => .inr fun _ => rfl

theorem advance_deepens : Deepens advance advance := fun _ => .inr fun _ => rfl

theorem acceptWhere_deepens (choose : Token → Option α) : Deepens (acceptWhere choose) (acceptWhere choose) := by
  intro s
  right
  intro es
  obtain ⟨tokens, _⟩ := s
  cases tokens with
  | nil => rfl
  | cons t rest =>
    simp only [acceptWhere, ParserState.behind]
    cases choose t <;> rfl

theorem accept_deepens (kind : TokenKind) : Deepens (accept kind) (accept kind) := acceptWhere_deepens _

theorem report_deepens (token : Token) (cause : SyntaxCause) : Deepens (report token cause) (report token cause) :=
  fun s => .inr fun es => by simp [report, ParserState.behind, outcomeBehind]

theorem fail_deepens (token : Token) (cause : SyntaxCause) :
    Deepens (fail token cause : Parser α) (fail token cause) :=
  (report_deepens token cause).bind fun _ => .throw _

theorem expect_deepens (kind : TokenKind) (what : String) : Deepens (expect kind what) (expect kind what) := by
  apply (accept_deepens kind).bind
  intro found
  cases found with
  | some t => exact .pure t
  | none => exact current_deepens.bind fun t => fail_deepens t _

theorem expectName_deepens (what : String) : Deepens (expectName what) (expectName what) :=
  (expect_deepens .identifier what).bind fun _ => .pure _

theorem synchronize_behind (es : List SyntaxError) (s : ParserState) :
    synchronize (s.behind es) = (synchronize s).behind es := by
  obtain ⟨tokens, _⟩ := s
  cases tokens <;> rfl

theorem orSkip_deepens {p q : Parser α} (h : Deepens p q) : Deepens (orSkip p) (orSkip q) := by
  intro s
  unfold orSkip
  rcases h s with ⟨s', hdeep⟩ | hsame
  · left
    exact ⟨s', by rw [hdeep]⟩
  · cases hp : p s with
    | ok a s' =>
      right
      intro es
      rw [hsame es, hp]
      rfl
    | error e s' =>
      cases e with
      | reported =>
        right
        intro es
        rw [hsame es, hp]
        simp only [outcomeBehind, synchronize_behind]
      | tooDeep =>
        left
        exact ⟨s', rfl⟩

theorem fresh_deepens : Deepens fresh fresh := fun _ => .inr fun _ => rfl

theorem reference_deepens (name : Name) : Deepens (reference name) (reference name) :=
  fresh_deepens.bind fun _ => .pure _

theorem atLoopDepth_deepens (depth : Nat → Nat) {p q : Parser α} (h : Deepens p q) :
    Deepens (atLoopDepth depth p) (atLoopDepth depth q) := by
  intro s
  unfold atLoopDepth
  rcases h { s with loopDepth := depth s.loopDepth } with ⟨s', hdeep⟩ | hsame
  · left
    exact ⟨_, by rw [hdeep]⟩
  · right
    intro es
    have hinner := hsame es
    simp only [ParserState.behind] at hinner ⊢
    rw [hinner]
    cases p { s with loopDepth := depth s.loopDepth } <;> rfl

theorem insideLoop_deepens : Deepens insideLoop insideLoop := fun _ => .inr fun _ => rfl

/-! ## Repetition -/

/-- An item, and the others if a comma is behind it. -/
def commaRound (item : Parser α) (others : Parser (List α)) : Parser (List α) := do
  let first ← item
  match ← accept .comma with
  | none => pure [first]
  | some _ => do
    let rest ← others
    pure (first :: rest)

theorem commaRound_deepens {item item' : Parser α} {others others' : Parser (List α)} (h : Deepens item item')
    (h' : Deepens others others') : Deepens (commaRound item others) (commaRound item' others') := by
  apply h.bind
  intro first
  apply (accept_deepens .comma).bind
  intro found
  cases found with
  | none => exact .pure _
  | some _ => exact h'.bind fun _ => .pure _

theorem commaItems_deepens {item item' : Parser α} (h : Deepens item item') (tooMany : Option SyntaxCause)
    (bound count : Nat) : Deepens (commaItems item tooMany bound count) (commaItems item' tooMany bound count) := by
  induction bound generalizing count with
  | zero => exact .throw _
  | succ bound ih =>
    have hround := commaRound_deepens h (ih (count + 1))
    unfold commaItems
    cases tooMany with
    | none => exact hround
    | some cause =>
      apply Deepens.ite
      · exact current_deepens.bind fun t => (report_deepens t cause).bind fun _ => hround
      · exact hround

theorem commaList_deepens {item item' : Parser α} (h : Deepens item item') (tooMany : Option SyntaxCause)
    (closing : TokenKind) : Deepens (commaList item tooMany closing) (commaList item' tooMany closing) := by
  apply (sees_deepens closing).bind
  intro closed
  apply Deepens.ite
  · exact .pure _
  · exact remaining_deepens.bind fun n => commaItems_deepens h tooMany (n + 1) 0

theorem leftGrouped_deepens {κ : Type} (operator : TokenKind → Option κ) (build : Expr → Operator κ → Expr → Expr)
    {operand operand' : Parser Expr} (h : Deepens operand operand') (bound : Nat) (left : Expr) :
    Deepens (leftGrouped operator build operand bound left) (leftGrouped operator build operand' bound left) := by
  induction bound generalizing left with
  | zero => exact .pure left
  | succ bound ih =>
    apply (acceptWhere_deepens _).bind
    intro found
    cases found with
    | none => exact .pure left
    | some op => exact h.bind fun right => ih (build left op right)

theorem leftAssociative_deepens {κ : Type} (operator : TokenKind → Option κ)
    (build : Expr → Operator κ → Expr → Expr) {operand operand' : Parser Expr} (h : Deepens operand operand') :
    Deepens (leftAssociative operator build operand) (leftAssociative operator build operand') :=
  h.bind fun first => remaining_deepens.bind fun n => leftGrouped_deepens operator build h n first

theorem declarations_deepens {declaration declaration' : Parser (Option Stmt)}
    (h : Deepens declaration declaration') (bound : Nat) :
    Deepens (declarations declaration bound) (declarations declaration' bound) := by
  induction bound with
  | zero => exact .pure []
  | succ bound ih =>
    apply (sees_deepens .rightBrace).bind
    intro closed
    apply atEnd_deepens.bind
    intro ended
    apply Deepens.ite
    · exact .pure []
    · exact h.bind fun first => ih.bind fun rest => .pure (first.toList ++ rest)

end Parsers

/-! ## The grammar -/

/-- The second rules are prepared for all that the first are prepared for. -/
structure Rules.Deepens (r r' : Rules) : Prop where
  expression : TreeWalk.Deepens r.expression r'.expression
  conditional : TreeWalk.Deepens r.conditional r'.conditional
  unary : TreeWalk.Deepens r.unary r'.unary
  statement : TreeWalk.Deepens r.statement r'.statement
  declaration : TreeWalk.Deepens r.declaration r'.declaration

section Grammar

variable {r r' : Rules} (hr : r.Deepens r')
include hr

theorem block_deepens : Deepens (block r) (block r') :=
  remaining_deepens.bind fun n => (declarations_deepens hr.declaration n).bind fun body =>
    (expect_deepens .rightBrace _).bind fun _ => .pure body

theorem function_deepens : Deepens (function r) (function r') := by
  apply (expect_deepens .leftParen _).bind
  intro _
  apply (commaList_deepens (expectName_deepens _) _ .rightParen).bind
  intro params
  apply (expect_deepens .rightParen _).bind
  intro _
  apply (expect_deepens .leftBrace _).bind
  intro _
  exact (atLoopDepth_deepens _ (block_deepens hr)).bind fun body => .pure _

/-! ### Expressions -/

theorem primary_deepens : Deepens (primary r) (primary r') := by
  apply current_deepens.bind
  intro t
  have hother (kind : TokenKind) : Deepens
      (if lacksLeftOperand kind then
        advance >>= fun _ => report t .missingLeftOperand >>= fun _ => r.expression >>= fun _ =>
          (throw .reported : Parser Expr)
      else fail t .expectedExpression)
      (if lacksLeftOperand kind then
        advance >>= fun _ => report t .missingLeftOperand >>= fun _ => r'.expression >>= fun _ => throw .reported
      else fail t .expectedExpression) := by
    apply Deepens.ite
    · exact advance_deepens.bind fun _ => (report_deepens t _).bind fun _ => hr.expression.bind fun _ => .throw _
    · exact fail_deepens t _
  cases t.kind with
  | falseKeyword | trueKeyword | nilKeyword | number | string => exact advance_deepens.bind fun _ => .pure _
  | thisKeyword => exact advance_deepens.bind fun _ => fresh_deepens.bind fun _ => .pure _
  | parentKeyword =>
    apply advance_deepens.bind
    intro _
    apply (expect_deepens .dot _).bind
    intro _
    exact (expectName_deepens _).bind fun method => fresh_deepens.bind fun _ => .pure _
  | identifier => exact advance_deepens.bind fun _ => (reference_deepens _).bind fun _ => .pure _
  | leftParen =>
    apply advance_deepens.bind
    intro _
    exact hr.expression.bind fun inner => (expect_deepens .rightParen _).bind fun _ => .pure _
  | funKeyword => exact advance_deepens.bind fun _ => (function_deepens hr).bind fun _ => .pure _
  | leftBracket =>
    apply advance_deepens.bind
    intro _
    exact (commaList_deepens hr.expression none .rightBracket).bind fun elements =>
      (expect_deepens .rightBracket _).bind fun _ => .pure _
  | _ => exact hother _

theorem suffix_deepens (target : Expr) (t : Token) : Deepens (suffix r target t) (suffix r' target t) := by
  unfold suffix
  split
  · exact (commaList_deepens hr.expression _ .rightParen).bind fun arguments =>
      (expect_deepens .rightParen _).bind fun closing => .pure _
  · exact hr.expression.bind fun position => (expect_deepens .rightBracket _).bind fun _ => .pure _
  · exact (expectName_deepens _).bind fun name => .pure _

theorem suffixes_deepens (bound : Nat) (target : Expr) : Deepens (suffixes r bound target) (suffixes r' bound target) := by
  induction bound generalizing target with
  | zero => exact .pure target
  | succ bound ih =>
    apply (acceptWhere_deepens _).bind
    intro found
    cases found with
    | none => exact .pure target
    | some t => exact (suffix_deepens hr target t).bind fun target => ih target

theorem call_deepens : Deepens (call r) (call r') :=
  (primary_deepens hr).bind fun target => remaining_deepens.bind fun n => suffixes_deepens hr n target

theorem unary_deepens : Deepens (unary r) (unary r') := by
  apply (acceptWhere_deepens _).bind
  intro found
  cases found with
  | some op => exact hr.unary.bind fun operand => .pure _
  | none => exact call_deepens hr

theorem disjunction_deepens : Deepens (disjunction r) (disjunction r') := by
  -- From the tightest operators to the loosest, each level reads its operands on the level below.
  have hfactor : Deepens (factor r) (factor r') := leftAssociative_deepens _ _ (unary_deepens hr)
  have hterm : Deepens (term r) (term r') := leftAssociative_deepens _ _ hfactor
  have hcomparison : Deepens (comparison r) (comparison r') := leftAssociative_deepens _ _ hterm
  have hequality : Deepens (equality r) (equality r') := leftAssociative_deepens _ _ hcomparison
  exact leftAssociative_deepens _ _ (leftAssociative_deepens _ _ hequality)

theorem conditional_deepens : Deepens (conditional r) (conditional r') := by
  apply (disjunction_deepens hr).bind
  intro condition
  apply (accept_deepens .question).bind
  intro found
  cases found with
  | none => exact .pure condition
  | some _ =>
    apply hr.expression.bind
    intro thenBranch
    exact (expect_deepens .colon _).bind fun _ => hr.conditional.bind fun elseBranch => .pure _

omit hr in
theorem assignTo_deepens (target : Expr) (equal : Token) (value : Expr) :
    Deepens (assignTo target equal value) (assignTo target equal value) := by
  cases target with
  | «variable» use => exact (reference_deepens _).bind fun _ => .pure _
  | get object name => exact .pure _
  | _ => exact (report_deepens equal _).bind fun _ => .pure _

theorem expression_deepens : Deepens (expression r) (expression r') := by
  apply (conditional_deepens hr).bind
  intro target
  apply (accept_deepens .equal).bind
  intro found
  cases found with
  | none => exact .pure target
  | some equal => exact hr.expression.bind fun value => assignTo_deepens target equal value

/-! ### Statements -/

theorem varDeclaration_deepens : Deepens (varDeclaration r) (varDeclaration r') := by
  apply (expectName_deepens _).bind
  intro name
  apply (accept_deepens .equal).bind
  intro found
  cases found with
  | none => exact (expect_deepens .semicolon _).bind fun _ => .pure _
  | some _ => exact hr.expression.map.bind fun value => (expect_deepens .semicolon _).bind fun _ => .pure _

theorem functionDeclaration_deepens : Deepens (functionDeclaration r) (functionDeclaration r') :=
  (expectName_deepens _).bind fun _ => (function_deepens hr).bind fun _ => .pure _

theorem methods_deepens (bound : Nat) : Deepens (methods r bound) (methods r' bound) := by
  induction bound with
  | zero => exact .pure []
  | succ bound ih =>
    apply (sees_deepens .rightBrace).bind
    intro closed
    apply atEnd_deepens.bind
    intro ended
    apply Deepens.ite
    · exact .pure []
    · exact (expectName_deepens _).bind fun name => (function_deepens hr).bind fun body => ih.bind fun rest => .pure _

omit hr in
theorem parentClause_deepens : Deepens parentClause parentClause := by
  apply (acceptWhere_deepens _).bind
  intro found
  cases found with
  | none => exact .pure none
  | some _ => exact (expectName_deepens _).bind fun name => (reference_deepens name).bind fun _ => .pure _

theorem classDeclaration_deepens : Deepens (classDeclaration r) (classDeclaration r') := by
  apply (expectName_deepens _).bind
  intro name
  apply parentClause_deepens.bind
  intro parent
  apply (expect_deepens .leftBrace _).bind
  intro _
  exact remaining_deepens.bind fun n => (methods_deepens hr n).bind fun body =>
    (expect_deepens .rightBrace _).bind fun _ => .pure _

theorem expressionStatement_deepens : Deepens (expressionStatement r) (expressionStatement r') :=
  (expression_deepens hr).bind fun _ => (expect_deepens .semicolon _).bind fun _ => .pure _

theorem forInitializer_deepens : Deepens (forInitializer r) (forInitializer r') := by
  apply (accept_deepens .semicolon).bind
  intro found
  cases found with
  | some _ => exact .pure none
  | none =>
    apply (accept_deepens .varKeyword).bind
    intro found
    cases found with
    | some _ => exact (varDeclaration_deepens hr).map
    | none => exact hr.expression.bind fun value => (expect_deepens .semicolon _).bind fun _ => .pure _

theorem unlessClosed_deepens (closing : TokenKind) : Deepens (unlessClosed r closing) (unlessClosed r' closing) := by
  apply (sees_deepens closing).bind
  intro closed
  exact Deepens.ite (.pure none) hr.expression.map

theorem forStatement_deepens : Deepens (forStatement r) (forStatement r') := by
  apply (expect_deepens .leftParen _).bind
  intro _
  apply (forInitializer_deepens hr).bind
  intro initializer
  apply (unlessClosed_deepens hr .semicolon).bind
  intro condition
  apply (expect_deepens .semicolon _).bind
  intro _
  apply (unlessClosed_deepens hr .rightParen).bind
  intro increment
  apply (expect_deepens .rightParen _).bind
  intro _
  apply (atLoopDepth_deepens (· + 1) hr.statement).bind
  intro body
  cases initializer <;> exact .pure _

theorem ifStatement_deepens : Deepens (ifStatement r) (ifStatement r') := by
  apply (expect_deepens .leftParen _).bind
  intro _
  apply hr.expression.bind
  intro condition
  apply (expect_deepens .rightParen _).bind
  intro _
  apply hr.statement.bind
  intro thenBranch
  apply (accept_deepens .elseKeyword).bind
  intro found
  cases found with
  | none => exact .pure _
  | some _ => exact hr.statement.bind fun elseBranch => .pure _

theorem whileStatement_deepens : Deepens (whileStatement r) (whileStatement r') := by
  apply (expect_deepens .leftParen _).bind
  intro _
  apply hr.expression.bind
  intro condition
  exact (expect_deepens .rightParen _).bind fun _ => (atLoopDepth_deepens (· + 1) hr.statement).bind fun body => .pure _

omit hr in
theorem loopControl_deepens (keyword : Token) (word : String) :
    Deepens (loopControl keyword word) (loopControl keyword word) := by
  have hend : Deepens (expect .semicolon "';' after loop control" >>= fun _ => pure ())
      (expect .semicolon "';' after loop control" >>= fun _ => pure ()) :=
    (expect_deepens .semicolon _).bind fun _ => .pure ()
  apply insideLoop_deepens.bind
  intro inside
  exact Deepens.ite ((report_deepens keyword _).bind fun _ => hend) hend

theorem statement_deepens : Deepens (statement r) (statement r') := by
  apply current_deepens.bind
  intro t
  have hexpression := expressionStatement_deepens hr
  cases t.kind with
  | forKeyword => exact advance_deepens.bind fun _ => forStatement_deepens hr
  | ifKeyword => exact advance_deepens.bind fun _ => ifStatement_deepens hr
  | whileKeyword => exact advance_deepens.bind fun _ => whileStatement_deepens hr
  | printKeyword =>
    exact advance_deepens.bind fun _ => hr.expression.bind fun value => (expect_deepens .semicolon _).bind fun _ => .pure _
  | returnKeyword =>
    exact advance_deepens.bind fun _ => (unlessClosed_deepens hr .semicolon).bind fun value =>
      (expect_deepens .semicolon _).bind fun _ => .pure _
  | breakKeyword => exact advance_deepens.bind fun _ => (loopControl_deepens t _).bind fun _ => .pure _
  | continueKeyword => exact advance_deepens.bind fun _ => (loopControl_deepens t _).bind fun _ => .pure _
  | leftBrace => exact advance_deepens.bind fun _ => (block_deepens hr).bind fun body => .pure _
  | semicolon => exact advance_deepens.bind fun _ => .pure _
  | _ => exact hexpression

omit hr in
theorem seesFunctionDeclaration_deepens : Deepens seesFunctionDeclaration seesFunctionDeclaration := by
  intro s
  right
  intro es
  obtain ⟨tokens, _⟩ := s
  rcases tokens with _ | ⟨t, _ | ⟨name, rest⟩⟩ <;> rfl

theorem item_deepens : Deepens (item r) (item r') := by
  apply (accept_deepens .classKeyword).bind
  intro found
  cases found with
  | some _ => exact classDeclaration_deepens hr
  | none =>
    apply seesFunctionDeclaration_deepens.bind
    intro sees
    apply Deepens.ite
    · exact advance_deepens.bind fun _ => functionDeclaration_deepens hr
    · apply (accept_deepens .varKeyword).bind
      intro found
      cases found with
      | some _ => exact varDeclaration_deepens hr
      | none => exact statement_deepens hr

theorem program_deepens (bound : Nat) : Deepens (program r bound) (program r' bound) := by
  induction bound with
  | zero => exact .pure []
  | succ bound ih =>
    apply atEnd_deepens.bind
    intro ended
    apply Deepens.ite
    · exact .pure []
    · exact hr.declaration.bind fun first => ih.bind fun rest => .pure (first.toList ++ rest)

end Grammar

/-- Rules for more levels are prepared for all that rules for fewer are. -/
theorem rules_deepen {levels levels' : Nat} (h : levels ≤ levels') : (rules levels).Deepens (rules levels') := by
  induction levels generalizing levels' with
  | zero =>
    -- Rules for no levels give up at once.
    exact ⟨fun s => .inl ⟨s, rfl⟩, fun s => .inl ⟨s, rfl⟩, fun s => .inl ⟨s, rfl⟩, fun s => .inl ⟨s, rfl⟩,
      fun s => .inl ⟨s, rfl⟩⟩
  | succ levels ih =>
    obtain ⟨more, rfl⟩ : ∃ more, levels' = more + 1 := ⟨levels' - 1, by omega⟩
    have hr := ih (Nat.le_of_succ_le_succ h)
    exact ⟨expression_deepens hr, conditional_deepens hr, unary_deepens hr, statement_deepens hr,
      orSkip_deepens (item_deepens hr)⟩

end TreeWalk
