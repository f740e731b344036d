import TreeWalk.Proofs.Sequencing
import TreeWalk.Proofs.Syntax.Relabeling
import TreeWalk.Syntax.Grammar

/-!
# Reading on other lines and with other ids

Neither the lines of tokens nor the ids to give away make a difference to how they are read: from the same tokens
on other lines and with higher ids every parser reads the same, on these lines and with these ids.
-/

namespace TreeWalk

open TreeWalk.Parser TreeWalk.Grammar

def SyntaxError.relabel (r : Relabeling) (e : SyntaxError) : SyntaxError := { e with token := e.token.relabel r }

/-- The state in front of the same tokens on other lines, with higher ids to give away. -/
def ParserState.moved (ids : Nat) (line : Nat → Nat) (s : ParserState) : ParserState :=
  { s with
    tokens := s.tokens.map (Token.relabel (.moved ids line))
    endLine := line s.endLine
    nextId := s.nextId + ids
    errors := s.errors.map (SyntaxError.relabel (.moved ids line)) }

/-- The outcome on other lines and with higher ids, with the result that belongs there. -/
def outcomeMoved {α β : Type} (ids : Nat) (line : Nat → Nat) (f : α → β) :
    EStateM.Result GivenUp ParserState α → EStateM.Result GivenUp ParserState β
  | .ok a s => .ok (f a) (s.moved ids line)
  | .error e s => .error e (s.moved ids line)

/-- The second parser does on other lines and with higher ids what the first one does. -/
def Carries {α β : Type} (ids : Nat) (line : Nat → Nat) (f : α → β) (p : Parser α) (q : Parser β) : Prop :=
  ∀ s, q (s.moved ids line) = outcomeMoved ids line f (p s)

namespace Carries

variable {α β γ δ : Type} {ids : Nat} {line : Nat → Nat} {f : α → β} {g : γ → δ} {p : Parser α} {q : Parser β}

theorem pure {a : α} {b : β} (h : b = f a) : Carries ids line f (Pure.pure a) (Pure.pure b) := fun s => by
  rw [h]
  rfl

theorem bind {k : α → Parser γ} {k' : β → Parser δ} (hp : Carries ids line f p q)
    (hk : ∀ a, Carries ids line g (k a) (k' (f a))) : Carries ids line g (p >>= k) (q >>= k') := by
  intro s
  rw [bind_eq_match, bind_eq_match, hp s]
  cases p s with
  | ok a s' => exact hk a s'
  | error e s' => rfl

theorem throw (e : GivenUp) : Carries ids line f (MonadExcept.throw e) (MonadExcept.throw e) := fun _ => rfl

/-- The result is changed afterwards. -/
theorem map {h : α → γ} {h' : β → δ} (hp : Carries ids line f p q) (hsame : ∀ a, h' (f a) = g (h a)) :
    Carries ids line g (p >>= fun a => Pure.pure (h a)) (q >>= fun b => Pure.pure (h' b)) :=
  hp.bind fun a => .pure (hsame a)

theorem ite {c : Bool} {p' : Parser α} {q' : Parser β} (hp : c = true → Carries ids line f p q)
    (hp' : c = false → Carries ids line f p' q') : Carries ids line f (if c then p else p') (if c then q else q') := by
  cases c with
  | true => exact hp rfl
  | false => exact hp' rfl

end Carries

section Parsers

variable {α κ : Type} {ids : Nat} {line : Nat → Nat}

/-! ## Single tokens -/

theorem current_carries : Carries ids line (Token.relabel (.moved ids line)) current current := fun s => by
  obtain ⟨tokens, _⟩ := s
  cases tokens <;> rfl

theorem remaining_carries : Carries ids line id remaining remaining := fun s => by
  simp [remaining, ParserState.moved, outcomeMoved]

theorem atEnd_carries : Carries ids line id atEnd atEnd := fun s => by
  simp [atEnd, ParserState.moved, outcomeMoved]

theorem sees_carries (kind : TokenKind) : Carries ids line id (sees kind) (sees kind) := fun s => by
  obtain ⟨tokens, _⟩ := s
  cases tokens <;> rfl

theorem advance_carries : Carries ids line id advance advance := fun s => by
  simp [advance, ParserState.moved, outcomeMoved]

theorem acceptWhere_carries {choose : Token → Option α} {f : α → α}
    (h : ∀ t, choose (t.relabel (.moved ids line)) = (choose t).map f) :
    Carries ids line (Option.map f) (acceptWhere choose) (acceptWhere choose) := fun s => by
  obtain ⟨tokens, _⟩ := s
  cases tokens with
  | nil => rfl
  | cons t rest =>
    simp only [acceptWhere, ParserState.moved, List.map_cons, h]
    cases choose t <;> rfl

/-- A token is chosen by its kind, and kept. -/
theorem acceptKind_carries (wanted : TokenKind → Bool) :
    Carries ids line (Option.map (Token.relabel (.moved ids line)))
      (acceptWhere fun t => if wanted t.kind then some t else none)
      (acceptWhere fun t => if wanted t.kind then some t else none) := by
  refine acceptWhere_carries fun t => ?_
  rw [Token.relabel_kind]
  split <;> rfl

theorem accept_carries (kind : TokenKind) :
    Carries ids line (Option.map (Token.relabel (.moved ids line))) (accept kind) (accept kind) :=
  acceptKind_carries (· == kind)

/-- A token is chosen by its kind, and is an operator. -/
theorem acceptOperator_carries (operator : TokenKind → Option κ) :
    Carries ids line (Option.map (Operator.relabel (.moved ids line)))
      (acceptWhere fun t => (operator t.kind).map (⟨·, t.lexeme, t.line⟩))
      (acceptWhere fun t => (operator t.kind).map (⟨·, t.lexeme, t.line⟩)) := by
  refine acceptWhere_carries fun t => ?_
  rw [Token.relabel_kind]
  cases operator t.kind <;> rfl

theorem report_carries (t : Token) (cause : SyntaxCause) :
    Carries ids line id (report t cause) (report (t.relabel (.moved ids line)) cause) := fun s => by
  simp [report, ParserState.moved, outcomeMoved, SyntaxError.relabel]

theorem fail_carries (f : α → α) (t : Token) (cause : SyntaxCause) :
    Carries ids line f (fail t cause) (fail (t.relabel (.moved ids line)) cause) :=
  (report_carries t cause).bind fun _ => .throw _

theorem expect_carries (kind : TokenKind) (what : String) :
    Carries ids line (Token.relabel (.moved ids line)) (expect kind what) (expect kind what) := by
  refine (accept_carries kind).bind fun o => ?_
  cases o with
  | none => exact current_carries.bind fun t => fail_carries _ t _
  | some t => exact .pure rfl

theorem expectName_carries (what : String) :
    Carries ids line (Name.relabel (.moved ids line)) (expectName what) (expectName what) :=
  (expect_carries .identifier what).map fun _ => rfl

theorem resume_relabel (r : Relabeling) (previous : Token) (tokens : List Token) :
    resume (previous.relabel r) (tokens.map (Token.relabel r)) = (resume previous tokens).map (Token.relabel r) := by
  induction tokens generalizing previous with
  | nil => rfl
  | cons t rest ih =>
    simp only [List.map_cons, resume, Token.relabel_kind, ih]
    split <;> rfl

theorem synchronize_moved (s : ParserState) : synchronize (s.moved ids line) = (synchronize s).moved ids line := by
  obtain ⟨tokens, _⟩ := s
  cases tokens with
  | nil => rfl
  | cons t rest => simp [synchronize, ParserState.moved, resume_relabel]

theorem orSkip_carries {f : α → α} {p : Parser α} (hp : Carries ids line f p p) :
    Carries ids line (Option.map f) (orSkip p) (orSkip p) := fun s => by
  unfold orSkip
  rw [hp s]
  cases p s with
  | ok a s' => rfl
  | error e s' =>
    cases e with
    | reported => simp [outcomeMoved, synchronize_moved]
    | tooDeep => rfl

theorem fresh_carries : Carries ids line (· + ids) fresh fresh := fun s => by
  simp [fresh, ParserState.moved, outcomeMoved, Nat.add_right_comm]

theorem reference_carries (name : Name) :
    Carries ids line (Reference.relabel (.moved ids line)) (reference name) (reference (name.relabel (.moved ids line))) :=
  fresh_carries.map fun _ => rfl

theorem atLoopDepth_carries (depth : Nat → Nat) {f : α → α} {p : Parser α} (hp : Carries ids line f p p) :
    Carries ids line f (atLoopDepth depth p) (atLoopDepth depth p) := fun s => by
  unfold atLoopDepth
  have hinner := hp { s with loopDepth := depth s.loopDepth }
  simp only [ParserState.moved] at hinner ⊢
  rw [hinner]
  cases p { s with loopDepth := depth s.loopDepth } <;> rfl

theorem insideLoop_carries : Carries ids line id insideLoop insideLoop := fun _ => rfl

/-! ## Repetition -/

theorem commaItems_carries {f : α → α} {item : Parser α} (hitem : Carries ids line f item item)
    (tooMany : Option SyntaxCause) (bound count : Nat) :
    Carries ids line (List.map f) (commaItems item tooMany bound count) (commaItems item tooMany bound count) := by
  induction bound generalizing count with
  | zero => exact .throw _
  | succ bound ih =>
    rcases tooMany with _ | cause
    case' some =>
      refine Carries.ite (fun _ => current_carries.bind fun t => (report_carries t cause).bind fun _ => ?_) fun _ => ?_
    all_goals
      refine hitem.bind fun first => (accept_carries .comma).bind fun o => ?_
      cases o with
      | none => exact .pure rfl
      | some _ => exact (ih (count + 1)).map fun _ => rfl

theorem commaList_carries {f : α → α} {item : Parser α} (hitem : Carries ids line f item item)
    (tooMany : Option SyntaxCause) (closing : TokenKind) :
    Carries ids line (List.map f) (commaList item tooMany closing) (commaList item tooMany closing) := by
  refine (sees_carries closing).bind fun closed => Carries.ite (fun _ => .pure rfl) fun _ => ?_
  exact remaining_carries.bind fun n => commaItems_carries hitem tooMany (n + 1) 0

/-- Expressions are read on other lines as they are on their own. -/
abbrev CarriesExpr (ids : Nat) (line : Nat → Nat) (p q : Parser Expr) : Prop := Carries ids line (Expr.relabel (.moved ids line)) p q

theorem leftGrouped_carries {operator : TokenKind → Option κ} {build : Expr → Operator κ → Expr → Expr}
    (hbuild : ∀ left op right, build (left.relabel (.moved ids line)) (op.relabel (.moved ids line))
      (right.relabel (.moved ids line)) = (build left op right).relabel (.moved ids line))
    {operand : Parser Expr} (hoperand : CarriesExpr ids line operand operand) (bound : Nat) (left : Expr) :
    CarriesExpr ids line (leftGrouped operator build operand bound left)
      (leftGrouped operator build operand bound (left.relabel (.moved ids line))) := by
  induction bound generalizing left with
  | zero => exact .pure rfl
  | succ bound ih =>
    refine (acceptOperator_carries operator).bind fun o => ?_
    cases o with
    | none => exact .pure rfl
    | some op =>
      refine hoperand.bind fun right => ?_
      rw [hbuild]
      exact ih (build left op right)

theorem leftAssociative_carries (operator : TokenKind → Option κ) (build : Expr → Operator κ → Expr → Expr)
    (hbuild : ∀ left op right, build (left.relabel (.moved ids line)) (op.relabel (.moved ids line))
      (right.relabel (.moved ids line)) = (build left op right).relabel (.moved ids line))
    {operand : Parser Expr} (hoperand : CarriesExpr ids line operand operand) :
    CarriesExpr ids line (leftAssociative operator build operand) (leftAssociative operator build operand) :=
  hoperand.bind fun first => remaining_carries.bind fun n => leftGrouped_carries hbuild hoperand n first

/-- A statement has been read, or skipped. -/
theorem toList_append (o : Option Stmt) (rest : List Stmt) (r : Relabeling) :
    (o.map (Stmt.relabel r)).toList ++ rest.map (Stmt.relabel r) = (o.toList ++ rest).map (Stmt.relabel r) := by
  cases o <;> rfl

theorem declarations_carries {declaration : Parser (Option Stmt)}
    (h : Carries ids line (Option.map (Stmt.relabel (.moved ids line))) declaration declaration) (bound : Nat) :
    Carries ids line (List.map (Stmt.relabel (.moved ids line))) (declarations declaration bound)
      (declarations declaration bound) := by
  induction bound with
  | zero => exact .pure rfl
  | succ bound ih =>
    refine (sees_carries .rightBrace).bind fun closed => atEnd_carries.bind fun ended => ?_
    refine Carries.ite (fun _ => .pure rfl) fun _ => ?_
    exact h.bind fun first => ih.map fun rest => toList_append first rest _

end Parsers

/-! ## The grammar -/

/-- All that lies inside is read on other lines as it is on its own. -/
structure Rules.Carries (ids : Nat) (line : Nat → Nat) (r : Rules) : Prop where
  expression : CarriesExpr ids line r.expression r.expression
  conditional : CarriesExpr ids line r.conditional r.conditional
  unary : CarriesExpr ids line r.unary r.unary
  statement : TreeWalk.Carries ids line (Stmt.relabel (.moved ids line)) r.statement r.statement
  declaration : TreeWalk.Carries ids line (Option.map (Stmt.relabel (.moved ids line))) r.declaration r.declaration

section Grammar

variable {ids : Nat} {line : Nat → Nat} {r : Rules} (hr : r.Carries ids line)
include hr

theorem block_carries : Carries ids line (List.map (Stmt.relabel (.moved ids line))) (block r) (block r) :=
  remaining_carries.bind fun n => (declarations_carries hr.declaration n).bind fun _ =>
    (expect_carries .rightBrace _).map fun _ => rfl

theorem function_carries : Carries ids line (Function.relabel (.moved ids line)) (function r) (function r) := by
  refine (expect_carries .leftParen _).bind fun _ => ?_
  refine (commaList_carries (expectName_carries _) _ .rightParen).bind fun params => ?_
  refine (expect_carries .rightParen _).bind fun _ => (expect_carries .leftBrace _).bind fun _ => ?_
  exact (atLoopDepth_carries _ (block_carries hr)).map fun body => by rw [Function.relabel, Stmt.relabelAll_eq]

/-! ### Expressions -/

theorem primary_carries : CarriesExpr ids line (primary r) (primary r) := by
  refine current_carries.bind fun t => ?_
  have hother (kind : TokenKind) : CarriesExpr ids line
      (if lacksLeftOperand kind then
        advance >>= fun _ => report t .missingLeftOperand >>= fun _ => r.expression >>= fun _ => throw .reported
      else fail t .expectedExpression)
      (if lacksLeftOperand kind then
        advance >>= fun _ => report (t.relabel (.moved ids line)) .missingLeftOperand >>= fun _ => r.expression >>= fun _ =>
          throw .reported
      else fail (t.relabel (.moved ids line)) .expectedExpression) := by
    refine Carries.ite (fun _ => ?_) fun _ => fail_carries _ t _
    exact advance_carries.bind fun _ => (report_carries t _).bind fun _ => hr.expression.bind fun _ => .throw _
  have hliteral (value : Literal) :
      CarriesExpr ids line (advance >>= fun _ => pure (.literal value)) (advance >>= fun _ => pure (.literal value)) :=
    advance_carries.map fun _ => rfl
  obtain ⟨kind, lexeme, literal, position⟩ := t
  cases kind with
  | falseKeyword | trueKeyword | nilKeyword | number | string => exact hliteral _
  | thisKeyword => exact advance_carries.bind fun _ => fresh_carries.map fun _ => rfl
  | parentKeyword =>
    refine advance_carries.bind fun _ => (expect_carries .dot _).bind fun _ => (expectName_carries _).bind fun method => ?_
    exact fresh_carries.map fun _ => rfl
  | identifier => exact advance_carries.bind fun _ => (reference_carries ⟨lexeme, position⟩).map fun _ => rfl
  | leftParen =>
    exact advance_carries.bind fun _ => hr.expression.bind fun inner => (expect_carries .rightParen _).map fun _ => rfl
  | funKeyword => exact advance_carries.bind fun _ => (function_carries hr).map fun _ => rfl
  | leftBracket =>
    refine advance_carries.bind fun _ => (commaList_carries hr.expression none .rightBracket).bind fun elements => ?_
    exact (expect_carries .rightBracket _).map fun _ => by rw [Expr.relabel, Expr.relabelAll_eq]; rfl
  | _ => exact hother _

theorem suffix_carries (target : Expr) (t : Token) :
    CarriesExpr ids line (suffix r target t) (suffix r (target.relabel (.moved ids line)) (t.relabel (.moved ids line))) := by
  obtain ⟨kind, lexeme, literal, position⟩ := t
  have hget : CarriesExpr ids line
      (expectName "property name after '.'" >>= fun name => pure (.get target name))
      (expectName "property name after '.'" >>= fun name => pure (.get (target.relabel (.moved ids line)) name)) :=
    (expectName_carries _).map fun _ => rfl
  cases kind with
  | leftParen =>
    refine (commaList_carries hr.expression _ .rightParen).bind fun arguments => ?_
    exact (expect_carries .rightParen _).map fun _ => by rw [Expr.relabel, Expr.relabelAll_eq]; rfl
  | leftBracket => exact hr.expression.bind fun position => (expect_carries .rightBracket _).map fun _ => rfl
  | _ => exact hget

theorem suffixes_carries (bound : Nat) (target : Expr) :
    CarriesExpr ids line (suffixes r bound target) (suffixes r bound (target.relabel (.moved ids line))) := by
  induction bound generalizing target with
  | zero => exact .pure rfl
  | succ bound ih =>
    refine (acceptKind_carries opensSuffix).bind fun o => ?_
    cases o with
    | none => exact .pure rfl
    | some t => exact (suffix_carries hr target t).bind fun target => ih target

theorem unary_carries : CarriesExpr ids line (unary r) (unary r) := by
  refine (acceptOperator_carries unaryKind).bind fun o => ?_
  cases o with
  | none => exact (primary_carries hr).bind fun target => remaining_carries.bind fun n => suffixes_carries hr n target
  | some op => exact hr.unary.map fun _ => rfl

theorem disjunction_carries : CarriesExpr ids line (disjunction r) (disjunction r) := by
  have hfactor : CarriesExpr ids line (factor r) (factor r) := leftAssociative_carries factorKind .binary (fun _ _ _ => rfl) (unary_carries hr)
  have hterm : CarriesExpr ids line (term r) (term r) := leftAssociative_carries termKind .binary (fun _ _ _ => rfl) hfactor
  have hcomparison : CarriesExpr ids line (comparison r) (comparison r) := leftAssociative_carries comparisonKind .binary (fun _ _ _ => rfl) hterm
  have hequality : CarriesExpr ids line (equality r) (equality r) := leftAssociative_carries equalityKind .binary (fun _ _ _ => rfl) hcomparison
  have hconjunction : CarriesExpr ids line (conjunction r) (conjunction r) :=
    leftAssociative_carries andKind .logical (fun _ _ _ => rfl) hequality
  exact leftAssociative_carries orKind .logical (fun _ _ _ => rfl) hconjunction

theorem conditional_carries : CarriesExpr ids line (conditional r) (conditional r) := by
  refine (disjunction_carries hr).bind fun condition => (accept_carries .question).bind fun o => ?_
  cases o with
  | none => exact .pure rfl
  | some _ =>
    refine hr.expression.bind fun thenBranch => (expect_carries .colon _).bind fun _ => ?_
    exact hr.conditional.map fun _ => rfl

omit hr in
theorem assignTo_carries (target : Expr) (equal : Token) (value : Expr) :
    CarriesExpr ids line (assignTo target equal value) (assignTo (target.relabel (.moved ids line))
      (equal.relabel (.moved ids line)) (value.relabel (.moved ids line))) := by
  cases target with
  | «variable» use => exact (reference_carries use.name).map fun _ => rfl
  | get object name => exact .pure rfl
  | _ => exact (report_carries equal _).map fun _ => rfl

theorem expression_carries : CarriesExpr ids line (expression r) (expression r) := by
  refine (conditional_carries hr).bind fun target => (accept_carries .equal).bind fun o => ?_
  cases o with
  | none => exact .pure rfl
  | some equal => exact hr.expression.bind fun value => assignTo_carries target equal value

/-! ### Statements -/

/-- Statements are read on other lines as they are on their own. -/
abbrev CarriesStmt (ids : Nat) (line : Nat → Nat) (p q : Parser Stmt) : Prop := Carries ids line (Stmt.relabel (.moved ids line)) p q

theorem varDeclaration_carries : CarriesStmt ids line (varDeclaration r) (varDeclaration r) := by
  refine (expectName_carries _).bind fun name => (accept_carries .equal).bind fun o => ?_
  cases o with
  | none => exact (expect_carries .semicolon _).map fun _ => rfl
  | some _ =>
    have hvalue : Carries ids line (Option.map (Expr.relabel (.moved ids line))) (some <$> r.expression)
        (some <$> r.expression) := hr.expression.map fun _ => rfl
    refine hvalue.bind fun value => (expect_carries .semicolon _).map fun _ => ?_
    cases value <;> rfl

theorem methods_carries (bound : Nat) :
    Carries ids line (List.map (Method.relabel (.moved ids line))) (methods r bound) (methods r bound) := by
  induction bound with
  | zero => exact .pure rfl
  | succ bound ih =>
    refine (sees_carries .rightBrace).bind fun closed => atEnd_carries.bind fun ended => ?_
    refine Carries.ite (fun _ => .pure rfl) fun _ => ?_
    exact (expectName_carries _).bind fun name => (function_carries hr).bind fun body => ih.map fun _ => rfl

omit hr in
theorem parentClause_carries :
    Carries ids line (Option.map (Reference.relabel (.moved ids line))) parentClause parentClause := by
  refine (acceptKind_carries fun kind => kind == .colon || kind == .less).bind fun o => ?_
  cases o with
  | none => exact .pure rfl
  | some _ => exact (expectName_carries _).bind fun name => (reference_carries name).map fun _ => rfl

theorem classDeclaration_carries : CarriesStmt ids line (classDeclaration r) (classDeclaration r) := by
  refine (expectName_carries _).bind fun name => parentClause_carries.bind fun parent => ?_
  refine (expect_carries .leftBrace _).bind fun _ => remaining_carries.bind fun n => ?_
  refine (methods_carries hr n).bind fun body => (expect_carries .rightBrace _).map fun _ => ?_
  rw [Stmt.relabel, Method.relabelAll_eq]

theorem expressionStatement_carries : CarriesStmt ids line (expressionStatement r) (expressionStatement r) :=
  (expression_carries hr).bind fun _ => (expect_carries .semicolon _).map fun _ => rfl

theorem forInitializer_carries :
    Carries ids line (Option.map (Stmt.relabel (.moved ids line))) (forInitializer r) (forInitializer r) := by
  refine (accept_carries .semicolon).bind fun o => ?_
  cases o with
  | some _ => exact .pure rfl
  | none =>
    refine (accept_carries .varKeyword).bind fun o => ?_
    cases o with
    | some _ => exact (varDeclaration_carries hr).map fun _ => rfl
    | none => exact hr.expression.bind fun value => (expect_carries .semicolon _).map fun _ => rfl

theorem unlessClosed_carries (closing : TokenKind) :
    Carries ids line (Option.map (Expr.relabel (.moved ids line))) (unlessClosed r closing) (unlessClosed r closing) :=
  (sees_carries closing).bind fun _ => Carries.ite (fun _ => .pure rfl) fun _ => hr.expression.map fun _ => rfl

theorem forStatement_carries : CarriesStmt ids line (forStatement r) (forStatement r) := by
  refine (expect_carries .leftParen _).bind fun _ => (forInitializer_carries hr).bind fun initializer => ?_
  refine (unlessClosed_carries hr .semicolon).bind fun condition => (expect_carries .semicolon _).bind fun _ => ?_
  refine (unlessClosed_carries hr .rightParen).bind fun increment => (expect_carries .rightParen _).bind fun _ => ?_
  refine (atLoopDepth_carries (· + 1) hr.statement).bind fun body => ?_
  cases initializer <;> cases condition <;> cases increment <;> exact .pure rfl

theorem ifStatement_carries : CarriesStmt ids line (ifStatement r) (ifStatement r) := by
  refine (expect_carries .leftParen _).bind fun _ => hr.expression.bind fun condition => ?_
  refine (expect_carries .rightParen _).bind fun _ => hr.statement.bind fun thenBranch => ?_
  refine (accept_carries .elseKeyword).bind fun o => ?_
  cases o with
  | none => exact .pure rfl
  | some _ => exact hr.statement.map fun _ => rfl

theorem whileStatement_carries : CarriesStmt ids line (whileStatement r) (whileStatement r) := by
  refine (expect_carries .leftParen _).bind fun _ => hr.expression.bind fun condition => ?_
  exact (expect_carries .rightParen _).bind fun _ => (atLoopDepth_carries (· + 1) hr.statement).map fun _ => rfl

omit hr in
theorem loopControl_carries (keyword : Token) (word : String) :
    Carries ids line id (loopControl keyword word) (loopControl (keyword.relabel (.moved ids line)) word) := by
  have hend : Carries ids line id (expect .semicolon "';' after loop control" >>= fun _ => pure ())
      (expect .semicolon "';' after loop control" >>= fun _ => pure ()) := (expect_carries .semicolon _).map fun _ => rfl
  refine insideLoop_carries.bind fun inside => Carries.ite (fun _ => ?_) fun _ => hend
  exact (report_carries keyword _).bind fun _ => hend

theorem statement_carries : CarriesStmt ids line (statement r) (statement r) := by
  refine current_carries.bind fun t => ?_
  have hexpression := expressionStatement_carries hr
  obtain ⟨kind, lexeme, literal, position⟩ := t
  cases kind with
  | forKeyword => exact advance_carries.bind fun _ => forStatement_carries hr
  | ifKeyword => exact advance_carries.bind fun _ => ifStatement_carries hr
  | whileKeyword => exact advance_carries.bind fun _ => whileStatement_carries hr
  | printKeyword =>
    exact advance_carries.bind fun _ => hr.expression.bind fun value => (expect_carries .semicolon _).map fun _ => rfl
  | returnKeyword =>
    refine advance_carries.bind fun _ => (unlessClosed_carries hr .semicolon).bind fun value => ?_
    refine (expect_carries .semicolon _).map fun _ => ?_
    cases value <;> rfl
  | breakKeyword => exact advance_carries.bind fun _ => (loopControl_carries ⟨_, lexeme, literal, position⟩ _).map fun _ => rfl
  | continueKeyword =>
    exact advance_carries.bind fun _ => (loopControl_carries ⟨_, lexeme, literal, position⟩ _).map fun _ => rfl
  | leftBrace =>
    exact advance_carries.bind fun _ => (block_carries hr).map fun body => by rw [Stmt.relabel, Stmt.relabelAll_eq]
  | semicolon => exact advance_carries.map fun _ => rfl
  | _ => exact hexpression

omit hr in
theorem seesFunctionDeclaration_carries : Carries ids line id seesFunctionDeclaration seesFunctionDeclaration := fun s => by
  obtain ⟨tokens, _⟩ := s
  rcases tokens with _ | ⟨t, _ | ⟨name, rest⟩⟩ <;> rfl

theorem item_carries : CarriesStmt ids line (item r) (item r) := by
  refine (accept_carries .classKeyword).bind fun o => ?_
  cases o with
  | some _ => exact classDeclaration_carries hr
  | none =>
    refine seesFunctionDeclaration_carries.bind fun sees => Carries.ite (fun _ => ?_) fun _ => ?_
    · exact advance_carries.bind fun _ => (expectName_carries _).bind fun name => (function_carries hr).map fun _ => rfl
    · refine (accept_carries .varKeyword).bind fun o => ?_
      cases o with
      | some _ => exact varDeclaration_carries hr
      | none => exact statement_carries hr

theorem program_carries (bound : Nat) :
    Carries ids line (List.map (Stmt.relabel (.moved ids line))) (program r bound) (program r bound) := by
  induction bound with
  | zero => exact .pure rfl
  | succ bound ih =>
    refine atEnd_carries.bind fun ended => Carries.ite (fun _ => .pure rfl) fun _ => ?_
    exact hr.declaration.bind fun first => ih.map fun rest => toList_append first rest _

end Grammar

theorem rules_carry (ids : Nat) (line : Nat → Nat) (levels : Nat) : (rules levels).Carries ids line := by
  induction levels with
  | zero => exact ⟨.throw _, .throw _, .throw _, .throw _, .throw _⟩
  | succ levels ih =>
    exact ⟨expression_carries ih, conditional_carries ih, unary_carries ih, statement_carries ih,
      orSkip_carries (item_carries ih)⟩

namespace Parse

theorem delimited_relabel (r : Relabeling) (tokens : List Token) :
    (delimited (tokens.map (Token.relabel r))).1 = (delimited tokens).1.map (Token.relabel r) := by
  simp [delimited, List.takeWhile_map, Function.comp_def]

theorem delimited_line {r : Relabeling} {tokens : List Token} (h : ∃ t ∈ tokens, t.kind = .endOfInput) :
    (delimited (tokens.map (Token.relabel r))).2 = r.line (delimited tokens).2 := by
  have hcloses : (tokens.find? fun t => t.kind == .endOfInput).isSome = true := by simpa using h
  obtain ⟨t, ht⟩ := Option.isSome_iff_exists.1 hcloses
  simp [delimited, List.find?_map, Function.comp_def, ht, Token.relabel]

/-- From tokens on other lines and with higher ids the same program is read, on these lines and with these ids. -/
theorem ofTokens_moved (firstId : NodeId) {tokens : List Token} (h : ∃ t ∈ tokens, t.kind = .endOfInput) (ids : Nat)
    (line : Nat → Nat) :
    ofTokens (firstId + ids) (tokens.map (Token.relabel (.moved ids line))) =
      ⟨(ofTokens firstId tokens).statements.map (Stmt.relabel (.moved ids line)),
        (ofTokens firstId tokens).errors.map (SyntaxError.relabel (.moved ids line)), (ofTokens firstId tokens).nextId + ids⟩ := by
  have hdelimited : delimited (tokens.map (Token.relabel (.moved ids line))) =
      ((delimited tokens).1.map (Token.relabel (.moved ids line)), line (delimited tokens).2) :=
    Prod.ext (delimited_relabel _ tokens) (delimited_line h)
  unfold ofTokens
  rw [hdelimited]
  generalize delimited tokens = d
  dsimp only
  rw [List.length_map]
  have hcarries := program_carries (rules_carry ids line (d.1.length + 1)) d.1.length ⟨d.1, d.2, 0, firstId, []⟩
  change program _ _ ⟨d.1.map (Token.relabel (.moved ids line)), line d.2, 0, firstId + ids, []⟩ = _ at hcarries
  rw [hcarries]
  cases program (rules (d.1.length + 1)) d.1.length ⟨d.1, d.2, 0, firstId, []⟩ <;> rfl

theorem ofTokens_onLines (firstId : NodeId) {tokens : List Token} (h : ∃ t ∈ tokens, t.kind = .endOfInput)
    (line : Nat → Nat) :
    ofTokens firstId (tokens.map (Token.relabel (.onLines line))) =
      ⟨(ofTokens firstId tokens).statements.map (Stmt.relabel (.onLines line)),
        (ofTokens firstId tokens).errors.map (SyntaxError.relabel (.onLines line)), (ofTokens firstId tokens).nextId⟩ :=
  ofTokens_moved firstId h 0 line

/-- On whatever lines the tokens stand, the programs differ in their lines only. -/
theorem withoutLines_ofTokens (firstId : NodeId) {tokens : List Token} (h : ∃ t ∈ tokens, t.kind = .endOfInput)
    (line : Nat → Nat) :
    (ofTokens firstId (tokens.map (Token.relabel (.onLines line)))).statements.map (Stmt.relabel .withoutLines) =
      (ofTokens firstId tokens).statements.map (Stmt.relabel .withoutLines) := by
  obtain ⟨t, ht, hkind⟩ := h
  have hmoved := ofTokens_onLines firstId ⟨_, List.mem_map_of_mem (f := Token.relabel (.onLines line)) ht, hkind⟩ fun _ => 0
  have hplain := ofTokens_onLines firstId ⟨t, ht, hkind⟩ fun _ => 0
  rw [List.map_map] at hmoved
  exact congrArg Parse.statements (hmoved.symm.trans hplain)

end Parse

end TreeWalk
