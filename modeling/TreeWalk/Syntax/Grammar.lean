import TreeWalk.Syntax.Parser

/-!
# The grammar

One parser per rule of the grammar. A rule that nests calls the `Rules` for what lies inside, and
always after a token of its own, so rules prepared for `n` levels read every list of fewer than `n`
tokens.

From loosest to tightest: assignment, conditional, `or`, `and`, equality, comparison, `+ -`, `* /`,
prefix operators, and calls with property reads and subscripts. Assignment, conditional and prefix
operators group from the right, the binary operators from the left.
-/

namespace TreeWalk

/-- Parsers for the constructs that others contain. -/
structure Rules where
  expression : Parser Expr
  conditional : Parser Expr
  unary : Parser Expr
  statement : Parser Stmt
  /-- Gives nothing for a statement that was skipped. -/
  declaration : Parser (Option Stmt)

namespace Grammar

open TreeWalk.Parser

/-! ## Functions -/

/-- The statements of a block whose opening brace has been read. -/
def block (r : Rules) : Parser (List Stmt) := do
  let body ← declarations r.declaration (← remaining)
  let _ ← expect .rightBrace "'\x7d' after block"
  pure body

/-- Parameters and body. No loop around the function counts inside it. -/
def function (r : Rules) : Parser Function := do
  let _ ← expect .leftParen "'(' before parameters"
  let params ← commaList (expectName "parameter name") (some .tooManyParameters) .rightParen
  let _ ← expect .rightParen "')' after parameters"
  let _ ← expect .leftBrace "'\x7b' before function body"
  let body ← atLoopDepth (fun _ => 0) (block r)
  pure (.mk params body)

/-! ## Expressions -/

def tokenLiteral : Option TokenLiteral → Literal
  | none => .nil
  | some (.number value) => .number value
  | some (.text value) => .text value

/-- Binary operators that stand at the start of an expression lack their left operand. -/
def lacksLeftOperand : TokenKind → Bool
  | .bangEqual | .equalEqual | .greater | .greaterEqual | .less | .lessEqual | .plus | .star
  | .slash => true
  | _ => false

def primary (r : Rules) : Parser Expr := do
  let t ← current
  match t.kind with
  | .falseKeyword => do advance; pure (.literal (.bool false))
  | .trueKeyword => do advance; pure (.literal (.bool true))
  | .nilKeyword => do advance; pure (.literal .nil)
  | .number => do advance; pure (.literal (tokenLiteral t.literal))
  | .string => do advance; pure (.literal (tokenLiteral t.literal))
  | .thisKeyword => do
    advance
    pure (.this (← fresh) t.line)
  | .parentKeyword => do
    advance
    let _ ← expect .dot "'.' after 'parent'"
    let method ← expectName "parent class method name"
    pure (.parent (← fresh) ⟨t.lexeme, t.line⟩ method)
  | .identifier => do
    advance
    pure (.variable (← reference ⟨t.lexeme, t.line⟩))
  | .leftParen => do
    advance
    let inner ← r.expression
    let _ ← expect .rightParen "')' after expression"
    pure (.group inner)
  | .funKeyword => do
    advance
    pure (.lambda (← function r))
  | .leftBracket => do
    advance
    let elements ← commaList r.expression none .rightBracket
    let _ ← expect .rightBracket "']' after list elements"
    pure (.list t.line elements)
  | kind => do
    if lacksLeftOperand kind then
      advance
      report t .missingLeftOperand
      let _ ← r.expression
      throw .reported
    else fail t .expectedExpression

/-- One call, property read or subscript behind `target`, whose first token `t` has been read. -/
def suffix (r : Rules) (target : Expr) (t : Token) : Parser Expr :=
  match t.kind with
  | .leftParen => do
    let arguments ← commaList r.expression (some .tooManyArguments) .rightParen
    let closing ← expect .rightParen "')' after arguments"
    pure (.call target closing.line arguments)
  | .leftBracket => do
    let position ← r.expression
    let _ ← expect .rightBracket "']' after index"
    pure (.index target t.line position)
  | _ => do
    let name ← expectName "property name after '.'"
    pure (.get target name)

def opensSuffix : TokenKind → Bool
  | .leftParen | .dot | .leftBracket => true
  | _ => false

/-- Calls, property reads and subscripts in a row, from left to right. -/
def suffixes (r : Rules) : Nat → Expr → Parser Expr
  | 0, target => pure target
  | bound + 1, target => do
    match ← acceptWhere fun t => if opensSuffix t.kind then some t else none with
    | none => pure target
    | some t => do
      let target ← suffix r target t
      suffixes r bound target

def call (r : Rules) : Parser Expr := do
  let target ← primary r
  suffixes r (← remaining) target

def unaryKind : TokenKind → Option UnaryKind
  | .bang => some .not
  | .minus => some .negate
  | _ => none

def unary (r : Rules) : Parser Expr := do
  match ← acceptWhere fun t => (unaryKind t.kind).map (⟨·, t.lexeme, t.line⟩) with
  | some op => do
    let operand ← r.unary
    pure (.unary op operand)
  | none => call r

def factorKind : TokenKind → Option TokenKind
  | .slash => some .slash
  | .star => some .star
  | _ => none

def termKind : TokenKind → Option TokenKind
  | .minus => some .minus
  | .plus => some .plus
  | _ => none

def comparisonKind : TokenKind → Option TokenKind
  | .greater => some .greater
  | .greaterEqual => some .greaterEqual
  | .less => some .less
  | .lessEqual => some .lessEqual
  | _ => none

def equalityKind : TokenKind → Option TokenKind
  | .bangEqual => some .bangEqual
  | .equalEqual => some .equalEqual
  | _ => none

def andKind : TokenKind → Option LogicalKind
  | .andKeyword => some .and
  | _ => none

def orKind : TokenKind → Option LogicalKind
  | .orKeyword => some .or
  | _ => none

def factor (r : Rules) : Parser Expr := leftAssociative factorKind .binary (unary r)

def term (r : Rules) : Parser Expr := leftAssociative termKind .binary (factor r)

def comparison (r : Rules) : Parser Expr := leftAssociative comparisonKind .binary (term r)

def equality (r : Rules) : Parser Expr := leftAssociative equalityKind .binary (comparison r)

def conjunction (r : Rules) : Parser Expr := leftAssociative andKind .logical (equality r)

def disjunction (r : Rules) : Parser Expr := leftAssociative orKind .logical (conjunction r)

def conditional (r : Rules) : Parser Expr := do
  let condition ← disjunction r
  match ← accept .question with
  | none => pure condition
  | some _ => do
    let thenBranch ← r.expression
    let _ ← expect .colon "':' after then branch of conditional expression"
    let elseBranch ← r.conditional
    pure (.conditional condition thenBranch elseBranch)

/-- An expression that a value is assigned to must be a variable or a property. Another one is
reported at the `=` and stands for the whole. -/
def assignTo (target : Expr) (equal : Token) (value : Expr) : Parser Expr :=
  match target with
  | .variable use => do pure (.assign (← reference use.name) value)
  | .get object name => pure (.set object name value)
  | target => do
    report equal .invalidAssignmentTarget
    pure target

/-- Any expression. The target of an assignment is only recognised behind it. -/
def expression (r : Rules) : Parser Expr := do
  let target ← conditional r
  match ← accept .equal with
  | none => pure target
  | some equal => do
    let value ← r.expression
    assignTo target equal value

/-! ## Statements -/

/-- A variable declaration whose keyword has been read. -/
def varDeclaration (r : Rules) : Parser Stmt := do
  let name ← expectName "variable name"
  let initializer ← match ← accept .equal with
    | none => pure none
    | some _ => some <$> r.expression
  let _ ← expect .semicolon "';' after variable declaration"
  pure (.var name initializer)

def functionDeclaration (r : Rules) : Parser Stmt := do
  let name ← expectName "function name"
  pure (.function name (← function r))

/-- The methods of a class body up to its closing brace. -/
def methods (r : Rules) : Nat → Parser (List Method)
  | 0 => pure []
  | bound + 1 => do
    if (← sees .rightBrace) || (← atEnd) then pure []
    else
      let name ← expectName "method name"
      let body ← function r
      let rest ← methods r bound
      pure (.mk name body :: rest)

/-- The parent clause of a class, after a colon or `<`. -/
def parentClause : Parser (Option Reference) := do
  match ← acceptWhere fun t => if t.kind == .colon || t.kind == .less then some t else none with
  | none => pure none
  | some _ => do
    let name ← expectName "parent class name"
    pure (some (← reference name))

def classDeclaration (r : Rules) : Parser Stmt := do
  let name ← expectName "class name"
  let parent ← parentClause
  let _ ← expect .leftBrace "'\x7b' before class body"
  let body ← methods r (← remaining)
  let _ ← expect .rightBrace "'\x7d' after class body"
  pure (.class name parent body)

def expressionStatement (r : Rules) : Parser Stmt := do
  let value ← expression r
  let _ ← expect .semicolon "';' after expression"
  pure (.expression value)

/-- The first clause of a `for` loop with its semicolon. -/
def forInitializer (r : Rules) : Parser (Option Stmt) := do
  match ← accept .semicolon with
  | some _ => pure none
  | none =>
    match ← accept .varKeyword with
    | some _ => some <$> varDeclaration r
    | none => do
      let value ← r.expression
      let _ ← expect .semicolon "';' after loop initializer"
      pure (some (.expression value))

/-- An expression that is left out when the closing token comes at once. -/
def unlessClosed (r : Rules) (closing : TokenKind) : Parser (Option Expr) := do
  if ← sees closing then pure none else some <$> r.expression

/-- A `for` loop is a loop with an increment, in a block behind its initializer if it has one. -/
def forStatement (r : Rules) : Parser Stmt := do
  let _ ← expect .leftParen "'(' after 'for'"
  let initializer ← forInitializer r
  let condition ← unlessClosed r .semicolon
  let _ ← expect .semicolon "';' after loop condition"
  let increment ← unlessClosed r .rightParen
  let _ ← expect .rightParen "')' after for clauses"
  let body ← atLoopDepth (· + 1) r.statement
  let loop := .loop (condition.getD (.literal (.bool true))) body increment
  match initializer with
  | none => pure loop
  | some first => pure (.block [first, loop])

def ifStatement (r : Rules) : Parser Stmt := do
  let _ ← expect .leftParen "'(' after 'if'"
  let condition ← r.expression
  let _ ← expect .rightParen "')' after if condition"
  let thenBranch ← r.statement
  match ← accept .elseKeyword with
  | none => pure (.branch condition thenBranch none)
  | some _ => do
    let elseBranch ← r.statement
    pure (.branch condition thenBranch (some elseBranch))

def whileStatement (r : Rules) : Parser Stmt := do
  let _ ← expect .leftParen "'(' after 'while'"
  let condition ← r.expression
  let _ ← expect .rightParen "')' after condition"
  let body ← atLoopDepth (· + 1) r.statement
  pure (.loop condition body none)

/-- A `break` or `continue` whose keyword has been read. -/
def loopControl (keyword : Token) (word : String) : Parser Unit := do
  if !(← insideLoop) then report keyword (.outsideLoop word)
  let _ ← expect .semicolon "';' after loop control"

def statement (r : Rules) : Parser Stmt := do
  let t ← current
  match t.kind with
  | .forKeyword => do advance; forStatement r
  | .ifKeyword => do advance; ifStatement r
  | .whileKeyword => do advance; whileStatement r
  | .printKeyword => do
    advance
    let value ← r.expression
    let _ ← expect .semicolon "';' after value"
    pure (.print t.line value)
  | .returnKeyword => do
    advance
    let value ← unlessClosed r .semicolon
    let _ ← expect .semicolon "';' after return value"
    pure (.return t.line value)
  | .breakKeyword => do
    advance
    loopControl t "break"
    pure (.break t.line)
  | .continueKeyword => do
    advance
    loopControl t "continue"
    pure (.continue t.line)
  | .leftBrace => do
    advance
    pure (.block (← block r))
  | .semicolon => do
    advance
    pure .empty
  | _ => expressionStatement r

/-- Whether a function declaration comes next, and not a statement that starts with a lambda. -/
def seesFunctionDeclaration : Parser Bool := fun s =>
  match s.tokens with
  | t :: name :: _ => .ok (t.kind == .funKeyword && name.kind == .identifier) s
  | _ => .ok false s

/-- A declaration or statement, not skipped over when it fails. -/
def item (r : Rules) : Parser Stmt := do
  if (← accept .classKeyword).isSome then classDeclaration r
  else if ← seesFunctionDeclaration then
    advance
    functionDeclaration r
  else if (← accept .varKeyword).isSome then varDeclaration r
  else statement r

/-- The rules for constructs of fewer than `levels` tokens. -/
def rules : (levels : Nat) → Rules
  | 0 =>
    { expression := throw .tooDeep
      conditional := throw .tooDeep
      unary := throw .tooDeep
      statement := throw .tooDeep
      declaration := throw .tooDeep }
  | levels + 1 =>
    let r := rules levels
    { expression := expression r
      conditional := conditional r
      unary := unary r
      statement := statement r
      declaration := orSkip (item r) }

/-- Declarations up to the end of input. -/
def program (r : Rules) : Nat → Parser (List Stmt)
  | 0 => pure []
  | bound + 1 => do
    if ← atEnd then pure []
    else
      let first ← r.declaration
      let rest ← program r bound
      pure (first.toList ++ rest)

end Grammar

/-- The outcome of reading a token list: the statements that could be read, and the errors. -/
structure Parse where
  statements : List Stmt
  errors : List SyntaxError
  /-- The first node id that has not been given away. -/
  nextId : NodeId

namespace Parse

/-- The tokens in front of the first that closes the input, and the line of that one. Without it
the input ends on the line of its last token. -/
def delimited (tokens : List Token) : List Token × Nat :=
  let closes := fun t : Token => t.kind == .endOfInput
  let line :=
    match tokens.find? closes with
    | some t => t.line
    | none => (tokens.getLast?.map (·.line)).getD 1
  (tokens.takeWhile (!closes ·), line)

/-- Reads a program, with node ids from `firstId` on. -/
def ofTokens (firstId : NodeId) (tokens : List Token) : Parse :=
  let (body, endLine) := delimited tokens
  let start : ParserState := ⟨body, endLine, 0, firstId, []⟩
  match Grammar.program (Grammar.rules (body.length + 1)) body.length start with
  | .ok statements s => ⟨statements, s.errors, s.nextId⟩
  | .error _ s => ⟨[], s.errors, s.nextId⟩

end Parse

end TreeWalk
