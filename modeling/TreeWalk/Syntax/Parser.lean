import TreeWalk.Syntax
import TreeWalk.Syntax.Error

/-!
# Reading tokens

A parser consumes tokens from the front of a list. It records syntax errors as it meets them, and
an error that it cannot read over makes it give up.
-/

namespace TreeWalk

/-- Why a parser gave up. -/
inductive GivenUp where
  /-- The error that stopped it has been recorded. -/
  | reported
  /-- The construct is nested deeper than the parser was prepared for. -/
  | tooDeep
  deriving DecidableEq

structure ParserState where
  /-- The tokens still to be read, without the one that closes the input. -/
  tokens : List Token
  /-- The line on which the input ends. -/
  endLine : Nat
  /-- How many loops of the current function enclose the place of reading. -/
  loopDepth : Nat
  nextId : NodeId
  /-- The errors so far, in the order in which they were noticed. -/
  errors : List SyntaxError

abbrev Parser := EStateM GivenUp ParserState

namespace Parser

variable {α : Type}

/-! ## Looking and consuming -/

/-- The next token, or the one that closes the input. -/
def current : Parser Token := fun s =>
  .ok (s.tokens.head?.getD (.endOfInput s.endLine)) s

/-- How many tokens are left. -/
def remaining : Parser Nat := fun s => .ok s.tokens.length s

def atEnd : Parser Bool := fun s => .ok s.tokens.isEmpty s

/-- Whether the next token is of the given kind. -/
def sees (kind : TokenKind) : Parser Bool := fun s =>
  .ok (s.tokens.head?.any (·.kind == kind)) s

def advance : Parser Unit := fun s => .ok () { s with tokens := s.tokens.tail }

/-- Consumes the next token if `choose` wants it. -/
def acceptWhere (choose : Token → Option α) : Parser (Option α) := fun s =>
  match s.tokens with
  | [] => .ok none s
  | t :: rest =>
    match choose t with
    | none => .ok none s
    | some a => .ok (some a) { s with tokens := rest }

/-- Consumes the next token if it is of the given kind. -/
def accept (kind : TokenKind) : Parser (Option Token) :=
  acceptWhere fun t => if t.kind == kind then some t else none

/-! ## Errors -/

def report (token : Token) (cause : SyntaxCause) : Parser Unit := fun s =>
  .ok () { s with errors := s.errors ++ [⟨token, cause⟩] }

/-- Records an error and gives up. -/
def fail (token : Token) (cause : SyntaxCause) : Parser α := do
  report token cause
  throw .reported

/-- Consumes a token of the given kind and gives up when the next one is another. -/
def expect (kind : TokenKind) (what : String) : Parser Token := do
  match ← accept kind with
  | some t => pure t
  | none => fail (← current) (.expected what)

def expectName (what : String) : Parser Name := do
  let t ← expect .identifier what
  pure ⟨t.lexeme, t.line⟩

/-- The tokens at which reading resumes after an error: those behind the next semicolon, or from
the next token on that starts a statement. -/
def resume : Token → List Token → List Token
  | _, [] => []
  | previous, t :: rest =>
    if previous.kind == .semicolon || t.kind.startsStatement then t :: rest else resume t rest

/-- Skips to the next place where a statement may begin. At least one token is skipped. -/
def synchronize (s : ParserState) : ParserState :=
  match s.tokens with
  | [] => s
  | t :: rest => { s with tokens := resume t rest }

/-- Reads a statement. When that fails, the rest of the statement is skipped instead. -/
def orSkip (statement : Parser α) : Parser (Option α) := fun s =>
  match statement s with
  | .ok a s => .ok (some a) s
  | .error .reported s => .ok none (synchronize s)
  | .error .tooDeep s => .error .tooDeep s

/-! ## Node ids and loops -/

def fresh : Parser NodeId := fun s => .ok s.nextId { s with nextId := s.nextId + 1 }

/-- A reference with a node id of its own. -/
def reference (name : Name) : Parser Reference := do
  pure ⟨← fresh, name⟩

/-- Reads with another number of enclosing loops, and restores it afterwards. -/
def atLoopDepth (depth : Nat → Nat) (p : Parser α) : Parser α := fun s =>
  match p { s with loopDepth := depth s.loopDepth } with
  | .ok a s' => .ok a { s' with loopDepth := s.loopDepth }
  | .error e s' => .error e { s' with loopDepth := s.loopDepth }

def insideLoop : Parser Bool := fun s => .ok (s.loopDepth != 0) s

/-! ## Repetition

A repetition consumes a token in each round, so the number of tokens left bounds its rounds. -/

/-- Most arguments of a call and most parameters of a function. -/
def maxItems : Nat := 255

/-- One or more items between commas, after `count` others. Before the first item too many,
`tooMany` is recorded. -/
def commaItems (item : Parser α) (tooMany : Option SyntaxCause) : Nat → Nat → Parser (List α)
  | 0, _ => throw .tooDeep
  | bound + 1, count => do
    match tooMany with
    | some cause => if count == maxItems then report (← current) cause
    | none => pure ()
    let first ← item
    match ← accept .comma with
    | none => pure [first]
    | some _ => do
      let rest ← commaItems item tooMany bound (count + 1)
      pure (first :: rest)

/-- Items between commas up to the closing token, which is left to be read. -/
def commaList (item : Parser α) (tooMany : Option SyntaxCause) (closing : TokenKind) :
    Parser (List α) := do
  if ← sees closing then pure []
  else commaItems item tooMany ((← remaining) + 1) 0

/-- Operands with operators of one precedence between them, grouped from the left. -/
def leftGrouped {κ : Type} (operator : TokenKind → Option κ)
    (build : Expr → Operator κ → Expr → Expr) (operand : Parser Expr) :
    Nat → Expr → Parser Expr
  | 0, left => pure left
  | bound + 1, left => do
    match ← acceptWhere fun t => (operator t.kind).map (⟨·, t.lexeme, t.line⟩) with
    | none => pure left
    | some op => do
      let right ← operand
      leftGrouped operator build operand bound (build left op right)

def leftAssociative {κ : Type} (operator : TokenKind → Option κ)
    (build : Expr → Operator κ → Expr → Expr) (operand : Parser Expr) : Parser Expr := do
  let first ← operand
  leftGrouped operator build operand (← remaining) first

/-- Declarations up to a closing brace or the end of input. -/
def declarations (declaration : Parser (Option Stmt)) : Nat → Parser (List Stmt)
  | 0 => pure []
  | bound + 1 => do
    if (← sees .rightBrace) || (← atEnd) then pure []
    else
      let first ← declaration
      let rest ← declarations declaration bound
      pure (first.toList ++ rest)

end Parser

end TreeWalk
