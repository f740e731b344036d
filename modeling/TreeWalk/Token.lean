import TreeWalk.Decimal

/-!
# Tokens

The vocabulary of the language: token kinds, the words reserved for keywords, and the tokens that
the parser reads.
-/

namespace TreeWalk

inductive TokenKind where
  | leftParen | rightParen | leftBrace | rightBrace | leftBracket | rightBracket
  | comma | question | colon | dot | minus | plus | semicolon | slash | star
  | bang | bangEqual | equal | equalEqual | greater | greaterEqual | less | lessEqual
  | identifier | string | number
  | andKeyword | classKeyword | elseKeyword | falseKeyword | funKeyword | forKeyword | ifKeyword
  | nilKeyword | orKeyword | printKeyword | returnKeyword | parentKeyword | thisKeyword
  | trueKeyword | varKeyword | whileKeyword | breakKeyword | continueKeyword
  | endOfInput
  deriving DecidableEq

namespace TokenKind

/-- Every kind with its name. -/
def names : List (TokenKind × String) :=
  [(leftParen, "LeftParen"), (rightParen, "RightParen"), (leftBrace, "LeftBrace"),
   (rightBrace, "RightBrace"), (leftBracket, "LeftBracket"), (rightBracket, "RightBracket"),
   (comma, "Comma"), (question, "Question"), (colon, "Colon"), (dot, "Dot"), (minus, "Minus"),
   (plus, "Plus"), (semicolon, "Semicolon"), (slash, "Slash"), (star, "Star"), (bang, "Bang"),
   (bangEqual, "BangEqual"), (equal, "Equal"), (equalEqual, "EqualEqual"), (greater, "Greater"),
   (greaterEqual, "GreaterEqual"), (less, "Less"), (lessEqual, "LessEqual"),
   (identifier, "Identifier"), (string, "String"), (number, "Number"), (andKeyword, "And"),
   (classKeyword, "Class"), (elseKeyword, "Else"), (falseKeyword, "False"), (funKeyword, "Fun"),
   (forKeyword, "For"), (ifKeyword, "If"), (nilKeyword, "Nil"), (orKeyword, "Or"),
   (printKeyword, "Print"), (returnKeyword, "Return"), (parentKeyword, "Parent"),
   (thisKeyword, "This"), (trueKeyword, "True"), (varKeyword, "Var"), (whileKeyword, "While"),
   (breakKeyword, "Break"), (continueKeyword, "Continue"), (endOfInput, "Eof")]

def name (kind : TokenKind) : String := (names.lookup kind).getD ""

def ofName? (name : String) : Option TokenKind := (names.find? (·.2 == name)).map (·.1)

/-- The reserved words. `super` is another spelling of `parent`. -/
def keywords : List (String × TokenKind) :=
  [("and", andKeyword), ("class", classKeyword), ("else", elseKeyword), ("false", falseKeyword),
   ("for", forKeyword), ("fun", funKeyword), ("if", ifKeyword), ("nil", nilKeyword),
   ("or", orKeyword), ("print", printKeyword), ("return", returnKeyword), ("super", parentKeyword),
   ("parent", parentKeyword), ("this", thisKeyword), ("true", trueKeyword), ("var", varKeyword),
   ("while", whileKeyword), ("break", breakKeyword), ("continue", continueKeyword)]

/-- The kind of a word: its keyword's if it is reserved, otherwise an identifier's. -/
def ofWord (word : String) : TokenKind := (keywords.lookup word).getD identifier

/-- Kinds that open a statement. After a syntax error reading goes on in front of one of them. -/
def startsStatement : TokenKind → Bool
  | classKeyword | funKeyword | varKeyword | forKeyword | ifKeyword | whileKeyword | printKeyword
  | returnKeyword | breakKeyword | continueKeyword => true
  | _ => false

end TokenKind

/-- The value that a literal token stands for. -/
inductive TokenLiteral where
  | number (value : Float)
  | text (value : String)

structure Token where
  kind : TokenKind
  /-- The characters of the source that the token was read from. -/
  lexeme : String
  literal : Option TokenLiteral
  line : Nat

namespace Token

/-- The token that closes every token list. -/
def endOfInput (line : Nat) : Token := ⟨.endOfInput, "", none, line⟩

/-- Kind, lexeme and, when there is one, the literal's value. -/
def text (t : Token) : String :=
  let head := t.kind.name ++ " " ++ t.lexeme
  match t.literal with
  | none => head
  | some (.number value) => head ++ " " ++ Number.text value
  | some (.text value) => head ++ " " ++ value

end Token

end TreeWalk
