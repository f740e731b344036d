import TreeWalk.Token

/-!
# Syntax errors
-/

namespace TreeWalk

inductive SyntaxCause where
  | expectedExpression
  /-- A particular token was needed. The text says which one and where. -/
  | expected (what : String)
  | missingLeftOperand
  | invalidAssignmentTarget
  | tooManyArguments
  | tooManyParameters
  | outsideLoop (keyword : String)
  deriving DecidableEq

def SyntaxCause.message : SyntaxCause → String
  | expectedExpression => "Expected expression"
  | expected what => "Expected " ++ what
  | missingLeftOperand => "Missing left-hand operand"
  | invalidAssignmentTarget => "Invalid assignment target"
  | tooManyArguments => "Can't have more than 255 arguments"
  | tooManyParameters => "Can't have more than 255 parameters"
  | outsideLoop keyword => "Can't use '" ++ keyword ++ "' outside of a loop"

/-- A syntax error and the token at which it was noticed. -/
structure SyntaxError where
  token : Token
  cause : SyntaxCause

namespace SyntaxError

def line (e : SyntaxError) : Nat := e.token.line

/-- The lexeme in quotes, or `end` when the tokens ran out. -/
def location (e : SyntaxError) : String :=
  if e.token.kind = .endOfInput then "end" else "'" ++ e.token.lexeme ++ "'"

def message (e : SyntaxError) : String :=
  "line " ++ toString e.line ++ " at " ++ e.location ++ ": " ++ e.cause.message

end SyntaxError

end TreeWalk
