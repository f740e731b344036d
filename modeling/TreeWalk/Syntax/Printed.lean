import TreeWalk.Syntax

/-!
# Printed form of expressions

Expressions are shown in parentheses with the operator first. The bodies of lambdas are left out.
-/

namespace TreeWalk

/-- Strings are put between quotes as they are, without escapes. -/
def Literal.printed : Literal → String
  | nil => "nil"
  | bool true => "true"
  | bool false => "false"
  | number value => Number.text value
  | text value => "\"" ++ value ++ "\""

/-- The parameter names of a lambda, with three dots for its body. -/
def Function.printed (f : Function) : String :=
  "(fun (" ++ " ".intercalate (f.params.map (·.text)) ++ ") ...)"

mutual

def Expr.printed : Expr → String
  | .literal value => value.printed
  | .variable use => use.name.text
  | .assign target value => "(= " ++ target.name.text ++ " " ++ value.printed ++ ")"
  | .group inner => "(group " ++ inner.printed ++ ")"
  | .unary op operand => "(" ++ op.spelling ++ " " ++ operand.printed ++ ")"
  | .binary left op right =>
    "(" ++ op.spelling ++ " " ++ left.printed ++ " " ++ right.printed ++ ")"
  | .logical left op right =>
    "(" ++ op.spelling ++ " " ++ left.printed ++ " " ++ right.printed ++ ")"
  | .conditional condition thenBranch elseBranch =>
    "(? " ++ condition.printed ++ " : " ++ thenBranch.printed ++ " " ++ elseBranch.printed ++ ")"
  | .call callee _ arguments => "(call " ++ callee.printed ++ Expr.printedAll arguments ++ ")"
  | .get object name => "(get " ++ object.printed ++ " " ++ name.text ++ ")"
  | .set object name value =>
    "(set " ++ object.printed ++ " " ++ name.text ++ " " ++ value.printed ++ ")"
  | .this _ _ => "this"
  | .parent _ _ method => "(parent " ++ method.text ++ ")"
  | .lambda function => function.printed
  | .list _ elements => "(list" ++ Expr.printedAll elements ++ ")"
  | .index object _ position => "(index " ++ object.printed ++ " " ++ position.printed ++ ")"

/-- The printed forms in order, each after a space. -/
def Expr.printedAll : List Expr → String
  | [] => ""
  | e :: rest => " " ++ e.printed ++ Expr.printedAll rest

end

end TreeWalk
