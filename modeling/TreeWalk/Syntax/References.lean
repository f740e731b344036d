import TreeWalk.Syntax
import TreeWalk.Syntax.Special

/-!
# References of a program

The uses of bindings in a program, in the order in which they are written down: variables,
assignments, `this` and `parent`.
-/

namespace TreeWalk

mutual

/-- The references of an expression, itself before its parts. -/
def Expr.references : Expr → List Reference
  | .literal _ => []
  | .variable use => [use]
  | .assign target value => target :: value.references
  | .group inner => inner.references
  | .unary _ operand => operand.references
  | .binary left _ right => left.references ++ right.references
  | .logical left _ right => left.references ++ right.references
  | .conditional condition thenBranch elseBranch =>
    condition.references ++ thenBranch.references ++ elseBranch.references
  | .call callee _ arguments => callee.references ++ Expr.referencesAll arguments
  | .get object _ => object.references
  | .set object _ value => object.references ++ value.references
  | .this id line => [⟨id, receiverName, line⟩]
  | .parent id keyword _ => [⟨id, parentName, keyword.line⟩]
  | .lambda function => function.references
  | .list _ elements => Expr.referencesAll elements
  | .index object _ position => object.references ++ position.references

def Expr.referencesAll : List Expr → List Reference
  | [] => []
  | e :: rest => e.references ++ Expr.referencesAll rest

def Stmt.references : Stmt → List Reference
  | .expression value => value.references
  | .print _ value => value.references
  | .var _ none => []
  | .var _ (some initializer) => initializer.references
  | .block body => Stmt.referencesAll body
  | .branch condition thenBranch none => condition.references ++ thenBranch.references
  | .branch condition thenBranch (some elseBranch) =>
    condition.references ++ thenBranch.references ++ elseBranch.references
  | .loop condition body none => condition.references ++ body.references
  | .loop condition body (some increment) =>
    condition.references ++ body.references ++ increment.references
  | .break _ => []
  | .continue _ => []
  | .return _ none => []
  | .return _ (some value) => value.references
  | .function _ function => function.references
  | .class _ none methods => Method.referencesAll methods
  | .class _ (some parent) methods => parent :: Method.referencesAll methods
  | .empty => []

def Stmt.referencesAll : List Stmt → List Reference
  | [] => []
  | s :: rest => s.references ++ Stmt.referencesAll rest

def Function.references : Function → List Reference
  | .mk _ body => Stmt.referencesAll body

def Method.referencesAll : List Method → List Reference
  | [] => []
  | .mk _ function :: rest => function.references ++ Method.referencesAll rest

end

end TreeWalk
