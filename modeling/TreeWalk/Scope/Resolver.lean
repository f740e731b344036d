import TreeWalk.Scope.Resolution

/-!
# The resolver in use

A resolver resolves one program after the other. It walks a program once and keeps what it has come
to: the scopes around the place, the innermost function and class, the distances and the violations
found so far. The names at top level outlast a program, everything else is for one program only.
-/

namespace TreeWalk

/-- Closes the innermost scope. -/
def Scopes.leave (s : Scopes) : Scopes := { s with locals := s.locals.tail }

structure Resolver where
  scopes : Scopes
  around : Surroundings
  distances : Distances
  errors : List ScopeError

namespace Resolver

/-- A resolver in front of a program. -/
def atTop (globals : Bindings Bool) : Resolver := ⟨.ofGlobals globals, ⟨none, none⟩, ∅, []⟩

/-- A new resolver, for programs that run where the given names are bound. -/
def new (names : List String) : Resolver := atTop (Resolution.knownGlobals names)

/-- The names that are known at top level. -/
def names (r : Resolver) : List String := r.scopes.globals.names

def report (r : Resolver) (place : Name) (cause : ScopeCause) : Resolver :=
  { r with errors := r.errors ++ [⟨place, cause⟩] }

/-- Records the distance of a reference, unless its name is in no local scope. -/
def locate (r : Resolver) (id : NodeId) (name : String) : Resolver :=
  match r.scopes.distance? name with
  | some d => { r with distances := r.distances.insert id d }
  | none => r

def enter (r : Resolver) : Resolver := { r with scopes := r.scopes.enter }

def leave (r : Resolver) : Resolver := { r with scopes := r.scopes.leave }

def declare (r : Resolver) (name : Name) : Resolver :=
  if r.scopes.redeclares name.text then r.report name .alreadyDeclared
  else { r with scopes := r.scopes.declare name.text }

def define (r : Resolver) (name : String) : Resolver := { r with scopes := r.scopes.define name }

/-- Parameters are declared and initialized one after the other. -/
def bindAll (r : Resolver) (names : List Name) : Resolver :=
  names.foldl (fun r name => (r.declare name).define name.text) r

def read (r : Resolver) (use : Reference) : Resolver :=
  (if r.scopes.uninitialized use.name.text then r.report use.name .readInOwnInitializer else r).locate
    use.id use.name.text

def setFunction (r : Resolver) (role : Option FunctionRole) : Resolver :=
  { r with around := { r.around with inFunction := role } }

def setClass (r : Resolver) (role : Option ClassRole) : Resolver :=
  { r with around := { r.around with inClass := role } }

end Resolver

mutual

/-- The resolver behind an expression. -/
def Expr.resolve : Expr → Resolver → Resolver
  | .literal _, r => r
  | .variable use, r => r.read use
  | .assign target value, r => (value.resolve r).locate target.id target.name.text
  | .group inner, r => inner.resolve r
  | .unary _ operand, r => operand.resolve r
  | .binary left _ right, r => right.resolve (left.resolve r)
  | .logical left _ right, r => right.resolve (left.resolve r)
  | .conditional condition thenBranch elseBranch, r =>
    elseBranch.resolve (thenBranch.resolve (condition.resolve r))
  | .call callee _ arguments, r => Expr.resolveAll arguments (callee.resolve r)
  | .get object _, r => object.resolve r
  | .set object _ value, r => object.resolve (value.resolve r)
  | .this id line, r =>
    match r.around.inClass with
    | none => r.report ⟨receiverName, line⟩ .thisOutsideClass
    | some _ => r.locate id receiverName
  | .parent id keyword _, r =>
    match r.around.inClass with
    | none => r.report keyword .parentOutsideClass
    | some .plain => r.report keyword .parentWithoutParentClass
    | some .withParent => r.locate id parentName
  | .lambda function, r => function.resolve .function r
  | .list _ elements, r => Expr.resolveAll elements r
  | .index object _ position, r => position.resolve (object.resolve r)

def Expr.resolveAll : List Expr → Resolver → Resolver
  | [], r => r
  | e :: rest, r => Expr.resolveAll rest (e.resolve r)

/-- The resolver behind a statement. -/
def Stmt.resolve : Stmt → Resolver → Resolver
  | .expression value, r => value.resolve r
  | .print _ value, r => value.resolve r
  | .var name none, r => (r.declare name).define name.text
  | .var name (some initializer), r => (initializer.resolve (r.declare name)).define name.text
  | .block body, r => (Stmt.resolveAll body r.enter).leave
  | .branch condition thenBranch none, r => thenBranch.resolve (condition.resolve r)
  | .branch condition thenBranch (some elseBranch), r =>
    elseBranch.resolve (thenBranch.resolve (condition.resolve r))
  | .loop condition body none, r => body.resolve (condition.resolve r)
  | .loop condition body (some increment), r => increment.resolve (body.resolve (condition.resolve r))
  | .break _, r => r
  | .continue _, r => r
  | .return line none, r =>
    if r.around.inFunction = none then r.report ⟨"return", line⟩ .topLevelReturn else r
  | .return line (some value), r =>
    value.resolve (match r.around.inFunction with
      | none => r.report ⟨"return", line⟩ .topLevelReturn
      | some .initializer => r.report ⟨"return", line⟩ .returnValueFromInitializer
      | some _ => r)
  | .function name function, r => function.resolve .function ((r.declare name).define name.text)
  | .class name none methods, r =>
    let named := ((r.setClass (some .plain)).declare name).define name.text
    (Method.resolveAll methods (named.enter.define receiverName)).leave.setClass r.around.inClass
  | .class name (some parent) methods, r =>
    let named := ((r.setClass (some .plain)).declare name).define name.text
    let checked :=
      if parent.name.text = name.text then named.report parent.name .selfInheritance else named
    let inherited := ((checked.setClass (some .withParent)).read parent).enter.define parentName
    (Method.resolveAll methods (inherited.enter.define receiverName)).leave.leave.setClass r.around.inClass
  | .empty, r => r

def Stmt.resolveAll : List Stmt → Resolver → Resolver
  | [], r => r
  | statement :: rest, r => Stmt.resolveAll rest (statement.resolve r)

/-- Parameters and body share one scope. -/
def Function.resolve (role : FunctionRole) : Function → Resolver → Resolver
  | .mk params body, r =>
    (Stmt.resolveAll body ((r.setFunction (some role)).enter.bindAll params)).leave.setFunction
      r.around.inFunction

def Method.resolveAll : List Method → Resolver → Resolver
  | [], r => r
  | .mk name function :: rest, r => Method.resolveAll rest (function.resolve (methodRole name) r)

end

namespace Resolver

/-- In front of a program the scopes of the one before are dropped. -/
def restart (r : Resolver) : Resolver := { r with scopes := .ofGlobals r.scopes.globals, around := ⟨none, none⟩ }

/-- Hands out the distances, or all violations if there are any. Neither are kept. -/
def finish (r : Resolver) : Except (List ScopeError) Distances × Resolver :=
  if r.errors.isEmpty then (.ok r.distances, { r with distances := ∅ })
  else (.error r.errors, { r with distances := ∅, errors := [] })

def resolve (r : Resolver) (program : List Stmt) : Except (List ScopeError) Distances × Resolver :=
  (Stmt.resolveAll program r.restart).finish

/-- The resolvers that come from a new one by resolving programs, with or without violations. -/
inductive Reached : Resolver → Prop where
  | new (names : List String) : Reached (.new names)
  | resolve {r : Resolver} (h : Reached r) (program : List Stmt) : Reached (r.resolve program).2

end Resolver

end TreeWalk
