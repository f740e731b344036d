import Std.Data.TreeMap
import TreeWalk.Scope
import TreeWalk.Scope.Error
import TreeWalk.Syntax.References

/-!
# Resolution of references

Before a program runs, every reference to a local binding is resolved to a distance: the number of
scopes between the reference and the binding. The same walk finds the violations of the scoping
rules. What is found in no local scope is left to the top level at run time.
-/

namespace TreeWalk

/-- The distances of the resolved references. -/
abbrev Distances := Std.TreeMap NodeId Nat

/-- What the walk finds at a node. -/
inductive Finding where
  | distance (id : NodeId) (name : String) (distance : Nat)
  | violation (error : ScopeError)
  deriving DecidableEq

inductive FunctionRole where
  | function
  | method
  | initializer
  deriving DecidableEq

inductive ClassRole where
  | plain
  | withParent
  deriving DecidableEq

/-- The innermost function and the innermost class around a place. -/
structure Surroundings where
  inFunction : Option FunctionRole
  inClass : Option ClassRole

namespace Scopes

def locate (s : Scopes) (id : NodeId) (name : String) : List Finding :=
  match s.distance? name with
  | some d => [.distance id name d]
  | none => []

def violation (place : Name) (cause : ScopeCause) : List Finding := [.violation ⟨place, cause⟩]

/-- The finding of a declaration: a violation if the scope has the name already. -/
def declaration (s : Scopes) (name : Name) : List Finding :=
  if s.redeclares name.text then violation name .alreadyDeclared else []

/-- Names that are declared one after the other. -/
def declarations : Scopes → List Name → List Finding
  | _, [] => []
  | s, name :: rest => s.declaration name ++ (s.define name.text).declarations rest

/-- The findings of a variable that is read. -/
def read (s : Scopes) (use : Reference) : List Finding :=
  (if s.uninitialized use.name.text then violation use.name .readInOwnInitializer else [])
    ++ s.locate use.id use.name.text

end Scopes

def methodRole (name : Name) : FunctionRole :=
  if name.text = initializerName then .initializer else .method

mutual

/-- The findings of an expression. A reference comes behind the expressions whose values it needs. -/
def Expr.findings (around : Surroundings) (s : Scopes) : Expr → List Finding
  | .literal _ => []
  | .variable use => s.read use
  | .assign target value => value.findings around s ++ s.locate target.id target.name.text
  | .group inner => inner.findings around s
  | .unary _ operand => operand.findings around s
  | .binary left _ right => left.findings around s ++ right.findings around s
  | .logical left _ right => left.findings around s ++ right.findings around s
  | .conditional condition thenBranch elseBranch =>
    condition.findings around s ++ thenBranch.findings around s ++ elseBranch.findings around s
  | .call callee _ arguments => callee.findings around s ++ Expr.findingsAll around s arguments
  | .get object _ => object.findings around s
  | .set object _ value => value.findings around s ++ object.findings around s
  | .this id line =>
    match around.inClass with
    | none => Scopes.violation ⟨receiverName, line⟩ .thisOutsideClass
    | some _ => s.locate id receiverName
  | .parent id keyword _ =>
    match around.inClass with
    | none => Scopes.violation keyword .parentOutsideClass
    | some .plain => Scopes.violation keyword .parentWithoutParentClass
    | some .withParent => s.locate id parentName
  | .lambda function => function.findings around s .function
  | .list _ elements => Expr.findingsAll around s elements
  | .index object _ position => object.findings around s ++ position.findings around s

def Expr.findingsAll (around : Surroundings) (s : Scopes) : List Expr → List Finding
  | [] => []
  | e :: rest => e.findings around s ++ Expr.findingsAll around s rest

def Stmt.findings (around : Surroundings) (s : Scopes) : Stmt → List Finding
  | .expression value => value.findings around s
  | .print _ value => value.findings around s
  | .var name none => s.declaration name
  | .var name (some initializer) =>
    s.declaration name ++ initializer.findings around (s.declare name.text)
  | .block body => Stmt.findingsAll around s.enter body
  | .branch condition thenBranch none =>
    condition.findings around s ++ thenBranch.findings around s
  | .branch condition thenBranch (some elseBranch) =>
    condition.findings around s ++ thenBranch.findings around s
      ++ elseBranch.findings around (thenBranch.declared s)
  | .loop condition body none => condition.findings around s ++ body.findings around s
  | .loop condition body (some increment) =>
    condition.findings around s ++ body.findings around s ++ increment.findings around (body.declared s)
  | .break _ => []
  | .continue _ => []
  | .return line none =>
    if around.inFunction = none then Scopes.violation ⟨"return", line⟩ .topLevelReturn else []
  | .return line (some value) =>
    (match around.inFunction with
      | none => Scopes.violation ⟨"return", line⟩ .topLevelReturn
      | some .initializer => Scopes.violation ⟨"return", line⟩ .returnValueFromInitializer
      | some _ => []) ++ value.findings around s
  | .function name function =>
    s.declaration name ++ function.findings around (s.define name.text) .function
  | .class name none methods =>
    s.declaration name ++
      Method.findingsAll { around with inClass := some .plain }
        ((s.define name.text).enter.define receiverName) methods
  | .class name (some parent) methods =>
    s.declaration name
      ++ (if parent.name.text = name.text then Scopes.violation parent.name .selfInheritance else [])
      ++ (s.define name.text).read parent
      ++ Method.findingsAll { around with inClass := some .withParent }
        (((s.define name.text).enter.define parentName).enter.define receiverName) methods
  | .empty => []

/-- Statements in order, each with the names that those before it declare. -/
def Stmt.findingsAll (around : Surroundings) (s : Scopes) : List Stmt → List Finding
  | [] => []
  | statement :: rest =>
    statement.findings around s ++ Stmt.findingsAll around (statement.declared s) rest

/-- Parameters and body share one scope. -/
def Function.findings (around : Surroundings) (s : Scopes) (role : FunctionRole) :
    Function → List Finding
  | .mk params body =>
    s.enter.declarations params
      ++ Stmt.findingsAll { around with inFunction := some role } (s.enter.defineAll params) body

def Method.findingsAll (around : Surroundings) (s : Scopes) : List Method → List Finding
  | [] => []
  | .mk name function :: rest =>
    function.findings around s (methodRole name) ++ Method.findingsAll around s rest

end

/-- The findings of a program, in the order of the walk. -/
structure Resolution where
  findings : List Finding

namespace Resolution

/-- Resolves a program that runs where the given names are bound. -/
def ofProgram (globals : Bindings Bool) (program : List Stmt) : Resolution :=
  ⟨Stmt.findingsAll ⟨none, none⟩ (.ofGlobals globals) program⟩

/-- The top level behind a program. -/
def globalsBehind (globals : Bindings Bool) (program : List Stmt) : Bindings Bool :=
  (Stmt.declaredAll (.ofGlobals globals) program).globals

/-- Names that are all bound already. -/
def knownGlobals (names : List String) : Bindings Bool := ⟨names.map (·, true)⟩

def errors (r : Resolution) : List ScopeError :=
  r.findings.filterMap fun
    | .violation e => some e
    | .distance .. => none

/-- Adds the distances to those known already. -/
def addDistances (r : Resolution) (known : Distances) : Distances :=
  r.findings.foldl (fun found finding =>
    match finding with
    | .distance id _ d => found.insert id d
    | .violation _ => found) known

def distances (r : Resolution) : Distances := r.addDistances ∅

end Resolution

end TreeWalk
