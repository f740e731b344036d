import TreeWalk.Native

/-!
# Evaluation

Expressions evaluate to values and statements run for their effects. Every function here counts down
the steps that it may still nest, and stops unfinished at none, so all of them end; a run that has
finished is not changed by more steps.
-/

namespace TreeWalk

/-- How a statement hands over to what comes after it. -/
inductive Flow where
  | normal
  | break
  | continue
  | return (value : Value)

/-- Whether the left operand alone decides. -/
def LogicalKind.decides : LogicalKind → Bool → Bool
  | and, left => !left
  | or, left => left

namespace Run

/-- The closure of a method whose class is declared in the given environment. -/
def methodClosure (environment : Environment) : Method → String × Closure
  | .mk name function =>
    (name.text, ⟨.method name.text, function, environment, name.text == initializerName⟩)

/-- A new class. Of methods with the same name the last one counts. -/
def newClass (name : String) (parent : Option Class) (methods : List (String × Closure)) :
    Run Value := do
  let identity ← allocate (·.addIdentity)
  pure (.class ⟨⟨identity, name, Bindings.empty.setAll methods⟩,
    (parent.map Class.lineage).getD []⟩)

/-- Declares a class. Its name is bound before its methods are closed over, and the methods of a
class with a parent find the parent class in a frame of their own. -/
def declareClass (environment : Environment) (name : Name) (parent : Option Reference)
    (methods : List Method) : Run Unit := do
  define environment name.text .nil
  match parent with
  | none => do
    define environment name.text
      (← newClass name.text none (methods.map (methodClosure environment)))
  | some use => do
    match ← read environment use with
    | .class parent => do
      let inner ← enter environment (Bindings.empty.set parentName (.class parent))
      define environment name.text
        (← newClass name.text (some parent) (methods.map (methodClosure inner)))
    | _ => fail use.name.line .parentNotAClass

end Run

namespace Evaluation

open Run

mutual

def eval : (steps : Nat) → Environment → Expr → Run Value
  | 0, _, _ => unfinished
  | steps + 1, env, e =>
    match e with
    | .literal value => pure (.ofLiteral value)
    | .variable use => read env use
    | .assign target value => do
      let value ← eval steps env value
      assign env target value
      pure value
    | .group inner => eval steps env inner
    | .unary op operand => do
      let operand ← eval steps env operand
      match op.kind with
      | .negate => ofExcept op.line (Value.negate operand)
      | .not => pure (.bool !(← look (·.truthy operand)))
    | .binary left op right => do
      let left ← eval steps env left
      let right ← eval steps env right
      Run.binary op left right
    | .logical left op right => do
      let left ← eval steps env left
      if op.kind.decides (← look (·.truthy left)) then pure left else eval steps env right
    | .conditional condition thenBranch elseBranch => do
      let condition ← eval steps env condition
      if ← look (·.truthy condition) then eval steps env thenBranch else eval steps env elseBranch
    | .call callee line arguments => do
      let callee ← eval steps env callee
      let values ← evalAll steps env arguments
      call steps line callee (values.zipWith Argument.mk arguments)
    | .get object name => do
      match ← eval steps env object with
      | .object id ofClass => property id ofClass name
      | _ => fail name.line .notAnInstance
    | .set object name value => do
      match ← eval steps env object with
      | .object id _ => do
        let value ← eval steps env value
        update (·.setField id name.text value)
        pure value
      | _ => fail name.line .fieldOnNonInstance
    | .this id line => read env ⟨id, receiverName, line⟩
    | .parent id keyword method => parentMethod env id keyword method
    | .lambda function => newFunction ⟨.lambda, function, env, false⟩
    | .list _ elements => do
      let values ← evalAll steps env elements
      pure (.list (← allocate (·.addList values.toArray)))
    | .index object line position => do
      let object ← eval steps env object
      let position ← eval steps env position
      operation line fun h => h.subscript object position

/-- The values of expressions, from left to right. -/
def evalAll : (steps : Nat) → Environment → List Expr → Run (List Value)
  | 0, _, _ => unfinished
  | steps + 1, env, expressions =>
    match expressions with
    | [] => pure []
    | e :: rest => do
      let value ← eval steps env e
      let values ← evalAll steps env rest
      pure (value :: values)

/-- Calls a value. That it can be called and takes so many arguments is checked before the number
of calls in progress. -/
def call : (steps : Nat) → (line : Nat) → Value → List Argument → Run Value
  | 0, _, _, _ => unfinished
  | steps + 1, line, callee, arguments =>
    match callee.callable? with
    | none => fail line .notCallable
    | some callable =>
      if arguments.length != callable.arity then
        fail line (.arityMismatch callable.arity arguments.length)
      else
        nested line
          (match callable with
          | .native f => f.run line arguments
          | .constant result => pure result
          | .closure closure => invoke steps closure (arguments.map (·.value))
          | .class c => instantiate steps c (arguments.map (·.value)))

/-- A new object. Its initializer counts as the same call. -/
def instantiate : (steps : Nat) → Class → List Value → Run Value
  | 0, _, _ => unfinished
  | steps + 1, ofClass, arguments => do
    let object := .object (← allocate (·.addObject)) ofClass
    match ofClass.method? initializerName with
    | none => pure object
    | some initializer => do
      let _ ← invoke steps (← bindReceiver initializer object) arguments
      pure object

/-- Runs the body of a function, whose parameters share a frame with what the body declares. -/
def invoke : (steps : Nat) → Closure → List Value → Run Value
  | 0, _, _ => unfinished
  | steps + 1, closure, arguments => do
    let parameters := (closure.function.params.map (·.text)).zip arguments
    let env ← enter closure.environment (Bindings.empty.setAll parameters)
    let flow ← execAll steps env closure.function.body
    if closure.isInitializer then
      look fun h => (h.get? closure.environment 0 receiverName).getD .nil
    else
      match flow with
      | .return value => pure value
      | _ => pure .nil

def exec : (steps : Nat) → Environment → Stmt → Run Flow
  | 0, _, _ => unfinished
  | steps + 1, env, statement =>
    match statement with
    | .expression value => do
      let value ← eval steps env value
      if (← get).echo then writeLine .echoed value
      pure .normal
    | .print _ value => do
      let value ← eval steps env value
      writeLine .printed value
      pure .normal
    | .var name none => do
      define env name.text .nil
      pure .normal
    | .var name (some initializer) => do
      let value ← eval steps env initializer
      define env name.text value
      pure .normal
    | .block body => do
      let env ← enter env .empty
      execAll steps env body
    | .branch condition thenBranch elseBranch => do
      let condition ← eval steps env condition
      if ← look (·.truthy condition) then exec steps env thenBranch
      else
        match elseBranch with
        | none => pure .normal
        | some elseBranch => exec steps env elseBranch
    | .loop condition body increment => loop steps env condition body increment
    | .break _ => pure .break
    | .continue _ => pure .continue
    | .return _ none => pure (.return .nil)
    | .return _ (some value) => do
      let value ← eval steps env value
      pure (.return value)
    | .function name function => do
      define env name.text (← newFunction ⟨.function name.text, function, env, false⟩)
      pure .normal
    | .class name parent methods => do
      declareClass env name parent methods
      pure .normal
    | .empty => pure .normal

/-- Statements in order, up to the first that does not hand over to the next one. -/
def execAll : (steps : Nat) → Environment → List Stmt → Run Flow
  | 0, _, _ => unfinished
  | steps + 1, env, statements =>
    match statements with
    | [] => pure .normal
    | statement :: rest => do
      match ← exec steps env statement with
      | .normal => execAll steps env rest
      | flow => pure flow

def loop : (steps : Nat) → Environment → Expr → Stmt → Option Expr → Run Flow
  | 0, _, _, _, _ => unfinished
  | steps + 1, env, condition, body, increment => do
    let again ← eval steps env condition
    if ← look (·.truthy again) then
      match ← exec steps env body with
      | .break => pure .normal
      | .return value => pure (.return value)
      | _ => do
        match increment with
        | none => pure ()
        | some increment => let _ ← eval steps env increment
        loop steps env condition body increment
    else pure .normal

end

/-- Runs the statements of a program at top level, up to the first fault. -/
def program (steps : Nat) : List Stmt → Run Unit
  | [] => pure ()
  | statement :: rest => do
    let _ ← exec steps [] statement
    program steps rest

end Evaluation

end TreeWalk
