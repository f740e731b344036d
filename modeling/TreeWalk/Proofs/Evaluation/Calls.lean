import TreeWalk.Proofs.Evaluation.Composition
import TreeWalk.Proofs.Syntax.Place

/-!
# Calls on record

A run makes calls, and in each call others. The evaluator here does the same as the one with records and keeps,
besides, the tree of all calls: what has been called where, with how many calls in progress, and what has happened
inside. `tells` says that it is the same evaluator, and that its trees are such as `Story` describes.
-/

namespace TreeWalk

/-- A value that is to be called, at a place where it has been evaluated together with the arguments. -/
structure Invocation where
  environment : Environment
  callee : Expr
  line : Nat
  operands : List Expr
  /-- The machine on which the expression began to be evaluated. -/
  start : Machine
  value : Value
  operandValues : List Value

namespace Invocation

/-- The expression that is a call. -/
def site (a : Invocation) : Expr := .call a.callee a.line a.operands

def arguments (a : Invocation) : List Argument := a.operandValues.zipWith Argument.mk a.operands

/-- The value can be called and takes so many arguments. -/
def Admitted (a : Invocation) : Prop := ∃ callable, a.value.callable? = some callable ∧ a.arguments.length = callable.arity

end Invocation

/-- What happens in a run. -/
inductive Happening where
  /-- An expression or a statement is about to be run, with so many calls in progress. -/
  | reaches (environment : Environment) (node : Node) (depth : Nat)
  /-- The body of a function is about to be run, with so many calls in progress. -/
  | enters (closure : Closure) (depth : Nat)
  /-- A call has been turned down, with so many calls in progress. -/
  | refuses (invocation : Invocation) (depth : Nat)
  /-- A call has been made, with so many calls in progress around it. -/
  | call (invocation : Invocation) (depth : Nat) (inside : List Happening)

namespace Happening

/-- How many calls are in progress. -/
def depth : Happening → Nat
  | reaches _ _ depth | enters _ depth | refuses _ depth | call _ depth _ => depth

/-- What is to be called, whether the call is made or turned down. -/
def invocation? : Happening → Option Invocation
  | refuses a _ | call a _ _ => some a
  | _ => none

end Happening

/-- It is one of these happenings, or happens in so many calls of them, one inside the other. -/
inductive Happens : List Happening → Nat → Happening → Prop where
  | here {hs : List Happening} {x : Happening} (hmem : x ∈ hs) : Happens hs 0 x
  | inside {hs inside : List Happening} {a : Invocation} {depth calls : Nat} {x : Happening}
    (hmem : .call a depth inside ∈ hs) (h : Happens inside calls x) : Happens hs (calls + 1) x

namespace Happens

variable {h x : Happening} {hs hs' : List Happening} {calls : Nat}

theorem mono (hx : Happens hs calls x) (hsubset : hs ⊆ hs') : Happens hs' calls x := by
  cases hx with
  | here hmem => exact .here (hsubset hmem)
  | inside hmem hx => exact .inside (hsubset hmem) hx

theorem nil_iff : Happens [] calls x ↔ False := by
  refine ⟨fun hx => ?_, False.elim⟩
  cases hx with
  | here hmem | inside hmem => cases hmem

theorem cons_iff : Happens (h :: hs) calls x ↔ Happens [h] calls x ∨ Happens hs calls x := by
  refine ⟨fun hx => ?_, Or.rec (·.mono (by simp)) (·.mono (List.subset_cons_self h hs))⟩
  cases hx with
  | here hmem => exact (List.mem_cons.1 hmem).imp (fun heq => .here (List.mem_singleton.2 heq)) .here
  | inside hmem hx =>
    exact (List.mem_cons.1 hmem).imp (fun heq => .inside (List.mem_singleton.2 heq) hx) fun hmem => .inside hmem hx

end Happens

structure Tracing where
  recording : Recording
  /-- In the order in which they have happened. -/
  happenings : List Happening

abbrev Tracing.machine (t : Tracing) : Machine := t.recording.machine

/-- Nothing is on record, and nothing has happened. -/
def Tracing.blank (m : Machine) : Tracing := ⟨⟨m, []⟩, []⟩

abbrev Tracer := EStateM Stop Tracing

namespace Tracer

variable {α : Type}

/-- What is done without any call. -/
def lift (x : Recorder α) : Tracer α := fun t =>
  match x t.recording with
  | .ok a r => .ok a { t with recording := r }
  | .error stop r => .error stop { t with recording := r }

def run (x : Run α) : Tracer α := lift (Recorder.lift x)

def note (happening : Machine → Happening) : Tracer Unit := fun t =>
  .ok () { t with happenings := t.happenings ++ [happening t.machine] }

def reach (env : Environment) (n : Node) : Tracer Unit := note fun m => .reaches env n m.depth

def enter (closure : Closure) : Tracer Unit := note fun m => .enters closure m.depth

def refuse (a : Invocation) (cause : FaultCause) : Tracer α := do
  note fun m => .refuses a m.depth
  run (Run.fail a.line cause)

/-- Behind a call the happenings inside it are one happening. -/
def closed (a : Invocation) (t : Tracing) : EStateM.Result Stop Tracing α → EStateM.Result Stop Tracing α
  | .ok v inner => .ok v (outer inner)
  | .error stop inner => .error stop (outer inner)
where
  outer (inner : Tracing) : Tracing :=
    { recording := { inner.recording with machine := { inner.machine with depth := inner.machine.depth - 1 } }
      happenings := t.happenings ++ [.call a t.machine.depth inner.happenings] }

/-- Runs a call, unless too many are in progress. -/
def nested (a : Invocation) (body : Tracer α) : Tracer α := fun t =>
  if t.machine.depth == maxDepth then refuse a .stackOverflow t
  else closed a t (body { recording := t.recording.deeper, happenings := [] })

mutual

def eval : (steps : Nat) → Environment → Expr → Tracer Value
  | 0, _, _ => run Run.unfinished
  | steps + 1, env, e => do
    lift (Recorder.note (.evaluates env e))
    reach env (.expr e)
    match e with
    | .literal value => pure (.ofLiteral value)
    | .variable use => lift (Recorder.read env use)
    | .assign target value => do
      let value ← eval steps env value
      lift (Recorder.note (.looks env target))
      run (Run.assign env target value)
      pure value
    | .group inner => eval steps env inner
    | .unary op operand => do
      let operand ← eval steps env operand
      run (match op.kind with
        | .negate => Run.ofExcept op.line (Value.negate operand)
        | .not => do pure (.bool !(← Run.look (·.truthy operand))))
    | .binary left op right => do
      let left ← eval steps env left
      let right ← eval steps env right
      run (Run.binary op left right)
    | .logical left op right => do
      let left ← eval steps env left
      if op.kind.decides (← run (Run.look (·.truthy left))) then pure left else eval steps env right
    | .conditional condition thenBranch elseBranch => do
      let condition ← eval steps env condition
      if ← run (Run.look (·.truthy condition)) then eval steps env thenBranch
      else eval steps env elseBranch
    | .call callee line operands => do
      let start ← run get
      let value ← eval steps env callee
      let values ← evalAll steps env operands
      call steps ⟨env, callee, line, operands, start, value, values⟩
    | .get object name => do
      match ← eval steps env object with
      | .object id ofClass => lift (Recorder.property id ofClass name)
      | _ => run (Run.fail name.line .notAnInstance)
    | .set object name value => do
      match ← eval steps env object with
      | .object id _ => do
        let value ← eval steps env value
        run (Run.update (·.setField id name.text value))
        pure value
      | _ => run (Run.fail name.line .fieldOnNonInstance)
    | .this id line => lift (Recorder.read env ⟨id, receiverName, line⟩)
    | .parent id keyword method => do
      lift (Recorder.note (.looks env ⟨id, parentName, keyword.line⟩))
      lift (Recorder.parentMethod env id keyword method)
    | .lambda function => run (Run.newFunction ⟨.lambda, function, env, false⟩)
    | .list _ elements => do
      let values ← evalAll steps env elements
      pure (.list (← run (Run.allocate (·.addList values.toArray))))
    | .index object line position => do
      let object ← eval steps env object
      let position ← eval steps env position
      run (Run.operation line fun h => h.subscript object position)

def evalAll : (steps : Nat) → Environment → List Expr → Tracer (List Value)
  | 0, _, _ => run Run.unfinished
  | steps + 1, env, expressions =>
    match expressions with
    | [] => pure []
    | e :: rest => do
      let value ← eval steps env e
      let values ← evalAll steps env rest
      pure (value :: values)

def call : (steps : Nat) → Invocation → Tracer Value
  | 0, _ => run Run.unfinished
  | steps + 1, a =>
    match a.value.callable? with
    | none => refuse a .notCallable
    | some callable =>
      if a.arguments.length != callable.arity then
        refuse a (.arityMismatch callable.arity a.arguments.length)
      else
        nested a
          (match callable with
          | .native f => run (f.run a.line a.arguments)
          | .constant result => pure result
          | .closure closure => do
            enter closure
            invoke steps closure (a.arguments.map (·.value))
          | .class c => instantiate steps c (a.arguments.map (·.value)))

def instantiate : (steps : Nat) → Class → List Value → Tracer Value
  | 0, _, _ => run Run.unfinished
  | steps + 1, ofClass, arguments => do
    let object := .object (← run (Run.allocate (·.addObject))) ofClass
    match ofClass.method? initializerName with
    | none => pure object
    | some initializer => do
      let bound ← lift (Recorder.bindReceiver initializer object)
      enter bound
      let _ ← invoke steps bound arguments
      pure object

def invoke : (steps : Nat) → Closure → List Value → Tracer Value
  | 0, _, _ => run Run.unfinished
  | steps + 1, closure, arguments => do
    let parameters := (closure.function.params.map (·.text)).zip arguments
    let env ← run (Run.enter closure.environment (Bindings.empty.setAll parameters))
    let flow ← execAll steps env closure.function.body
    lift (Recorder.note fun _ => .finishes closure flow)
    let result ← run
      (if closure.isInitializer then
        Run.look fun h => (h.get? closure.environment 0 receiverName).getD .nil
      else
        match flow with
        | .return value => pure value
        | _ => pure .nil)
    lift (Recorder.note fun _ => .returns closure result)
    pure result

def exec : (steps : Nat) → Environment → Stmt → Tracer Flow
  | 0, _, _ => run Run.unfinished
  | steps + 1, env, statement => do
    lift (Recorder.note (.executes env statement))
    reach env (.stmt statement)
    match statement with
    | .expression value => do
      let value ← eval steps env value
      if (← run get).echo then run (Run.writeLine .echoed value)
      pure .normal
    | .print _ value => do
      let value ← eval steps env value
      run (Run.writeLine .printed value)
      pure .normal
    | .var name none => do
      run (Run.define env name.text .nil)
      pure .normal
    | .var name (some initializer) => do
      let value ← eval steps env initializer
      run (Run.define env name.text value)
      pure .normal
    | .block body => do
      let inner ← run (Run.enter env .empty)
      execAll steps inner body
    | .branch condition thenBranch elseBranch => do
      let condition ← eval steps env condition
      if ← run (Run.look (·.truthy condition)) then exec steps env thenBranch
      else
        match elseBranch with
        | none => pure .normal
        | some elseBranch => exec steps env elseBranch
    | .loop condition body increment => loop steps env condition body increment
    | .break _ => pure .break
    | .continue _ => pure .continue
    | .return _ none => pure (.return .nil)
    | .return _ (some value) => do
      let value ← eval steps env value
      pure (.return value)
    | .function name function => do
      let value ← run (Run.newFunction ⟨.function name.text, function, env, false⟩)
      run (Run.define env name.text value)
      pure .normal
    | .class name parent methods => do
      lift (Recorder.declareClass env name parent methods)
      pure .normal
    | .empty => pure .normal

def execAll : (steps : Nat) → Environment → List Stmt → Tracer Flow
  | 0, _, _ => run Run.unfinished
  | steps + 1, env, statements =>
    match statements with
    | [] => pure .normal
    | statement :: rest => do
      match ← exec steps env statement with
      | .normal => execAll steps env rest
      | flow => pure flow

def loop : (steps : Nat) → Environment → Expr → Stmt → Option Expr → Tracer Flow
  | 0, _, _, _, _ => run Run.unfinished
  | steps + 1, env, condition, body, increment => do
    let again ← eval steps env condition
    if ← run (Run.look (·.truthy again)) then
      match ← exec steps env body with
      | .break => pure .normal
      | .return value => pure (.return value)
      | _ => do
        match increment with
        | none => pure ()
        | some increment => let _ ← eval steps env increment
        loop steps env condition body increment
    else pure .normal

end

end Tracer

end TreeWalk
