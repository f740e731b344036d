import TreeWalk.Evaluation
import TreeWalk.Proofs.Sequencing

/-!
# Evaluation on record

What is claimed of a run is claimed of all that happens in it, and an evaluator only says how it ends.
The evaluator here does the same and puts on record what it comes to. `program_mirrors` says that
it is the same evaluator.
-/

namespace TreeWalk

/-- An event of a run. -/
inductive Record where
  /-- An expression is about to be evaluated. -/
  | evaluates (environment : Environment) (e : Expr) (machine : Machine)
  /-- A statement is about to be executed. -/
  | executes (environment : Environment) (statement : Stmt) (machine : Machine)
  /-- The binding of a reference is about to be looked up. -/
  | looks (environment : Environment) (use : Reference) (machine : Machine)
  /-- The body of a function has come to its end. -/
  | finishes (closure : Closure) (flow : Flow)
  /-- A method has got a receiver. -/
  | binds (closure : Closure) (receiver : Value)
  /-- The call of a function gives back a value. -/
  | returns (closure : Closure) (result : Value)
  /-- A statement at top level has come to its end. -/
  | concludes (statement : Stmt) (flow : Flow)

/-- The machine at an event that looks into it. -/
def Record.machine? : Record → Option Machine
  | .evaluates _ _ m | .executes _ _ m | .looks _ _ m => some m
  | _ => none

structure Recording where
  machine : Machine
  /-- The latest event first. -/
  records : List Record

abbrev Recorder := EStateM Stop Recording

namespace Recorder

variable {α : Type}

/-- What is done without leaving a record. -/
def lift (run : Run α) : Recorder α := fun r =>
  match run r.machine with
  | .ok a m => .ok a { r with machine := m }
  | .error stop m => .error stop { r with machine := m }

def note (record : Machine → Record) : Recorder Unit := fun r =>
  .ok () { r with records := record r.machine :: r.records }

def bindReceiver (method : Closure) (receiver : Value) : Recorder Closure := do
  let closure ← lift (Run.bindReceiver method receiver)
  note fun _ => .binds closure receiver
  pure closure

def property (id : ObjectId) (ofClass : Class) (name : Name) : Recorder Value := do
  match ← lift (Run.look fun h => (h.fields id).get? name.text) with
  | some value => pure value
  | none =>
    match ofClass.method? name.text with
    | some method => do
      let closure ← bindReceiver method (.object id ofClass)
      lift (Run.newFunction closure)
    | none => lift (Run.fail name.line (.undefinedProperty name.text))

def parentMethod (env : Environment) (id : NodeId) (keyword method : Name) : Recorder Value := do
  match Run.parentOf? (← lift get) env id with
  | none => lift (Run.fail keyword.line (.undefinedVariable parentName))
  | some (_, none) => lift (Run.fail keyword.line (.undefinedVariable receiverName))
  | some (parent, some receiver) =>
    match parent.method? method.text with
    | some closure => do
      let bound ← bindReceiver closure receiver
      lift (Run.newFunction bound)
    | none => lift (Run.fail method.line (.undefinedProperty method.text))

/-- Runs a call, unless too many are in progress. -/
def nested (line : Nat) (body : Recorder α) : Recorder α := fun r =>
  if r.machine.depth == maxDepth then lift (Run.fail line .stackOverflow) r
  else
    match body { r with machine := { r.machine with depth := r.machine.depth + 1 } } with
    | .ok a r => .ok a { r with machine := { r.machine with depth := r.machine.depth - 1 } }
    | .error stop r => .error stop { r with machine := { r.machine with depth := r.machine.depth - 1 } }

def read (env : Environment) (use : Reference) : Recorder Value := do
  note (.looks env use)
  lift (Run.read env use)

def declareClass (env : Environment) (name : Name) (parent : Option Reference) (methods : List Method) :
    Recorder Unit := do
  lift (Run.define env name.text .nil)
  match parent with
  | none => lift do
    Run.define env name.text (← Run.newClass name.text none (methods.map (Run.methodClosure env)))
  | some use => do
    note (.evaluates env (.variable use))
    match ← read env use with
    | .class parent => lift do
      let inner ← Run.enter env (Bindings.empty.set parentName (.class parent))
      Run.define env name.text
        (← Run.newClass name.text (some parent) (methods.map (Run.methodClosure inner)))
    | _ => lift (Run.fail use.name.line .parentNotAClass)

mutual

def eval : (steps : Nat) → Environment → Expr → Recorder Value
  | 0, _, _ => lift Run.unfinished
  | steps + 1, env, e => do
    note (.evaluates env e)
    match e with
    | .literal value => pure (.ofLiteral value)
    | .variable use => read env use
    | .assign target value => do
      let value ← eval steps env value
      note (.looks env target)
      lift (Run.assign env target value)
      pure value
    | .group inner => eval steps env inner
    | .unary op operand => do
      let operand ← eval steps env operand
      lift (match op.kind with
        | .negate => Run.ofExcept op.line (Value.negate operand)
        | .not => do pure (.bool !(← Run.look (·.truthy operand))))
    | .binary left op right => do
      let left ← eval steps env left
      let right ← eval steps env right
      lift (Run.binary op left right)
    | .logical left op right => do
      let left ← eval steps env left
      if op.kind.decides (← lift (Run.look (·.truthy left))) then pure left else eval steps env right
    | .conditional condition thenBranch elseBranch => do
      let condition ← eval steps env condition
      if ← lift (Run.look (·.truthy condition)) then eval steps env thenBranch
      else eval steps env elseBranch
    | .call callee line arguments => do
      let callee ← eval steps env callee
      let values ← evalAll steps env arguments
      call steps line callee (values.zipWith Argument.mk arguments)
    | .get object name => do
      match ← eval steps env object with
      | .object id ofClass => property id ofClass name
      | _ => lift (Run.fail name.line .notAnInstance)
    | .set object name value => do
      match ← eval steps env object with
      | .object id _ => do
        let value ← eval steps env value
        lift (Run.update (·.setField id name.text value))
        pure value
      | _ => lift (Run.fail name.line .fieldOnNonInstance)
    | .this id line => read env ⟨id, receiverName, line⟩
    | .parent id keyword method => do
      note (.looks env ⟨id, parentName, keyword.line⟩)
      parentMethod env id keyword method
    | .lambda function => lift (Run.newFunction ⟨.lambda, function, env, false⟩)
    | .list _ elements => do
      let values ← evalAll steps env elements
      pure (.list (← lift (Run.allocate (·.addList values.toArray))))
    | .index object line position => do
      let object ← eval steps env object
      let position ← eval steps env position
      lift (Run.operation line fun h => h.subscript object position)

def evalAll : (steps : Nat) → Environment → List Expr → Recorder (List Value)
  | 0, _, _ => lift Run.unfinished
  | steps + 1, env, expressions =>
    match expressions with
    | [] => pure []
    | e :: rest => do
      let value ← eval steps env e
      let values ← evalAll steps env rest
      pure (value :: values)

def call : (steps : Nat) → (line : Nat) → Value → List Argument → Recorder Value
  | 0, _, _, _ => lift Run.unfinished
  | steps + 1, line, callee, arguments =>
    match callee.callable? with
    | none => lift (Run.fail line .notCallable)
    | some callable =>
      if arguments.length != callable.arity then
        lift (Run.fail line (.arityMismatch callable.arity arguments.length))
      else
        nested line
          (match callable with
          | .native f => lift (f.run line arguments)
          | .constant result => pure result
          | .closure closure => invoke steps closure (arguments.map (·.value))
          | .class c => instantiate steps c (arguments.map (·.value)))

def instantiate : (steps : Nat) → Class → List Value → Recorder Value
  | 0, _, _ => lift Run.unfinished
  | steps + 1, ofClass, arguments => do
    let object := .object (← lift (Run.allocate (·.addObject))) ofClass
    match ofClass.method? initializerName with
    | none => pure object
    | some initializer => do
      let _ ← invoke steps (← bindReceiver initializer object) arguments
      pure object

def invoke : (steps : Nat) → Closure → List Value → Recorder Value
  | 0, _, _ => lift Run.unfinished
  | steps + 1, closure, arguments => do
    let parameters := (closure.function.params.map (·.text)).zip arguments
    let env ← lift (Run.enter closure.environment (Bindings.empty.setAll parameters))
    let flow ← execAll steps env closure.function.body
    note fun _ => .finishes closure flow
    let result ← lift
      (if closure.isInitializer then
        Run.look fun h => (h.get? closure.environment 0 receiverName).getD .nil
      else
        match flow with
        | .return value => pure value
        | _ => pure .nil)
    note fun _ => .returns closure result
    pure result

def exec : (steps : Nat) → Environment → Stmt → Recorder Flow
  | 0, _, _ => lift Run.unfinished
  | steps + 1, env, statement => do
    note (.executes env statement)
    match statement with
    | .expression value => do
      let value ← eval steps env value
      if (← lift get).echo then lift (Run.writeLine .echoed value)
      pure .normal
    | .print _ value => do
      let value ← eval steps env value
      lift (Run.writeLine .printed value)
      pure .normal
    | .var name none => do
      lift (Run.define env name.text .nil)
      pure .normal
    | .var name (some initializer) => do
      let value ← eval steps env initializer
      lift (Run.define env name.text value)
      pure .normal
    | .block body => do
      let env ← lift (Run.enter env .empty)
      execAll steps env body
    | .branch condition thenBranch elseBranch => do
      let condition ← eval steps env condition
      if ← lift (Run.look (·.truthy condition)) then exec steps env thenBranch
      else
        match elseBranch with
        | none => pure .normal
        | some elseBranch => exec steps env elseBranch
    | .loop condition body increment => loop steps env condition body increment
    | .break _ => pure .break
    | .continue _ => pure .continue
    | .return _ none => pure (.return .nil)
    | .return _ (some value) => do
      let value ← eval steps env value
      pure (.return value)
    | .function name function => do
      let value ← lift (Run.newFunction ⟨.function name.text, function, env, false⟩)
      lift (Run.define env name.text value)
      pure .normal
    | .class name parent methods => do
      declareClass env name parent methods
      pure .normal
    | .empty => pure .normal

def execAll : (steps : Nat) → Environment → List Stmt → Recorder Flow
  | 0, _, _ => lift Run.unfinished
  | steps + 1, env, statements =>
    match statements with
    | [] => pure .normal
    | statement :: rest => do
      match ← exec steps env statement with
      | .normal => execAll steps env rest
      | flow => pure flow

def loop : (steps : Nat) → Environment → Expr → Stmt → Option Expr → Recorder Flow
  | 0, _, _, _, _ => lift Run.unfinished
  | steps + 1, env, condition, body, increment => do
    let again ← eval steps env condition
    if ← lift (Run.look (·.truthy again)) then
      match ← exec steps env body with
      | .break => pure .normal
      | .return value => pure (.return value)
      | _ => do
        match increment with
        | none => pure ()
        | some increment => let _ ← eval steps env increment
        loop steps env condition body increment
    else pure .normal

end

def program (steps : Nat) : List Stmt → Recorder Unit
  | [] => pure ()
  | statement :: rest => do
    let flow ← exec steps [] statement
    note fun _ => .concludes statement flow
    program steps rest

end Recorder

/-! ## The same evaluator -/

/-- The state in which a computation ends, whether it succeeds or not. -/
def stateBehind {ε σ α : Type} : EStateM.Result ε σ α → σ
  | .ok _ s => s
  | .error _ s => s

/-- What holds of the state behind the first part holds of that behind both, if the second part keeps it. -/
theorem stateBehind_bind {ε σ α β : Type} {x : EStateM ε σ α} {f : α → EStateM ε σ β} {s : σ} {P : σ → Prop}
    (hx : P (stateBehind (x s))) (hf : ∀ a s', x s = .ok a s' → P s' → P (stateBehind (f a s'))) :
    P (stateBehind ((x >>= f) s)) := by
  cases hxs : x s with
  | error e s' =>
    rw [hxs] at hx
    rw [bind_error hxs]
    exact hx
  | ok a s' =>
    rw [hxs] at hx
    rw [bind_ok hxs]
    exact hf a s' hxs hx

/-- Why a computation has stopped, if it has. -/
def stopOf {ε σ α : Type} : EStateM.Result ε σ α → Option ε
  | .ok _ _ => none
  | .error stop _ => some stop

/-- The outcome without the records. -/
def withoutRecords {α : Type} : EStateM.Result Stop Recording α → EStateM.Result Stop Machine α
  | .ok a r => .ok a r.machine
  | .error stop r => .error stop r.machine

/-- The one does the same as the other and keeps a record. -/
def Mirrors {α : Type} (x : Recorder α) (y : Run α) : Prop := ∀ r, withoutRecords (x r) = y r.machine

theorem Recorder.lift_of_ok {α : Type} {x : Run α} {r : Recording} {a : α} {m : Machine} (h : x r.machine = .ok a m) :
    Recorder.lift x r = .ok a { r with machine := m } := by
  rw [Recorder.lift, h]

theorem Recorder.lift_of_error {α : Type} {x : Run α} {r : Recording} {stop : Stop} {m : Machine}
    (h : x r.machine = .error stop m) : Recorder.lift x r = .error stop { r with machine := m } := by
  rw [Recorder.lift, h]

theorem withoutRecords_bind {α β : Type} (x : Recorder α) (f : α → Recorder β) (r : Recording) :
    withoutRecords ((x >>= f) r) = match x r with
      | .ok a r' => withoutRecords (f a r')
      | .error stop r' => .error stop r'.machine := by
  rw [bind_eq_match]
  cases x r <;> rfl

theorem Mirrors.machine {α : Type} {x : Recorder α} {y : Run α} (h : Mirrors x y) (r : Recording) :
    stateBehind (y r.machine) = (stateBehind (x r)).machine := by
  rw [← h r]
  cases x r <;> rfl

theorem Mirrors.stop {α : Type} {x : Recorder α} {y : Run α} (h : Mirrors x y) (r : Recording) :
    stopOf (y r.machine) = stopOf (x r) := by
  rw [← h r]
  cases x r <;> rfl

namespace Mirrors

variable {α β : Type} {x : Recorder α} {y : Run α}

theorem pure (a : α) : Mirrors (Pure.pure a) (Pure.pure a) := fun _ => rfl

theorem bind {f : α → Recorder β} {g : α → Run β} (h : Mirrors x y) (hf : ∀ a, Mirrors (f a) (g a)) :
    Mirrors (x >>= f) (y >>= g) := by
  intro r
  rw [withoutRecords_bind, bind_eq_match, ← h r]
  cases x r with
  | ok a r' => exact hf a r'
  | error stop r' => rfl

theorem lift (y : Run α) : Mirrors (Recorder.lift y) y := by
  intro r
  unfold Recorder.lift
  cases y r.machine <;> rfl

theorem note (record : Machine → Record) (h : Mirrors x y) : Mirrors (Recorder.note record >>= fun _ => x) y :=
  fun _ => h _

/-- The result is put on record. -/
theorem result (record : α → Machine → Record) (h : Mirrors x y) :
    Mirrors (x >>= fun a => Recorder.note (record a) >>= fun _ => Pure.pure a) y := by
  rw [← bind_pure y]
  exact h.bind fun a => .note (record a) (pure a)

theorem nested (line : Nat) (h : Mirrors x y) : Mirrors (Recorder.nested line x) (Run.nested line y) := by
  intro r
  unfold Recorder.nested Run.nested
  split
  · rfl
  · have hbody := h { r with machine := { r.machine with depth := r.machine.depth + 1 } }
    dsimp only at hbody ⊢
    rw [← hbody]
    cases x { r with machine := { r.machine with depth := r.machine.depth + 1 } } <;> rfl

end Mirrors

namespace Recorder

theorem read_mirrors (env : Environment) (use : Reference) : Mirrors (read env use) (Run.read env use) :=
  .note _ (.lift _)

theorem bindReceiver_mirrors (method : Closure) (receiver : Value) :
    Mirrors (bindReceiver method receiver) (Run.bindReceiver method receiver) :=
  .result (fun closure _ => .binds closure receiver) (.lift _)

theorem property_mirrors (id : ObjectId) (c : Class) (name : Name) :
    Mirrors (property id c name) (Run.property id c name) := by
  refine .bind (.lift _) fun found => ?_
  cases found with
  | some value => exact .pure _
  | none =>
    dsimp only
    cases c.method? name.text with
    | some method => exact .bind (bindReceiver_mirrors _ _) fun _ => .lift _
    | none => exact .lift _

theorem parentMethod_mirrors (env : Environment) (id : NodeId) (keyword method : Name) :
    Mirrors (parentMethod env id keyword method) (Run.parentMethod env id keyword method) := by
  refine .bind (.lift _) fun machine => ?_
  rcases Run.parentOf? machine env id with _ | ⟨parent, _ | receiver⟩
  · exact .lift _
  · exact .lift _
  · dsimp only
    cases parent.method? method.text with
    | some closure => exact .bind (bindReceiver_mirrors _ _) fun _ => .lift _
    | none => exact .lift _

theorem declareClass_mirrors (env : Environment) (name : Name) (parent : Option Reference) (methods : List Method) :
    Mirrors (declareClass env name parent methods) (Run.declareClass env name parent methods) := by
  refine .bind (.lift _) fun _ => ?_
  cases parent with
  | none => exact .lift _
  | some use =>
    refine .note _ (.bind (read_mirrors env use) fun value => ?_)
    cases value with
    | «class» parent => exact .lift _
    | _ => exact .lift _

/-- Each of the evaluators does the same as the one without records, up to so many steps. -/
structure MirrorsAt (steps : Nat) : Prop where
  eval : ∀ env e, Mirrors (eval steps env e) (Evaluation.eval steps env e)
  evalAll : ∀ env es, Mirrors (evalAll steps env es) (Evaluation.evalAll steps env es)
  call : ∀ line callee arguments, Mirrors (call steps line callee arguments) (Evaluation.call steps line callee arguments)
  instantiate : ∀ c arguments, Mirrors (instantiate steps c arguments) (Evaluation.instantiate steps c arguments)
  invoke : ∀ closure arguments, Mirrors (invoke steps closure arguments) (Evaluation.invoke steps closure arguments)
  exec : ∀ env s, Mirrors (exec steps env s) (Evaluation.exec steps env s)
  execAll : ∀ env ss, Mirrors (execAll steps env ss) (Evaluation.execAll steps env ss)
  loop : ∀ env condition body increment,
    Mirrors (loop steps env condition body increment) (Evaluation.loop steps env condition body increment)

section Steps

variable {steps : Nat}

theorem eval_mirrors (h : MirrorsAt steps) (env : Environment) (e : Expr) :
    Mirrors (eval (steps + 1) env e) (Evaluation.eval (steps + 1) env e) := by
  refine .note _ ?_
  cases e with
  | literal value => exact .pure _
  | «variable» use => exact read_mirrors env use
  | assign target value =>
    exact .bind (h.eval env value) fun value => .note _ (.bind (.lift _) fun _ => .pure _)
  | group inner => exact h.eval env inner
  | unary op operand => exact .bind (h.eval env operand) fun _ => .lift _
  | binary left op right => exact .bind (h.eval env left) fun _ => .bind (h.eval env right) fun _ => .lift _
  | logical left op right =>
    refine .bind (h.eval env left) fun left => .bind (.lift _) fun truthy => ?_
    split
    · exact .pure _
    · exact h.eval env right
  | conditional condition thenBranch elseBranch =>
    refine .bind (h.eval env condition) fun condition => .bind (.lift _) fun truthy => ?_
    split
    · exact h.eval env thenBranch
    · exact h.eval env elseBranch
  | call callee line arguments =>
    exact .bind (h.eval env callee) fun callee => .bind (h.evalAll env arguments) fun values => h.call line callee _
  | get object name =>
    refine .bind (h.eval env object) fun object => ?_
    cases object with
    | object id c => exact property_mirrors id c name
    | _ => exact .lift _
  | set object name value =>
    refine .bind (h.eval env object) fun object => ?_
    cases object with
    | object id ofClass => exact .bind (h.eval env value) fun value => .bind (.lift _) fun _ => .pure _
    | _ => exact .lift _
  | this id line => exact read_mirrors env _
  | parent id keyword method => exact .note _ (parentMethod_mirrors env id keyword method)
  | lambda function => exact .lift _
  | list line elements => exact .bind (h.evalAll env elements) fun values => .bind (.lift _) fun _ => .pure _
  | index object line position => exact .bind (h.eval env object) fun _ => .bind (h.eval env position) fun _ => .lift _

theorem evalAll_mirrors (h : MirrorsAt steps) (env : Environment) (es : List Expr) :
    Mirrors (evalAll (steps + 1) env es) (Evaluation.evalAll (steps + 1) env es) := by
  cases es with
  | nil => exact .pure _
  | cons e rest => exact .bind (h.eval env e) fun _ => .bind (h.evalAll env rest) fun _ => .pure _

theorem call_mirrors (h : MirrorsAt steps) (line : Nat) (callee : Value) (arguments : List Argument) :
    Mirrors (call (steps + 1) line callee arguments) (Evaluation.call (steps + 1) line callee arguments) := by
  unfold call Evaluation.call
  cases callee.callable? with
  | none => exact .lift _
  | some callable =>
    dsimp only
    split
    · exact .lift _
    · refine .nested line ?_
      cases callable with
      | native f => exact .lift _
      | constant result => exact .pure _
      | closure closure => exact h.invoke closure _
      | «class» c => exact h.instantiate c _

theorem instantiate_mirrors (h : MirrorsAt steps) (c : Class) (arguments : List Value) :
    Mirrors (instantiate (steps + 1) c arguments) (Evaluation.instantiate (steps + 1) c arguments) := by
  refine .bind (.lift _) fun id => ?_
  cases c.method? initializerName with
  | none => exact .pure _
  | some initializer =>
    exact .bind (bindReceiver_mirrors _ _) fun bound => .bind (h.invoke bound arguments) fun _ => .pure _

theorem invoke_mirrors (h : MirrorsAt steps) (closure : Closure) (arguments : List Value) :
    Mirrors (invoke (steps + 1) closure arguments) (Evaluation.invoke (steps + 1) closure arguments) := by
  refine .bind (.lift _) fun env => .bind (h.execAll env _) fun flow => .note _ ?_
  exact .result (fun result _ => .returns closure result) (.lift _)

theorem exec_mirrors (h : MirrorsAt steps) (env : Environment) (s : Stmt) :
    Mirrors (exec (steps + 1) env s) (Evaluation.exec (steps + 1) env s) := by
  refine .note _ ?_
  cases s with
  | expression value =>
    refine .bind (h.eval env value) fun value => .bind (.lift _) fun machine => ?_
    dsimp only
    split
    · exact .bind (.lift _) fun _ => .pure _
    · exact .pure _
  | print line value => exact .bind (h.eval env value) fun value => .bind (.lift _) fun _ => .pure _
  | var name initializer =>
    cases initializer with
    | none => exact .bind (.lift _) fun _ => .pure _
    | some initializer => exact .bind (h.eval env initializer) fun value => .bind (.lift _) fun _ => .pure _
  | block body => exact .bind (.lift _) fun env => h.execAll env body
  | branch condition thenBranch elseBranch =>
    refine .bind (h.eval env condition) fun condition => .bind (.lift _) fun truthy => ?_
    split
    · exact h.exec env thenBranch
    · cases elseBranch with
      | none => exact .pure _
      | some elseBranch => exact h.exec env elseBranch
  | loop condition body increment => exact h.loop env condition body increment
  | «break» line => exact .pure _
  | «continue» line => exact .pure _
  | «return» line value =>
    cases value with
    | none => exact .pure _
    | some value => exact .bind (h.eval env value) fun _ => .pure _
  | function name f => exact .bind (.lift _) fun _ => .bind (.lift _) fun _ => .pure _
  | «class» name parent methods => exact .bind (declareClass_mirrors env name parent methods) fun _ => .pure _
  | empty => exact .pure _

theorem execAll_mirrors (h : MirrorsAt steps) (env : Environment) (ss : List Stmt) :
    Mirrors (execAll (steps + 1) env ss) (Evaluation.execAll (steps + 1) env ss) := by
  cases ss with
  | nil => exact .pure _
  | cons s rest =>
    refine .bind (h.exec env s) fun flow => ?_
    cases flow with
    | normal => exact h.execAll env rest
    | _ => exact .pure _

theorem loop_mirrors (h : MirrorsAt steps) (env : Environment) (condition : Expr) (body : Stmt) (increment : Option Expr) :
    Mirrors (loop (steps + 1) env condition body increment)
      (Evaluation.loop (steps + 1) env condition body increment) := by
  refine .bind (h.eval env condition) fun again => .bind (.lift _) fun truthy => ?_
  split
  · refine .bind (h.exec env body) fun flow => ?_
    cases flow with
    | normal | «continue» =>
      cases increment with
      | none => exact h.loop env condition body none
      | some increment => exact .bind (h.eval env increment) fun _ => h.loop env condition body (some increment)
    | _ => exact .pure _
  · exact .pure _

theorem mirrors (steps : Nat) : MirrorsAt steps := by
  induction steps with
  | zero =>
    refine ⟨?_, ?_, ?_, ?_, ?_, ?_, ?_, ?_⟩ <;> intros <;> exact .lift Run.unfinished
  | succ steps ih =>
    exact ⟨eval_mirrors ih, evalAll_mirrors ih, call_mirrors ih, instantiate_mirrors ih, invoke_mirrors ih,
      exec_mirrors ih, execAll_mirrors ih, loop_mirrors ih⟩

/-- A program on record runs as it does without. -/
theorem program_mirrors (steps : Nat) (statements : List Stmt) :
    Mirrors (program steps statements) (Evaluation.program steps statements) := by
  induction statements with
  | nil => exact .pure ()
  | cons s rest ih => exact .bind ((mirrors steps).exec [] s) fun flow => .note _ ih

end Steps

end Recorder

end TreeWalk
