import TreeWalk.Operation
import TreeWalk.Scope.Resolution
import TreeWalk.Transcript

/-!
# The machine

The state in which programs run: heap, resolved distances, the sink that is printed to, and what the
world supplies. Running is a state monad whose errors say why a run stopped.
-/

namespace TreeWalk

structure Machine where
  heap : Heap
  /-- The distances of all references resolved so far. A reference without one means the top level. -/
  distances : Distances
  output : Transcript
  /-- Whether expression statements print their values. -/
  echo : Bool
  /-- The number of calls in progress. -/
  depth : Nat
  /-- The input that has not been read. -/
  input : List UInt8
  /-- The time at each reading of the clock, in seconds since the epoch. Before the epoch it is negative. -/
  clock : Nat → Float
  /-- How often the clock has been read. -/
  readings : Nat

/-- What a run cannot cope with. No program is to blame for it, and the process breaks down. -/
inductive Crash where
  /-- A token between two operands that is no binary operator. -/
  | noOperator (kind : TokenKind)
  /-- An argument that a native function looks for and that has not been given. -/
  | missingArgument (position : Nat)
  /-- A length of time for which there is no representation. -/
  | pauseTooLong (seconds : Float)

/-- Why a run stops before its end. -/
inductive Stop where
  | fault (fault : Fault)
  | crash (crash : Crash)
  /-- The run has not ended within the steps it was given. -/
  | unfinished

abbrev Run := EStateM Stop Machine

namespace Run

variable {α : Type}

def unfinished : Run α := fun m => .error .unfinished m

def fail (line : Nat) (cause : FaultCause) : Run α :=
  fun m => .error (.fault (.evaluation line cause)) m

def crash (cause : Crash) : Run α := fun m => .error (.crash cause) m

theorem get_bind (k : Machine → Run α) (m : Machine) : (get >>= k) m = k m m := rfl

/-- A result whose faults arise on the given line. -/
def ofExcept (line : Nat) : Except FaultCause α → Run α
  | .ok result => pure result
  | .error cause => fail line cause

/-- An operation on values in the current heap. -/
def operation (line : Nat) (f : Heap → Except Failure α) : Run α := fun m =>
  match f m.heap with
  | .ok result => .ok result m
  | .error (.fault cause) => .error (.fault (.evaluation line cause)) m
  | .error .endless => .error .unfinished m

/-- What the current heap says. -/
def look (f : Heap → α) : Run α := fun m => .ok (f m.heap) m

def update (f : Heap → Heap) : Run Unit := fun m => .ok () { m with heap := f m.heap }

/-- Takes something new from the heap. -/
def allocate (f : Heap → α × Heap) : Run α := fun m =>
  let (new, heap) := f m.heap
  .ok new { m with heap := heap }

/-- The value of two operands with the operator between them. -/
def binary (op : Operator TokenKind) (left right : Value) : Run Value :=
  match BinaryKind.ofToken? op.kind with
  | some kind => operation op.line fun h => h.binary kind left right
  | none => crash (.noOperator op.kind)

/-! ## Variables -/

/-- The frame in which a reference finds its binding: the one at its distance, or the top level. -/
def frameOf? (m : Machine) (environment : Environment) (id : NodeId) : Option FrameId :=
  match m.distances[id]? with
  | some distance => Heap.outward? environment distance
  | none => some Heap.topFrame

def read (environment : Environment) (use : Reference) : Run Value := fun m =>
  match (frameOf? m environment use.id).bind fun id => (m.heap.frame id).get? use.name.text with
  | some value => .ok value m
  | none => fail use.name.line (.undefinedVariable use.name.text) m

/-- Gives a new value to a name that its frame must have already. -/
def assign (environment : Environment) (use : Reference) (value : Value) : Run Unit := fun m =>
  match (frameOf? m environment use.id).filter fun id => m.heap.binds id use.name.text with
  | some id => update (·.define id use.name.text value) m
  | none => fail use.name.line (.undefinedVariable use.name.text) m

/-- Binds a name in the innermost frame. -/
def define (environment : Environment) (name : String) (value : Value) : Run Unit :=
  update (·.define (Heap.innermost environment) name value)

/-- The environment inside a new frame with these bindings. -/
def enter (environment : Environment) (bindings : Bindings Value) : Run Environment := do
  let id ← allocate (·.addFrame bindings)
  pure (id :: environment)

/-! ## Functions and methods -/

/-- A new function value with an identity of its own. -/
def newFunction (closure : Closure) : Run Value := do
  let identity ← allocate (·.addIdentity)
  pure (.function identity closure)

/-- A method for one receiver, which it finds in a frame around its body. -/
def bindReceiver (method : Closure) (receiver : Value) : Run Closure := do
  let environment ← enter method.environment (Bindings.empty.set receiverName receiver)
  pure { method with environment }

/-- A field of an object, or else a method of its class for this object. -/
def property (id : ObjectId) (ofClass : Class) (name : Name) : Run Value := do
  match ← look fun h => (h.fields id).get? name.text with
  | some value => pure value
  | none =>
    match ofClass.method? name.text with
    | some method => newFunction (← bindReceiver method (.object id ofClass))
    | none => fail name.line (.undefinedProperty name.text)

/-- The parent class that a reference finds, and the receiver, which is bound one frame inside it. -/
def parentOf? (m : Machine) (environment : Environment) (id : NodeId) : Option (Class × Option Value) := do
  let distance ← m.distances[id]?
  let .class parent ← m.heap.get? environment distance parentName | none
  let receiver :=
    match distance with
    | 0 => none
    | inner + 1 => m.heap.get? environment inner receiverName
  some (parent, receiver)

theorem of_parentOf? {m : Machine} {environment : Environment} {id : NodeId} {parent : Class}
    {receiver : Option Value} (h : parentOf? m environment id = some (parent, receiver)) :
    ∃ distance, m.distances[id]? = some distance ∧
      m.heap.get? environment distance parentName = some (.class parent) ∧
      ∀ v ∈ receiver, ∃ inner, distance = inner + 1 ∧ m.heap.get? environment inner receiverName = some v := by
  obtain ⟨distance, hdistance, hfound⟩ := Option.bind_eq_some_iff.1 h
  obtain ⟨found, hparent, hfound⟩ := Option.bind_eq_some_iff.1 hfound
  cases found with
  | «class» c =>
    simp only [Option.some.injEq, Prod.mk.injEq] at hfound
    obtain ⟨rfl, rfl⟩ := hfound
    refine ⟨distance, hdistance, hparent, fun v hv => ?_⟩
    cases distance with
    | zero => cases hv
    | succ inner => exact ⟨inner, rfl, hv⟩
  | _ => cases hfound

/-- A method of the parent class for the current receiver. -/
def parentMethod (environment : Environment) (id : NodeId) (keyword method : Name) : Run Value := do
  match parentOf? (← get) environment id with
  | none => fail keyword.line (.undefinedVariable parentName)
  | some (_, none) => fail keyword.line (.undefinedVariable receiverName)
  | some (parent, some receiver) =>
    match parent.method? method.text with
    | some closure => newFunction (← bindReceiver closure receiver)
    | none => fail method.line (.undefinedProperty method.text)

/-- Runs a call, unless too many are in progress. -/
def nested (line : Nat) (body : Run α) : Run α := fun m =>
  if m.depth == maxDepth then fail line .stackOverflow m
  else
    match body { m with depth := m.depth + 1 } with
    | .ok result m => .ok result { m with depth := m.depth - 1 }
    | .error stop m => .error stop { m with depth := m.depth - 1 }

/-! ## Output -/

/-- Writes to the sink and says whether all of it was accepted. -/
def write (origin : Origin) (text : String) : Run Bool := fun m =>
  let (accepted, output) := m.output.writeText origin text
  .ok accepted { m with output := output }

/-- The line that shows a value. For a limited sink it agrees with the true line in the bytes for
which there is room and in whether there are more. -/
def lineOf? (m : Machine) (value : Value) : Option String :=
  match m.output.room with
  | none => (m.heap.text? value).map (· ++ "\n")
  | some room => some (m.heap.opening (room + 1) value ++ "\n")

/-- Writes a value on a line of its own. -/
def writeLine (origin : Origin) (value : Value) : Run Unit := do
  match lineOf? (← get) value with
  | none => unfinished
  | some line => do
    if !(← write origin line) then throw (.fault .output)

end Run

end TreeWalk
