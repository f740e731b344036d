import TreeWalk.Bindings
import TreeWalk.Syntax
import TreeWalk.Syntax.Special

/-!
# Values

What expressions evaluate to. Lists and instances are handles into the heap. Functions and classes
carry an identity, by which two of them are told apart.
-/

namespace TreeWalk

abbrev FrameId := Nat

abbrev ListId := Nat

abbrev ObjectId := Nat

/-- The frames around a place while it runs, innermost first, without the top level. -/
abbrev Environment := List FrameId

inductive ClosureName where
  | lambda
  | function (name : String)
  | method (name : String)
  deriving DecidableEq

/-- A function together with the environment in which its body runs. -/
structure Closure where
  name : ClosureName
  function : Function
  environment : Environment
  /-- Whether a call always gives back the receiver. -/
  isInitializer : Bool

def Closure.arity (c : Closure) : Nat := c.function.params.length

/-- What a class declares itself. -/
structure ClassBody where
  identity : Nat
  name : String
  methods : Bindings Closure

/-- A class and its ancestors, the parent first. -/
structure Class where
  own : ClassBody
  ancestors : List ClassBody

namespace Class

/-- The class and its ancestors, from the class upwards. -/
def lineage (c : Class) : List ClassBody := c.own :: c.ancestors

def parent? (c : Class) : Option Class :=
  match c.ancestors with
  | [] => none
  | own :: ancestors => some ⟨own, ancestors⟩

/-- The method of the nearest class in the lineage that has one of this name. -/
def method? (c : Class) (name : String) : Option Closure :=
  c.lineage.findSome? (·.methods.get? name)

/-- A class takes the arguments of its initializer. -/
def arity (c : Class) : Nat := ((c.method? initializerName).map Closure.arity).getD 0

end Class

/-- The functions that come with the language, and those that a host may add to it. -/
inductive Native where
  | clock
  | sleep
  | input
  | describe
  | length
  | typeName
  | truthy
  | number
  | arity
  | source
  | push
  | define
  deriving DecidableEq

namespace Native

/-- The functions that every program finds at top level. -/
def standard : List (String × Native) :=
  [("clock", clock), ("sleep", sleep), ("input", input), ("struct", describe)]

/-- The functions that a host may add. -/
def additional : List (String × Native) :=
  [("len", length), ("type", typeName), ("truthy", truthy), ("num", number), ("arity", arity),
   ("source", source), ("push", push), ("define", define)]

def parameters : Native → Nat
  | clock => 0
  | push | define => 2
  | _ => 1

end Native

inductive Value where
  | nil
  | bool (value : Bool)
  | number (value : Float)
  | text (value : String)
  | list (id : ListId)
  | native (identity : Nat) (function : Native)
  /-- A host function without parameters that always returns the same value. -/
  | constant (identity : Nat) (result : Value)
  | function (identity : Nat) (closure : Closure)
  | class (value : Class)
  | object (id : ObjectId) (ofClass : Class)

namespace Value

def ofLiteral : Literal → Value
  | .nil => nil
  | .bool value => bool value
  | .number value => number value
  | .text value => text value

def typeName : Value → String
  | nil => "nil"
  | bool _ => "boolean"
  | number _ => "number"
  | text _ => "string"
  | list _ => "list"
  | native .. | constant .. | function .. => "function"
  | .class _ => "class"
  | object .. => "instance"

end Value

/-- What a call can run. -/
inductive Callable where
  | native (function : Native)
  | constant (result : Value)
  | closure (closure : Closure)
  | class (value : Class)

/-- How many arguments a call takes. -/
def Callable.arity : Callable → Nat
  | native f => f.parameters
  | constant _ => 0
  | closure c => c.arity
  | .class c => c.arity

def Value.callable? : Value → Option Callable
  | .native _ f => some (.native f)
  | .constant _ result => some (.constant result)
  | .function _ c => some (.closure c)
  | .class c => some (.class c)
  | _ => none

end TreeWalk
