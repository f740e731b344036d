import TreeWalk.Machine
import TreeWalk.Native.Description
import TreeWalk.Syntax.Printed

/-!
# Native functions

What the functions do that are not written in the language itself.
-/

namespace TreeWalk

/-- An argument of a call: its value and the expression it comes from. -/
structure Argument where
  value : Value
  expr : Expr

namespace Native

/-- Binds the functions at top level, each with a new identity. -/
def register (natives : List (String × Native)) (h : Heap) : Heap :=
  natives.foldl (fun h (name, f) =>
    let (identity, h) := h.addIdentity
    h.define Heap.topFrame name (.native identity f)) h

/-- The name of an argument that is a plain variable. -/
def label : Expr → String
  | .variable use => use.name.text
  | _ => "EXPRESSION"

/-- The time now. Only the time since the epoch can be told, not that before it. -/
def readClock (line : Nat) : Run Value := fun m =>
  let seconds := m.clock m.readings
  let m := { m with readings := m.readings + 1 }
  if seconds < 0 then Run.fail line (.native "second time provided was later than self") m
  else .ok (.number seconds) m

/-- The next line of the input without its ending. At the end of input it is empty. -/
def nextLine (line : Nat) : Run Value := fun m =>
  let (bytes, rest) := Lines.split m.input
  let m := { m with input := rest }
  match Lines.decode? bytes with
  | some text => .ok (.text (Lines.withoutEnding text)) m
  | none => Run.fail line (.native "input failed: stream did not contain valid UTF-8") m

/-- Shows a prompt and reads a line. -/
def readInput (line : Nat) (argument : Argument) : Run Value :=
  match argument.value with
  | .text prompt => do
    if ← Run.write .prompt (prompt ++ "> ") then nextLine line
    else Run.fail line (.native "input failed: sink full")
  | _ => Run.fail line (.native "input expects a string prompt")

/-- Whole seconds are counted in 64 bits. This many are too many. -/
def pauseLimit : Float := 18446744073709551616

/-- Accepts every finite length of time, though not all of them can be represented. Waiting is left
to the host. -/
def pause (line : Nat) (argument : Argument) : Run Value :=
  match argument.value with
  | .number seconds =>
    if 0 ≤ seconds && seconds.isFinite then
      if pauseLimit ≤ seconds then Run.crash (.pauseTooLong seconds) else pure .nil
    else Run.fail line (.native "sleep expects a non-negative number of seconds")
  | _ => Run.fail line (.native "sleep expects a non-negative number of seconds")

def description (line : Nat) (argument : Argument) : Run Value :=
  let framed := fun lines => pure (.text (Description.framed (label argument.expr) lines))
  match argument.value with
  | .function _ closure => framed (Description.closureLines "function" closure)
  | .class c => framed (Description.classLines c)
  | other =>
    Run.fail line (.native ("struct expects a function or class, got " ++ other.typeName))

def count (line : Nat) (argument : Argument) : Run Value :=
  match argument.value with
  | .text value => pure (.number (.ofNat value.length))
  | .list id => Run.look fun h => .number (.ofNat (h.elements id).size)
  | other => Run.fail line (.native ("len expects a string, got " ++ other.typeName))

def argumentCount (line : Nat) (argument : Argument) : Run Value :=
  match argument.value.callable? with
  | some callable => pure (.number (.ofNat callable.arity))
  | none => Run.fail line .notCallable

/-- Adds an element at the end of a list, where everyone who has the list sees it. -/
def extend (line : Nat) (list element : Argument) : Run Value :=
  match list.value with
  | .list id => do
    Run.update (·.append id element.value)
    pure list.value
  | _ => Run.fail line .notIndexable

/-- Binds a function at top level that always returns the same value. -/
def registerConstant (line : Nat) (name result : Argument) : Run Value := do
  let name ← Run.operation line (·.printed name.value)
  Run.update fun h =>
    let (identity, h) := h.addIdentity
    h.define Heap.topFrame name (.constant identity result.value)
  pure .nil

/-- The argument at a position of the call. -/
def argument (arguments : List Argument) (position : Nat) : Run Argument :=
  match arguments[position]? with
  | some argument => pure argument
  | none => Run.crash (.missingArgument position)

/-- Runs a native function. How many arguments there are is not checked again. -/
def run (line : Nat) (f : Native) (arguments : List Argument) : Run Value :=
  match f with
  | clock => readClock line
  | sleep => do pause line (← argument arguments 0)
  | input => do readInput line (← argument arguments 0)
  | describe => do description line (← argument arguments 0)
  | length => do count line (← argument arguments 0)
  | typeName => do pure (.text (← argument arguments 0).value.typeName)
  | truthy => do
    let first ← argument arguments 0
    Run.look fun h => .bool (h.truthy first.value)
  | number => do
    let first ← argument arguments 0
    pure (.number (← Run.ofExcept line (Value.numeral first.value)))
  | arity => do argumentCount line (← argument arguments 0)
  | source => do pure (.text (← argument arguments 0).expr.printed)
  | push => do extend line (← argument arguments 0) (← argument arguments 1)
  | define => do registerConstant line (← argument arguments 0) (← argument arguments 1)

end Native

end TreeWalk
