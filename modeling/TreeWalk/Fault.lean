/-!
# Run-time faults
-/

namespace TreeWalk

/-- How many calls may be in progress at once. -/
def maxDepth : Nat := 512

inductive FaultCause where
  | operandMustBeNumber
  | operandsMustBeNumbers
  | notCoercible (typeName : String)
  | divisionByZero
  | undefinedVariable (name : String)
  | undefinedProperty (name : String)
  | notCallable
  | arityMismatch (expected got : Nat)
  | notAnInstance
  | fieldOnNonInstance
  | parentNotAClass
  | notIndexable
  | invalidIndex (printed : String)
  | indexOutOfBounds (index length : Nat)
  | stackOverflow
  /-- A native function rejects its arguments or fails. -/
  | native (text : String)
  deriving DecidableEq

def FaultCause.message : FaultCause → String
  | operandMustBeNumber => "Operand must be a number"
  | operandsMustBeNumbers => "Operands must be numbers"
  | notCoercible typeName => "Can't use " ++ typeName ++ " as a numeric operand"
  | divisionByZero => "Division by zero"
  | undefinedVariable name => "Undefined variable '" ++ name ++ "'"
  | undefinedProperty name => "Undefined property '" ++ name ++ "'"
  | notCallable => "Can only call functions and classes"
  | arityMismatch expected got =>
    "Expected " ++ toString expected ++ " arguments but got " ++ toString got
  | notAnInstance => "Only instances have properties"
  | fieldOnNonInstance => "Only instances have fields"
  | parentNotAClass => "Parent must be a class"
  | notIndexable => "Only lists and strings can be indexed"
  | invalidIndex printed => "Index must be a non-negative integer, got " ++ printed
  | indexOutOfBounds index length =>
    "Index " ++ toString index ++ " out of bounds for length " ++ toString length
  | stackOverflow => "Stack overflow: more than " ++ toString maxDepth ++ " nested calls"
  | native text => text

/-- What ends a program early: a fault of its own, or output that was not accepted. -/
inductive Fault where
  | evaluation (line : Nat) (cause : FaultCause)
  | output
  deriving DecidableEq

def Fault.message : Fault → String
  | evaluation line cause => "line " ++ toString line ++ ": " ++ cause.message
  | output => "Failed write output: sink full"

end TreeWalk
