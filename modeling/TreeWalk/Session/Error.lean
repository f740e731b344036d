import TreeWalk.Fault

/-!
# Errors of a session
-/

namespace TreeWalk

inductive SessionError where
  | lexical (count : Nat)
  | syntactic (count : Nat)
  | scoping (count : Nat)
  | runtime (fault : Fault)
  /-- A script cannot be read, or a report cannot be written. -/
  | inputOutput
  | unsupportedExtension (extension : String)
  /-- The conversation itself broke down. -/
  | internal (what : String)
  deriving DecidableEq

namespace SessionError

def message : SessionError → String
  | lexical count => "Generated " ++ toString count ++ " scanner errors"
  | syntactic count => "Generated " ++ toString count ++ " parser errors"
  | scoping count => "Generated " ++ toString count ++ " resolver errors"
  | runtime fault => "Runtime error: " ++ fault.message
  | inputOutput => "I/O error"
  | unsupportedExtension extension =>
    "Unsupported script extension '" ++ extension ++ "', expected .plox or .lox"
  | internal what => "InterpreterInternalError: " ++ what

/-- The exit code of a process that ends with the error. -/
def exitCode : SessionError → Nat
  | lexical _ | syntactic _ | scoping _ => 65
  | runtime _ => 70
  | inputOutput | unsupportedExtension _ => 74
  | internal _ => 1

end SessionError

end TreeWalk
