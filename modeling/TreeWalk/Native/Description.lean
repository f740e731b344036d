import TreeWalk.Heap.Text

/-!
# Descriptions of functions and classes

The text that the native function `struct` gives for a function or class.
-/

namespace TreeWalk

namespace Description

def rule : String := "--------------------------"

def methodRule : String := "  *********************"

/-- The parameters with their positions. -/
def parameterLines (params : List Name) : List String :=
  if params.isEmpty then ["      NONE"]
  else params.mapIdx fun i param => "      - param[" ++ toString i ++ "]:   (" ++ param.text ++ ")"

def nameLines (kind : String) : ClosureName → List String
  | .lambda => ["   Type: anonymous function"]
  | .function name | .method name => ["   Type: " ++ kind, "   Name: " ++ name]

def closureLines (kind : String) (closure : Closure) : List String :=
  nameLines kind closure.name ++ "   Parameters:" :: parameterLines closure.function.params

def methodLines (name : String) (method : Closure) : List String :=
  methodRule :: ("   Member method " ++ name ++ ":") :: closureLines "method" method ++ [methodRule]

/-- A class shows its own methods, sorted by name, and not those of its ancestors. -/
def classLines (c : Class) : List String :=
  let methods := c.own.methods.entries.mergeSort fun a b => a.1 ≤ b.1
  ["   Type: class", "   Name: " ++ c.own.name]
    ++ (c.parent?.map fun parent => "   Parent: " ++ parent.text).toList
    ++ methods.flatMap fun (name, method) => methodLines name method

/-- The description under the label that the argument has in the call. -/
def framed (label : String) (lines : List String) : String :=
  "\n".intercalate (rule :: ("INPUT \x7b" ++ label ++ "\x7d:") :: lines ++ [rule])

end Description

end TreeWalk
