import TreeWalk.Syntax

/-!
# Violations of the scoping rules
-/

namespace TreeWalk

inductive ScopeCause where
  | readInOwnInitializer
  | alreadyDeclared
  | topLevelReturn
  | returnValueFromInitializer
  | thisOutsideClass
  | parentOutsideClass
  | parentWithoutParentClass
  | selfInheritance
  deriving DecidableEq

def ScopeCause.message : ScopeCause → String
  | readInOwnInitializer => "Can't read local variable in its own initializer"
  | alreadyDeclared => "Already a variable with this name in this scope"
  | topLevelReturn => "Can't return from top-level code"
  | returnValueFromInitializer => "Can't return a value from an initializer"
  | thisOutsideClass => "Can't use 'this' outside of a class"
  | parentOutsideClass => "Can't use 'parent' outside of a class"
  | parentWithoutParentClass => "Can't use 'parent' in a class with no parent class"
  | selfInheritance => "A class can't inherit from itself"

/-- A violation and the name or keyword at which it stands. -/
structure ScopeError where
  place : Name
  cause : ScopeCause
  deriving DecidableEq

def ScopeError.message (e : ScopeError) : String :=
  "line " ++ toString e.place.line ++ " at '" ++ e.place.text ++ "': " ++ e.cause.message

end TreeWalk
