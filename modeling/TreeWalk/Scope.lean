import TreeWalk.Bindings
import TreeWalk.Syntax

/-!
# Lexical scopes

The names that are visible at a place in a program. Blocks and functions open a scope each. A name
is in its scope from its declaration on, and initialized once its initializer lies behind.
-/

namespace TreeWalk

structure Scopes where
  /-- The scopes around the place, innermost first, without the top level. For each name they say
  whether it is initialized. -/
  locals : List (Bindings Bool)
  /-- The names known at top level. -/
  globals : Bindings Bool

namespace Scopes

def ofGlobals (globals : Bindings Bool) : Scopes := ⟨[], globals⟩

/-- The innermost scope, which is the top level outside of all blocks and functions. -/
def innermost (s : Scopes) : Bindings Bool := s.locals.head?.getD s.globals

def updateInnermost (s : Scopes) (f : Bindings Bool → Bindings Bool) : Scopes :=
  match s.locals with
  | [] => { s with globals := f s.globals }
  | scope :: outer => { s with locals := f scope :: outer }

def enter (s : Scopes) : Scopes := { s with locals := .empty :: s.locals }

/-- Puts an uninitialized name into the innermost scope, unless the scope has it already. -/
def declare (s : Scopes) (name : String) : Scopes :=
  s.updateInnermost fun scope => if scope.contains name then scope else scope.set name false

/-- Puts an initialized name into the innermost scope. -/
def define (s : Scopes) (name : String) : Scopes :=
  s.updateInnermost fun scope => scope.set name true

def defineAll (s : Scopes) (names : List Name) : Scopes :=
  names.foldl (fun s name => s.define name.text) s

/-- Whether declaring the name here would be its second declaration. Only local scopes mind. -/
def redeclares (s : Scopes) (name : String) : Bool :=
  match s.locals with
  | [] => false
  | scope :: _ => scope.contains name

/-- Whether the innermost scope has the name declared but not initialized. -/
def uninitialized (s : Scopes) (name : String) : Bool := s.innermost.get? name == some false

/-- How many scopes lie between the place and the nearest one that has the name. At top level a
name has no distance. -/
def distance? (s : Scopes) (name : String) : Option Nat :=
  s.locals.findIdx? (·.contains name)

end Scopes

/-- The scopes behind a statement. Branches and loop bodies stand in the scope of the whole. -/
def Stmt.declared (s : Scopes) : Stmt → Scopes
  | .var name _ => s.define name.text
  | .function name _ => s.define name.text
  | .class name _ _ => s.define name.text
  | .branch _ thenBranch none => thenBranch.declared s
  | .branch _ thenBranch (some elseBranch) => elseBranch.declared (thenBranch.declared s)
  | .loop _ body _ => body.declared s
  | _ => s

def Stmt.declaredAll (s : Scopes) (program : List Stmt) : Scopes := program.foldl Stmt.declared s

end TreeWalk
