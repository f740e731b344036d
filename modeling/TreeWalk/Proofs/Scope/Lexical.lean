import Mathlib
import TreeWalk.Proofs.Scope.Distances
import TreeWalk.Proofs.Scope.Openings
import TreeWalk.Proofs.Scope.Silencing
import TreeWalk.Proofs.Scope.Visits

/-!
# Lexical scoping

The names that are declared around a place can be read off the program: those in front of it in each block and
function that it lies in, those of the declarations that it is part of, `this` among methods and `parent` around
them. What a resolver records for a reference is how many of these scopes lie between it and the nearest one with
its name.
-/

namespace TreeWalk

namespace Scopes

end Scopes

namespace Place

end Place

/-- `fun f() { print a; if (true) var a = nil; print a; }`, where the first use comes before the declaration and the
second one behind it. -/
def shadowing : Function :=
  .mk [] [.print 1 (.variable ⟨0, "a", 1⟩), .branch (.literal (.bool true)) (.var ⟨"a", 1⟩ (some (.literal .nil))) none,
    .print 1 (.variable ⟨1, "a", 1⟩)]

/-- `{ var a = nil; fun f() { print a; if (true) var a = nil; print a; } }` -/
def shadowed : List Stmt := [.block [.var ⟨"a", 1⟩ (some (.literal .nil)), .function ⟨"f", 1⟩ shadowing]]

end TreeWalk
