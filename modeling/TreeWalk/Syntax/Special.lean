/-!
# Names with a meaning

Names that the language itself binds or looks up.
-/

namespace TreeWalk

/-- The name under which methods find their receiver. -/
def receiverName : String := "this"

/-- The name under which methods of a class with a parent find the parent class. -/
def parentName : String := "parent"

/-- The method that a class runs on its new instances. -/
def initializerName : String := "init"

end TreeWalk
