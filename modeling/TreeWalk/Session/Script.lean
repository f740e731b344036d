/-!
# Names of script files
-/

namespace TreeWalk

namespace Script

/-- The last component of a path, unless that leads upwards. -/
def fileName? (path : String) : Option (List Char) :=
  let components := (path.toList.splitBy fun a b => a != '/' && b != '/').filter fun part =>
    !part.contains '/' && part != ['.']
  components.getLast?.filter (· != ['.', '.'])

/-- What follows the last point of a file name, if there is something in front of that point. -/
def extension? (path : String) : Option String := do
  let name ← fileName? path
  let reversed := name.reverse
  let ending := reversed.takeWhile (· != '.')
  match reversed.dropWhile (· != '.') with
  | '.' :: _ :: _ => some (String.ofList ending.reverse)
  | _ => none

/-- The extensions that scripts may have. -/
def extensions : List String := ["plox", "lox"]

end Script

end TreeWalk
