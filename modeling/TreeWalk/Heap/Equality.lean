import TreeWalk.Heap

/-!
# Equality of values

Values of different kinds are never equal. Lists are equal if their elements are, one by one;
functions, classes and objects only to themselves. Comparing lists that contain themselves need not
end.
-/

namespace TreeWalk

namespace Heap

/-- Whether all pairs satisfy a test, up to the first that does not. -/
def allPairs? (test? : Value → Value → Option Bool) : List Value → List Value → Option Bool
  | left :: lefts, right :: rights => do
    if ← test? left right then allPairs? test? lefts rights else some false
  | lefts, rights => some (lefts.isEmpty && rights.isEmpty)

/-- Whether two values are equal, if looking at most `depth` lists deep settles it. -/
def equalWithin? (h : Heap) : (depth : Nat) → Value → Value → Option Bool
  | _, .nil, .nil => some true
  | _, .bool left, .bool right => some (left == right)
  | _, .number left, .number right => some (left == right)
  | _, .text left, .text right => some (left == right)
  | depth, .list left, .list right =>
    if left == right then some true
    else if (h.elements left).size != (h.elements right).size then some false
    else
      match depth with
      | 0 => none
      | depth + 1 =>
        allPairs? (equalWithin? h depth) (h.elements left).toList (h.elements right).toList
  | _, .native left _, .native right _ => some (left == right)
  | _, .constant left _, .constant right _ => some (left == right)
  | _, .function left _, .function right _ => some (left == right)
  | _, .class left, .class right => some (left.own.identity == right.own.identity)
  | _, .object left _, .object right _ => some (left == right)
  | _, _, _ => some false

/-- Whether two values are equal. If no pair of lists is met twice on the way down, there are at
most as many levels as pairs of lists. -/
def equal? (h : Heap) (left right : Value) : Option Bool :=
  h.equalWithin? (h.lists.size * h.lists.size) left right

end Heap

end TreeWalk
