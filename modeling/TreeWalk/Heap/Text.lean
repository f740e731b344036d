import TreeWalk.Heap

/-!
# Text of values

How values are printed. The text of a list contains those of its elements, so a list that contains
itself has no text; what can be said of it is how its text would begin. A list that contains others
twice over may have a text too long to write down, and yet a beginning.
-/

namespace TreeWalk

def ClosureName.text : ClosureName → String
  | lambda => "<anonymous fun>"
  | function name => "<fun " ++ name ++ ">"
  | method name => "<method " ++ name ++ ">"

def Class.text (c : Class) : String := "<class " ++ c.own.name ++ ">"

/-- Strings stand between quotes where they are elements of a list. -/
def quoted (text : String) : String := "\"" ++ text ++ "\""

namespace Heap

/-- The text of a value in which lists are nested at most `depth` deep. -/
def textWithin? (h : Heap) : (depth : Nat) → Value → Option String
  | _, .nil => some "nil"
  | _, .bool value => some (if value then "true" else "false")
  | _, .number value => some (Number.text value)
  | _, .text value => some value
  | 0, .list _ => none
  | depth + 1, .list id => do
    let elements ← (h.elements id).toList.mapM fun element =>
      match element with
      | .text value => some (quoted value)
      | element => textWithin? h depth element
    some ("[" ++ ", ".intercalate elements ++ "]")
  | _, .native .. => some "<native fun>"
  | _, .constant .. => some "<native fun>"
  | _, .function _ closure => some closure.name.text
  | _, .class c => some c.text
  | _, .object _ c => some ("<" ++ c.own.name ++ " instance>")

/-- The text of a value. If lists are nested deeper than there are lists, one contains itself. -/
def text? (h : Heap) (value : Value) : Option String := h.textWithin? h.lists.size value

/-- Appends items one after the other, with commas between them, until the whole is `size` bytes
long. -/
def appendUntil {α : Type} (size : Nat) (item : String → α → String) :
    (before : String) → List α → String
  | before, [] => before
  | before, [last] => item before last
  | before, first :: rest =>
    let sofar := item before first
    if size ≤ sofar.utf8ByteSize then sofar
    else appendUntil size item (sofar ++ ", ") rest

/-- Appends the text of a value, or of a value that is long only as much of it as makes the whole
`size` bytes long. What stands behind these bytes has no meaning. -/
def openingAfter (h : Heap) (size : Nat) : (depth : Nat) → (before : String) → Value → String
  | depth + 1, before, .list id =>
    if size ≤ before.utf8ByteSize then before
    else
      appendUntil size (fun before element =>
        match element with
        | .text value => before ++ quoted value
        | element => openingAfter h size depth before element) (before ++ "[") (h.elements id).toList
        ++ "]"
  | depth, before, value => before ++ (h.textWithin? depth value).getD ""

/-- A text that begins with the same `size` bytes as the text of a value, and is that text if it has
fewer. It takes no longer than these bytes do, and there is one also if the text never ends. Every
list in it writes a byte before its elements, so deeper nesting than `size` does not show. -/
def opening (h : Heap) (size : Nat) (value : Value) : String := h.openingAfter size size "" value

end Heap

end TreeWalk
