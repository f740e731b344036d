import TreeWalk.Fault
import TreeWalk.Heap.Equality
import TreeWalk.Heap.Text
import TreeWalk.Text.Lines

/-!
# Operations on values

Operators, subscripts and the conversions they apply to their operands.
-/

namespace TreeWalk

/-- Why an operation gives no result. The line of a fault is known to the caller. -/
inductive Failure where
  | fault (cause : FaultCause)
  /-- The operation does not end. -/
  | endless

namespace Value

/-! ## Operations on the values alone -/

/-- The number for which a value stands in sums and comparisons. The bytes of a string are the
digits of a number to the base 256. -/
def numeral : Value → Except FaultCause Float
  | bool value => .ok (if value then 1 else 0)
  | number value => .ok value
  | text value => .ok ((Lines.encode value).foldl (fun n byte => n * 256 + byte.toFloat) 0)
  | other => .error (.notCoercible other.typeName)

def numerals (left right : Value) : Except FaultCause (Float × Float) := do
  let left ← numeral left
  let right ← numeral right
  pure (left, right)

/-- The operands of an operator that converts nothing. -/
def numbers : Value → Value → Except FaultCause (Float × Float)
  | number left, number right => .ok (left, right)
  | _, _ => .error .operandsMustBeNumbers

def negate : Value → Except FaultCause Value
  | number value => .ok (number (-value))
  | _ => .error .operandMustBeNumber

def arithmetic (f : Float → Float → Float) (left right : Value) : Except FaultCause Value := do
  let (left, right) ← numbers left right
  pure (number (f left right))

def divide (left right : Value) : Except FaultCause Value := do
  let (left, right) ← numbers left right
  if right == 0 then throw .divisionByZero
  pure (number (left / right))

/-- Two strings are compared by code points, all else as numbers. -/
def compare (strings : String → String → Bool) (floats : Float → Float → Bool) :
    Value → Value → Except FaultCause Value
  | text left, text right => .ok (bool (strings left right))
  | left, right => do
    let (left, right) ← numerals left right
    pure (bool (floats left right))

end Value

namespace Heap

/-! ## Operations that look into the heap -/

/-- `nil`, `false`, zero, the empty string and the empty list are false, all else is true. -/
def truthy (h : Heap) : Value → Bool
  | .nil => false
  | .bool value => value
  | .number value => value != 0
  | .text value => !value.isEmpty
  | .list id => !(h.elements id).isEmpty
  | _ => true

/-- The text of a value as part of another text. -/
def printed (h : Heap) (value : Value) : Except Failure String :=
  match h.text? value with
  | some text => .ok text
  | none => .error .endless

def join (h : Heap) (left right : Value) : Except Failure Value := do
  let left ← h.printed left
  let right ← h.printed right
  pure (.text (left ++ right))

/-- A sum with a string joins the texts of both operands. -/
def add (h : Heap) (left right : Value) : Except Failure Value :=
  match left, right with
  | .text _, _ => h.join left right
  | _, .text _ => h.join left right
  | _, _ =>
    match Value.numerals left right with
    | .ok (left, right) => .ok (.number (left + right))
    | .error cause => .error (.fault cause)

def equality (h : Heap) (left right : Value) : Except Failure Bool :=
  match h.equal? left right with
  | some equal => .ok equal
  | none => .error .endless

def binary (h : Heap) (kind : BinaryKind) (left right : Value) : Except Failure Value :=
  match kind with
  | .equal => (h.equality left right).map .bool
  | .notEqual => (h.equality left right).map (.bool !·)
  | .greater => (Value.compare (fun a b => b < a) (fun a b => b < a) left right).mapError .fault
  | .greaterEqual => (Value.compare (fun a b => b ≤ a) (fun a b => b ≤ a) left right).mapError .fault
  | .less => (Value.compare (fun a b => a < b) (fun a b => a < b) left right).mapError .fault
  | .lessEqual => (Value.compare (fun a b => a ≤ b) (fun a b => a ≤ b) left right).mapError .fault
  | .add => h.add left right
  | .subtract => (Value.arithmetic (· - ·) left right).mapError .fault
  | .multiply => (Value.arithmetic (· * ·) left right).mapError .fault
  | .divide => (left.divide right).mapError .fault

/-- Positions beyond this one count as this one. -/
def lastPosition : Nat := Nat.pow 2 64 - 1

def invalidIndex (h : Heap) (index : Value) : Except Failure Nat := do
  throw (.fault (.invalidIndex (← h.printed index)))

/-- The position that an index denotes, which is looked at before what it is an index into. -/
def position (h : Heap) (index : Value) : Except Failure Nat :=
  match index with
  | .number value =>
    match Number.toNat? value with
    | some n => .ok (min n lastPosition)
    | none => h.invalidIndex index
  | _ => h.invalidIndex index

/-- The element of a list or the character of a string at a position. -/
def element (h : Heap) (target : Value) (position : Nat) : Except FaultCause Value :=
  match target with
  | .list id =>
    let elements := h.elements id
    match elements[position]? with
    | some value => .ok value
    | none => .error (.indexOutOfBounds position elements.size)
  | .text value =>
    match value.toList[position]? with
    | some c => .ok (.text c.toString)
    | none => .error (.indexOutOfBounds position value.length)
  | _ => .error .notIndexable

def subscript (h : Heap) (target index : Value) : Except Failure Value := do
  let position ← h.position index
  (h.element target position).mapError .fault

end Heap

end TreeWalk
