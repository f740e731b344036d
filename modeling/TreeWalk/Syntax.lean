import TreeWalk.Token

/-!
# Programs as trees

Expressions and statements of the language. Every expression that refers to a binding carries a
node id of its own, by which later stages say which binding is meant.
-/

namespace TreeWalk

/-- The identity of an expression that refers to a binding. -/
abbrev NodeId := Nat

/-- A name or keyword as it stands in the source. -/
structure Name where
  text : String
  line : Nat
  deriving DecidableEq

/-- An operator as it stands in the source. -/
structure Operator (kind : Type) where
  kind : kind
  spelling : String
  line : Nat
  deriving DecidableEq

inductive UnaryKind where
  | not | negate
  deriving DecidableEq

/-- What an operator does with its two operands. -/
inductive BinaryKind where
  | equal | notEqual | greater | greaterEqual | less | lessEqual
  | add | subtract | multiply | divide
  deriving DecidableEq

/-- The operation of a binary operator. Other tokens have none. -/
def BinaryKind.ofToken? : TokenKind → Option BinaryKind
  | .equalEqual => some .equal
  | .bangEqual => some .notEqual
  | .greater => some .greater
  | .greaterEqual => some .greaterEqual
  | .less => some .less
  | .lessEqual => some .lessEqual
  | .plus => some .add
  | .minus => some .subtract
  | .star => some .multiply
  | .slash => some .divide
  | _ => none

inductive LogicalKind where
  | and | or
  deriving DecidableEq

inductive Literal where
  | nil
  | bool (value : Bool)
  | number (value : Float)
  | text (value : String)

/-- A variable named in the source, with the node id of this use. -/
structure Reference where
  id : NodeId
  name : Name
  deriving DecidableEq

mutual

inductive Expr where
  | literal (value : Literal)
  | variable (use : Reference)
  | assign (target : Reference) (value : Expr)
  | group (inner : Expr)
  | unary (op : Operator UnaryKind) (operand : Expr)
  /-- The operator is the token that stands between the operands. What it does is looked up when it is
  applied. -/
  | binary (left : Expr) (op : Operator TokenKind) (right : Expr)
  /-- `and` and `or`, which leave out the right operand when the left one decides. -/
  | logical (left : Expr) (op : Operator LogicalKind) (right : Expr)
  | conditional (condition thenBranch elseBranch : Expr)
  /-- `line` is that of the closing parenthesis. -/
  | call (callee : Expr) (line : Nat) (arguments : List Expr)
  | get (object : Expr) (name : Name)
  | set (object : Expr) (name : Name) (value : Expr)
  | this (id : NodeId) (line : Nat)
  /-- A method of the parent class, called on the current receiver. -/
  | parent (id : NodeId) (keyword : Name) (method : Name)
  | lambda (function : Function)
  | list (line : Nat) (elements : List Expr)
  /-- `line` is that of the opening bracket. -/
  | index (object : Expr) (line : Nat) (position : Expr)

inductive Stmt where
  | expression (value : Expr)
  | print (line : Nat) (value : Expr)
  | var (name : Name) (initializer : Option Expr)
  | block (body : List Stmt)
  | branch (condition : Expr) (thenBranch : Stmt) (elseBranch : Option Stmt)
  /-- `increment` is that of a `for` loop. It is evaluated after every round, also one cut short by
  `continue`. -/
  | loop (condition : Expr) (body : Stmt) (increment : Option Expr)
  | break (line : Nat)
  | continue (line : Nat)
  | return (line : Nat) (value : Option Expr)
  | function (name : Name) (function : Function)
  | class (name : Name) (parent : Option Reference) (methods : List Method)
  | empty

/-- Parameters and body of a function, method or lambda. -/
inductive Function where
  | mk (params : List Name) (body : List Stmt)

inductive Method where
  | mk (name : Name) (function : Function)

end

namespace Function

def params : Function → List Name
  | mk params _ => params

def body : Function → List Stmt
  | mk _ body => body

end Function

namespace Method

def name : Method → Name
  | mk name _ => name

def function : Method → Function
  | mk _ function => function

end Method

end TreeWalk
