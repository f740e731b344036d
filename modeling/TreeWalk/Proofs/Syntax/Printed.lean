import Mathlib
import TreeWalk.Proofs.Syntax.Forms
import TreeWalk.Syntax.Printed
import TreeWalk.Syntax.Special

/-!
# Printed expressions as forms

The printed form of an expression is the text of a form of words, strings and parentheses (`Expr.toList_printed`).
Ids, lines and the bodies of functions are not shown in it, nor how `parent` is spelled (`Expr.printed_bare`).
-/

namespace TreeWalk

/-! ## What a printed form shows -/

/-- The name without its line. -/
def Name.bare (name : Name) : Name := ⟨name.text, 0⟩

def Operator.bare {kind : Type} (op : Operator kind) : Operator kind := ⟨op.kind, op.spelling, 0⟩

mutual

/-- The expression without ids and lines, without the bodies of functions, and with one spelling for `parent`. -/
def Expr.bare : Expr → Expr
  | .literal value => .literal value
  | .variable use => .variable ⟨0, use.name.bare⟩
  | .assign target value => .assign ⟨0, target.name.bare⟩ value.bare
  | .group inner => .group inner.bare
  | .unary op operand => .unary op.bare operand.bare
  | .binary left op right => .binary left.bare op.bare right.bare
  | .logical left op right => .logical left.bare op.bare right.bare
  | .conditional condition thenBranch elseBranch => .conditional condition.bare thenBranch.bare elseBranch.bare
  | .call callee _ arguments => .call callee.bare 0 (Expr.bareAll arguments)
  | .get object name => .get object.bare name.bare
  | .set object name value => .set object.bare name.bare value.bare
  | .this _ _ => .this 0 0
  | .parent _ _ method => .parent 0 ⟨parentName, 0⟩ method.bare
  | .lambda f => .lambda (.mk (f.params.map Name.bare) [])
  | .list _ elements => .list 0 (Expr.bareAll elements)
  | .index object _ position => .index object.bare 0 position.bare

def Expr.bareAll : List Expr → List Expr
  | [] => []
  | e :: rest => e.bare :: Expr.bareAll rest

end

/-! ## Printed forms -/

/-- Strings are quoted, and all other literals are words. -/
def Literal.form : Literal → Form
  | text value => .quoted value
  | value => .word value.printed

mutual

/-- The printed form with its words, strings and parentheses told apart. -/
def Expr.form : Expr → Form
  | .literal value => value.form
  | .variable use => .word use.name.text
  | .assign target value => .group [.word "=", .word target.name.text, value.form]
  | .group inner => .group [.word "group", inner.form]
  | .unary op operand => .group [.word op.spelling, operand.form]
  | .binary left op right => .group [.word op.spelling, left.form, right.form]
  | .logical left op right => .group [.word op.spelling, left.form, right.form]
  | .conditional condition thenBranch elseBranch =>
    .group [.word "?", condition.form, .word ":", thenBranch.form, elseBranch.form]
  | .call callee _ arguments => .group (.word "call" :: callee.form :: Expr.forms arguments)
  | .get object name => .group [.word "get", object.form, .word name.text]
  | .set object name value => .group [.word "set", object.form, .word name.text, value.form]
  | .this _ _ => .word "this"
  | .parent _ _ method => .group [.word "parent", .word method.text]
  | .lambda f => .group [.word "fun", .group (f.params.map (.word ·.text)), .word "..."]
  | .list _ elements => .group (.word "list" :: Expr.forms elements)
  | .index object _ position => .group [.word "index", object.form, position.form]

def Expr.forms : List Expr → List Form
  | [] => []
  | e :: rest => e.form :: Expr.forms rest

end

/-! ## Text -/

theorem Literal.toList_printed (value : Literal) : value.printed.toList = value.form.text := by
  cases value with
  | text value => simp [printed, form, Form.text]
  | _ => rfl

/-- Spaces stand between words in parentheses. -/
theorem Form.closing_words (first : Name) (rest : List Name) :
    first.text.toList ++ closing (rest.map (word ·.text)) =
      (" ".intercalate ((first :: rest).map (·.text))).toList ++ [')'] := by
  induction rest generalizing first with
  | nil => simp [closing]
  | cons second rest ih =>
    rw [List.map_cons, closing, Form.text, ih]
    simp

theorem Function.toList_printed (f : Function) :
    f.printed.toList = (Form.group [.word "fun", .group (f.params.map (.word ·.text)), .word "..."]).text := by
  have hparams : (Form.group (f.params.map (.word ·.text))).text =
      '(' :: ((" ".intercalate (f.params.map (·.text))).toList ++ [')']) := by
    cases f.params with
    | nil => rfl
    | cons first rest => rw [List.map_cons, Form.text, Form.text, Form.closing_words]
  simp [printed, Form.text, Form.closing, hparams]

mutual

theorem Expr.toList_printed (e : Expr) : e.printed.toList = e.form.text := by
  cases e with
  | literal value => exact value.toList_printed
  | «variable» use => rfl
  | assign target value => simp [printed, form, Form.text, Form.closing, toList_printed value]
  | group inner => simp [printed, form, Form.text, Form.closing, toList_printed inner]
  | unary op operand => simp [printed, form, Form.text, Form.closing, toList_printed operand]
  | binary left op right => simp [printed, form, Form.text, Form.closing, toList_printed left, toList_printed right]
  | logical left op right => simp [printed, form, Form.text, Form.closing, toList_printed left, toList_printed right]
  | conditional condition thenBranch elseBranch =>
    simp [printed, form, Form.text, Form.closing, toList_printed condition, toList_printed thenBranch,
      toList_printed elseBranch]
  | call callee line arguments =>
    simp [printed, form, Form.text, Form.closing, toList_printed callee, toList_printedAll arguments]
  | get object name => simp [printed, form, Form.text, Form.closing, toList_printed object]
  | set object name value => simp [printed, form, Form.text, Form.closing, toList_printed object, toList_printed value]
  | this id line => rfl
  | parent id keyword method => simp [printed, form, Form.text, Form.closing]
  | lambda f => exact f.toList_printed
  | list line elements => simp [printed, form, Form.text, toList_printedAll elements]
  | index object line position =>
    simp [printed, form, Form.text, Form.closing, toList_printed object, toList_printed position]

theorem Expr.toList_printedAll (es : List Expr) : (printedAll es).toList ++ [')'] = Form.closing (forms es) := by
  cases es with
  | nil => rfl
  | cons e rest => simp [printedAll, forms, Form.closing, toList_printed e, toList_printedAll rest]

end

mutual

theorem Expr.printed_bare (e : Expr) : e.bare.printed = e.printed := by
  cases e with
  | literal value => rfl
  | lambda f => simp [bare, printed, Function.printed, Function.params, Function.comp_def, Name.bare]
  | _ => simp [bare, printed, Name.bare, Operator.bare, printed_bare, printedAll_bareAll]

theorem Expr.printedAll_bareAll (es : List Expr) : printedAll (bareAll es) = printedAll es := by
  cases es with
  | nil => rfl
  | cons e rest => simp [printedAll, bareAll, printed_bare e, printedAll_bareAll rest]

end

end TreeWalk
