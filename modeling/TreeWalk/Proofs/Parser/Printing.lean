import Mathlib
import TreeWalk.Proofs.Parser.Spelled
import TreeWalk.Proofs.Syntax.Printed
import TreeWalk.Proofs.Text.Decimal

/-!
# Printed trees can be told apart

Names stand in a printed form as they are, strings are not escaped, and the same symbols stand for operators with one
operand and with two. And yet two expressions with the same printed form differ in nothing that a printed form is
meant to show, if they were read from a source (`Parse.printed_determines`).

A form of words, strings and parentheses can be told from its text, and the expression can be read back from its form.
-/

namespace TreeWalk

/-! ## Reading back -/

namespace Form

/-- The name that a form is, if it is a word. -/
def name? : Form → Option Name
  | word text => some ⟨text, 0⟩
  | _ => none

/-- A word in the place of an expression. What does not start like a name is a number, which is looked up. -/
def ofWord (number : String → Float) (text : String) : Expr :=
  if text.toList.head?.any Segment.startsName then
    match TokenKind.ofWord text with
    | .nilKeyword => .literal .nil
    | .trueKeyword => .literal (.bool true)
    | .falseKeyword => .literal (.bool false)
    | .thisKeyword => .this 0 0
    | _ => .variable ⟨0, text, 0⟩
  else .literal (.number (number text))

/-! The operators with one and with two operands. -/

def unaries : List UnaryKind := [.not, .negate]

def binaries : List TokenKind :=
  [.equalEqual, .bangEqual, .greater, .greaterEqual, .less, .lessEqual, .plus, .minus, .star, .slash]

def logicals : List LogicalKind := [.and, .or]

/-- An operator in front of two operands. -/
def operation? (spelling : String) (left right : Expr) : Option Expr :=
  match logicals.find? (·.token.spelling == spelling) with
  | some kind => some (.logical left ⟨kind, spelling, 0⟩ right)
  | none => (binaries.find? (·.spelling == spelling)).map fun kind => .binary left ⟨kind, spelling, 0⟩ right

mutual

/-- The expression of which this is the printed form, up to what it does not show. -/
def expr? (number : String → Float) : Form → Option Expr
  | word text => some (ofWord number text)
  | quoted text => some (.literal (.text text))
  | group [word "=", word name, value] => return .assign ⟨0, name, 0⟩ (← value.expr? number)
  | group [word "group", inner] => return .group (← inner.expr? number)
  | group [word "?", condition, word ":", thenBranch, elseBranch] =>
    return .conditional (← condition.expr? number) (← thenBranch.expr? number) (← elseBranch.expr? number)
  | group (word "call" :: callee :: arguments) => return .call (← callee.expr? number) 0 (← exprs? number arguments)
  | group [word "get", object, word name] => return .get (← object.expr? number) ⟨name, 0⟩
  | group [word "set", object, word name, value] => return .set (← object.expr? number) ⟨name, 0⟩ (← value.expr? number)
  | group [word "parent", word method] => return .parent 0 ⟨parentName, 0⟩ ⟨method, 0⟩
  | group [word "fun", group params, word "..."] => return .lambda (.mk (← params.mapM name?) [])
  | group (word "list" :: elements) => return .list 0 (← exprs? number elements)
  | group [word "index", object, position] => return .index (← object.expr? number) 0 (← position.expr? number)
  -- Operators come last, for none of them is spelled like one of the words above.
  | group [word spelling, operand] => do
    let kind ← unaries.find? (·.token.spelling == spelling)
    return .unary ⟨kind, spelling, 0⟩ (← operand.expr? number)
  | group [word spelling, left, right] => do operation? spelling (← left.expr? number) (← right.expr? number)
  | _ => none

def exprs? (number : String → Float) : List Form → Option (List Expr)
  | [] => some []
  | first :: rest => return (← first.expr? number) :: (← exprs? number rest)

end

theorem expr?_unary (number : String → Float) (kind : UnaryKind) (operand : Form) :
    (group [word kind.token.spelling, operand]).expr? number =
      (operand.expr? number).bind fun e => some (.unary ⟨kind, kind.token.spelling, 0⟩ e) := by
  cases kind <;> rfl

theorem expr?_logical (number : String → Float) (kind : LogicalKind) (left right : Form) :
    (group [word kind.token.spelling, left, right]).expr? number = (left.expr? number).bind fun e =>
      (right.expr? number).bind fun e' => some (.logical e ⟨kind, kind.token.spelling, 0⟩ e') := by
  cases kind <;> rfl

theorem expr?_binary (number : String → Float) {kind : TokenKind} (hkind : (BinaryKind.ofToken? kind).isSome)
    (left right : Form) : (group [word kind.spelling, left, right]).expr? number = (left.expr? number).bind fun e =>
      (right.expr? number).bind fun e' => some (.binary e ⟨kind, kind.spelling, 0⟩ e') := by
  cases kind <;> first | rfl | cases hkind

end Form

/-! ## Numbers, names and literals -/

/-- The number is finite, if the node is one. -/
def Node.Finite : Node → Prop
  | .expr (.literal (.number value)) => value.isFinite
  | _ => True

/-- All number literals in the expression are finite. -/
def Expr.Finite (e : Expr) : Prop := (Node.expr e).Every Node.Finite

/-- What is printed of the node itself can be read back. -/
def Node.Readable (n : Node) : Prop := n.Spelled ∧ n.Finite

def Expr.Readable (e : Expr) : Prop := (Node.expr e).Every Node.Readable

theorem Name.Spelled.word {name : Name} (h : name.Spelled) : Word name.text.toList := by
  unfold Name.Spelled at h
  generalize name.text.toList = text at h
  cases h with
  | operator h => simp [operators] at h
  | keyword h => simp [TokenKind.keywords] at h
  | identifier h _ => exact h

theorem Form.ofWord_name (number : String → Float) {name : Name} (h : name.Spelled) :
    ofWord number name.text = .variable ⟨0, name.bare⟩ := by
  obtain ⟨c, hc, hletter⟩ := h.word.first
  have hstarts : name.text.toList.head?.any Segment.startsName = true := by
    rw [Option.mem_def.1 hc]
    exact Segment.startsName_iff.2 hletter
  have hkind := Segment.ofWord_of_identifier h
  rw [String.ofList_toList] at hkind
  rw [ofWord, if_pos hstarts, hkind]
  rfl

theorem Form.ofWord_number (number : String → Float) {x : Float} (h : x.isFinite) :
    ofWord number (Number.text x) = .literal (.number (number (Number.text x))) := by
  obtain ⟨hnonempty, hnumeral⟩ := Number.numeral_of_finite h
  obtain ⟨c, rest, htext⟩ := List.exists_cons_of_ne_nil hnonempty
  have hstarts : ¬ (Number.text x).toList.head?.any Segment.startsName = true := by
    rw [htext]
    intro hc
    have hletter : Letter c := Segment.startsName_iff.1 hc
    rcases hnumeral c (htext ▸ List.mem_cons_self) with hdigit | rfl | rfl
    · exact Segment.not_digit_of_letter hletter hdigit
    · exact absurd (Segment.startsName_iff.2 hletter) (by decide)
    · exact absurd (Segment.startsName_iff.2 hletter) (by decide)
  rw [ofWord, if_neg hstarts]

/-! ## What is read back -/

theorem Form.mapM_name (params : List Name) :
    (params.map (word ·.text)).mapM name? = some (params.map Name.bare) := by
  induction params with
  | nil => rfl
  | cons name rest ih => simp [ih, name?, Name.bare]

section ReadBack

variable {number : String → Float}

theorem Literal.expr?_form (hnumber : ∀ x : Float, x.isFinite → number (Number.text x) = x) {value : Literal}
    (hfinite : (Node.expr (.literal value)).Finite) : value.form.expr? number = some (.literal value) := by
  cases value with
  | nil => rfl
  | bool value => cases value <;> rfl
  | number value =>
    show some (Form.ofWord number (Number.text value)) = _
    rw [Form.ofWord_number number hfinite, hnumber value hfinite]
  | text value => rfl

mutual

/-- An expression is read back from its form, up to what the form does not show. -/
theorem Expr.expr?_form (hnumber : ∀ x : Float, x.isFinite → number (Number.text x) = x) (e : Expr) (h : e.Readable) :
    e.form.expr? number = some e.bare := by
  cases e with
  | literal value => exact Literal.expr?_form hnumber h.here.2
  | «variable» use =>
    rw [form, Form.expr?, Form.ofWord_name number h.here.1]
    rfl
  | assign target value =>
    rw [form, Form.expr?, expr?_form hnumber value (h.child _ (.head _))]
    rfl
  | group inner =>
    rw [form, Form.expr?, expr?_form hnumber inner (h.child _ (.head _))]
    rfl
  | unary op operand =>
    have hop : op.spelling = op.kind.token.spelling := h.here.1
    rw [form, hop, Form.expr?_unary, expr?_form hnumber operand (h.child _ (.head _)), bare, Operator.bare, hop]
    rfl
  | binary left op right =>
    obtain ⟨hkind, hop⟩ : (BinaryKind.ofToken? op.kind).isSome ∧ op.spelling = op.kind.spelling := h.here.1
    rw [form, hop, Form.expr?_binary number hkind, expr?_form hnumber left (h.child _ (.head _)),
      expr?_form hnumber right (h.child _ (.tail _ (.head _))), bare, Operator.bare, hop]
    rfl
  | logical left op right =>
    have hop : op.spelling = op.kind.token.spelling := h.here.1
    rw [form, hop, Form.expr?_logical, expr?_form hnumber left (h.child _ (.head _)),
      expr?_form hnumber right (h.child _ (.tail _ (.head _))), bare, Operator.bare, hop]
    rfl
  | conditional condition thenBranch elseBranch =>
    rw [form, Form.expr?, expr?_form hnumber condition (h.child _ (.head _)),
      expr?_form hnumber thenBranch (h.child _ (.tail _ (.head _))),
      expr?_form hnumber elseBranch (h.child _ (.tail _ (.tail _ (.head _))))]
    rfl
  | call callee line arguments =>
    have harguments (e : Expr) (he : e ∈ arguments) : e.Readable := h.child _ (by simp [he])
    rw [form, Form.expr?, expr?_form hnumber callee (h.child _ (by simp)), exprs?_forms hnumber arguments harguments]
    rfl
  | get object name =>
    rw [form, Form.expr?, expr?_form hnumber object (h.child _ (.head _))]
    rfl
  | set object name value =>
    rw [form, Form.expr?, expr?_form hnumber object (h.child _ (.head _)),
      expr?_form hnumber value (h.child _ (.tail _ (.head _)))]
    rfl
  | this id line => rfl
  | parent id keyword method => rfl
  | lambda f =>
    rw [form, Form.expr?, Form.mapM_name]
    rfl
  | list line elements =>
    have helements (e : Expr) (he : e ∈ elements) : e.Readable := h.child _ (by simp [he])
    rw [form, Form.expr?, exprs?_forms hnumber elements helements]
    rfl
  | index object line position =>
    rw [form, Form.expr?, expr?_form hnumber object (h.child _ (.head _)),
      expr?_form hnumber position (h.child _ (.tail _ (.head _)))]
    rfl

theorem Expr.exprs?_forms (hnumber : ∀ x : Float, x.isFinite → number (Number.text x) = x) (es : List Expr)
    (h : ∀ e ∈ es, e.Readable) : Form.exprs? number (forms es) = some (bareAll es) := by
  cases es with
  | nil => rfl
  | cons e rest =>
    rw [forms, Form.exprs?, expr?_form hnumber e (h e List.mem_cons_self),
      exprs?_forms hnumber rest fun e he => h e (.tail _ he)]
    rfl

end

end ReadBack

/-! ## Legible forms -/

theorem Form.inWord_of_continues {c : Char} (h : Letter c ∨ Digit c) : InWord c := by
  rw [← Segment.continuesName_iff] at h
  refine ⟨?_, ?_, ?_, ?_⟩ <;> rintro rfl <;> exact absurd h (by decide)

theorem Name.Spelled.legible {name : Name} (h : name.Spelled) : (Form.word name.text).Legible := by
  obtain ⟨c, hc, -⟩ := h.word.first
  exact .word (fun hnil => by simp [hnil] at hc) fun c hc => Form.inWord_of_continues (h.word.rest c hc)

theorem Form.Legible.plain {text : String} (h : text ≠ "" ∧ text.toList.all InWord) : (Form.word text).Legible :=
  .word (by simpa using h.1) (by simpa using h.2)

theorem Literal.legible {value : Literal} (h : (Node.expr (.literal value)).Readable) : value.form.Legible := by
  cases value with
  | nil => exact .plain (by decide)
  | bool value => cases value <;> exact .plain (by decide)
  | number value =>
    obtain ⟨hnonempty, hnumeral⟩ := Number.numeral_of_finite h.2
    refine .word hnonempty fun c hc => ?_
    rcases hnumeral c hc with hdigit | rfl | rfl
    · exact Form.inWord_of_continues (.inr hdigit)
    · decide
    · decide
  | text value => exact .quoted h.1

/-- An operator is a word, and its operands are put behind it. -/
theorem Form.Legible.operation {word : String} {operands : List Form} (hword : word ≠ "" ∧ word.toList.all InWord)
    (hoperands : ∀ operand ∈ operands, operand.Legible) : (Form.group (.word word :: operands)).Legible :=
  .group (List.forall_mem_cons.2 ⟨.plain hword, hoperands⟩)

theorem Form.Legible.params {params : List Name} (h : ∀ name ∈ params, name.Spelled) :
    (Form.group (params.map (.word ·.text))).Legible :=
  .group (List.forall_mem_map.2 fun name hname => (h name hname).legible)

mutual

theorem Expr.legible_form (e : Expr) (h : e.Readable) : e.form.Legible := by
  cases e with
  | literal value => exact Literal.legible h.here
  | «variable» use => exact Name.Spelled.legible h.here.1
  | assign target value =>
    refine .operation (by decide) ?_
    simp [Name.Spelled.legible h.here.1, legible_form value (h.child _ (.head _))]
  | group inner =>
    refine .operation (by decide) ?_
    simp [legible_form inner (h.child _ (.head _))]
  | unary op operand =>
    have hop : op.spelling = op.kind.token.spelling := h.here.1
    refine .operation ?_ ?_
    · rw [hop]
      cases op.kind <;> decide
    · simp [legible_form operand (h.child _ (.head _))]
  | binary left op right =>
    obtain ⟨hkind, hop⟩ : (BinaryKind.ofToken? op.kind).isSome ∧ op.spelling = op.kind.spelling := h.here.1
    refine .operation ?_ ?_
    · rw [hop]
      revert hkind
      cases op.kind <;> decide
    · simp [legible_form left (h.child _ (.head _)), legible_form right (h.child _ (.tail _ (.head _)))]
  | logical left op right =>
    have hop : op.spelling = op.kind.token.spelling := h.here.1
    refine .operation ?_ ?_
    · rw [hop]
      cases op.kind <;> decide
    · simp [legible_form left (h.child _ (.head _)), legible_form right (h.child _ (.tail _ (.head _)))]
  | conditional condition thenBranch elseBranch =>
    refine .operation (by decide) ?_
    have hcolon : (Form.word ":").Legible := .plain (by decide)
    simp [hcolon, legible_form condition (h.child _ (.head _)), legible_form thenBranch (h.child _ (.tail _ (.head _))),
      legible_form elseBranch (h.child _ (.tail _ (.tail _ (.head _))))]
  | call callee line arguments =>
    have harguments (e : Expr) (he : e ∈ arguments) : e.Readable := h.child _ (by simp [he])
    refine .operation (by decide) (List.forall_mem_cons.2 ⟨?_, legible_forms arguments harguments⟩)
    exact legible_form callee (h.child _ (by simp))
  | get object name =>
    refine .operation (by decide) ?_
    simp [Name.Spelled.legible h.here.1, legible_form object (h.child _ (.head _))]
  | set object name value =>
    refine .operation (by decide) ?_
    simp [Name.Spelled.legible h.here.1, legible_form object (h.child _ (.head _)),
      legible_form value (h.child _ (.tail _ (.head _)))]
  | this id line => exact .plain (by decide)
  | parent id keyword method =>
    refine .operation (by decide) ?_
    simp [Name.Spelled.legible h.here.1]
  | lambda f =>
    have hf : ∀ name ∈ f.params, name.Spelled := (h.child _ (.head _)).here.1
    have hdots : (Form.word "...").Legible := .plain (by decide)
    refine .operation (by decide) ?_
    simp [Form.Legible.params hf, hdots]
  | list line elements =>
    have helements (e : Expr) (he : e ∈ elements) : e.Readable := h.child _ (by simp [he])
    exact .operation (by decide) (legible_forms elements helements)
  | index object line position =>
    refine .operation (by decide) ?_
    simp [legible_form object (h.child _ (.head _)), legible_form position (h.child _ (.tail _ (.head _)))]

theorem Expr.legible_forms (es : List Expr) (h : ∀ e ∈ es, e.Readable) : ∀ form ∈ forms es, form.Legible := by
  cases es with
  | nil => exact List.forall_mem_nil _
  | cons e rest =>
    have hrest := legible_forms rest fun e he => h e (.tail _ he)
    exact List.forall_mem_cons.2 ⟨legible_form e (h e List.mem_cons_self), hrest⟩

end

/-! ## The form determines the expression -/

theorem Node.Every.and {P Q : Node → Prop} {n : Node} (h : n.Every P) (h' : n.Every Q) :
    n.Every fun n => P n ∧ Q n := by
  induction h with
  | intro hP _ ih => exact .intro ⟨hP, h'.here⟩ fun c hc => ih c hc (h'.child c hc)

theorem Expr.form_inj {e e' : Expr} (h : e.Readable) (h' : e'.Readable) (hform : e.form = e'.form) :
    e.bare = e'.bare := by
  have hnumber : ∀ x : Float, x.isFinite →
      Function.invFunOn Number.text { x | x.isFinite } (Number.text x) = x := Number.text_injOn.leftInvOn_invFunOn
  have hread := expr?_form hnumber e h
  rw [hform, expr?_form hnumber e' h'] at hread
  exact (Option.some.inj hread).symm

/-- Expressions with the same printed form are the same in what they show. -/
theorem Expr.printed_inj {e e' : Expr} (h : e.Readable) (h' : e'.Readable) (hprinted : e.printed = e'.printed) :
    e.bare = e'.bare := by
  have htext : e.form.text ++ [] = e'.form.text ++ [] := by rw [← toList_printed, hprinted, toList_printed]
  exact form_inj h h' (Form.text_inj (legible_form e h) (legible_form e' h') Form.follows_nil Form.follows_nil htext).1

/-! ## Expressions of a source -/

namespace Parse

/-- The node comes up when the source is read: in a statement of it, or where one starts to read an expression
anywhere. -/
inductive Builds (source : String) : Node → Prop where
  | statement {firstId : NodeId} {s : Stmt} (h : s ∈ (ofTokens firstId (Scan.ofSource source).tokens).statements) :
    Builds source (.stmt s)
  | expression {levels : Nat} {start after : ParserState} {e : Expr}
    (hstart : start.tokens <:+ (delimited (Scan.ofSource source).tokens).1)
    (h : (Grammar.rules levels).expression start = .ok e after) : Builds source (.expr e)
  | part {n c : Node} (h : Builds source n) (hc : c ∈ n.children) : Builds source c

theorem Builds.spelled {source : String} {n : Node} (h : Builds source n) : n.Every Node.Spelled := by
  induction h with
  | statement h => exact spelled_ofTokens _ source _ h
  | @expression levels start after e hstart h =>
    have hmakes := (spelled_rules levels).expression start fun t ht => scanned_tokens source t (hstart.subset ht)
    rw [h] at hmakes
    exact hmakes.2
  | part _ hc ih => exact ih.child _ hc

/-- Two expressions that are read from sources have the same printed form if, and only if, they are the same but for
node ids, lines, the spelling of `parent` and the bodies of functions. -/
theorem printed_determines {source source' : String} {e e' : Expr} (he : Builds source (.expr e))
    (he' : Builds source' (.expr e')) (hfinite : e.Finite) (hfinite' : e'.Finite) :
    e.printed = e'.printed ↔ e.bare = e'.bare := by
  constructor
  · exact Expr.printed_inj (.and he.spelled hfinite) (.and he'.spelled hfinite')
  · intro hbare
    rw [← Expr.printed_bare, hbare, Expr.printed_bare]

/-- Calls of a method of the parent class, read from two sources, on other lines and with the other keyword. -/
theorem printed_determines_parent :
    ∃ e e' : Expr, Builds "super.m(1)" (.expr e) ∧ Builds "\nparent.m(1)" (.expr e') ∧ e.Finite ∧ e'.Finite ∧
      e.printed = e'.printed ∧ e.bare = e'.bare := by
  -- The reading of the digits is left out, for it does not matter to the parser which number stands there.
  have hbuilds (source keyword : String) (line : Nat) (x : Float) (h : (delimited (Scan.ofSource source).tokens).1 =
      [⟨.parentKeyword, keyword, none, line⟩, ⟨.dot, ".", none, line⟩, ⟨.identifier, "m", none, line⟩,
        ⟨.leftParen, "(", none, line⟩, ⟨.number, "1", some (.number x), line⟩, ⟨.rightParen, ")", none, line⟩]) :
      Builds source (.expr (.call (.parent 0 ⟨keyword, line⟩ ⟨"m", line⟩) line [.literal (.number x)])) := by
    have hread : (Grammar.rules 7).expression ⟨[⟨.parentKeyword, keyword, none, line⟩, ⟨.dot, ".", none, line⟩,
        ⟨.identifier, "m", none, line⟩, ⟨.leftParen, "(", none, line⟩, ⟨.number, "1", some (.number x), line⟩,
        ⟨.rightParen, ")", none, line⟩], line, 0, 0, []⟩ =
      .ok (.call (.parent 0 ⟨keyword, line⟩ ⟨"m", line⟩) line [.literal (.number x)]) ⟨[], line, 0, 1, []⟩ := by cbv
    refine .expression ?_ hread
    rw [h]
  have hfinite (keyword : String) (line : Nat) : (Expr.call (.parent 0 ⟨keyword, line⟩ ⟨"m", line⟩) line
      [.literal (.number (Number.ofDigits ['1'] []))]).Finite := by
    refine .intro trivial ?_
    rw [Node.children_call]
    refine List.forall_mem_cons.2 ⟨.intro trivial (List.forall_mem_nil _), List.forall_mem_singleton.2 ?_⟩
    exact .intro (by decide +kernel : (Number.ofDigits ['1'] []).isFinite = true) (List.forall_mem_nil _)
  have he := hbuilds "super.m(1)" "super" 1 (Number.ofDigits ['1'] []) rfl
  have he' := hbuilds "\nparent.m(1)" "parent" 2 (Number.ofDigits ['1'] []) rfl
  exact ⟨_, _, he, he', hfinite _ _, hfinite _ _, rfl, (printed_determines he he' (hfinite _ _) (hfinite _ _)).1 rfl⟩

end Parse

end TreeWalk
