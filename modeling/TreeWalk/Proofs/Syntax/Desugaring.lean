import Mathlib.Data.List.Forall2
import TreeWalk.Native
import TreeWalk.Proofs.Syntax.Place

/-!
# Loops with and without increments

A loop with an increment may be written as one without, whose body is a block that ends with the increment. Two
programs that differ in this way have the same parts in other places, with more scopes around some of them.
-/

namespace TreeWalk

/-! ## Scopes of two programs -/

/-- A scope around a place in the second of two programs: whether the first one has it too. -/
inductive Layer where
  | shared
  | added
  deriving DecidableEq

/-- The scopes around a place of the second program, innermost first. -/
abbrev Padding := List Layer

/-- What is declared here is declared in a scope of both programs. -/
def Padding.Open (π : Padding) : Prop := π.head? ≠ some .added

theorem Padding.open_shared (π : Padding) : Padding.Open (.shared :: π) := nofun

theorem Padding.not_open_added (π : Padding) : ¬ Padding.Open (.added :: π) := fun hopen => hopen rfl

structure Name.Pairs (line : Nat → Nat → Prop) (name name' : Name) : Prop where
  text : name'.text = name.text
  line : line name.line name'.line

structure Operator.Pairs {κ : Type} (line : Nat → Nat → Prop) (op op' : Operator κ) : Prop where
  kind : op'.kind = op.kind
  spelling : op'.spelling = op.spelling
  line : line op.line op'.line

/-- What is asked of parts of two programs that stand for each other: of the lines on which they are, and of
references under a padding, which have the same name in any case. -/
structure Pairing where
  line : Nat → Nat → Prop
  use : Padding → Reference → Reference → Prop
  names : ∀ {π : Padding} {use' use'' : Reference}, use π use' use'' → use'.name.Pairs line use''.name

/-- Nothing but names is asked of references. -/
def Pairing.onLines (line : Nat → Nat → Prop) : Pairing := ⟨line, fun _ use use' => use.name.Pairs line use'.name, id⟩

/-- A `continue` of the statement acts on a loop around it. -/
inductive Stmt.Continues : Stmt → Prop where
  | «continue» (line : Nat) : Continues (.continue line)
  | block {body : List Stmt} {s : Stmt} (hs : s ∈ body) (h : s.Continues) : Continues (.block body)
  | thenBranch {condition : Expr} {s : Stmt} {elseBranch : Option Stmt} (h : s.Continues) :
    Continues (.branch condition s elseBranch)
  | elseBranch {condition : Expr} {thenBranch s : Stmt} (h : s.Continues) :
    Continues (.branch condition thenBranch (some s))

/-! ## Programs without increments -/

mutual

/-- The second expression is the first one with some loops written without their increments. -/
inductive Expr.Desugars (k : Pairing) : Padding → Expr → Expr → Prop where
  | literal {π : Padding} (value : Literal) : Expr.Desugars k π (.literal value) (.literal value)
  | «variable» {π : Padding} {use use' : Reference} (huse : k.use π use use') :
    Expr.Desugars k π (.variable use) (.variable use')
  | assign {π : Padding} {target target' : Reference} {value value' : Expr} (htarget : k.use π target target')
    (hvalue : Expr.Desugars k π value value') : Expr.Desugars k π (.assign target value) (.assign target' value')
  | group {π : Padding} {inner inner' : Expr} (hinner : Expr.Desugars k π inner inner') :
    Expr.Desugars k π (.group inner) (.group inner')
  | unary {π : Padding} {op op' : Operator UnaryKind} {operand operand' : Expr} (hop : op.Pairs k.line op')
    (hoperand : Expr.Desugars k π operand operand') : Expr.Desugars k π (.unary op operand) (.unary op' operand')
  | binary {π : Padding} {left left' : Expr} {op op' : Operator TokenKind} {right right' : Expr}
    (hleft : Expr.Desugars k π left left') (hop : op.Pairs k.line op') (hright : Expr.Desugars k π right right') :
    Expr.Desugars k π (.binary left op right) (.binary left' op' right')
  | logical {π : Padding} {left left' : Expr} {op op' : Operator LogicalKind} {right right' : Expr}
    (hleft : Expr.Desugars k π left left') (hop : op.Pairs k.line op') (hright : Expr.Desugars k π right right') :
    Expr.Desugars k π (.logical left op right) (.logical left' op' right')
  | conditional {π : Padding} {condition condition' thenBranch thenBranch' elseBranch elseBranch' : Expr}
    (hcondition : Expr.Desugars k π condition condition') (hthen : Expr.Desugars k π thenBranch thenBranch')
    (helse : Expr.Desugars k π elseBranch elseBranch') :
    Expr.Desugars k π (.conditional condition thenBranch elseBranch) (.conditional condition' thenBranch' elseBranch')
  | call {π : Padding} {callee callee' : Expr} {line line' : Nat} {arguments arguments' : List Expr}
    (hcallee : Expr.Desugars k π callee callee') (hline : k.line line line')
    (harguments : Expr.DesugarsAll k π arguments arguments') :
    Expr.Desugars k π (.call callee line arguments) (.call callee' line' arguments')
  | get {π : Padding} {object object' : Expr} {name name' : Name} (hobject : Expr.Desugars k π object object')
    (hname : name.Pairs k.line name') : Expr.Desugars k π (.get object name) (.get object' name')
  | set {π : Padding} {object object' : Expr} {name name' : Name} {value value' : Expr}
    (hobject : Expr.Desugars k π object object') (hname : name.Pairs k.line name')
    (hvalue : Expr.Desugars k π value value') : Expr.Desugars k π (.set object name value) (.set object' name' value')
  | this {π : Padding} {id id' : NodeId} {line line' : Nat}
    (huse : k.use π ⟨id, receiverName, line⟩ ⟨id', receiverName, line'⟩) : Expr.Desugars k π (.this id line) (.this id' line')
  | parent {π : Padding} {id id' : NodeId} {keyword keyword' method method' : Name}
    (huse : k.use π ⟨id, parentName, keyword.line⟩ ⟨id', parentName, keyword'.line⟩)
    (hkeyword : keyword.Pairs k.line keyword') (hmethod : method.Pairs k.line method') :
    Expr.Desugars k π (.parent id keyword method) (.parent id' keyword' method')
  | lambda {π : Padding} {f f' : Function} (hf : Function.Desugars k π f f') : Expr.Desugars k π (.lambda f) (.lambda f')
  | list {π : Padding} {line line' : Nat} {elements elements' : List Expr} (hline : k.line line line')
    (helements : Expr.DesugarsAll k π elements elements') :
    Expr.Desugars k π (.list line elements) (.list line' elements')
  | index {π : Padding} {object object' : Expr} {line line' : Nat} {position position' : Expr}
    (hobject : Expr.Desugars k π object object') (hline : k.line line line')
    (hposition : Expr.Desugars k π position position') :
    Expr.Desugars k π (.index object line position) (.index object' line' position')

inductive Expr.DesugarsAll (k : Pairing) : Padding → List Expr → List Expr → Prop where
  | nil {π : Padding} : Expr.DesugarsAll k π [] []
  | cons {π : Padding} {e e' : Expr} {rest rest' : List Expr} (he : Expr.Desugars k π e e')
    (hrest : Expr.DesugarsAll k π rest rest') : Expr.DesugarsAll k π (e :: rest) (e' :: rest')

/-- The second statement is the first one with some loops written without their increments. Declarations take effect
in scopes that both programs have. -/
inductive Stmt.Desugars (k : Pairing) : Padding → Stmt → Stmt → Prop where
  | expression {π : Padding} {value value' : Expr} (hvalue : Expr.Desugars k π value value') :
    Stmt.Desugars k π (.expression value) (.expression value')
  | print {π : Padding} {line line' : Nat} {value value' : Expr} (hvalue : Expr.Desugars k π value value') :
    Stmt.Desugars k π (.print line value) (.print line' value')
  | declare {π : Padding} {name name' : Name} (hopen : π.Open) (hname : name.Pairs k.line name') :
    Stmt.Desugars k π (.var name none) (.var name' none)
  | var {π : Padding} {name name' : Name} {initializer initializer' : Expr} (hopen : π.Open)
    (hname : name.Pairs k.line name') (hinitializer : Expr.Desugars k π initializer initializer') :
    Stmt.Desugars k π (.var name (some initializer)) (.var name' (some initializer'))
  | block {π : Padding} {body body' : List Stmt} (hbody : Stmt.DesugarsAll k (.shared :: π) body body') :
    Stmt.Desugars k π (.block body) (.block body')
  | branch {π : Padding} {condition condition' : Expr} {thenBranch thenBranch' : Stmt}
    (hcondition : Expr.Desugars k π condition condition') (hthen : Stmt.Desugars k π thenBranch thenBranch') :
    Stmt.Desugars k π (.branch condition thenBranch none) (.branch condition' thenBranch' none)
  | branches {π : Padding} {condition condition' : Expr} {thenBranch thenBranch' elseBranch elseBranch' : Stmt}
    (hcondition : Expr.Desugars k π condition condition') (hthen : Stmt.Desugars k π thenBranch thenBranch')
    (helse : Stmt.Desugars k π elseBranch elseBranch') :
    Stmt.Desugars k π (.branch condition thenBranch (some elseBranch)) (.branch condition' thenBranch' (some elseBranch'))
  | loop {π : Padding} {condition condition' : Expr} {body body' : Stmt}
    (hcondition : Expr.Desugars k π condition condition') (hbody : Stmt.Desugars k π body body') :
    Stmt.Desugars k π (.loop condition body none) (.loop condition' body' none)
  | counting {π : Padding} {condition condition' : Expr} {body body' : Stmt} {increment increment' : Expr}
    (hcondition : Expr.Desugars k π condition condition') (hbody : Stmt.Desugars k π body body')
    (hincrement : Expr.Desugars k π increment increment') :
    Stmt.Desugars k π (.loop condition body (some increment)) (.loop condition' body' (some increment'))
  /-- The increment is written at the end of the body. -/
  | written {π : Padding} {condition condition' : Expr} {body body' : Stmt} {increment increment' : Expr}
    (hcondition : Expr.Desugars k π condition condition') (hbody : Stmt.Desugars k (.added :: π) body body')
    (hincrement : Expr.Desugars k (.added :: π) increment increment') (hcontinue : ¬ body.Continues) :
    Stmt.Desugars k π (.loop condition body (some increment))
      (.loop condition' (.block [body', .expression increment']) none)
  /-- A loop may get a block of its own. -/
  | boxed {π : Padding} {condition condition' : Expr} {body body' : Stmt} {increment increment' : Option Expr}
    (h : Stmt.Desugars k (.added :: π) (.loop condition body increment) (.loop condition' body' increment')) :
    Stmt.Desugars k π (.loop condition body increment) (.block [.loop condition' body' increment'])
  | «break» {π : Padding} {line line' : Nat} : Stmt.Desugars k π (.break line) (.break line')
  | «continue» {π : Padding} {line line' : Nat} : Stmt.Desugars k π (.continue line) (.continue line')
  | leave {π : Padding} {line line' : Nat} : Stmt.Desugars k π (.return line none) (.return line' none)
  | «return» {π : Padding} {line line' : Nat} {value value' : Expr} (hvalue : Expr.Desugars k π value value') :
    Stmt.Desugars k π (.return line (some value)) (.return line' (some value'))
  | function {π : Padding} {name name' : Name} {f f' : Function} (hopen : π.Open) (hname : name.Pairs k.line name')
    (hf : Function.Desugars k π f f') : Stmt.Desugars k π (.function name f) (.function name' f')
  | «class» {π : Padding} {name name' : Name} {methods methods' : List Method} (hopen : π.Open)
    (hname : name.Pairs k.line name') (hmethods : Method.DesugarsAll k (.shared :: π) methods methods') :
    Stmt.Desugars k π (.class name none methods) (.class name' none methods')
  | subclass {π : Padding} {name name' : Name} {parent parent' : Reference} {methods methods' : List Method}
    (hopen : π.Open) (hname : name.Pairs k.line name') (hparent : k.use π parent parent')
    (hmethods : Method.DesugarsAll k (.shared :: .shared :: π) methods methods') :
    Stmt.Desugars k π (.class name (some parent) methods) (.class name' (some parent') methods')
  | empty {π : Padding} : Stmt.Desugars k π .empty .empty

inductive Stmt.DesugarsAll (k : Pairing) : Padding → List Stmt → List Stmt → Prop where
  | nil {π : Padding} : Stmt.DesugarsAll k π [] []
  | cons {π : Padding} {s s' : Stmt} {rest rest' : List Stmt} (hs : Stmt.Desugars k π s s')
    (hrest : Stmt.DesugarsAll k π rest rest') : Stmt.DesugarsAll k π (s :: rest) (s' :: rest')

inductive Function.Desugars (k : Pairing) : Padding → Function → Function → Prop where
  | mk {π : Padding} {params params' : List Name} {body body' : List Stmt}
    (hparams : List.Forall₂ (Name.Pairs k.line) params params')
    (hbody : Stmt.DesugarsAll k (.shared :: π) body body') : Function.Desugars k π (.mk params body) (.mk params' body')

/-- Methods stand in the scope of their receiver. -/
inductive Method.DesugarsAll (k : Pairing) : Padding → List Method → List Method → Prop where
  | nil {π : Padding} : Method.DesugarsAll k π [] []
  | cons {π : Padding} {name name' : Name} {f f' : Function} {rest rest' : List Method} (hname : name.Pairs k.line name')
    (hf : Function.Desugars k π f f') (hrest : Method.DesugarsAll k π rest rest') :
    Method.DesugarsAll k π (.mk name f :: rest) (.mk name' f' :: rest')

end

/-! ## Loops by hand -/

/-- What a `for` statement is read as. -/
def Stmt.forLoop (initializer : Option Stmt) (condition increment : Expr) (body : Stmt) : Stmt :=
  match initializer with
  | none => .loop condition body (some increment)
  | some first => .block [first, .loop condition body (some increment)]

/-- A block of the initializer, if there is one, and a `while` statement whose body is a block that ends with the
increment. -/
def Stmt.loopByHand (initializer : Option Stmt) (condition increment : Expr) (body : Stmt) : Stmt :=
  .block (initializer.toList ++ [.loop condition (.block [body, .expression increment]) none])

/-- A `for` statement without an initializer has no scope for it. -/
def Layer.ofInitializer : Option Stmt → Layer
  | none => .added
  | some _ => .shared

/-- A `for` statement may be written by hand. -/
theorem Stmt.Desugars.by_hand {k : Pairing} {π : Padding} {initializer initializer' : Option Stmt}
    {condition condition' increment increment' : Expr} {body body' : Stmt}
    (hinitializer : Option.Rel (Stmt.Desugars k (.shared :: π)) initializer initializer')
    (hcondition : condition.Desugars k (.ofInitializer initializer :: π) condition')
    (hincrement : increment.Desugars k (.added :: .ofInitializer initializer :: π) increment')
    (hbody : body.Desugars k (.added :: .ofInitializer initializer :: π) body') (hcontinue : ¬ body.Continues) :
    (Stmt.forLoop initializer condition increment body).Desugars k π
      (Stmt.loopByHand initializer' condition' increment' body') := by
  have hloop := Stmt.Desugars.written hcondition hbody hincrement hcontinue
  cases hinitializer with
  | none => exact .boxed hloop
  | some hfirst => exact .block (.cons hfirst (.cons hloop .nil))

/-! ## What stays the same -/

section Desugars

variable {k : Pairing} {π : Padding}

theorem Name.pairs_texts {line : Nat → Nat → Prop} {names names' : List Name}
    (h : List.Forall₂ (Name.Pairs line) names names') : names'.map (·.text) = names.map (·.text) := by
  induction h with
  | nil => rfl
  | cons hname _ ih => rw [List.map_cons, List.map_cons, hname.text, ih]

theorem Function.Desugars.texts {f f' : Function} (h : f.Desugars k π f') :
    f'.params.map (·.text) = f.params.map (·.text) := by
  cases h with
  | mk hparams _ => exact Name.pairs_texts hparams

theorem Function.Desugars.body {f f' : Function} (h : f.Desugars k π f') :
    Stmt.DesugarsAll k (.shared :: π) f.body f'.body := by
  cases h with
  | mk _ hbody => exact hbody

/-- Nothing is declared where only the second program has a scope. -/
theorem Stmt.Desugars.nameless {π : Padding} {s s' : Stmt} : s.Desugars k π s' → ¬ π.Open → s.names = []
  | .declare hopen _, h | .var hopen _ _, h | .function hopen _ _, h | .class hopen _ _, h | .subclass hopen _ _ _, h =>
    absurd hopen h
  | .branch _ hthen, h => hthen.nameless h
  | .branches _ hthen helse, h => by rw [Stmt.names, hthen.nameless h, helse.nameless h, List.append_nil]
  | .loop _ hbody, h | .counting _ hbody _, h => hbody.nameless h
  | .written _ hbody _ _, _ => hbody.nameless π.not_open_added
  | .boxed hloop, _ => hloop.nameless π.not_open_added
  | .expression _, _ | .print _, _ | .block _, _ | .break, _ | .continue, _ | .leave, _ | .return _, _ | .empty, _ => rfl

theorem Stmt.Desugars.names {π : Padding} {s s' : Stmt} : s.Desugars k π s' → s'.names = s.names
  | .declare _ hname | .var _ hname _ | .function _ hname _ | .class _ hname _ | .subclass _ hname _ _ =>
    congrArg ([·]) hname.text
  | .branch _ hthen => hthen.names
  | .branches _ hthen helse => congrArg₂ (· ++ ·) hthen.names helse.names
  | .loop _ hbody | .counting _ hbody _ => hbody.names
  | .written _ hbody _ _ => (hbody.nameless π.not_open_added).symm
  | .boxed hloop => (hloop.nameless π.not_open_added).symm
  | .expression _ | .print _ | .block _ | .break | .continue | .leave | .return _ | .empty => rfl

mutual

/-- Bodies of lambdas are not printed. -/
theorem Expr.Desugars.printed {π : Padding} {e e' : Expr} : e.Desugars k π e' → e'.printed = e.printed
  | .literal _ | .this _ => rfl
  | .variable huse => (k.names huse).text
  | .assign htarget hvalue => by simp [Expr.printed, (k.names htarget).text, hvalue.printed]
  | .group hinner => by simp [Expr.printed, hinner.printed]
  | .unary hop hoperand => by simp [Expr.printed, hop.spelling, hoperand.printed]
  | .binary hleft hop hright => by simp [Expr.printed, hop.spelling, hleft.printed, hright.printed]
  | .logical hleft hop hright => by simp [Expr.printed, hop.spelling, hleft.printed, hright.printed]
  | .conditional hcondition hthen helse => by simp [Expr.printed, hcondition.printed, hthen.printed, helse.printed]
  | .call hcallee _ harguments => by simp [Expr.printed, hcallee.printed, harguments.printed]
  | .get hobject hname => by simp [Expr.printed, hobject.printed, hname.text]
  | .set hobject hname hvalue => by simp [Expr.printed, hobject.printed, hname.text, hvalue.printed]
  | .parent _ _ hmethod => by simp [Expr.printed, hmethod.text]
  | .lambda hf => by simp [Expr.printed, Function.printed, hf.texts]
  | .list _ helements => by simp [Expr.printed, helements.printed]
  | .index hobject _ hposition => by simp [Expr.printed, hobject.printed, hposition.printed]

theorem Expr.DesugarsAll.printed {π : Padding} {es es' : List Expr} :
    Expr.DesugarsAll k π es es' → Expr.printedAll es' = Expr.printedAll es
  | .nil => rfl
  | .cons he hrest => by simp [Expr.printedAll, he.printed, hrest.printed]

end

theorem Expr.Desugars.label {e e' : Expr} (h : e.Desugars k π e') : Native.label e' = Native.label e := by
  cases h with
  | «variable» huse => exact (k.names huse).text
  | _ => rfl

end Desugars

/-! ## Programs as they are -/

/-- Nothing but shared scopes. -/
def Padding.whole (scopes : Nat) : Padding := List.replicate scopes .shared

theorem Padding.open_whole (scopes : Nat) : (Padding.whole scopes).Open := by
  cases scopes <;> nofun

/-- Each of the references stands for itself where all scopes are shared. -/
def Pairing.Fixes (k : Pairing) (references : List Reference) : Prop :=
  ∀ use ∈ references, ∀ scopes, k.use (.whole scopes) use use

section Fixed

variable {k : Pairing}

theorem Pairing.fixes_append {xs ys : List Reference} : k.Fixes (xs ++ ys) ↔ k.Fixes xs ∧ k.Fixes ys := by
  simp only [Fixes, List.mem_append, or_imp, forall_and]

theorem Pairing.fixes_cons {use : Reference} {rest : List Reference} :
    k.Fixes (use :: rest) ↔ (∀ scopes, k.use (.whole scopes) use use) ∧ k.Fixes rest := by
  simp only [Fixes, List.forall_mem_cons]

theorem Name.pairs_self (hline : ∀ line, k.line line line) (name : Name) : name.Pairs k.line name := ⟨rfl, hline _⟩

theorem Operator.pairs_self {κ : Type} (hline : ∀ line, k.line line line) (op : Operator κ) : op.Pairs k.line op :=
  ⟨rfl, rfl, hline _⟩

mutual

theorem Expr.desugars_self (hline : ∀ line, k.line line line) :
    (e : Expr) → k.Fixes e.references → ∀ scopes, e.Desugars k (.whole scopes) e
  | .literal value, _, _ => .literal value
  | .variable _, h, n => .variable ((Pairing.fixes_cons.1 h).1 n)
  | .assign _ value, h, n =>
    have h := Pairing.fixes_cons.1 h
    .assign (h.1 n) (value.desugars_self hline h.2 n)
  | .group inner, h, n => .group (inner.desugars_self hline h n)
  | .unary op operand, h, n => .unary (op.pairs_self hline) (operand.desugars_self hline h n)
  | .binary left op right, h, n =>
    have h := Pairing.fixes_append.1 h
    .binary (left.desugars_self hline h.1 n) (op.pairs_self hline) (right.desugars_self hline h.2 n)
  | .logical left op right, h, n =>
    have h := Pairing.fixes_append.1 h
    .logical (left.desugars_self hline h.1 n) (op.pairs_self hline) (right.desugars_self hline h.2 n)
  | .conditional condition thenBranch elseBranch, h, n =>
    have h := Pairing.fixes_append.1 h
    have h' := Pairing.fixes_append.1 h.1
    .conditional (condition.desugars_self hline h'.1 n) (thenBranch.desugars_self hline h'.2 n)
      (elseBranch.desugars_self hline h.2 n)
  | .call callee _ arguments, h, n =>
    have h := Pairing.fixes_append.1 h
    .call (callee.desugars_self hline h.1 n) (hline _) (Expr.desugarsAll_self hline arguments h.2 n)
  | .get object name, h, n => .get (object.desugars_self hline h n) (name.pairs_self hline)
  | .set object name value, h, n =>
    have h := Pairing.fixes_append.1 h
    .set (object.desugars_self hline h.1 n) (name.pairs_self hline) (value.desugars_self hline h.2 n)
  | .this _ _, h, n => .this ((Pairing.fixes_cons.1 h).1 n)
  | .parent _ keyword method, h, n =>
    .parent ((Pairing.fixes_cons.1 h).1 n) (keyword.pairs_self hline) (method.pairs_self hline)
  | .lambda f, h, n => .lambda (f.desugars_self hline h n)
  | .list _ elements, h, n => .list (hline _) (Expr.desugarsAll_self hline elements h n)
  | .index object _ position, h, n =>
    have h := Pairing.fixes_append.1 h
    .index (object.desugars_self hline h.1 n) (hline _) (position.desugars_self hline h.2 n)

theorem Expr.desugarsAll_self (hline : ∀ line, k.line line line) :
    (es : List Expr) → k.Fixes (Expr.referencesAll es) → ∀ scopes, Expr.DesugarsAll k (.whole scopes) es es
  | [], _, _ => .nil
  | e :: rest, h, n =>
    have h := Pairing.fixes_append.1 h
    .cons (e.desugars_self hline h.1 n) (Expr.desugarsAll_self hline rest h.2 n)

theorem Stmt.desugars_self (hline : ∀ line, k.line line line) :
    (s : Stmt) → k.Fixes s.references → ∀ scopes, s.Desugars k (.whole scopes) s
  | .expression value, h, n => .expression (value.desugars_self hline h n)
  | .print _ value, h, n => .print (value.desugars_self hline h n)
  | .var name none, _, n => .declare (Padding.open_whole n) (name.pairs_self hline)
  | .var name (some initializer), h, n =>
    .var (Padding.open_whole n) (name.pairs_self hline) (initializer.desugars_self hline h n)
  | .block body, h, n => .block (Stmt.desugarsAll_self hline body h (n + 1))
  | .branch condition thenBranch none, h, n =>
    have h := Pairing.fixes_append.1 h
    .branch (condition.desugars_self hline h.1 n) (thenBranch.desugars_self hline h.2 n)
  | .branch condition thenBranch (some elseBranch), h, n =>
    have h := Pairing.fixes_append.1 h
    have h' := Pairing.fixes_append.1 h.1
    .branches (condition.desugars_self hline h'.1 n) (thenBranch.desugars_self hline h'.2 n)
      (elseBranch.desugars_self hline h.2 n)
  | .loop condition body none, h, n =>
    have h := Pairing.fixes_append.1 h
    .loop (condition.desugars_self hline h.1 n) (body.desugars_self hline h.2 n)
  | .loop condition body (some increment), h, n =>
    have h := Pairing.fixes_append.1 h
    have h' := Pairing.fixes_append.1 h.1
    .counting (condition.desugars_self hline h'.1 n) (body.desugars_self hline h'.2 n)
      (increment.desugars_self hline h.2 n)
  | .break _, _, _ => .break
  | .continue _, _, _ => .continue
  | .return _ none, _, _ => .leave
  | .return _ (some value), h, n => .return (value.desugars_self hline h n)
  | .function name f, h, n => .function (Padding.open_whole n) (name.pairs_self hline) (f.desugars_self hline h n)
  | .class name none methods, h, n =>
    .class (Padding.open_whole n) (name.pairs_self hline) (Method.desugarsAll_self hline methods h (n + 1))
  | .class name (some _) methods, h, n =>
    have h := Pairing.fixes_cons.1 h
    .subclass (Padding.open_whole n) (name.pairs_self hline) (h.1 n) (Method.desugarsAll_self hline methods h.2 (n + 2))
  | .empty, _, _ => .empty

theorem Stmt.desugarsAll_self (hline : ∀ line, k.line line line) :
    (statements : List Stmt) → k.Fixes (Stmt.referencesAll statements) →
      ∀ scopes, Stmt.DesugarsAll k (.whole scopes) statements statements
  | [], _, _ => .nil
  | s :: rest, h, n =>
    have h := Pairing.fixes_append.1 h
    .cons (s.desugars_self hline h.1 n) (Stmt.desugarsAll_self hline rest h.2 n)

theorem Function.desugars_self (hline : ∀ line, k.line line line) :
    (f : Function) → k.Fixes f.references → ∀ scopes, f.Desugars k (.whole scopes) f
  | .mk _ body, h, n =>
    .mk (List.forall₂_same.2 fun name _ => name.pairs_self hline) (Stmt.desugarsAll_self hline body h (n + 1))

theorem Method.desugarsAll_self (hline : ∀ line, k.line line line) :
    (methods : List Method) → k.Fixes (Method.referencesAll methods) →
      ∀ scopes, Method.DesugarsAll k (.whole scopes) methods methods
  | [], _, _ => .nil
  | .mk name f :: rest, h, n =>
    have h := Pairing.fixes_append.1 h
    .cons (name.pairs_self hline) (f.desugars_self hline h.1 n) (Method.desugarsAll_self hline rest h.2 n)

end

end Fixed

end TreeWalk
