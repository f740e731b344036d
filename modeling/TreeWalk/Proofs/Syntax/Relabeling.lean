import TreeWalk.Syntax.Printed
import TreeWalk.Syntax.References

/-!
# Other lines and other ids

The same program on other lines and with other ids for its references. Where it stands in a source text and
when it has been read makes no other difference to a program.
-/

namespace TreeWalk

/-- Moves what stands on a line to another one, and gives other ids to references. -/
structure Relabeling where
  id : NodeId → NodeId
  line : Nat → Nat

namespace Relabeling

/-- Other lines only. -/
def onLines (line : Nat → Nat) : Relabeling := ⟨fun id => id, line⟩

/-- Ids that are so much higher, and other lines. -/
def moved (ids : Nat) (line : Nat → Nat) : Relabeling := ⟨(· + ids), line⟩

/-- Everything so many lines further down. -/
def down (lines : Nat) : Relabeling := onLines (· + lines)

/-- What is left when lines make no difference. -/
def withoutLines : Relabeling := onLines fun _ => 0

end Relabeling

def Token.relabel (r : Relabeling) (t : Token) : Token := { t with line := r.line t.line }

def Name.relabel (r : Relabeling) (name : Name) : Name := { name with line := r.line name.line }

def Operator.relabel {κ : Type} (r : Relabeling) (op : Operator κ) : Operator κ := { op with line := r.line op.line }

def Reference.relabel (r : Relabeling) (use : Reference) : Reference := ⟨r.id use.id, use.name.relabel r⟩

mutual

def Expr.relabel (r : Relabeling) : Expr → Expr
  | .literal value => .literal value
  | .variable use => .variable (use.relabel r)
  | .assign target value => .assign (target.relabel r) (value.relabel r)
  | .group inner => .group (inner.relabel r)
  | .unary op operand => .unary (op.relabel r) (operand.relabel r)
  | .binary left op right => .binary (left.relabel r) (op.relabel r) (right.relabel r)
  | .logical left op right => .logical (left.relabel r) (op.relabel r) (right.relabel r)
  | .conditional condition thenBranch elseBranch =>
    .conditional (condition.relabel r) (thenBranch.relabel r) (elseBranch.relabel r)
  | .call callee line arguments => .call (callee.relabel r) (r.line line) (Expr.relabelAll r arguments)
  | .get object name => .get (object.relabel r) (name.relabel r)
  | .set object name value => .set (object.relabel r) (name.relabel r) (value.relabel r)
  | .this id line => .this (r.id id) (r.line line)
  | .parent id keyword method => .parent (r.id id) (keyword.relabel r) (method.relabel r)
  | .lambda function => .lambda (function.relabel r)
  | .list line elements => .list (r.line line) (Expr.relabelAll r elements)
  | .index object line position => .index (object.relabel r) (r.line line) (position.relabel r)

def Expr.relabelAll (r : Relabeling) : List Expr → List Expr
  | [] => []
  | e :: rest => e.relabel r :: Expr.relabelAll r rest

def Stmt.relabel (r : Relabeling) : Stmt → Stmt
  | .expression value => .expression (value.relabel r)
  | .print line value => .print (r.line line) (value.relabel r)
  | .var name none => .var (name.relabel r) none
  | .var name (some initializer) => .var (name.relabel r) (some (initializer.relabel r))
  | .block body => .block (Stmt.relabelAll r body)
  | .branch condition thenBranch none => .branch (condition.relabel r) (thenBranch.relabel r) none
  | .branch condition thenBranch (some elseBranch) =>
    .branch (condition.relabel r) (thenBranch.relabel r) (some (elseBranch.relabel r))
  | .loop condition body none => .loop (condition.relabel r) (body.relabel r) none
  | .loop condition body (some increment) =>
    .loop (condition.relabel r) (body.relabel r) (some (increment.relabel r))
  | .break line => .break (r.line line)
  | .continue line => .continue (r.line line)
  | .return line none => .return (r.line line) none
  | .return line (some value) => .return (r.line line) (some (value.relabel r))
  | .function name function => .function (name.relabel r) (function.relabel r)
  | .class name parent methods =>
    .class (name.relabel r) (parent.map (Reference.relabel r)) (Method.relabelAll r methods)
  | .empty => .empty

def Stmt.relabelAll (r : Relabeling) : List Stmt → List Stmt
  | [] => []
  | s :: rest => s.relabel r :: Stmt.relabelAll r rest

def Function.relabel (r : Relabeling) : Function → Function
  | .mk params body => .mk (params.map (Name.relabel r)) (Stmt.relabelAll r body)

def Method.relabelAll (r : Relabeling) : List Method → List Method
  | [] => []
  | .mk name function :: rest => .mk (name.relabel r) (function.relabel r) :: Method.relabelAll r rest

end

def Method.relabel (r : Relabeling) (m : Method) : Method := .mk (m.name.relabel r) (m.function.relabel r)

/-! ## Simple facts -/

section Relabeling

variable (r : Relabeling)

@[simp] theorem Name.relabel_text (name : Name) : (name.relabel r).text = name.text := rfl

@[simp] theorem Name.relabel_line (name : Name) : (name.relabel r).line = r.line name.line := rfl

@[simp] theorem Reference.relabel_id (use : Reference) : (use.relabel r).id = r.id use.id := rfl

@[simp] theorem Reference.relabel_name (use : Reference) : (use.relabel r).name = use.name.relabel r := rfl

@[simp] theorem Operator.relabel_kind {κ : Type} (op : Operator κ) : (op.relabel r).kind = op.kind := rfl

@[simp] theorem Operator.relabel_line {κ : Type} (op : Operator κ) : (op.relabel r).line = r.line op.line := rfl

@[simp] theorem Token.relabel_kind (t : Token) : (t.relabel r).kind = t.kind := rfl

@[simp] theorem Expr.relabelAll_eq (es : List Expr) : Expr.relabelAll r es = es.map (Expr.relabel r) := by
  induction es with
  | nil => rfl
  | cons e rest ih => simp [Expr.relabelAll, ih]

@[simp] theorem Stmt.relabelAll_eq (statements : List Stmt) :
    Stmt.relabelAll r statements = statements.map (Stmt.relabel r) := by
  induction statements with
  | nil => rfl
  | cons s rest ih => simp [Stmt.relabelAll, ih]

@[simp] theorem Method.relabelAll_eq (methods : List Method) :
    Method.relabelAll r methods = methods.map (Method.relabel r) := by
  induction methods with
  | nil => rfl
  | cons m rest ih =>
    cases m
    simp [Method.relabelAll, Method.relabel, Method.name, Method.function, ih]

@[simp] theorem Function.relabel_params (f : Function) : (f.relabel r).params = f.params.map (Name.relabel r) := by
  cases f
  rfl

@[simp] theorem Function.relabel_body (f : Function) : (f.relabel r).body = f.body.map (Stmt.relabel r) := by
  cases f
  exact Stmt.relabelAll_eq r _

/-- Parameters keep their names. -/
theorem Function.relabel_params_text (f : Function) :
    (f.relabel r).params.map (·.text) = f.params.map (·.text) := by simp [Function.comp_def]

mutual

/-- Printed forms show neither lines nor ids. -/
theorem Expr.printed_relabel : (e : Expr) → (e.relabel r).printed = e.printed
  | .literal _ | .variable _ | .this _ _ | .parent _ _ _ => rfl
  | .assign _ value => by simp [Expr.relabel, Expr.printed, value.printed_relabel]
  | .group inner => by simp [Expr.relabel, Expr.printed, inner.printed_relabel]
  | .unary op operand => by simp [Expr.relabel, Expr.printed, operand.printed_relabel, Operator.relabel]
  | .binary left op right => by
    simp [Expr.relabel, Expr.printed, left.printed_relabel, right.printed_relabel, Operator.relabel]
  | .logical left op right => by
    simp [Expr.relabel, Expr.printed, left.printed_relabel, right.printed_relabel, Operator.relabel]
  | .conditional condition thenBranch elseBranch => by
    simp [Expr.relabel, Expr.printed, condition.printed_relabel, thenBranch.printed_relabel, elseBranch.printed_relabel]
  | .call callee _ arguments => by
    rw [Expr.relabel, Expr.printed, Expr.printed, callee.printed_relabel, Expr.printedAll_relabel arguments]
  | .get object _ => by simp [Expr.relabel, Expr.printed, object.printed_relabel]
  | .set object _ value => by simp [Expr.relabel, Expr.printed, object.printed_relabel, value.printed_relabel]
  | .lambda f => by simp [Expr.relabel, Expr.printed, Function.printed, Function.comp_def]
  | .list _ elements => by rw [Expr.relabel, Expr.printed, Expr.printed, Expr.printedAll_relabel elements]
  | .index object _ position => by simp [Expr.relabel, Expr.printed, object.printed_relabel, position.printed_relabel]

theorem Expr.printedAll_relabel : (es : List Expr) → Expr.printedAll (Expr.relabelAll r es) = Expr.printedAll es
  | [] => rfl
  | e :: rest => by
    rw [Expr.relabelAll, Expr.printedAll, Expr.printedAll, e.printed_relabel, Expr.printedAll_relabel rest]

end

end Relabeling

/-! ## Programs on which two relabellings agree -/

section Congruence

variable {r r' : Relabeling}

theorem Name.relabel_congr (hline : ∀ n, r.line n = r'.line n) (name : Name) : name.relabel r = name.relabel r' := by
  rw [Name.relabel, hline, ← Name.relabel]

theorem Operator.relabel_congr {κ : Type} (hline : ∀ n, r.line n = r'.line n) (op : Operator κ) :
    op.relabel r = op.relabel r' := by rw [Operator.relabel, hline, ← Operator.relabel]

theorem Reference.relabel_congr (hline : ∀ n, r.line n = r'.line n) {use : Reference} (hu : r.id use.id = r'.id use.id) :
    use.relabel r = use.relabel r' := by rw [Reference.relabel, Name.relabel_congr hline, hu, ← Reference.relabel]

theorem params_relabel_congr (hline : ∀ n, r.line n = r'.line n) (params : List Name) :
    params.map (Name.relabel r) = params.map (Name.relabel r') :=
  List.map_congr_left fun name _ => Name.relabel_congr hline name

mutual

theorem Expr.relabel_congr (hline : ∀ n, r.line n = r'.line n) :
    (e : Expr) → (∀ u ∈ e.references, r.id u.id = r'.id u.id) → e.relabel r = e.relabel r'
  | .literal _, _ => rfl
  | .variable use, hu => by
    rw [Expr.relabel, Expr.relabel, Reference.relabel_congr hline (hu use (by simp [Expr.references]))]
  | .assign target value, hu => by
    simp only [Expr.references, List.forall_mem_cons] at hu
    rw [Expr.relabel, Expr.relabel, Reference.relabel_congr hline hu.1, value.relabel_congr hline hu.2]
  | .group inner, hu => by rw [Expr.relabel, Expr.relabel, inner.relabel_congr hline hu]
  | .unary op operand, hu => by
    rw [Expr.relabel, Expr.relabel, Operator.relabel_congr hline, operand.relabel_congr hline hu]
  | .binary left op right, hu => by
    simp only [Expr.references, List.forall_mem_append] at hu
    rw [Expr.relabel, Expr.relabel, left.relabel_congr hline hu.1, Operator.relabel_congr hline,
      right.relabel_congr hline hu.2]
  | .logical left op right, hu => by
    simp only [Expr.references, List.forall_mem_append] at hu
    rw [Expr.relabel, Expr.relabel, left.relabel_congr hline hu.1, Operator.relabel_congr hline,
      right.relabel_congr hline hu.2]
  | .conditional condition thenBranch elseBranch, hu => by
    simp only [Expr.references, List.forall_mem_append] at hu
    rw [Expr.relabel, Expr.relabel, condition.relabel_congr hline hu.1.1, thenBranch.relabel_congr hline hu.1.2,
      elseBranch.relabel_congr hline hu.2]
  | .call callee line arguments, hu => by
    simp only [Expr.references, List.forall_mem_append] at hu
    rw [Expr.relabel, Expr.relabel, callee.relabel_congr hline hu.1, hline, Expr.relabelAll_congr hline arguments hu.2]
  | .get object name, hu => by rw [Expr.relabel, Expr.relabel, object.relabel_congr hline hu, Name.relabel_congr hline]
  | .set object name value, hu => by
    simp only [Expr.references, List.forall_mem_append] at hu
    rw [Expr.relabel, Expr.relabel, object.relabel_congr hline hu.1, Name.relabel_congr hline,
      value.relabel_congr hline hu.2]
  | .this id line, hu => by
    rw [Expr.relabel, Expr.relabel, hline, hu ⟨id, receiverName, line⟩ (by simp [Expr.references])]
  | .parent id keyword method, hu => by
    rw [Expr.relabel, Expr.relabel, Name.relabel_congr hline, Name.relabel_congr hline,
      hu ⟨id, parentName, keyword.line⟩ (by simp [Expr.references])]
  | .lambda function, hu => by rw [Expr.relabel, Expr.relabel, function.relabel_congr hline hu]
  | .list line elements, hu => by rw [Expr.relabel, Expr.relabel, hline, Expr.relabelAll_congr hline elements hu]
  | .index object line position, hu => by
    simp only [Expr.references, List.forall_mem_append] at hu
    rw [Expr.relabel, Expr.relabel, object.relabel_congr hline hu.1, hline, position.relabel_congr hline hu.2]

theorem Expr.relabelAll_congr (hline : ∀ n, r.line n = r'.line n) :
    (es : List Expr) → (∀ u ∈ Expr.referencesAll es, r.id u.id = r'.id u.id) →
    Expr.relabelAll r es = Expr.relabelAll r' es
  | [], _ => rfl
  | e :: rest, hu => by
    simp only [Expr.referencesAll, List.forall_mem_append] at hu
    rw [Expr.relabelAll, Expr.relabelAll, e.relabel_congr hline hu.1, Expr.relabelAll_congr hline rest hu.2]

theorem Stmt.relabel_congr (hline : ∀ n, r.line n = r'.line n) :
    (s : Stmt) → (∀ u ∈ s.references, r.id u.id = r'.id u.id) → s.relabel r = s.relabel r'
  | .expression value, hu => by rw [Stmt.relabel, Stmt.relabel, value.relabel_congr hline hu]
  | .print line value, hu => by rw [Stmt.relabel, Stmt.relabel, hline, value.relabel_congr hline hu]
  | .var name none, _ => by rw [Stmt.relabel, Stmt.relabel, Name.relabel_congr hline]
  | .var name (some initializer), hu => by
    rw [Stmt.relabel, Stmt.relabel, Name.relabel_congr hline, initializer.relabel_congr hline hu]
  | .block body, hu => by rw [Stmt.relabel, Stmt.relabelAll_congr hline body hu, Stmt.relabel]
  | .branch condition thenBranch none, hu => by
    simp only [Stmt.references, List.forall_mem_append] at hu
    rw [Stmt.relabel, Stmt.relabel, condition.relabel_congr hline hu.1, thenBranch.relabel_congr hline hu.2]
  | .branch condition thenBranch (some elseBranch), hu => by
    simp only [Stmt.references, List.forall_mem_append] at hu
    rw [Stmt.relabel, Stmt.relabel, condition.relabel_congr hline hu.1.1, thenBranch.relabel_congr hline hu.1.2,
      elseBranch.relabel_congr hline hu.2]
  | .loop condition body none, hu => by
    simp only [Stmt.references, List.forall_mem_append] at hu
    rw [Stmt.relabel, Stmt.relabel, condition.relabel_congr hline hu.1, body.relabel_congr hline hu.2]
  | .loop condition body (some increment), hu => by
    simp only [Stmt.references, List.forall_mem_append] at hu
    rw [Stmt.relabel, Stmt.relabel, condition.relabel_congr hline hu.1.1, body.relabel_congr hline hu.1.2,
      increment.relabel_congr hline hu.2]
  | .break line, _ => by rw [Stmt.relabel, Stmt.relabel, hline]
  | .continue line, _ => by rw [Stmt.relabel, Stmt.relabel, hline]
  | .return line none, _ => by rw [Stmt.relabel, Stmt.relabel, hline]
  | .return line (some value), hu => by rw [Stmt.relabel, Stmt.relabel, hline, value.relabel_congr hline hu]
  | .function name function, hu => by
    rw [Stmt.relabel, Stmt.relabel, Name.relabel_congr hline, function.relabel_congr hline hu]
  | .class name none methods, hu => by
    rw [Stmt.relabel, Stmt.relabel, Name.relabel_congr hline, Method.relabelAll_congr hline methods hu]
    rfl
  | .class name (some parent) methods, hu => by
    simp only [Stmt.references, List.forall_mem_cons] at hu
    rw [Stmt.relabel, Stmt.relabel, Name.relabel_congr hline, Option.map_some, Option.map_some,
      Reference.relabel_congr hline hu.1, Method.relabelAll_congr hline methods hu.2]
  | .empty, _ => rfl

theorem Stmt.relabelAll_congr (hline : ∀ n, r.line n = r'.line n) :
    (statements : List Stmt) → (∀ u ∈ Stmt.referencesAll statements, r.id u.id = r'.id u.id) →
    Stmt.relabelAll r statements = Stmt.relabelAll r' statements
  | [], _ => rfl
  | s :: rest, hu => by
    simp only [Stmt.referencesAll, List.forall_mem_append] at hu
    rw [Stmt.relabelAll, Stmt.relabelAll, s.relabel_congr hline hu.1, Stmt.relabelAll_congr hline rest hu.2]

theorem Function.relabel_congr (hline : ∀ n, r.line n = r'.line n) :
    (f : Function) → (∀ u ∈ f.references, r.id u.id = r'.id u.id) → f.relabel r = f.relabel r'
  | .mk params body, hu => by
    rw [Function.relabel, Function.relabel, params_relabel_congr hline, Stmt.relabelAll_congr hline body hu]

theorem Method.relabelAll_congr (hline : ∀ n, r.line n = r'.line n) :
    (methods : List Method) → (∀ u ∈ Method.referencesAll methods, r.id u.id = r'.id u.id) →
    Method.relabelAll r methods = Method.relabelAll r' methods
  | [], _ => rfl
  | .mk name function :: rest, hu => by
    simp only [Method.referencesAll, List.forall_mem_append] at hu
    rw [Method.relabelAll, Method.relabelAll, Name.relabel_congr hline, function.relabel_congr hline hu.1,
      Method.relabelAll_congr hline rest hu.2]

end

end Congruence

/-! ## What is left as it is -/

namespace Relabeling

/-- Nothing changes. -/
def same : Relabeling := onLines fun line => line

/-- Lines stay, and so do ids below the bound. No others become ids below it. -/
structure Fixes (r : Relabeling) (bound : NodeId) : Prop where
  line : ∀ n, r.line n = n
  id : ∀ id < bound, r.id id = id
  above : ∀ id, bound ≤ id → bound ≤ r.id id

theorem Fixes.mono {r : Relabeling} {bound bound' : NodeId} (h : r.Fixes bound') (hle : bound ≤ bound') :
    r.Fixes bound where
  line := h.line
  id id hid := h.id id (Nat.lt_of_lt_of_le hid hle)
  above id hid := by
    rcases Nat.lt_or_ge id bound' with hlt | hge
    · rwa [h.id id hlt]
    · exact Nat.le_trans hle (h.above id hge)

end Relabeling

@[simp] theorem Name.relabel_same (name : Name) : name.relabel .same = name := rfl

@[simp] theorem Operator.relabel_same {κ : Type} (op : Operator κ) : op.relabel .same = op := rfl

@[simp] theorem Reference.relabel_same (use : Reference) : use.relabel .same = use := rfl

mutual

theorem Expr.relabel_same : (e : Expr) → e.relabel .same = e
  | .literal _ | .variable _ | .this _ _ | .parent _ _ _ => rfl
  | .assign _ value => by rw [Expr.relabel, value.relabel_same]; rfl
  | .group inner => by rw [Expr.relabel, inner.relabel_same]
  | .unary _ operand => by rw [Expr.relabel, operand.relabel_same]; rfl
  | .binary left _ right => by rw [Expr.relabel, left.relabel_same, right.relabel_same]; rfl
  | .logical left _ right => by rw [Expr.relabel, left.relabel_same, right.relabel_same]; rfl
  | .conditional condition thenBranch elseBranch => by
    rw [Expr.relabel, condition.relabel_same, thenBranch.relabel_same, elseBranch.relabel_same]
  | .call callee _ arguments => by rw [Expr.relabel, callee.relabel_same, Expr.relabelAll_same arguments]; rfl
  | .get object _ => by rw [Expr.relabel, object.relabel_same]; rfl
  | .set object _ value => by rw [Expr.relabel, object.relabel_same, value.relabel_same]; rfl
  | .lambda function => by rw [Expr.relabel, function.relabel_same]
  | .list _ elements => by rw [Expr.relabel, Expr.relabelAll_same elements]; rfl
  | .index object _ position => by rw [Expr.relabel, object.relabel_same, position.relabel_same]; rfl

theorem Expr.relabelAll_same : (es : List Expr) → Expr.relabelAll .same es = es
  | [] => rfl
  | e :: rest => by rw [Expr.relabelAll, e.relabel_same, Expr.relabelAll_same rest]

theorem Stmt.relabel_same : (s : Stmt) → s.relabel .same = s
  | .break _ | .continue _ | .return _ none | .var _ none | .empty => rfl
  | .expression value => by rw [Stmt.relabel, value.relabel_same]
  | .print _ value => by rw [Stmt.relabel, value.relabel_same]; rfl
  | .var _ (some initializer) => by rw [Stmt.relabel, initializer.relabel_same]; rfl
  | .block body => by rw [Stmt.relabel, Stmt.relabelAll_same body]
  | .branch condition thenBranch none => by rw [Stmt.relabel, condition.relabel_same, thenBranch.relabel_same]
  | .branch condition thenBranch (some elseBranch) => by
    rw [Stmt.relabel, condition.relabel_same, thenBranch.relabel_same, elseBranch.relabel_same]
  | .loop condition body none => by rw [Stmt.relabel, condition.relabel_same, body.relabel_same]
  | .loop condition body (some increment) => by
    rw [Stmt.relabel, condition.relabel_same, body.relabel_same, increment.relabel_same]
  | .return _ (some value) => by rw [Stmt.relabel, value.relabel_same]; rfl
  | .function _ function => by rw [Stmt.relabel, function.relabel_same]; rfl
  | .class _ parent methods => by rw [Stmt.relabel, Method.relabelAll_same methods]; cases parent <;> rfl

theorem Stmt.relabelAll_same : (statements : List Stmt) → Stmt.relabelAll .same statements = statements
  | [] => rfl
  | s :: rest => by rw [Stmt.relabelAll, s.relabel_same, Stmt.relabelAll_same rest]

theorem Function.relabel_same : (f : Function) → f.relabel .same = f
  | .mk params body => by
    rw [Function.relabel, Stmt.relabelAll_same body]
    exact congrArg (Function.mk · body) (List.map_id params)

theorem Method.relabelAll_same : (methods : List Method) → Method.relabelAll .same methods = methods
  | [] => rfl
  | .mk _ function :: rest => by rw [Method.relabelAll, function.relabel_same, Method.relabelAll_same rest]; rfl

end

theorem Stmt.relabelAll_fixed {r : Relabeling} {bound : NodeId} (h : r.Fixes bound) (statements : List Stmt)
    (hu : ∀ u ∈ Stmt.referencesAll statements, u.id < bound) : Stmt.relabelAll r statements = statements :=
  calc Stmt.relabelAll r statements
    _ = Stmt.relabelAll .same statements := Stmt.relabelAll_congr h.line statements fun u hu' => h.id u.id (hu u hu')
    _ = statements := Stmt.relabelAll_same statements

end TreeWalk
