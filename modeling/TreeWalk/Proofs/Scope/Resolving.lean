import TreeWalk.Proofs.Scope.Openings
import TreeWalk.Scope.Resolver

/-!
# What a resolver does

Walking a program, a resolver adds what is found in it to the distances and violations that it has, and the names
that are declared to its scopes. So it answers as resolution does, and it is left as a new resolver that also knows
the names declared at top level.
-/

namespace TreeWalk

namespace Bindings

variable {α : Type}

theorem replace_replace (name : String) (old new : α) (entries : List (String × α)) :
    replace name new (replace name old entries) = replace name new entries := by
  induction entries with
  | nil => simp [replace]
  | cons entry rest ih =>
    obtain ⟨key, value⟩ := entry
    by_cases h : name = key <;> simp [replace, h, ih]

/-- The second value of a name takes the place of the first. -/
theorem set_set (b : Bindings α) (name : String) (old new : α) : (b.set name old).set name new = b.set name new :=
  congrArg Bindings.mk (replace_replace name old new b.entries)

end Bindings

namespace Scopes

theorem define_declare (s : Scopes) (name : String) : (s.declare name).define name = s.define name := by
  obtain ⟨locals, globals⟩ := s
  cases locals <;> simp only [define, declare, updateInnermost] <;> split <;> simp only [Bindings.set_set]

theorem declare_of_redeclares {s : Scopes} {name : String} (h : s.redeclares name = true) : s.declare name = s := by
  obtain ⟨locals, globals⟩ := s
  cases locals with
  | nil => cases h
  | cons scope outer =>
    have hold : scope.contains name = true := h
    rw [declare, updateInnermost]
    exact congrArg (fun scope => (⟨scope :: outer, globals⟩ : Scopes)) (if_pos hold)

@[simp] theorem leave_enter (s : Scopes) : s.enter.leave = s := rfl

@[simp] theorem leave_opened (s : Scopes) (name : String) : (s.enter.define name).leave = s := rfl

theorem leave_define {s : Scopes} (h : s.locals ≠ []) (name : String) : (s.define name).leave = s.leave := by
  obtain ⟨locals, globals⟩ := s
  cases locals with
  | nil => exact absurd rfl h
  | cons scope outer => rfl

theorem leave_foldl_define {s : Scopes} (h : s.locals ≠ []) (names : List String) :
    (names.foldl define s).leave = s.leave := by
  induction names generalizing s with
  | nil => rfl
  | cons first rest ih =>
    have hnext : (s.define first).locals ≠ [] := by simpa using h
    rw [List.foldl_cons, ih hnext, leave_define h]

theorem leave_defineAll {s : Scopes} (h : s.locals ≠ []) (names : List Name) :
    (s.defineAll names).leave = s.leave := by
  rw [defineAll_eq, leave_foldl_define h]

theorem leave_declaredAll {s : Scopes} (h : s.locals ≠ []) (body : List Stmt) :
    (Stmt.declaredAll s body).leave = s.leave := by
  rw [Stmt.declaredAll_eq, leave_foldl_define h]

theorem defineAll_append (s : Scopes) (names others : List Name) :
    s.defineAll (names ++ others) = (s.defineAll names).defineAll others := List.foldl_append

end Scopes

namespace Resolver

/-! ## Where the walk is -/

variable {r r' r'' : Resolver}

/-- The resolver has come from one place to another of the same scope, past the declarations of some names. -/
def Passes (names : List Name) (r r' : Resolver) : Prop :=
  r'.scopes = r.scopes.defineAll names ∧ r'.around = r.around

namespace Passes

variable {names others : List Name}

theorem refl (r : Resolver) : r.Passes [] r := ⟨rfl, rfl⟩

theorem trans (h : r.Passes names r') (h' : r'.Passes others r'') : r.Passes (names ++ others) r'' :=
  ⟨by rw [h'.1, h.1, Scopes.defineAll_append], h'.2.trans h.2⟩

/-- From an expression on the walk goes on in the same scopes. -/
theorem further (h : r.Passes [] r') (h' : r'.Passes names r'') : r.Passes names r'' := h.trans h'

theorem report (r : Resolver) (place : Name) (cause : ScopeCause) : r.Passes [] (r.report place cause) := ⟨rfl, rfl⟩

theorem locate (r : Resolver) (id : NodeId) (name : String) : r.Passes [] (r.locate id name) := by
  unfold Resolver.locate
  split <;> exact ⟨rfl, rfl⟩

theorem read (r : Resolver) (use : Reference) : r.Passes [] (r.read use) := by
  unfold Resolver.read
  split
  · exact (report r _ _).further (locate _ _ _)
  · exact locate r _ _

end Passes

theorem scopes_declare (r : Resolver) (name : Name) : (r.declare name).scopes = r.scopes.declare name.text := by
  unfold declare
  split
  case isTrue h => exact (Scopes.declare_of_redeclares h).symm
  case isFalse => rfl

@[simp] theorem around_declare (r : Resolver) (name : Name) : (r.declare name).around = r.around := by
  unfold declare
  split <;> rfl

/-- Between the declaration of a name and its definition there is at most an expression. -/
theorem Passes.initialized {name : Name} (h : (r.declare name).Passes [] r') : r.Passes [name] (r'.define name.text) := by
  refine ⟨?_, h.2.trans (r.around_declare name)⟩
  rw [define, h.1, scopes_declare]
  exact Scopes.define_declare r.scopes name.text

theorem Passes.named (r : Resolver) (name : Name) : r.Passes [name] ((r.declare name).define name.text) :=
  initialized (refl _)

theorem Passes.bindAll (r : Resolver) (names : List Name) : r.Passes names (r.bindAll names) := by
  induction names generalizing r with
  | nil => exact refl r
  | cons first rest ih => exact (named r first).trans (ih _)

/-- What is declared inside a scope is gone when the scope is closed. -/
theorem Passes.left {names : List Name} (h : r.enter.Passes names r') : r.Passes [] r'.leave := by
  have hscopes : r'.scopes = r.scopes.enter.defineAll names := h.1
  refine ⟨?_, h.2⟩
  rw [leave, hscopes, Scopes.leave_defineAll (Scopes.enter_locals_ne_nil r.scopes)]
  rfl

/-- A scope with one name of its own is around what stands in it. -/
theorem Passes.around {name : String} (h : (r.enter.define name).Passes [] r') : r.Passes [] r'.leave :=
  have hdefine : r.enter.Passes [⟨name, 0⟩] (r.enter.define name) := ⟨rfl, rfl⟩
  (hdefine.trans h).left

theorem Passes.inFunction {names : List Name} {role : Option FunctionRole}
    (h : (r.setFunction role).Passes names r') : r.Passes names (r'.setFunction r.around.inFunction) :=
  ⟨h.1, by rw [setFunction, h.2]; rfl⟩

theorem Passes.inClass {names : List Name} {role : Option ClassRole}
    (h : (r.setClass role).Passes names r') : r.Passes names (r'.setClass r.around.inClass) :=
  ⟨h.1, by rw [setClass, h.2]; rfl⟩

end Resolver

open Resolver

mutual

theorem Expr.resolve_passes : (e : Expr) → (r : Resolver) → r.Passes [] (e.resolve r)
  | .literal _, r => .refl r
  | .variable use, r => .read r use
  | .assign target value, r => (value.resolve_passes r).further (.locate _ _ _)
  | .group inner, r => inner.resolve_passes r
  | .unary _ operand, r => operand.resolve_passes r
  | .binary left _ right, r => (left.resolve_passes r).further (right.resolve_passes _)
  | .logical left _ right, r => (left.resolve_passes r).further (right.resolve_passes _)
  | .conditional condition thenBranch elseBranch, r =>
    (condition.resolve_passes r).further ((thenBranch.resolve_passes _).further (elseBranch.resolve_passes _))
  | .call callee _ arguments, r => (callee.resolve_passes r).further (Expr.resolveAll_passes arguments _)
  | .get object _, r => object.resolve_passes r
  | .set object _ value, r => (value.resolve_passes r).further (object.resolve_passes _)
  | .this id line, r => by
    rw [Expr.resolve]
    split
    · exact .report r _ _
    · exact .locate r _ _
  | .parent id keyword _, r => by
    rw [Expr.resolve]
    split
    · exact .report r _ _
    · exact .report r _ _
    · exact .locate r _ _
  | .lambda f, r => f.resolve_passes .function r
  | .list _ elements, r => Expr.resolveAll_passes elements r
  | .index object _ position, r => (object.resolve_passes r).further (position.resolve_passes _)

theorem Expr.resolveAll_passes : (es : List Expr) → (r : Resolver) → r.Passes [] (Expr.resolveAll es r)
  | [], r => .refl r
  | e :: rest, r => (e.resolve_passes r).further (Expr.resolveAll_passes rest _)

theorem Stmt.resolve_passes : (statement : Stmt) → (r : Resolver) → ∃ names, r.Passes names (statement.resolve r)
  | .expression value, r => ⟨_, value.resolve_passes r⟩
  | .print _ value, r => ⟨_, value.resolve_passes r⟩
  | .var name none, r => ⟨_, .named r name⟩
  | .var name (some initializer), r => ⟨_, .initialized (initializer.resolve_passes (r.declare name))⟩
  | .block body, r =>
    have ⟨_, h⟩ := Stmt.resolveAll_passes body r.enter
    ⟨_, h.left⟩
  | .branch condition thenBranch none, r =>
    have ⟨_, h⟩ := thenBranch.resolve_passes (condition.resolve r)
    ⟨_, (condition.resolve_passes r).further h⟩
  | .branch condition thenBranch (some elseBranch), r =>
    have ⟨_, h⟩ := thenBranch.resolve_passes (condition.resolve r)
    have ⟨_, h'⟩ := elseBranch.resolve_passes (thenBranch.resolve (condition.resolve r))
    ⟨_, (condition.resolve_passes r).further (h.trans h')⟩
  | .loop condition body none, r =>
    have ⟨_, h⟩ := body.resolve_passes (condition.resolve r)
    ⟨_, (condition.resolve_passes r).further h⟩
  | .loop condition body (some increment), r =>
    have ⟨_, h⟩ := body.resolve_passes (condition.resolve r)
    ⟨_, (condition.resolve_passes r).further (h.trans (increment.resolve_passes _))⟩
  | .break _, r => ⟨_, .refl r⟩
  | .continue _, r => ⟨_, .refl r⟩
  | .return line none, r => by
    rw [Stmt.resolve]
    split
    · exact ⟨_, .report r _ _⟩
    · exact ⟨_, .refl r⟩
  | .return line (some value), r => by
    rw [Stmt.resolve]
    split
    · exact ⟨_, (Passes.report r _ _).further (value.resolve_passes _)⟩
    · exact ⟨_, (Passes.report r _ _).further (value.resolve_passes _)⟩
    · exact ⟨_, value.resolve_passes r⟩
  | .function name f, r => ⟨_, (Passes.named r name).trans (f.resolve_passes .function _)⟩
  | .class name none methods, r =>
    have hnamed := Passes.named (r.setClass (some .plain)) name
    ⟨_, (hnamed.trans (.around (Method.resolveAll_passes methods _))).inClass⟩
  | .class name (some parent) methods, r => by
    have hnamed := Passes.named (r.setClass (some .plain)) name
    have hchecked : Passes [name] (r.setClass (some .plain)) (if parent.name.text = name.text then
        (((r.setClass (some .plain)).declare name).define name.text).report parent.name .selfInheritance
        else ((r.setClass (some .plain)).declare name).define name.text) := by
      split
      · exact hnamed.trans (.report _ _ _)
      · exact hnamed
    exact ⟨_, (hchecked.trans ((Passes.read _ parent).further
      (.around (.around (Method.resolveAll_passes methods _)))).inClass).inClass⟩
  | .empty, r => ⟨_, .refl r⟩

theorem Stmt.resolveAll_passes : (statements : List Stmt) → (r : Resolver) →
    ∃ names, r.Passes names (Stmt.resolveAll statements r)
  | [], r => ⟨_, .refl r⟩
  | statement :: rest, r =>
    have ⟨_, h⟩ := statement.resolve_passes r
    have ⟨_, h'⟩ := Stmt.resolveAll_passes rest (statement.resolve r)
    ⟨_, h.trans h'⟩

theorem Function.resolve_passes (role : FunctionRole) : (f : Function) → (r : Resolver) →
    r.Passes [] (f.resolve role r)
  | .mk params body, r =>
    have ⟨_, h⟩ := Stmt.resolveAll_passes body ((r.setFunction (some role)).enter.bindAll params)
    ((Passes.bindAll _ params).trans h).left.inFunction

theorem Method.resolveAll_passes : (methods : List Method) → (r : Resolver) →
    r.Passes [] (Method.resolveAll methods r)
  | [], r => .refl r
  | .mk name f :: rest, r => (f.resolve_passes (methodRole name) r).further (Method.resolveAll_passes rest _)

end

/-! ## What the walk comes to -/

namespace Resolution

theorem errors_append (findings others : List Finding) :
    (Resolution.mk (findings ++ others)).errors = (mk findings).errors ++ (mk others).errors :=
  List.filterMap_append

theorem addDistances_append (findings others : List Finding) (known : Distances) :
    (Resolution.mk (findings ++ others)).addDistances known = (mk others).addDistances ((mk findings).addDistances known) :=
  List.foldl_append

end Resolution

namespace Resolver

variable (r : Resolver)

/-- The resolver that has come to other scopes and has found something on the way. -/
def behind (s : Scopes) (findings : List Finding) : Resolver :=
  { r with
    scopes := s
    distances := (Resolution.mk findings).addDistances r.distances
    errors := r.errors ++ (Resolution.mk findings).errors }

@[simp] theorem scopes_behind (s : Scopes) (findings : List Finding) : (r.behind s findings).scopes = s := rfl

@[simp] theorem around_behind (s : Scopes) (findings : List Finding) : (r.behind s findings).around = r.around := rfl

theorem behind_nil (s : Scopes) : r.behind s [] = { r with scopes := s } := by
  simp [behind, Resolution.addDistances, Resolution.errors]

@[simp] theorem behind_behind (s s' : Scopes) (findings others : List Finding) :
    (r.behind s findings).behind s' others = r.behind s' (findings ++ others) := by
  simp [behind, Resolution.errors_append, Resolution.addDistances_append]

@[simp] theorem setFunction_behind (s : Scopes) (findings : List Finding) (role : Option FunctionRole) :
    (r.behind s findings).setFunction role = (r.setFunction role).behind s findings := rfl

@[simp] theorem scopes_setFunction (role : Option FunctionRole) : (r.setFunction role).scopes = r.scopes := rfl

@[simp] theorem around_setFunction (role : Option FunctionRole) :
    (r.setFunction role).around = { r.around with inFunction := role } := rfl

@[simp] theorem setFunction_restored (role : Option FunctionRole) :
    (r.setFunction role).setFunction r.around.inFunction = r := rfl

@[simp] theorem setClass_behind (s : Scopes) (findings : List Finding) (role : Option ClassRole) :
    (r.behind s findings).setClass role = (r.setClass role).behind s findings := rfl

@[simp] theorem scopes_setClass (role : Option ClassRole) : (r.setClass role).scopes = r.scopes := rfl

@[simp] theorem around_setClass (role : Option ClassRole) :
    (r.setClass role).around = { r.around with inClass := role } := rfl

@[simp] theorem setClass_setClass (role other : Option ClassRole) :
    (r.setClass role).setClass other = r.setClass other := rfl

@[simp] theorem setClass_self : r.setClass r.around.inClass = r := rfl

theorem report_eq (place : Name) (cause : ScopeCause) :
    r.report place cause = r.behind r.scopes (Scopes.violation place cause) := rfl

theorem locate_eq (id : NodeId) (name : String) :
    r.locate id name = r.behind r.scopes (r.scopes.locate id name) := by
  rw [locate, Scopes.locate]
  cases r.scopes.distance? name with
  | none => exact (r.behind_nil _).symm
  | some d => simp [behind, Resolution.addDistances, Resolution.errors]

theorem enter_eq : r.enter = r.behind r.scopes.enter [] := (r.behind_nil _).symm

theorem leave_eq : r.leave = r.behind r.scopes.leave [] := (r.behind_nil _).symm

theorem define_eq (name : String) : r.define name = r.behind (r.scopes.define name) [] := (r.behind_nil _).symm

/-- A scope that is opened for one implicit name. -/
theorem opened_eq (name : String) : r.enter.define name = r.behind (r.scopes.enter.define name) [] :=
  (r.behind_nil _).symm

theorem declare_eq (name : Name) :
    r.declare name = r.behind (r.scopes.declare name.text) (r.scopes.declaration name) := by
  rw [declare, Scopes.declaration]
  split
  case isTrue h => rw [Scopes.declare_of_redeclares h, report_eq]
  case isFalse => exact (r.behind_nil _).symm

theorem read_eq (use : Reference) : r.read use = r.behind r.scopes (r.scopes.read use) := by
  rw [read, Scopes.read]
  split
  · rw [report_eq, locate_eq, behind_behind, scopes_behind]
  · exact r.locate_eq _ _

/-- A name is initialized right behind its declaration. -/
theorem named_eq (name : Name) :
    (r.declare name).define name.text = r.behind (r.scopes.define name.text) (r.scopes.declaration name) := by
  rw [declare_eq, define_eq, behind_behind, scopes_behind, Scopes.define_declare, List.append_nil]

theorem bindAll_eq (names : List Name) :
    r.bindAll names = r.behind (r.scopes.defineAll names) (r.scopes.declarations names) := by
  induction names generalizing r with
  | nil => exact (r.behind_nil _).symm
  | cons first rest ih =>
    rw [bindAll, List.foldl_cons, ← bindAll, ih, named_eq, behind_behind, scopes_behind]
    rfl

end Resolver

mutual

/-- A resolver finds what resolution finds, and comes to the scopes behind it. -/
theorem Expr.resolve_eq : (e : Expr) → (r : Resolver) → e.resolve r = r.behind r.scopes (e.findings r.around r.scopes)
  | .literal _, r => (r.behind_nil _).symm
  | .variable use, r => r.read_eq use
  | .assign target value, r => by
    have hvalue := value.resolve_eq
    simp [Expr.resolve, Expr.findings, hvalue, locate_eq]
  | .group inner, r => inner.resolve_eq r
  | .unary _ operand, r => operand.resolve_eq r
  | .binary left _ right, r | .logical left _ right, r => by
    have hleft := left.resolve_eq
    have hright := right.resolve_eq
    simp [Expr.resolve, Expr.findings, hleft, hright]
  | .conditional condition thenBranch elseBranch, r => by
    have hcondition := condition.resolve_eq
    have hthen := thenBranch.resolve_eq
    have helse := elseBranch.resolve_eq
    simp [Expr.resolve, Expr.findings, hcondition, hthen, helse]
  | .call callee _ arguments, r => by
    have hcallee := callee.resolve_eq
    have harguments := Expr.resolveAll_eq arguments
    simp [Expr.resolve, Expr.findings, hcallee, harguments]
  | .get object _, r => object.resolve_eq r
  | .set object _ value, r => by
    have hobject := object.resolve_eq
    have hvalue := value.resolve_eq
    simp [Expr.resolve, Expr.findings, hobject, hvalue]
  | .this id line, r => by
    rw [Expr.resolve, Expr.findings]
    rcases r.around.inClass with _ | role
    · exact r.report_eq _ _
    · exact r.locate_eq _ _
  | .parent id keyword _, r => by
    rw [Expr.resolve, Expr.findings]
    rcases r.around.inClass with _ | _ | _
    · exact r.report_eq _ _
    · exact r.report_eq _ _
    · exact r.locate_eq _ _
  | .lambda f, r => f.resolve_eq .function r
  | .list _ elements, r => Expr.resolveAll_eq elements r
  | .index object _ position, r => by
    have hobject := object.resolve_eq
    have hposition := position.resolve_eq
    simp [Expr.resolve, Expr.findings, hobject, hposition]

theorem Expr.resolveAll_eq : (es : List Expr) → (r : Resolver) →
    Expr.resolveAll es r = r.behind r.scopes (Expr.findingsAll r.around r.scopes es)
  | [], r => (r.behind_nil _).symm
  | e :: rest, r => by
    have hfirst := e.resolve_eq
    have hrest := Expr.resolveAll_eq rest
    simp [Expr.resolveAll, Expr.findingsAll, hfirst, hrest]

theorem Stmt.resolve_eq : (statement : Stmt) → (r : Resolver) →
    statement.resolve r = r.behind (statement.declared r.scopes) (statement.findings r.around r.scopes)
  | .expression value, r => value.resolve_eq r
  | .print _ value, r => value.resolve_eq r
  | .var name none, r => r.named_eq name
  | .var name (some initializer), r => by
    have hinitializer := initializer.resolve_eq
    simp [Stmt.resolve, Stmt.findings, Stmt.declared, hinitializer, declare_eq, define_eq, Scopes.define_declare]
  | .block body, r => by
    have hbody := Stmt.resolveAll_eq body
    simp [Stmt.resolve, Stmt.findings, Stmt.declared, hbody, enter_eq, leave_eq, Scopes.leave_declaredAll]
  | .branch condition thenBranch none, r => by
    have hcondition := condition.resolve_eq
    have hthen := thenBranch.resolve_eq
    simp [Stmt.resolve, Stmt.findings, Stmt.declared, hcondition, hthen]
  | .branch condition thenBranch (some elseBranch), r => by
    have hcondition := condition.resolve_eq
    have hthen := thenBranch.resolve_eq
    have helse := elseBranch.resolve_eq
    simp [Stmt.resolve, Stmt.findings, Stmt.declared, hcondition, hthen, helse]
  | .loop condition body none, r => by
    have hcondition := condition.resolve_eq
    have hbody := body.resolve_eq
    simp [Stmt.resolve, Stmt.findings, Stmt.declared, hcondition, hbody]
  | .loop condition body (some increment), r => by
    have hcondition := condition.resolve_eq
    have hbody := body.resolve_eq
    have hincrement := increment.resolve_eq
    simp [Stmt.resolve, Stmt.findings, Stmt.declared, hcondition, hbody, hincrement]
  | .break _, r => (r.behind_nil _).symm
  | .continue _, r => (r.behind_nil _).symm
  | .return line none, r => by
    rw [Stmt.resolve, Stmt.findings]
    split
    · exact r.report_eq _ _
    · exact (r.behind_nil _).symm
  | .return line (some value), r => by
    have hvalue := value.resolve_eq
    rw [Stmt.resolve, Stmt.findings]
    rcases r.around.inFunction with _ | _ | _ | _ <;> simp [hvalue, report_eq, Stmt.declared]
  | .function name f, r => by
    have hbody := f.resolve_eq .function
    simp [Stmt.resolve, Stmt.findings, Stmt.declared, named_eq, hbody]
  | .class name none methods, r => by
    have hmethods := Method.resolveAll_eq methods
    simp [Stmt.resolve, Stmt.findings, Stmt.declared, named_eq, opened_eq, hmethods, leave_eq]
  | .class name (some parent) methods, r => by
    have hmethods := Method.resolveAll_eq methods
    by_cases hself : parent.name.text = name.text <;>
      simp [Stmt.resolve, Stmt.findings, Stmt.declared, hself, named_eq, report_eq, read_eq, opened_eq, hmethods, leave_eq]
  | .empty, r => (r.behind_nil _).symm

theorem Stmt.resolveAll_eq : (statements : List Stmt) → (r : Resolver) → Stmt.resolveAll statements r =
    r.behind (Stmt.declaredAll r.scopes statements) (Stmt.findingsAll r.around r.scopes statements)
  | [], r => (r.behind_nil _).symm
  | statement :: rest, r => by
    have hfirst := statement.resolve_eq
    have hrest := Stmt.resolveAll_eq rest
    simp [Stmt.resolveAll, Stmt.findingsAll, Stmt.declaredAll, hfirst, hrest]

theorem Function.resolve_eq (role : FunctionRole) : (f : Function) → (r : Resolver) →
    f.resolve role r = r.behind r.scopes (f.findings r.around r.scopes role)
  | .mk params body, r => by
    have hbody := Stmt.resolveAll_eq body
    simp [Function.resolve, Function.findings, enter_eq, bindAll_eq, hbody, leave_eq, Scopes.leave_declaredAll,
      Scopes.leave_defineAll]

theorem Method.resolveAll_eq : (methods : List Method) → (r : Resolver) →
    Method.resolveAll methods r = r.behind r.scopes (Method.findingsAll r.around r.scopes methods)
  | [], r => (r.behind_nil _).symm
  | .mk name f :: rest, r => by
    have hfirst := f.resolve_eq (methodRole name)
    have hrest := Method.resolveAll_eq rest
    simp [Method.resolveAll, Method.findingsAll, hfirst, hrest]

end

/-! ## Whole programs -/

namespace Resolution

/-- What is answered to one who asks for the distances. -/
def answer (r : Resolution) : Except (List ScopeError) Distances :=
  if r.errors.isEmpty then .ok r.distances else .error r.errors

theorem answer_eq_ok {r : Resolution} {table : Distances} :
    r.answer = .ok table ↔ r.errors = [] ∧ r.distances = table := by
  unfold answer
  split
  case isTrue hnone => simp [List.isEmpty_iff.1 hnone]
  case isFalse hsome => simpa using fun hnone => absurd hnone (by simpa using hsome)

theorem ofGlobals_globalsBehind (globals : Bindings Bool) (program : List Stmt) :
    Scopes.ofGlobals (globalsBehind globals program) = Stmt.declaredAll (.ofGlobals globals) program := by
  have hlocals := (Scopes.locals_declaredAll_eq_nil (.ofGlobals globals) program).2 rfl
  unfold globalsBehind
  generalize Stmt.declaredAll (.ofGlobals globals) program = s at hlocals ⊢
  obtain ⟨locals, globals⟩ := s
  cases hlocals
  rfl

end Resolution

namespace Resolver

theorem finish_behind (globals globals' : Bindings Bool) (r : Resolution) :
    ((atTop globals).behind (.ofGlobals globals') r.findings).finish = (r.answer, atTop globals') := by
  have herrors : ((atTop globals).behind (.ofGlobals globals') r.findings).errors = r.errors := List.nil_append _
  unfold finish Resolution.answer
  rw [herrors]
  split
  case isTrue hnone =>
    have hclean : r.errors = [] := List.isEmpty_iff.1 hnone
    exact Prod.ext rfl (congrArg (Resolver.mk _ _ _) (herrors.trans hclean))
  case isFalse => rfl

/-- A resolver answers as resolution does, and keeps the top level behind the program. -/
theorem resolve_atTop (globals : Bindings Bool) (program : List Stmt) :
    (atTop globals).resolve program =
      ((Resolution.ofProgram globals program).answer, atTop (Resolution.globalsBehind globals program)) := by
  -- A resolver at top level has neither distances nor violations, so it ends with those of the program.
  have hwalk := Stmt.resolveAll_eq program (atTop globals)
  rw [resolve, restart, ← finish_behind globals, Resolution.ofGlobals_globalsBehind]
  exact congrArg finish hwalk

end Resolver

end TreeWalk
