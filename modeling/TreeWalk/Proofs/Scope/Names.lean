import TreeWalk.Proofs.Scope.Visibility

/-!
# Names in the innermost scope

Which names the innermost scope of a place has, and which of them are initialized. Behind the
statements of a suite all its declared names are, so a name is uninitialized only inside its own
initializer.
-/

namespace TreeWalk

/-- A statement initializes its names one after the other. -/
theorem Stmt.declared_eq (s : Scopes) : (statement : Stmt) →
    statement.declared s = statement.names.foldl Scopes.define s
  | .var .. | .function .. | .class .. => rfl
  | .branch _ thenBranch none => thenBranch.declared_eq s
  | .branch _ thenBranch (some elseBranch) => by
    rw [Stmt.declared, Stmt.names, List.foldl_append, thenBranch.declared_eq, elseBranch.declared_eq]
  | .loop _ body _ => body.declared_eq s
  | .expression _ | .print .. | .block _ | .break _ | .continue _ | .return .. | .empty => rfl

theorem Stmt.declaredAll_eq (s : Scopes) (statements : List Stmt) :
    Stmt.declaredAll s statements = (Stmt.namesAll statements).foldl Scopes.define s := by
  have hdeclared : Stmt.declared = fun s statement => statement.names.foldl Scopes.define s :=
    funext₂ Stmt.declared_eq
  rw [Stmt.declaredAll, Stmt.namesAll, List.foldl_flatMap, hdeclared]

namespace Scopes

theorem defineAll_eq (s : Scopes) (names : List Name) :
    s.defineAll names = (names.map (·.text)).foldl define s := List.foldl_map.symm

@[simp] theorem innermost_enter (s : Scopes) : s.enter.innermost = .empty := rfl

@[simp] theorem innermost_define (s : Scopes) (name : String) :
    (s.define name).innermost = s.innermost.set name true := by
  obtain ⟨locals, globals⟩ := s
  cases locals <;> rfl

theorem innermost_declare (s : Scopes) (name : String) : (s.declare name).innermost =
    if s.innermost.contains name then s.innermost else s.innermost.set name false := by
  obtain ⟨locals, globals⟩ := s
  cases locals <;> rfl

@[simp] theorem locals_define_eq_nil (s : Scopes) (name : String) :
    (s.define name).locals = [] ↔ s.locals = [] := by
  obtain ⟨locals, globals⟩ := s
  cases locals <;> simp [define, updateInnermost]

@[simp] theorem enter_locals_ne_nil (s : Scopes) : s.enter.locals ≠ [] := List.cons_ne_nil _ _

theorem redeclares_iff (s : Scopes) (name : String) :
    s.redeclares name = true ↔ s.locals ≠ [] ∧ s.innermost.get? name ≠ none := by
  obtain ⟨locals, globals⟩ := s
  cases locals <;> simp [redeclares, innermost, Bindings.contains, Option.isSome_iff_ne_none]

/-- What each of some definitions leaves as it is, all of them do. -/
theorem foldl_define_same {α : Type} (f : Scopes → α) {names : List String}
    (h : ∀ s, ∀ name ∈ names, f (s.define name) = f s) (s : Scopes) : f (names.foldl define s) = f s := by
  induction names generalizing s with
  | nil => rfl
  | cons first rest ih =>
    rw [List.foldl_cons, ih fun s name hname => h s name (List.mem_cons_of_mem _ hname), h s first List.mem_cons_self]

theorem get?_innermost_foldl_define (s : Scopes) (names : List String) (name : String) :
    (names.foldl define s).innermost.get? name = if name ∈ names then some true else s.innermost.get? name := by
  induction names generalizing s with
  | nil => simp
  | cons first rest ih =>
    rw [List.foldl_cons, ih, innermost_define, Bindings.get?_set]
    by_cases h : name = first <;> simp [h]

theorem locals_foldl_define_eq_nil (s : Scopes) (names : List String) :
    (names.foldl define s).locals = [] ↔ s.locals = [] :=
  Iff.of_eq (foldl_define_same (·.locals = []) (fun s name _ => propext (locals_define_eq_nil s name)) s)

theorem get?_innermost_defineAll (s : Scopes) (names : List Name) (name : String) :
    (s.defineAll names).innermost.get? name =
      if name ∈ names.map (·.text) then some true else s.innermost.get? name := by
  rw [defineAll_eq, get?_innermost_foldl_define]

@[simp] theorem locals_defineAll_eq_nil (s : Scopes) (names : List Name) :
    (s.defineAll names).locals = [] ↔ s.locals = [] := by
  rw [defineAll_eq, locals_foldl_define_eq_nil]

theorem get?_innermost_declared (s : Scopes) (statement : Stmt) (name : String) :
    (statement.declared s).innermost.get? name =
      if name ∈ statement.names then some true else s.innermost.get? name := by
  rw [Stmt.declared_eq, get?_innermost_foldl_define]

@[simp] theorem locals_declared_eq_nil (s : Scopes) (statement : Stmt) :
    (statement.declared s).locals = [] ↔ s.locals = [] := by
  rw [Stmt.declared_eq, locals_foldl_define_eq_nil]

theorem get?_innermost_declaredAll (s : Scopes) (before : List Stmt) (name : String) :
    (Stmt.declaredAll s before).innermost.get? name =
      if name ∈ Stmt.namesAll before then some true else s.innermost.get? name := by
  rw [Stmt.declaredAll_eq, get?_innermost_foldl_define]

@[simp] theorem locals_declaredAll_eq_nil (s : Scopes) (before : List Stmt) :
    (Stmt.declaredAll s before).locals = [] ↔ s.locals = [] := by
  rw [Stmt.declaredAll_eq, locals_foldl_define_eq_nil]

end Scopes

theorem get?_knownGlobals (names : List String) (name : String) :
    (Resolution.knownGlobals names).get? name = if name ∈ names then some true else none := by
  induction names with
  | nil => rfl
  | cons first rest ih =>
    simp only [Resolution.knownGlobals, Bindings.get?, List.map_cons, Bindings.find?] at ih ⊢
    rw [ih]
    by_cases h : name = first <;> simp [h]

namespace Place

/-- A suite with a scope of its own. -/
def Local : Place → Prop
  | block _ _ | function _ _ _ _ => True
  | past outer _ => outer.Local
  | _ => False

/-- The names that the scope of a suite has in front of a place. -/
def namesBefore (globals : List String) : Place → List String
  | top before => globals ++ Stmt.namesAll before
  | block _ before => Stmt.namesAll before
  | past outer s => outer.namesBefore globals ++ s.names
  | function _ _ params before => params.map (·.text) ++ Stmt.namesAll before
  | _ => []

variable {globals : List String} {p : Place}

theorem get?_innermost (hp : p.InSuite) (name : String) :
    (p.scopes (Resolution.knownGlobals globals)).innermost.get? name =
      if name ∈ p.namesBefore globals then some true else none := by
  induction p with
  | top before =>
    have hroot : (Scopes.ofGlobals (Resolution.knownGlobals globals)).innermost =
        Resolution.knownGlobals globals := rfl
    simp only [scopes, Scopes.get?_innermost_declaredAll, hroot, get?_knownGlobals, namesBefore,
      List.mem_append]
    by_cases h : name ∈ globals <;> simp [h]
  | block outer before =>
    simp only [scopes, Scopes.get?_innermost_declaredAll, Scopes.innermost_enter, Bindings.get?_empty]
    rfl
  | past outer s ih =>
    simp only [scopes, Scopes.get?_innermost_declared, ih hp, namesBefore, List.mem_append]
    by_cases h : name ∈ s.names <;> simp [h]
  | function outer role params before =>
    simp only [scopes, Scopes.get?_innermost_declaredAll, Scopes.get?_innermost_defineAll,
      Scopes.innermost_enter, Bindings.get?_empty, namesBefore, List.mem_append]
    by_cases h : name ∈ params.map (·.text) <;> simp [h]
  | _ => exact hp.elim

theorem locals_ne_nil_iff (hp : p.InSuite) :
    (p.scopes (Resolution.knownGlobals globals)).locals ≠ [] ↔ p.Local := by
  induction p <;> simp_all [scopes, Local, InSuite, Scopes.ofGlobals]

theorem redeclares_iff (hp : p.InSuite) (name : String) :
    (p.scopes (Resolution.knownGlobals globals)).redeclares name = true ↔
      p.Local ∧ name ∈ p.namesBefore globals := by
  rw [Scopes.redeclares_iff, get?_innermost hp, locals_ne_nil_iff hp]
  by_cases h : name ∈ p.namesBefore globals <;> simp [h]

/-- Among statements every name is initialized. -/
theorem not_uninitialized (hp : p.InSuite) (name : String) :
    (p.scopes (Resolution.knownGlobals globals)).uninitialized name = false := by
  rw [Scopes.uninitialized, get?_innermost hp]
  by_cases h : name ∈ p.namesBefore globals <;> simp [h]

theorem not_uninitialized_named (hp : p.InSuite) (name : Name) (other : String) :
    ((named p name).scopes (Resolution.knownGlobals globals)).uninitialized other = false := by
  rw [Scopes.uninitialized, scopes, Scopes.innermost_define, Bindings.get?_set, get?_innermost hp]
  by_cases h : other = name.text <;> by_cases h' : other ∈ p.namesBefore globals <;> simp [h, h']

/-- In an initializer only the declared name is uninitialized, if it is new in its scope. -/
theorem uninitialized_initializer_iff (hp : p.InSuite) (name : Name) (other : String) :
    ((initializer p name).scopes (Resolution.knownGlobals globals)).uninitialized other = true ↔
      other = name.text ∧ name.text ∉ p.namesBefore globals := by
  rw [Scopes.uninitialized, scopes, Scopes.innermost_declare, Bindings.contains, get?_innermost hp]
  by_cases h : name.text ∈ p.namesBefore globals
  · simp only [h, if_true, Option.isSome_some, get?_innermost hp]
    by_cases h' : other ∈ p.namesBefore globals <;> simp [h']
  · simp only [h, if_false, Option.isSome_none, Bool.false_eq_true, Bindings.get?_set, get?_innermost hp]
    by_cases ho : other = name.text <;> by_cases h' : other ∈ p.namesBefore globals <;> simp [ho, h']

end Place

end TreeWalk
