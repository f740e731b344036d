import Mathlib.Data.List.Perm.Basic
import TreeWalk.Proofs.Scope.Legality

/-!
# What resolution looks up

Resolution walks over a program and looks names up in the scopes of the moment. Here it is written down which
references it comes to on the way, one after the other. It comes to every reference of the program once, and where
there are no violations, what it finds is what it looks up.
-/

namespace TreeWalk

/-- A reference and the scopes in which it is looked up. -/
structure Visit where
  scopes : Scopes
  use : Reference

namespace Visit

def findings (v : Visit) : List Finding := v.scopes.locate v.use.id v.use.name.text

/-- The distances behind the reference. -/
def record (known : Distances) (v : Visit) : Distances :=
  match v.scopes.distance? v.use.name.text with
  | some d => known.insert v.use.id d
  | none => known

end Visit

mutual

/-- The references to which the walk over an expression comes, in the order of the walk. -/
def Expr.visits (s : Scopes) : Expr → List Visit
  | .literal _ => []
  | .variable use => [⟨s, use⟩]
  | .assign target value => value.visits s ++ [⟨s, target⟩]
  | .group inner => inner.visits s
  | .unary _ operand => operand.visits s
  | .binary left _ right => left.visits s ++ right.visits s
  | .logical left _ right => left.visits s ++ right.visits s
  | .conditional condition thenBranch elseBranch =>
    condition.visits s ++ thenBranch.visits s ++ elseBranch.visits s
  | .call callee _ arguments => callee.visits s ++ Expr.visitsAll s arguments
  | .get object _ => object.visits s
  | .set object _ value => value.visits s ++ object.visits s
  | .this id line => [⟨s, id, receiverName, line⟩]
  | .parent id keyword _ => [⟨s, id, parentName, keyword.line⟩]
  | .lambda function => function.visits s
  | .list _ elements => Expr.visitsAll s elements
  | .index object _ position => object.visits s ++ position.visits s

def Expr.visitsAll (s : Scopes) : List Expr → List Visit
  | [] => []
  | e :: rest => e.visits s ++ Expr.visitsAll s rest

def Stmt.visits (s : Scopes) : Stmt → List Visit
  | .expression value => value.visits s
  | .print _ value => value.visits s
  | .var _ none => []
  | .var name (some initializer) => initializer.visits (s.declare name.text)
  | .block body => Stmt.visitsAll s.enter body
  | .branch condition thenBranch none => condition.visits s ++ thenBranch.visits s
  | .branch condition thenBranch (some elseBranch) =>
    condition.visits s ++ thenBranch.visits s ++ elseBranch.visits (thenBranch.declared s)
  | .loop condition body none => condition.visits s ++ body.visits s
  | .loop condition body (some increment) =>
    condition.visits s ++ body.visits s ++ increment.visits (body.declared s)
  | .break _ => []
  | .continue _ => []
  | .return _ none => []
  | .return _ (some value) => value.visits s
  | .function name function => function.visits (s.define name.text)
  | .class name none methods => Method.visitsAll ((s.define name.text).enter.define receiverName) methods
  | .class name (some parent) methods =>
    ⟨s.define name.text, parent⟩ ::
      Method.visitsAll (((s.define name.text).enter.define parentName).enter.define receiverName) methods
  | .empty => []

def Stmt.visitsAll (s : Scopes) : List Stmt → List Visit
  | [] => []
  | statement :: rest => statement.visits s ++ Stmt.visitsAll (statement.declared s) rest

def Function.visits (s : Scopes) : Function → List Visit
  | .mk params body => Stmt.visitsAll (s.enter.defineAll params) body

def Method.visitsAll (s : Scopes) : List Method → List Visit
  | [] => []
  | .mk _ function :: rest => function.visits s ++ Method.visitsAll s rest

end

/-! ## Every reference is visited once -/

mutual

theorem Expr.visits_perm (s : Scopes) : (e : Expr) → ((e.visits s).map (·.use)).Perm e.references
  | .literal _ | .variable _ | .this _ _ | .parent _ _ _ => .refl _
  | .assign target value => by
    rw [Expr.visits, Expr.references, List.map_append]
    exact (List.perm_append_singleton target _).trans ((value.visits_perm s).cons target)
  | .group inner => inner.visits_perm s
  | .unary _ operand => operand.visits_perm s
  | .binary left _ right | .logical left _ right => by
    rw [Expr.visits, Expr.references, List.map_append]
    exact (left.visits_perm s).append (right.visits_perm s)
  | .conditional condition thenBranch elseBranch => by
    rw [Expr.visits, Expr.references, List.map_append, List.map_append]
    exact ((condition.visits_perm s).append (thenBranch.visits_perm s)).append (elseBranch.visits_perm s)
  | .call callee _ arguments => by
    rw [Expr.visits, Expr.references, List.map_append]
    exact (callee.visits_perm s).append (Expr.visitsAll_perm s arguments)
  | .get object _ => object.visits_perm s
  | .set object _ value => by
    rw [Expr.visits, Expr.references, List.map_append]
    exact List.perm_append_comm.trans ((object.visits_perm s).append (value.visits_perm s))
  | .lambda function => function.visits_perm s
  | .list _ elements => Expr.visitsAll_perm s elements
  | .index object _ position => by
    rw [Expr.visits, Expr.references, List.map_append]
    exact (object.visits_perm s).append (position.visits_perm s)

theorem Expr.visitsAll_perm (s : Scopes) : (es : List Expr) →
    ((Expr.visitsAll s es).map (·.use)).Perm (Expr.referencesAll es)
  | [] => .refl _
  | e :: rest => by
    rw [Expr.visitsAll, Expr.referencesAll, List.map_append]
    exact (e.visits_perm s).append (Expr.visitsAll_perm s rest)

theorem Stmt.visits_perm (s : Scopes) : (statement : Stmt) →
    ((statement.visits s).map (·.use)).Perm statement.references
  | .var _ none | .break _ | .continue _ | .return _ none | .empty => .refl _
  | .expression value | .print _ value | .return _ (some value) => value.visits_perm s
  | .var name (some initializer) => initializer.visits_perm (s.declare name.text)
  | .block body => Stmt.visitsAll_perm s.enter body
  | .branch condition thenBranch none => by
    rw [Stmt.visits, Stmt.references, List.map_append]
    exact (condition.visits_perm s).append (thenBranch.visits_perm s)
  | .branch condition thenBranch (some elseBranch) => by
    rw [Stmt.visits, Stmt.references, List.map_append, List.map_append]
    exact ((condition.visits_perm s).append (thenBranch.visits_perm s)).append (elseBranch.visits_perm _)
  | .loop condition body none => by
    rw [Stmt.visits, Stmt.references, List.map_append]
    exact (condition.visits_perm s).append (body.visits_perm s)
  | .loop condition body (some increment) => by
    rw [Stmt.visits, Stmt.references, List.map_append, List.map_append]
    exact ((condition.visits_perm s).append (body.visits_perm s)).append (increment.visits_perm _)
  | .function name function => function.visits_perm (s.define name.text)
  | .class _ none methods => Method.visitsAll_perm _ methods
  | .class _ (some parent) methods => (Method.visitsAll_perm _ methods).cons parent

theorem Stmt.visitsAll_perm (s : Scopes) : (statements : List Stmt) →
    ((Stmt.visitsAll s statements).map (·.use)).Perm (Stmt.referencesAll statements)
  | [] => .refl _
  | statement :: rest => by
    rw [Stmt.visitsAll, Stmt.referencesAll, List.map_append]
    exact (statement.visits_perm s).append (Stmt.visitsAll_perm (statement.declared s) rest)

theorem Function.visits_perm (s : Scopes) : (f : Function) → ((f.visits s).map (·.use)).Perm f.references
  | .mk params body => Stmt.visitsAll_perm (s.enter.defineAll params) body

theorem Method.visitsAll_perm (s : Scopes) : (methods : List Method) →
    ((Method.visitsAll s methods).map (·.use)).Perm (Method.referencesAll methods)
  | [] => .refl _
  | .mk _ function :: rest => by
    rw [Method.visitsAll, Method.referencesAll, List.map_append]
    exact (function.visits_perm s).append (Method.visitsAll_perm s rest)

end

/-! ## Nothing else is found without violations -/

theorem eq_nil_of_clean_ite {c : Prop} [Decidable c] {place : Name} {cause : ScopeCause}
    (h : Clean (if c then Scopes.violation place cause else [])) :
    (if c then Scopes.violation place cause else []) = [] := if_neg ((clean_ite_violation place cause).1 h)

theorem Scopes.declarations_eq_nil {names : List Name} {s : Scopes} (h : Clean (s.declarations names)) :
    s.declarations names = [] := by
  induction names generalizing s with
  | nil => rfl
  | cons first rest ih =>
    rw [Scopes.declarations, clean_append] at h
    rw [Scopes.declarations, ih h.2, List.append_nil]
    exact eq_nil_of_clean_ite h.1

theorem Scopes.read_eq_locate {s : Scopes} {use : Reference} (h : Clean (s.read use)) :
    s.read use = s.locate use.id use.name.text := by
  rw [Scopes.read, clean_append] at h
  rw [Scopes.read, eq_nil_of_clean_ite h.1, List.nil_append]

mutual

theorem Expr.findings_eq_visits {s : Scopes} {around : Surroundings} : (e : Expr) → Clean (e.findings around s) →
    e.findings around s = (e.visits s).flatMap Visit.findings
  | .literal _, _ => by simp [Expr.findings, Expr.visits]
  | .variable use, hclean => by
    simp only [Expr.findings] at hclean
    simp [Expr.findings, Expr.visits, Scopes.read_eq_locate hclean, Visit.findings]
  | .assign target value, hclean => by
    simp only [Expr.findings, clean_append] at hclean
    simp [Expr.findings, Expr.visits, value.findings_eq_visits hclean.1, Visit.findings]
  | .group inner, hclean => inner.findings_eq_visits hclean
  | .unary _ operand, hclean => operand.findings_eq_visits hclean
  | .binary left _ right, hclean | .logical left _ right, hclean => by
    simp only [Expr.findings, clean_append] at hclean
    simp [Expr.findings, Expr.visits, left.findings_eq_visits hclean.1, right.findings_eq_visits hclean.2]
  | .conditional condition thenBranch elseBranch, hclean => by
    simp only [Expr.findings, clean_append] at hclean
    simp [Expr.findings, Expr.visits, condition.findings_eq_visits hclean.1.1,
      thenBranch.findings_eq_visits hclean.1.2, elseBranch.findings_eq_visits hclean.2]
  | .call callee _ arguments, hclean => by
    simp only [Expr.findings, clean_append] at hclean
    simp [Expr.findings, Expr.visits, callee.findings_eq_visits hclean.1, Expr.findingsAll_eq_visits arguments hclean.2]
  | .get object _, hclean => object.findings_eq_visits hclean
  | .set object _ value, hclean => by
    simp only [Expr.findings, clean_append] at hclean
    simp [Expr.findings, Expr.visits, value.findings_eq_visits hclean.1, object.findings_eq_visits hclean.2]
  | .this id line, hclean => by
    simp only [Expr.findings] at hclean ⊢
    split at hclean
    · exact absurd hclean (clean_violation _ _)
    · simp [Expr.visits, Visit.findings]
  | .parent id keyword _, hclean => by
    simp only [Expr.findings] at hclean ⊢
    split at hclean
    · exact absurd hclean (clean_violation _ _)
    · exact absurd hclean (clean_violation _ _)
    · simp [Expr.visits, Visit.findings]
  | .lambda function, hclean => function.findings_eq_visits hclean
  | .list _ elements, hclean => Expr.findingsAll_eq_visits elements hclean
  | .index object _ position, hclean => by
    simp only [Expr.findings, clean_append] at hclean
    simp [Expr.findings, Expr.visits, object.findings_eq_visits hclean.1, position.findings_eq_visits hclean.2]

theorem Expr.findingsAll_eq_visits {s : Scopes} {around : Surroundings} : (es : List Expr) →
    Clean (Expr.findingsAll around s es) →
    Expr.findingsAll around s es = (Expr.visitsAll s es).flatMap Visit.findings
  | [], _ => rfl
  | e :: rest, hclean => by
    simp only [Expr.findingsAll, clean_append] at hclean
    rw [Expr.findingsAll, Expr.visitsAll, List.flatMap_append, e.findings_eq_visits hclean.1,
      Expr.findingsAll_eq_visits rest hclean.2]

theorem Stmt.findings_eq_visits {s : Scopes} {around : Surroundings} : (statement : Stmt) →
    Clean (statement.findings around s) →
    statement.findings around s = (statement.visits s).flatMap Visit.findings
  | .expression value, hclean | .print _ value, hclean => value.findings_eq_visits hclean
  | .var name none, hclean => eq_nil_of_clean_ite hclean
  | .var name (some initializer), hclean => by
    simp only [Stmt.findings, clean_append] at hclean
    rw [Stmt.findings, Scopes.declaration, eq_nil_of_clean_ite hclean.1, List.nil_append]
    exact initializer.findings_eq_visits hclean.2
  | .block body, hclean => Stmt.findingsAll_eq_visits body hclean
  | .branch condition thenBranch none, hclean => by
    simp only [Stmt.findings, clean_append] at hclean
    simp [Stmt.findings, Stmt.visits, condition.findings_eq_visits hclean.1, thenBranch.findings_eq_visits hclean.2]
  | .branch condition thenBranch (some elseBranch), hclean => by
    simp only [Stmt.findings, clean_append] at hclean
    simp [Stmt.findings, Stmt.visits, condition.findings_eq_visits hclean.1.1,
      thenBranch.findings_eq_visits hclean.1.2, elseBranch.findings_eq_visits hclean.2]
  | .loop condition body none, hclean => by
    simp only [Stmt.findings, clean_append] at hclean
    simp [Stmt.findings, Stmt.visits, condition.findings_eq_visits hclean.1, body.findings_eq_visits hclean.2]
  | .loop condition body (some increment), hclean => by
    simp only [Stmt.findings, clean_append] at hclean
    simp [Stmt.findings, Stmt.visits, condition.findings_eq_visits hclean.1.1, body.findings_eq_visits hclean.1.2,
      increment.findings_eq_visits hclean.2]
  | .break _, _ | .continue _, _ | .empty, _ => rfl
  | .return _ none, hclean => eq_nil_of_clean_ite hclean
  | .return line (some value), hclean => by
    simp only [Stmt.findings, clean_append] at hclean ⊢
    obtain ⟨hreturn, hvalue⟩ := hclean
    rw [Stmt.visits, ← value.findings_eq_visits hvalue]
    split at hreturn
    · exact absurd hreturn (clean_violation _ _)
    · exact absurd hreturn (clean_violation _ _)
    · rfl
  | .function name function, hclean => by
    simp only [Stmt.findings, clean_append] at hclean
    rw [Stmt.findings, Scopes.declaration, eq_nil_of_clean_ite hclean.1, List.nil_append]
    exact function.findings_eq_visits hclean.2
  | .class name none methods, hclean => by
    simp only [Stmt.findings, clean_append] at hclean
    rw [Stmt.findings, Scopes.declaration, eq_nil_of_clean_ite hclean.1, List.nil_append]
    exact Method.findingsAll_eq_visits methods hclean.2
  | .class name (some parent) methods, hclean => by
    simp only [Stmt.findings, clean_append] at hclean
    obtain ⟨⟨⟨hdeclared, hself⟩, hread⟩, hmethods⟩ := hclean
    rw [Stmt.findings, Scopes.declaration, eq_nil_of_clean_ite hdeclared, eq_nil_of_clean_ite hself,
      Scopes.read_eq_locate hread, Method.findingsAll_eq_visits methods hmethods]
    rfl

theorem Stmt.findingsAll_eq_visits {s : Scopes} {around : Surroundings} : (statements : List Stmt) →
    Clean (Stmt.findingsAll around s statements) →
    Stmt.findingsAll around s statements = (Stmt.visitsAll s statements).flatMap Visit.findings
  | [], _ => rfl
  | statement :: rest, hclean => by
    simp only [Stmt.findingsAll, clean_append] at hclean
    rw [Stmt.findingsAll, Stmt.visitsAll, List.flatMap_append, statement.findings_eq_visits hclean.1,
      Stmt.findingsAll_eq_visits rest hclean.2]

theorem Function.findings_eq_visits {s : Scopes} {around : Surroundings} {role : FunctionRole} : (f : Function) →
    Clean (f.findings around s role) → f.findings around s role = (f.visits s).flatMap Visit.findings
  | .mk params body, hclean => by
    simp only [Function.findings, clean_append] at hclean
    rw [Function.findings, Scopes.declarations_eq_nil hclean.1, List.nil_append]
    exact Stmt.findingsAll_eq_visits body hclean.2

theorem Method.findingsAll_eq_visits {s : Scopes} {around : Surroundings} : (methods : List Method) →
    Clean (Method.findingsAll around s methods) →
    Method.findingsAll around s methods = (Method.visitsAll s methods).flatMap Visit.findings
  | [], _ => rfl
  | .mk _ function :: rest, hclean => by
    simp only [Method.findingsAll, clean_append] at hclean
    rw [Method.findingsAll, Method.visitsAll, List.flatMap_append, function.findings_eq_visits hclean.1,
      Method.findingsAll_eq_visits rest hclean.2]

end

end TreeWalk
