import TreeWalk.Proofs.Syntax.Place

/-!
# What is visible at a place

Resolution walks over a program with a stack of scopes. Here that stack is read off the place alone
(`Place.scopes`), and `mem_findings_iff` says that the walk finds exactly what each node that occurs
gives rise to under the scopes of its place.
-/

namespace TreeWalk

namespace Place

/-- The scopes with which resolution comes to a place. -/
def scopes (globals : Bindings Bool) : Place → Scopes
  | top before => Stmt.declaredAll (.ofGlobals globals) before
  | block outer before => Stmt.declaredAll (outer.scopes globals).enter before
  | past outer s => s.declared (outer.scopes globals)
  | initializer outer name => (outer.scopes globals).declare name.text
  | named outer name => (outer.scopes globals).define name.text
  | parent outer => (outer.scopes globals).enter.define parentName
  | receiver outer => (outer.scopes globals).enter.define receiverName
  | function outer _ params before =>
    Stmt.declaredAll ((outer.scopes globals).enter.defineAll params) before

/-- The innermost function and class around a place. -/
def surroundings : Place → Surroundings
  | top _ => ⟨none, none⟩
  | block outer _ | past outer _ | initializer outer _ | named outer _ | parent outer => outer.surroundings
  | receiver (parent outer) => { outer.surroundings with inClass := some .withParent }
  | receiver outer => { outer.surroundings with inClass := some .plain }
  | function outer role _ _ => { outer.surroundings with inFunction := some role }

end Place

namespace Node

def findings (around : Surroundings) (s : Scopes) : Node → List Finding
  | expr e => e.findings around s
  | stmt statement => statement.findings around s
  | function role f => f.findings around s role

@[simp] theorem findings_expr (around : Surroundings) (s : Scopes) (e : Expr) :
    (expr e).findings around s = e.findings around s := rfl

@[simp] theorem findings_stmt (around : Surroundings) (s : Scopes) (statement : Stmt) :
    (stmt statement).findings around s = statement.findings around s := rfl

@[simp] theorem findings_function (around : Surroundings) (s : Scopes) (role : FunctionRole)
    (f : Function) : (function role f).findings around s = f.findings around s role := rfl

/-- What is found at the node itself and not in one of its parts. -/
def ownFindings (around : Surroundings) (s : Scopes) : Node → List Finding
  | expr (.variable use) => s.read use
  | expr (.assign target _) => s.locate target.id target.name.text
  | expr (.this id line) => Expr.findings around s (.this id line)
  | expr (.parent id keyword method) => Expr.findings around s (.parent id keyword method)
  | stmt (.var name _) => s.declaration name
  | stmt (.return line none) => Stmt.findings around s (.return line none)
  | stmt (.return line (some _)) =>
    match around.inFunction with
    | none => Scopes.violation ⟨"return", line⟩ .topLevelReturn
    | some .initializer => Scopes.violation ⟨"return", line⟩ .returnValueFromInitializer
    | some _ => []
  | stmt (.function name _) => s.declaration name
  | stmt (.class name none _) => s.declaration name
  | stmt (.class name (some parent) _) =>
    s.declaration name
      ++ (if parent.name.text = name.text then Scopes.violation parent.name .selfInheritance else [])
  | function _ f => s.enter.declarations f.params
  | _ => []

end Node

/-- The findings of a part of a program under the scopes of its place. -/
def found (globals : Bindings Bool) (x : Place × Node) : List Finding :=
  x.2.findings x.1.surroundings (x.1.scopes globals)

section Findings

variable (globals : Bindings Bool)

theorem declaredAll_append (s : Scopes) (before after : List Stmt) :
    Stmt.declaredAll s (before ++ after) = Stmt.declaredAll (Stmt.declaredAll s before) after :=
  List.foldl_append

/-- A suite is walked over with the declarations in front of each statement. -/
theorem found_suite (place : List Stmt → Place) (around : Surroundings) (s : Scopes)
    (hs : ∀ before, (place before).scopes globals = Stmt.declaredAll s before)
    (ha : ∀ before, (place before).surroundings = around) (before statements : List Stmt) :
    (suite place before statements).flatMap (found globals) =
      Stmt.findingsAll around (Stmt.declaredAll s before) statements := by
  induction statements generalizing before with
  | nil => simp [suite, Stmt.findingsAll]
  | cons statement rest ih =>
    have hnext : Stmt.declaredAll s (before ++ [statement]) =
        statement.declared (Stmt.declaredAll s before) := declaredAll_append s before [statement]
    simp [suite, Stmt.findingsAll, ih, found, hs, ha, hnext]

/-- At a node something is found at itself or in one of its parts. -/
theorem mem_found_iff (p : Place) (n : Node) (finding : Finding) :
    finding ∈ found globals (p, n) ↔
      finding ∈ n.ownFindings p.surroundings (p.scopes globals) ∨
        ∃ x ∈ n.parts p, finding ∈ found globals x := by
  rw [← List.mem_flatMap]
  have hall (es : List Expr) : Expr.findingsAll p.surroundings (p.scopes globals) es =
      es.flatMap (Expr.findings p.surroundings (p.scopes globals)) := by
    induction es with
    | nil => simp [Expr.findingsAll]
    | cons e rest ih => simp [Expr.findingsAll, ih]
  have hmethods (around : Surroundings) (s : Scopes) (ms : List Method) :
      Method.findingsAll around s ms =
        ms.flatMap fun m => m.function.findings around s (methodRole m.name) := by
    induction ms with
    | nil => simp [Method.findingsAll]
    | cons m rest ih => cases m; simp [Method.findingsAll, Method.function, Method.name, ih]
  rcases n with e | s | ⟨role, params, body⟩
  · cases e <;>
      simp [found, Node.ownFindings, Node.parts, Expr.findings, List.flatMap_map, hall, or_comm]
  · cases s with
    | var name value =>
      cases value <;>
        simp [found, Node.ownFindings, Node.parts, Stmt.findings, Place.scopes, Place.surroundings]
    | block body =>
      rw [Node.parts, found_suite globals (.block p) p.surroundings (p.scopes globals).enter
        (fun _ => rfl) (fun _ => rfl)]
      simp [found, Node.ownFindings, Stmt.findings, Stmt.declaredAll]
    | branch condition thenBranch elseBranch =>
      cases elseBranch <;>
        simp [found, Node.ownFindings, Node.parts, Stmt.findings, Place.scopes, Place.surroundings]
    | loop condition body increment =>
      cases increment <;>
        simp [found, Node.ownFindings, Node.parts, Stmt.findings, Place.scopes, Place.surroundings]
    | «return» line value =>
      cases value with
      | none => simp [found, Node.ownFindings, Node.parts]
      | some value =>
        rcases hrole : p.surroundings.inFunction with _ | _ | _ | _ <;>
          simp [found, Node.ownFindings, Node.parts, Stmt.findings, hrole]
    | «class» name parent methods =>
      cases parent <;>
        simp [found, Node.ownFindings, Node.parts, Stmt.findings, Expr.findings, List.flatMap_map,
          hmethods, Place.methods, Place.scopes, Place.surroundings, or_assoc]
    | _ =>
      simp [found, Node.ownFindings, Node.parts, Stmt.findings, Place.scopes, Place.surroundings]
  · simp only [Node.parts, Function.params, Function.body]
    rw [found_suite globals (.function p role params) { p.surroundings with inFunction := some role }
      ((p.scopes globals).enter.defineAll params) (fun _ => rfl) (fun _ => rfl)]
    simp [found, Node.ownFindings, Function.findings, Function.params, Stmt.declaredAll]

/-- Resolution finds something exactly where a node that occurs gives rise to it. -/
theorem mem_findings_iff (program : List Stmt) (finding : Finding) :
    finding ∈ (Resolution.ofProgram globals program).findings ↔
      ∃ p n, Occurs program p n ∧ finding ∈ n.ownFindings p.surroundings (p.scopes globals) := by
  have hnode (p : Place) (n : Node) : finding ∈ found globals (p, n) ↔
      ∃ x, Within (p, n) x ∧ finding ∈ x.2.ownFindings x.1.surroundings (x.1.scopes globals) := by
    induction p, n using Node.parts_induction with
    | step p n ih =>
      rw [mem_found_iff]
      constructor
      · rintro (h | ⟨y, hy, h⟩)
        · exact ⟨(p, n), .refl, h⟩
        · obtain ⟨x, hx, hfx⟩ := (ih y hy).1 h
          exact ⟨x, .head hy hx, hfx⟩
      · rintro ⟨x, hx, h⟩
        rcases Relation.ReflTransGen.cases_head hx with rfl | ⟨y, hy, hyx⟩
        · exact .inl h
        · exact .inr ⟨y, hy, (ih y hy).2 ⟨x, hyx, h⟩⟩
  have hroot : (suite .top [] program).flatMap (found globals) =
      (Resolution.ofProgram globals program).findings :=
    found_suite globals .top ⟨none, none⟩ (.ofGlobals globals) (fun _ => rfl) (fun _ => rfl) [] program
  rw [← hroot, List.mem_flatMap]
  constructor
  · rintro ⟨item, hitem, h⟩
    obtain ⟨x, hx, hfx⟩ := (hnode item.1 item.2).1 h
    exact ⟨x.1, x.2, ⟨item, hitem, hx⟩, hfx⟩
  · rintro ⟨p, n, ⟨item, hitem, hx⟩, h⟩
    exact ⟨item, hitem, (hnode item.1 item.2).2 ⟨(p, n), hx, h⟩⟩

end Findings

end TreeWalk
