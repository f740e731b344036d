import TreeWalk.Proofs.Syntax.Place

/-!
# Properties of all nodes

What holds of every node inside another, wherever these stand. Statements from which a `break` or
`continue` escapes are told apart here, for neither may leave a function, and so are names that
are keywords, of which there are none.
-/

namespace TreeWalk

namespace Node

/-- The direct parts of a node without their places. -/
def children (n : Node) : List Node := (n.parts (.top [])).map (·.2)

end Node

theorem map_suite (place : List Stmt → Place) (before statements : List Stmt) :
    (suite place before statements).map (·.2) = statements.map Node.stmt := by
  induction statements generalizing before with
  | nil => rfl
  | cons s rest ih => simp [suite, ih]

namespace Node

/-- The parts of a node are the same at every place. -/
theorem map_parts (p : Place) (n : Node) : (n.parts p).map (·.2) = n.children := by
  rcases n with e | s | ⟨role, f⟩
  · cases e <;> simp [children, parts]
  · cases s with
    | var name value | «return» line value => cases value <;> simp [children, parts]
    | block body => simp [children, parts, map_suite]
    | «class» name parent methods => simp [children, parts, Function.comp_def]
    | _ => simp [children, parts]
  · simp [children, parts, map_suite]

theorem mem_children {p : Place} {n : Node} {x : Place × Node} (h : x ∈ n.parts p) : x.2 ∈ n.children :=
  map_parts p n ▸ List.mem_map_of_mem h

@[simp] theorem children_block (body : List Stmt) : (stmt (.block body)).children = body.map stmt :=
  map_suite ..

@[simp] theorem children_function (role : FunctionRole) (f : Function) :
    (function role f).children = f.body.map stmt := map_suite ..

@[simp] theorem children_class (name : Name) (parent : Option Reference) (methods : List Method) :
    (stmt (.class name parent methods)).children =
      parent.toList.map (fun use => expr (.variable use))
        ++ methods.map fun m => function (methodRole m.name) m.function := by
  simp [children, parts, Function.comp_def]

@[simp] theorem children_call (callee : Expr) (line : Nat) (arguments : List Expr) :
    (expr (.call callee line arguments)).children = expr callee :: arguments.map expr := by
  simp [children, parts, Function.comp_def]

@[simp] theorem children_list (line : Nat) (elements : List Expr) :
    (expr (.list line elements)).children = elements.map expr := by
  simp [children, parts, Function.comp_def]

theorem references_children (n : Node) : n.references = n.uses ++ n.children.flatMap references := by
  rw [references_eq (.top []) n, children, List.flatMap_map]

/-- The property holds of the node and of all nodes inside it. -/
inductive Every (P : Node → Prop) : Node → Prop where
  | intro {n : Node} (h : P n) (hs : ∀ c ∈ n.children, Every P c) : Every P n

theorem Every.here {P : Node → Prop} {n : Node} : n.Every P → P n
  | .intro h _ => h

theorem Every.child {P : Node → Prop} {n : Node} : n.Every P → ∀ c ∈ n.children, c.Every P
  | .intro _ hs => hs

theorem Every.within {P : Node → Prop} {p : Place} {n : Node} (h : n.Every P) {x : Place × Node}
    (hx : Within (p, n) x) : x.2.Every P := by
  induction hx with
  | refl => exact h
  | tail _ hpart ih => exact ih.child _ (mem_children hpart)

end Node

theorem Occurs.inside {P : Node → Prop} {program : List Stmt} (h : ∀ s ∈ program, (Node.stmt s).Every P)
    {p : Place} {n : Node} (hn : Occurs program p n) : n.Every P := by
  obtain ⟨item, hitem, hwithin⟩ := hn
  obtain ⟨earlier, s, later, rfl, rfl⟩ := mem_suite.1 hitem
  exact (h s (by simp)).within hwithin

/-- What holds of all nodes in the statements of a program holds of all nodes that occur in it. -/
theorem Occurs.every {P : Node → Prop} {program : List Stmt} (h : ∀ s ∈ program, (Node.stmt s).Every P)
    {p : Place} {n : Node} (hn : Occurs program p n) : P n := (hn.inside h).here

/-! ## Declarations -/

/-- Where branches and loop bodies are no declarations, what is none itself adds no name to its scope either. -/
theorem Stmt.names_of_nameless :
    (s : Stmt) → (Node.stmt s).Every Node.Settled → s.declaredName? = none → s.names = []
  | .var .., _, hs | .function .., _, hs | .class .., _, hs => nomatch hs
  | .branch _ thenBranch none, h, _ =>
    thenBranch.names_of_nameless (h.child _ (by simp [Node.children, Node.parts])) h.here.1
  | .branch _ thenBranch (some elseBranch), h, _ => by
    have hthen := thenBranch.names_of_nameless (h.child _ (by simp [Node.children, Node.parts])) h.here.1
    have helse := elseBranch.names_of_nameless (h.child _ (by simp [Node.children, Node.parts])) (h.here.2 _ rfl)
    rw [Stmt.names, hthen, helse, List.append_nil]
  | .loop _ body _, h, _ => body.names_of_nameless (h.child _ (by simp [Node.children, Node.parts])) h.here
  | .expression _, _, _ | .print .., _, _ | .block _, _, _ | .break _, _, _ | .continue _, _, _ | .return .., _, _
  | .empty, _, _ => rfl

theorem Stmt.names_of_settled {s : Stmt} (h : (Node.stmt s).Every Node.Settled) : s.names = s.declaredName?.toList := by
  cases hs : s.declaredName? with
  | none => exact s.names_of_nameless h hs
  | some name => cases s <;> cases hs <;> rfl

theorem Stmt.names_of_thenBranch {condition : Expr} {thenBranch : Stmt} {elseBranch : Option Stmt}
    (h : (Node.stmt (.branch condition thenBranch elseBranch)).Every Node.Settled) : thenBranch.names = [] :=
  thenBranch.names_of_nameless (h.child _ (by simp [Node.children, Node.parts])) h.here.1

theorem Stmt.names_of_body {condition : Expr} {body : Stmt} {increment : Option Expr}
    (h : (Node.stmt (.loop condition body increment)).Every Node.Settled) : body.names = [] :=
  body.names_of_nameless (h.child _ (by simp [Node.children, Node.parts])) h.here

theorem Stmt.mem_namesAll {statements : List Stmt} {name : String} :
    name ∈ Stmt.namesAll statements ↔ ∃ s ∈ statements, name ∈ s.names := List.mem_flatMap

theorem Stmt.namesAll_of_settled {statements : List Stmt} (h : ∀ s ∈ statements, (Node.stmt s).Every Node.Settled) :
    Stmt.namesAll statements = declaredNames statements := by
  induction statements with
  | nil => rfl
  | cons s rest ih =>
    obtain ⟨hs, hrest⟩ := List.forall_mem_cons.1 h
    rw [Stmt.namesAll, List.flatMap_cons, Stmt.names_of_settled hs, ← Stmt.namesAll, ih hrest]
    cases hname : s.declaredName? <;> simp [declaredNames, hname]

/-! ## Loop control -/

/-- A `break` or `continue` of the statement acts on a loop around it. -/
inductive Stmt.Escapes : Stmt → Prop where
  | «break» (line : Nat) : Escapes (.break line)
  | «continue» (line : Nat) : Escapes (.continue line)
  | block {body : List Stmt} {s : Stmt} (hs : s ∈ body) (h : s.Escapes) : Escapes (.block body)
  | thenBranch {condition : Expr} {s : Stmt} {elseBranch : Option Stmt} (h : s.Escapes) :
    Escapes (.branch condition s elseBranch)
  | elseBranch {condition : Expr} {thenBranch s : Stmt} (h : s.Escapes) :
    Escapes (.branch condition thenBranch (some s))

/-- No `break` or `continue` acts outside of the function in which it stands. -/
def Node.Confined : Node → Prop
  | .function _ f => ∀ s ∈ f.body, ¬ s.Escapes
  | _ => True

/-! ## Names -/

/-- A name that a program may give to something. -/
def IsName (text : String) : Prop := TokenKind.ofWord text = .identifier

/-- Neither what is declared nor what is read or assigned to is called by a keyword. -/
def Node.Unreserved : Node → Prop
  | .expr (.variable use) | .expr (.assign use _) => IsName use.name.text
  | .stmt (.var name _) | .stmt (.function name _) | .stmt (.class name _ _) => IsName name.text
  | .function _ f => ∀ name ∈ f.params, IsName name.text
  | _ => True

/-- Where no name is a keyword, none of those that a statement declares is one. -/
theorem Stmt.isName_of_mem_names :
    (s : Stmt) → (Node.stmt s).Every Node.Unreserved → ∀ name ∈ s.names, IsName name
  | .var .., h, _, hname | .function .., h, _, hname | .class .., h, _, hname => List.mem_singleton.1 hname ▸ h.here
  | .branch _ thenBranch none, h, name, hname =>
    thenBranch.isName_of_mem_names (h.child _ (by simp [Node.children, Node.parts])) name hname
  | .branch _ thenBranch (some elseBranch), h, name, hname =>
    (List.mem_append.1 hname).elim
      (thenBranch.isName_of_mem_names (h.child _ (by simp [Node.children, Node.parts])) name)
      (elseBranch.isName_of_mem_names (h.child _ (by simp [Node.children, Node.parts])) name)
  | .loop _ body _, h, name, hname =>
    body.isName_of_mem_names (h.child _ (by simp [Node.children, Node.parts])) name hname

theorem Stmt.unreserved_of_nameless {s : Stmt} (h : s.declaredName? = none) : (Node.stmt s).Unreserved := by
  cases s with
  | var name initializer | function name f | «class» name parent methods => cases h
  | _ => trivial

end TreeWalk
