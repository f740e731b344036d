import Mathlib.Logic.Relation
import TreeWalk.Scope.Resolution

/-!
# Places in a program

A program is a tree of nodes, and every node stands at a place: inside certain blocks, functions and
classes, behind certain statements. `Occurs` says which nodes a program has and where. All that is
known of a node's place is which declarations are visible there, so one list of direct parts
(`Node.parts`) serves every walk over programs.
-/

namespace TreeWalk

/-- A part of a program. A function stands for its parameters and its body. -/
inductive Node where
  | expr (e : Expr)
  | stmt (s : Stmt)
  | function (role : FunctionRole) (f : Function)

/-- Where a node stands. Places that come one after the other in a list of statements are told apart
by the statements in front of them. -/
inductive Place where
  | top (before : List Stmt)
  | block (outer : Place) (before : List Stmt)
  /-- Behind a statement that is part of the same one: an `else` branch behind the other branch, the increment of a
  loop behind its body. -/
  | past (outer : Place) (s : Stmt)
  /-- Between the name of a variable and the end of its declaration. -/
  | initializer (outer : Place) (name : Name)
  /-- Behind the name of a function or class, inside its declaration. -/
  | named (outer : Place) (name : Name)
  /-- Around the methods of a class with a parent. -/
  | parent (outer : Place)
  /-- Among the methods of a class. -/
  | receiver (outer : Place)
  | function (outer : Place) (role : FunctionRole) (params : List Name) (before : List Stmt)

/-- Statements in a row, from the one behind `before` on. -/
def suite (place : List Stmt → Place) : (before : List Stmt) → List Stmt → List (Place × Node)
  | _, [] => []
  | before, s :: rest => (place before, .stmt s) :: suite place (before ++ [s]) rest

/-- The place of the methods of a class. -/
def Place.methods (p : Place) (name : Name) (parent : Option Reference) : Place :=
  .receiver (if parent.isSome then .parent (.named p name) else .named p name)

namespace Node

/-- The direct parts of a node at a place, in the order in which they are written down. -/
def parts (p : Place) : Node → List (Place × Node)
  | expr (.literal _) | expr (.variable _) | expr (.this _ _) | expr (.parent _ _ _) => []
  | expr (.assign _ value) => [(p, expr value)]
  | expr (.group inner) => [(p, expr inner)]
  | expr (.unary _ operand) => [(p, expr operand)]
  | expr (.binary left _ right) => [(p, expr left), (p, expr right)]
  | expr (.logical left _ right) => [(p, expr left), (p, expr right)]
  | expr (.conditional condition thenBranch elseBranch) =>
    [(p, expr condition), (p, expr thenBranch), (p, expr elseBranch)]
  | expr (.call callee _ arguments) => (p, expr callee) :: arguments.map fun e => (p, expr e)
  | expr (.get object _) => [(p, expr object)]
  | expr (.set object _ value) => [(p, expr object), (p, expr value)]
  | expr (.lambda f) => [(p, function .function f)]
  | expr (.list _ elements) => elements.map fun e => (p, expr e)
  | expr (.index object _ position) => [(p, expr object), (p, expr position)]
  | stmt (.expression value) => [(p, expr value)]
  | stmt (.print _ value) => [(p, expr value)]
  | stmt (.var _ none) | stmt (.break _) | stmt (.continue _) | stmt (.return _ none) | stmt .empty => []
  | stmt (.var name (some initializer)) => [(.initializer p name, expr initializer)]
  | stmt (.block body) => suite (.block p) [] body
  | stmt (.branch condition thenBranch elseBranch) =>
    (p, expr condition) :: (p, stmt thenBranch) :: (elseBranch.toList.map fun s => (.past p thenBranch, stmt s))
  | stmt (.loop condition body increment) =>
    (p, expr condition) :: (p, stmt body) :: (increment.toList.map fun e => (.past p body, expr e))
  | stmt (.return _ (some value)) => [(p, expr value)]
  | stmt (.function name f) => [(.named p name, function .function f)]
  | stmt (.class name parent methods) =>
    (parent.toList.map fun use => (.named p name, expr (.variable use)))
      ++ methods.map fun m => (p.methods name parent, function (methodRole m.name) m.function)
  | function role f => suite (.function p role f.params) [] f.body

/-- The references that stand in the node itself and not in one of its parts. -/
def uses : Node → List Reference
  | expr (.variable use) => [use]
  | expr (.assign target _) => [target]
  | expr (.this id line) => [⟨id, receiverName, line⟩]
  | expr (.parent id keyword _) => [⟨id, parentName, keyword.line⟩]
  | _ => []

def references : Node → List Reference
  | expr e => e.references
  | stmt s => s.references
  | function _ f => f.references

@[simp] theorem references_expr (e : Expr) : (expr e).references = e.references := rfl

@[simp] theorem references_stmt (s : Stmt) : (stmt s).references = s.references := rfl

@[simp] theorem references_function (role : FunctionRole) (f : Function) :
    (function role f).references = f.references := rfl

/-- A measure that is smaller for parts. -/
noncomputable def size : Node → Nat
  | expr e => sizeOf e
  | stmt s => sizeOf s
  | function _ f => sizeOf f

end Node

/-- One node lies inside another or is the same. -/
def Within : Place × Node → Place × Node → Prop :=
  Relation.ReflTransGen fun outer inner => inner ∈ outer.2.parts outer.1

/-- A program has the node at the place. -/
def Occurs (program : List Stmt) (p : Place) (n : Node) : Prop :=
  ∃ item ∈ suite .top [] program, Within item (p, n)

/-! ## Statements in a row -/

theorem mem_suite {place : List Stmt → Place} {before statements : List Stmt} {x : Place × Node} :
    x ∈ suite place before statements ↔
      ∃ earlier s later, statements = earlier ++ s :: later ∧ x = (place (before ++ earlier), .stmt s) := by
  induction statements generalizing before with
  | nil => simp [suite]
  | cons s rest ih =>
    simp only [suite, List.mem_cons, ih]
    constructor
    · rintro (rfl | ⟨earlier, s', later, rfl, rfl⟩)
      · exact ⟨[], s, rest, rfl, by simp⟩
      · exact ⟨s :: earlier, s', later, rfl, by simp⟩
    · rintro ⟨earlier, s', later, h, rfl⟩
      rcases earlier with _ | ⟨e, earlier⟩
      · simp only [List.nil_append, List.cons.injEq] at h
        exact .inl (by simp [h.1])
      · simp only [List.cons_append, List.cons.injEq] at h
        obtain ⟨rfl, rfl⟩ := h
        exact .inr ⟨earlier, s', later, rfl, by simp⟩

theorem references_suite (place : List Stmt → Place) (before statements : List Stmt) :
    (suite place before statements).flatMap (·.2.references) = Stmt.referencesAll statements := by
  induction statements generalizing before with
  | nil => rfl
  | cons s rest ih => simp [suite, ih, Stmt.referencesAll]

theorem size_lt_of_mem_suite {place : List Stmt → Place} {before statements : List Stmt}
    {x : Place × Node} (h : x ∈ suite place before statements) : x.2.size < sizeOf statements := by
  obtain ⟨earlier, s, later, rfl, rfl⟩ := mem_suite.1 h
  exact List.sizeOf_lt_of_mem (by simp)

/-! ## Parts -/

theorem sizeOf_lt_of_mem_toList {α : Type} [SizeOf α] {a : α} {o : Option α} (h : a ∈ o.toList) :
    sizeOf a < sizeOf o := by
  cases o with
  | none => simp at h
  | some b => simp_all

theorem Node.size_parts {p : Place} {n : Node} {x : Place × Node} (h : x ∈ n.parts p) :
    x.2.size < n.size := by
  rcases n with e | s | ⟨role, params, body⟩
  · cases e <;> simp only [parts, List.mem_cons, List.mem_map, List.not_mem_nil, or_false] at h
    case call callee line arguments =>
      rcases h with rfl | ⟨e, he, rfl⟩
      · simp [size]; omega
      · have := List.sizeOf_lt_of_mem he
        simp [size]; omega
    case list line elements =>
      obtain ⟨e, he, rfl⟩ := h
      have := List.sizeOf_lt_of_mem he
      simp [size]; omega
    case lambda f => subst h; simp [size]
    all_goals rcases h with rfl | rfl | rfl <;> simp [size] <;> omega
  · cases s with
    | var name value | «return» line value =>
      cases value <;> simp_all [parts, size]
      all_goals omega
    | block body => exact Nat.lt_trans (size_lt_of_mem_suite h) (by simp [size])
    | branch condition thenBranch elseBranch =>
      simp only [parts, List.mem_cons, List.mem_map] at h
      rcases h with rfl | rfl | ⟨s, hs, rfl⟩
      · simp [size]; omega
      · simp [size]; omega
      · have := sizeOf_lt_of_mem_toList hs
        simp [size]; omega
    | loop condition body increment =>
      simp only [parts, List.mem_cons, List.mem_map] at h
      rcases h with rfl | rfl | ⟨e, he, rfl⟩
      · simp [size]; omega
      · simp [size]; omega
      · have := sizeOf_lt_of_mem_toList he
        simp [size]; omega
    | «class» name parent methods =>
      simp only [parts, List.mem_append, List.mem_map] at h
      rcases h with ⟨use, hu, rfl⟩ | ⟨m, hm, rfl⟩
      · have := sizeOf_lt_of_mem_toList hu
        simp [size]; omega
      · have := List.sizeOf_lt_of_mem hm
        cases m
        simp [size, Method.function] at *; omega
    | _ => simp_all [parts, size, Nat.add_comm 1]
  · refine Nat.lt_trans (size_lt_of_mem_suite h) ?_
    simp only [size, Function.body, Function.mk.sizeOf_spec]
    omega

/-- To show something of every node at every place, show it of a node whose parts have it. -/
theorem Node.parts_induction {motive : Place → Node → Prop}
    (step : ∀ p n, (∀ x ∈ n.parts p, motive x.1 x.2) → motive p n) (p : Place) (n : Node) : motive p n :=
  step p n fun x _ => Node.parts_induction step x.1 x.2
termination_by n.size
decreasing_by exact Node.size_parts ‹_›

theorem Node.references_eq (p : Place) (n : Node) :
    n.references = n.uses ++ (n.parts p).flatMap (·.2.references) := by
  have hall (es : List Expr) : Expr.referencesAll es = es.flatMap Expr.references := by
    induction es with
    | nil => rfl
    | cons e rest ih => simp [Expr.referencesAll, ih]
  have hmethods (ms : List Method) : Method.referencesAll ms = ms.flatMap (·.function.references) := by
    induction ms with
    | nil => rfl
    | cons m rest ih => cases m; simp [Method.referencesAll, Method.function, ih]
  rcases n with e | s | ⟨role, params, body⟩
  · cases e <;> simp [uses, parts, Expr.references, List.flatMap_map, hall]
  · cases s with
    | var name value | «return» line value => cases value <;> simp [uses, parts, Stmt.references]
    | block body => simp [uses, parts, Stmt.references, references_suite]
    | branch condition thenBranch elseBranch =>
      cases elseBranch <;> simp [uses, parts, Stmt.references]
    | loop condition body increment => cases increment <;> simp [uses, parts, Stmt.references]
    | «class» name parent methods =>
      cases parent <;> simp [uses, parts, Stmt.references, Expr.references, List.flatMap_map, hmethods]
    | _ => simp [uses, parts, Stmt.references]
  · simp [uses, parts, Function.references, Function.body, references_suite]

/-! ## References -/

theorem mem_references_iff {p : Place} {n : Node} {u : Reference} :
    u ∈ n.references ↔ ∃ x, Within (p, n) x ∧ u ∈ x.2.uses := by
  induction p, n using Node.parts_induction with
  | step p n ih =>
    rw [Node.references_eq p n, List.mem_append, List.mem_flatMap]
    constructor
    · rintro (hu | ⟨y, hy, hu⟩)
      · exact ⟨(p, n), .refl, hu⟩
      · obtain ⟨x, hx, hux⟩ := (ih y hy).1 hu
        exact ⟨x, .head hy hx, hux⟩
    · rintro ⟨x, hx, hu⟩
      rcases Relation.ReflTransGen.cases_head hx with rfl | ⟨y, hy, hyx⟩
      · exact .inl hu
      · exact .inr ⟨y, hy, (ih y hy).2 ⟨x, hyx, hu⟩⟩

theorem references_sublist {items : List (Place × Node)} {x : Place × Node} (h : x ∈ items) :
    x.2.references.Sublist (items.flatMap (·.2.references)) := by
  rw [List.flatMap_def]
  exact List.sublist_flatten_of_mem (List.mem_map_of_mem (f := fun x => x.2.references) h)

/-- Where all ids differ, nodes that share one are the same. -/
theorem eq_of_shared_id {items : List (Place × Node)}
    (hn : ((items.flatMap (·.2.references)).map (·.id)).Nodup) {x y : Place × Node} (hx : x ∈ items)
    (hy : y ∈ items) {u v : Reference} (hu : u ∈ x.2.references) (hv : v ∈ y.2.references)
    (h : u.id = v.id) : x = y := by
  induction items with
  | nil => simp at hx
  | cons z rest ih =>
    simp only [List.flatMap_cons, List.map_append, List.nodup_append] at hn
    obtain ⟨-, hrest, hdisjoint⟩ := hn
    have apart {w : Place × Node} {r r' : Reference} (hw : w ∈ rest) (hr : r ∈ w.2.references)
        (hr' : r' ∈ z.2.references) : r'.id ≠ r.id :=
      hdisjoint _ (List.mem_map_of_mem hr') _ (List.mem_map_of_mem (List.mem_flatMap.2 ⟨w, hw, hr⟩))
    rcases List.mem_cons.1 hx with rfl | hx' <;> rcases List.mem_cons.1 hy with rfl | hy'
    · rfl
    · exact absurd h (apart hy' hv hu)
    · exact absurd h.symm (apart hx' hu hv)
    · exact ih hrest hx' hy'

theorem Within.unique {p : Place} {n : Node} (hn : (n.references.map (·.id)).Nodup) {x y : Place × Node}
    (hx : Within (p, n) x) (hy : Within (p, n) y) {u v : Reference} (hu : u ∈ x.2.uses)
    (hv : v ∈ y.2.uses) (h : u.id = v.id) : x = y := by
  induction p, n using Node.parts_induction with
  | step p n ih =>
    rw [Node.references_eq p n, List.map_append, List.nodup_append] at hn
    obtain ⟨-, hparts, hdisjoint⟩ := hn
    -- A reference of a part never has the id of one that stands in the node itself.
    have apart {z w : Place × Node} {r r' : Reference} (hz : z ∈ n.parts p) (hw : Within z w)
        (hr : r ∈ w.2.uses) (hr' : r' ∈ n.uses) : r'.id ≠ r.id :=
      hdisjoint _ (List.mem_map_of_mem hr') _
        (List.mem_map_of_mem (List.mem_flatMap.2 ⟨z, hz, mem_references_iff.2 ⟨w, hw, hr⟩⟩))
    rcases Relation.ReflTransGen.cases_head hx with rfl | ⟨z, hz, hzx⟩ <;>
      rcases Relation.ReflTransGen.cases_head hy with rfl | ⟨z', hz', hzy⟩
    · rfl
    · exact absurd h (apart hz' hzy hv hu)
    · exact absurd h.symm (apart hz hzx hu hv)
    · have := eq_of_shared_id hparts hz hz' (mem_references_iff.2 ⟨x, hzx, hu⟩)
        (mem_references_iff.2 ⟨y, hzy, hv⟩) h
      subst this
      refine ih z hz ?_ hzx hzy
      exact hparts.sublist ((references_sublist hz).map _)

/-- In a program whose references all have their own id, an id says where its reference stands. -/
theorem Occurs.unique {program : List Stmt} (hn : ((Stmt.referencesAll program).map (·.id)).Nodup)
    {p q : Place} {n m : Node} (hp : Occurs program p n) (hq : Occurs program q m) {u v : Reference}
    (hu : u ∈ n.uses) (hv : v ∈ m.uses) (h : u.id = v.id) : p = q ∧ n = m := by
  obtain ⟨x, hx, hxp⟩ := hp
  obtain ⟨y, hy, hyq⟩ := hq
  rw [← references_suite .top []] at hn
  have := eq_of_shared_id hn hx hy (mem_references_iff.2 ⟨_, hxp, hu⟩) (mem_references_iff.2 ⟨_, hyq, hv⟩) h
  subst this
  have := Within.unique (hn.sublist ((references_sublist hx).map _)) hxp hyq hu hv h
  exact Prod.mk.injEq .. ▸ this

/-! ## Places of parts -/

namespace Place

/-- The place of a part of a node: that of the node itself, one behind another part, or one inside a declaration, a
block or a function. -/
inductive Leads (p : Place) : Node → Place → Prop where
  | here (n : Node) : Leads p n p
  | past (n : Node) (s : Stmt) (hs : (p, .stmt s) ∈ n.parts p) : Leads p n (.past p s)
  | initializer (name : Name) (value : Expr) :
    Leads p (.stmt (.var name (some value))) (.initializer p name)
  | block (earlier : List Stmt) (s : Stmt) (later : List Stmt) :
    Leads p (.stmt (.block (earlier ++ s :: later))) (.block p earlier)
  | function (name : Name) (f : Function) : Leads p (.stmt (.function name f)) (.named p name)
  | clause (name : Name) (parent : Option Reference) (methods : List Method) :
    Leads p (.stmt (.class name parent methods)) (.named p name)
  | methods (name : Name) (parent : Option Reference) (methods : List Method) :
    Leads p (.stmt (.class name parent methods)) (p.methods name parent)
  | body (role : FunctionRole) (params : List Name) (earlier : List Stmt) (s : Stmt) (later : List Stmt) :
    Leads p (.function role (.mk params (earlier ++ s :: later))) (.function p role params earlier)

theorem leads {p : Place} {n : Node} {x : Place × Node} (hx : x ∈ n.parts p) : p.Leads n x.1 := by
  rcases n with e | s | ⟨role, params, body⟩
  · have hplace : x.1 = p := by
      cases e <;> simp only [Node.parts, List.mem_cons, List.mem_map, List.not_mem_nil, or_false] at hx
      case call callee line arguments => rcases hx with rfl | ⟨e, -, rfl⟩ <;> rfl
      case list line elements => obtain ⟨e, -, rfl⟩ := hx; rfl
      case lambda f => subst hx; rfl
      all_goals rcases hx with rfl | rfl | rfl <;> rfl
    exact hplace ▸ .here _
  · cases s with
    | var name value =>
      cases value <;> simp only [Node.parts, List.mem_singleton, List.not_mem_nil] at hx
      subst hx
      exact .initializer name _
    | block body =>
      obtain ⟨earlier, s, later, rfl, rfl⟩ := mem_suite.1 hx
      exact .block earlier s later
    | branch condition thenBranch elseBranch =>
      simp only [Node.parts, List.mem_cons, List.mem_map] at hx
      rcases hx with rfl | rfl | ⟨s, -, rfl⟩
      · exact .here _
      · exact .here _
      · exact .past _ thenBranch (by simp [Node.parts])
    | loop condition body increment =>
      simp only [Node.parts, List.mem_cons, List.mem_map] at hx
      rcases hx with rfl | rfl | ⟨e, -, rfl⟩
      · exact .here _
      · exact .here _
      · exact .past _ body (by simp [Node.parts])
    | «return» line value =>
      cases value <;> simp only [Node.parts, List.mem_singleton, List.not_mem_nil] at hx
      subst hx
      exact .here _
    | function name f =>
      simp only [Node.parts, List.mem_singleton] at hx
      subst hx
      exact .function name f
    | «class» name parent methods =>
      simp only [Node.parts, List.mem_append, List.mem_map] at hx
      rcases hx with ⟨use, -, rfl⟩ | ⟨m, -, rfl⟩
      · exact .clause name parent methods
      · exact .methods name parent methods
    | expression value | print line value =>
      simp only [Node.parts, List.mem_singleton] at hx
      subst hx
      exact .here _
    | _ => simp [Node.parts] at hx
  · obtain ⟨earlier, s, later, rfl, rfl⟩ := mem_suite.1 hx
    exact .body role params earlier s later

end Place

/-! ## Suites -/

namespace Place

/-- A place among the statements of a list, where declarations may stand. -/
def InSuite : Place → Prop
  | top _ | block _ _ | function _ _ _ _ => True
  | past outer _ => outer.InSuite
  | _ => False

/-- Statements stand in suites, expressions there too or inside a declaration of a suite. -/
def Admits (p : Place) : Node → Prop
  | .stmt _ => p.InSuite
  | .expr _ => p.InSuite ∨ ∃ q name, q.InSuite ∧ (p = initializer q name ∨ p = named q name)
  | .function _ _ => True

theorem admits_of_mem_suite (place : List Stmt → Place) (h : ∀ before, (place before).InSuite)
    {before statements : List Stmt} {x : Place × Node} (hx : x ∈ suite place before statements) :
    x.1.Admits x.2 := by
  obtain ⟨earlier, s, later, -, rfl⟩ := mem_suite.1 hx
  exact h _

theorem admits_parts {p : Place} {n : Node} (h : p.Admits n) {x : Place × Node} (hx : x ∈ n.parts p) :
    x.1.Admits x.2 := by
  rcases n with e | s | ⟨role, f⟩
  · cases e <;> simp only [Node.parts, List.mem_cons, List.mem_map, List.not_mem_nil, or_false] at hx
    case call callee line arguments =>
      rcases hx with rfl | ⟨e, -, rfl⟩ <;> exact h
    case list line elements =>
      obtain ⟨e, -, rfl⟩ := hx
      exact h
    case lambda f => subst hx; trivial
    all_goals rcases hx with rfl | rfl | rfl <;> exact h
  · cases s with
    | var name value =>
      cases value <;> simp only [Node.parts, List.mem_singleton, List.not_mem_nil] at hx
      subst hx
      exact .inr ⟨p, name, h, .inl rfl⟩
    | block body => exact admits_of_mem_suite (.block p) (fun _ => trivial) hx
    | branch condition thenBranch elseBranch =>
      simp only [Node.parts, List.mem_cons, List.mem_map] at hx
      rcases hx with rfl | rfl | ⟨s, -, rfl⟩
      · exact .inl h
      · exact h
      · exact h
    | loop condition body increment =>
      simp only [Node.parts, List.mem_cons, List.mem_map] at hx
      rcases hx with rfl | rfl | ⟨e, -, rfl⟩
      · exact .inl h
      · exact h
      · exact .inl h
    | «return» line value =>
      cases value <;> simp only [Node.parts, List.mem_singleton, List.not_mem_nil] at hx
      subst hx
      exact .inl h
    | «class» name parent methods =>
      simp only [Node.parts, List.mem_append, List.mem_map] at hx
      rcases hx with ⟨use, -, rfl⟩ | ⟨m, -, rfl⟩
      · exact .inr ⟨p, name, h, .inr rfl⟩
      · trivial
    | function name f =>
      simp only [Node.parts, List.mem_singleton] at hx
      subst hx
      trivial
    | expression value | print line value =>
      simp only [Node.parts, List.mem_singleton] at hx
      subst hx
      exact .inl h
    | _ => simp [Node.parts] at hx
  · exact admits_of_mem_suite (.function p role f.params) (fun _ => trivial) hx

end Place

theorem Occurs.part {program : List Stmt} {p q : Place} {n m : Node} (h : Occurs program p n)
    (hpart : (q, m) ∈ n.parts p) : Occurs program q m := by
  obtain ⟨item, hitem, hwithin⟩ := h
  exact ⟨item, hitem, hwithin.tail hpart⟩

/-- What holds of the statements of a program and of the parts of what it holds of, holds of all nodes. -/
theorem Occurs.parts_induction {program : List Stmt} {motive : Place → Node → Prop}
    (top : ∀ earlier s later, program = earlier ++ s :: later → motive (.top earlier) (.stmt s))
    (part : ∀ p n, Occurs program p n → motive p n → ∀ x ∈ n.parts p, motive x.1 x.2)
    {p : Place} {n : Node} (h : Occurs program p n) : motive p n := by
  obtain ⟨item, hitem, hwithin⟩ := h
  have hall {x : Place × Node} (hx : Within item x) : motive x.1 x.2 := by
    induction hx with
    | refl =>
      obtain ⟨earlier, s, later, rfl, rfl⟩ := mem_suite.1 hitem
      exact top earlier s later rfl
    | tail hy hpart ih => exact part _ _ ⟨item, hitem, hy⟩ ih _ hpart
  exact hall hwithin

theorem Occurs.admits {program : List Stmt} {p : Place} {n : Node} (h : Occurs program p n) :
    p.Admits n :=
  h.parts_induction (motive := Place.Admits) (fun _ _ _ _ => trivial) fun _ _ _ hadmits _ hx =>
    Place.admits_parts hadmits hx

/-- The statement lists of a program, each with the places in it. -/
inductive SuiteOf (program : List Stmt) : (List Stmt → Place) → List Stmt → Prop where
  | top : SuiteOf program .top program
  | block {p : Place} {body : List Stmt} (h : Occurs program p (.stmt (.block body))) :
    SuiteOf program (.block p) body
  | function {p : Place} {role : FunctionRole} {f : Function} (h : Occurs program p (.function role f)) :
    SuiteOf program (.function p role f.params) f.body

theorem SuiteOf.occurs {program : List Stmt} {place : List Stmt → Place} {statements : List Stmt}
    (h : SuiteOf program place statements) {earlier later : List Stmt} {s : Stmt}
    (hs : statements = earlier ++ s :: later) : Occurs program (place earlier) (.stmt s) := by
  have hmem : (place earlier, Node.stmt s) ∈ suite place [] statements :=
    mem_suite.2 ⟨earlier, s, later, hs, rfl⟩
  cases h with
  | top => exact ⟨_, hmem, .refl⟩
  | block h => exact h.part hmem
  | function h => exact h.part hmem

/-! ## Declarations -/

/-- The name of a declaration. -/
def Stmt.declaredName? : Stmt → Option String
  | .var name _ | .function name _ | .class name _ _ => some name.text
  | _ => none

/-- The names of those of the statements that are declarations. -/
def declaredNames (statements : List Stmt) : List String := statements.filterMap Stmt.declaredName?

/-- The names that a statement adds to the scope it stands in, also those of its branches or its body. -/
def Stmt.names : Stmt → List String
  | .var name _ | .function name _ | .class name _ _ => [name.text]
  | .branch _ thenBranch none => thenBranch.names
  | .branch _ thenBranch (some elseBranch) => thenBranch.names ++ elseBranch.names
  | .loop _ body _ => body.names
  | _ => []

/-- The names that the scope of statements has behind them. -/
def Stmt.namesAll (statements : List Stmt) : List String := statements.flatMap Stmt.names

@[simp] theorem Stmt.namesAll_append (before after : List Stmt) :
    Stmt.namesAll (before ++ after) = Stmt.namesAll before ++ Stmt.namesAll after := List.flatMap_append

/-- Branches and loop bodies are no declarations, and what stands between two operands is an operator. -/
def Node.Settled : Node → Prop
  | .expr (.binary _ op _) => (BinaryKind.ofToken? op.kind).isSome = true
  | .stmt (.branch _ thenBranch elseBranch) =>
    thenBranch.declaredName? = none ∧ ∀ s ∈ elseBranch, s.declaredName? = none
  | .stmt (.loop _ body _) => body.declaredName? = none
  | _ => True

/-- Where branches and loop bodies are no declarations, declarations stand in suites only. -/
theorem Occurs.suite_of_declares {program : List Stmt}
    (hsettled : ∀ p n, Occurs program p n → n.Settled) {p : Place} {s : Stmt}
    (h : Occurs program p (.stmt s)) (hs : s.declaredName? ≠ none) :
    ∃ place statements earlier later, SuiteOf program place statements ∧
      statements = earlier ++ s :: later ∧ p = place earlier := by
  obtain ⟨item, hitem, hwithin⟩ := h
  rcases Relation.ReflTransGen.cases_tail hwithin with heq | ⟨⟨q, m⟩, hq, hpart⟩
  · obtain ⟨earlier, s', later, rfl, rfl⟩ := mem_suite.1 hitem
    obtain ⟨rfl, hstmt⟩ := Prod.mk.injEq .. ▸ heq
    cases hstmt
    exact ⟨_, _, earlier, later, .top, rfl, rfl⟩
  · have houter : Occurs program q m := ⟨item, hitem, hq⟩
    have hset := hsettled q m houter
    rcases m with e | t | ⟨role, params, body⟩
    · cases e <;> simp [Node.parts] at hpart
    · cases t with
      | var name value | «return» line value => cases value <;> simp [Node.parts] at hpart
      | block body =>
        obtain ⟨earlier, s', later, rfl, heq⟩ := mem_suite.1 hpart
        cases heq
        exact ⟨_, _, earlier, later, .block houter, rfl, rfl⟩
      | branch condition thenBranch elseBranch =>
        simp only [Node.parts, List.mem_cons, List.mem_map, Prod.mk.injEq, reduceCtorEq, and_false,
          Node.stmt.injEq, false_or, Option.mem_toList] at hpart
        rcases hpart with ⟨-, rfl⟩ | ⟨_, helse, -, rfl⟩
        · exact absurd hset.1 hs
        · exact absurd (hset.2 _ helse) hs
      | loop condition body increment =>
        simp only [Node.parts, List.mem_cons, List.mem_map, Prod.mk.injEq, reduceCtorEq, and_false,
          Node.stmt.injEq, false_or, exists_false, or_false] at hpart
        obtain ⟨-, rfl⟩ := hpart
        exact absurd hset hs
      | _ => simp [Node.parts] at hpart
    · obtain ⟨earlier, s', later, hbody, heq⟩ := mem_suite.1 hpart
      cases heq
      exact ⟨_, _, earlier, later, .function houter, hbody, rfl⟩

end TreeWalk
