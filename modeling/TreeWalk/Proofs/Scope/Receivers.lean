import TreeWalk.Proofs.Scope.Openings
import TreeWalk.Proofs.Syntax.Nodes

/-!
# Where `this` and `parent` are found

The scope of a receiver is the only one that has `this`, and the scope of a parent class, directly around
it, the only one that has `parent`. So inside a class the distance of `this` is that of the scope around
its methods, and the distance of `parent` is by one greater.
-/

namespace TreeWalk

theorem not_isName_receiver : ¬ IsName receiverName := nofun

theorem not_isName_parent : ¬ IsName parentName := nofun

/-! ## Distances -/

namespace Scopes

theorem distance?_updateInnermost {s : Scopes} {f : Bindings Bool → Bindings Bool} {name : String}
    (hf : ∀ scope, (f scope).contains name = scope.contains name) :
    (s.updateInnermost f).distance? name = s.distance? name := by
  obtain ⟨locals, globals⟩ := s
  cases locals with
  | nil => rfl
  | cons scope outer => simp [distance?, updateInnermost, List.findIdx?_cons, hf]

theorem distance?_define {s : Scopes} {defined name : String} (h : name ≠ defined) :
    (s.define defined).distance? name = s.distance? name := by
  apply distance?_updateInnermost
  intro scope
  rw [Bindings.contains, Bindings.get?_set, if_neg h, Bindings.contains]

theorem distance?_declared {s : Scopes} {statement : Stmt} {name : String} (h : name ∉ statement.names) :
    (statement.declared s).distance? name = s.distance? name := by
  rw [Stmt.declared_eq]
  refine foldl_define_same (·.distance? name) (fun s other hother => distance?_define fun heq => ?_) s
  exact h (heq ▸ hother)

theorem distance?_declare {s : Scopes} {declared name : String} (h : name ≠ declared) :
    (s.declare declared).distance? name = s.distance? name := by
  apply distance?_updateInnermost
  intro scope
  split
  · rfl
  · rw [Bindings.contains, Bindings.get?_set, if_neg h, Bindings.contains]

end Scopes

namespace Place

/-- In front of the names of its own scope a place finds those of the place around it. -/
theorem distance?_of_scope {globals : Bindings Bool} {p outer : Place} {names : List String}
    (h : p.scope? = some (outer, names)) (name : String) : (p.scopes globals).distance? name =
      if name ∈ names then some 0 else ((outer.scopes globals).distance? name).map (· + 1) := by
  obtain ⟨scope, hlocals, hscope⟩ := @locals_of_scope globals _ _ _ h
  have hcontains : scope.contains name = decide (name ∈ names) := by
    rw [Bindings.contains, hscope]
    split <;> simp_all
  simp [Scopes.distance?, hlocals, List.findIdx?_cons, hcontains]

/-! ## Places in a program -/

/-- The names on the way to the place may be given, and around a receiver there may be a parent class. -/
def Regular : Place → Prop
  | top _ => True
  | block outer before => outer.Regular ∧ ∀ name ∈ Stmt.namesAll before, IsName name
  | past outer s => outer.Regular ∧ ∀ name ∈ s.names, IsName name
  | initializer outer name | named outer name => outer.Regular ∧ IsName name.text
  | receiver (parent outer) => outer.Regular
  | receiver outer => outer.Regular
  | parent _ => False
  | function outer _ params before =>
    outer.Regular ∧ ∀ name ∈ params.map (·.text) ++ Stmt.namesAll before, IsName name

/-- In a local scope a place finds nothing but names. -/
theorem Regular.isName_of_mem_namesBefore {globals : List String} {p : Place} (hp : p.Regular) (hlocal : p.Local) :
    ∀ name ∈ p.namesBefore globals, IsName name := by
  induction p with
  | block outer before => exact hp.2
  | function outer role params before => exact hp.2
  | past outer s ih =>
    intro name hname
    exact (List.mem_append.1 hname).elim (ih hp.1 hlocal name) (hp.2 name)
  | _ => exact hlocal.elim

theorem Regular.methods {p : Place} (hp : p.Regular) {name : Name} (hname : IsName name.text)
    (parent : Option Reference) : (p.methods name parent).Regular := by
  cases parent with
  | none => exact ⟨hp, hname⟩
  | some use => exact ⟨hp, hname⟩

end Place

/-- Where no name is a keyword, places are regular. -/
theorem Occurs.regular {program : List Stmt} (h : ∀ s ∈ program, (Node.stmt s).Every Node.Unreserved)
    {p : Place} {n : Node} (hn : Occurs program p n) : p.Regular := by
  refine hn.parts_induction (motive := fun p _ => p.Regular) (fun _ _ _ _ => trivial) ?_
  intro p n hn hp x hx
  have hunreserved : n.Unreserved := Occurs.every h hn
  have hstatements {statements : List Stmt} {place : List Stmt → Place} (hsuite : SuiteOf program place statements)
      {earlier later : List Stmt} {s : Stmt} (heq : statements = earlier ++ s :: later) :
      ∀ name ∈ Stmt.namesAll earlier, IsName name := by
    intro name hname
    obtain ⟨other, hother, hdeclares⟩ := Stmt.mem_namesAll.1 hname
    obtain ⟨before, after, rfl⟩ := List.append_of_mem hother
    have hoccurs : Occurs program (place before) (.stmt other) := by
      refine hsuite.occurs (show _ = before ++ other :: (after ++ s :: later) from ?_)
      rw [heq, List.append_assoc, List.cons_append]
    exact other.isName_of_mem_names (hoccurs.inside h) name hdeclares
  obtain ⟨q, m⟩ := x
  cases Place.leads hx with
  | here => exact hp
  | past n s hs => exact ⟨hp, s.isName_of_mem_names (Occurs.inside h (hn.part hs))⟩
  | initializer name value => exact ⟨hp, hunreserved⟩
  | block earlier s later => exact ⟨hp, hstatements (.block hn) rfl⟩
  | function name f => exact ⟨hp, hunreserved⟩
  | clause name parent methods => exact ⟨hp, hunreserved⟩
  | methods name parent methods => exact hp.methods hunreserved parent
  | body role params earlier s later =>
    refine ⟨hp, fun name hname => ?_⟩
    rcases List.mem_append.1 hname with hparam | hname
    · obtain ⟨param, hmem, rfl⟩ := List.mem_map.1 hparam
      exact hunreserved param hmem
    · exact hstatements (.function hn) rfl name hname

/-- Initializers are methods. -/
theorem Occurs.receiver_of_initializer {program : List Stmt} {p : Place} {f : Function}
    (h : Occurs program p (.function .initializer f)) : ∃ outer, p = .receiver outer := by
  obtain ⟨item, hitem, hwithin⟩ := h
  rcases Relation.ReflTransGen.cases_tail hwithin with heq | ⟨⟨q, m⟩, -, hpart⟩
  · obtain ⟨earlier, s, later, -, rfl⟩ := mem_suite.1 hitem
    cases heq
  · rcases m with e | s | ⟨role, g⟩
    · cases e <;> simp [Node.parts] at hpart
    · cases s with
      | var name value | «return» line value => cases value <;> simp [Node.parts] at hpart
      | block body =>
        obtain ⟨earlier, s, later, -, heq⟩ := mem_suite.1 hpart
        cases heq
      | «class» name parent methods =>
        simp only [Node.parts, List.mem_append, List.mem_map, Prod.mk.injEq, reduceCtorEq, and_false, exists_false,
          false_or] at hpart
        obtain ⟨m, -, rfl, -⟩ := hpart
        exact ⟨_, rfl⟩
      | _ => simp [Node.parts] at hpart
    · obtain ⟨earlier, s, later, -, heq⟩ := mem_suite.1 hpart
      cases heq

end TreeWalk
