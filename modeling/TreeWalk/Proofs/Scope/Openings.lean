import TreeWalk.Proofs.Scope.Names

/-!
# The scopes around a place

Which scopes are open at a place, each named by the place where it opens, and what they say of a name.
A name that is not initialized belongs to a variable in whose initializer the place lies.
-/

namespace TreeWalk

namespace Scopes

/-- Scopes that are all but the innermost the same. -/
theorem tail_updateInnermost (s : Scopes) (f : Bindings Bool → Bindings Bool) :
    (s.updateInnermost f).locals.tail = s.locals.tail := by
  obtain ⟨locals, globals⟩ := s
  cases locals <;> rfl

@[simp] theorem tail_define (s : Scopes) (name : String) : (s.define name).locals.tail = s.locals.tail :=
  tail_updateInnermost s _

theorem tail_foldl_define (s : Scopes) (names : List String) : (names.foldl define s).locals.tail = s.locals.tail :=
  foldl_define_same (·.locals.tail) (fun s name _ => tail_define s name) s

@[simp] theorem tail_defineAll (s : Scopes) (names : List Name) :
    (s.defineAll names).locals.tail = s.locals.tail := by
  rw [defineAll_eq, tail_foldl_define]

@[simp] theorem tail_declaredAll (s : Scopes) (before : List Stmt) :
    (Stmt.declaredAll s before).locals.tail = s.locals.tail := by
  rw [Stmt.declaredAll_eq, tail_foldl_define]

@[simp] theorem tail_enter (s : Scopes) : s.enter.locals.tail = s.locals := rfl

theorem locals_eq_cons (s : Scopes) (h : s.locals ≠ []) : s.locals = s.innermost :: s.locals.tail := by
  obtain ⟨locals, globals⟩ := s
  cases locals with
  | nil => exact absurd rfl h
  | cons scope outer => rfl

theorem locals_updateInnermost {s : Scopes} {f : Bindings Bool → Bindings Bool} {d : Nat} {scope : Bindings Bool}
    (h : (s.updateInnermost f).locals[d]? = some scope) :
    ∃ old, s.locals[d]? = some old ∧ scope = if d = 0 then f old else old := by
  obtain ⟨locals, globals⟩ := s
  cases locals with
  | nil => simp [updateInnermost] at h
  | cons first outer =>
    cases d with
    | zero => exact ⟨first, rfl, (Option.some.inj h).symm⟩
    | succ d => exact ⟨scope, h, rfl⟩

/-- Defining a name initializes it in the innermost scope. -/
theorem locals_define {s : Scopes} {defined : String} {d : Nat} {scope : Bindings Bool}
    (h : (s.define defined).locals[d]? = some scope) : ∃ old, s.locals[d]? = some old ∧
      ∀ name, scope.get? name = if d = 0 ∧ name = defined then some true else old.get? name := by
  obtain ⟨old, hold, rfl⟩ := locals_updateInnermost h
  refine ⟨old, hold, fun name => ?_⟩
  by_cases hd : d = 0 <;> simp [hd, Bindings.get?_set]

/-- The names of a statement are initialized in the innermost scope. -/
theorem locals_declared {s : Scopes} {statement : Stmt} {d : Nat} {scope : Bindings Bool}
    (h : (statement.declared s).locals[d]? = some scope) : ∃ old, s.locals[d]? = some old ∧
      ∀ name, scope.get? name = if d = 0 ∧ name ∈ statement.names then some true else old.get? name := by
  rw [Stmt.declared_eq] at h
  generalize statement.names = names at h ⊢
  induction names generalizing s with
  | nil => exact ⟨scope, h, by simp⟩
  | cons first rest ih =>
    obtain ⟨next, hnext, hrest⟩ := ih h
    obtain ⟨old, hold, hfirst⟩ := locals_define hnext
    refine ⟨old, hold, fun name => ?_⟩
    rw [hrest, hfirst]
    by_cases hd : d = 0 <;> by_cases heq : name = first <;> simp [hd, heq]

/-- Declaring a name puts it into the innermost scope if it is new there. -/
theorem locals_declare {s : Scopes} {declared : String} {d : Nat} {scope : Bindings Bool}
    (h : (s.declare declared).locals[d]? = some scope) : ∃ old, s.locals[d]? = some old ∧
      ∀ name, scope.get? name =
        if d = 0 ∧ name = declared ∧ old.get? name = none then some false else old.get? name := by
  obtain ⟨old, hold, rfl⟩ := locals_updateInnermost h
  refine ⟨old, hold, fun name => ?_⟩
  by_cases hd : d = 0
  case neg => simp [hd]
  cases hdeclared : old.get? declared with
  | none =>
    simp only [hd, Bindings.contains, hdeclared, Option.isSome_none, Bool.false_eq_true, if_false, if_true, Bindings.get?_set]
    by_cases heq : name = declared <;> simp [heq, hdeclared]
  | some initialized =>
    simp only [hd, Bindings.contains, hdeclared, Option.isSome_some, if_true]
    by_cases heq : name = declared <;> simp [heq, hdeclared]

end Scopes

namespace Place

/-- For a place with a scope of its own, the place around it and the names in the scope. -/
def scope? : Place → Option (Place × List String)
  | block outer before => some (outer, Stmt.namesAll before)
  | parent outer => some (outer, [parentName])
  | receiver outer => some (outer, [receiverName])
  | function outer _ params before => some (outer, params.map (·.text) ++ Stmt.namesAll before)
  | _ => none

/-- Where the scope of the place begins. -/
def opening : Place → Place
  | block outer _ => block outer []
  | function outer role params _ => function outer role params []
  | p => p

/-- The scopes around a place, innermost first and without the top level, each by its beginning. -/
def openings : Place → List Place
  | top _ => []
  | past outer _ | initializer outer _ | named outer _ => outer.openings
  | block outer _ => block outer [] :: outer.openings
  | parent outer => parent outer :: outer.openings
  | receiver outer => receiver outer :: outer.openings
  | function outer role params _ => function outer role params [] :: outer.openings

/-- The place and those around it. -/
def outers : Place → List Place
  | top before => [top before]
  | block outer before => block outer before :: outer.outers
  | past outer s => past outer s :: outer.outers
  | initializer outer name => initializer outer name :: outer.outers
  | named outer name => named outer name :: outer.outers
  | parent outer => parent outer :: outer.outers
  | receiver outer => receiver outer :: outer.outers
  | function outer role params before => function outer role params before :: outer.outers

theorem mem_outers_self (p : Place) : p ∈ p.outers := by
  cases p <;> simp [outers]

section

variable {globals : Bindings Bool} {p outer : Place} {names : List String}

theorem openings_of_scope (h : p.scope? = some (outer, names)) : p.openings = p.opening :: outer.openings := by
  cases p <;> simp_all [scope?, openings, opening]

theorem outers_of_scope (h : p.scope? = some (outer, names)) : p.outers = p :: outer.outers := by
  cases p <;> simp_all [scope?, outers]

/-- A place with a scope of its own has one scope more than the place around it. -/
theorem locals_of_scope (h : p.scope? = some (outer, names)) : ∃ scope,
    (p.scopes globals).locals = scope :: (outer.scopes globals).locals ∧
      ∀ name, scope.get? name = if name ∈ names then some true else none := by
  have hnil : (p.scopes globals).locals ≠ [] := by
    cases p <;> simp_all [scope?, scopes]
  refine ⟨(p.scopes globals).innermost, ?_, fun name => ?_⟩
  · rw [Scopes.locals_eq_cons _ hnil]
    cases p <;> simp_all [scope?, scopes]
  · cases p with
    | block _ before =>
      simp only [scope?, Option.some.injEq, Prod.mk.injEq] at h
      obtain ⟨rfl, rfl⟩ := h
      simp [scopes, Scopes.get?_innermost_declaredAll, Bindings.get?_empty]
    | function _ role params before =>
      simp only [scope?, Option.some.injEq, Prod.mk.injEq] at h
      obtain ⟨rfl, rfl⟩ := h
      simp only [scopes, Scopes.get?_innermost_declaredAll, Scopes.get?_innermost_defineAll, Scopes.innermost_enter,
        Bindings.get?_empty, List.mem_append]
      by_cases h : name ∈ params.map (·.text) <;> simp [h]
    | parent _ | receiver _ =>
      simp only [scope?, Option.some.injEq, Prod.mk.injEq] at h
      obtain ⟨rfl, rfl⟩ := h
      simp [scopes, Bindings.get?_set, Bindings.get?_empty]
    | _ => simp [scope?] at h

/-- Places are those at top level, those with a scope of their own, and those behind a part of a statement or in a
declaration. -/
@[elab_as_elim]
theorem scope_induction {motive : Place → Prop} (top : ∀ before, motive (top before))
    (past : ∀ outer s, motive outer → motive (past outer s))
    (initializer : ∀ outer name, motive outer → motive (initializer outer name))
    (named : ∀ outer name, motive outer → motive (named outer name))
    (scope : ∀ p outer names, p.scope? = some (outer, names) → motive outer → motive p) (p : Place) : motive p := by
  induction p with
  | top before => exact top before
  | past outer s ih => exact past outer s ih
  | initializer outer name ih => exact initializer outer name ih
  | named outer name ih => exact named outer name ih
  | block outer before ih => exact scope _ outer _ rfl ih
  | parent outer ih => exact scope _ outer _ rfl ih
  | receiver outer ih => exact scope _ outer _ rfl ih
  | function outer role params before ih => exact scope _ outer _ rfl ih

theorem locals_top (before : List Stmt) : ((top before).scopes globals).locals = [] :=
  (Scopes.locals_declaredAll_eq_nil _ before).2 rfl

theorem length_declare (s : Scopes) (name : String) : (s.declare name).locals.length = s.locals.length := by
  obtain ⟨locals, globals⟩ := s
  cases locals <;> rfl

theorem length_define (s : Scopes) (name : String) : (s.define name).locals.length = s.locals.length := by
  obtain ⟨locals, globals⟩ := s
  cases locals <;> rfl

theorem length_declared (s : Scopes) (statement : Stmt) : (statement.declared s).locals.length = s.locals.length := by
  rw [Stmt.declared_eq]
  exact Scopes.foldl_define_same (·.locals.length) (fun s name _ => length_define s name) s

theorem length_openings (p : Place) : p.openings.length = (p.scopes globals).locals.length := by
  induction p using scope_induction with
  | top before => simp [openings, locals_top]
  | past outer s ih => rw [scopes, length_declared, ← ih]; rfl
  | initializer outer name ih => rw [scopes, length_declare, ← ih]; rfl
  | named outer name ih => rw [scopes, length_define, ← ih]; rfl
  | scope p outer names h ih =>
    obtain ⟨scope, hlocals, -⟩ := locals_of_scope h
    rw [openings_of_scope h, hlocals, List.length_cons, List.length_cons, ih]

/-- A name that is not initialized is that of a variable around whose initializer the place lies. -/
theorem initializer_of_uninitialized {d : Nat} {scope : Bindings Bool} {name : String}
    (h : (p.scopes globals).locals[d]? = some scope) (hname : scope.get? name = some false) :
    ∃ q declared, initializer q declared ∈ p.outers ∧ declared.text = name ∧ p.openings.drop d = q.openings := by
  induction p using scope_induction generalizing d scope with
  | top before => simp [locals_top] at h
  | past outer s ih =>
    obtain ⟨old, hold, hget⟩ := Scopes.locals_declared h
    rw [hget] at hname
    split at hname
    · cases hname
    · obtain ⟨q, other, hq, hsame⟩ := ih hold hname
      exact ⟨q, other, List.mem_cons_of_mem _ hq, hsame⟩
  | initializer outer declared ih =>
    obtain ⟨old, hold, hget⟩ := Scopes.locals_declare h
    rw [hget] at hname
    split at hname
    case isTrue hnew =>
      obtain ⟨rfl, rfl, -⟩ := hnew
      exact ⟨outer, declared, mem_outers_self _, rfl, rfl⟩
    case isFalse =>
      obtain ⟨q, other, hq, hsame⟩ := ih hold hname
      exact ⟨q, other, List.mem_cons_of_mem _ hq, hsame⟩
  | named outer defined ih =>
    obtain ⟨old, hold, hget⟩ := Scopes.locals_define h
    rw [hget] at hname
    split at hname
    · cases hname
    · obtain ⟨q, other, hq, hsame⟩ := ih hold hname
      exact ⟨q, other, List.mem_cons_of_mem _ hq, hsame⟩
  | scope p outer names hp ih =>
    obtain ⟨own, hlocals, hown⟩ := locals_of_scope hp
    rw [hlocals] at h
    cases d with
    | zero =>
      obtain rfl := Option.some.inj h
      rw [hown] at hname
      split at hname <;> cases hname
    | succ d =>
      obtain ⟨q, declared, hq, hsame, hdrop⟩ := ih h hname
      refine ⟨q, declared, ?_, hsame, ?_⟩
      · rw [outers_of_scope hp]
        exact List.mem_cons_of_mem _ hq
      · rw [openings_of_scope hp]
        exact hdrop

end

/-- A function lies between the place and the initializer. -/
def Detached (p q : Place) (name : Name) : Prop :=
  ∃ outer role params before, function outer role params before ∈ p.outers ∧ initializer q name ∈ outer.outers

/-- Every initializer around the place is that of a variable, and the place is its own or detached from it. -/
def Initialized (program : List Stmt) (p : Place) : Prop :=
  ∀ q name, initializer q name ∈ p.outers →
    (∃ value, Occurs program q (.stmt (.var name (some value)))) ∧ (p = initializer q name ∨ Detached p q name)

theorem Detached.outward {p p' q : Place} {name : Name} (h : p.Detached q name) (hp : p.outers ⊆ p'.outers) :
    p'.Detached q name := by
  obtain ⟨outer, role, params, before, hfunction, hinitializer⟩ := h
  exact ⟨outer, role, params, before, hp hfunction, hinitializer⟩

section

variable {program : List Stmt} {p p' : Place}

/-- On the way inward one only comes into the initializer of the variable that is declared there. -/
theorem Initialized.inward (h : p.Initialized program) (hp : ∀ q name, p ≠ initializer q name)
    (houters : p'.outers = p' :: p.outers)
    (hp' : ∀ q name, p' = initializer q name → ∃ value, Occurs program q (.stmt (.var name (some value)))) :
    p'.Initialized program := by
  intro q name hmem
  rw [houters] at hmem
  rcases List.mem_cons.1 hmem with heq | hmem
  · exact ⟨hp' q name heq.symm, .inl heq.symm⟩
  · obtain ⟨hvar, heq | hdetached⟩ := h q name hmem
    · exact absurd heq (hp q name)
    · exact ⟨hvar, .inr (hdetached.outward (houters ▸ List.subset_cons_self p' p.outers))⟩

theorem Initialized.function (h : p.Initialized program) (role : FunctionRole) (params : List Name)
    (before : List Stmt) : (Place.function p role params before).Initialized program := by
  intro q name hmem
  rcases List.mem_cons.1 hmem with heq | hmem
  · cases heq
  · exact ⟨(h q name hmem).1, .inr ⟨p, role, params, before, mem_outers_self _, hmem⟩⟩

theorem Initialized.methods (h : p.Initialized program) (hp : ∀ q name, p ≠ initializer q name) (name : Name)
    (parent : Option Reference) : (p.methods name parent).Initialized program := by
  have hnamed : (named p name).Initialized program := h.inward hp rfl nofun
  unfold Place.methods
  split
  · have hparent : (Place.parent (named p name)).Initialized program := hnamed.inward nofun rfl nofun
    exact hparent.inward nofun rfl nofun
  · exact hnamed.inward nofun rfl nofun

theorem Initialized.part (h : p.Initialized program) {n : Node} (hn : Occurs program p n) {x : Place × Node}
    (hx : x ∈ n.parts p) : x.1.Initialized program := by
  have hsuite {s : Stmt} (hs : Occurs program p (.stmt s)) (q : Place) (name : Name) : p ≠ initializer q name := by
    intro heq
    have hadmits : p.InSuite := hs.admits
    rw [heq] at hadmits
    exact hadmits
  obtain ⟨q, m⟩ := x
  cases leads hx with
  | here => exact h
  | past n s hs => exact h.inward (hsuite (hn.part hs)) rfl nofun
  | initializer name value =>
    refine h.inward (hsuite hn) rfl fun q other heq => ?_
    obtain ⟨rfl, rfl⟩ := initializer.injEq .. ▸ heq
    exact ⟨value, hn⟩
  | block earlier s later => exact h.inward (hsuite hn) rfl nofun
  | function name f => exact h.inward (hsuite hn) rfl nofun
  | clause name parent methods => exact h.inward (hsuite hn) rfl nofun
  | methods name parent methods => exact h.methods (hsuite hn) name parent
  | body role params earlier s later => exact h.function role params earlier

end

end Place

theorem Occurs.initialized {program : List Stmt} {p : Place} {n : Node} (h : Occurs program p n) :
    p.Initialized program := by
  refine h.parts_induction (motive := fun p _ => p.Initialized program) (fun earlier s later _ q name hmem => ?_)
    fun p n hn hp x hx => hp.part hn hx
  cases List.mem_singleton.1 hmem

end TreeWalk
