import TreeWalk.Proofs.Scope.Relabeling
import TreeWalk.Proofs.Scope.Resolving

/-!
# Known names silence violations

The more names a resolver knows, the fewer variables it takes to be read in their own initializers. Nothing else
depends on what it knows. So a program that was resolved without a violation is resolved again with the same
distances, and whatever has been resolved before is forgotten but for the names.
-/

namespace TreeWalk

/-- A variable is read in its own initializer. -/
def ScopeError.initial (e : ScopeError) : Bool := e.cause == .readInOwnInitializer

/-- The second violations are the first ones in the same order, and at most such are missing in which a variable is
read in its own initializer. -/
def Silenced (errors errors' : List ScopeError) : Prop :=
  errors'.Sublist errors ∧ errors'.filter (!·.initial) = errors.filter (!·.initial)

namespace Silenced

variable {errors errors' : List ScopeError}

theorem refl (errors : List ScopeError) : Silenced errors errors := ⟨.refl errors, rfl⟩

theorem add (h : Silenced errors errors') (e : ScopeError) : Silenced (errors ++ [e]) (errors' ++ [e]) :=
  ⟨h.1.append (.refl [e]), by rw [List.filter_append, List.filter_append, h.2]⟩

theorem drop (h : Silenced errors errors') {e : ScopeError} (he : e.initial = true) : Silenced (errors ++ [e]) errors' :=
  ⟨h.1.trans (List.sublist_append_left errors [e]), by simp [h.2, he]⟩

theorem nil_iff : Silenced [] errors' ↔ errors' = [] :=
  ⟨fun h => List.sublist_nil.1 h.1, fun h => h ▸ refl []⟩

end Silenced

namespace Resolver

variable {r r' : Resolver}

/-- The second resolver has come to the same place as the first, knowing more names. -/
structure Silences (r r' : Resolver) : Prop where
  scopes : r.scopes.Widens True r'.scopes
  around : r'.around = r.around
  distances : r'.distances = r.distances
  errors : Silenced r.errors r'.errors

end Resolver

theorem Scopes.Widens.leave {more : Prop} {s s' : Scopes} (h : s.Widens more s') : s.leave.Widens more s'.leave :=
  ⟨fun hmore => congrArg Scopes.leave (h.same hmore), congrArg List.tail h.locals, h.contains, h.uninitialized⟩

/-- Knowing more names, a resolver takes no more variables to be uninitialized. -/
theorem Scopes.Widens.uninitialized_of {more : Prop} {s s' : Scopes} (h : s.Widens more s') {name : String}
    (hname : s'.uninitialized name = true) : s.uninitialized name = true := by
  by_contra hnot
  have hfalse : s.uninitialized name = false := by simpa using hnot
  rw [h.not_uninitialized fun _ => hfalse] at hname
  exact hnot hname

namespace Resolver.Silences

variable {r r' : Resolver}

theorem report (h : r.Silences r') (place : Name) (cause : ScopeCause) :
    (r.report place cause).Silences (r'.report place cause) :=
  ⟨h.scopes, h.around, h.distances, h.errors.add _⟩

theorem locate (h : r.Silences r') (id : NodeId) (name : String) : (r.locate id name).Silences (r'.locate id name) := by
  unfold Resolver.locate
  rw [h.scopes.distance? name, h.distances]
  split
  · exact ⟨h.scopes, h.around, rfl, h.errors⟩
  · exact h

theorem enter (h : r.Silences r') : r.enter.Silences r'.enter := ⟨h.scopes.enter, h.around, h.distances, h.errors⟩

theorem leave (h : r.Silences r') : r.leave.Silences r'.leave := ⟨h.scopes.leave, h.around, h.distances, h.errors⟩

theorem define (h : r.Silences r') (name : String) : (r.define name).Silences (r'.define name) :=
  ⟨h.scopes.define name, h.around, h.distances, h.errors⟩

theorem declare (h : r.Silences r') (name : Name) : (r.declare name).Silences (r'.declare name) := by
  unfold Resolver.declare
  rw [h.scopes.redeclares]
  split
  · exact h.report name _
  · exact ⟨h.scopes.declare name.text, h.around, h.distances, h.errors⟩

theorem bindAll (h : r.Silences r') (names : List Name) : (r.bindAll names).Silences (r'.bindAll names) := by
  induction names generalizing r r' with
  | nil => exact h
  | cons first rest ih => exact ih ((h.declare first).define first.text)

/-- Here a violation is silenced: the first resolver may take the variable to be uninitialized and the second not. -/
theorem read (h : r.Silences r') (use : Reference) : (r.read use).Silences (r'.read use) := by
  unfold Resolver.read
  refine locate ?_ use.id use.name.text
  by_cases hnew : r'.scopes.uninitialized use.name.text = true
  · rw [if_pos hnew, if_pos (h.scopes.uninitialized_of hnew)]
    exact h.report use.name _
  · rw [if_neg hnew]
    split
    · exact ⟨h.scopes, h.around, h.distances, h.errors.drop rfl⟩
    · exact h

theorem setFunction (h : r.Silences r') {role role' : Option FunctionRole} (hrole : role' = role) :
    (r.setFunction role).Silences (r'.setFunction role') :=
  ⟨h.scopes, by rw [Resolver.setFunction, Resolver.setFunction, h.around, hrole], h.distances, h.errors⟩

theorem setClass (h : r.Silences r') {role role' : Option ClassRole} (hrole : role' = role) :
    (r.setClass role).Silences (r'.setClass role') :=
  ⟨h.scopes, by rw [Resolver.setClass, Resolver.setClass, h.around, hrole], h.distances, h.errors⟩

end Resolver.Silences

open Resolver

mutual

theorem Expr.resolve_silences : (e : Expr) → ∀ {r r' : Resolver}, r.Silences r' → (e.resolve r).Silences (e.resolve r')
  | .literal _, _, _, h => h
  | .variable use, _, _, h => h.read use
  | .assign target value, _, _, h => (value.resolve_silences h).locate target.id target.name.text
  | .group inner, _, _, h => inner.resolve_silences h
  | .unary _ operand, _, _, h => operand.resolve_silences h
  | .binary left _ right, _, _, h => right.resolve_silences (left.resolve_silences h)
  | .logical left _ right, _, _, h => right.resolve_silences (left.resolve_silences h)
  | .conditional condition thenBranch elseBranch, _, _, h =>
    elseBranch.resolve_silences (thenBranch.resolve_silences (condition.resolve_silences h))
  | .call callee _ arguments, _, _, h => Expr.resolveAll_silences arguments (callee.resolve_silences h)
  | .get object _, _, _, h => object.resolve_silences h
  | .set object _ value, _, _, h => object.resolve_silences (value.resolve_silences h)
  | .this id line, _, _, h => by
    rw [Expr.resolve, Expr.resolve, h.around]
    split
    · exact h.report _ _
    · exact h.locate _ _
  | .parent id keyword _, _, _, h => by
    rw [Expr.resolve, Expr.resolve, h.around]
    split
    · exact h.report _ _
    · exact h.report _ _
    · exact h.locate _ _
  | .lambda f, _, _, h => f.resolve_silences .function h
  | .list _ elements, _, _, h => Expr.resolveAll_silences elements h
  | .index object _ position, _, _, h => position.resolve_silences (object.resolve_silences h)

theorem Expr.resolveAll_silences : (es : List Expr) → ∀ {r r' : Resolver}, r.Silences r' →
    (Expr.resolveAll es r).Silences (Expr.resolveAll es r')
  | [], _, _, h => h
  | e :: rest, _, _, h => Expr.resolveAll_silences rest (e.resolve_silences h)

theorem Stmt.resolve_silences : (statement : Stmt) → ∀ {r r' : Resolver}, r.Silences r' →
    (statement.resolve r).Silences (statement.resolve r')
  | .expression value, _, _, h => value.resolve_silences h
  | .print _ value, _, _, h => value.resolve_silences h
  | .var name none, _, _, h => (h.declare name).define name.text
  | .var name (some initializer), _, _, h => (initializer.resolve_silences (h.declare name)).define name.text
  | .block body, _, _, h => (Stmt.resolveAll_silences body h.enter).leave
  | .branch condition thenBranch none, _, _, h => thenBranch.resolve_silences (condition.resolve_silences h)
  | .branch condition thenBranch (some elseBranch), _, _, h =>
    elseBranch.resolve_silences (thenBranch.resolve_silences (condition.resolve_silences h))
  | .loop condition body none, _, _, h => body.resolve_silences (condition.resolve_silences h)
  | .loop condition body (some increment), _, _, h =>
    increment.resolve_silences (body.resolve_silences (condition.resolve_silences h))
  | .break _, _, _, h => h
  | .continue _, _, _, h => h
  | .return line none, _, _, h => by
    rw [Stmt.resolve, Stmt.resolve, h.around]
    split
    · exact h.report _ _
    · exact h
  | .return line (some value), _, _, h => by
    rw [Stmt.resolve, Stmt.resolve, h.around]
    refine value.resolve_silences ?_
    split
    · exact h.report _ _
    · exact h.report _ _
    · exact h
  | .function name f, _, _, h => f.resolve_silences .function ((h.declare name).define name.text)
  | .class name none methods, _, _, h =>
    have hnamed := ((h.setClass rfl).declare name).define name.text
    (Method.resolveAll_silences methods (hnamed.enter.define receiverName)).leave.setClass (congrArg _ h.around)
  | .class name (some parent) methods, r, r', h => by
    have hplain : (r.setClass (some .plain)).Silences (r'.setClass (some .plain)) := h.setClass rfl
    have hnamed := (hplain.declare name).define name.text
    refine (Method.resolveAll_silences methods (((Silences.read (Silences.setClass ?_ rfl) parent).enter.define
      parentName).enter.define receiverName)).leave.leave.setClass (congrArg _ h.around)
    split
    · exact hnamed.report _ _
    · exact hnamed
  | .empty, _, _, h => h

theorem Stmt.resolveAll_silences : (statements : List Stmt) → ∀ {r r' : Resolver}, r.Silences r' →
    (Stmt.resolveAll statements r).Silences (Stmt.resolveAll statements r')
  | [], _, _, h => h
  | statement :: rest, _, _, h => Stmt.resolveAll_silences rest (statement.resolve_silences h)

theorem Function.resolve_silences (role : FunctionRole) : (f : Function) → ∀ {r r' : Resolver}, r.Silences r' →
    (f.resolve role r).Silences (f.resolve role r')
  | .mk params body, _, _, h =>
    (Stmt.resolveAll_silences body ((h.setFunction rfl).enter.bindAll params)).leave.setFunction (congrArg _ h.around)

theorem Method.resolveAll_silences : (methods : List Method) → ∀ {r r' : Resolver}, r.Silences r' →
    (Method.resolveAll methods r).Silences (Method.resolveAll methods r')
  | [], _, _, h => h
  | .mk name f :: rest, _, _, h => Method.resolveAll_silences rest (f.resolve_silences (methodRole name) h)

end

/-! ## Resolvers in use -/

namespace Resolver

/-- The violations in an answer. -/
def violations : Except (List ScopeError) Distances → List ScopeError
  | .ok _ => []
  | .error errors => errors

theorem violations_finish (r : Resolver) : violations r.finish.1 = r.errors := by
  unfold finish
  split
  case isTrue hnone => exact (List.isEmpty_iff.1 hnone).symm
  case isFalse => rfl

theorem finish_eq_ok {r : Resolver} {table : Distances} :
    r.finish.1 = .ok table ↔ r.errors = [] ∧ r.distances = table := by
  unfold finish
  split
  case isTrue hnone => simp [List.isEmpty_iff.1 hnone]
  case isFalse hsome => simpa using fun hnone => absurd hnone (by simpa using hsome)

/-- Neither distances nor violations are left. -/
theorem finish_snd (r : Resolver) : r.finish.2 = ⟨r.scopes, r.around, ∅, []⟩ := by
  unfold finish
  split
  case isTrue hnone => exact congrArg (Resolver.mk _ _ _) (List.isEmpty_iff.1 hnone)
  case isFalse => rfl

theorem new_silences {names names' : List String} (h : names ⊆ names') : (new names).Silences (new names') := by
  refine ⟨⟨fun hnot => absurd trivial hnot, rfl, fun name hname => ?_, fun name hname => ?_⟩, rfl, rfl, .refl []⟩
  · rw [Bindings.contains] at hname ⊢
    have hold : name ∈ names := by
      by_contra hnot
      simp [new, atTop, Scopes.ofGlobals, get?_knownGlobals, hnot] at hname
    simp [new, atTop, Scopes.ofGlobals, get?_knownGlobals, h hold]
  · simp only [new, atTop, Scopes.ofGlobals, get?_knownGlobals] at hname
    split at hname <;> cases hname

theorem names_new (names : List String) : (new names).names = names := by
  simp [new, atTop, Resolver.names, Scopes.ofGlobals, Resolution.knownGlobals, Bindings.names, Function.comp_def]

end Resolver

theorem replace_known (name : String) (names : List String) :
    ∃ names', names ⊆ names' ∧ (Resolution.knownGlobals names).set name true = Resolution.knownGlobals names' := by
  induction names with
  | nil => exact ⟨[name], by simp, rfl⟩
  | cons first rest ih =>
    by_cases h : name = first
    · refine ⟨first :: rest, fun _ h => h, ?_⟩
      simp [Resolution.knownGlobals, Bindings.set, Bindings.replace, h]
    · obtain ⟨names', hsubset, heq⟩ := ih
      refine ⟨first :: names', List.cons_subset_cons first hsubset, ?_⟩
      simp only [Resolution.knownGlobals, Bindings.set, Bindings.mk.injEq, List.map_cons, Bindings.replace, if_neg h] at heq ⊢
      rw [heq]

/-- What is declared at top level is known from then on. -/
theorem defineAll_known (names : List String) (declared : List Name) :
    ∃ names', names ⊆ names' ∧ (Scopes.ofGlobals (Resolution.knownGlobals names)).defineAll declared =
      .ofGlobals (Resolution.knownGlobals names') := by
  induction declared generalizing names with
  | nil => exact ⟨names, fun _ h => h, rfl⟩
  | cons first rest ih =>
    obtain ⟨names', hsubset, heq⟩ := replace_known first.text names
    obtain ⟨names'', hsubset', heq'⟩ := ih names'
    refine ⟨names'', fun _ h => hsubset' (hsubset h), ?_⟩
    rw [← heq', ← heq]
    rfl

namespace Resolver

/-- Behind a program a new resolver is a new one again, which knows no fewer names. -/
theorem resolve_new (names : List String) (program : List Stmt) :
    ∃ names', names ⊆ names' ∧ ((new names).resolve program).2 = new names' := by
  obtain ⟨declared, hscopes, haround⟩ := Stmt.resolveAll_passes program (new names).restart
  obtain ⟨names', hsubset, heq⟩ := defineAll_known names declared
  refine ⟨names', hsubset, ?_⟩
  rw [resolve, finish_snd, haround, hscopes.trans heq]
  rfl

theorem Reached.eq_new {r : Resolver} (h : r.Reached) : ∃ names, r = Resolver.new names := by
  induction h with
  | new names => exact ⟨_, rfl⟩
  | resolve h program ih =>
    obtain ⟨names, rfl⟩ := ih
    obtain ⟨names', -, heq⟩ := resolve_new names program
    exact ⟨names', heq⟩

theorem resolve_silences {names names' : List String} (h : names ⊆ names') (program : List Stmt) :
    Silenced (violations ((new names).resolve program).1) (violations ((new names').resolve program).1) ∧
      ∀ table table', ((new names).resolve program).1 = .ok table → ((new names').resolve program).1 = .ok table' →
        table' = table := by
  have hwalk := Stmt.resolveAll_silences program (new_silences h)
  refine ⟨?_, fun table table' htable htable' => ?_⟩
  · rw [resolve, resolve, violations_finish, violations_finish]
    exact hwalk.errors
  · rw [resolve, finish_eq_ok] at htable htable'
    rw [← htable.2, ← htable'.2]
    exact hwalk.distances

/-- What a program is resolved to once, it is resolved to again. -/
theorem Reached.resolve_twice {r : Resolver} (h : r.Reached) {program : List Stmt} {table : Distances}
    (htable : (r.resolve program).1 = .ok table) : ((r.resolve program).2.resolve program).1 = .ok table := by
  obtain ⟨names, rfl⟩ := h.eq_new
  obtain ⟨names', hsubset, hbehind⟩ := resolve_new names program
  -- Behind the program more names are known, which can only silence violations, and there were none.
  have hwalk := Stmt.resolveAll_silences program (new_silences hsubset)
  rw [Resolver.resolve, finish_eq_ok] at htable
  rw [hbehind, Resolver.resolve, finish_eq_ok]
  have herrors := hwalk.errors
  exact ⟨Silenced.nil_iff.1 (htable.1 ▸ herrors), hwalk.distances.trans htable.2⟩

/-- Known names at top level only ever silence violations of one kind. A program that has been resolved is resolved
again to the same distances, by any resolver. Behind a program, legal or not, a resolver is as good as new: all names
at top level are initialized and nothing else is left of the program. -/
theorem resolves_repeatably {r : Resolver} (h : r.Reached) {names names' : List String} (hnames : names ⊆ names')
    (program : List Stmt) :
    Silenced (violations ((new names).resolve program).1) (violations ((new names').resolve program).1) ∧
    (∀ table table', ((new names).resolve program).1 = .ok table → ((new names').resolve program).1 = .ok table' →
      table' = table) ∧
    (∀ table, (r.resolve program).1 = .ok table → ((r.resolve program).2.resolve program).1 = .ok table) ∧
    (∀ name, (r.resolve program).2.scopes.globals.get? name ≠ some false) ∧
    (r.resolve program).2 = new (r.resolve program).2.names := by
  obtain ⟨known, hknown⟩ := (h.resolve program).eq_new
  refine ⟨(resolve_silences hnames program).1, (resolve_silences hnames program).2,
    fun _ => h.resolve_twice, fun name => ?_, ?_⟩
  · have hget : (r.resolve program).2.scopes.globals.get? name = if name ∈ known then some true else none := by
      rw [hknown]
      exact get?_knownGlobals known name
    rw [hget]
    split <;> nofun
  · rw [hknown, names_new]

/-- In its own initializer a global is not initialized yet, unless its name was known before. -/
theorem resolves_repeatably_own_initializer :
    let program : List Stmt := [.var ⟨"a", 1⟩ (some (.variable ⟨0, ⟨"a", 1⟩⟩))]
    violations ((new []).resolve program).1 = [⟨⟨"a", 1⟩, .readInOwnInitializer⟩] ∧
      violations ((new ["a"]).resolve program).1 = [] ∧
      Silenced (violations ((new []).resolve program).1) (violations ((new ["a"]).resolve program).1) ∧
      ((new []).resolve program).2 = new ((new []).resolve program).2.names := by
  intro program
  have hmain := resolves_repeatably (.new []) (List.nil_subset ["a"]) program
  exact ⟨by cbv, by cbv, hmain.1, hmain.2.2.2.2⟩

end Resolver

end TreeWalk
