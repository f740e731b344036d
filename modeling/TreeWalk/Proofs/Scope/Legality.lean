import Mathlib.Data.List.Nodup
import TreeWalk.Proofs.Parser.Programs
import TreeWalk.Proofs.Scope.Resolving

/-!
# Legal programs

The scoping rules, said of a program as a whole and without a walk over it. Resolution finds no
violation exactly in the programs that keep them.
-/

namespace TreeWalk

/-- The scoping rules for a program that runs where the given names are bound. -/
structure Legal (globals : List String) (program : List Stmt) : Prop where
  returns_in_function : ∀ p line value, Occurs program p (.stmt (.return line value)) →
    p.surroundings.inFunction ≠ none
  initializers_return_nothing : ∀ p line value, Occurs program p (.stmt (.return line (some value))) →
    p.surroundings.inFunction ≠ some .initializer
  this_in_method : ∀ p id line, Occurs program p (.expr (.this id line)) →
    p.surroundings.inClass ≠ none
  parent_in_subclass : ∀ p id keyword method, Occurs program p (.expr (.parent id keyword method)) →
    p.surroundings.inClass = some .withParent
  no_self_inheritance : ∀ p name parent methods,
    Occurs program p (.stmt (.class name (some parent) methods)) → parent.name.text ≠ name.text
  block_names : ∀ p body, Occurs program p (.stmt (.block body)) → (declaredNames body).Nodup
  function_names : ∀ p role f, Occurs program p (.function role f) →
    (f.params.map (·.text) ++ declaredNames f.body).Nodup
  /-- A name is read in its own initializer only if its scope has it already. -/
  own_initializer : ∀ p name use, Occurs program (.initializer p name) (.expr (.variable use)) →
    use.name.text = name.text → name.text ∈ p.namesBefore globals

/-! ## Violations at one node -/

/-- Findings without a violation. -/
def Clean (findings : List Finding) : Prop := ∀ e, Finding.violation e ∉ findings

theorem errors_eq_nil_iff_clean (r : Resolution) : r.errors = [] ↔ Clean r.findings := by
  simp only [Resolution.errors, List.filterMap_eq_nil_iff, Clean]
  constructor
  · intro h e he
    simpa using h _ he
  · intro h finding hf
    cases finding with
    | distance => rfl
    | violation e => exact absurd hf (h e)

@[simp] theorem clean_nil : Clean [] := fun _ => List.not_mem_nil

@[simp] theorem clean_append (xs ys : List Finding) : Clean (xs ++ ys) ↔ Clean xs ∧ Clean ys := by
  simp only [Clean, List.mem_append, not_or, forall_and]

@[simp] theorem clean_violation (place : Name) (cause : ScopeCause) :
    ¬ Clean (Scopes.violation place cause) := fun h => h _ (List.mem_singleton_self _)

@[simp] theorem clean_locate (s : Scopes) (id : NodeId) (name : String) : Clean (s.locate id name) := by
  intro e
  unfold Scopes.locate
  cases s.distance? name <;> simp

theorem clean_ite_violation {c : Prop} [Decidable c] (place : Name) (cause : ScopeCause) :
    Clean (if c then Scopes.violation place cause else []) ↔ ¬ c := by
  by_cases h : c <;> simp [h]

theorem clean_declaration (s : Scopes) (name : Name) :
    Clean (s.declaration name) ↔ ¬ s.redeclares name.text = true := clean_ite_violation _ _

theorem clean_read (s : Scopes) (use : Reference) :
    Clean (s.read use) ↔ s.uninitialized use.name.text = false := by
  rw [Scopes.read, clean_append, clean_ite_violation]
  simp

theorem clean_declarations (s : Scopes) (hs : s.locals ≠ []) (names : List Name) :
    Clean (s.declarations names) ↔
      (names.map (·.text)).Nodup ∧ ∀ name ∈ names, s.innermost.get? name.text = none := by
  induction names generalizing s with
  | nil => simp [Scopes.declarations]
  | cons first rest ih =>
    have hnext : (s.define first.text).locals ≠ [] := by simpa using hs
    simp only [Scopes.declarations, clean_append, clean_declaration, Scopes.redeclares_iff, ih _ hnext,
      Scopes.innermost_define, Bindings.get?_set, List.map_cons, List.nodup_cons, List.mem_map,
      List.forall_mem_cons]
    constructor
    · rintro ⟨hfirst, hrest, hnew⟩
      refine ⟨⟨?_, hrest⟩, ?_, fun name hname => ?_⟩
      · rintro ⟨name, hname, heq⟩
        simpa [heq] using hnew name hname
      · simpa [hs] using hfirst
      · have := hnew name hname
        split at this <;> simp_all
    · rintro ⟨⟨hfirst, hrest⟩, hnone, hnew⟩
      refine ⟨by simp [hnone], hrest, fun name hname => ?_⟩
      rw [if_neg fun heq => hfirst ⟨name, hname, heq⟩]
      exact hnew name hname

/-! ## Names that are declared once -/

/-- Statements add no name twice if none of them does and none repeats a name of an earlier one. -/
theorem nodup_namesAll_iff (names : List String) (statements : List Stmt) :
    (names ++ Stmt.namesAll statements).Nodup ↔ names.Nodup ∧
      ∀ earlier s later, statements = earlier ++ s :: later →
        s.names.Nodup ∧ ∀ name ∈ s.names, name ∉ names ++ Stmt.namesAll earlier := by
  induction statements generalizing names with
  | nil => simp [Stmt.namesAll]
  | cons first rest ih =>
    have hsplit (motive : List Stmt → Stmt → Prop) :
        (∀ earlier s later, first :: rest = earlier ++ s :: later → motive earlier s) ↔
          motive [] first ∧
            ∀ earlier s later, rest = earlier ++ s :: later → motive (first :: earlier) s := by
      constructor
      · exact fun h => ⟨h [] first rest rfl, fun earlier s later hr => h (first :: earlier) s later (by simp [hr])⟩
      · rintro ⟨hfirst, hrest⟩ (_ | ⟨e, earlier⟩) s later heq
        · cases heq; exact hfirst
        · cases heq; exact hrest earlier s later rfl
    rw [hsplit fun earlier s => s.names.Nodup ∧ ∀ name ∈ s.names, name ∉ names ++ Stmt.namesAll earlier]
    have hcons (l : List Stmt) : names ++ Stmt.namesAll (first :: l) = (names ++ first.names) ++ Stmt.namesAll l := by
      simp [Stmt.namesAll]
    have hnil : names ++ Stmt.namesAll [] = names := by simp [Stmt.namesAll]
    have hadd : (names ++ first.names).Nodup ↔
        names.Nodup ∧ first.names.Nodup ∧ ∀ name ∈ first.names, name ∉ names := by
      rw [List.nodup_append, ← List.disjoint_iff_ne, List.disjoint_comm]
      rfl
    simp only [hcons, hnil, ih (names ++ first.names), hadd, and_assoc]

/-- The declarations of a suite repeat no name of its scope. -/
def Distinct (globals : List String) (program : List Stmt) : Prop :=
  ∀ p s, Occurs program p (.stmt s) → ∀ name, s.declaredName? = some name →
    ¬ (p.Local ∧ name ∈ p.namesBefore globals)

theorem distinct_iff (globals : List String) {program : List Stmt}
    (hsettled : ∀ s ∈ program, (Node.stmt s).Every Node.Settled) :
    Distinct globals program ∧
        (∀ p role f, Occurs program p (.function role f) → (f.params.map (·.text)).Nodup) ↔
      (∀ p body, Occurs program p (.stmt (.block body)) → (declaredNames body).Nodup) ∧
        ∀ p role f, Occurs program p (.function role f) →
          (f.params.map (·.text) ++ declaredNames f.body).Nodup := by
  have hnames {p : Place} {s : Stmt} (h : Occurs program p (.stmt s)) : s.names = s.declaredName?.toList :=
    Stmt.names_of_settled (h.inside hsettled)
  have hblock {p : Place} {body : List Stmt} (h : Occurs program p (.stmt (.block body))) :
      declaredNames body = Stmt.namesAll body :=
    (Stmt.namesAll_of_settled fun s hs => (h.inside hsettled).child _ (by simp [hs])).symm
  have hbody {p : Place} {role : FunctionRole} {f : Function} (h : Occurs program p (.function role f)) :
      declaredNames f.body = Stmt.namesAll f.body :=
    (Stmt.namesAll_of_settled fun s hs => (h.inside hsettled).child _ (by simp [hs])).symm
  constructor
  · rintro ⟨hdistinct, hparams⟩
    have hnew {p : Place} {s : Stmt} (h : Occurs program p (.stmt s)) (hp : p.Local) :
        s.names.Nodup ∧ ∀ name ∈ s.names, name ∉ p.namesBefore globals := by
      rw [hnames h]
      refine ⟨?_, fun name hname hmem => hdistinct p s h name (Option.mem_toList.1 hname) ⟨hp, hmem⟩⟩
      cases s.declaredName? <;> simp
    refine ⟨fun p body h => ?_, fun p role f h => ?_⟩
    · rw [hblock h]
      refine (nodup_namesAll_iff [] body).2 ⟨.nil, fun earlier s later hsplit => ?_⟩
      exact hnew ((SuiteOf.block h).occurs hsplit) trivial
    · rw [hbody h]
      refine (nodup_namesAll_iff _ _).2 ⟨hparams p role f h, fun earlier s later hsplit => ?_⟩
      exact hnew ((SuiteOf.function h).occurs hsplit) trivial
  · rintro ⟨hblocks, hfunctions⟩
    refine ⟨fun p s h name hname ⟨hlocal, hmem⟩ => ?_, fun p role f h => ?_⟩
    · have hdeclares : name ∈ s.names := by
        rw [hnames h]
        exact Option.mem_toList.2 hname
      obtain ⟨place, statements, earlier, later, hsuite, hs, rfl⟩ :=
        h.suite_of_declares (fun p n hn => Occurs.every hsettled hn) (by simp [hname])
      cases hsuite with
      | top => exact hlocal
      | block houter =>
        have hnodup := hblocks _ _ houter
        rw [hblock houter] at hnodup
        exact (((nodup_namesAll_iff [] _).1 hnodup).2 _ _ _ hs).2 name hdeclares hmem
      | function houter =>
        have hnodup := hfunctions _ _ _ houter
        rw [hbody houter] at hnodup
        exact (((nodup_namesAll_iff _ _).1 hnodup).2 _ _ _ hs).2 name hdeclares hmem
    · have hnodup := hfunctions p role f h
      exact (List.nodup_append.1 hnodup).1

/-! ## Resolution accepts exactly the legal programs -/

section Accepted

variable {globals : List String} {program : List Stmt}

/-- What is found at one node. -/
def ownAt (globals : List String) (p : Place) (n : Node) : List Finding :=
  n.ownFindings p.surroundings (p.scopes (Resolution.knownGlobals globals))

theorem errors_eq_nil_iff_own :
    (Resolution.ofProgram (Resolution.knownGlobals globals) program).errors = [] ↔
      ∀ p n, Occurs program p n → Clean (ownAt globals p n) := by
  rw [errors_eq_nil_iff_clean]
  constructor
  · exact fun h p n hn e he => h e ((mem_findings_iff _ program _).2 ⟨p, n, hn, he⟩)
  · intro h e he
    obtain ⟨p, n, hn, hown⟩ := (mem_findings_iff _ program _).1 he
    exact h p n hn e hown

theorem clean_return_iff (p : Place) (line : Nat) (value : Option Expr) :
    Clean (ownAt globals p (.stmt (.return line value))) ↔
      p.surroundings.inFunction ≠ none ∧
        (value.isSome → p.surroundings.inFunction ≠ some .initializer) := by
  cases value with
  | none => simp [ownAt, Node.ownFindings, Stmt.findings, clean_ite_violation]
  | some value =>
    rcases h : p.surroundings.inFunction with _ | _ | _ | _ <;> simp [ownAt, Node.ownFindings, h]

theorem clean_this_iff (p : Place) (id : NodeId) (line : Nat) :
    Clean (ownAt globals p (.expr (.this id line))) ↔ p.surroundings.inClass ≠ none := by
  cases h : p.surroundings.inClass <;> simp [ownAt, Node.ownFindings, Expr.findings, h]

theorem clean_parent_iff (p : Place) (id : NodeId) (keyword method : Name) :
    Clean (ownAt globals p (.expr (.parent id keyword method))) ↔
      p.surroundings.inClass = some .withParent := by
  rcases h : p.surroundings.inClass with _ | _ | _ <;> simp [ownAt, Node.ownFindings, Expr.findings, h]

theorem clean_function_iff (p : Place) (role : FunctionRole) (f : Function) :
    Clean (ownAt globals p (.function role f)) ↔ (f.params.map (·.text)).Nodup := by
  rw [ownAt, Node.ownFindings, clean_declarations _ (Scopes.enter_locals_ne_nil _)]
  simp [Bindings.get?_empty]

theorem clean_of_declares {p : Place} (hp : p.InSuite) {s : Stmt} {name : String}
    (hname : s.declaredName? = some name) (h : Clean (ownAt globals p (.stmt s))) :
    ¬ (p.Local ∧ name ∈ p.namesBefore globals) := by
  rw [← Place.redeclares_iff hp]
  cases s with
  | var n value | function n f =>
    cases hname
    exact (clean_declaration _ _).1 h
  | «class» n parent methods =>
    cases hname
    cases parent with
    | none => exact (clean_declaration _ _).1 h
    | some use => exact (clean_declaration _ _).1 ((clean_append _ _).1 h).1
  | _ => cases hname

theorem legal_of_clean (hsettled : ∀ s ∈ program, (Node.stmt s).Every Node.Settled)
    (h : ∀ p n, Occurs program p n → Clean (ownAt globals p n)) : Legal globals program := by
  have hnames := (distinct_iff globals hsettled).1
    ⟨fun p s hs name hname => clean_of_declares hs.admits hname (h _ _ hs),
      fun p role f hf => (clean_function_iff p role f).1 (h _ _ hf)⟩
  exact
    { returns_in_function := fun p line value hn => ((clean_return_iff p line value).1 (h _ _ hn)).1
      initializers_return_nothing := fun p line value hn =>
        ((clean_return_iff p line (some value)).1 (h _ _ hn)).2 rfl
      this_in_method := fun p id line hn => (clean_this_iff p id line).1 (h _ _ hn)
      parent_in_subclass := fun p id keyword method hn =>
        (clean_parent_iff p id keyword method).1 (h _ _ hn)
      no_self_inheritance := fun p name parent methods hn =>
        (clean_ite_violation _ _).1 ((clean_append _ _).1 (h _ _ hn)).2
      block_names := hnames.1
      function_names := hnames.2
      own_initializer := fun p name use hn heq => by
        by_contra hnew
        have hp : p.InSuite := by
          rcases hn.admits with hp | ⟨q, other, hq, hp | hp⟩
          · exact hp.elim
          · cases hp; exact hq
          · cases hp
        have := (clean_read _ _).1 (h _ _ hn)
        rw [(Place.uninitialized_initializer_iff hp name use.name.text).2 ⟨heq, hnew⟩] at this
        cases this }

theorem clean_of_legal (hsettled : ∀ s ∈ program, (Node.stmt s).Every Node.Settled) (h : Legal globals program)
    (p : Place) (n : Node) (hn : Occurs program p n) : Clean (ownAt globals p n) := by
  obtain ⟨hdistinct, hparams⟩ := (distinct_iff globals hsettled).2 ⟨h.block_names, h.function_names⟩
  have hdeclares {s : Stmt} {name : Name} (hs : Occurs program p (.stmt s))
      (hname : s.declaredName? = some name.text) :
      Clean ((p.scopes (Resolution.knownGlobals globals)).declaration name) := by
    rw [clean_declaration, Place.redeclares_iff hs.admits]
    exact hdistinct p s hs _ hname
  rcases n with e | s | ⟨role, f⟩
  · cases e with
    | «variable» use =>
      refine (clean_read _ _).2 ?_
      rcases hn.admits with hp | ⟨q, name, hq, rfl | rfl⟩
      · exact Place.not_uninitialized hp _
      · rw [← Bool.not_eq_true, Place.uninitialized_initializer_iff hq]
        exact fun ⟨heq, hnew⟩ => hnew (h.own_initializer q name use hn heq)
      · exact Place.not_uninitialized_named hq name _
    | assign target value => exact clean_locate _ _ _
    | this id line => exact (clean_this_iff p id line).2 (h.this_in_method p id line hn)
    | parent id keyword method =>
      exact (clean_parent_iff p id keyword method).2 (h.parent_in_subclass p id keyword method hn)
    | _ => exact clean_nil
  · cases s with
    | var name value => exact hdeclares hn rfl
    | function name f => exact hdeclares hn rfl
    | «class» name parent methods =>
      cases parent with
      | none => exact hdeclares hn rfl
      | some use =>
        refine (clean_append _ _).2 ⟨hdeclares hn rfl, (clean_ite_violation _ _).2 ?_⟩
        exact h.no_self_inheritance p name use methods hn
    | «return» line value =>
      refine (clean_return_iff p line value).2 ⟨h.returns_in_function p line value hn, fun hvalue => ?_⟩
      obtain ⟨e, rfl⟩ := Option.isSome_iff_exists.1 hvalue
      exact h.initializers_return_nothing p line e hn
    | _ => exact clean_nil
  · exact (clean_function_iff p role f).2 (hparams p role f hn)

theorem errors_eq_nil_iff_legal (hsettled : ∀ s ∈ program, (Node.stmt s).Every Node.Settled) :
    (Resolution.ofProgram (Resolution.knownGlobals globals) program).errors = [] ↔ Legal globals program := by
  rw [errors_eq_nil_iff_own]
  exact ⟨legal_of_clean hsettled, clean_of_legal hsettled⟩

/-- A resolver accepts exactly the legal programs among those that the parser builds, and finds violations in all
others. -/
theorem Parse.resolves_iff_legal (firstId : NodeId) (tokens : List Token) (globals : List String) :
    (∃ table, ((Resolver.new globals).resolve (ofTokens firstId tokens).statements).1 = .ok table) ↔
      Legal globals (ofTokens firstId tokens).statements := by
  rw [← errors_eq_nil_iff_legal (ofTokens_sound firstId tokens).settled, Resolver.new, Resolver.resolve_atTop]
  simp [Resolution.answer_eq_ok]

end Accepted

end TreeWalk
