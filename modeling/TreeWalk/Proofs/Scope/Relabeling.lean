import TreeWalk.Proofs.Scope.Legality
import TreeWalk.Proofs.Syntax.Relabeling

/-!
# Resolution of relabelled programs

On other lines and with other ids the same is found in a program. With more names at top level, a program without
violations has none either, and its references have the same distances.
-/

namespace TreeWalk

theorem Stmt.names_relabel (r : Relabeling) : (statement : Stmt) → (statement.relabel r).names = statement.names
  | .var _ none | .var _ (some _) | .function .. | .class .. => rfl
  | .branch _ thenBranch none => thenBranch.names_relabel r
  | .branch _ thenBranch (some elseBranch) =>
    congrArg₂ (· ++ ·) (thenBranch.names_relabel r) (elseBranch.names_relabel r)
  | .loop _ body none | .loop _ body (some _) => body.names_relabel r
  | .expression _ | .print .. | .block _ | .break _ | .continue _ | .return _ none | .return _ (some _) | .empty => rfl

namespace Scopes

variable {more : Prop} {s s' : Scopes}

/-- The second scopes may have more names at top level, and more of them initialized, if that is allowed. -/
structure Widens (more : Prop) (s s' : Scopes) : Prop where
  same : ¬more → s' = s
  locals : s'.locals = s.locals
  contains : ∀ name, s.globals.contains name = true → s'.globals.contains name = true
  uninitialized : ∀ name, s'.globals.get? name = some false → s.globals.get? name = some false

namespace Widens

/-- What changes a local scope changes the innermost one of both in the same way. -/
theorem updateInnermost (h : s.Widens more s') {f : Bindings Bool → Bindings Bool}
    (hcontains : ∀ name, (f s.globals).contains name = true → (f s'.globals).contains name = true)
    (huninitialized : ∀ name, (f s'.globals).get? name = some false → (f s.globals).get? name = some false) :
    (s.updateInnermost f).Widens more (s'.updateInnermost f) := by
  have hsame := fun hmore => congrArg (Scopes.updateInnermost · f) (h.same hmore)
  obtain ⟨locals, globals⟩ := s
  obtain ⟨locals', globals'⟩ := s'
  obtain rfl : locals' = locals := h.locals
  cases locals' with
  | nil => exact ⟨hsame, rfl, hcontains, huninitialized⟩
  | cons scope outer => exact ⟨hsame, rfl, h.contains, h.uninitialized⟩

theorem enter (h : s.Widens more s') : s.enter.Widens more s'.enter :=
  ⟨fun hmore => congrArg Scopes.enter (h.same hmore), congrArg (Bindings.empty :: ·) h.locals, h.contains, h.uninitialized⟩

theorem define (h : s.Widens more s') (name : String) : (s.define name).Widens more (s'.define name) := by
  refine h.updateInnermost (fun other hother => ?_) fun other hother => ?_
  · rw [Bindings.contains, Bindings.get?_set] at hother ⊢
    split
    · rfl
    case isFalse hne =>
      rw [if_neg hne] at hother
      exact h.contains other hother
  · rw [Bindings.get?_set] at hother ⊢
    split at hother
    · cases hother
    case isFalse hne =>
      rw [if_neg hne]
      exact h.uninitialized other hother

theorem declare (h : s.Widens more s') (name : String) : (s.declare name).Widens more (s'.declare name) := by
  by_cases hold : s.globals.contains name = true
  · refine h.updateInnermost (fun other => ?_) fun other => ?_ <;> rw [if_pos hold, if_pos (h.contains name hold)]
    · exact h.contains other
    · exact h.uninitialized other
  · have hnew : s.globals.get? name = none := by simpa [Bindings.contains] using hold
    refine h.updateInnermost (fun other hother => ?_) fun other hother => ?_ <;> rw [if_neg hold] at *
    · rw [Bindings.contains, Bindings.get?_set] at hother
      by_cases hname : other = name
      · subst hname
        split
        · assumption
        · simp [Bindings.contains, Bindings.get?_set]
      · rw [if_neg hname] at hother
        have hkept := h.contains other hother
        split
        · exact hkept
        · rwa [Bindings.contains, Bindings.get?_set, if_neg hname]
    · rw [Bindings.get?_set]
      split
      · rfl
      case isFalse hname =>
        refine h.uninitialized other ?_
        split at hother
        · exact hother
        · rwa [Bindings.get?_set, if_neg hname] at hother

theorem foldl_define (h : s.Widens more s') (names : List String) :
    (names.foldl Scopes.define s).Widens more (names.foldl Scopes.define s') := by
  induction names generalizing s s' with
  | nil => exact h
  | cons name rest ih => exact ih (h.define name)

theorem defineAll (h : s.Widens more s') (names : List Name) : (s.defineAll names).Widens more (s'.defineAll names) := by
  rw [defineAll_eq, defineAll_eq]
  exact h.foldl_define _

theorem declared (h : s.Widens more s') (statement : Stmt) (r : Relabeling) :
    (statement.declared s).Widens more ((statement.relabel r).declared s') := by
  rw [Stmt.declared_eq, Stmt.declared_eq, Stmt.names_relabel]
  exact h.foldl_define _

theorem distance? (h : s.Widens more s') (name : String) : s'.distance? name = s.distance? name := by
  unfold Scopes.distance?
  rw [h.locals]

theorem redeclares (h : s.Widens more s') (name : String) : s'.redeclares name = s.redeclares name := by
  unfold Scopes.redeclares
  rw [h.locals]

theorem not_uninitialized (h : s.Widens more s') {name : String} (hname : more → s.uninitialized name = false) :
    s'.uninitialized name = s.uninitialized name := by
  by_cases hmore : more
  case neg => rw [h.same hmore]
  replace hname := hname hmore
  rw [hname]
  obtain ⟨locals, globals⟩ := s
  obtain ⟨locals', globals'⟩ := s'
  obtain rfl : locals' = locals := h.locals
  cases locals' with
  | nil =>
    by_contra hnot
    have hglobal : globals'.get? name = some false := by simpa [Scopes.uninitialized, innermost] using hnot
    have hold : globals.get? name = some false := h.uninitialized name hglobal
    simp [Scopes.uninitialized, innermost, hold] at hname
  | cons scope outer => exact hname

end Widens

end Scopes

/-! ## Findings -/

def Finding.relabel (r : Relabeling) : Finding → Finding
  | .distance id name d => .distance (r.id id) name d
  | .violation e => .violation { e with place := e.place.relabel r }

section Findings

variable {r : Relabeling} {more : Prop} {s s' : Scopes}

theorem locate_relabel (h : s.Widens more s') (id : NodeId) (name : String) :
    s'.locate (r.id id) name = (s.locate id name).map (Finding.relabel r) := by
  unfold Scopes.locate
  rw [h.distance?]
  cases s.distance? name <;> rfl

theorem declaration_relabel (h : s.Widens more s') (name : Name) :
    s'.declaration (name.relabel r) = (s.declaration name).map (Finding.relabel r) := by
  unfold Scopes.declaration
  rw [Name.relabel_text, h.redeclares]
  split <;> rfl

theorem declarations_relabel (h : s.Widens more s') (names : List Name) :
    s'.declarations (names.map (Name.relabel r)) = (s.declarations names).map (Finding.relabel r) := by
  induction names generalizing s s' with
  | nil => rfl
  | cons name rest ih =>
    rw [List.map_cons, Scopes.declarations, Scopes.declarations, List.map_append, declaration_relabel h,
      Name.relabel_text, ih (h.define name.text)]

theorem read_relabel (h : s.Widens more s') {use : Reference} (hclean : more → Clean (s.read use)) :
    s'.read (use.relabel r) = (s.read use).map (Finding.relabel r) := by
  have hinitialized := h.not_uninitialized fun hmore => (clean_read s use).1 (hclean hmore)
  rw [Scopes.read, Reference.relabel_name, Name.relabel_text, hinitialized, Reference.relabel_id, locate_relabel h,
    Scopes.read, List.map_append]
  cases s.uninitialized use.name.text <;> rfl

theorem defineAll_relabel (s : Scopes) (names : List Name) : s.defineAll (names.map (Name.relabel r)) = s.defineAll names :=
  List.foldl_map

mutual

theorem Expr.findings_relabel {s s' : Scopes} (h : s.Widens more s') (around : Surroundings) : (e : Expr) → (more → Clean (e.findings around s)) →
    (e.relabel r).findings around s' = (e.findings around s).map (Finding.relabel r)
  | .literal _, _ => rfl
  | .variable _, hclean => read_relabel h hclean
  | .assign target value, hclean => by
    simp only [Expr.findings, clean_append, imp_and] at hclean
    simp [Expr.relabel, Expr.findings, value.findings_relabel h around hclean.1, locate_relabel h]
  | .group inner, hclean => inner.findings_relabel h around hclean
  | .unary _ operand, hclean => operand.findings_relabel h around hclean
  | .binary left _ right, hclean => by
    simp only [Expr.findings, clean_append, imp_and] at hclean
    simp [Expr.relabel, Expr.findings, left.findings_relabel h around hclean.1, right.findings_relabel h around hclean.2]
  | .logical left _ right, hclean => by
    simp only [Expr.findings, clean_append, imp_and] at hclean
    simp [Expr.relabel, Expr.findings, left.findings_relabel h around hclean.1, right.findings_relabel h around hclean.2]
  | .conditional condition thenBranch elseBranch, hclean => by
    simp only [Expr.findings, clean_append, imp_and] at hclean
    simp [Expr.relabel, Expr.findings, condition.findings_relabel h around hclean.1.1,
      thenBranch.findings_relabel h around hclean.1.2, elseBranch.findings_relabel h around hclean.2]
  | .call callee _ arguments, hclean => by
    simp only [Expr.findings, clean_append, imp_and] at hclean
    rw [Expr.relabel, Expr.findings, Expr.findings, List.map_append, callee.findings_relabel h around hclean.1,
      Expr.findingsAll_relabel h around arguments hclean.2]
  | .get object _, hclean => object.findings_relabel h around hclean
  | .set object _ value, hclean => by
    simp only [Expr.findings, clean_append, imp_and] at hclean
    simp [Expr.relabel, Expr.findings, object.findings_relabel h around hclean.2, value.findings_relabel h around hclean.1]
  | .this id line, _ => by
    simp only [Expr.relabel, Expr.findings]
    split
    · rfl
    · exact locate_relabel h id receiverName
  | .parent id keyword method, _ => by
    simp only [Expr.relabel, Expr.findings]
    split
    · rfl
    · rfl
    · exact locate_relabel h id parentName
  | .lambda f, hclean => f.findings_relabel h around .function hclean
  | .list _ elements, hclean => Expr.findingsAll_relabel h around elements hclean
  | .index object _ position, hclean => by
    simp only [Expr.findings, clean_append, imp_and] at hclean
    simp [Expr.relabel, Expr.findings, object.findings_relabel h around hclean.1, position.findings_relabel h around hclean.2]

theorem Expr.findingsAll_relabel {s s' : Scopes} (h : s.Widens more s') (around : Surroundings) : (es : List Expr) →
    (more → Clean (Expr.findingsAll around s es)) →
    Expr.findingsAll around s' (Expr.relabelAll r es) = (Expr.findingsAll around s es).map (Finding.relabel r)
  | [], _ => rfl
  | e :: rest, hclean => by
    simp only [Expr.findingsAll, clean_append, imp_and] at hclean
    rw [Expr.relabelAll, Expr.findingsAll, Expr.findingsAll, List.map_append, e.findings_relabel h around hclean.1,
      Expr.findingsAll_relabel h around rest hclean.2]

theorem Stmt.findings_relabel {s s' : Scopes} (h : s.Widens more s') (around : Surroundings) : (statement : Stmt) →
    (more → Clean (statement.findings around s)) →
    (statement.relabel r).findings around s' = (statement.findings around s).map (Finding.relabel r)
  | .expression value, hclean => value.findings_relabel h around hclean
  | .print _ value, hclean => value.findings_relabel h around hclean
  | .var name none, _ => declaration_relabel h name
  | .var name (some initializer), hclean => by
    simp only [Stmt.findings, clean_append, imp_and] at hclean
    simp [Stmt.relabel, Stmt.findings, declaration_relabel h,
      initializer.findings_relabel (h.declare name.text) around hclean.2]
  | .block body, hclean => Stmt.findingsAll_relabel h.enter around body hclean
  | .branch condition thenBranch none, hclean => by
    simp only [Stmt.findings, clean_append, imp_and] at hclean
    simp [Stmt.relabel, Stmt.findings, condition.findings_relabel h around hclean.1,
      thenBranch.findings_relabel h around hclean.2]
  | .branch condition thenBranch (some elseBranch), hclean => by
    simp only [Stmt.findings, clean_append, imp_and] at hclean
    simp [Stmt.relabel, Stmt.findings, condition.findings_relabel h around hclean.1.1,
      thenBranch.findings_relabel h around hclean.1.2,
      elseBranch.findings_relabel (h.declared thenBranch r) around hclean.2]
  | .loop condition body none, hclean => by
    simp only [Stmt.findings, clean_append, imp_and] at hclean
    simp [Stmt.relabel, Stmt.findings, condition.findings_relabel h around hclean.1, body.findings_relabel h around hclean.2]
  | .loop condition body (some increment), hclean => by
    simp only [Stmt.findings, clean_append, imp_and] at hclean
    simp [Stmt.relabel, Stmt.findings, condition.findings_relabel h around hclean.1.1,
      body.findings_relabel h around hclean.1.2, increment.findings_relabel (h.declared body r) around hclean.2]
  | .break _, _ => rfl
  | .continue _, _ => rfl
  | .return line none, _ => by
    simp only [Stmt.relabel, Stmt.findings]
    split <;> rfl
  | .return line (some value), hclean => by
    simp only [Stmt.findings, clean_append, imp_and] at hclean
    simp only [Stmt.relabel, Stmt.findings, List.map_append, value.findings_relabel h around hclean.2]
    congr 1
    split <;> rfl
  | .function name f, hclean => by
    simp only [Stmt.findings, clean_append, imp_and] at hclean
    simp [Stmt.relabel, Stmt.findings, declaration_relabel h,
      f.findings_relabel (h.define name.text) around .function hclean.2]
  | .class name none methods, hclean => by
    simp only [Stmt.findings, clean_append, imp_and] at hclean
    have hmethods := Method.findingsAll_relabel ((h.define name.text).enter.define receiverName)
      { around with inClass := some .plain } methods hclean.2
    rw [Stmt.relabel, Stmt.findings, Option.map_none, Stmt.findings, List.map_append, declaration_relabel h,
      Name.relabel_text, hmethods]
  | .class name (some parent) methods, hclean => by
    simp only [Stmt.findings, clean_append, imp_and] at hclean
    have hread := read_relabel (r := r) (h.define name.text) hclean.1.2
    have hmethods := Method.findingsAll_relabel (((h.define name.text).enter.define parentName).enter.define receiverName)
      { around with inClass := some .withParent } methods hclean.2
    rw [Stmt.relabel, Option.map_some, Stmt.findings, Stmt.findings, Name.relabel_text, hread, hmethods,
      declaration_relabel h, Reference.relabel_name, Name.relabel_text, List.map_append, List.map_append, List.map_append]
    split <;> rfl
  | .empty, _ => rfl

theorem Stmt.findingsAll_relabel {s s' : Scopes} (h : s.Widens more s') (around : Surroundings) : (statements : List Stmt) →
    (more → Clean (Stmt.findingsAll around s statements)) →
    Stmt.findingsAll around s' (Stmt.relabelAll r statements) =
      (Stmt.findingsAll around s statements).map (Finding.relabel r)
  | [], _ => rfl
  | statement :: rest, hclean => by
    simp only [Stmt.findingsAll, clean_append, imp_and] at hclean
    rw [Stmt.relabelAll, Stmt.findingsAll, Stmt.findingsAll, List.map_append,
      statement.findings_relabel h around hclean.1, Stmt.findingsAll_relabel (h.declared statement r) around rest hclean.2]

theorem Function.findings_relabel {s s' : Scopes} (h : s.Widens more s') (around : Surroundings) (role : FunctionRole) : (f : Function) →
    (more → Clean (f.findings around s role)) →
    (f.relabel r).findings around s' role = (f.findings around s role).map (Finding.relabel r)
  | .mk params body, hclean => by
    simp only [Function.findings, clean_append, imp_and] at hclean
    rw [Function.relabel, Function.findings, Function.findings, List.map_append, declarations_relabel h.enter,
      defineAll_relabel, Stmt.findingsAll_relabel (h.enter.defineAll params) _ body hclean.2]

theorem Method.findingsAll_relabel {s s' : Scopes} (h : s.Widens more s') (around : Surroundings) : (methods : List Method) →
    (more → Clean (Method.findingsAll around s methods)) →
    Method.findingsAll around s' (Method.relabelAll r methods) =
      (Method.findingsAll around s methods).map (Finding.relabel r)
  | [], _ => rfl
  | .mk name f :: rest, hclean => by
    simp only [Method.findingsAll, clean_append, imp_and] at hclean
    have hrole : methodRole (name.relabel r) = methodRole name := rfl
    rw [Method.relabelAll, Method.findingsAll, Method.findingsAll, List.map_append, hrole,
      f.findings_relabel h around _ hclean.1, Method.findingsAll_relabel h around rest hclean.2]

end

end Findings

/-! ## Programs in a row -/

theorem findingsAll_append (around : Surroundings) (s : Scopes) (program others : List Stmt) :
    Stmt.findingsAll around s (program ++ others) =
      Stmt.findingsAll around s program ++ Stmt.findingsAll around (Stmt.declaredAll s program) others := by
  induction program generalizing s with
  | nil => rfl
  | cons statement rest ih =>
    rw [List.cons_append, Stmt.findingsAll, Stmt.findingsAll, ih, List.append_assoc]
    rfl

/-- The distances are those that have been found on other lines. -/
theorem map_relabel_of_clean {findings : List Finding} (h : Clean findings) (line : Nat → Nat) :
    findings.map (Finding.relabel (.onLines line)) = findings := by
  refine (List.map_congr_left fun finding hmem => ?_).trans (List.map_id _)
  cases finding with
  | distance => rfl
  | violation e => exact absurd hmem (h e)

/-- Behind a program that declares them, names are known as well as behind a run that has bound them. -/
theorem widens_declaredAll {names names' : List String} {program : List Stmt}
    (h : ∀ name ∈ names', name ∈ names ∨ name ∈ Stmt.namesAll program) :
    (Scopes.ofGlobals (Resolution.knownGlobals names')).Widens True
      (Stmt.declaredAll (.ofGlobals (Resolution.knownGlobals names)) program) := by
  have hlocals : (Stmt.declaredAll (.ofGlobals (Resolution.knownGlobals names)) program).locals = [] :=
    (Scopes.locals_declaredAll_eq_nil _ program).2 rfl
  have hget (name : String) :
      (Stmt.declaredAll (.ofGlobals (Resolution.knownGlobals names)) program).globals.get? name =
        if name ∈ Stmt.namesAll program then some true else if name ∈ names then some true else none := by
    have hinnermost := Scopes.get?_innermost_declaredAll (.ofGlobals (Resolution.knownGlobals names)) program name
    rw [Scopes.innermost, hlocals] at hinnermost
    refine hinnermost.trans ?_
    rw [Scopes.innermost, Scopes.ofGlobals, List.head?_nil, Option.getD_none, get?_knownGlobals]
  refine ⟨fun hnot => absurd trivial hnot, hlocals, fun name hname => ?_, fun name hname => ?_⟩
  · have hmem : name ∈ names' := by
      by_contra hnot
      simp [Scopes.ofGlobals, Bindings.contains, get?_knownGlobals, hnot] at hname
    rw [Bindings.contains, hget]
    rcases h name hmem with hold | hnew
    · simp only [hold, if_true]
      split <;> rfl
    · simp [hnew]
  · rw [hget] at hname
    split at hname
    · cases hname
    · split at hname <;> cases hname

/-- A program behind another one is resolved as it is after a run of that one. -/
theorem Resolution.findings_append {names names' : List String} {program others : List Stmt}
    (hnames : ∀ name ∈ names', name ∈ names ∨ name ∈ Stmt.namesAll program)
    (hclean : (ofProgram (knownGlobals names') others).errors = []) (line : Nat → Nat) :
    (ofProgram (knownGlobals names) (program ++ others.map (Stmt.relabel (.onLines line)))).findings =
      (ofProgram (knownGlobals names) program).findings ++ (ofProgram (knownGlobals names') others).findings := by
  have hclean : Clean (Stmt.findingsAll ⟨none, none⟩ (.ofGlobals (knownGlobals names')) others) :=
    (errors_eq_nil_iff_clean _).1 hclean
  rw [ofProgram, findingsAll_append, ← Stmt.relabelAll_eq,
    Stmt.findingsAll_relabel (widens_declaredAll hnames) _ others fun _ => hclean, map_relabel_of_clean hclean]
  rfl

end TreeWalk
