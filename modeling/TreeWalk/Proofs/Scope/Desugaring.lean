import TreeWalk.Proofs.Evaluation.World
import TreeWalk.Proofs.Scope.Distances
import TreeWalk.Proofs.Syntax.Desugaring

/-!
# Resolving loops without their increments

The scopes that a program gets when loops are written without their increments are empty. So nothing is found
there that was not found before, and all that is found lies as many scopes further out as have been added on the way.
-/

namespace TreeWalk

/-! ## Paddings -/

/-- The distance in the second program of what has such a distance in the first one. -/
def Padding.shift : Padding → Nat → Nat
  | [], distance => distance
  | .shared :: _, 0 => 0
  | .shared :: π, distance + 1 => shift π distance + 1
  | .added :: π, distance => shift π distance + 1

theorem Padding.shift_whole (scopes distance : Nat) : (Padding.whole scopes).shift distance = distance := by
  induction scopes generalizing distance with
  | zero => rfl
  | succ scopes ih =>
    cases distance with
    | zero => rfl
    | succ distance => exact congrArg (· + 1) (ih distance)

/-- Where declarations take effect is the innermost scope of both programs. -/
theorem Padding.shift_zero {π : Padding} (h : π.Open) : π.shift 0 = 0 := by
  cases π with
  | nil => rfl
  | cons layer π =>
    cases layer with
    | shared => rfl
    | added => exact absurd rfl h

/-- The scope at this distance has the same scope directly inside, or none, in both programs. -/
def Padding.Adjoins (π : Padding) : Nat → Prop
  | 0 => shift π 0 = 0
  | inner + 1 => shift π (inner + 1) = shift π inner + 1

theorem Padding.adjoins_whole (scopes : Nat) : ∀ distance, (Padding.whole scopes).Adjoins distance
  | 0 => shift_whole scopes 0
  | inner + 1 => (shift_whole scopes (inner + 1)).trans (congrArg (· + 1) (shift_whole scopes inner).symm)

/-- Scopes of two programs around a place, of which those are empty that the first one does not have. They are
added inside of scopes of a certain kind only. -/
inductive Pads (may : Bindings Bool → Prop) : Padding → List (Bindings Bool) → List (Bindings Bool) → Prop where
  | nil : Pads may [] [] []
  | shared {π : Padding} {scopes scopes' : List (Bindings Bool)} (scope : Bindings Bool) (h : Pads may π scopes scopes') :
    Pads may (.shared :: π) (scope :: scopes) (scope :: scopes')
  | added {π : Padding} {scopes scopes' : List (Bindings Bool)} (h : Pads may π scopes scopes')
    (hmay : ∀ scope ∈ scopes.head?, may scope) : Pads may (.added :: π) scopes (.empty :: scopes')

namespace Pads

variable {may : Bindings Bool → Prop} {π : Padding} {scopes scopes' : List (Bindings Bool)}

theorem findIdx? {find : Bindings Bool → Bool} (hempty : find .empty = false) (h : Pads may π scopes scopes') :
    scopes'.findIdx? find = (scopes.findIdx? find).map (Padding.shift π) := by
  induction h with
  | nil => rfl
  | @shared π _ _ scope _ ih =>
    rw [List.findIdx?_cons, List.findIdx?_cons, ih]
    cases find scope with
    | true => rfl
    | false => simp [Function.comp_def, Padding.shift]
  | added _ _ ih =>
    rw [List.findIdx?_cons, hempty, ih]
    simp [Function.comp_def, Padding.shift]

/-- Inside of what is found no scopes are added that lie directly at it. -/
theorem adjoins {find : Bindings Bool → Bool} (h : Pads (fun scope => find scope = false) π scopes scopes') {distance : Nat}
    (hfound : scopes.findIdx? find = some distance) : Padding.Adjoins π distance := by
  -- A scope that is found at once has none added inside.
  have hnow {π : Padding} {scopes scopes' : List (Bindings Bool)}
      (h : Pads (fun scope => find scope = false) π scopes scopes') (hfound : scopes.findIdx? find = some 0) :
      Padding.shift π 0 = 0 := by
    obtain ⟨hlength, hfind, -⟩ := List.findIdx?_eq_some_iff_getElem.1 hfound
    cases h with
    | nil => cases hfound
    | shared scope h => rfl
    | added h hmay =>
      have hhead := hmay _ (List.head?_eq_getElem? ▸ List.getElem?_eq_getElem hlength)
      rw [hhead] at hfind
      cases hfind
  cases distance with
  | zero => exact hnow h hfound
  | succ inner =>
    show Padding.shift π (inner + 1) = Padding.shift π inner + 1
    induction h generalizing inner with
    | nil => cases hfound
    | @shared π outer outer' scope h ih =>
      rw [List.findIdx?_cons] at hfound
      have hfound : outer.findIdx? find = some inner := by
        cases hscope : find scope with
        | true => simp [hscope] at hfound
        | false => simpa [hscope] using hfound
      cases inner with
      | zero => exact congrArg (· + 1) (hnow h hfound)
      | succ inner => exact congrArg (· + 1) (ih inner hfound)
    | added _ _ ih => exact congrArg (· + 1) (ih inner hfound)

end Pads

namespace Scopes

/-- The scopes with which resolution comes to places of two programs. -/
structure Padded (may : Bindings Bool → Prop) (π : Padding) (s s' : Scopes) : Prop where
  locals : Pads may π s.locals s'.locals
  globals : s'.globals = s.globals

variable {may : Bindings Bool → Prop} {π : Padding} {s s' : Scopes}

namespace Padded

theorem enter (h : Padded may π s s') : Padded may (.shared :: π) s.enter s'.enter := ⟨.shared .empty h.locals, h.globals⟩

theorem added (h : Padded may π s s') (hmay : ∀ scope ∈ s.locals.head?, may scope) :
    Padded may (.added :: π) s s'.enter := ⟨.added h.locals hmay, h.globals⟩

theorem updateInnermost (h : Padded may π s s') (hopen : π.Open) (f : Bindings Bool → Bindings Bool) :
    Padded may π (s.updateInnermost f) (s'.updateInnermost f) := by
  obtain ⟨locals, globals⟩ := s
  obtain ⟨locals', globals'⟩ := s'
  obtain ⟨hlocals, hglobals⟩ := h
  cases hlocals with
  | nil => exact ⟨.nil, congrArg f hglobals⟩
  | shared scope h => exact ⟨.shared (f scope) h, hglobals⟩
  | added h hmay => exact absurd rfl hopen

theorem define (h : Padded may π s s') (hopen : π.Open) {name name' : String} (hname : name' = name) :
    Padded may π (s.define name) (s'.define name') := hname ▸ h.updateInnermost hopen _

theorem declare (h : Padded may π s s') (hopen : π.Open) {name name' : String} (hname : name' = name) :
    Padded may π (s.declare name) (s'.declare name') := hname ▸ h.updateInnermost hopen _

theorem foldl_define (h : Padded may π s s') (hopen : π.Open) (names : List String) :
    Padded may π (names.foldl Scopes.define s) (names.foldl Scopes.define s') := by
  induction names generalizing s s' with
  | nil => exact h
  | cons name rest ih => exact ih (h.define hopen rfl)

theorem defineAll (h : Padded may π s s') (hopen : π.Open) {names names' : List Name}
    (hnames : names'.map (·.text) = names.map (·.text)) : Padded may π (s.defineAll names) (s'.defineAll names') := by
  rw [defineAll_eq, defineAll_eq, hnames]
  exact h.foldl_define hopen _

theorem declared (h : Padded may π s s') {k : Pairing} {statement statement' : Stmt}
    (hstatement : statement.Desugars k π statement') : Padded may π (statement.declared s) (statement'.declared s') := by
  rw [Stmt.declared_eq, Stmt.declared_eq, hstatement.names]
  by_cases hopen : π.Open
  · exact h.foldl_define hopen _
  · rw [hstatement.nameless hopen]
    exact h

theorem distance? (h : Padded may π s s') (name : String) : s'.distance? name = (s.distance? name).map (Padding.shift π) :=
  h.locals.findIdx? rfl

theorem uninitialized (h : Padded may π s s') {name : String} (hs : s.uninitialized name = false) :
    s'.uninitialized name = false := by
  obtain ⟨locals, globals⟩ := s
  obtain ⟨locals', globals'⟩ := s'
  obtain ⟨hlocals, rfl⟩ := h
  cases hlocals with
  | nil => exact hs
  | shared scope h => exact hs
  | added h hmay => rfl

theorem redeclares (h : Padded may π s s') (hopen : π.Open) (name : String) : s'.redeclares name = s.redeclares name := by
  obtain ⟨locals, globals⟩ := s
  obtain ⟨locals', globals'⟩ := s'
  obtain ⟨hlocals, rfl⟩ := h
  cases hlocals with
  | nil => rfl
  | shared scope h => rfl
  | added h hmay => exact absurd rfl hopen

theorem clean_declaration (h : Padded may π s s') (hopen : π.Open) {name name' : Name} (hname : name'.text = name.text)
    (hclean : Clean (s.declaration name)) : Clean (s'.declaration name') := by
  rw [TreeWalk.clean_declaration] at hclean ⊢
  rwa [hname, h.redeclares hopen]

theorem clean_declarations (h : Padded may π s s') (hopen : π.Open) {names names' : List Name}
    (hnames : names'.map (·.text) = names.map (·.text)) (hclean : Clean (s.declarations names)) :
    Clean (s'.declarations names') := by
  induction names generalizing s s' names' with
  | nil =>
    obtain rfl := List.map_eq_nil_iff.1 hnames
    exact hclean
  | cons name rest ih =>
    obtain ⟨name', rest', rfl, hname, hrest⟩ := List.map_eq_cons_iff.1 hnames
    obtain ⟨hfirst, hclean⟩ := (clean_append _ _).1 hclean
    exact (clean_append _ _).2 ⟨h.clean_declaration hopen hname hfirst, ih (h.define hopen hname) hrest hclean⟩

theorem clean_read (h : Padded may π s s') {use use' : Reference} (hname : use'.name.text = use.name.text)
    (hclean : Clean (s.read use)) : Clean (s'.read use') := by
  rw [TreeWalk.clean_read] at hclean ⊢
  rw [hname]
  exact h.uninitialized hclean

end Padded

end Scopes

theorem methodRole_of_pairs {line : Nat → Nat → Prop} {name name' : Name} (h : name.Pairs line name') :
    methodRole name' = methodRole name := by
  rw [methodRole, h.text, methodRole]

/-! ## Violations -/

section Clean

open Scopes (Padded)

variable {k : Pairing}

/-- Scopes may be added anywhere. -/
def Anywhere (_ : Bindings Bool) : Prop := True

theorem Scopes.Padded.boxed {π : Padding} {s s' : Scopes} (h : Padded Anywhere π s s') : Padded Anywhere (.added :: π) s s'.enter :=
  h.added fun _ _ => trivial

mutual

/-- Where the first program has no violations the second one has none either. -/
theorem Expr.Desugars.clean {π : Padding} {e e' : Expr} {s s' : Scopes} {around : Surroundings} :
    e.Desugars k π e' → Padded Anywhere π s s' → Clean (e.findings around s) → Clean (e'.findings around s')
  | .literal _, _, _ => clean_nil
  | .variable huse, hs, h => hs.clean_read (k.names huse).text h
  | .assign _ hvalue, hs, h => (clean_append _ _).2 ⟨hvalue.clean hs ((clean_append _ _).1 h).1, clean_locate _ _ _⟩
  | .group hinner, hs, h => hinner.clean hs h
  | .unary _ hoperand, hs, h => hoperand.clean hs h
  | .binary hleft _ hright, hs, h | .logical hleft _ hright, hs, h =>
    have h := (clean_append _ _).1 h
    (clean_append _ _).2 ⟨hleft.clean hs h.1, hright.clean hs h.2⟩
  | .conditional hcondition hthen helse, hs, h =>
    have h := (clean_append _ _).1 h
    have h' := (clean_append _ _).1 h.1
    (clean_append _ _).2 ⟨(clean_append _ _).2 ⟨hcondition.clean hs h'.1, hthen.clean hs h'.2⟩, helse.clean hs h.2⟩
  | .call hcallee _ harguments, hs, h =>
    have h := (clean_append _ _).1 h
    (clean_append _ _).2 ⟨hcallee.clean hs h.1, harguments.clean hs h.2⟩
  | .get hobject _, hs, h => hobject.clean hs h
  | .set hobject _ hvalue, hs, h =>
    have h := (clean_append _ _).1 h
    (clean_append _ _).2 ⟨hvalue.clean hs h.1, hobject.clean hs h.2⟩
  | .this _, _, h => by
    unfold Expr.findings at h ⊢
    split at h
    · exact absurd h (clean_violation _ _)
    · exact clean_locate _ _ _
  | .parent _ _ _, _, h => by
    unfold Expr.findings at h ⊢
    split at h
    · exact absurd h (clean_violation _ _)
    · exact absurd h (clean_violation _ _)
    · exact clean_locate _ _ _
  | .lambda hf, hs, h => hf.clean hs h
  | .list _ helements, hs, h => helements.clean hs h
  | .index hobject _ hposition, hs, h =>
    have h := (clean_append _ _).1 h
    (clean_append _ _).2 ⟨hobject.clean hs h.1, hposition.clean hs h.2⟩

theorem Expr.DesugarsAll.clean {π : Padding} {es es' : List Expr} {s s' : Scopes} {around : Surroundings} :
    Expr.DesugarsAll k π es es' → Padded Anywhere π s s' → Clean (Expr.findingsAll around s es) →
      Clean (Expr.findingsAll around s' es')
  | .nil, _, _ => clean_nil
  | .cons he hrest, hs, h =>
    have h := (clean_append _ _).1 h
    (clean_append _ _).2 ⟨he.clean hs h.1, hrest.clean hs h.2⟩

theorem Stmt.Desugars.clean {π : Padding} {s₀ s₀' : Scopes} {statement statement' : Stmt} {around : Surroundings} :
    statement.Desugars k π statement' → Padded Anywhere π s₀ s₀' → Clean (statement.findings around s₀) →
      Clean (statement'.findings around s₀')
  | .expression hvalue, hs, h | .print hvalue, hs, h => hvalue.clean hs h
  | .declare hopen hname, hs, h => hs.clean_declaration hopen hname.text h
  | .var hopen hname hinitializer, hs, h =>
    have h := (clean_append _ _).1 h
    (clean_append _ _).2 ⟨hs.clean_declaration hopen hname.text h.1, hinitializer.clean (hs.declare hopen hname.text) h.2⟩
  | .block hbody, hs, h => hbody.clean hs.enter h
  | .branch hcondition hthen, hs, h =>
    have h := (clean_append _ _).1 h
    (clean_append _ _).2 ⟨hcondition.clean hs h.1, hthen.clean hs h.2⟩
  | .branches hcondition hthen helse, hs, h =>
    have h := (clean_append _ _).1 h
    have h' := (clean_append _ _).1 h.1
    (clean_append _ _).2 ⟨(clean_append _ _).2 ⟨hcondition.clean hs h'.1, hthen.clean hs h'.2⟩,
      helse.clean (hs.declared hthen) h.2⟩
  | .loop hcondition hbody, hs, h =>
    have h := (clean_append _ _).1 h
    (clean_append _ _).2 ⟨hcondition.clean hs h.1, hbody.clean hs h.2⟩
  | .counting hcondition hbody hincrement, hs, h =>
    have h := (clean_append _ _).1 h
    have h' := (clean_append _ _).1 h.1
    (clean_append _ _).2 ⟨(clean_append _ _).2 ⟨hcondition.clean hs h'.1, hbody.clean hs h'.2⟩,
      hincrement.clean (hs.declared hbody) h.2⟩
  | .written hcondition hbody hincrement _, hs, h => by
    have h := (clean_append _ _).1 h
    have h' := (clean_append _ _).1 h.1
    refine (clean_append _ _).2 ⟨hcondition.clean hs h'.1, (clean_append _ _).2 ⟨hbody.clean hs.boxed h'.2, ?_⟩⟩
    exact (clean_append _ _).2 ⟨hincrement.clean (hs.boxed.declared hbody) h.2, clean_nil⟩
  | .boxed hloop, hs, h => (clean_append _ _).2 ⟨hloop.clean hs.boxed h, clean_nil⟩
  | .break, _, _ | .continue, _, _ | .empty, _, _ => clean_nil
  | .leave, _, h => (clean_ite_violation _ _).2 ((clean_ite_violation _ _).1 h)
  | .return hvalue, hs, h => by
    obtain ⟨hplace, hvalue'⟩ := (clean_append _ _).1 h
    refine (clean_append _ _).2 ⟨?_, hvalue.clean hs hvalue'⟩
    split at hplace
    · exact absurd hplace (clean_violation _ _)
    · exact absurd hplace (clean_violation _ _)
    · exact clean_nil
  | .function hopen hname hf, hs, h =>
    have h := (clean_append _ _).1 h
    (clean_append _ _).2 ⟨hs.clean_declaration hopen hname.text h.1, hf.clean (hs.define hopen hname.text) h.2⟩
  | .class hopen hname hmethods, hs, h =>
    have h := (clean_append _ _).1 h
    have hinner := (hs.define hopen hname.text).enter.define nofun (rfl : receiverName = receiverName)
    (clean_append _ _).2 ⟨hs.clean_declaration hopen hname.text h.1, hmethods.clean hinner h.2⟩
  | .subclass hopen hname hparent hmethods, hs, h => by
    have h := (clean_append _ _).1 h
    have h' := (clean_append _ _).1 h.1
    have h'' := (clean_append _ _).1 h'.1
    have hnamed := hs.define hopen hname.text
    have hparents := hnamed.enter.define nofun (rfl : parentName = parentName)
    have hinner := hparents.enter.define nofun (rfl : receiverName = receiverName)
    refine (clean_append _ _).2 ⟨(clean_append _ _).2 ⟨(clean_append _ _).2 ⟨?_, ?_⟩, ?_⟩, hmethods.clean hinner h.2⟩
    · exact hs.clean_declaration hopen hname.text h''.1
    · rw [clean_ite_violation, (k.names hparent).text, hname.text]
      exact (clean_ite_violation _ _).1 h''.2
    · exact hnamed.clean_read (k.names hparent).text h'.2

theorem Stmt.DesugarsAll.clean {π : Padding} {s₀ s₀' : Scopes} {statements statements' : List Stmt} {around : Surroundings} :
    Stmt.DesugarsAll k π statements statements' → Padded Anywhere π s₀ s₀' →
      Clean (Stmt.findingsAll around s₀ statements) → Clean (Stmt.findingsAll around s₀' statements')
  | .nil, _, _ => clean_nil
  | .cons hs hrest, hscopes, h =>
    have h := (clean_append _ _).1 h
    (clean_append _ _).2 ⟨hs.clean hscopes h.1, hrest.clean (hscopes.declared hs) h.2⟩

theorem Function.Desugars.clean {π : Padding} {f f' : Function} {s s' : Scopes} {around : Surroundings} {role : FunctionRole} :
    f.Desugars k π f' → Padded Anywhere π s s' → Clean (f.findings around s role) → Clean (f'.findings around s' role)
  | .mk hparams hbody, hs, h =>
    have h := (clean_append _ _).1 h
    have hnames := Name.pairs_texts hparams
    (clean_append _ _).2 ⟨hs.enter.clean_declarations nofun hnames h.1,
      hbody.clean (hs.enter.defineAll nofun hnames) h.2⟩

theorem Method.DesugarsAll.clean {π : Padding} {methods methods' : List Method} {s s' : Scopes} {around : Surroundings} :
    Method.DesugarsAll k π methods methods' → Padded Anywhere π s s' →
      Clean (Method.findingsAll around s methods) → Clean (Method.findingsAll around s' methods')
  | .nil, _, _ => clean_nil
  | .cons hname hf hrest, hs, h => by
    have h := (clean_append _ _).1 h
    refine (clean_append _ _).2 ⟨?_, hrest.clean hs h.2⟩
    rw [methodRole_of_pairs hname]
    exact hf.clean hs h.1

end

end Clean

/-! ## Distances -/

/-- Asks of references that the second table has for each the distance of the first table, shifted. What is found
under the name of parent classes has the scope of their receivers directly inside. -/
def Pairing.tables (line : Nat → Nat → Prop) (before after : Distances) : Pairing where
  line := line
  use π use use' := use.name.Pairs line use'.name ∧ after[use'.id]? = before[use.id]?.map π.shift ∧
    (use.name.text = parentName → ∀ distance ∈ before[use.id]?, π.Adjoins distance)
  names := And.left

/-- Scopes are added directly inside of those only that are not the scope of a parent class. -/
def Fatherless (scope : Bindings Bool) : Prop := scope.contains parentName = false

namespace Place

/-- Places of two programs that are resolved with the same names at top level. -/
def Padded (globals : List String) (π : Padding) (p p' : Place) : Prop :=
  Scopes.Padded Fatherless π (p.scopes (Resolution.knownGlobals globals)) (p'.scopes (Resolution.knownGlobals globals))

variable {globals : List String} {π : Padding} {p p' : Place}

namespace Padded

theorem top (globals : List String) : Padded globals [] (.top []) (.top []) := ⟨.nil, rfl⟩

theorem block (h : Padded globals π p p') : Padded globals (.shared :: π) (.block p []) (.block p' []) :=
  Scopes.Padded.enter h

theorem initializer (h : Padded globals π p p') (hopen : π.Open) {name name' : Name} (hname : name'.text = name.text) :
    Padded globals π (.initializer p name) (.initializer p' name') := Scopes.Padded.declare h hopen hname

theorem named (h : Padded globals π p p') (hopen : π.Open) {name name' : Name} (hname : name'.text = name.text) :
    Padded globals π (.named p name) (.named p' name') := Scopes.Padded.define h hopen hname

theorem parent (h : Padded globals π p p') : Padded globals (.shared :: π) (.parent p) (.parent p') :=
  (Scopes.Padded.enter h).define nofun rfl

theorem receiver (h : Padded globals π p p') : Padded globals (.shared :: π) (.receiver p) (.receiver p') :=
  (Scopes.Padded.enter h).define nofun rfl

theorem function (h : Padded globals π p p') {params params' : List Name}
    (hparams : params'.map (·.text) = params.map (·.text)) (role role' : FunctionRole) :
    Padded globals (.shared :: π) (.function p role params []) (.function p' role' params' []) :=
  (Scopes.Padded.enter h).defineAll nofun hparams

/-- In suites nothing has the name of parent classes, and scopes may be added. -/
theorem added (h : Padded globals π p p') (hregular : p.Regular) (hp : p.InSuite) :
    Padded globals (.added :: π) p (.block p' []) := by
  refine Scopes.Padded.added h fun scope hscope => ?_
  have hinnermost : (p.scopes (Resolution.knownGlobals globals)).innermost = scope := by
    rw [Scopes.innermost, Option.mem_def.1 hscope, Option.getD_some]
  have hlocals : (p.scopes (Resolution.knownGlobals globals)).locals ≠ [] := fun hnil => by simp [hnil] at hscope
  have hlocal : p.Local := (locals_ne_nil_iff hp).1 hlocals
  have hget := @get?_innermost globals p hp parentName
  rw [hinnermost, if_neg fun hmem => not_isName_parent (hregular.isName_of_mem_namesBefore hlocal _ hmem)] at hget
  rw [Fatherless, Bindings.contains, hget, Option.isSome_none]

theorem past (h : Padded globals π p p') {k : Pairing} {s s' : Stmt} (hs : s.Desugars k π s') :
    Padded globals π (.past p s) (.past p' s') := Scopes.Padded.declared h hs

/-- What comes behind a body may stand at the end of a block. -/
theorem behind (h : Padded globals π p (.block p' [])) {k : Pairing} {s s' : Stmt} (hs : s.Desugars k π s') :
    Padded globals π (.past p s) (.block p' [s']) := Scopes.Padded.declared h hs

end Padded

end Place

theorem SuiteOf.scopes {program statements : List Stmt} {place : List Stmt → Place} (h : SuiteOf program place statements)
    (globals : Bindings Bool) (before : List Stmt) (s : Stmt) :
    (place (before ++ [s])).scopes globals = s.declared ((place before).scopes globals) := by
  cases h <;> simp [Place.scopes, Stmt.declaredAll]

/-- Statements behind statements that stand for each other. -/
theorem SuiteOf.padded_next {program program' statements statements' earlier earlier' : List Stmt}
    {place place' : List Stmt → Place} (h : SuiteOf program place statements) (h' : SuiteOf program' place' statements')
    {globals : List String} {k : Pairing} {π : Padding} {s s' : Stmt} (hp : (place earlier).Padded globals π (place' earlier'))
    (hs : s.Desugars k π s') : (place (earlier ++ [s])).Padded globals π (place' (earlier' ++ [s'])) := by
  unfold Place.Padded
  rw [h.scopes, h'.scopes]
  exact Scopes.Padded.declared hp hs

section Located

variable {line : Nat → Nat → Prop} {globals : List String} {program program' : List Stmt} {before after : Distances}

/-- Two programs, of which the first one may run, and tables with the distances of their references. -/
structure Tabled (globals : List String) (program program' : List Stmt) (before after : Distances) : Prop where
  runnable : Loaded.Runnable ⟨globals, program⟩
  located : Loaded.Located ⟨globals, program⟩ before
  located' : Loaded.Located ⟨globals, program'⟩ after

/-- Nodes that stand for each other in the two programs. -/
structure Opposite (globals : List String) (program program' : List Stmt) (π : Padding) (p p' : Place) (n n' : Node) :
    Prop where
  occurs : Occurs program p n
  occurs' : Occurs program' p' n'
  padded : p.Padded globals π p'

section Opposite

variable {p p' : Place} {π : Padding} {n n' : Node}

theorem Opposite.part (h : Opposite globals program program' π p p' n n') {m m' : Node}
    (hm : (p, m) ∈ n.parts p := by simp [Node.parts]) (hm' : (p', m') ∈ n'.parts p' := by simp [Node.parts]) :
    Opposite globals program program' π p p' m m' := ⟨h.occurs.part hm, h.occurs'.part hm', h.padded⟩

theorem Opposite.at (h : Opposite globals program program' π p p' n n') {q q' : Place} {m m' : Node} {π' : Padding}
    (hq : q.Padded globals π' q') (hm : (q, m) ∈ n.parts p := by simp [Node.parts])
    (hm' : (q', m') ∈ n'.parts p' := by simp [Node.parts]) : Opposite globals program program' π' q q' m m' :=
  ⟨h.occurs.part hm, h.occurs'.part hm', hq⟩

theorem Opposite.clause {name name' : Name} {parent parent' : Reference} {methods methods' : List Method}
    (h : Opposite globals program program' π p p' (.stmt (.class name (some parent) methods))
      (.stmt (.class name' (some parent') methods')))
    (hnamed : (Place.named p name).Padded globals π (.named p' name')) : Opposite globals program program' π (.named p name)
      (.named p' name') (.expr (.variable parent)) (.expr (.variable parent')) := h.at hnamed

namespace Tabled

theorem use (h : Tabled globals program program' before after) {use use' : Reference} (hname : use.name.Pairs line use'.name)
    (hn : Opposite globals program program' π p p' n n') (huse : use ∈ n.uses := by exact List.mem_singleton_self _)
    (huse' : use' ∈ n'.uses := by exact List.mem_singleton_self _) : (Pairing.tables line before after).use π use use' := by
  have hbefore := h.located p n hn.occurs use huse
  have hafter := h.located' p' n' hn.occurs' use' huse'
  refine ⟨hname, ?_, fun htext distance hdistance => ?_⟩
  · rw [hbefore, hafter, hname.text]
    exact Scopes.Padded.distance? hn.padded use.name.text
  · rw [hbefore, htext] at hdistance
    exact hn.padded.locals.adjoins hdistance

/-- Around a statement scopes may be added. -/
theorem added (h : Tabled globals program program' before after) {s : Stmt}
    (hn : Opposite globals program program' π p p' (.stmt s) n') : p.Padded globals (.added :: π) (.block p' []) :=
  hn.padded.added (hn.occurs.regular h.runnable.unreserved) hn.occurs.admits

/-- Body and increment, where the second one is written at the end of the body. -/
theorem written (h : Tabled globals program program' before after) {condition condition' increment increment' : Expr}
    {body body' : Stmt} (hn : Opposite globals program program' π p p' (.stmt (.loop condition body (some increment)))
      (.stmt (.loop condition' (.block [body', .expression increment']) none)))
    (hbody : body.Desugars (.onLines line) (.added :: π) body') :
    Opposite globals program program' (.added :: π) p (.block p' []) (.stmt body) (.stmt body') ∧
      Opposite globals program program' (.added :: π) (.past p body) (.block p' [body']) (.expr increment)
        (.expr increment') := by
  have hadded := h.added hn
  have hblock : Occurs program' p' (.stmt (.block [body', .expression increment'])) := hn.occurs'.part (by simp [Node.parts])
  have hlast : Occurs program' (.block p' [body']) (.stmt (.expression increment')) :=
    hblock.part (by simp [Node.parts, suite])
  exact ⟨⟨hn.occurs.part (by simp [Node.parts]), hblock.part (by simp [Node.parts, suite]), hadded⟩,
    hn.occurs.part (by simp [Node.parts]), hlast.part (by simp [Node.parts]), hadded.behind hbody⟩

end Tabled

end Opposite

mutual

/-- If nothing but names is asked of the references of two programs, what the tables say of them is right too. -/
theorem Expr.Desugars.located {π : Padding} {e e' : Expr} {p p' : Place} (h : Tabled globals program program' before after) :
    e.Desugars (.onLines line) π e' → Opposite globals program program' π p p' (.expr e) (.expr e') →
      e.Desugars (.tables line before after) π e'
  | .literal value, _ => .literal value
  | .variable huse, hn => .variable (h.use huse hn)
  | .assign htarget hvalue, hn => .assign (h.use htarget hn) (hvalue.located h hn.part)
  | .group hinner, hn => .group (hinner.located h hn.part)
  | .unary hop hoperand, hn => .unary ⟨hop.kind, hop.spelling, hop.line⟩ (hoperand.located h hn.part)
  | .binary hleft hop hright, hn => .binary (hleft.located h hn.part) hop (hright.located h hn.part)
  | .logical hleft hop hright, hn => .logical (hleft.located h hn.part) hop (hright.located h hn.part)
  | .conditional hcondition hthen helse, hn =>
    .conditional (hcondition.located h hn.part) (hthen.located h hn.part) (helse.located h hn.part)
  | .call hcallee hline harguments, hn =>
    .call (hcallee.located h hn.part) hline (harguments.located h hn.padded
      (fun e he => hn.occurs.part (List.mem_cons_of_mem _ (List.mem_map_of_mem he)))
      fun e he => hn.occurs'.part (List.mem_cons_of_mem _ (List.mem_map_of_mem he)))
  | .get hobject hname, hn => .get (hobject.located h hn.part) hname
  | .set hobject hname hvalue, hn => .set (hobject.located h hn.part) hname (hvalue.located h hn.part)
  | .this huse, hn => .this (h.use huse hn)
  | .parent huse hkeyword hmethod, hn => .parent (h.use huse hn) hkeyword hmethod
  | .lambda hf, hn => .lambda (hf.located .function .function h hn.part)
  | .list hline helements, hn =>
    .list hline (helements.located h hn.padded (fun e he => hn.occurs.part (List.mem_map_of_mem he))
      fun e he => hn.occurs'.part (List.mem_map_of_mem he))
  | .index hobject hline hposition, hn => .index (hobject.located h hn.part) hline (hposition.located h hn.part)

theorem Expr.DesugarsAll.located {π : Padding} {es es' : List Expr} {p p' : Place}
    (h : Tabled globals program program' before after) :
    Expr.DesugarsAll (.onLines line) π es es' → p.Padded globals π p' → (∀ e ∈ es, Occurs program p (.expr e)) →
      (∀ e ∈ es', Occurs program' p' (.expr e)) → Expr.DesugarsAll (.tables line before after) π es es'
  | .nil, _, _, _ => .nil
  | .cons he hrest, hp, hn, hn' =>
    .cons (he.located h ⟨hn _ List.mem_cons_self, hn' _ List.mem_cons_self, hp⟩)
      (hrest.located h hp (fun e he => hn e (List.mem_cons_of_mem _ he)) fun e he => hn' e (List.mem_cons_of_mem _ he))

theorem Stmt.Desugars.located {π : Padding} {s s' : Stmt} {p p' : Place} (h : Tabled globals program program' before after) :
    s.Desugars (.onLines line) π s' → Opposite globals program program' π p p' (.stmt s) (.stmt s') →
      s.Desugars (.tables line before after) π s'
  | .expression hvalue, hn => .expression (hvalue.located h hn.part)
  | .print hvalue, hn => .print (hvalue.located h hn.part)
  | .declare hopen hname, _ => .declare hopen hname
  | .var hopen hname hinitializer, hn =>
    .var hopen hname (hinitializer.located h (hn.at (hn.padded.initializer hopen hname.text)))
  | .block hbody, hn => .block (hbody.located h (.block hn.occurs) (.block hn.occurs') rfl rfl hn.padded.block)
  | .branch hcondition hthen, hn => .branch (hcondition.located h hn.part) (hthen.located h hn.part)
  | .branches hcondition hthen helse, hn =>
    .branches (hcondition.located h hn.part) (hthen.located h hn.part)
      (helse.located h (hn.at (hn.padded.past hthen)))
  | .loop hcondition hbody, hn => .loop (hcondition.located h hn.part) (hbody.located h hn.part)
  | .counting hcondition hbody hincrement, hn =>
    .counting (hcondition.located h hn.part) (hbody.located h hn.part)
      (hincrement.located h (hn.at (hn.padded.past hbody)))
  | .written hcondition hbody hincrement hcontinue, hn =>
    have hinner := h.written hn hbody
    .written (hcondition.located h hn.part) (hbody.located h hinner.1) (hincrement.located h hinner.2) hcontinue
  | .boxed hloop, hn =>
    .boxed (hloop.located h ⟨hn.occurs, hn.occurs'.part (by simp [Node.parts, suite]), h.added hn⟩)
  | .break, _ => .break
  | .continue, _ => .continue
  | .leave, _ => .leave
  | .return hvalue, hn => .return (hvalue.located h hn.part)
  | .function hopen hname hf, hn =>
    .function hopen hname
      (hf.located .function .function h (hn.at (hn.padded.named hopen hname.text)))
  | .class hopen hname hmethods, hn =>
    .class hopen hname (hmethods.located h (hn.padded.named hopen hname.text).receiver
      (fun m hm => hn.occurs.part (List.mem_append_right _ (List.mem_map_of_mem hm)))
      fun m hm => hn.occurs'.part (List.mem_append_right _ (List.mem_map_of_mem hm)))
  | .subclass hopen hname hparent hmethods, hn =>
    have hnamed := hn.padded.named hopen hname.text
    .subclass hopen hname (h.use hparent (hn.clause hnamed)) (hmethods.located h hnamed.parent.receiver
      (fun m hm => hn.occurs.part (List.mem_append_right _ (List.mem_map_of_mem hm)))
      fun m hm => hn.occurs'.part (List.mem_append_right _ (List.mem_map_of_mem hm)))
  | .empty, _ => .empty

theorem Stmt.DesugarsAll.located {π : Padding} {statements statements' whole whole' earlier earlier' : List Stmt}
    {place place' : List Stmt → Place} (h : Tabled globals program program' before after) :
    Stmt.DesugarsAll (.onLines line) π statements statements' → SuiteOf program place whole →
      SuiteOf program' place' whole' → whole = earlier ++ statements → whole' = earlier' ++ statements' →
        (place earlier).Padded globals π (place' earlier') → Stmt.DesugarsAll (.tables line before after) π statements statements'
  | .nil, _, _, _, _, _ => .nil
  | .cons hs hrest, hsuite, hsuite', hwhole, hwhole', hp =>
    .cons (hs.located h ⟨hsuite.occurs hwhole, hsuite'.occurs hwhole', hp⟩)
      (hrest.located h hsuite hsuite' (by simp [hwhole]) (by simp [hwhole']) (hsuite.padded_next hsuite' hp hs))

theorem Function.Desugars.located {π : Padding} {f f' : Function} {p p' : Place} (role role' : FunctionRole)
    (h : Tabled globals program program' before after) :
    f.Desugars (.onLines line) π f' → Opposite globals program program' π p p' (.function role f) (.function role' f') →
      f.Desugars (.tables line before after) π f'
  | .mk hparams hbody, hn =>
    .mk hparams (hbody.located h (.function hn.occurs) (.function hn.occurs') rfl rfl
      (hn.padded.function (Name.pairs_texts hparams) role role'))

theorem Method.DesugarsAll.located {π : Padding} {methods methods' : List Method} {p p' : Place}
    (h : Tabled globals program program' before after) :
    Method.DesugarsAll (.onLines line) π methods methods' → p.Padded globals π p' →
      (∀ m ∈ methods, Occurs program p (.function (methodRole m.name) m.function)) →
      (∀ m ∈ methods', Occurs program' p' (.function (methodRole m.name) m.function)) →
        Method.DesugarsAll (.tables line before after) π methods methods'
  | .nil, _, _, _ => .nil
  | .cons hname hf hrest, hp, hn, hn' =>
    .cons hname (hf.located _ _ h ⟨hn _ List.mem_cons_self, hn' _ List.mem_cons_self, hp⟩)
      (hrest.located h hp (fun m hm => hn m (List.mem_cons_of_mem _ hm)) fun m hm => hn' m (List.mem_cons_of_mem _ hm))

end

/-- All references of two programs are found at distances that differ by the scopes between. -/
theorem Stmt.DesugarsAll.tabled (h : Tabled globals program program' before after)
    (hprogram : Stmt.DesugarsAll (.onLines line) [] program program') :
    Stmt.DesugarsAll (.tables line before after) [] program program' :=
  hprogram.located h .top .top (List.nil_append program).symm (List.nil_append program').symm (.top globals)

end Located

end TreeWalk
