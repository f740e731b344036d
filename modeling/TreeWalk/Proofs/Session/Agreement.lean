import Mathlib
import TreeWalk.Proofs.Session.History

/-!
# Programs run as they were resolved

Wherever a session evaluates or executes something, the environment has a frame for each scope with
which resolution came there, so that recorded distances lead to the frames that are meant.
-/

namespace TreeWalk

namespace Loaded

/-- The scopes with which resolution comes to a place of the program. -/
def scopes (l : Loaded) (p : Place) : Scopes := p.scopes (Resolution.knownGlobals l.globals)

end Loaded

/-- The environment has one frame for each scope of the place, which belongs to it and has the names that
are initialized in it. -/
structure Agrees (site : FrameId → Option Site) (l : Loaded) (p : Place) (env : Environment) (m : Machine) : Prop where
  length : env.length = (l.scopes p).locals.length
  sites : env.map site = p.openings.map fun opening => some ⟨l, opening⟩
  initialized : ∀ (d : Nat) (id : FrameId) (scope : Bindings Bool), env[d]? = some id →
    (l.scopes p).locals[d]? = some scope → ∀ name, scope.get? name = some true → m.heap.binds id name = true

/-- The expression lies in the initializer of the local variable that the name stands for `d` scopes outward,
and assigns to it or has a function in between. -/
def InOwnInitializer (program : List Stmt) (p : Place) (e : Expr) (d : Nat) (name : String) : Prop :=
  ∃ q declared value, Occurs program q (.stmt (.var declared (some value))) ∧ .initializer q declared ∈ p.outers ∧
    declared.text = name ∧ q.Local ∧ p.openings.drop d = q.openings ∧
    ((∃ target value, e = .assign target value) ∨ p.Detached q declared)

/-- The distance of a reference is that of its place, and leads to a frame that has the name. The exception
are uses of a variable in its own initializer, before it has been declared. -/
structure Finds (l : Loaded) (p : Place) (e : Expr) (use : Reference) (env : Environment) (m : Machine) : Prop where
  located : m.distances[use.id]? = (l.scopes p).distance? use.name.text
  found : ∀ d, m.distances[use.id]? = some d → ∃ id, env[d]? = some id ∧
    (m.heap.binds id use.name.text = true ∨
      m.heap.binds id use.name.text = false ∧ InOwnInitializer l.program p e d use.name.text)

/-- An event in accordance with resolution. -/
def Record.Faithful (site : FrameId → Option Site) (loaded : List Loaded) : Record → Prop
  | .evaluates env e m => ∃ l ∈ loaded, ∃ p, Occurs l.program p (.expr e) ∧ Agrees site l p env m
  | .executes env s m => ∃ l ∈ loaded, ∃ p, Occurs l.program p (.stmt s) ∧ Agrees site l p env m
  | .looks env use m => ∃ l ∈ loaded, ∃ p e, Occurs l.program p (.expr e) ∧ use ∈ (Node.expr e).uses ∧
    Agrees site l p env m ∧ Finds l p e use env m
  | _ => True

namespace World

section Matches

variable {w : World} {l : Loaded} {p : Place} {env : Environment} {m : Machine}

theorem Matches.sites (h : w.Matches l p env) : env.map w.site = p.openings.map fun opening => some ⟨l, opening⟩ := by
  induction h with
  | top before => rfl
  | past _ _ ih => exact ih
  | initializer name _ ih => exact ih
  | named _ _ ih => exact ih
  | scope hp _ hsite _ _ ih => rw [Place.openings_of_scope hp, List.map_cons, List.map_cons, hsite, ih]

theorem Matches.length (h : w.Matches l p env) : env.length = (l.scopes p).locals.length := by
  have hsites := congrArg List.length h.sites
  rw [List.length_map, List.length_map] at hsites
  exact hsites.trans (Place.length_openings p)

theorem Matches.initialized (h : w.Matches l p env) {d : Nat} {id : FrameId} {scope : Bindings Bool} {name : String}
    (hid : env[d]? = some id) (hscope : (l.scopes p).locals[d]? = some scope) (hname : scope.get? name = some true) :
    w.bound id name := by
  induction h generalizing d scope with
  | top before => cases hid
  | past _ hbound ih =>
    obtain ⟨old, hold, hget⟩ := Scopes.locals_declared hscope
    rw [hget] at hname
    split at hname
    case isTrue hnew =>
      obtain ⟨rfl, hmem⟩ := hnew
      exact hbound id (by rw [List.head?_eq_getElem?]; exact hid) name hmem
    case isFalse => exact ih hid hold hname
  | initializer declared _ ih =>
    obtain ⟨old, hold, hget⟩ := Scopes.locals_declare hscope
    rw [hget] at hname
    split at hname
    · cases hname
    · exact ih hid hold hname
  | named _ hbound ih =>
    obtain ⟨old, hold, hget⟩ := Scopes.locals_define hscope
    rw [hget] at hname
    split at hname
    case isTrue hnew =>
      obtain ⟨rfl, rfl⟩ := hnew
      exact hbound id (by rw [List.head?_eq_getElem?]; exact hid)
    case isFalse => exact ih hid hold hname
  | scope hp _ _ hbound _ ih =>
    obtain ⟨own, hlocals, hown⟩ := @Place.locals_of_scope (Resolution.knownGlobals l.globals) _ _ _ hp
    rw [Loaded.scopes, hlocals] at hscope
    cases d with
    | zero =>
      obtain rfl := Option.some.inj hscope
      obtain rfl := Option.some.inj hid
      rw [hown] at hname
      split at hname
      case isTrue hmem => exact hbound name hmem
      case isFalse => cases hname
    | succ d => exact ih hid hscope hname

theorem Matches.agrees (h : w.Matches l p env) (hm : w.Holds m) {site : FrameId → Option Site}
    (hsite : ∀ {id found}, w.site id = some found → site id = some found) : Agrees site l p env m where
  length := h.length
  sites := by
    rw [← h.sites]
    refine List.map_congr_left fun id hid => ?_
    have hknown : w.site id ∈ p.openings.map fun opening => some (⟨l, opening⟩ : Site) := h.sites ▸ List.mem_map_of_mem hid
    obtain ⟨opening, -, heq⟩ := List.mem_map.1 hknown
    rw [← heq, hsite heq.symm]
  initialized d id scope hid hscope name hname := hm.bound id name (h.initialized hid hscope hname)

end Matches

end World

/-! ## Uses of variables in their own initializers -/

section OwnInitializer

variable {l : Loaded} {p q : Place} {e : Expr} {d : Nat} {scope : Bindings Bool} {name : String}

theorem Scopes.distance?_eq_some {s : Scopes} (h : s.distance? name = some d) :
    ∃ scope, s.locals[d]? = some scope ∧ scope.contains name = true := by
  obtain ⟨hd, hcontains, -⟩ := List.findIdx?_eq_some_iff_getElem.1 h
  exact ⟨s.locals[d], List.getElem?_eq_getElem hd, hcontains⟩

/-- The scope of a local variable is not the top level. -/
theorem Place.local_of_openings (hq : q.InSuite) (hopenings : q.openings ≠ []) : q.Local := by
  induction q with
  | top before => exact hopenings rfl
  | block outer before => trivial
  | function outer role params before => trivial
  | past outer s ih => exact ih hq hopenings
  | _ => exact hq.elim

/-- Directly in its initializer a variable is only assigned to. -/
theorem assigns_of_initializer (hl : l.Runnable) {declared : Name} {value : Expr}
    (hvar : Occurs l.program q (.stmt (.var declared (some value))))
    (he : Occurs l.program (.initializer q declared) (.expr e)) {use : Reference} (hu : use ∈ (Node.expr e).uses)
    (hname : use.name.text = declared.text)
    (hnew : declared.text ∉ q.namesBefore l.globals) : ∃ target value, e = .assign target value := by
  have hword : TokenKind.ofWord declared.text = .identifier := Occurs.every hl.unreserved hvar
  cases e with
  | assign target value => exact ⟨target, value, rfl⟩
  | «variable» other =>
    obtain rfl := List.mem_singleton.1 hu
    exact absurd (hl.legal.own_initializer q declared use he hname) hnew
  | this id line =>
    obtain rfl := List.mem_singleton.1 hu
    rw [← hname] at hword
    cases hword
  | parent id keyword method =>
    obtain rfl := List.mem_singleton.1 hu
    rw [← hname] at hword
    cases hword
  | _ => cases hu

theorem inOwnInitializer (hl : l.Runnable) (he : Occurs l.program p (.expr e)) {use : Reference}
    (hu : use ∈ (Node.expr e).uses) (hscope : (l.scopes p).locals[d]? = some scope)
    (hname : scope.get? use.name.text = some false) : InOwnInitializer l.program p e d use.name.text := by
  obtain ⟨q, declared, hmem, htext, hdrop⟩ := Place.initializer_of_uninitialized hscope hname
  obtain ⟨⟨value, hvar⟩, hlies⟩ := he.initialized q declared hmem
  have hd : d < p.openings.length := by
    have hlength : p.openings.length = (l.scopes p).locals.length := Place.length_openings p
    rw [hlength]
    exact (List.getElem?_eq_some_iff.1 hscope).1
  have hq : q.Local := by
    refine Place.local_of_openings hvar.admits fun hnil => ?_
    rw [hnil, List.drop_eq_nil_iff] at hdrop
    omega
  refine ⟨q, declared, value, hvar, hmem, htext, hq, hdrop, ?_⟩
  rcases hlies with rfl | hdetached
  · refine .inl (assigns_of_initializer hl hvar he hu htext.symm ?_)
    -- The scope is the innermost one, in which the declared name is new.
    have hzero : d = 0 := by
      have hlength := congrArg List.length hdrop
      rw [List.length_drop] at hlength
      have hsame : (Place.initializer q declared).openings.length = q.openings.length := rfl
      omega
    subst hzero
    have huninitialized : (l.scopes (.initializer q declared)).uninitialized use.name.text = true := by
      rw [Scopes.uninitialized, Scopes.innermost, List.head?_eq_getElem?, hscope, Option.getD_some, hname]
      rfl
    exact ((Place.uninitialized_initializer_iff hvar.admits declared use.name.text).1 huninitialized).2
  · exact .inr hdetached

end OwnInitializer

/-! ## What is on record -/

namespace World

variable {w : World} {l : Loaded} {p : Place} {env : Environment} {m : Machine} {e : Expr}

theorem Stands.finds (h : w.Stands l p env (.expr e)) (hm : w.Holds m) {use : Reference}
    (hu : use ∈ (Node.expr e).uses) : Finds l p e use env m := by
  have hlocated := hm.located l h.loaded p _ h.occurs use hu
  refine ⟨hlocated, fun d hd => ?_⟩
  rw [hlocated] at hd
  obtain ⟨scope, hscope, hcontains⟩ := Scopes.distance?_eq_some hd
  have hlength : d < env.length := by
    rw [h.fits.length]
    exact (List.getElem?_eq_some_iff.1 hscope).1
  have hid : env[d]? = some env[d] := List.getElem?_eq_getElem hlength
  refine ⟨env[d], hid, ?_⟩
  cases hbinds : m.heap.binds env[d] use.name.text with
  | true => exact .inl rfl
  | false =>
    refine .inr ⟨rfl, inOwnInitializer (hm.runnable l h.loaded) h.occurs hu hscope ?_⟩
    obtain ⟨initialized, hname⟩ := Option.isSome_iff_exists.1 hcontains
    cases initialized with
    | false => exact hname
    | true =>
      have hbound := hm.bound _ _ (h.fits.initialized hid hscope hname)
      rw [hbinds] at hbound
      cases hbound

theorem Allows.faithful {record : Record} {w' : World} (hle : w ≤ w') (h : w.Allows record) :
    record.Faithful w'.site w'.programs := by
  cases record with
  | evaluates env e m =>
    obtain ⟨hm, l, p, hstands⟩ := h
    exact ⟨l, hle.programs hstands.loaded, p, hstands.occurs, hstands.fits.agrees hm hle.site⟩
  | executes env s m =>
    obtain ⟨hm, l, p, hstands⟩ := h
    exact ⟨l, hle.programs hstands.loaded, p, hstands.occurs, hstands.fits.agrees hm hle.site⟩
  | looks env use m =>
    obtain ⟨hm, l, p, e, hstands, hu⟩ := h
    exact ⟨l, hle.programs hstands.loaded, p, e, hstands.occurs, hu, hstands.fits.agrees hm hle.site,
      hstands.finds hm hu⟩
  | _ => trivial

end World

namespace Session

variable {s : Session} {loaded : List Loaded}

/-- Resolution and evaluation agree about the scopes of everything that runs in a session, and a reference
finds its name at its distance. -/
theorem runs_as_resolved (h : Reached s loaded) (steps : Nat) (source : String) :
    ∃ site : FrameId → Option Site, ∀ record ∈ (s.recording steps source).records,
      record.Faithful site (s.started source ++ loaded) := by
  obtain ⟨w, hw⟩ := h.known
  obtain ⟨w', hrecorded, hknows⟩ := hw.run steps source
  refine ⟨w'.site, fun record hrecord => ?_⟩
  obtain ⟨w'', hle, hallows⟩ := hrecorded.records record hrecord
  exact hknows.programs ▸ World.Allows.faithful hle hallows

/-- A function finds a variable of the block around it. -/
theorem runs_as_resolved_in_closure :
    ((new.recording 15 "{var a;fun g(){a;}g();}").records.any fun
        | .looks _ use m => m.distances[use.id]? == some 1
        | _ => false) = true ∧
      ∃ site : FrameId → Option Site, ∀ record ∈ (new.recording 15 "{var a;fun g(){a;}g();}").records,
        record.Faithful site (new.started "{var a;fun g(){a;}g();}" ++ []) :=
  ⟨by cbv, runs_as_resolved new_reached 15 "{var a;fun g(){a;}g();}"⟩

/-- Control flow stays inside: statements at top level hand over to the next one, function bodies end or
return, and initializers return nothing. -/
theorem control_stays_inside (h : Reached s loaded) (steps : Nat) (source : String) :
    (∀ statement flow, .concludes statement flow ∈ (s.recording steps source).records → flow = .normal) ∧
      ∀ closure flow, .finishes closure flow ∈ (s.recording steps source).records →
        flow = .normal ∨ ∃ v, flow = .return v ∧ (closure.isInitializer = true → v = .nil) := by
  obtain ⟨w, hw⟩ := h.known
  obtain ⟨w', hrecorded, -⟩ := hw.run steps source
  refine ⟨fun statement flow hmem => ?_, fun closure flow hmem => ?_⟩
  · obtain ⟨w'', -, hallows⟩ := hrecorded.records _ hmem
    exact hallows
  · obtain ⟨w'', -, hallows⟩ := hrecorded.records _ hmem
    cases flow with
    | normal => exact .inl rfl
    | «break» | «continue» => exact hallows.elim
    | «return» v => exact .inr ⟨v, rfl, hallows⟩

/-- A lambda that is called returns. -/
theorem control_stays_inside_lambda :
    ((new.recording 12 "fun(){return;}();").records.any fun
        | .finishes _ (.return _) => true
        | _ => false) = true ∧
      (∀ statement flow, .concludes statement flow ∈ (new.recording 12 "fun(){return;}();").records → flow = .normal) ∧
        ∀ closure flow, .finishes closure flow ∈ (new.recording 12 "fun(){return;}();").records →
          flow = .normal ∨ ∃ v, flow = .return v ∧ (closure.isInitializer = true → v = .nil) :=
  ⟨by cbv, control_stays_inside new_reached 12 "fun(){return;}();"⟩

end Session

end TreeWalk
