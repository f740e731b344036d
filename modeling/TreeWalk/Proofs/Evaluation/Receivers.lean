import TreeWalk.Proofs.Evaluation.Operations

/-!
# What `this` and `parent` find

In an environment that matches its place `this` is an object. Where `parent` may stand it is the parent of
the class whose methods are closed over the frames around, and the object descends from that class.
-/

namespace TreeWalk

namespace World

/-- The node is of a program of the world, and the environment has its scopes. -/
structure Stands (w : World) (l : Loaded) (p : Place) (env : Environment) (n : Node) : Prop where
  loaded : l ∈ w.programs
  occurs : Occurs l.program p n
  fits : w.Matches l p env

namespace Stands

variable {w w' : World} {l : Loaded} {p q : Place} {env env' : Environment} {n m : Node}

theorem mono (hw : w ≤ w') (h : w.Stands l p env n) : w'.Stands l p env n :=
  ⟨hw.programs h.loaded, h.occurs, h.fits.mono hw⟩

theorem part (h : w.Stands l p env n) (hpart : (q, m) ∈ n.parts p) (hm : w.Matches l q env') :
    w.Stands l q env' m :=
  ⟨h.loaded, h.occurs.part hpart, hm⟩

/-- A part at the same place. -/
theorem inner (h : w.Stands l p env n) (hpart : (p, m) ∈ n.parts p) : w.Stands l p env m :=
  h.part hpart h.fits

/-- A part behind one that declares nothing. -/
theorem past (h : w.Stands l p env n) {s : Stmt} (hs : s.names = []) (hpart : (.past p s, m) ∈ n.parts p) :
    w.Stands l (.past p s) env m :=
  h.part hpart (.past h.fits fun _ _ _ hname => absurd hname (hs ▸ List.not_mem_nil))

end Stands

end World

/-- `this` finds an object. -/
def FindsReceiver (env : Environment) (id : NodeId) (m : Machine) : Prop :=
  ∃ distance object c, m.distances[id]? = some distance ∧
    m.heap.get? env distance receiverName = some (.object object c)

/-- `parent` finds the parent of a class whose methods are closed over the frames from there outward. One frame
inside it `this` is an object, and its class is that class or one of its descendants. -/
def FindsParent (env : Environment) (id : NodeId) (m : Machine) : Prop :=
  ∃ inner object c d parent, m.distances[id]? = some (inner + 1) ∧
    m.heap.get? env (inner + 1) parentName = some (.class parent) ∧
    m.heap.get? env inner receiverName = some (.object object c) ∧
    d.Declares (env.drop (inner + 1)) ∧ d.parent? = some parent ∧ c.DescendsFrom d

section Finding

variable {env : Environment} {id : NodeId} {m : Machine}

/-- The evaluation of `this` succeeds, with an object. -/
theorem FindsReceiver.eval (h : FindsReceiver env id m) (line steps : Nat) :
    ∃ object c, Evaluation.eval (steps + 1) env (.this id line) m = .ok (.object object c) m := by
  obtain ⟨distance, object, c, hdistance, hget⟩ := h
  refine ⟨object, c, ?_⟩
  show Run.read env ⟨id, receiverName, line⟩ m = _
  exact Run.read_of_get? hdistance hget

theorem FindsParent.parentOf? (h : FindsParent env id m) : ∃ inner object c d parent,
    Run.parentOf? m env id = some (parent, some (.object object c)) ∧
      m.heap.get? env inner receiverName = some (.object object c) ∧ d.parent? = some parent ∧ c.DescendsFrom d := by
  obtain ⟨inner, object, c, d, parent, hdistance, hparent, hreceiver, -, hd, hdescends⟩ := h
  refine ⟨inner, object, c, d, parent, ?_, hreceiver, hd, hdescends⟩
  simp [Run.parentOf?, hdistance, hparent, hreceiver]

/-- The evaluation of a method of the parent class fails only if there is none. -/
theorem FindsParent.fails (h : FindsParent env id m) {keyword method : Name} {steps : Nat} {stop : Stop} {m' : Machine}
    (hfails : Evaluation.eval (steps + 1) env (.parent id keyword method) m = .error stop m') :
    stop = .fault (.evaluation method.line (.undefinedProperty method.text)) := by
  obtain ⟨inner, object, c, d, parent, hfound, -⟩ := h.parentOf?
  have hmethod : Run.parentMethod env id keyword method m = .error stop m' := hfails
  rw [Run.parentMethod, Run.get_bind, hfound] at hmethod
  dsimp only at hmethod
  cases hget : parent.method? method.text with
  | none =>
    rw [hget] at hmethod
    cases hmethod
    rfl
  | some closure =>
    rw [hget] at hmethod
    cases hmethod

end Finding

namespace World

section Places

variable {w : World} {l : Loaded} {p : Place} {env : Environment} {m : Machine}

/-- Inside a class the nearest scope with `this` is that around the methods of the class, and if the class has
a parent, then the nearest one with `parent` is directly around that. -/
theorem Matches.receiver (h : w.Matches l p env) (hp : p.Regular) {role : ClassRole}
    (hclass : p.surroundings.inClass = some role) : ∃ k id outer,
      (p.scopes (Resolution.knownGlobals l.globals)).distance? receiverName = some k ∧ env[k]? = some id ∧
      w.Houses id (env.drop (k + 1)) (.receiver outer) ∧
      (role = .withParent → (p.scopes (Resolution.knownGlobals l.globals)).distance? parentName = some (k + 1) ∧
        ∃ q, outer = .parent q) := by
  have hother {special name : String} (hspecial : ¬ IsName special) (hname : IsName name) : special ≠ name :=
    fun heq => hspecial (heq ▸ hname)
  induction h with
  | top before => cases hclass
  | past _ _ ih =>
    obtain ⟨k, id, outer, hthis, hid, hhouses, hparent⟩ := ih hp.1 hclass
    refine ⟨k, id, outer, ?_, hid, hhouses, fun hrole => ⟨?_, (hparent hrole).2⟩⟩
    · rw [Place.scopes, Scopes.distance?_declared fun hmem => not_isName_receiver (hp.2 _ hmem), hthis]
    · rw [Place.scopes, Scopes.distance?_declared fun hmem => not_isName_parent (hp.2 _ hmem), (hparent hrole).1]
  | initializer name _ ih =>
    obtain ⟨k, id, outer, hthis, hid, hhouses, hparent⟩ := ih hp.1 hclass
    refine ⟨k, id, outer, ?_, hid, hhouses, fun hrole => ⟨?_, (hparent hrole).2⟩⟩
    · rw [Place.scopes, Scopes.distance?_declare (hother not_isName_receiver hp.2), hthis]
    · rw [Place.scopes, Scopes.distance?_declare (hother not_isName_parent hp.2), (hparent hrole).1]
  | named _ _ ih =>
    obtain ⟨k, id, outer, hthis, hid, hhouses, hparent⟩ := ih hp.1 hclass
    refine ⟨k, id, outer, ?_, hid, hhouses, fun hrole => ⟨?_, (hparent hrole).2⟩⟩
    · rw [Place.scopes, Scopes.distance?_define (hother not_isName_receiver hp.2), hthis]
    · rw [Place.scopes, Scopes.distance?_define (hother not_isName_parent hp.2), (hparent hrole).1]
  | @scope p outer names id env hscope hm hsite hbound hhouses ih =>
    have hdistance := @Place.distance?_of_scope (Resolution.knownGlobals l.globals) _ _ _ hscope
    cases p with
    | block _ _ | function _ _ _ _ =>
      cases hscope
      obtain ⟨k, id', q, hthis, hid, hhouses, hparent⟩ := ih hp.1 hclass
      refine ⟨k + 1, id', q, ?_, hid, hhouses, fun hrole => ⟨?_, (hparent hrole).2⟩⟩
      · rw [hdistance, if_neg fun hmem => not_isName_receiver (hp.2 _ hmem), hthis]
        rfl
      · rw [hdistance, if_neg fun hmem => not_isName_parent (hp.2 _ hmem), (hparent hrole).1]
        rfl
    | receiver _ =>
      cases hscope
      refine ⟨0, id, outer, by rw [hdistance]; rfl, rfl, hhouses, fun hrole => ?_⟩
      subst hrole
      cases outer with
      | parent q =>
        refine ⟨?_, q, rfl⟩
        rw [hdistance, Place.distance?_of_scope (p := .parent q) rfl]
        rfl
      | _ => cases hclass
    | parent _ => exact hp.elim
    | _ => cases hscope

theorem Stands.findsReceiver {id : NodeId} {line : Nat} (h : w.Stands l p env (.expr (.this id line))) (hm : w.Holds m) :
    FindsReceiver env id m := by
  have hrunnable := hm.runnable l h.loaded
  obtain ⟨role, hclass⟩ := Option.ne_none_iff_exists'.1 (hrunnable.legal.this_in_method p id line h.occurs)
  obtain ⟨k, frame, outer, hthis, hframe, ⟨object, c, d, hkept, -⟩, -⟩ :=
    h.fits.receiver (h.occurs.regular hrunnable.unreserved) hclass
  have hdistance := hm.located l h.loaded p _ h.occurs _ (List.mem_singleton_self _)
  exact ⟨k, object, c, hdistance.trans hthis, Heap.get?_of_frame hframe (hm.kept frame _ _ hkept).2.2⟩

theorem Stands.findsParent {id : NodeId} {keyword method : Name}
    (h : w.Stands l p env (.expr (.parent id keyword method))) (hm : w.Holds m) : FindsParent env id m := by
  have hrunnable := hm.runnable l h.loaded
  have hclass := hrunnable.legal.parent_in_subclass p id keyword method h.occurs
  obtain ⟨k, frame, outer, -, hframe, ⟨object, c, d, hkept, hdescends, hdeclares, hparented⟩, hparent⟩ :=
    h.fits.receiver (h.occurs.regular hrunnable.unreserved) hclass
  obtain ⟨hlies, q, rfl⟩ := hparent rfl
  obtain ⟨frame', hframe', parent, hkept', hd⟩ := hparented q rfl
  rw [List.head?_drop] at hframe'
  have hdistance := hm.located l h.loaded p _ h.occurs _ (List.mem_singleton_self _)
  refine ⟨k, object, c, d, parent, hdistance.trans hlies, ?_, ?_, hdeclares, hd, hdescends⟩
  · exact Heap.get?_of_frame hframe' (hm.kept frame' _ _ hkept').2.2
  · exact Heap.get?_of_frame hframe (hm.kept frame _ _ hkept).2.2

end Places

end World

end TreeWalk
