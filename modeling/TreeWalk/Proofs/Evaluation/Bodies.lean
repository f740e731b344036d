import TreeWalk.Proofs.Evaluation.Dispatch
import TreeWalk.Proofs.Evaluation.Soundness
import TreeWalk.Proofs.Evaluation.Story

/-!
# In the body of a method

In the body of a method `this` is found in the frame of the receiver, and `parent` in the frame around that, which the
declaration of the class has made. So what `parent` finds depends on the class that declares the method alone.
-/

namespace TreeWalk

/-! ## Inside a function -/

/-- The methods of a class have a scope of their own. -/
theorem Place.methods_apart (p : Place) (name : Name) (parent : Option Reference) :
    ¬ ((p.methods name parent).scope? = none ∨ p.methods name parent = p) := by
  rintro (hnone | heq)
  · cases hnone
  · cases parent with
    | none =>
      have heq : Place.receiver (.named p name) = p := heq
      cases heq
    | some use =>
      have heq : Place.receiver (.parent (.named p name)) = p := heq
      cases heq

/-- Without a scope of its own a part stands where the node does, behind another part, in an initializer, or behind a
name that is declared. -/
theorem Place.Leads.of_same {p q : Place} {n : Node} (h : p.Leads n q) (hsame : q.scope? = none ∨ q = p) :
    q = p ∨ (∃ s, q = .past p s) ∨ (∃ name, q = .initializer p name) ∨ ∃ name, q = .named p name := by
  cases h with
  | here => exact .inl rfl
  | past n s => exact .inr (.inl ⟨s, rfl⟩)
  | initializer name => exact .inr (.inr (.inl ⟨name, rfl⟩))
  | function name | clause name => exact .inr (.inr (.inr ⟨name, rfl⟩))
  | methods name parent => exact absurd hsame (methods_apart p name parent)
  | block | body =>
    rcases hsame with hnone | heq
    · cases hnone
    · cases heq

namespace Comes

variable {p q : Place} {n n' : Node} {env env' : Environment}

theorem occurs {program : List Stmt} (hn : Occurs program p n) (h : Comes p n env q n' env') : Occurs program q n' := by
  induction h with
  | here => exact hn
  | part _ hpart _ ih | block _ hpart _ ih | function _ hpart _ ih => exact ih.part hpart

/-- Frames lie between the function and a node inside, and what no program can declare is so much farther away. -/
theorem frames (globals : Bindings Bool) (h : Comes p n env q n' env') (hq : q.Regular) :
    ∃ frames : Environment, env' = frames ++ env ∧ ∀ special, ¬ IsName special →
      (q.scopes globals).distance? special = ((p.scopes globals).distance? special).map (· + frames.length) := by
  have hother {special name : String} (hspecial : ¬ IsName special) (hname : IsName name) : special ≠ name :=
    fun heq => hspecial (heq ▸ hname)
  have hscope {q outer : Place} {names : List String} {frames : Environment} (id : FrameId)
      (hq : q.scope? = some (outer, names)) (hnames : ∀ name ∈ names, IsName name) (special : String)
      (hspecial : ¬ IsName special) (houter : (outer.scopes globals).distance? special =
        ((p.scopes globals).distance? special).map (· + frames.length)) :
      (q.scopes globals).distance? special =
        ((p.scopes globals).distance? special).map (· + (id :: frames).length) := by
    rw [Place.distance?_of_scope hq, if_neg fun hmem => hspecial (hnames _ hmem), houter, Option.map_map]
    rfl
  -- No name that a program declares is special, so only the scopes on the way count.
  induction h with
  | here => exact ⟨[], rfl, by simp⟩
  | part _ hpart hsame ih =>
    rcases (Place.leads hpart).of_same hsame with rfl | ⟨s, rfl⟩ | ⟨name, rfl⟩ | ⟨name, rfl⟩
    · exact ih hq
    · obtain ⟨frames, henv, hdistance⟩ := ih hq.1
      refine ⟨frames, henv, fun special hspecial => ?_⟩
      rw [Place.scopes, Scopes.distance?_declared fun hmem => hspecial (hq.2 special hmem), hdistance special hspecial]
    · obtain ⟨frames, henv, hdistance⟩ := ih hq.1
      refine ⟨frames, henv, fun special hspecial => ?_⟩
      rw [Place.scopes, Scopes.distance?_declare (hother hspecial hq.2), hdistance special hspecial]
    · obtain ⟨frames, henv, hdistance⟩ := ih hq.1
      refine ⟨frames, henv, fun special hspecial => ?_⟩
      rw [Place.scopes, Scopes.distance?_define (hother hspecial hq.2), hdistance special hspecial]
  | block _ _ id ih | function _ _ id ih =>
    obtain ⟨frames, henv, hdistance⟩ := ih hq.1
    refine ⟨id :: frames, congrArg (id :: ·) henv, fun special hspecial => ?_⟩
    exact hscope id rfl hq.2 special hspecial (hdistance special hspecial)

theorem inClass (h : Comes p n env q n' env') : q.surroundings.inClass = p.surroundings.inClass := by
  induction h with
  | here => rfl
  | part _ hpart hsame ih =>
    rcases (Place.leads hpart).of_same hsame with rfl | ⟨s, rfl⟩ | ⟨name, rfl⟩ | ⟨name, rfl⟩ <;> exact ih
  | block _ _ _ ih | function _ _ _ ih => exact ih

end Comes

/-! ## Records and worlds -/

namespace World

section Lasting

variable {w w' : World} {m m' : Machine} {l : Loaded} {p : Place} {env : Environment}

/-- What a frame keeps later it has kept all the time. -/
theorem Holds.get?_kept (hm : w.Holds m) (hle : w ≤ w') {id : FrameId} (hsite : w.site id ≠ none) {name : String}
    {v : Value} (hv : w'.kept id name = some v) : (m.heap.frame id).get? name = some v :=
  (hm.kept id name v (hle.settled hsite hv)).2.2

/-- A reference has the same distance all the time. -/
theorem Stands.distances_eq {n : Node} (h : w.Stands l p env n) (hm : w.Holds m) (hle : w ≤ w') (hm' : w'.Holds m')
    {use : Reference} (huse : use ∈ n.uses) : m.distances[use.id]? = m'.distances[use.id]? :=
  (hm.located l h.loaded p n h.occurs use huse).trans (hm'.located l (hle.programs h.loaded) p n h.occurs use huse).symm

end Lasting

/-! ## In the body of a method -/

section Methods

variable {w w' : World} {m m' : Machine} {l : Loaded} {p : Place} {env : Environment} {d : Class} {method : Closure}
  {frame : FrameId}

/-- A node in the body of a method stands in a program, and the frames there end in that of the receiver and those
around the class. -/
theorem MethodFits.inside (h : w.MethodFits d method) (hm : w.Holds m) {n : Node}
    (hallows : (Scene.body (method.inFrame frame)).Allows env n) : ∃ l ∈ w.programs, ∃ outer q frames,
      Occurs l.program q n ∧ w.Parented outer method.environment d ∧ env = frames ++ frame :: method.environment ∧
      q.surroundings.inClass = (Place.receiver outer).surroundings.inClass ∧
      ∀ special, ¬ IsName special → (q.scopes (Resolution.knownGlobals l.globals)).distance? special =
        (((Place.receiver outer).scopes (Resolution.knownGlobals l.globals)).distance? special).map (· + frames.length) := by
  obtain ⟨l, hl, outer, role, hoccurs, -, -, hparented⟩ := h.occurs
  obtain ⟨q, hcomes⟩ := hallows (.receiver outer) role
  have hn := hcomes.occurs hoccurs
  obtain ⟨frames, henv, hdistance⟩ :=
    hcomes.frames (Resolution.knownGlobals l.globals) (hn.regular (hm.runnable l hl).unreserved)
  exact ⟨l, hl, outer, q, frames, hn, hparented, henv, hcomes.inClass, hdistance⟩

/-- In the body of a method `this` is found in the frame of the receiver. -/
theorem MethodFits.this_found (h : w'.MethodFits d method) (hm' : w'.Holds m') (hle : w ≤ w') (hm : w.Holds m)
    {id : NodeId} {line : Nat} (hstands : w.Stands l p env (.expr (.this id line)))
    (hallows : (Scene.body (method.inFrame frame)).Allows env (.expr (.this id line))) :
    ∃ frames, env = frames ++ frame :: method.environment ∧ m.distances[id]? = some frames.length := by
  obtain ⟨l', hl', outer, q, frames, hn, -, henv, -, hdistance⟩ := h.inside hm' hallows
  refine ⟨frames, henv, ?_⟩
  have huse : (⟨id, receiverName, line⟩ : Reference) ∈ (Node.expr (.this id line)).uses := List.mem_singleton_self _
  have hsame := hstands.distances_eq hm hle hm' huse
  have hplace := hm'.located l' hl' q _ hn _ huse
  rw [hdistance _ not_isName_receiver, Place.distance?_of_scope rfl, if_pos (List.mem_singleton_self _)] at hplace
  exact hsame.trans (hplace.trans (by simp))

/-- In the body of a method `parent` finds the parent of the class that declares the method. -/
theorem MethodFits.parentOf? (h : w'.MethodFits d method) (hm' : w'.Holds m') (hle : w ≤ w') (hm : w.Holds m)
    {id : NodeId} {keyword name : Name} (hstands : w.Stands l p env (.expr (.parent id keyword name)))
    (hallows : (Scene.body (method.inFrame frame)).Allows env (.expr (.parent id keyword name))) :
    ∃ parent, d.parent? = some parent ∧ frame ∈ env ∧
      Run.parentOf? m env id = some (parent, (m.heap.frame frame).get? receiverName) := by
  obtain ⟨l', hl', outer, q, frames, hn, hparented, henv, hclass, hdistance⟩ := h.inside hm' hallows
  rw [(hm'.runnable l' hl').legal.parent_in_subclass q id keyword name hn] at hclass
  -- The program is legal, so the class around has a parent, and there is a frame for it.
  obtain ⟨around, rfl⟩ : ∃ around, outer = .parent around := by
    cases outer with
    | parent around => exact ⟨around, rfl⟩
    | _ => cases hclass
  obtain ⟨outermost, hhead, parent, hkept, hparent⟩ := hparented around rfl
  refine ⟨parent, hparent, by simp [henv], ?_⟩
  have huse : (⟨id, parentName, keyword.line⟩ : Reference) ∈ (Node.expr (.parent id keyword name)).uses :=
    List.mem_singleton_self _
  have hsame := hstands.distances_eq hm hle hm' huse
  have hplace := hm'.located l' hl' q _ hn _ huse
  -- The special name is not in the scope of the receiver, but in the next one.
  rw [hdistance _ not_isName_parent, Place.distance?_of_scope rfl, if_neg (by decide),
    Place.distance?_of_scope (p := .parent around) rfl, if_pos (List.mem_singleton_self _)] at hplace
  have hdistance : m.distances[id]? = some (frames.length + 1) := hsame.trans (hplace.trans (by simp [Nat.add_comm]))
  obtain ⟨rest, hrest⟩ : ∃ rest, method.environment = outermost :: rest := List.head?_eq_some_iff.1 hhead
  have houtermost : env[frames.length + 1]? = some outermost := by
    rw [henv, hrest, List.getElem?_append_right (Nat.le_succ _)]
    simp
  have hsited : w.site outermost ≠ none := hstands.fits.sited _ (List.mem_of_getElem? houtermost)
  have hfound := Heap.get?_of_frame houtermost (hm.get?_kept hle hsited hkept)
  have hreceiver : m.heap.get? env frames.length receiverName = (m.heap.frame frame).get? receiverName := by
    rw [Heap.get?, Heap.outward?_eq, henv]
    simp
  simp [Run.parentOf?, hdistance, hfound, hreceiver]

end Methods

end World

end TreeWalk
