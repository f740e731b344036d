import Mathlib
import TreeWalk.Proofs.Evaluation.Relaying
import TreeWalk.Proofs.Session.History

/-!
# Dispatch in a session

Which methods run in a session: for a property the method of the nearest class from that of the object upwards, for
`parent` the one from the parent of the declaring class upwards, and for a class that is called its initializer.
-/

namespace TreeWalk

open Happening

/-- How classes are built, and how their methods are found, in the events of a session. -/
structure Dispatches (records : List Record) : Prop where
  /-- Of methods of the same name a class has the last one, and its parent is the class that the name stands for then. -/
  declares : ∀ env name parent methods m, .executes env (.class name parent methods) m ∈ records → ∀ steps flow m',
    Evaluation.exec (steps + 1) env (.class name parent methods) m = .ok flow m' → Builds env name parent methods m m'
  property : ∀ env object name m, .evaluates env (.get object name) m ∈ records → ∀ steps id c m',
    Evaluation.eval steps env object m = .ok (.object id c) m' →
      GetsProperty m' id c name (Evaluation.eval (steps + 1) env (.get object name) m)
  /-- In the body of a method `this` is the object to which it is bound. -/
  receiver : ∀ env id line m, .evaluates env (.this id line) m ∈ records →
    ∀ object c d name method frame, .binds (method.inFrame frame) (.object object c) ∈ records → c.DescendsFrom d →
      d.own.methods.get? name = some method → (Scene.body (method.inFrame frame)).Allows env (.expr (.this id line)) →
        ∀ steps, Evaluation.eval (steps + 1) env (.this id line) m = .ok (.object object c) m
  constructs : ∀ steps line c arguments m,
    Constructs steps line c arguments m (Evaluation.call (steps + 2) line (.class c) arguments m)
  /-- Wherever `parent` stands, it is the parent of the class that declares the methods there, for the same receiver. -/
  parent : ∀ env id keyword name m, .evaluates env (.parent id keyword name) m ∈ records →
    ∃ inner object c d above, m.heap.get? env inner receiverName = some (.object object c) ∧ c.DescendsFrom d ∧
      d.Declares (env.drop (inner + 1)) ∧ d.parent? = some above ∧
        ∀ steps, BindsMethod m above (.object object c) name (Evaluation.eval (steps + 1) env (.parent id keyword name) m)
  /-- In the body of a method that is the parent of the class which declares it, whatever the class of the receiver. -/
  parent_in_method : ∀ env id keyword name m, .evaluates env (.parent id keyword name) m ∈ records →
    ∀ object c d name' method frame, .binds (method.inFrame frame) (.object object c) ∈ records → c.DescendsFrom d →
      d.own.methods.get? name' = some method →
        (Scene.body (method.inFrame frame)).Allows env (.expr (.parent id keyword name)) →
          ∃ above, d.parent? = some above ∧ ∀ steps, BindsMethod m above (.object object c) name
            (Evaluation.eval (steps + 1) env (.parent id keyword name) m)
  /-- When all methods of the name up the lineage call the next one and nothing else, all of them run. -/
  relays : ∀ env object name line m, .evaluates env (.call (.get object name) line []) m ∈ records → ∀ steps id c m',
    Evaluation.eval steps env object m = .ok (.object id c) m' → (m'.heap.fields id).get? name.text = none →
      c.Offers name.text → m.depth + c.lineage.length ≤ maxDepth → ∃ before a inside,
        (stateBehind (Tracer.eval (steps + 2) env (.call (.get object name) line []) (.blank m))).happenings =
          before ++ [.call a m.depth inside] ∧ a.site = .call (.get object name) line [] ∧ a.environment = env ∧
            (c.Relays name.text [.call a m.depth inside] → c.RunsAll name.text (enteredAll inside))

namespace World

variable {w : World} {r : Recording}

/-- A frame in which a method has been bound keeps its receiver, and the classes that this descends from are known. -/
theorem Recorded.of_binds (h : w.Recorded r) {method : Closure} {frame : FrameId} {object : ObjectId} {c : Class}
    (hbinds : .binds (method.inFrame frame) (.object object c) ∈ r.records) :
    w.kept frame receiverName = some (.object object c) ∧ w.ClassFits c := by
  obtain ⟨w', hle, hallows⟩ := h.records _ hbinds
  obtain ⟨id, object', c', hid, -, hkept⟩ := BoundTo.mono hle hallows
  obtain rfl : frame = id := Option.some.inj hid
  exact ⟨hkept, h.holds.frames frame _ _ (h.holds.kept frame _ _ hkept).2.2⟩

/-! ## The call of a method -/

section Calling

variable {l : Loaded} {p : Place} {env : Environment} {object : Expr} {name : Name} {steps line : Nat} {id : ObjectId}
  {c : Class} {m' : Machine} {method : Closure}

/-- A method that is got from an object, with the world on the way. -/
theorem Recorded.get (hr : w.Recorded r) (hstands : w.Stands l p env (.expr (.get object name)))
    (hobject : Evaluation.eval steps env object r.machine = .ok (.object id c) m')
    (hfield : (m'.heap.fields id).get? name.text = none) (hmethod : c.method? name.text = some method) :
    ∃ (w' : World) (r' : Recording) (identity : Nat) (frame : FrameId), w'.Recorded r' ∧ w'.ClassFits c ∧
      w'.ValueFits (.function identity (method.inFrame frame)) ∧
      Recorder.eval (steps + 1) env (.get object name) r = .ok (.function identity (method.inFrame frame)) r' := by
  let r₀ : Recording := { r with records := .evaluates env (.get object name) r.machine :: r.records }
  have hr₀ : w.Recorded r₀ := ⟨hr.holds, List.forall_mem_cons.2 ⟨⟨w, le_refl w, hr.holds, l, p, hstands⟩, hr.records⟩⟩
  have hobject : Evaluation.eval steps env object r₀.machine = .ok (.object id c) m' := hobject
  -- The object is evaluated in the world of the session, and its value fits in the world behind.
  obtain ⟨r₁, hobject₁, rfl⟩ := ((Recorder.mirrors steps).eval env object).of_ok hobject
  have hsound := (sound steps).eval (hstands.inner (m := .expr object) (by simp [Node.parts])) r₀ hr₀
  rw [hobject₁] at hsound
  obtain ⟨w₁, -, hr₁, hc⟩ := hsound
  obtain ⟨identity, m₂, hproperty⟩ := (gets_property r₁.machine id c name).of_method hfield hmethod
  obtain ⟨r₂, hproperty₂, -⟩ := (Recorder.property_mirrors id c name).of_ok hproperty
  have hsound₂ := property_sound hc id name r₁ hr₁
  rw [hproperty₂] at hsound₂
  obtain ⟨w₂, hgrows, hr₂, hfits⟩ := hsound₂
  refine ⟨w₂, r₂, identity, _, hr₂, hc.mono hgrows.le, hfits, ?_⟩
  show (Recorder.eval steps env object >>= _) r₀ = _
  rw [bind_ok hobject₁]
  exact hproperty₂

/-- A function without parameters that is called without arguments is called, if there is room for the call. -/
theorem call_happens {a : Invocation} {identity : Nat} (hvalue : a.value = .function identity method)
    (harity : method.arity = 0) (harguments : a.arguments = []) {t : Tracing} (hroom : t.machine.depth < maxDepth)
    (steps : Nat) : ∃ inside,
      (stateBehind (Tracer.call (steps + 1) a t)).happenings = t.happenings ++ [.call a t.machine.depth inside] := by
  have hcallable : a.value.callable? = some (.closure method) := by rw [hvalue]; rfl
  have hlength : ¬ (a.arguments.length != (Callable.closure method).arity) = true := by
    simp [harguments, Callable.arity, harity]
  unfold Tracer.call
  rw [hcallable]
  dsimp only
  rw [if_neg hlength]
  unfold Tracer.nested
  rw [if_neg (by simpa using Nat.ne_of_lt hroom)]
  exact ⟨_, Tracer.happenings_closed a t _⟩

theorem Holds.relays {m : Machine} (hm : w.Holds m) (hstands : w.Stands l p env (.expr (.call (.get object name) line [])))
    (hobject : Evaluation.eval steps env object m = .ok (.object id c) m')
    (hfield : (m'.heap.fields id).get? name.text = none) (hoffers : c.Offers name.text)
    (hdepth : m.depth + c.lineage.length ≤ maxDepth) : ∃ before a inside,
      (stateBehind (Tracer.eval (steps + 2) env (.call (.get object name) line []) (.blank m))).happenings =
        before ++ [.call a m.depth inside] ∧ a.site = .call (.get object name) line [] ∧ a.environment = env ∧
          (c.Relays name.text [.call a m.depth inside] → c.RunsAll name.text (enteredAll inside)) := by
  let e : Expr := .call (.get object name) line []
  let t₁ : Tracing := ⟨⟨m, [.evaluates env e m]⟩, [.reaches env (.expr e) m.depth]⟩
  have hr₁ : w.Recorded t₁.recording := ⟨hm, List.forall_mem_cons.2 ⟨⟨w, le_refl w, hm, l, p, hstands⟩, by simp⟩⟩
  obtain ⟨method, hmethod, harity⟩ := hoffers c.own List.mem_cons_self
  have hselected : c.method? name.text = some method := by
    rw [Class.method?, Class.lineage, List.findSome?_cons, hmethod]
  obtain ⟨w₂, r₂, identity, frame, hr₂, hc, hfits, hget⟩ :=
    hr₁.get (hstands.inner (by simp [Node.parts])) hobject hfield hselected
  have hlength : 0 < c.lineage.length := Nat.succ_pos _
  have hallows (n : Node) : Scene.outside.Allows env n := trivial
  have hcallee := (tells (steps + 1)).eval (hallows (.expr (.get object name)))
  -- The callee comes first. It may make calls of its own, but they have come to their ends.
  obtain ⟨t₂, hget₂, rfl⟩ := of_untraced ((hcallee.mirrors t₁).trans hget)
  have hsame : t₂.machine.depth = m.depth := by
    have hbehind := (hcallee.told t₁ (by show m.depth ≤ maxDepth; omega)).depth
    rwa [hget₂] at hbehind
  let a : Invocation := ⟨env, .get object name, line, [], m, .function identity (method.inFrame frame), []⟩
  have hwhole : Tracer.eval (steps + 2) env e (.blank m) = Tracer.call (steps + 1) a t₂ := by
    show (Tracer.eval (steps + 1) env (.get object name) >>= _) t₁ = _
    rw [bind_ok hget₂]
    rfl
  obtain ⟨inside, hinside⟩ := call_happens (a := a) rfl harity rfl (by rw [hsame]; omega) steps
  rw [hsame, ← hwhole] at hinside
  refine ⟨t₂.happenings, a, inside, hinside, rfl, rfl, fun hrelays => ?_⟩
  obtain ⟨-, -, -, hs, hhs, hstory⟩ :=
    ((tells (steps + 2)).eval (hallows (.expr e))).told (.blank m) (by show m.depth ≤ maxDepth; omega)
  have hmem : .call a m.depth inside ∈ hs := by
    have hhs : _ = hs := hhs
    rw [← hhs, hinside]
    simp
  obtain ⟨-, -, -, stop, hcall⟩ := hstory.call_mem hmem
  have hsound : Keeps World.Recorded w₂ (Recorder.call (steps + 1) line a.value []) World.ValueFits :=
    (sound (steps + 1)).call hfits (by simp)
  -- What happens inside the call is on record in a world that knows the methods of the class.
  obtain ⟨w₃, hgrows, hr₃⟩ := hsound.state hr₂
  have hrecording : (stateBehind (Tracer.eval (steps + 2) env e (.blank m))).recording =
      stateBehind (Recorder.call (steps + 1) line a.value [] t₂.recording) := by
    rw [hwhole, recording_behind, (tells (steps + 1)).call_mirrors]
    rfl
  rw [← hrecording] at hr₃
  have hroom : m.depth + 1 + c.ancestors.length ≤ maxDepth := by
    rw [Class.lineage, List.length_cons] at hdepth
    omega
  exact hcall.runs_all hr₃ (hc.mono hgrows.le) hoffers hmethod rfl hroom hrelays

end Calling

theorem Recorded.dispatches (h : w.Recorded r) : Dispatches r.records where
  declares env name parent methods m hmem steps flow m' hexec := by
    obtain ⟨w', hle, hm, l, p, hstands⟩ := h.records _ hmem
    exact exec_builds (hstands.fits.lt_size hm) hexec
  property env object name m _ steps id c m' heval := eval_gets_property heval name
  receiver env id line m hmem object c d name method frame hbinds hdescends hmethod hallows steps := by
    obtain ⟨w', hle, hm, l, p, hstands⟩ := h.records _ hmem
    obtain ⟨hkept, hc⟩ := h.of_binds hbinds
    obtain ⟨frames, henv, hdistance⟩ := (hc d hdescends name method hmethod).this_found h.holds hle hm hstands hallows
    have hframe : env[frames.length]? = some frame := by simp [henv]
    have hsited := hstands.fits.sited frame (List.mem_of_getElem? hframe)
    exact this_evaluates hdistance (Heap.get?_of_frame hframe (hm.get?_kept hle hsited hkept)) steps line
  constructs := call_constructs
  parent env id keyword name m hmem := by
    obtain ⟨w', hle, hm, l, p, hstands⟩ := h.records _ hmem
    obtain ⟨inner, object, c, d, above, hdistance, hparent, hreceiver, hdeclares, hd, hdescends⟩ := hstands.findsParent hm
    refine ⟨inner, object, c, d, above, hreceiver, hdescends, hdeclares, hd, fun steps => ?_⟩
    exact parent_binds (by simp [Run.parentOf?, hdistance, hparent, hreceiver]) steps keyword name
  parent_in_method env id keyword name m hmem object c d name' method frame hbinds hdescends hmethod hallows := by
    obtain ⟨w', hle, hm, l, p, hstands⟩ := h.records _ hmem
    obtain ⟨hkept, hc⟩ := h.of_binds hbinds
    obtain ⟨above, hd, hframe, hfound⟩ := (hc d hdescends name' method hmethod).parentOf? h.holds hle hm hstands hallows
    rw [hm.get?_kept hle (hstands.fits.sited frame hframe) hkept] at hfound
    exact ⟨above, hd, fun steps => parent_binds hfound steps keyword name⟩
  relays env object name line m hmem steps id c m' hobject hfield hoffers hdepth := by
    obtain ⟨w', hle, hm, l, p, hstands⟩ := h.records _ hmem
    exact hm.relays hstands hobject hfield hoffers hdepth

end World

namespace Session

variable {s : Session} {records : List Record}

/-- In all runs of a session classes and their methods are dispatched as their declarations say. -/
theorem dispatches_as_declared (h : Logged s records) : Dispatches records := by
  obtain ⟨w, loaded, -, hrecorded⟩ := h.recorded
  exact hrecorded.dispatches

/-- Three classes whose methods call each other up the lineage. -/
def relaying : String :=
  "class A{m(){}}class B<A{m(){parent.m();}}class C<B{m(){parent.m();nil;}}C().m();"

set_option maxRecDepth 20000 in
theorem dispatches_as_declared_relaying :
    Logged (new.after 40 relaying) ((new.recording 40 relaying).records ++ []) ∧
      ((new.recording 40 relaying).records.any fun
        | .evaluates env (.call (.get object name) line []) m =>
          (enteredAll (stateBehind (Tracer.eval 40 env (.call (.get object name) line []) (.blank m))).happenings).map
            (·.function.body.length) == [2, 1, 0]
        | _ => false) = true ∧
      Dispatches ((new.recording 40 relaying).records ++ []) := by
  have hlogged := new_logged.run 40 relaying
  exact ⟨hlogged, by cbv, dispatches_as_declared hlogged⟩

end Session

end TreeWalk
