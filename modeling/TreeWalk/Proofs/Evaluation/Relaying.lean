import TreeWalk.Proofs.Evaluation.Bodies
import TreeWalk.Proofs.Evaluation.Steps
import TreeWalk.Proofs.Evaluation.Tracing

/-!
# Methods that call those of their parents

When each class of a lineage has a method of the name, and each of these calls that of its parent and nothing else, then
a call of the first one comes to all of them, in the order of the lineage.
-/

namespace TreeWalk

/-! ## Functions that are entered -/

namespace Happening

mutual

/-- The functions whose bodies are run, in order, whether directly or inside calls. -/
def entered : Happening → List Closure
  | enters c _ => [c]
  | call _ _ inside => enteredAll inside
  | _ => []

def enteredAll : List Happening → List Closure
  | [] => []
  | h :: rest => h.entered ++ enteredAll rest

end

/-- What is called directly, in order. -/
def invocations (hs : List Happening) : List Invocation := hs.filterMap invocation?

end Happening

open Happening

namespace Story

variable {records : List Record} {table : Distances} {depth : Nat} {scene : Scene} {hs : List Happening}
  {stop : Option Stop}

/-- Where nothing is called, no function is entered. -/
theorem entered_of_none (h : Story records table depth scene hs stop) (hscene : scene.Running)
    (hnone : invocations hs = []) : enteredAll hs = [] := by
  induction h with
  | ends => rfl
  | reaches _ _ ih => exact ih hscene hnone
  | enters => exact hscene.elim
  | refuses | call | breaks => cases hnone

/-- What is called alone is turned down, or all functions are entered inside its call. -/
theorem single {a : Invocation} (h : Story records table depth scene hs stop) (hscene : scene.Running)
    (ha : invocations hs = [a]) : a.Made records table depth scene ∧
      ((∃ cause, a.Declined depth cause) ∨ ∃ inside stop', .call a depth inside ∈ hs ∧
        enteredAll hs = enteredAll inside ∧ Story records table (depth + 1) (.call a) inside stop') := by
  induction h with
  | ends => cases ha
  | reaches _ _ ih =>
    obtain ⟨hmade, hdeclined | ⟨inside, stop', hmem, hentered, hinside⟩⟩ := ih hscene ha
    · exact ⟨hmade, .inl hdeclined⟩
    · exact ⟨hmade, .inr ⟨inside, stop', List.mem_cons_of_mem _ hmem, hentered, hinside⟩⟩
  | enters => exact hscene.elim
  | refuses hmade hdeclined =>
    cases ha
    exact ⟨hmade, .inl ⟨_, hdeclined⟩⟩
  | call hmade _ _ hinside h =>
    obtain ⟨rfl, hlater⟩ := List.cons.inj ha
    refine ⟨hmade, .inr ⟨_, _, List.mem_cons_self, ?_, hinside⟩⟩
    rw [enteredAll, entered, h.entered_of_none hscene hlater, List.append_nil]
  | breaks hmade _ _ hinside =>
    cases ha
    exact ⟨hmade, .inr ⟨_, _, List.mem_cons_self, List.append_nil _, hinside⟩⟩

/-- A function that is called is entered. -/
theorem of_function {a : Invocation} {identity : Nat} {c : Closure} (h : Story records table depth (.call a) hs stop)
    (hvalue : a.value = .function identity c) :
    ∃ later, hs = .enters c depth :: later ∧ Story records table depth (.body c) later stop := by
  have hcallable : a.value.callable? = some (.closure c) := by rw [hvalue]; rfl
  cases h with
  | ends hscene => exact absurd hcallable (hscene c)
  | reaches hallows => exact hallows.elim
  | refuses hmade | call hmade | breaks hmade => exact hmade.allowed.elim
  | enters hruns h =>
    rcases hruns with hruns | ⟨ofClass, method, frame, hruns, -⟩
    · cases hcallable.symm.trans hruns
      exact ⟨_, rfl, h⟩
    · cases hcallable.symm.trans hruns

end Story

theorem Tracer.happenings_closed {α : Type} (a : Invocation) (t : Tracing) (result : EStateM.Result Stop Tracing α) :
    (stateBehind (Tracer.closed a t result)).happenings =
      t.happenings ++ [.call a t.machine.depth (stateBehind result).happenings] := by
  cases result <;> rfl

theorem of_untraced {α : Type} {result : EStateM.Result Stop Tracing α} {v : α} {r : Recording}
    (h : untraced result = .ok v r) : ∃ t, result = .ok v t ∧ t.recording = r := by
  cases result with
  | ok u t =>
    cases h
    exact ⟨t, rfl, rfl⟩
  | error stop t => cases h

theorem recording_behind {α : Type} (result : EStateM.Result Stop Tracing α) :
    (stateBehind result).recording = stateBehind (untraced result) := by
  cases result <;> rfl

/-- What is done without a record is done with one. -/
theorem Mirrors.of_ok {α : Type} {x : Recorder α} {y : Run α} (h : Mirrors x y) {r : Recording} {v : α} {m : Machine}
    (hy : y r.machine = .ok v m) : ∃ r', x r = .ok v r' ∧ r'.machine = m := by
  have hx := h r
  rw [hy] at hx
  cases hresult : x r with
  | ok u r' =>
    rw [hresult] at hx
    cases hx
    exact ⟨r', rfl, rfl⟩
  | error stop r' =>
    rw [hresult] at hx
    cases hx

/-! ## A lineage -/

/-- Every class of the lineage has a method of the name without parameters. -/
def Class.Offers (c : Class) (name : String) : Prop :=
  ∀ body ∈ c.lineage, ∃ method, body.methods.get? name = some method ∧ method.arity = 0

/-- One method of the name is called, that of the parent of the class, without arguments. Where the class has no parent,
nothing is called. -/
def Class.CallsNext (c : Class) (name : String) (hs : List Happening) : Prop :=
  match c.parent? with
  | none => invocations hs = []
  | some _ => ∃ a id keyword line, ∃ called : Name, invocations hs = [a] ∧
    a.site = .call (.parent id keyword called) line [] ∧ called.text = name

/-- Wherever a method of the name runs that a class of the lineage declares, it calls the next one. -/
def Class.Relays (c : Class) (name : String) (hs : List Happening) : Prop :=
  ∀ calls a depth inside, Happens hs calls (.call a depth inside) → ∀ d method frame, c.DescendsFrom d →
    d.own.methods.get? name = some method → a.Runs (method.inFrame frame) → d.CallsNext name inside

/-- The functions are the methods of this name of all classes of the lineage, each in the frame of a receiver. -/
def Class.RunsAll (c : Class) (name : String) (closures : List Closure) : Prop :=
  List.Forall₂ (fun closure body => ∃ method frame, body.methods.get? name = some method ∧ closure = method.inFrame frame)
    closures c.lineage

section Lineage

variable {w : World} {r : Recording} {table : Distances} {c d : Class} {name : String} {method : Closure}
  {frame : FrameId} {a : Invocation} {depth : Nat} {inside : List Happening}

/-- A method calls that of the parent of its class, unless too many calls are in progress. -/
theorem World.Recorded.parent_called (hr : w.Recorded r) (hmethod : w.MethodFits d method)
    (hmade : a.Made r.records table depth (.body (method.inFrame frame))) {id : NodeId} {keyword called : Name} {line : Nat}
    (hsite : a.site = .call (.parent id keyword called) line []) : ∃ parent found identity frame',
      d.parent? = some parent ∧ parent.Selects called.text found ∧ a.value = .function identity (found.inFrame frame') ∧
        a.arguments = [] := by
  obtain ⟨w', hle, hm, l, p, hstands⟩ := hr.records _ hmade.recorded
  obtain ⟨environment, callee, line', operands, start, value, operandValues⟩ := a
  cases hsite
  have hallows : (Scene.body (method.inFrame frame)).Allows environment (.expr (.parent id keyword called)) :=
    hmade.allowed.inner (by simp [Invocation.site, Node.parts])
  obtain ⟨parent, hparent, -, hfound⟩ :=
    hmethod.parentOf? hr.holds hle hm (hstands.inner (by simp [Invocation.site, Node.parts])) hallows
  obtain ⟨steps, m, -, hevaluated, -⟩ := hmade.evaluated
  have hevaluated : Evaluation.eval steps environment (.parent id keyword called) start = .ok value m := hevaluated
  cases steps with
  | zero => cases hevaluated
  | succ steps =>
    -- Without a receiver the callee would not have come to a value.
    cases hreceiver : (start.heap.frame frame).get? receiverName with
    | none =>
      rw [hreceiver] at hfound
      rw [parent_without_receiver hfound steps keyword called] at hevaluated
      cases hevaluated
    | some receiver =>
      rw [hreceiver] at hfound
      have hbinds := parent_binds hfound steps keyword called
      rw [hevaluated] at hbinds
      obtain ⟨found, identity, frame', hselects, hvalue⟩ := hbinds.of_ok
      exact ⟨parent, found, identity, frame', hparent, hselects, hvalue, List.zipWith_nil_right⟩

/-- What a class has of its own it selects. -/
theorem Class.Selects.own (h : c.Selects name method) {own : Closure} (hown : c.own.methods.get? name = some own) :
    method = own := by
  have hmethod := Class.method?_eq_some_iff.2 h
  rw [Class.method?, Class.lineage, List.findSome?_cons, hown] at hmethod
  exact (Option.some.inj hmethod).symm

/-- A function without parameters can be called without arguments, and is, unless too many calls are in progress. -/
theorem Invocation.not_declined {identity : Nat} (hvalue : a.value = .function identity method)
    (harity : method.arity = 0) (harguments : a.arguments = []) (hdepth : depth < maxDepth) (cause : FaultCause) :
    ¬ a.Declined depth cause := by
  have hcallable : a.value.callable? = some (.closure method) := by rw [hvalue]; rfl
  intro h
  cases h with
  | notCallable hnone =>
    rw [hcallable] at hnone
    cases hnone
  | arity hsome hlength =>
    rw [hcallable] at hsome
    cases hsome
    exact hlength (by rw [harguments]; exact harity.symm)
  | full _ hfull => exact absurd hfull (Nat.ne_of_lt hdepth)

theorem Class.Relays.first (h : c.Relays name [.call a depth inside]) (hown : c.own.methods.get? name = some method)
    {identity : Nat} (hvalue : a.value = .function identity (method.inFrame frame)) : c.CallsNext name inside := by
  have hruns : a.Runs (method.inFrame frame) := .inl (by rw [hvalue]; rfl)
  exact h 0 a depth inside (.here List.mem_cons_self) c method frame (.refl c) hown hruns

/-- The method of the parent relays as well. -/
theorem Class.Relays.of_parent (h : c.Relays name [.call a depth inside]) (hparent : c.parent? = some d) {b : Invocation}
    {inside' : List Happening} (hmem : .call b (depth + 1) inside' ∈ inside) :
    d.Relays name [.call b (depth + 1) inside'] := by
  intro calls x depth' happenings hx e method frame hdescends
  have hinside : Happens inside calls (.call x depth' happenings) := hx.mono (by simpa using hmem)
  exact h (calls + 1) x depth' happenings (.inside List.mem_cons_self hinside) e method frame
    ((Class.descendsFrom_parent hparent).trans hdescends)

/-- A call of the first method comes to all of them, if each but the last one calls the next. -/
theorem Story.runs_all (hr : w.Recorded r) {own : ClassBody} {ancestors : List ClassBody} {identity : Nat}
    {stop : Option Stop} (hfits : w.ClassFits ⟨own, ancestors⟩) (hoffers : Class.Offers ⟨own, ancestors⟩ name)
    (hown : own.methods.get? name = some method) (hvalue : a.value = .function identity (method.inFrame frame))
    (h : Story r.records table (depth + 1) (.call a) inside stop) (hdepth : depth + 1 + ancestors.length ≤ maxDepth)
    (hrelays : Class.Relays ⟨own, ancestors⟩ name [.call a depth inside]) :
    Class.RunsAll ⟨own, ancestors⟩ name (enteredAll inside) := by
  -- The body of each method makes one call, and that runs the method of the next class in the lineage.
  induction ancestors generalizing own method frame a depth identity inside stop with
  | nil =>
    obtain ⟨later, rfl, hbody⟩ := h.of_function hvalue
    have hnone : invocations later = [] := hrelays.first hown hvalue
    rw [enteredAll, entered, hbody.entered_of_none trivial hnone]
    exact .cons ⟨method, frame, hown, rfl⟩ .nil
  | cons next rest ih =>
    obtain ⟨later, rfl, hbody⟩ := h.of_function hvalue
    obtain ⟨b, id, keyword, line, called, hb, hsite, rfl⟩ := hrelays.first hown hvalue
    obtain ⟨hmade, hcall⟩ := hbody.single trivial hb
    obtain ⟨parent, found, identity', frame', hparent, hselects, hvalue', harguments⟩ :=
      hr.parent_called (hfits _ (.refl _) _ method hown) hmade hsite
    obtain rfl : parent = ⟨next, rest⟩ := (Option.some.inj hparent).symm
    -- What the parent selects is a method of its own, since every class of the lineage has one.
    obtain ⟨method', hnext, harity⟩ := hoffers next (List.mem_cons_of_mem own List.mem_cons_self)
    obtain rfl := hselects.own hnext
    rw [List.length_cons] at hdepth
    obtain ⟨cause, hdeclined⟩ | ⟨inside', stop', hmem, hentered, hinside⟩ := hcall
    · exact absurd hdeclined (Invocation.not_declined hvalue' harity harguments (by omega) cause)
    · rw [enteredAll, entered, hentered]
      refine .cons ⟨method, frame, hown, rfl⟩ (ih ?_ ?_ hnext hvalue' hinside (by omega) ?_)
      · exact fun d hd => hfits d ((Class.descendsFrom_parent hparent).trans hd)
      · exact fun body hbody => hoffers body (List.mem_cons_of_mem own hbody)
      · exact hrelays.of_parent hparent (List.mem_cons_of_mem _ hmem)

end Lineage

end TreeWalk
