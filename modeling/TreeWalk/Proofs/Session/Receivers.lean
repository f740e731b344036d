import Mathlib
import TreeWalk.Proofs.Session.History

/-!
# Receivers

Methods run for the objects they were bound to. Wherever `this` is evaluated it is an object, `parent` is the
parent of the class that declares the method, and initializers give back their receivers.
-/

namespace TreeWalk

/-- How methods and their receivers fare in the events of a run. It is given what is the receiver in a frame. -/
structure ReceiversStand (receivers : FrameId → Option Value) (records : List Record) : Prop where
  /-- As soon as there is the frame of a receiver, `this` is the receiver in it, and nothing else. -/
  lasting : ∀ record ∈ records, ∀ m ∈ record.machine?, ∀ id v, receivers id = some v → id < m.heap.frames.size →
    (m.heap.frame id).get? receiverName = some v
  /-- Methods are bound to objects. -/
  bound : ∀ closure v, .binds closure v ∈ records → closure.BoundTo receivers v
  this_succeeds : ∀ env id line m, .evaluates env (.this id line) m ∈ records →
    ∀ steps, ∃ object c, Evaluation.eval (steps + 1) env (.this id line) m = .ok (.object object c) m
  parent_found : ∀ env id keyword method m, .evaluates env (.parent id keyword method) m ∈ records →
    FindsParent env id m
  /-- The evaluation of a method of the parent class fails only if there is none of the name. -/
  parent_fails : ∀ env id keyword method m, .evaluates env (.parent id keyword method) m ∈ records →
    ∀ steps stop m', Evaluation.eval (steps + 1) env (.parent id keyword method) m = .error stop m' →
      stop = .fault (.evaluation method.line (.undefinedProperty method.text))
  /-- An initializer gives back the object to which it was bound. -/
  initializer : ∀ closure v, .returns closure v ∈ records → closure.isInitializer = true → closure.BoundTo receivers v

namespace World

variable {w w' : World} {m : Machine}

/-- A frame that keeps a receiver has kept it since there is the frame. -/
theorem Holds.lasting (hm : w.Holds m) (hle : w ≤ w') {m' : Machine} (hm' : w'.Holds m') {id : FrameId} {v : Value}
    (hv : w'.receivers id = some v) (hid : id < m.heap.frames.size) : (m.heap.frame id).get? receiverName = some v := by
  have htop : id ≠ Heap.topFrame := (hm'.kept id receiverName v hv).2.1
  have hkept : w.kept id receiverName = some v := hle.settled (hm.sited id htop hid) hv
  exact (hm.kept id receiverName v hkept).2.2

theorem Recorded.receiversStand {r : Recording} (h : w.Recorded r) : ReceiversStand w.receivers r.records where
  lasting record hrecord m hm id v hv hid := by
    obtain ⟨w', hle, hallows⟩ := h.records record hrecord
    cases record <;> cases hm
    all_goals exact Holds.lasting hallows.1 hle h.holds hv hid
  bound closure v hmem := by
    obtain ⟨w', hle, hallows⟩ := h.records _ hmem
    exact BoundTo.mono hle hallows
  this_succeeds env id line m hmem steps := by
    obtain ⟨w', hle, hm, l, p, hstands⟩ := h.records _ hmem
    exact (hstands.findsReceiver hm).eval line steps
  parent_found env id keyword method m hmem := by
    obtain ⟨w', hle, hm, l, p, hstands⟩ := h.records _ hmem
    exact hstands.findsParent hm
  parent_fails env id keyword method m hmem steps stop m' hfails := by
    obtain ⟨w', hle, hm, l, p, hstands⟩ := h.records _ hmem
    exact (hstands.findsParent hm).fails hfails
  initializer closure v hmem hinitializer := by
    obtain ⟨w', hle, hallows⟩ := h.records _ hmem
    exact BoundTo.mono hle (hallows hinitializer)

end World

namespace Session

variable {s : Session} {loaded : List Loaded}

/-- Receivers stand wherever a session runs a method: `this` is an object, `parent` is the parent of the class
that declares the method, and initializers give back the objects to which they were bound. -/
theorem receivers_stand (h : Reached s loaded) (steps : Nat) (source : String) :
    ∃ receivers : FrameId → Option Value, ReceiversStand receivers (s.recording steps source).records := by
  obtain ⟨w, hw⟩ := h.known
  obtain ⟨w', hrecorded, -⟩ := hw.run steps source
  exact ⟨w'.receivers, hrecorded.receiversStand⟩

/-- A class whose initializer calls that of its parent. -/
def inheriting : String := "class A{init(){this;}}class B<A{init(){parent.init();}}B();"

set_option maxRecDepth 4000 in
theorem receivers_stand_inheriting :
    ((new.recording 20 inheriting).records.any fun
        | .evaluates _ (.parent ..) _ => true
        | _ => false) = true ∧
      ((new.recording 20 inheriting).records.any fun
        | .returns closure (.object ..) => closure.isInitializer
        | _ => false) = true ∧
      ∃ receivers : FrameId → Option Value, ReceiversStand receivers (new.recording 20 inheriting).records :=
  ⟨by cbv, by cbv, receivers_stand new_reached 20 inheriting⟩

end Session

end TreeWalk
