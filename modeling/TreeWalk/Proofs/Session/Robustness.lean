import Mathlib
import TreeWalk.Proofs.Evaluation.Safety

/-!
# Runs crash only in pauses

Programs run without a crash also when they have been read with errors and when the table of distances is
wrong, as long as they do not pause for more seconds than can be counted.
-/

namespace TreeWalk

namespace Machine

/-- Programs that have been read, with or without errors, and run on any table of distances lead to the
machine. Between two runs a host may change all but the heap. -/
inductive Reachable : Machine → Prop where
  | initial (echo : Bool) (limit : Option Nat) (clock : Nat → Float) : Reachable (.initial echo limit clock)
  | host {m m' : Machine} (h : Reachable m) (hheap : m'.heap = m.heap) : Reachable m'
  | run {m : Machine} (h : Reachable m) (distances : Distances) (steps : Nat) (firstId : NodeId) (source : String) :
    Reachable (stateBehind (Evaluation.program steps (Parse.ofTokens firstId (Scan.ofSource source).tokens).statements
      { m with distances }))

theorem Reachable.sturdy {m : Machine} (h : m.Reachable) : m.heap.Sturdy .any := by
  induction h with
  | initial echo limit clock => exact Heap.sturdy_initial.register (by decide)
  | host _ hheap ih => exact hheap ▸ ih
  | @run m _ distances steps firstId source ih =>
    have hsettled := (Parse.ofTokens_sound firstId (Scan.ofSource source).tokens).settled
    have hlands := safe_program steps hsettled (fun _ _ => trivial) { m with distances } ih
    generalize Evaluation.program steps _ { m with distances } = result at hlands ⊢
    cases result with
    | ok _ m' => exact hlands.1
    | error stop m' => exact hlands.1

/-- A distance that leads past the top level is that of an undefined variable, and so is one that leaves no
frame for the receiver inside that of the parent class. -/
structure Bounded (m : Machine) : Prop where
  read : ∀ env use d, m.distances[use.id]? = some d → env.length < d →
    Run.read env use m = .error (.fault (.evaluation use.name.line (.undefinedVariable use.name.text))) m
  assign : ∀ env use value d, m.distances[use.id]? = some d → env.length < d →
    Run.assign env use value m = .error (.fault (.evaluation use.name.line (.undefinedVariable use.name.text))) m
  parent : ∀ env id keyword method d, m.distances[id]? = some d → env.length < d ∨ d = 0 →
    ∃ name ∈ [parentName, receiverName], Run.parentMethod env id keyword method m =
      .error (.fault (.evaluation keyword.line (.undefinedVariable name))) m

theorem outward?_eq_none {env : Environment} {d : Nat} (h : env.length < d) : Heap.outward? env d = none := by
  rw [Heap.outward?_eq]
  exact List.getElem?_eq_none (by simp; omega)

theorem bounded (m : Machine) : m.Bounded where
  read env use d hd hlong := by
    have hframe : Run.frameOf? m env use.id = none := by rw [Run.frameOf?, hd]; exact outward?_eq_none hlong
    rw [Run.read, hframe]
    rfl
  assign env use value d hd hlong := by
    have hframe : Run.frameOf? m env use.id = none := by rw [Run.frameOf?, hd]; exact outward?_eq_none hlong
    rw [Run.assign, hframe]
    rfl
  parent env id keyword method d hd hd' := by
    rw [Run.parentMethod, Run.get_bind, Run.parentOf?]
    simp only [bind, Option.bind, hd]
    rcases hd' with hlong | rfl
    · have hget : m.heap.get? env d parentName = none := by rw [Heap.get?, outward?_eq_none hlong]; rfl
      rw [hget]
      exact ⟨parentName, by simp, rfl⟩
    · cases m.heap.get? env 0 parentName with
      | none => exact ⟨parentName, by simp, rfl⟩
      | some v =>
        cases v with
        | «class» c => exact ⟨receiverName, by simp, rfl⟩
        | _ => exact ⟨parentName, by simp, rfl⟩

end Machine

/-- A subscript gives what lies at a position inside, or there is a fault. -/
def Heap.Indexed (h : Heap) (target index : Value) : Except Failure Value → Prop
  | .ok v => ∃ position, h.position index = .ok position ∧
    ((∃ id, target = .list id ∧ (h.elements id)[position]? = some v) ∨
      ∃ text c, target = .text text ∧ text.toList[position]? = some c ∧ v = .text c.toString)
  | .error (.fault cause) => cause = .notIndexable ∨ (∃ printed, cause = .invalidIndex printed) ∨
    ∃ position length, cause = .indexOutOfBounds position length ∧ length ≤ position
  | .error .endless => h.printed index = .error .endless

theorem Heap.indexed_subscript (h : Heap) (target index : Value) : h.Indexed target index (h.subscript target index) := by
  cases hresult : h.subscript target index with
  | ok v =>
    obtain ⟨position, hposition, helement⟩ := of_subscript_ok hresult
    exact ⟨position, hposition, of_element_ok helement⟩
  | error failure =>
    rcases of_subscript_error hresult with hposition | ⟨position, cause, helement, rfl⟩
    · rcases of_position_error hposition with ⟨text, rfl⟩ | ⟨hendless, rfl⟩
      · exact .inr (.inl ⟨text, rfl⟩)
      · exact hendless
    · rcases of_element_error helement with rfl | ⟨length, rfl, hlength⟩
      · exact .inl rfl
      · exact .inr (.inr ⟨position, length, rfl, hlength⟩)

/-- Programs, with whatever errors they have been read and whatever the table says, go on, end, or stop at a
fault. The exception are pauses that are finite and yet too long. -/
theorem crashes_only_in_pauses {m : Machine} (h : m.Reachable) (distances : Distances) (steps : Nat) (firstId : NodeId)
    (source : String) :
    (∀ cause m', Evaluation.program steps (Parse.ofTokens firstId (Scan.ofSource source).tokens).statements
        { m with distances } = .error (.crash cause) m' →
      ∃ seconds, cause = .pauseTooLong seconds ∧ (0 ≤ seconds && seconds.isFinite) = true ∧
        Native.pauseLimit ≤ seconds) ∧
      ({ m with distances } : Machine).Bounded ∧
      ∀ target index, m.heap.Indexed target index (m.heap.subscript target index) := by
  have hsettled := (Parse.ofTokens_sound firstId (Scan.ofSource source).tokens).settled
  refine ⟨fun cause m' hcrash => ?_, Machine.bounded _, m.heap.indexed_subscript⟩
  have hlands := safe_program steps hsettled (fun _ _ => trivial) { m with distances } h.sturdy
  rw [hcrash] at hlands
  exact hlands.2

set_option maxRecDepth 4000 in
/-- On a wrong table, the statement that could be read stops at a fault. -/
theorem crashes_only_in_pauses_wrong_table :
    (match Evaluation.program 5 (Parse.ofTokens 0 (Scan.ofSource "=;{var a;a;}").tokens).statements
        { Machine.initial false none fun _ => 0 with distances := (∅ : Distances).insert 0 9 } with
      | .error (.fault (.evaluation 1 (.undefinedVariable "a"))) _ => true
      | _ => false) = true ∧
      (Machine.initial false none fun _ => 0).Reachable ∧
      (∀ cause m', Evaluation.program 5 (Parse.ofTokens 0 (Scan.ofSource "=;{var a;a;}").tokens).statements
          { Machine.initial false none fun _ => 0 with distances := (∅ : Distances).insert 0 9 } = .error (.crash cause) m' →
        ∃ seconds, cause = .pauseTooLong seconds ∧ (0 ≤ seconds && seconds.isFinite) = true ∧
          Native.pauseLimit ≤ seconds) ∧
      ({ Machine.initial false none fun _ => 0 with distances := (∅ : Distances).insert 0 9 } : Machine).Bounded ∧
      ∀ target index, (Machine.initial false none fun _ => 0).heap.Indexed target index
        ((Machine.initial false none fun _ => 0).heap.subscript target index) :=
  have hinitial : (Machine.initial false none fun _ => 0).Reachable := .initial false none fun _ => 0
  ⟨by cbv, hinitial, crashes_only_in_pauses hinitial ((∅ : Distances).insert 0 9) 5 0 "=;{var a;a;}"⟩

end TreeWalk
