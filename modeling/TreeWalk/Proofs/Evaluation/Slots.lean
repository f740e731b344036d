import Mathlib
import TreeWalk.Proofs.Evaluation.Contents
import TreeWalk.Session

/-!
# Slots

A variable at a distance is one name in one frame. The walk outward leads to that frame, and a write changes what is
under the name there and nothing else: whoever shares the frame sees it, and nobody else does.
-/

namespace TreeWalk

/-! ## The walk outward -/

namespace Heap

/-- The environment that is left when one has gone so many frames outward. Nothing lies outside of the top level. -/
def outside? : Environment → (distance : Nat) → Option Environment
  | environment, 0 => some environment
  | [], _ + 1 => none
  | _ :: outer, distance + 1 => outside? outer distance

/-- Where one comes to outward and how far one can go, and that one can go all the way at once or in two parts. -/
structure Walks (environment : Environment) : Prop where
  reaches : ∀ distance, outward? environment distance = (outside? environment distance).map innermost
  ends : ∀ distance, outside? environment distance = none ↔ environment.length < distance
  composes : ∀ first second,
    outside? environment (first + second) = (outside? environment first).bind (outside? · second)

theorem outward?_eq_map_innermost (environment : Environment) (distance : Nat) :
    outward? environment distance = (outside? environment distance).map innermost := by
  induction environment generalizing distance with
  | nil => cases distance <;> rfl
  | cons id outer ih =>
    cases distance with
    | zero => rfl
    | succ distance => exact ih distance

theorem outside?_eq_none_iff (environment : Environment) (distance : Nat) :
    outside? environment distance = none ↔ environment.length < distance := by
  induction environment generalizing distance with
  | nil => cases distance <;> simp [outside?]
  | cons id outer ih => cases distance <;> simp [outside?, ih]

theorem outside?_add (environment : Environment) (first second : Nat) :
    outside? environment (first + second) = (outside? environment first).bind (outside? · second) := by
  -- The first part goes frame by frame, and the second one begins where it ends.
  induction first generalizing environment with
  | zero => rw [Nat.zero_add, outside?, Option.bind_some]
  | succ first ih =>
    rw [Nat.succ_add]
    cases environment with
    | nil => rfl
    | cons id outer => exact ih outer

theorem walks (environment : Environment) : Walks environment :=
  ⟨outward?_eq_map_innermost environment, outside?_eq_none_iff environment, outside?_add environment⟩

/-- Where no frame occurs twice, different distances lead to different frames. -/
theorem outward?_inj {environment : Environment} (h : (environment ++ [topFrame]).Nodup) {d d' : Nat} {id : FrameId}
    (hd : outward? environment d = some id) (hd' : outward? environment d' = some id) : d = d' := by
  rw [outward?_eq] at hd hd'
  exact (List.getElem?_inj (List.getElem?_eq_some_iff.1 hd).1 h).1 (hd.trans hd'.symm)

/-! ## The heap behind a write -/

variable {h : Heap} {id : FrameId} {name : String}

/-- What is looked up behind a definition, in whatever frame. -/
theorem get?_bind_define (hid : id < h.frames.size) (name : String) (v : Value) (found : Option FrameId) (other : String) :
    (found.bind fun i => ((h.define id name v).frame i).get? other) =
      if found = some id ∧ other = name then some v else found.bind fun i => (h.frame i).get? other := by
  cases found with
  | none => simp
  | some i =>
    rw [Option.bind_some, Option.bind_some, frame_define h i name v hid]
    by_cases hi : i = id
    · subst hi
      simp [Bindings.get?_set]
    · simp [hi]

end Heap

/-! ## Reads and writes -/

/-- One machine is the other one with a new value under one name in one frame. -/
structure Writes (m m' : Machine) (id : FrameId) (name : String) (v : Value) : Prop where
  slot : ∀ env d other, m'.heap.get? env d other =
    if Heap.outward? env d = some id ∧ other = name then some v else m.heap.get? env d other
  /-- Wherever a reference stands for the name in this frame, it has the new value. -/
  seen : ∀ env use, Run.frameOf? m env use.id = some id → use.name.text = name → Run.read env use m' = .ok v m'
  /-- Every other reference is read as before. -/
  unseen : ∀ env use, ¬ (Run.frameOf? m env use.id = some id ∧ use.name.text = name) →
    ∀ u, Run.read env use m' = .ok u m' ↔ Run.read env use m = .ok u m
  /-- Variables of the same name farther inward or outward are other ones. -/
  shadowed : ∀ env d d', (env ++ [Heap.topFrame]).Nodup → Heap.outward? env d = some id → d' ≠ d →
    ∀ other, m'.heap.get? env d' other = m.heap.get? env d' other
  /-- A frame that is added afterwards is another one. -/
  apart : ∀ bindings, (m'.heap.addFrame bindings).1 ≠ id
  rest : m' = { m with heap := { m.heap with frames := m'.heap.frames } }

/-- A reference reads and writes what is so many frames outward under its name. -/
structure OneSlot (m : Machine) (env : Environment) (use : Reference) (d : Nat) (v : Value) : Prop where
  walks : Heap.Walks env
  reads : ∀ u, Run.read env use m = .ok u m ↔ m.heap.get? env d use.name.text = some u
  /-- A new value can be given where there is a value. -/
  succeeds_iff : (∃ m', Run.assign env use v m = .ok () m') ↔ ∃ u, m.heap.get? env d use.name.text = some u
  writes : ∀ m', Run.assign env use v m = .ok () m' →
    ∃ id, Heap.outward? env d = some id ∧ Writes m m' id use.name.text v
  fails : m.heap.get? env d use.name.text = none →
    Run.assign env use v m = .error (.fault (.evaluation use.name.line (.undefinedVariable use.name.text))) m

namespace Run

variable {m m' : Machine} {env : Environment} {use : Reference} {d : Nat} {id : FrameId} {v : Value}

/-- What a reference stands for. -/
def found? (m : Machine) (env : Environment) (use : Reference) : Option Value :=
  (frameOf? m env use.id).bind fun id => (m.heap.frame id).get? use.name.text

theorem read_eq_ok_iff (m : Machine) (env : Environment) (use : Reference) (u : Value) :
    read env use m = .ok u m ↔ found? m env use = some u := by
  unfold read found?
  cases (frameOf? m env use.id).bind fun id => (m.heap.frame id).get? use.name.text with
  | none => exact iff_of_false nofun nofun
  | some w => simp

/-- Where there is a value, its frame gets the new one. -/
theorem assign_of_found {u : Value} (h : found? m env use = some u) (v : Value) :
    ∃ id, frameOf? m env use.id = some id ∧ m.heap.binds id use.name.text = true ∧
      assign env use v m = .ok () { m with heap := m.heap.define id use.name.text v } := by
  obtain ⟨id, hid, hu⟩ := Option.bind_eq_some_iff.1 h
  have hbinds : m.heap.binds id use.name.text = true := Option.isSome_iff_exists.2 ⟨u, hu⟩
  have hframe : (frameOf? m env use.id).filter (fun i => m.heap.binds i use.name.text) = some id :=
    Option.filter_eq_some_iff.2 ⟨hid, hbinds⟩
  refine ⟨id, hid, hbinds, ?_⟩
  rw [assign, hframe]
  rfl

theorem assign_of_not_found (h : found? m env use = none) (v : Value) :
    assign env use v m = .error (.fault (.evaluation use.name.line (.undefinedVariable use.name.text))) m := by
  have hframe : (frameOf? m env use.id).filter (fun i => m.heap.binds i use.name.text) = none := by
    refine Option.filter_eq_none_iff.2 fun id hid hbinds => ?_
    obtain ⟨u, hu⟩ := Option.isSome_iff_exists.1 hbinds
    rw [found?, hid, Option.bind_some, hu] at h
    cases h
  rw [assign, hframe]
  rfl

theorem assign_ok_iff (m : Machine) (env : Environment) (use : Reference) (v : Value) :
    (∃ m', assign env use v m = .ok () m') ↔ ∃ u, found? m env use = some u := by
  constructor
  · rintro ⟨m', hm'⟩
    refine Option.ne_none_iff_exists'.1 fun hnone => ?_
    rw [assign_of_not_found hnone] at hm'
    cases hm'
  · rintro ⟨u, hu⟩
    obtain ⟨id, -, -, hassign⟩ := assign_of_found hu v
    exact ⟨_, hassign⟩

theorem writes_define (hid : id < m.heap.frames.size) (name : String) (v : Value) :
    Writes m { m with heap := m.heap.define id name v } id name v := by
  have hsize : id < (m.heap.define id name v).frames.size := by simpa [Heap.define] using hid
  have hfound (env : Environment) (use : Reference) : found? { m with heap := m.heap.define id name v } env use =
      if frameOf? m env use.id = some id ∧ use.name.text = name then some v else found? m env use :=
    Heap.get?_bind_define hid name v (frameOf? m env use.id) use.name.text
  have hslot (env : Environment) (d : Nat) (other : String) : (m.heap.define id name v).get? env d other =
      if Heap.outward? env d = some id ∧ other = name then some v else m.heap.get? env d other :=
    Heap.get?_bind_define hid name v (Heap.outward? env d) other
  exact
    { slot := hslot
      seen := fun env use hframe hname => by rw [read_eq_ok_iff, hfound, if_pos ⟨hframe, hname⟩]
      unseen := fun env use hother u => by rw [read_eq_ok_iff, read_eq_ok_iff, hfound, if_neg hother]
      shadowed := fun env d d' henv hd hne other => by
        rw [hslot, if_neg fun heq => hne (Heap.outward?_inj henv heq.1 hd)]
      apart := fun _ => Nat.ne_of_gt hsize
      rest := rfl }

/-- A write changes the slot of its reference and nothing else. -/
theorem writes_of_assign (h : assign env use v m = .ok () m') :
    ∃ id, frameOf? m env use.id = some id ∧ Writes m m' id use.name.text v := by
  obtain ⟨u, hu⟩ := (assign_ok_iff m env use v).1 ⟨m', h⟩
  obtain ⟨id, hframe, hbinds, hassign⟩ := assign_of_found hu v
  rw [hassign] at h
  cases h
  exact ⟨id, hframe, writes_define (Heap.lt_size_of_binds hbinds) use.name.text v⟩

end Run

/-- A reference with a distance reads and writes exactly one slot. -/
theorem touches_one_slot {m : Machine} {use : Reference} {d : Nat} (hd : m.distances[use.id]? = some d)
    (env : Environment) (v : Value) : OneSlot m env use d v := by
  have hframe : Run.frameOf? m env use.id = Heap.outward? env d := by rw [Run.frameOf?, hd]
  have hfound : Run.found? m env use = m.heap.get? env d use.name.text := by rw [Run.found?, hframe, Heap.get?]
  exact
    { walks := Heap.walks env
      reads := fun u => by rw [Run.read_eq_ok_iff, hfound]
      succeeds_iff := by rw [Run.assign_ok_iff, hfound]
      writes := fun m' h => hframe ▸ Run.writes_of_assign h
      fails := fun h => Run.assign_of_not_found (hfound ▸ h) v }

/-- A variable at top level, another one of the same name in a frame, and two frames inside that. -/
def Machine.shared : Machine :=
  { Machine.initial false none fun _ => 0 with
    heap := ⟨#[Bindings.empty.set "x" .nil, Bindings.empty.set "x" (.bool false), .empty, .empty], #[], #[], 0⟩
    distances := (∅ : Distances).insert 0 1 }

/-- What is written from one of the two inner frames is read from the other, and not at top level. -/
theorem touches_one_slot_shared :
    Machine.shared.distances[0]? = some 1 ∧
      (match Run.assign [2, 1] ⟨0, "x", 1⟩ (.bool true) Machine.shared with
        | .ok () m => (match m.heap.get? [3, 1] 1 "x", m.heap.get? [3, 1] 2 "x" with
          | some (.bool true), some .nil => true
          | _, _ => false)
        | _ => false) = true ∧
      OneSlot Machine.shared [2, 1] ⟨0, "x", 1⟩ 1 (.bool true) := by
  have hdistance : Machine.shared.distances[0]? = some 1 := by cbv
  exact ⟨hdistance, by cbv, touches_one_slot hdistance [2, 1] (.bool true)⟩

end TreeWalk
