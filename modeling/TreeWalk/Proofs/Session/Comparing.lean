import TreeWalk.Proofs.Evaluation.Equality
import TreeWalk.Proofs.Evaluation.Standard
import TreeWalk.Proofs.Session.Ongoing

/-!
# Values that are compared

Whatever a session does, lists are in order at every moment of it, within a run and between two. So at every moment
values can be compared and printed, and comparing them is consistent.
-/

namespace TreeWalk

/-! ## Events at which lists are in order -/

/-- At every event that looks into the machine lists were in order. -/
def Recording.Orderly (r : Recording) : Prop := ∀ record ∈ r.records, ∀ m, record.machine? = some m → m.heap.Ordered

theorem Recorder.records_lift {α : Type} (x : Run α) (r : Recording) :
    (stateBehind (Recorder.lift x r)).records = r.records := by
  unfold Recorder.lift
  cases x r.machine <;> rfl

theorem Recording.Orderly.lift {α : Type} {r : Recording} (h : r.Orderly) (x : Run α) :
    (stateBehind (Recorder.lift x r)).Orderly := by
  rw [Orderly, Recorder.records_lift]
  exact h

/-- What is composed with care comes to no event at which lists are out of order. -/
theorem Composed.orderly {careful : Prop} (hc : careful) {α : Type} {lists : Nat} {post : Nat → α → Prop}
    {x : Recorder α} (h : Composed careful lists post x) (r : Recording) (hr : r.machine.heap.Ordered)
    (hsize : r.machine.heap.lists.size = lists) (hrecords : r.Orderly) : (stateBehind (x r)).Orderly := by
  induction h generalizing r with
  | quiet _ | print _ _ | prompt _ _ _ => exact hrecords.lift _
  | note record hrecord _ =>
    intro other hother m hm
    rcases List.mem_cons.1 hother with rfl | hother
    · exact eq_of_note hrecord hm ▸ hr
    · exact hrecords other hother m hm
  | bind hx _ ihx ihf =>
    refine stateBehind_bind (ihx r hr hsize hrecords) fun a r' hxr hrecords' => ?_
    have hsettles := hx.settles hc r hr hsize
    rw [hxr] at hsettles
    exact ihf _ a (fun _ => hsettles.2) r' hsettles.1 rfl hrecords'
  | @nested _ _ _ x line _ ih =>
    rw [Recorder.nested_eq]
    split
    · exact hrecords
    · have hbody := ih r.deeper hr hsize hrecords
      cases hxr : x r.deeper <;> rw [hxr] at hbody <;> exact hbody
  | get _ _ ih => exact ih r.machine (fun _ => ⟨hr, hsize⟩) r hr hsize hrecords
  | @echo _ _ _ v a _ _ =>
    show (stateBehind ((if r.machine.echo then _ else _ : Recorder _) r)).Orderly
    split
    · exact stateBehind_bind (hrecords.lift _) fun _ _ _ hrecords' => hrecords'
    · exact hrecords

/-! ## Moments of a session -/

namespace Session

/-- The machine at some moment of a session: between two programs, at an event of a program, or behind the
evaluation of an expression in any place. -/
inductive Passes : Machine → Prop where
  | between {s : Session} (h : s.Ongoing) : Passes s.machine
  | within {s : Session} (h : s.Ongoing) (steps : Nat) (source : String) {record : Record} {m : Machine}
    (hrecord : record ∈ (s.recording steps source).records) (hm : record.machine? = some m) : Passes m
  | behind {m : Machine} (h : Passes m) (steps : Nat) (env : Environment) (e : Expr) :
    Passes (stateBehind (Evaluation.eval steps env e m))

theorem recording_orderly {s : Session} (hs : s.machine.heap.Ordered) (steps : Nat) (source : String) :
    (s.recording steps source).machine.heap.Ordered ∧ (s.recording steps source).Orderly := by
  have hnone : Recording.Orderly ⟨s.machine, []⟩ := fun _ hrecord => absurd hrecord List.not_mem_nil
  unfold recording
  cases hlaunch : s.launch? source with
  | none => exact ⟨hs, hnone⟩
  | some launch =>
    have hordered : launch.machine.heap.Ordered := heap_launch hlaunch ▸ hs
    have hcomposed := program_composed True steps launch.machine.heap.lists.size launch.program
    have hmirrors := Recorder.program_mirrors steps launch.program
    have hsettles := hcomposed.settles trivial ⟨launch.machine, []⟩ hordered rfl
    refine ⟨?_, hcomposed.orderly trivial _ hordered rfl hnone⟩
    rw [← hmirrors.machine]
    exact (hmirrors _ ▸ hsettles).ordered

theorem Ongoing.ordered {s : Session} (h : s.Ongoing) : s.machine.heap.Ordered := by
  induction h with
  | new hheap _ => exact hheap ▸ Heap.ordered_initial.register (by decide)
  | host _ hheap _ _ ih => exact hheap ▸ ih
  | @run s _ steps source ih =>
    rw [machine_after]
    exact (recording_orderly ih steps source).1

theorem settles_eval {m : Machine} (hm : m.heap.Ordered) (steps : Nat) (env : Environment) (e : Expr) :
    Settles m.heap.lists.size Value.Ordered (Evaluation.eval steps env e m) := by
  have hsettles := ((composed True steps).eval _ env e).settles trivial ⟨m, []⟩ hm rfl
  rwa [(Recorder.mirrors steps).eval env e ⟨m, []⟩] at hsettles

theorem Passes.ordered {m : Machine} (h : Passes m) : m.heap.Ordered := by
  induction h with
  | between hs => exact hs.ordered
  | within hs steps source hrecord hm => exact (recording_orderly hs.ordered steps source).2 _ hrecord _ hm
  | behind _ steps env e ih => exact (settles_eval ih steps env e).ordered

/-- At every moment of a session all values that there are can be compared and printed, and comparing them is
consistent. So are those that an expression comes to. -/
theorem compares_consistently {m : Machine} (h : Passes m) :
    m.heap.Comparable ∧ ∀ steps env e v m', Evaluation.eval steps env e m = .ok v m' →
      v.Within m'.heap.lists.size ∧ m.heap.lists.size ≤ m'.heap.lists.size ∧ m'.heap.Comparable := by
  refine ⟨h.ordered.comparable, fun steps env e v m' heval => ?_⟩
  have hsettles := settles_eval h.ordered steps env e
  rw [heval] at hsettles
  obtain ⟨hordered, hle, hv⟩ := hsettles
  exact ⟨hv.within, hle, hordered.comparable⟩

/-- A list that holds another one twice. -/
def sharing : String := "var a=[nil];var b=[a,a];"

theorem compares_consistently_sharing : ∃ m v, (new.after 20 sharing).machine = m ∧ Passes m ∧
    m.heap.text? (.list 1) = some "[[nil], [nil]]" ∧ m.heap.Comparable ∧
    Evaluation.eval 2 [] (.variable ⟨99, "b", 1⟩) m = .ok v m ∧ v.typeName = "list" ∧ v.Within m.heap.lists.size := by
  have hpasses : Passes (new.after 20 sharing).machine := .between (.run (.new rfl rfl) 20 sharing)
  have htext : ((new.after 20 sharing).machine.heap.text? (.list 1) == some "[[nil], [nil]]") = true := by
    decide +kernel
  have htop : (new.after 20 sharing).machine.distances[99]?.isNone = true := by decide +kernel
  have hbound : ((new.after 20 sharing).machine.heap.globals.get? "b").any (·.typeName == "list") = true := by
    decide +kernel
  generalize (new.after 20 sharing).machine = m at *
  obtain ⟨v, hv, htype⟩ := (Option.any_eq_true ..).1 hbound
  have hfound : (Run.frameOf? m [] 99).bind (fun id => (m.heap.frame id).get? "b") = some v := by
    rw [Run.frameOf?, Option.isNone_iff_eq_none.1 htop]
    exact hv
  have heval : Evaluation.eval 2 [] (.variable ⟨99, "b", 1⟩) m = .ok v m := by
    show Run.read [] ⟨99, "b", 1⟩ m = _
    rw [Run.read, hfound]
  obtain ⟨hcomparable, hvalues⟩ := compares_consistently hpasses
  exact ⟨m, v, rfl, hpasses, eq_of_beq htext, hcomparable, heval, eq_of_beq htype, (hvalues _ _ _ _ _ heval).1⟩

end Session

end TreeWalk
