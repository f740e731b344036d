import Mathlib
import TreeWalk.Proofs.Evaluation.Supply
import TreeWalk.Proofs.Session.Depth

/-!
# Parameters in a session

In a program that passes the early stages no function has two parameters of one name. So in every session, whatever hosts
have added to it, each parameter of a function that is called gets the argument at its position.
-/

namespace TreeWalk

/-! ## Functions that are called -/

/-- The arguments are counted against the callee, and that has the arity of what it runs. -/
theorem Invocation.Runs.arity {a : Invocation} {c : Closure} (h : a.Runs c) (hadmitted : a.Admitted) :
    a.arguments.length = c.arity := by
  obtain ⟨callable, hsome, harity⟩ := hadmitted
  rcases h with hcallable | ⟨ofClass, method, frame, hcallable, hmethod, rfl⟩
  · cases hsome.symm.trans hcallable
    exact harity
  · cases hsome.symm.trans hcallable
    have harity : a.arguments.length = ofClass.arity := harity
    rw [harity, Class.arity, hmethod]
    rfl

namespace World

variable {w : World} {r : Recording} {v : Value} {h : Heap} {distances : Distances} {a : Invocation} {c : Closure}

theorem ValueFits.closure (hv : w.ValueFits v) (hcallable : v.callable? = some (.closure c)) : w.ClosureFits c := by
  cases v with
  | function identity closure =>
    cases hcallable
    exact hv
  | _ => cases hcallable

theorem ValueFits.class {ofClass : Class} (hv : w.ValueFits v) (hcallable : v.callable? = some (.class ofClass)) :
    w.ClassFits ofClass := by
  cases v with
  | «class» value =>
    cases hcallable
    exact hv
  | _ => cases hcallable

theorem Describes.distinct_parameters (hw : w.Describes h distances) {l : Loaded} (hl : l ∈ w.programs) {p : Place}
    {role : FunctionRole} {f : Function} (hoccurs : Occurs l.program p (.function role f)) :
    (f.params.map (·.text)).Nodup :=
  (List.nodup_append.1 ((hw.runnable l hl).legal.function_names p role f hoccurs)).1

/-- What a call runs is a function of a program, whether it is called itself or is the initializer of a class. -/
theorem Describes.parameters_nodup (hw : w.Describes h distances) (hvalue : w.ValueFits a.value) (hruns : a.Runs c) :
    c.parameters.Nodup := by
  rcases hruns with hcallable | ⟨ofClass, method, frame, hcallable, hmethod, rfl⟩
  · obtain ⟨l, hl, p, role, hoccurs, -⟩ := (hvalue.closure hcallable).occurs
    exact hw.distinct_parameters hl hoccurs
  · obtain ⟨d, hdescends, hown⟩ := Class.of_method? hmethod
    obtain ⟨l, hl, outer, role, hoccurs, -⟩ := (hvalue.class hcallable d hdescends _ method hown).occurs
    exact hw.distinct_parameters hl hoccurs

/-- What is called in a run is the value of an expression of a program, and that fits the world. -/
theorem Recorded.parameters_nodup (hr : w.Recorded r) {table : Distances} {depth : Nat} {scene : Scene}
    (hmade : a.Made r.records table depth scene) (hruns : a.Runs c) : c.parameters.Nodup := by
  obtain ⟨w', -, hm, l, p, hstands⟩ := hr.records _ hmade.recorded
  obtain ⟨steps, m, -, hcallee, -⟩ := hmade.evaluated
  have hcallee : Evaluation.eval steps a.environment a.callee (Recording.mk a.start []).machine = .ok a.value m := hcallee
  obtain ⟨r', hrun, -⟩ := ((Recorder.mirrors steps).eval a.environment a.callee).of_ok hcallee
  have hparts : w'.Stands l p a.environment (.expr a.callee) :=
    hstands.inner (m := .expr a.callee) (by simp [Invocation.site, Node.parts])
  have hsound := (sound steps).eval hparts ⟨a.start, []⟩ ⟨hm, by simp⟩
  rw [hrun] at hsound
  obtain ⟨w'', -, hr', hvalue⟩ := hsound
  exact Describes.parameters_nodup hr'.holds hvalue hruns

end World

namespace Session

/-! ## Sessions with hosts -/

/-- Sessions that begin with the standard functions and in which programs run. Between two programs a host may add
functions, and change all but what is in the heap, the table, and the number of calls in progress. -/
inductive Hosted : Session → Prop where
  | new {s : Session} (hheap : s.machine.heap = Native.register Native.standard .initial)
    (hdistances : s.machine.distances = ∅) (hdepth : s.machine.depth = 0) : Hosted s
  | host {s s' : Session} (h : Hosted s) (natives : List (String × Native))
    (hheap : s'.machine.heap = Native.register natives s.machine.heap)
    (hdistances : s'.machine.distances = s.machine.distances) (hdepth : s'.machine.depth = s.machine.depth)
    (hid : s.nextId ≤ s'.nextId) : Hosted s'
  | run {s : Session} (h : Hosted s) (steps : Nat) (source : String) : Hosted (s.after steps source)

variable {s : Session} {source : String} {launch : Launch}

theorem Hosted.known (h : Hosted s) : ∃ (w : World) (loaded : List Loaded), w.hosted ∧ w.Knows s loaded := by
  induction h with
  | new hheap hdistances _ =>
    obtain ⟨w, hhosted, hw⟩ := World.knows_initial True hheap hdistances
    exact ⟨w, [], hhosted.2 trivial, hw⟩
  | host _ natives hheap hdistances _ hid ih =>
    obtain ⟨w, loaded, hhosted, hw⟩ := ih
    have hnatives : ∀ native ∈ natives, native.2 = .define → w.hosted := fun _ _ _ => hhosted
    obtain ⟨w', hgrows, hw'⟩ := World.Describes.register hw.holds hnatives
    refine ⟨w', loaded, hgrows.le.hosted.2 hhosted, ?_, hgrows.programs.trans hw.programs, fun l hl u hu => ?_⟩
    · rw [World.Holds, hheap, hdistances]
      exact hw'
    · exact Nat.lt_of_lt_of_le (hw.fresh l hl u hu) hid
  | run _ steps source ih =>
    obtain ⟨w, loaded, hhosted, hw⟩ := ih
    obtain ⟨w', hle, -, hw'⟩ := hw.run_grows steps source
    exact ⟨w', _, hle.hosted.2 hhosted, hw'⟩

theorem Hosted.depth (h : Hosted s) : s.machine.depth = 0 := by
  induction h with
  | new _ _ hdepth => exact hdepth
  | host _ _ _ _ hdepth _ ih => exact hdepth.trans ih
  | run _ steps source ih => rw [depth_after (ih ▸ Nat.zero_le _), ih]

/-! ## Programs that are started -/

/-- In each call of the run every parameter of the function that is called gets the argument at its position. -/
structure BindsParameters (s : Session) (source : String) (launch : Launch) (steps : Nat) : Prop where
  ran : (s.after steps source).machine =
    (stateBehind (Tracer.program steps launch.program (.blank launch.machine))).machine
  bound : ∀ calls a depth inside,
    Happens (stateBehind (Tracer.program steps launch.program (.blank launch.machine))).happenings calls
      (.call a depth inside) → ∀ c, a.Runs c → ∀ m, c.BindsByPosition a.operandValues m

/-- The records of the run with calls are those of the session. -/
theorem recording_traced (hlaunch : s.launch? source = some launch) (steps : Nat) :
    (stateBehind (Tracer.program steps launch.program (.blank launch.machine))).recording = s.recording steps source := by
  rw [recording_behind, (tells_program steps launch.program).mirrors, recording, hlaunch]
  rfl

theorem bindsParameters (h : Hosted s) (hlaunch : s.launch? source = some launch) (steps : Nat) :
    s.BindsParameters source launch steps := by
  obtain ⟨w, loaded, -, hw⟩ := h.known
  obtain ⟨w', -, hrecorded, -⟩ := hw.run_grows steps source
  have hdepth : launch.machine.depth = 0 := by
    obtain ⟨-, -, -, rfl⟩ := launch?_eq_some_iff.1 hlaunch
    exact h.depth
  -- The story of the run tells of each call where it is made, and the world that its callee fits there.
  obtain ⟨-, -, -, hs, hhs, hstory⟩ :=
    (tells_program steps launch.program).told (.blank launch.machine) (hdepth ▸ Nat.zero_le _)
  have hhs : (stateBehind (Tracer.program steps launch.program (.blank launch.machine))).happenings = hs := hhs
  rw [recording_traced hlaunch] at hstory
  refine ⟨?_, fun calls a depth inside hx c hruns m => ?_⟩
  · rw [machine_after, ← recording_traced hlaunch]
  · have hhands := (program_handsOver launch.machine steps launch.program).calls calls a depth inside hx
    obtain ⟨scene, hs', stop, hstory', hmem, -⟩ := hstory.happens (hhs ▸ hx)
    obtain ⟨hadmitted, -, ⟨scene', hmade⟩, -⟩ := hstory'.call_mem hmem
    have harity : a.operandValues.length = c.arity := by rw [← hhands.values, List.length_map, hruns.arity hadmitted]
    exact Closure.bindsByPosition (hrecorded.parameters_nodup hmade hruns) harity m

/-- Whatever is entered by a call gets as many arguments as it takes, the values of the operands from left to right. In
a program that passes the early stages each parameter gets the one at its position. -/
theorem passes_arguments :
    (∀ (m : Machine) (steps : Nat) (program : List Stmt),
      HandsOverArguments m (Tracer.program steps program) (Evaluation.program steps program)) ∧
    ∀ s, Hosted s → ∀ source launch, s.launch? source = some launch → ∀ steps, s.BindsParameters source launch steps :=
  ⟨program_handsOver, fun _ h _ _ hlaunch steps => bindsParameters h hlaunch steps⟩

/-- A class with an initializer, and a function that gets an object of it. -/
def handing : String := "class A{init(a,b){this.a=b;}}fun f(x){return x.a;}f(A(nil,true));clock();"

/-- The initializer gets two arguments, and the function one. -/
theorem passes_arguments_handing : ∃ launch, new.launch? handing = some launch ∧
    (Happening.enteredAll (stateBehind (Tracer.program 40 launch.program (.blank launch.machine))).happenings).map
      (·.arity) = [2, 1] ∧
    HandsOverArguments launch.machine (Tracer.program 40 launch.program) (Evaluation.program 40 launch.program) ∧
    new.BindsParameters handing launch 40 := by
  have hentered : (new.launch? handing).map (fun launch =>
      (Happening.enteredAll (stateBehind (Tracer.program 40 launch.program (.blank launch.machine))).happenings).map
        (·.arity)) = some [2, 1] := by decide +kernel
  obtain ⟨launch, hlaunch, harities⟩ := Option.map_eq_some_iff.1 hentered
  exact ⟨launch, hlaunch, harities, passes_arguments.1 launch.machine 40 launch.program,
    passes_arguments.2 new (.new rfl rfl rfl) handing launch hlaunch 40⟩

end Session

end TreeWalk
