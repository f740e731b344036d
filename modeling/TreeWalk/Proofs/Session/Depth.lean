import Mathlib
import TreeWalk.Proofs.Evaluation.Tracing
import TreeWalk.Proofs.Session.History

/-!
# The number of calls in progress

The machine counts the calls that are in progress, so that a call can be turned down when there are too many. However
a run ends, the number behind it is the one with which it began. So the calls of one run never count against another.
-/

namespace TreeWalk

/-! ## Too many calls -/

/-- On this line a call is attempted that could be made, and as many are in progress as there may be. -/
def Exceeds (hs : List Happening) (line : Nat) : Prop :=
  ∃ calls x a, Happens hs calls x ∧ x.invocation? = some a ∧ a.Admitted ∧ x.depth = maxDepth ∧ a.line = line

section Exceeds

variable {h : Happening} {hs inside : List Happening} {line : Nat} {a : Invocation} {depth : Nat}

theorem not_exceeds_nil : ¬ Exceeds [] line := fun ⟨_, _, _, hx, _⟩ => Happens.nil_iff.1 hx

theorem exceeds_cons : Exceeds (h :: hs) line ↔ Exceeds [h] line ∨ Exceeds hs line := by
  constructor
  · rintro ⟨calls, x, a, hx, hrest⟩
    rcases Happens.cons_iff.1 hx with hx | hx
    · exact .inl ⟨calls, x, a, hx, hrest⟩
    · exact .inr ⟨calls, x, a, hx, hrest⟩
  · rintro (⟨calls, x, a, hx, hrest⟩ | ⟨calls, x, a, hx, hrest⟩)
    · exact ⟨calls, x, a, Happens.cons_iff.2 (.inl hx), hrest⟩
    · exact ⟨calls, x, a, Happens.cons_iff.2 (.inr hx), hrest⟩

/-- What is neither made nor turned down does not exceed anything. -/
theorem not_exceeds (hinvocation : h.invocation? = none) : ¬ Exceeds [h] line := by
  rintro ⟨calls, x, a, hx, ha, -⟩
  cases hx with
  | here hmem =>
    cases List.mem_singleton.1 hmem
    rw [hinvocation] at ha
    cases ha
  | inside hmem =>
    cases List.mem_singleton.1 hmem
    cases hinvocation

theorem exceeds_refuses : Exceeds [.refuses a depth] line ↔ a.Admitted ∧ depth = maxDepth ∧ a.line = line := by
  constructor
  · rintro ⟨calls, x, a', hx, ha, hrest⟩
    cases hx with
    | here hmem =>
      cases List.mem_singleton.1 hmem
      cases ha
      exact hrest
    | inside hmem => cases List.mem_singleton.1 hmem
  · intro hrest
    exact ⟨0, _, a, .here List.mem_cons_self, rfl, hrest⟩

/-- A call that is made does not exceed anything, though what happens inside may. -/
theorem exceeds_call (hdepth : depth < maxDepth) : Exceeds [.call a depth inside] line ↔ Exceeds inside line := by
  constructor
  · rintro ⟨calls, x, a', hx, ha, hadmitted, hfull, hline⟩
    cases hx with
    | here hmem =>
      cases List.mem_singleton.1 hmem
      exact absurd hfull (Nat.ne_of_lt hdepth)
    | inside hmem hx =>
      cases List.mem_singleton.1 hmem
      exact ⟨_, x, a', hx, ha, hadmitted, hfull, hline⟩
  · rintro ⟨calls, x, a', hx, hrest⟩
    exact ⟨calls + 1, x, a', .inside List.mem_cons_self hx, hrest⟩

end Exceeds

theorem Invocation.Declined.overflow_iff {a : Invocation} {depth : Nat} {cause : FaultCause} (h : a.Declined depth cause) :
    cause = .stackOverflow ↔ a.Admitted ∧ depth = maxDepth := by
  cases h with
  | notCallable hnone =>
    refine ⟨nofun, fun ⟨⟨callable, hcallable, _⟩, _⟩ => ?_⟩
    rw [hnone] at hcallable
    cases hcallable
  | arity hcallable hlength =>
    refine ⟨nofun, fun ⟨⟨callable, hcallable', harity⟩, _⟩ => ?_⟩
    rw [hcallable] at hcallable'
    cases hcallable'
    exact absurd harity hlength
  | full hadmitted hdepth => exact iff_of_true rfl ⟨hadmitted, hdepth⟩

namespace Story

variable {records : List Record} {table : Distances} {depth : Nat} {scene : Scene} {hs : List Happening}
  {stop : Option Stop}

/-- Outside of a call no body is entered besides. -/
theorem enters_not_mem (h : Story records table depth scene hs stop) (hscene : scene.Running) (c : Closure) (d : Nat) :
    .enters c d ∉ hs := by
  induction h with
  | ends => exact List.not_mem_nil
  | reaches _ _ ih | call _ _ _ _ _ _ ih => exact fun hmem => ih hscene ((List.mem_cons.1 hmem).resolve_left nofun)
  | enters => exact hscene.elim
  | refuses | breaks => exact fun hmem => absurd (List.mem_singleton.1 hmem) nofun

/-- A call enters one body at most, before anything else happens. -/
theorem enters_mem {a : Invocation} {c : Closure} {d : Nat} (h : Story records table depth (.call a) hs stop)
    (hmem : .enters c d ∈ hs) : a.Runs c ∧ ∃ later, hs = .enters c d :: later ∧ ∀ c' d', .enters c' d' ∉ later := by
  cases h with
  | ends => cases hmem
  | reaches hallows => exact hallows.elim
  | enters hruns h =>
    rcases List.mem_cons.1 hmem with heq | hmem
    · cases heq
      exact ⟨hruns, _, rfl, h.enters_not_mem trivial⟩
    · exact absurd hmem (h.enters_not_mem trivial c d)
  | refuses hmade | call hmade | breaks hmade => exact hmade.allowed.elim

/-- The run overflows exactly if it exceeds the number of calls, and where it does. -/
theorem overflow_iff (h : Story records table depth scene hs stop) (line : Nat) :
    stop = some (.overflow line) ↔ Exceeds hs line := by
  -- A run that goes on behind a call has not overflowed inside, so the last happening decides.
  induction h with
  | ends _ hstop => exact iff_of_false (hstop line) not_exceeds_nil
  | reaches _ _ ih | enters _ _ ih =>
    rw [exceeds_cons, ih]
    exact (or_iff_right (not_exceeds rfl)).symm
  | refuses _ hdeclined =>
    rw [exceeds_refuses, ← and_assoc, ← hdeclined.overflow_iff]
    simp [Stop.overflow, and_comm]
  | call _ _ hdepth _ _ ihinside ih =>
    rw [exceeds_cons, exceeds_call hdepth, ← ihinside, ih]
    simp
  | breaks _ _ hdepth _ ih => rw [exceeds_call hdepth, ← ih]

end Story

/-! ## Runs -/

/-- How the calls of a run are counted that begins on the machine. Its happenings are told by the evaluator with
calls on record, which does the same. -/
structure CallsCounted {α : Type} (m : Machine) (x : Tracer α) (y : Run α) : Prop where
  same : withoutRecords (untraced (x (.blank m))) = y m
  restored : (stateBehind (y m)).depth = m.depth
  /-- The number is that at the beginning and one for each call around. -/
  counted : ∀ calls h, Happens (stateBehind (x (.blank m))).happenings calls h →
    h.depth = m.depth + calls ∧ h.depth ≤ maxDepth
  made : ∀ calls a depth inside, Happens (stateBehind (x (.blank m))).happenings calls (.call a depth inside) →
    a.Admitted ∧ depth < maxDepth
  /-- A function runs in a call of its own, and an initializer in that of its class. -/
  bodies : ∀ c depth, .enters c depth ∉ (stateBehind (x (.blank m))).happenings
  one_body : ∀ calls a depth inside, Happens (stateBehind (x (.blank m))).happenings calls (.call a depth inside) →
    ∀ c d, .enters c d ∈ inside →
      a.Runs c ∧ ∃ later, inside = .enters c d :: later ∧ ∀ c' d', .enters c' d' ∉ later
  overflow : ∀ line,
    stopOf (y m) = some (.overflow line) ↔ Exceeds (stateBehind (x (.blank m))).happenings line

section Runs

variable {α : Type} {m : Machine} {x : Tracer α} {y : Recorder α} {z : Run α}

theorem Tells.callsCounted (h : Tells .outside x y) (hy : Mirrors y z) (hm : m.depth ≤ maxDepth) :
    CallsCounted m x z := by
  have hsame : withoutRecords (untraced (x (.blank m))) = z m := by
    rw [h.mirrors]
    exact hy _
  have hmachine : stateBehind (z m) = (stateBehind (x (.blank m))).machine := by
    rw [← hsame]
    cases x (.blank m) <;> rfl
  have hstop : stopOf (z m) = stopOf (x (.blank m)) := by
    rw [← hsame]
    cases x (.blank m) <;> rfl
  -- The story is one of the recorded run, which stops where the plain one does.
  obtain ⟨hdepth, -, -, hs, hhs, hstory⟩ := h.told (.blank m) hm
  have hhs : (stateBehind (x (.blank m))).happenings = hs := hhs
  rw [← hhs] at hstory
  exact
    { same := hsame
      restored := by rw [hmachine]; exact hdepth
      counted := fun calls happening hmem => by
        obtain ⟨scene, hs', stop, hstory', hmem', hbound⟩ := hstory.happens hmem
        have hcounted := hstory'.depth_mem happening hmem'
        exact ⟨hcounted, hcounted ▸ hbound hm⟩
      made := fun calls a depth inside hmem => by
        obtain ⟨scene, hs', stop, hstory', hmem', -⟩ := hstory.happens hmem
        obtain ⟨hadmitted, hroom, -⟩ := hstory'.call_mem hmem'
        have hcounted : depth = m.depth + calls := hstory'.depth_mem _ hmem'
        exact ⟨hadmitted, hcounted ▸ hroom⟩
      bodies := hstory.enters_not_mem trivial
      one_body := fun calls a depth inside hmem c d hc => by
        obtain ⟨scene, hs', stop, hstory', hmem', -⟩ := hstory.happens hmem
        obtain ⟨-, -, -, stop', hinside⟩ := hstory'.call_mem hmem'
        exact hinside.enters_mem hc
      overflow := fun line => by
        rw [hstop]
        exact hstory.overflow_iff line }

theorem eval_counted (hm : m.depth ≤ maxDepth) (steps : Nat) (env : Environment) (e : Expr) :
    CallsCounted m (Tracer.eval steps env e) (Evaluation.eval steps env e) := by
  have hallows : Scene.outside.Allows env (.expr e) := trivial
  exact ((tells steps).eval hallows).callsCounted ((Recorder.mirrors steps).eval env e) hm

theorem exec_counted (hm : m.depth ≤ maxDepth) (steps : Nat) (env : Environment) (s : Stmt) :
    CallsCounted m (Tracer.exec steps env s) (Evaluation.exec steps env s) := by
  have hallows : Scene.outside.Allows env (.stmt s) := trivial
  exact ((tells steps).exec hallows).callsCounted ((Recorder.mirrors steps).exec env s) hm

theorem program_depth (hm : m.depth ≤ maxDepth) (steps : Nat) (program : List Stmt) :
    (stateBehind (Evaluation.program steps program m)).depth = m.depth := by
  induction program generalizing m with
  | nil => rfl
  | cons s rest ih =>
    have hrestored := (exec_counted hm steps [] s).restored
    show (stateBehind (((Evaluation.exec steps [] s) >>= fun _ => Evaluation.program steps rest) m)).depth = m.depth
    cases h : Evaluation.exec steps [] s m with
    | error stop m' =>
      rw [h] at hrestored
      rw [bind_error h]
      exact hrestored
    | ok flow m' =>
      rw [h] at hrestored
      have hrestored : m'.depth = m.depth := hrestored
      rw [bind_ok h, ih (hrestored ▸ hm), hrestored]

end Runs

/-! ## Sessions -/

namespace Session

variable {s : Session} {loaded : List Loaded}

theorem depth_after (hs : s.machine.depth ≤ maxDepth) (steps : Nat) (source : String) :
    (s.after steps source).machine.depth = s.machine.depth := by
  refine s.run_state steps source (·.machine.depth = s.machine.depth) (fun launch hlaunch s' hmachine _ => ?_)
    fun _ s' hmachine _ => by rw [hmachine]
  have hlaunched : launch.machine.depth = s.machine.depth := by
    obtain ⟨-, -, -, rfl⟩ := s.launch?_eq_some_iff.1 hlaunch
    rfl
  rw [hmachine, program_depth (hlaunched ▸ hs), hlaunched]

/-- Between two runs no call is in progress. -/
theorem Reached.depth (h : Reached s loaded) : s.machine.depth = 0 := by
  induction h with
  | start | restart => rfl
  | run _ steps source ih => rw [depth_after (ih ▸ Nat.zero_le _), ih]
  | host _ hhost ih => rw [hhost.depth, ih]

/-- How calls are counted in whatever runs on the machine, and in the sessions that go on with it. -/
structure CountsCalls (m : Machine) : Prop where
  expressions : ∀ steps env e, CallsCounted m (Tracer.eval steps env e) (Evaluation.eval steps env e)
  statements : ∀ steps env s, CallsCounted m (Tracer.exec steps env s) (Evaluation.exec steps env s)
  runs : ∀ s : Session, s.machine = m → ∀ steps source, (s.after steps source).machine.depth = m.depth
  reached : ∀ s loaded, Reached s loaded → s.machine.depth = 0

/-- However a run ends, as many calls are in progress as at its beginning. Never are there more than the greatest
number, and exactly the attempt of one more overflows. -/
theorem calls_counted (m : Machine) (hm : m.depth ≤ maxDepth) : CountsCalls m where
  expressions := eval_counted hm
  statements := exec_counted hm
  runs := by
    rintro s rfl
    exact depth_after hm
  reached _ _ := Reached.depth

/-- A machine on which no further call can be made. -/
def full : Machine := { Machine.initial false none fun _ => 0 with depth := maxDepth }

/-- The call of a native function. -/
def reading : Expr := .call (.variable ⟨0, "clock", 1⟩) 1 []

theorem calls_counted_full :
    full.depth ≤ maxDepth ∧ stopOf (Evaluation.eval 3 [] reading full) = some (.overflow 1) ∧
      Exceeds (stateBehind (Tracer.eval 3 [] reading (.blank full))).happenings 1 ∧ CountsCalls full := by
  have hstop : stopOf (Evaluation.eval 3 [] reading full) = some (.overflow 1) := by cbv
  have hcounts := calls_counted full (Nat.le_refl _)
  exact ⟨Nat.le_refl _, hstop, ((hcounts.expressions 3 [] reading).overflow 1).1 hstop, hcounts⟩

end Session

end TreeWalk
