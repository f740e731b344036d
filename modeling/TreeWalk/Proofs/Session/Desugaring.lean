import TreeWalk.Proofs.Evaluation.Desugaring
import TreeWalk.Proofs.Evaluation.Laps
import TreeWalk.Proofs.Session.Identities

/-!
# Programs without increments

A program with loops that have increments may be written without them: the increment comes at the end of the body, in a
block of its own. In every session the one program starts if the other one does, and it does the same.
-/

namespace TreeWalk

open Evaluation

/-! ## A world stands for itself -/

namespace World

variable {w : World} {h : Heap} {distances : Distances} {k : Pairing}

theorem Matches.bounded (hw : w.Describes h distances) {l : Loaded} {p : Place} {env : Environment} (hm : w.Matches l p env) :
    ∀ id ∈ env, id < h.frames.size := fun id hid =>
  Nat.lt_of_not_le fun hle => hm.sited id hid (hw.fresh id hle)

section Stands

variable (hw : w.Describes h distances) (hline : ∀ line, k.line line line)
  (hfixed : ∀ l ∈ w.programs, k.Fixes (Stmt.referencesAll l.program))

include hw hline hfixed

theorem Describes.pairs_closure {l : Loaded} (hl : l ∈ w.programs) {p q : Place} {role : FunctionRole} {c : Closure}
    (hoccurs : Occurs l.program p (.function role c.function)) (hm : w.Matches l q c.environment) (scopes : Nat) :
    c.Pairs k (List.range h.frames.size) (.whole scopes) c := by
  refine ⟨rfl, .whole c.environment.length, .whole (hm.bounded hw), ?_, fun _ => ?_⟩
  · rw [Padding.whole, Padding.whole, List.replicate_append_replicate]
    exact c.function.desugars_self hline (fun use huse => hfixed l hl use (hoccurs.references_subset huse)) _
  · rw [Padding.whole, Padding.whole, List.replicate_append_replicate]
    exact Padding.open_whole _

theorem Describes.pairs_class {c : Class} (hc : w.ClassFits c) : c.Pairs k (List.range h.frames.size) c := by
  refine List.forall₂_same.2 fun own hown => ⟨rfl, rfl, rfl, fun name => rel_refl_of fun method hmethod => ?_⟩
  obtain ⟨ancestors, hdescends⟩ := Class.descendsFrom_of_mem hown
  obtain ⟨l, hl, outer, role, hoccurs, hm, -, -⟩ := (hc ⟨own, ancestors⟩ hdescends name method hmethod).occurs
  exact hw.pairs_closure hline hfixed hl hoccurs hm 1

theorem Describes.pairs_value {v : Value} (hv : w.ValueFits v) : v.Pairs k (List.range h.frames.size) v := by
  induction v with
  | constant identity result ih => exact .constant identity (ih hv)
  | function identity c =>
    obtain ⟨l, hl, p, role, hoccurs, hm, -⟩ := ClosureFits.occurs hv
    exact .function identity (hw.pairs_closure hline hfixed hl hoccurs hm 0)
  | «class» c => exact .class (hw.pairs_class hline hfixed hv)
  | object id c => exact .object id (hw.pairs_class hline hfixed hv)
  | _ => constructor

/-- All that the heap holds stands for itself, as its programs do. -/
theorem Describes.pairs : Heap.Pairs k (List.range h.frames.size) h h where
  size := List.length_range
  top := List.getElem?_range hw.top
  distinct := List.nodup_range
  bounded _ hid := List.mem_range.1 hid
  frame {id id'} hid name := by
    obtain ⟨_, rfl⟩ := List.getElem?_eq_some_iff.1 hid
    rw [List.getElem_range]
    exact rel_refl_of fun v hv => hw.pairs_value hline hfixed (hw.frames id name v hv)
  lists := .refl_of fun values hvalues => .refl_of fun v hv => by
    obtain ⟨id, hid⟩ := Array.mem_iff_getElem?.1 hvalues
    have hsame : h.elements id = values := by rw [Heap.elements, hid, Option.getD_some]
    exact hw.pairs_value hline hfixed (hw.elements id v (hsame ▸ hv))
  objects := .refl_of fun fields hfields name => rel_refl_of fun v hv => by
    obtain ⟨id, hid⟩ := Array.mem_iff_getElem?.1 hfields
    have hsame : h.fields id = fields := by rw [Heap.fields, hid, Option.getD_some]
    exact hw.pairs_value hline hfixed (hw.fields id name v (hsame ▸ hv))
  identities := rfl

end Stands

end World

/-! ## Sessions -/

namespace Session

theorem Traced.behind {earlier : List Attempt} {s : Session} (h : Traced earlier s) (acts : List Act) :
    ∃ attempts, Traced attempts (s.behind acts) := by
  induction acts generalizing earlier s with
  | nil => exact ⟨earlier, h⟩
  | cons act rest ih =>
    cases act with
    | run steps source => exact ih (Traced.run (a := ⟨s, steps, source⟩) h)
    | _ => exact ih (h.host nofun)

/-- The second source is read as the program with some loops written without their increments, and without errors. -/
structure WritesOut (line : Nat → Nat → Prop) (s : Session) (program : List Stmt) (source' : String) : Prop where
  scanned : (Scan.ofSource source').errors = []
  parsed : (s.parsed source').errors = []
  desugars : Stmt.DesugarsAll (.onLines line) [] program (s.parsed source').statements

section Started

variable {w : World} {s : Session} {loaded : List Loaded} {line : Nat → Nat → Prop} {source source' : String}
  {launch launch' : Launch}

/-- No stage finds an error in a program without increments that it has not found in the program itself. -/
theorem WritesOut.starts (h : WritesOut line s launch.program source') (hlaunch : s.launch? source = some launch) :
    ∃ launch', s.launch? source' = some launch' ∧ Stmt.DesugarsAll (.onLines line) [] launch.program launch'.program := by
  obtain ⟨-, -, hresolve, rfl⟩ := launch?_eq_some_iff.1 hlaunch
  have hresolve' : (s.resolved source').errors = [] :=
    (errors_eq_nil_iff_clean _).2 (h.desugars.clean ⟨.nil, rfl⟩ ((errors_eq_nil_iff_clean _).1 hresolve))
  exact ⟨_, launch?_eq_some_iff.2 ⟨h.scanned, h.parsed, hresolve', rfl⟩, h.desugars⟩

/-- The tables have the distances of earlier programs as they were. -/
theorem fixes_launch (hw : w.Knows s loaded) (hlaunch : s.launch? source = some launch)
    (hlaunch' : s.launch? source' = some launch') (hline : ∀ l, line l l) : ∀ l ∈ w.programs,
      (Pairing.tables line launch.machine.distances launch'.machine.distances).Fixes (Stmt.referencesAll l.program) := by
  intro l hl use huse scopes
  have hid : use.id < s.nextId := hw.fresh l (hw.programs ▸ hl) use huse
  have hshift : (Padding.whole scopes).shift = id := funext (Padding.shift_whole scopes)
  refine ⟨⟨rfl, hline _⟩, ?_, fun _ distance _ => Padding.adjoins_whole scopes distance⟩
  rw [distances_launch hlaunch' hid, distances_launch hlaunch hid, hshift, Option.map_id, id]

theorem tabled_launch (hw : w.Knows s loaded) (hlaunch : s.launch? source = some launch)
    (hlaunch' : s.launch? source' = some launch') :
    Tabled s.names launch.program launch'.program launch.machine.distances launch'.machine.distances :=
  ⟨runnable_launch hlaunch, located_launch hlaunch hw.id_lt, located_launch hlaunch' hw.id_lt⟩

/-- The comparison of two programs that start in the same session. -/
def comparison (line : Nat → Nat → Prop) (launch launch' : Launch) (side : Side) : Comparison :=
  ⟨line, launch.machine.distances, launch'.machine.distances, side⟩

theorem machines_launch (hw : w.Knows s loaded) (hlaunch : s.launch? source = some launch)
    (hlaunch' : s.launch? source' = some launch') (hline : ∀ l, line l l) (hquiet : s.machine.echo = false) (side : Side) :
    (comparison line launch launch' side).Machines (List.range s.machine.heap.frames.size) launch.machine launch'.machine := by
  have hheap := hw.holds.pairs hline (fixes_launch hw hlaunch hlaunch' hline)
  obtain ⟨-, -, -, rfl⟩ := launch?_eq_some_iff.1 hlaunch
  obtain ⟨-, -, -, rfl⟩ := launch?_eq_some_iff.1 hlaunch'
  exact ⟨hheap, rfl, rfl, hquiet, hquiet, rfl, rfl, rfl, rfl, rfl⟩

end Started

/-! ## Runs -/

end Session

/-- Two turns end early for the same reason, be it on other lines. -/
inductive Halt.Alike (line : Nat → Nat → Prop) : Halt → Halt → Prop where
  | evaluation {l l' : Nat} (hline : line l l') (cause : FaultCause) :
    Alike line (.error (.runtime (.evaluation l cause))) (.error (.runtime (.evaluation l' cause)))
  | output : Alike line (.error (.runtime .output)) (.error (.runtime .output))
  | crashed (crash : Crash) : Alike line (.crashed crash) (.crashed crash)

namespace Session

def Unfinished (result : EStateM.Result Halt Session Unit) : Prop := haltOf result = some .unfinished

/-- Two turns come to an end, in the same way and with the same output, and have left as much of the input. -/
structure EndAlike (line : Nat → Nat → Prop) (result result' : EStateM.Result Halt Session Unit) : Prop where
  halt : Option.Rel (Halt.Alike line) (haltOf result) (haltOf result')
  output : (stateBehind result').machine.output = (stateBehind result).machine.output
  input : (stateBehind result').machine.input = (stateBehind result).machine.input
  reports : (stateBehind result').reports = (stateBehind result).reports

/-- Programs that run side by side end alike, if the one that is to come to an end does. -/
theorem execute_alike {c : Comparison} {frames : Frames} {steps steps' : Nat} {program program' : List Stmt} (s s' : Session)
    (hends : c.Ends frames Comparison.Any (Evaluation.program steps program s.machine)
      (Evaluation.program steps' program' s'.machine)) (hreports : s'.reports = s.reports)
    (hfirst : c.side = .first → ¬ Unfinished (execute steps program s))
    (hsecond : c.side = .second → ¬ Unfinished (execute steps' program' s')) :
    EndAlike c.line (execute steps program s) (execute steps' program' s') := by
  unfold execute at hfirst hsecond ⊢
  generalize Evaluation.program steps program s.machine = result,
    Evaluation.program steps' program' s'.machine = result' at hends hfirst hsecond ⊢
  cases hends with
  | ok _ hm _ => exact ⟨.none, hm.output, hm.input, hreports⟩
  | error _ hm hstop =>
    cases hstop with
    | evaluation hline cause => exact ⟨.some (.evaluation hline cause), hm.output, hm.input, hreports⟩
    | output => exact ⟨.some .output, hm.output, hm.input, hreports⟩
    | crash cause => exact ⟨.some (.crashed cause), hm.output, hm.input, hreports⟩
    | unfinished =>
      cases hside : c.side with
      | first => exact absurd rfl (hfirst hside)
      | second => exact absurd rfl (hsecond hside)
  | first hside m _ => exact absurd rfl (hfirst hside)
  | second hside _ m' => exact absurd rfl (hsecond hside)

/-- The second source starts as the first one does, and a run of either that comes to an end has a like run of the
other, with as many steps as one will but not too few. -/
structure Replaces (line : Nat → Nat → Prop) (s : Session) (source source' : String) : Prop where
  starts : (s.launch? source').isSome
  forth : ∀ {steps steps'}, ¬ Unfinished (run steps source s) → 5 * steps ≤ steps' →
    EndAlike line (run steps source s) (run steps' source' s)
  back : ∀ {steps steps'}, ¬ Unfinished (run steps' source' s) → steps' ≤ steps →
    EndAlike line (run steps source s) (run steps' source' s)

theorem WritesOut.replaces {w : World} {s : Session} {loaded : List Loaded} {line : Nat → Nat → Prop} {source source' : String}
    {launch : Launch} (h : WritesOut line s launch.program source') (hw : w.Knows s loaded)
    (hlaunch : s.launch? source = some launch) (hline : ∀ l, line l l) (hquiet : s.machine.echo = false) :
    Replaces line s source source' := by
  obtain ⟨launch', hlaunch', hprogram⟩ := h.starts hlaunch
  have hlocated := hprogram.tabled (tabled_launch hw hlaunch hlaunch')
  have hends (side : Side) {steps steps' : Nat} (hcovers : side.Covers 0 steps steps') :=
    program_along (c := comparison line launch launch' side) hcovers hlocated _ _
      (machines_launch hw hlaunch hlaunch' hline hquiet side)
  refine ⟨by rw [hlaunch']; rfl, fun hfinished hsteps => ?_, fun hfinished hsteps => ?_⟩
  · rw [run_launch hlaunch] at hfinished ⊢
    rw [run_launch hlaunch']
    exact execute_alike (s.starting source launch) (s.starting source' launch') (hends .first hsteps) rfl
      (fun _ => hfinished) nofun
  · rw [run_launch hlaunch'] at hfinished ⊢
    rw [run_launch hlaunch]
    exact execute_alike (s.starting source launch) (s.starting source' launch') (hends .second hsteps) rfl
      nofun fun _ => hfinished

theorem known_behind (echo : Bool) (limit : Option Nat) (clock : Nat → Float) (reportLimit : Option Nat) (acts : List Act) :
    ∃ (w : World) (loaded : List Loaded), w.Knows ((start (.initial echo limit clock) reportLimit).behind acts) loaded := by
  obtain ⟨attempts, w, loaded, -, hw, -⟩ := (Traced.start echo limit clock reportLimit).behind acts
  exact ⟨w, loaded, hw⟩

/-- In every session a program does the same if increments of its loops are written at the end of their bodies. It makes
no difference where in the program the loops are, nor how many of them are written so, as long as no `continue` in
the body of such a loop acts on it. In any loop the increment is evaluated once behind each execution of the body that
comes to its end or to a `continue`, and behind no other. -/
theorem increments_written_out (echo : Bool) (limit : Option Nat) (clock : Nat → Float) (reportLimit : Option Nat)
    (acts : List Act) {s : Session} (hs : s = (start (.initial echo limit clock) reportLimit).behind acts)
    (hquiet : s.machine.echo = false) {line : Nat → Nat → Prop} (hline : ∀ l, line l l) {source : String} {launch : Launch}
    (hlaunch : s.launch? source = some launch) :
    (∀ source', WritesOut line s launch.program source' → Replaces line s source source') ∧
      ∀ (steps : Nat) (env : Environment) (condition : Expr) (body : Stmt) (increment : Expr) (m : Machine),
        ∃ laps, Laps env condition body increment steps m laps (exec (steps + 1) env (.loop condition body (some increment)) m) ∧
          Lap.Alternating laps ∧
          ∀ laps' result, Laps env condition body increment steps m laps' result → laps' = laps := by
  obtain ⟨w, loaded, hw⟩ := known_behind echo limit clock reportLimit acts
  refine ⟨fun source' h => h.replaces (hs ▸ hw) hlaunch hline hquiet, fun steps env condition body increment m => ?_⟩
  obtain ⟨laps, hlaps⟩ := laps_loop env condition body increment steps m
  exact ⟨laps, hlaps, hlaps.alternating, fun laps' result h => (hlaps.unique h).1⟩

/-- A loop with a function in its body, and the same without an increment. -/
def counted : String := "for(var a=true;a;a=false){fun f(){print a;}f();}"

def uncounted : String := "{var a=true;while(a){{fun f(){print a;}f();}a=false;}}"

set_option maxRecDepth 10000 in
/-- The function finds the variable one scope further out. -/
theorem increments_written_out_closure : ∃ launch, new.launch? counted = some launch ∧
    WritesOut Eq new launch.program uncounted ∧ ¬ Unfinished (run 15 counted new) ∧
      EndAlike Eq (run 15 counted new) (run 75 uncounted new) := by
  have hprogram : (new.launch? counted).map (·.program) = some [.block [.var ⟨"a", 1⟩ (some (.literal (.bool true))),
      .loop (.variable ⟨0, ⟨"a", 1⟩⟩)
        (.block [.function ⟨"f", 1⟩ (.mk [] [.print 1 (.variable ⟨3, ⟨"a", 1⟩⟩)]),
          .expression (.call (.variable ⟨4, ⟨"f", 1⟩⟩) 1 [])])
        (some (.assign ⟨2, ⟨"a", 1⟩⟩ (.literal (.bool false))))]] := by cbv
  have hparsed : (new.parsed uncounted).statements = [.block [.var ⟨"a", 1⟩ (some (.literal (.bool true))),
      .loop (.variable ⟨0, ⟨"a", 1⟩⟩)
        (.block [.block [.function ⟨"f", 1⟩ (.mk [] [.print 1 (.variable ⟨1, ⟨"a", 1⟩⟩)]),
            .expression (.call (.variable ⟨2, ⟨"f", 1⟩⟩) 1 [])],
          .expression (.assign ⟨4, ⟨"a", 1⟩⟩ (.literal (.bool false)))])
        none]] := by cbv
  have hfinished : ¬ Unfinished (run 15 counted new) := by
    have hhalt : (haltOf (run 15 counted new)).isNone = true := by decide +kernel
    rw [Unfinished, Option.isNone_iff_eq_none.1 hhalt]
    exact (Option.some_ne_none _).symm
  obtain ⟨launch, hlaunch, hlaunched⟩ := Option.map_eq_some_iff.1 hprogram
  have hname (name : Name) : name.Pairs Eq name := ⟨rfl, rfl⟩
  have hwrites : WritesOut Eq new launch.program uncounted := by
    refine ⟨List.isEmpty_iff.1 (by decide +kernel), List.isEmpty_iff.1 (by decide +kernel), ?_⟩
    rw [hlaunched, hparsed]
    have hbody : Stmt.DesugarsAll (.onLines Eq) [.shared, .added, .shared]
        [.function ⟨"f", 1⟩ (.mk [] [.print 1 (.variable ⟨3, ⟨"a", 1⟩⟩)]), .expression (.call (.variable ⟨4, ⟨"f", 1⟩⟩) 1 [])]
        [.function ⟨"f", 1⟩ (.mk [] [.print 1 (.variable ⟨1, ⟨"a", 1⟩⟩)]), .expression (.call (.variable ⟨2, ⟨"f", 1⟩⟩) 1 [])] :=
      .cons (.function (Padding.open_shared _) (hname _) (.mk .nil (.cons (.print (.variable (hname _))) .nil)))
        (.cons (.expression (.call (.variable (hname _)) rfl .nil)) .nil)
    have hcontinue : ¬ Stmt.Continues (.block [.function ⟨"f", 1⟩ (.mk [] [.print 1 (.variable ⟨3, ⟨"a", 1⟩⟩)]),
        .expression (.call (.variable ⟨4, ⟨"f", 1⟩⟩) 1 [])]) := by
      rintro (_ | ⟨hs, h⟩)
      rcases List.mem_pair.1 hs with rfl | rfl <;> cases h
    have hincrement : Expr.Desugars (.onLines Eq) [.added, .shared] (.assign ⟨2, ⟨"a", 1⟩⟩ (.literal (.bool false)))
        (.assign ⟨4, ⟨"a", 1⟩⟩ (.literal (.bool false))) := .assign (hname _) (.literal _)
    have hcondition : Expr.Desugars (.onLines Eq) [.shared] (.variable ⟨0, ⟨"a", 1⟩⟩) (.variable ⟨0, ⟨"a", 1⟩⟩) :=
      .variable (hname _)
    have hinitializer := Stmt.Desugars.var (Padding.open_shared []) (hname ⟨"a", 1⟩) (.literal (k := .onLines Eq) (.bool true))
    exact .cons (.by_hand (.some hinitializer) hcondition hincrement (.block hbody) hcontinue) .nil
  exact ⟨launch, hlaunch, hwrites, hfinished,
    ((increments_written_out false none (fun _ => 0) none [] rfl rfl (fun _ => rfl) hlaunch).1 uncounted hwrites).forth
      hfinished (by decide)⟩

end Session

end TreeWalk
