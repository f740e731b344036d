import Mathlib
import TreeWalk.Proofs.Parser.Programs
import TreeWalk.Proofs.Parser.Relabeling
import TreeWalk.Proofs.Scan.Joined
import TreeWalk.Proofs.Scope.Relabeling
import TreeWalk.Proofs.Session.Ongoing

/-!
# Programs in pieces

A program that is run in two pieces, one after the other, does what it does as a whole. The stages before the
run read the second piece behind the first as they read it alone, up to lines.
-/

namespace TreeWalk

namespace Session

/-! ## Two sources in one -/

section Joined

variable {s s₁ : Session} {first second : String} {launch others : Launch} {steps : Nat}

/-- The second source is read behind the first as it is read alone, on other lines. -/
theorem parsed_joined (hscan : (Scan.ofSource first).errors = []) (hparse : (s.parsed first).errors = [])
    (hid : s₁.nextId = (s.parsed first).nextId) (hparse' : (s₁.parsed second).errors = []) :
    ∃ line, s.parsed (first ++ "\n" ++ second) = ⟨(s.parsed first).statements ++
        (s₁.parsed second).statements.map (Stmt.relabel (.onLines line)), [], (s₁.parsed second).nextId⟩ ∧
      ((s₁.parsed second).statements.map (Stmt.relabel (.onLines line))).map (Stmt.relabel .withoutLines) =
        (s₁.parsed second).statements.map (Stmt.relabel .withoutLines) ∧
      ((Scan.ofSource second).errors = [] → (Scan.ofSource (first ++ "\n" ++ second)).errors = []) := by
  obtain ⟨lines, hbody, hscanned⟩ := Scan.ofSource_joined hscan second
  rw [← Parse.delimited_relabel] at hbody
  have hends := Scan.ofSource_ends second
  have hmoved := Parse.ofTokens_onLines s₁.nextId hends (· + lines)
  have hsame := Parse.withoutLines_ofTokens s₁.nextId hends (· + lines)
  rw [hmoved] at hsame
  refine ⟨(· + lines), ?_, hsame, hscanned⟩
  have hclean : (Parse.ofTokens s₁.nextId ((Scan.ofSource second).tokens.map (Token.relabel (.down lines)))).errors = [] := by
    rw [Relabeling.down, hmoved]
    exact List.map_eq_nil_iff.2 hparse'
  rw [hid] at hclean
  have happend := Parse.ofTokens_append hbody hparse hclean
  change s.parsed _ = ⟨(s.parsed first).statements ++ (Parse.ofTokens (s.parsed first).nextId _).statements, [],
    (Parse.ofTokens (s.parsed first).nextId _).nextId⟩ at happend
  rw [← hid, Relabeling.down, hmoved] at happend
  exact happend

/-- A program behind another one is started where the run of that one leads. -/
theorem Sound.launch_joined (hs : s.Sound) (h : s.launch? first = some launch)
    (hrun : Evaluation.program steps launch.program launch.machine = .ok () s₁.machine)
    (hid : s₁.nextId = (s.parsed first).nextId) (hothers : s₁.launch? second = some others) :
    ∃ program, s.launch? (first ++ "\n" ++ second) =
        some ⟨launch.program ++ program, { s.machine with distances := others.machine.distances }⟩ ∧
      program.map (Stmt.relabel .withoutLines) = others.program.map (Stmt.relabel .withoutLines) ∧
      (s.parsed (first ++ "\n" ++ second)).nextId = (s₁.parsed second).nextId := by
  have hnames : ∀ name ∈ s₁.names, name ∈ s.names ∨ name ∈ Stmt.namesAll launch.program := by
    rw [Stmt.namesAll_of_settled (settled_launch h)]
    exact hs.names_ran h hrun
  have htable : s₁.machine.distances = launch.machine.distances := distances_of_program hrun
  obtain ⟨hscan, hparse, hresolve, rfl⟩ := launch?_eq_some_iff.1 h
  obtain ⟨hscan', hparse', hresolve', rfl⟩ := launch?_eq_some_iff.1 hothers
  obtain ⟨line, hparsed, hsame, hscanned⟩ := parsed_joined hscan hparse hid hparse'
  have hresolved : (s.resolved (first ++ "\n" ++ second)).findings =
      (s.resolved first).findings ++ (s₁.resolved second).findings := by
    unfold resolved
    rw [hparsed]
    exact Resolution.findings_append hnames hresolve' line
  refine ⟨(s₁.parsed second).statements.map (Stmt.relabel (.onLines line)), launch?_eq_some_iff.2 ⟨hscanned hscan', ?_, ?_, ?_⟩,
    hsame, ?_⟩
  · rw [hparsed]
  · rw [Resolution.errors, hresolved, List.filterMap_append]
    exact List.append_eq_nil_iff.2 ⟨hresolve, hresolve'⟩
  · have hdistances : (s.resolved (first ++ "\n" ++ second)).addDistances s.machine.distances =
        (s₁.resolved second).addDistances s₁.machine.distances := by
      rw [Resolution.addDistances, hresolved, List.foldl_append, htable]
      rfl
    rw [hparsed, hdistances]
  · rw [hparsed]

/-- What the second program adds to the table makes no difference to the first. -/
theorem Sound.run_joined_first (hs : s.Sound) (h : s.launch? first = some launch)
    (hrun : Evaluation.program steps launch.program launch.machine = .ok () s₁.machine)
    (hid : s₁.nextId = (s.parsed first).nextId) (hothers : s₁.launch? second = some others) :
    Evaluation.program steps launch.program { s.machine with distances := others.machine.distances } =
      .ok () others.machine := by
  have hs₁ : s₁.Sound := hs.ran h (by rw [hrun]; rfl) hid
  have htable : s₁.machine.distances = launch.machine.distances := distances_of_program hrun
  -- Ids that the first program does not have go where the second has none.
  let labels : Relabeling := ⟨fun id => if id < s₁.nextId then id else id + (s₁.parsed second).nextId, id⟩
  have hlabels : labels.Fixes s₁.nextId :=
    { line := fun _ => rfl
      id := fun id hlt => if_pos hlt
      above := fun id hge => Nat.le_trans hge (by simp [labels, Nat.not_lt_of_le hge]) }
  have hagree (id : NodeId) : others.machine.distances[labels.id id]? = launch.machine.distances[id]? := by
    rw [← htable]
    rcases Nat.lt_or_ge id s₁.nextId with hlt | hge
    · rw [hlabels.id id hlt]
      exact distances_launch hothers hlt
    · have hmoved : labels.id id = id + (s₁.parsed second).nextId := if_neg (Nat.not_lt_of_le hge)
      rw [hmoved, unused_launch hs₁.unused hothers (Nat.le_add_left _ _)]
      exact (hs₁.unused id hge).symm
  let τ : Transfer := ⟨labels, launch.machine.distances, others.machine.distances, hagree, #[]⟩
  have hend : τ.machine s₁.machine = others.machine := by
    rw [machine_launch hothers, Transfer.machine, hs₁.fixed labels hlabels, Transcript.behind_empty]
  have hsame := hs.transfer h steps τ (hid ▸ hlabels) (heap_launch h) rfl
  rw [Transcript.behind_empty, hrun, machine_launch h] at hsame
  exact hsame.trans (congrArg (EStateM.Result.ok ()) hend)

end Joined

end Session

/-! ## Endings -/

def Machine.withoutLines (m : Machine) : Machine := { m with heap := m.heap.relabel .withoutLines }

def Halt.withoutLines : Halt → Halt
  | .error (.runtime (.evaluation _ cause)) => .error (.runtime (.evaluation 0 cause))
  | other => other

namespace Session

/-- A session up to source lines, and without what it has noted down about its stages. -/
def withoutLines (s : Session) : Session := { s with machine := s.machine.withoutLines, events := #[] }

/-- How a turn ends, up to source lines. -/
def ending : EStateM.Result Halt Session Unit → EStateM.Result Halt Session Unit
  | .ok () s => .ok () s.withoutLines
  | .error halt s => .error halt.withoutLines s.withoutLines

/-- How a turn ends when its program ends so. -/
def turn (reports : Transcript) (nextId : NodeId) : EStateM.Result Stop Machine Unit → EStateM.Result Halt Session Unit
  | .ok () machine => .ok () ⟨machine, reports, nextId, #[]⟩
  | .error (.fault fault) machine => .error (.error (.runtime fault)) ⟨machine, reports, nextId, #[]⟩
  | .error (.crash crash) machine => .error (.crashed crash) ⟨machine, reports, nextId, #[]⟩
  | .error .unfinished machine => .error .unfinished ⟨machine, reports, nextId, #[]⟩

theorem ending_execute (s : Session) (steps : Nat) (program : List Stmt) :
    ending (execute steps program s) = turn s.reports s.nextId
      (Evaluation.program steps (program.map (Stmt.relabel .withoutLines)) s.machine.withoutLines) := by
  let τ : Transfer := ⟨.withoutLines, s.machine.distances, s.machine.distances, fun _ => rfl, #[]⟩
  have hmachine {m : Machine} (hm : m.distances = s.machine.distances) : τ.machine m = m.withoutLines := by
    have hafter : τ.after = m.distances := hm.symm
    rw [Transfer.machine, Transcript.behind_empty, hafter]
    rfl
  have hdistances := distances_program steps program s.machine
  have hrun := (program_transfers τ steps program s.machine rfl).1
  rw [hmachine rfl] at hrun
  rw [hrun, execute]
  cases hprogram : Evaluation.program steps program s.machine with
  | ok _ m =>
    rw [hprogram] at hdistances
    rw [Transfer.outcome, hmachine (m := m) hdistances]
    rfl
  | error stop m =>
    rw [hprogram] at hdistances
    rw [Transfer.outcome, hmachine (m := m) hdistances]
    cases stop with
    | fault fault => cases fault <;> rfl
    | crash | unfinished => rfl

theorem output_ending (result : EStateM.Result Halt Session Unit) :
    (stateBehind (ending result)).machine.output = (stateBehind result).machine.output := by
  cases result <;> rfl

end Session

/-! ## Two programs in a row -/

theorem Evaluation.program_append (steps : Nat) (statements others : List Stmt) :
    program steps (statements ++ others) = (do program steps statements; program steps others) := by
  induction statements with
  | nil => rfl
  | cons s rest ih =>
    rw [List.cons_append, program, program, ih, bind_assoc]

namespace Session

theorem execute_append {s : Session} {steps : Nat} {statements : List Stmt} {m : Machine}
    (h : Evaluation.program steps statements s.machine = .ok () m) (others : List Stmt) :
    execute steps (statements ++ others) s = execute steps others { s with machine := m } := by
  have happend : Evaluation.program steps (statements ++ others) s.machine = Evaluation.program steps others m := by
    rw [Evaluation.program_append]
    exact bind_ok h
  unfold execute
  rw [happend]

/-- A program in two pieces does what it does as a whole, with any number of steps in which the first piece
ends. -/
theorem run_joined {s s₁ : Session} (h : s.Ongoing) {steps more : Nat} (hmore : steps ≤ more) {first second : String}
    (hfirst : run steps first s = .ok () s₁) (hsecond : (s₁.launch? second).isSome) :
    (s.launch? (first ++ "\n" ++ second)).isSome ∧
      ending (run more (first ++ "\n" ++ second) s) = ending (run more second s₁) ∧
      (s.after more (first ++ "\n" ++ second)).writtenSince s =
        s₁.writtenSince s ++ (s₁.after more second).writtenSince s₁ := by
  have hs := h.sound
  have hlaunched := run_ok hfirst
  rcases run_extends hlaunched hmore with ⟨_, hunfinished⟩ | hsame
  · rw [hfirst] at hunfinished
    cases hunfinished
  obtain ⟨launch, hlaunch⟩ := Option.isSome_iff_exists.1 hlaunched
  obtain ⟨others, hothers⟩ := Option.isSome_iff_exists.1 hsecond
  rw [hfirst, run_launch hlaunch] at hsame
  obtain ⟨hrun, hstate⟩ := execute_ok hsame
  change Evaluation.program more launch.program launch.machine = .ok () s₁.machine at hrun
  have hid : s₁.nextId = (s.parsed first).nextId := by rw [hstate]; rfl
  have hreports : s₁.reports = s.reports := by rw [hstate]; rfl
  have hs₁ : s₁.Sound := hs.ran hlaunch (by rw [hrun]; rfl) hid
  obtain ⟨program, hwhole, hlines, hnext⟩ := hs.launch_joined hlaunch hrun hid hothers
  have hends : ending (run more (first ++ "\n" ++ second) s) = ending (run more second s₁) := by
    have hrest := hs.run_joined_first hlaunch hrun hid hothers
    rw [run_launch hwhole, run_launch hothers, execute_append hrest, ending_execute, ending_execute, hlines]
    show turn s.reports (s.parsed (first ++ "\n" ++ second)).nextId _ = turn s₁.reports (s₁.parsed second).nextId _
    rw [hreports, hnext]
    rfl
  refine ⟨by rw [hwhole]; rfl, hends, ?_⟩
  have houtput : (s.after more (first ++ "\n" ++ second)).machine.output = (s₁.after more second).machine.output := by
    rw [after, ← output_ending, hends, output_ending]
    rfl
  have hwritten : s₁.machine.output.entries.toList = s.machine.output.entries.toList ++ s₁.writtenSince s :=
    hs.written hlaunch more (by rw [hrun]; rfl)
  have hwritten' := hs₁.written hothers more (machine_after_launch hothers more)
  rw [writtenSince, houtput, hwritten', hwritten, List.append_assoc, ← Array.length_toList, List.drop_left]

/-- A function that prints a variable. -/
def declaring : String := "var a=true;fun g(){print a;}"

set_option maxRecDepth 4000 in
/-- The function is called in a later program. -/
theorem run_joined_call : ∃ s₁, run 9 declaring new = .ok () s₁ ∧ (s₁.launch? "g();").isSome ∧
    (new.launch? (declaring ++ "\n" ++ "g();")).isSome ∧
    ending (run 9 (declaring ++ "\n" ++ "g();") new) = ending (run 9 "g();" s₁) ∧
    (new.after 9 (declaring ++ "\n" ++ "g();")).writtenSince new =
      s₁.writtenSince new ++ (s₁.after 9 "g();").writtenSince s₁ := by
  have hstart : ((new.launch? declaring).any fun launch =>
      match execute 9 launch.program (new.starting declaring launch) with
      | .ok _ s₁ => (s₁.launch? "g();").isSome
      | .error _ _ => false) = true := by cbv
  obtain ⟨launch, hlaunch, hends⟩ := (Option.any_eq_true ..).1 hstart
  have hrun := run_launch hlaunch 9
  cases hexecute : execute 9 launch.program (new.starting declaring launch) with
  | ok _ s₁ =>
    rw [hexecute] at hends hrun
    exact ⟨s₁, hrun, hends, run_joined (.new rfl rfl) (Nat.le_refl 9) hrun hends⟩
  | error _ _ =>
    rw [hexecute] at hends
    cases hends

end Session

end TreeWalk
