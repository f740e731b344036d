import TreeWalk.Proofs.Evaluation.Recording
import TreeWalk.Proofs.Evaluation.World
import TreeWalk.Proofs.Scan.Partition
import TreeWalk.Proofs.Scope.Distances
import TreeWalk.Session

/-!
# Programs that are started

A session starts a program if none of the early stages finds an error in it. What the stages make sure
of is gathered here, and a run is told as one on record.
-/

namespace TreeWalk

/-- A program, and the machine on which it starts. -/
structure Launch where
  program : List Stmt
  machine : Machine

namespace Session

/-- A session in which nothing has run. -/
def new : Session := start (.initial false none fun _ => 0) none

/-- The names that a program finds at top level. -/
def names (s : Session) : List String := s.machine.heap.globals.names

def parsed (s : Session) (source : String) : Parse := .ofTokens s.nextId (Scan.ofSource source).tokens

def resolved (s : Session) (source : String) : Resolution :=
  .ofProgram (Resolution.knownGlobals s.names) (s.parsed source).statements

/-- Starts a program in which no early stage finds an error. -/
def launch? (s : Session) (source : String) : Option Launch :=
  if (Scan.ofSource source).errors.isEmpty && (s.parsed source).errors.isEmpty && (s.resolved source).errors.isEmpty then
    some ⟨(s.parsed source).statements,
      { s.machine with distances := (s.resolved source).addDistances s.machine.distances }⟩
  else none

/-- What the stage that ends a turn with this error reports: one line for each error that it finds, in this
order. -/
def diagnostics (s : Session) (source : String) : SessionError → List String
  | .lexical _ => (Scan.ofSource source).errors.map fun e => "Lexical error: " ++ e.message ++ "\n"
  | .syntactic _ => (s.parsed source).errors.map fun e => "Syntax error: " ++ e.message ++ "\n"
  | .scoping _ => (s.resolved source).errors.map fun e => "Semantic error: " ++ e.message ++ "\n"
  | _ => []

/-- The error with which an early stage rejects a program. -/
def rejection? (s : Session) (source : String) : Option SessionError :=
  if (Scan.ofSource source).errors.isEmpty then
    if (s.parsed source).errors.isEmpty then
      if (s.resolved source).errors.isEmpty then none
      else some (.scoping (s.resolved source).errors.length)
    else some (.syntactic (s.parsed source).errors.length)
  else some (.lexical (Scan.ofSource source).errors.length)

/-- The ids that have been given away when a stage ends the turn with this error. -/
def idsBehind (s : Session) (source : String) : SessionError → NodeId
  | .lexical _ => s.nextId
  | _ => (s.parsed source).nextId

/-- The session when a program starts. -/
def starting (s : Session) (source : String) (launch : Launch) : Session where
  machine := launch.machine
  reports := s.reports
  nextId := (s.parsed source).nextId
  events := s.events ++ [(Scan.ofSource source).event] ++
    [(s.parsed source).event, .received (s.parsed source).statements.length] ++ (s.resolved source).events

/-- The run of a program on record. -/
def recording (s : Session) (steps : Nat) (source : String) : Recording :=
  match s.launch? source with
  | none => ⟨s.machine, []⟩
  | some launch => stateBehind (Recorder.program steps launch.program ⟨launch.machine, []⟩)

/-- The session behind a run. -/
def after (s : Session) (steps : Nat) (source : String) : Session := stateBehind (run steps source s)

/-! ## The stages of a run -/

theorem reportAll_same (stage : String) (messages : List String) (s : Session) :
    (stateBehind (reportAll stage messages s)).machine = s.machine ∧
      (stateBehind (reportAll stage messages s)).nextId = s.nextId := by
  induction messages generalizing s with
  | nil => exact ⟨rfl, rfl⟩
  | cons message rest ih =>
    have hsame : (stateBehind (report (stage ++ " error: " ++ message ++ "\n") s)).machine = s.machine ∧
        (stateBehind (report (stage ++ " error: " ++ message ++ "\n") s)).nextId = s.nextId := by
      unfold report
      dsimp only
      cases (s.reports.writeText .report (stage ++ " error: " ++ message ++ "\n")).1 <;> exact ⟨rfl, rfl⟩
    exact stateBehind_bind (P := fun s' => s'.machine = s.machine ∧ s'.nextId = s.nextId) hsame fun _ s₁ _ hfirst =>
      ⟨(ih s₁).1.trans hfirst.1, (ih s₁).2.trans hfirst.2⟩

section Stages

variable {s : Session} (post : EStateM.Result Halt Session Unit → Prop)

theorem of_note {events : List Event} {next : Unit → Turn Unit}
    (h : post (next () { s with events := s.events ++ events })) : post ((note events >>= next) s) := h

theorem of_parse {source : String} {next : Parse → Turn Unit}
    (h : post (next (s.parsed source) { s with nextId := (s.parsed source).nextId })) :
    post ((parse (Scan.ofSource source).tokens >>= next) s) := h

theorem of_resolve {program : List Stmt} {next : Resolution → Turn Unit}
    (h : post (next (.ofProgram (Resolution.knownGlobals s.names) program) s)) : post ((resolve program >>= next) s) := h

/-- A stage lets a program pass, or reports its errors and ends the turn. -/
theorem of_check {passes : Bool} {stage : String} {messages : List String} {error : SessionError}
    {next : Unit → Turn Unit} (hpass : passes = true → post (next () s))
    (hfail : passes = false → post ((do reportAll stage messages; fail error) s)) :
    post ((if (!passes) = true then
      reportAll stage messages >>= fun _ => fail error >>= next else next () : Turn Unit) s) := by
  cases passes with
  | true => exact hpass rfl
  | false => exact hfail rfl

end Stages

theorem rejection?_eq_none_iff {s : Session} {source : String} :
    s.rejection? source = none ↔ (s.launch? source).isSome := by
  unfold rejection? launch?
  cases (Scan.ofSource source).errors.isEmpty <;> cases (s.parsed source).errors.isEmpty <;>
    cases (s.resolved source).errors.isEmpty <;> simp

/-- A run executes a program that is started. Of one that is rejected it reports the errors. -/
theorem run_stages (s : Session) (steps : Nat) (source : String) (post : EStateM.Result Halt Session Unit → Prop)
    (hstart : ∀ launch, s.launch? source = some launch →
      post (execute steps launch.program (s.starting source launch)))
    (hreject : ∀ e, s.rejection? source = some e → ∀ s₀ : Session, s₀.machine = s.machine → s₀.reports = s.reports →
      s₀.nextId = s.idsBehind source e → ∀ stage messages,
      messages.map (fun message => stage ++ " error: " ++ message ++ "\n") = s.diagnostics source e →
      post ((do reportAll stage messages; fail e) s₀)) : post (run steps source s) := by
  refine of_note post (of_check post (fun hscan => ?_) fun hscan => ?_)
  · refine of_parse post (of_note post (of_check post (fun hparse => ?_) fun hparse => ?_))
    · refine of_resolve post ?_
      change post ((note (s.resolved source).events >>= _) _)
      refine of_note post (of_check post (fun hresolve => ?_) fun hresolve => ?_)
      · have hparse : (s.parsed source).errors.isEmpty = true := hparse
        have hresolve : (s.resolved source).errors.isEmpty = true := hresolve
        have hstarted : s.launch? source = some ⟨(s.parsed source).statements,
            { s.machine with distances := (s.resolved source).addDistances s.machine.distances }⟩ := by
          rw [launch?, hscan, hparse, hresolve]
          rfl
        exact hstart _ hstarted
      · have hresolve : (s.resolved source).errors.isEmpty = false := hresolve
        have hrejected : s.rejection? source = some (.scoping (s.resolved source).errors.length) := by
          simp [rejection?, hscan, show (s.parsed source).errors.isEmpty = true from hparse, hresolve]
        refine hreject _ hrejected _ ?_ ?_ ?_ "Semantic" _ List.map_map <;> rfl
    · have hparse : (s.parsed source).errors.isEmpty = false := hparse
      have hrejected : s.rejection? source = some (.syntactic (s.parsed source).errors.length) := by
        simp [rejection?, hscan, hparse]
      refine hreject _ hrejected _ ?_ ?_ ?_ "Syntax" _ List.map_map <;> rfl
  · have hrejected : s.rejection? source = some (.lexical (Scan.ofSource source).errors.length) := by
      simp [rejection?, hscan]
    refine hreject _ hrejected _ ?_ ?_ ?_ "Lexical" _ List.map_map <;> rfl

theorem nextId_le_idsBehind (s : Session) (source : String) (e : SessionError) : s.nextId ≤ s.idsBehind source e := by
  have hparsed : s.nextId ≤ (s.parsed source).nextId := (Parse.ofTokens_sound s.nextId _).nextId
  cases e with
  | lexical => exact Nat.le_refl _
  | _ => exact hparsed

/-- A run executes a program that is started, and otherwise ends with an error before anything is executed. -/
theorem run_cases (s : Session) (steps : Nat) (source : String) (post : EStateM.Result Halt Session Unit → Prop)
    (hstart : ∀ launch, s.launch? source = some launch →
      post (execute steps launch.program (s.starting source launch)))
    (hreject : s.launch? source = none → ∀ halt, ∀ s' : Session, s'.machine = s.machine → s.nextId ≤ s'.nextId →
      post (.error halt s')) : post (run steps source s) := by
  refine run_stages s steps source post hstart fun e he s₀ hmachine _ hid stage messages _ => ?_
  have hnone : s.launch? source = none := by
    rw [← Option.not_isSome_iff_eq_none, ← rejection?_eq_none_iff, he]
    simp
  obtain ⟨hmachine', hid'⟩ := reportAll_same stage messages s₀
  have hle : s.nextId ≤ s₀.nextId := hid ▸ s.nextId_le_idsBehind source e
  rw [bind_eq_match]
  cases hreport : reportAll stage messages s₀ with
  | ok _ s' | error _ s' =>
    rw [hreport] at hmachine' hid'
    exact hreject hnone _ s' (hmachine'.trans hmachine) (hid' ▸ hle)

theorem execute_state (s : Session) (steps : Nat) (program : List Stmt) :
    (stateBehind (execute steps program s)).machine = stateBehind (Evaluation.program steps program s.machine) ∧
      (stateBehind (execute steps program s)).nextId = s.nextId ∧
      (stateBehind (execute steps program s)).reports = s.reports := by
  unfold execute
  cases Evaluation.program steps program s.machine with
  | ok _ m => exact ⟨rfl, rfl, rfl⟩
  | error stop m => cases stop <;> exact ⟨rfl, rfl, rfl⟩

theorem run_launch {s : Session} {source : String} {launch : Launch} (h : s.launch? source = some launch) (steps : Nat) :
    run steps source s = execute steps launch.program (s.starting source launch) := by
  refine run_cases s steps source (· = execute steps launch.program (s.starting source launch))
    (fun launch' hlaunch => ?_) fun hnone => ?_
  · rw [h] at hlaunch
    cases hlaunch
    rfl
  · rw [h] at hnone
    cases hnone

theorem machine_after_launch {s : Session} {source : String} {launch : Launch} (h : s.launch? source = some launch)
    (steps : Nat) :
    (s.after steps source).machine = stateBehind (Evaluation.program steps launch.program launch.machine) := by
  rw [after, run_launch h]
  exact (execute_state (s.starting source launch) steps launch.program).1

theorem run_state (s : Session) (steps : Nat) (source : String) (post : Session → Prop)
    (hstart : ∀ launch, s.launch? source = some launch → ∀ s' : Session,
      s'.machine = stateBehind (Evaluation.program steps launch.program launch.machine) →
      s'.nextId = (s.parsed source).nextId → post s')
    (hreject : s.launch? source = none → ∀ s' : Session, s'.machine = s.machine → s.nextId ≤ s'.nextId → post s') :
    post (s.after steps source) := by
  refine run_cases s steps source (fun result => post (stateBehind result)) (fun launch hlaunch => ?_)
    fun hlaunch _ => hreject hlaunch
  obtain ⟨hmachine, hid, -⟩ := execute_state (s.starting source launch) steps launch.program
  exact hstart launch hlaunch _ hmachine hid

/-- A run leaves the machine as its recording does. -/
theorem machine_after (s : Session) (steps : Nat) (source : String) :
    (s.after steps source).machine = (s.recording steps source).machine := by
  refine run_state s steps source (·.machine = (s.recording steps source).machine)
    (fun launch hlaunch s' hmachine _ => ?_) fun hlaunch s' hmachine _ => ?_
  · rw [hmachine, recording, hlaunch]
    exact (Recorder.program_mirrors steps launch.program).machine ⟨launch.machine, []⟩
  · rw [hmachine, recording, hlaunch]

/-! ## What is known of a program that is started -/

section Started

variable {s : Session} {source : String} {launch : Launch}

theorem launch?_eq_some_iff : s.launch? source = some launch ↔
    (Scan.ofSource source).errors = [] ∧ (s.parsed source).errors = [] ∧ (s.resolved source).errors = [] ∧
      launch = ⟨(s.parsed source).statements,
        { s.machine with distances := (s.resolved source).addDistances s.machine.distances }⟩ := by
  simp only [launch?, Option.ite_none_right_eq_some, Bool.and_eq_true, List.isEmpty_iff, and_assoc, Option.some.injEq]
  rw [eq_comm (b := launch)]

theorem fresh_parsed (s : Session) (source : String) :
    Fresh s.nextId (s.parsed source).nextId (Stmt.referencesAll (s.parsed source).statements) :=
  (Parse.ofTokens_sound _ _).fresh

theorem runnable_launch (h : s.launch? source = some launch) : Loaded.Runnable ⟨s.names, launch.program⟩ := by
  obtain ⟨-, hparse, hresolve, rfl⟩ := launch?_eq_some_iff.1 h
  have hsound := Parse.ofTokens_sound s.nextId (Scan.ofSource source).tokens
  have hworded : Worded (Scan.ofSource source).tokens := fun _ ht hkind => Scan.ofWord_of_identifier ht hkind
  exact
    { legal := (errors_eq_nil_iff_legal hsound.settled).1 hresolve
      settled := hsound.settled
      unreserved := hsound.unreserved hworded
      confined := hsound.confined hparse
      contained := hsound.contained hparse }

/-- All references have their distances when the program starts, also those of earlier programs. -/
theorem located_launch (h : s.launch? source = some launch)
    (hknown : ∀ id d, s.machine.distances[id]? = some d → id < s.nextId) :
    Loaded.Located ⟨s.names, launch.program⟩ launch.machine.distances := by
  obtain ⟨-, -, hresolve, rfl⟩ := launch?_eq_some_iff.1 h
  obtain ⟨hids, hbounds⟩ := fresh_parsed s source
  intro p n hn u hu
  refine getElem?_distances (errors_eq_nil_iff_own.1 hresolve) hids hn hu ?_
  have hnew := (hbounds u (hn.uses_subset hu)).1
  cases hd : s.machine.distances[u.id]? with
  | none => rfl
  | some d => exact absurd (hknown u.id d hd) (Nat.not_lt_of_le hnew)

theorem distances_launch (h : s.launch? source = some launch) {id : NodeId} (hid : id < s.nextId) :
    launch.machine.distances[id]? = s.machine.distances[id]? := by
  obtain ⟨-, -, -, rfl⟩ := launch?_eq_some_iff.1 h
  refine getElem?_distances_of_ne fun u hu heq => ?_
  exact Nat.not_lt_of_le ((fresh_parsed s source).2 u hu).1 (heq ▸ hid)

theorem owned_launch (h : s.launch? source = some launch) {id : NodeId} {d : Nat}
    (hd : launch.machine.distances[id]? = some d) :
    s.machine.distances[id]? = some d ∨ ∃ u ∈ Stmt.referencesAll launch.program, u.id = id := by
  obtain ⟨-, -, -, rfl⟩ := launch?_eq_some_iff.1 h
  by_contra hnone
  rw [not_or] at hnone
  have hsame : ((s.resolved source).addDistances s.machine.distances)[id]? = s.machine.distances[id]? :=
    getElem?_distances_of_ne fun u hu hid => hnone.2 ⟨u, hu, hid⟩
  exact hnone.1 (hsame ▸ hd)

end Started

end Session

end TreeWalk
