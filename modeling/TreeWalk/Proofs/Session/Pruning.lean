import Mathlib
import TreeWalk.Proofs.Session.Rejection

/-!
# Sessions without their rejected programs

A rejected program leaves the machine as it is. Programs that run later are read with other ids than without it,
and find the same distances under them, so what they write and how they end is the same.
-/

namespace TreeWalk

/-! ## Reading with other ids -/

/-- Lines stay, and ids below the first bound become what the base says. No others become ids below the second
bound. -/
structure Relabeling.Extends (r : Relabeling) (base : NodeId → NodeId) (bound bound' : NodeId) : Prop where
  line : ∀ n, r.line n = n
  below : ∀ id < bound, r.id id = base id
  above : ∀ id, bound ≤ id → bound' ≤ r.id id

theorem Heap.names_relabel (h : Heap) (r : Relabeling) : (h.relabel r).globals.names = h.globals.names := by
  rw [globals, relabel_frame, Bindings.names, Bindings.map, List.map_map]
  rfl

/-- Under a new id stands the distance that stands under the old one. -/
theorem Resolution.getElem?_addDistances_relabel {r : Relabeling} (hinjective : Function.Injective r.id)
    {old new : Resolution} (hsame : new.findings = old.findings.map (Finding.relabel r)) {known known' : Distances}
    {id : NodeId} (hknown : known'[r.id id]? = known[id]?) :
    (new.addDistances known')[r.id id]? = (old.addDistances known)[id]? := by
  obtain ⟨findings⟩ := old
  obtain ⟨_⟩ := new
  obtain rfl := hsame
  unfold addDistances
  dsimp only
  induction findings using List.reverseRecOn with
  | nil => exact hknown
  | append_singleton findings finding ih =>
    rw [List.map_append, List.map_singleton, List.foldl_append, List.foldl_append]
    cases finding with
    | violation e => exact ih
    | distance other name d =>
      simp only [Finding.relabel, List.foldl_cons, List.foldl_nil, Std.TreeMap.getElem?_insert, ih]
      have hother : compare (r.id other) (r.id id) = .eq ↔ compare other id = .eq := by
        simp [hinjective.eq_iff]
      simp only [hother]

namespace Session

section Read

variable {s t : Session} {ids : Nat}

theorem parsed_moved (hid : t.nextId = s.nextId + ids) (source : String) :
    t.parsed source = ⟨(s.parsed source).statements.map (Stmt.relabel (.moved ids fun line => line)),
      (s.parsed source).errors, (s.parsed source).nextId + ids⟩ := by
  have hread := Parse.ofTokens_moved s.nextId (Scan.ofSource_ends source) ids fun line => line
  have htokens : (Scan.ofSource source).tokens.map (Token.relabel (.moved ids fun line => line)) =
      (Scan.ofSource source).tokens := List.map_id _
  have herrors : (s.parsed source).errors.map (SyntaxError.relabel (.moved ids fun line => line)) =
      (s.parsed source).errors := List.map_id _
  rw [htokens, ← hid] at hread
  exact hread.trans (congrArg (Parse.mk _ · _) herrors)

theorem idsBehind_moved (hid : t.nextId = s.nextId + ids) (source : String) (e : SessionError) :
    t.idsBehind source e = s.idsBehind source e + ids := by
  have hparsed : (t.parsed source).nextId = (s.parsed source).nextId + ids := by rw [parsed_moved hid]
  cases e with
  | lexical n => exact hid
  | _ => exact hparsed

theorem resolved_moved (hid : t.nextId = s.nextId + ids) (hnames : t.names = s.names) (source : String) :
    (t.resolved source).findings =
      (s.resolved source).findings.map (Finding.relabel (.moved ids fun line => line)) := by
  have hsame : (Scopes.ofGlobals (Resolution.knownGlobals s.names)).Widens False
      (.ofGlobals (Resolution.knownGlobals s.names)) := ⟨fun _ => rfl, rfl, fun _ h => h, fun _ h => h⟩
  unfold resolved Resolution.ofProgram
  rw [parsed_moved hid, hnames]
  dsimp only
  rw [← Stmt.relabelAll_eq]
  exact Stmt.findingsAll_relabel hsame _ _ False.elim

theorem errors_moved (hid : t.nextId = s.nextId + ids) (hnames : t.names = s.names) (source : String) :
    (t.resolved source).errors = (s.resolved source).errors := by
  unfold Resolution.errors
  rw [resolved_moved hid hnames, List.filterMap_map]
  refine List.filterMap_congr fun finding _ => ?_
  cases finding <;> rfl

/-- The same programs are rejected, with the same errors. -/
theorem rejection?_moved (hid : t.nextId = s.nextId + ids) (hnames : t.names = s.names) (source : String) :
    t.rejection? source = s.rejection? source ∧ ∀ e, t.diagnostics source e = s.diagnostics source e := by
  refine ⟨?_, fun e => ?_⟩
  · unfold rejection?
    rw [errors_moved hid hnames, parsed_moved hid]
  · cases e with
    | scoping n => rw [diagnostics, errors_moved hid hnames, diagnostics]
    | syntactic n => rw [diagnostics, parsed_moved hid, diagnostics]
    | _ => rfl

end Read

/-! ## Sessions that differ in ids -/

/-- The second session has given away more ids than the first, and may have reported more. All else is the same but
for the ids, and no heap or table has an id that is still to be given away. -/
structure Renumbers (base : NodeId → NodeId) (s t : Session) : Prop where
  machine : t.machine = { s.machine with heap := t.machine.heap, distances := t.machine.distances }
  unlimited : s.reports.room = none ∧ t.reports.room = none
  nextId : s.nextId ≤ t.nextId
  unused : ∀ id, s.nextId ≤ id → s.machine.distances[id]? = none
  unused' : ∀ id, t.nextId ≤ id → t.machine.distances[id]? = none
  below : ∀ id < s.nextId, base id < t.nextId
  distances : ∀ id < s.nextId, t.machine.distances[base id]? = s.machine.distances[id]?
  heap : ∀ r : Relabeling, r.Extends base s.nextId t.nextId → t.machine.heap = s.machine.heap.relabel r

/-- The base with the ids that are given away next, if the second session is so many ids ahead. -/
def extendBase (base : NodeId → NodeId) (bound ids : Nat) (id : NodeId) : NodeId :=
  if id < bound then base id else id + ids

theorem extendBase_of_lt {base : NodeId → NodeId} {bound ids id : Nat} (h : id < bound) :
    extendBase base bound ids id = base id := if_pos h

theorem extendBase_of_le {base : NodeId → NodeId} {bound ids id : Nat} (h : bound ≤ id) :
    extendBase base bound ids id = id + ids := if_neg (Nat.not_lt_of_le h)

theorem extends_extendBase (base : NodeId → NodeId) (bound gap : Nat) :
    Relabeling.Extends ⟨extendBase base bound gap, fun line => line⟩ base bound (bound + gap) where
  line _ := rfl
  below _ hid := extendBase_of_lt hid
  above id hid := by
    show bound + gap ≤ extendBase base bound gap id
    rw [extendBase_of_le hid]
    exact Nat.add_le_add_right hid gap

/-- What agrees with the base behind a program agrees with the one before it. -/
theorem restrict_extends {base : NodeId → NodeId} {bound gap ids : Nat} {r : Relabeling}
    (hr : r.Extends (extendBase base bound gap) (bound + ids) (bound + gap + ids)) : r.Extends base bound (bound + gap) where
  line := hr.line
  below id hlt := by rw [hr.below id (Nat.lt_of_lt_of_le hlt (Nat.le_add_right _ ids)), extendBase_of_lt hlt]
  above id hge := by
    rcases Nat.lt_or_ge id (bound + ids) with hlt | hge'
    · rw [hr.below id hlt]
      exact (extends_extendBase base bound gap).above id hge
    · exact Nat.le_trans (Nat.le_add_right _ ids) (hr.above id hge')

namespace Renumbers

variable {base : NodeId → NodeId} {s t : Session} {gap : Nat}

theorem names (h : Renumbers base s t) : t.names = s.names := by
  obtain ⟨gap, hgap⟩ := Nat.exists_eq_add_of_le h.nextId
  unfold Session.names
  rw [h.heap _ (hgap ▸ extends_extendBase base s.nextId gap), Heap.names_relabel]

theorem output (h : Renumbers base s t) : t.machine.output = s.machine.output := by rw [h.machine]

/-- Ids may be left out in the second session. -/
theorem ahead_of_reports (h : Renumbers base s t) {t' : Session} (hmachine : t'.machine = t.machine)
    (hid : t.nextId ≤ t'.nextId) (hroom : t'.reports.room = none) : Renumbers base s t' where
  machine := hmachine ▸ h.machine
  unlimited := ⟨h.unlimited.1, hroom⟩
  nextId := Nat.le_trans h.nextId hid
  unused := h.unused
  unused' id hid' := hmachine ▸ h.unused' id (Nat.le_trans hid hid')
  below id hlt := Nat.lt_of_lt_of_le (h.below id hlt) hid
  distances id hlt := hmachine ▸ h.distances id hlt
  heap r hr := by
    rw [hmachine]
    exact h.heap r ⟨hr.line, hr.below, fun id hge => Nat.le_trans hid (hr.above id hge)⟩

theorem below_extendBase (h : Renumbers base s t) (hgap : t.nextId = s.nextId + gap) {id ids : Nat}
    (hid : id < s.nextId + ids) : extendBase base s.nextId gap id < t.nextId + ids := by
  rcases Nat.lt_or_ge id s.nextId with hlt | hge
  · rw [extendBase_of_lt hlt]
    exact Nat.lt_of_lt_of_le (h.below id hlt) (Nat.le_add_right _ ids)
  · rw [extendBase_of_le hge, hgap, Nat.add_right_comm]
    exact Nat.add_lt_add_right hid gap

/-- Equally many ids have been given away in both sessions. -/
theorem read (h : Renumbers base s t) (hgap : t.nextId = s.nextId + gap) {s' t' : Session} {ids : Nat}
    (hs : s'.nextId = s.nextId + ids) (ht : t'.nextId = t.nextId + ids) (hmachine : s'.machine = s.machine)
    (hmachine' : t'.machine = t.machine) (hroom : s'.reports.room = none ∧ t'.reports.room = none) :
    Renumbers (extendBase base s.nextId gap) s' t' where
  machine := by rw [hmachine, hmachine']; exact h.machine
  unlimited := hroom
  nextId := by rw [hs, ht]; exact Nat.add_le_add_right h.nextId ids
  unused id hid := by
    rw [hmachine]
    exact h.unused id (Nat.le_trans (Nat.le_add_right _ ids) (hs ▸ hid))
  unused' id hid := by
    rw [hmachine']
    exact h.unused' id (Nat.le_trans (Nat.le_add_right _ ids) (ht ▸ hid))
  below id hid := ht ▸ h.below_extendBase hgap (hs ▸ hid)
  distances id hid := by
    rw [hmachine, hmachine']
    rcases Nat.lt_or_ge id s.nextId with hlt | hge
    · rw [extendBase_of_lt hlt, h.distances id hlt]
    · rw [h.unused id hge, h.unused' _ ((hgap ▸ extends_extendBase base s.nextId gap).above id hge)]
  heap r hr := by
    rw [hmachine, hmachine']
    rw [hs, ht, hgap] at hr
    exact h.heap r (hgap ▸ restrict_extends hr)

/-! ### Programs that are started -/

section Launched

theorem after_launch {s : Session} {source : String} {launch : Launch} (h : s.launch? source = some launch) (steps : Nat) :
    (s.after steps source).nextId = (s.parsed source).nextId ∧ (s.after steps source).reports = s.reports := by
  rw [after, run_launch h]
  exact (execute_state (s.starting source launch) steps launch.program).2

variable {source : String} {launch launch' : Launch} {ids : Nat}

theorem extends_parsed (base : NodeId → NodeId) (hgap : t.nextId = s.nextId + gap) (source : String) :
    Relabeling.Extends ⟨extendBase base s.nextId gap, fun line => line⟩ (extendBase base s.nextId gap)
      (s.parsed source).nextId (t.parsed source).nextId where
  line _ := rfl
  below _ _ := rfl
  above id hid := by
    show _ ≤ extendBase base s.nextId gap id
    rw [extendBase_of_le (Nat.le_trans (s.nextId_le_parsed source) hid), parsed_moved hgap]
    exact Nat.add_le_add_right hid gap

/-- The same distances stand under the new ids when the program starts. -/
theorem distances_launched (h : Renumbers base s t) (hgap : t.nextId = s.nextId + gap)
    (hlaunch : s.launch? source = some launch) (hlaunch' : t.launch? source = some launch') {r : Relabeling}
    (hr : r.Extends (extendBase base s.nextId gap) (s.parsed source).nextId (t.parsed source).nextId) (id : NodeId) :
    launch'.machine.distances[r.id id]? = launch.machine.distances[id]? := by
  rcases Nat.lt_or_ge id (s.parsed source).nextId with hid | hid
  case inr => rw [unused_launch h.unused hlaunch hid, unused_launch h.unused' hlaunch' (hr.above id hid)]
  rw [hr.below id hid]
  rcases Nat.lt_or_ge id s.nextId with hlt | hge
  · rw [extendBase_of_lt hlt, distances_launch hlaunch hlt, distances_launch hlaunch' (h.below id hlt), h.distances id hlt]
  · obtain ⟨-, -, -, rfl⟩ := launch?_eq_some_iff.1 hlaunch
    obtain ⟨-, -, -, rfl⟩ := launch?_eq_some_iff.1 hlaunch'
    have hnone : t.machine.distances[id + gap]? = s.machine.distances[id]? := by
      rw [h.unused id hge, h.unused' _ (hgap ▸ Nat.add_le_add_right hge gap)]
    rw [extendBase_of_le hge]
    exact Resolution.getElem?_addDistances_relabel (r := .moved gap fun line => line) (fun _ _ => Nat.add_right_cancel)
      (resolved_moved hgap h.names source) hnone

/-- The program does in the second session what it does in the first. -/
theorem program_launched (h : Renumbers base s t) (hgap : t.nextId = s.nextId + gap)
    (hlaunch : s.launch? source = some launch) (hlaunch' : t.launch? source = some launch') {r : Relabeling}
    (hr : r.Extends (extendBase base s.nextId gap) (s.parsed source).nextId (t.parsed source).nextId) (steps : Nat) :
    Evaluation.program steps launch'.program launch'.machine =
      Transfer.outcome ⟨r, _, _, h.distances_launched hgap hlaunch hlaunch' hr, #[]⟩ id
        (Evaluation.program steps launch.program launch.machine) := by
  obtain ⟨ids, hids⟩ := Nat.exists_eq_add_of_le (s.nextId_le_parsed source)
  have hids' : (t.parsed source).nextId = t.nextId + ids := by
    rw [parsed_moved hgap, hgap, hids, Nat.add_right_comm]
  have hprogram : launch'.program = launch.program.map (Stmt.relabel r) := by
    rw [program_launch hlaunch, program_launch hlaunch', parsed_moved hgap, ← Stmt.relabelAll_eq, ← Stmt.relabelAll_eq]
    refine Stmt.relabelAll_congr (fun n => (hr.line n).symm) _ fun u hu => ?_
    obtain ⟨hge, hlt⟩ := (fresh_parsed s source).2 u hu
    rw [hr.below u.id hlt, extendBase_of_le hge]
    rfl
  have hbounds := hr
  rw [hids, hids', hgap] at hbounds
  have hheap : t.machine.heap = s.machine.heap.relabel r := h.heap r (hgap ▸ restrict_extends hbounds)
  have hmoved : launch'.machine = { launch.machine with
      heap := launch.machine.heap.relabel r, distances := launch'.machine.distances } :=
    calc launch'.machine
      _ = { t.machine with distances := launch'.machine.distances } := machine_launch hlaunch'
      _ = { s.machine with heap := t.machine.heap, distances := launch'.machine.distances } := by rw [h.machine]
      _ = _ := by rw [hheap, machine_launch hlaunch]
  have hmachine : Transfer.machine ⟨r, _, _, h.distances_launched hgap hlaunch hlaunch' hr, #[]⟩ launch.machine =
      launch'.machine := by
    rw [Transfer.machine, Transcript.behind_empty]
    exact hmoved.symm
  have hrun := (program_transfers ⟨r, _, _, h.distances_launched hgap hlaunch hlaunch' hr, #[]⟩ steps launch.program
    launch.machine rfl).1
  rwa [← hprogram, hmachine] at hrun

/-- The sessions behind the two runs differ in ids only. -/
theorem ran (h : Renumbers base s t) (hgap : t.nextId = s.nextId + gap) (hlaunch : s.launch? source = some launch)
    (hlaunch' : t.launch? source = some launch') (steps : Nat) :
    Renumbers (extendBase base s.nextId gap) (s.after steps source) (t.after steps source) := by
  obtain ⟨ids, hids⟩ := Nat.exists_eq_add_of_le (s.nextId_le_parsed source)
  have hids' : (t.parsed source).nextId = t.nextId + ids := by
    rw [parsed_moved hgap, hgap, hids, Nat.add_right_comm]
  obtain ⟨hid, hreports⟩ := after_launch hlaunch steps
  obtain ⟨hid', hreports'⟩ := after_launch hlaunch' steps
  have htables : (s.after steps source).machine.distances = launch.machine.distances ∧
      (t.after steps source).machine.distances = launch'.machine.distances := by
    rw [machine_after_launch hlaunch, machine_after_launch hlaunch', distances_program, distances_program]
    exact ⟨rfl, rfl⟩
  have hmachine {r : Relabeling}
      (hr : r.Extends (extendBase base s.nextId gap) (s.parsed source).nextId (t.parsed source).nextId) :
      (t.after steps source).machine = { (s.after steps source).machine with
        heap := (s.after steps source).machine.heap.relabel r, distances := launch'.machine.distances } := by
    rw [machine_after_launch hlaunch', h.program_launched hgap hlaunch hlaunch' hr, Transfer.stateBehind_outcome,
      Transfer.machine, Transcript.behind_empty, machine_after_launch hlaunch]
  have hbase := extends_parsed base hgap source
  exact
    { machine := by
        have hsame := hmachine hbase
        rw [hsame]
      unlimited := by rw [hreports, hreports']; exact h.unlimited
      nextId := by
        rw [hid, hid', hids, hids']
        exact Nat.add_le_add_right h.nextId ids
      unused := fun id hge => by
        rw [htables.1]
        exact unused_launch h.unused hlaunch (hid ▸ hge)
      unused' := fun id hge => by
        rw [htables.2]
        exact unused_launch h.unused' hlaunch' (hid' ▸ hge)
      below := fun id hlt => by
        rw [hid', hids']
        exact h.below_extendBase hgap (hids ▸ hid ▸ hlt)
      distances := fun id _ => by
        rw [htables.1, htables.2]
        exact h.distances_launched hgap hlaunch hlaunch' hbase id
      heap := fun r hr => congrArg Machine.heap (hmachine (hid ▸ hid' ▸ hr)) }

end Launched

end Renumbers

end Session

/-! ## What is done in a session -/

/-- Something that is done in a session: a program is run, or the host changes what it finds. -/
inductive Act where
  | run (steps : Nat) (source : String)
  | echo (on : Bool)
  | supply (input : List UInt8)
  | register (name : String) (f : Native)
  | restart (limit : Option Nat)

def Act.perform : Act → Turn Unit
  | run steps source => Session.run steps source
  | echo on => modify fun s => { s with machine := { s.machine with echo := on } }
  | supply input => modify fun s => { s with machine := { s.machine with input } }
  | register name f =>
    modify fun s => { s with machine := { s.machine with heap := Native.register [(name, f)] s.machine.heap } }
  | restart limit => modify (·.restart limit)

/-- What has been done, how it has ended, and what has been written and reported meanwhile. -/
structure Account where
  act : Act
  /-- Why it has ended early, if it has. -/
  halt : Option Halt
  written : List Entry
  reported : List Entry

/-- An early stage has found errors in the program. -/
def Account.Rejected (a : Account) : Prop := ∃ e, a.halt = some (.error e) ∧ e.diagnosed?.isSome

/-- The second list is the first one without some of the elements that have the property. -/
inductive Without {α : Type} (p : α → Prop) : List α → List α → Prop where
  | nil : Without p [] []
  | keep (a : α) {all rest : List α} (h : Without p all rest) : Without p (a :: all) (a :: rest)
  | leave {a : α} {all rest : List α} (ha : p a) (h : Without p all rest) : Without p (a :: all) rest

namespace Session

def haltOf : EStateM.Result Halt Session Unit → Option Halt
  | .ok _ _ => none
  | .error halt _ => some halt

/-- How a turn ends when its program ends so. -/
def haltOfProgram : EStateM.Result Stop Machine Unit → Option Halt
  | .ok _ _ => none
  | .error (.fault fault) _ => some (.error (.runtime fault))
  | .error (.crash crash) _ => some (.crashed crash)
  | .error .unfinished _ => some .unfinished

def account (s : Session) (act : Act) : Account where
  act := act
  halt := haltOf (act.perform s)
  written := (stateBehind (act.perform s)).writtenSince s
  reported := (stateBehind (act.perform s)).reports.entries.toList.drop s.reports.entries.size

/-- What is done one after the other. -/
def accounts (s : Session) : List Act → List Account
  | [] => []
  | act :: rest => s.account act :: (stateBehind (act.perform s)).accounts rest

/-- The session behind all that has been done. -/
def behind (s : Session) (acts : List Act) : Session := acts.foldl (fun s act => stateBehind (act.perform s)) s

/-- A session in which nothing has been done, and in which everything can be reported. -/
def begin (echo : Bool) (limit : Option Nat) (clock : Nat → Float) : Session := start (.initial echo limit clock) none

theorem haltOf_execute (s : Session) (steps : Nat) (program : List Stmt) :
    haltOf (execute steps program s) = haltOfProgram (Evaluation.program steps program s.machine) := by
  unfold execute
  cases Evaluation.program steps program s.machine with
  | ok _ m => rfl
  | error stop m => cases stop <;> rfl

theorem haltOfProgram_outcome {τ : Transfer} (hline : ∀ n, τ.labels.line n = n) (result : EStateM.Result Stop Machine Unit) :
    haltOfProgram (τ.outcome id result) = haltOfProgram result := by
  cases result with
  | ok _ m => rfl
  | error stop m =>
    cases stop with
    | fault fault =>
      cases fault with
      | output => rfl
      | evaluation line cause => simp [Transfer.outcome, Transfer.stop, haltOfProgram, hline]
    | _ => rfl

namespace Renumbers

variable {base : NodeId → NodeId} {s t : Session}

theorem begin (echo : Bool) (limit : Option Nat) (clock : Nat → Float) :
    Renumbers id (.begin echo limit clock) (.begin echo limit clock) where
  machine := rfl
  unlimited := ⟨rfl, rfl⟩
  nextId := Nat.le_refl _
  unused id _ := by simp [Session.begin, start, Machine.initial]
  unused' id _ := by simp [Session.begin, start, Machine.initial]
  below id hid := absurd hid (Nat.not_lt_zero id)
  distances id hid := absurd hid (Nat.not_lt_zero id)
  heap r _ := by
    show Native.register _ _ = (Native.register _ _).relabel r
    rw [Heap.relabel_register, Heap.relabel_initial]

/-- A run of the same program ends in the same way and writes and reports the same. -/
theorem run (h : Renumbers base s t) (steps : Nat) (source : String) :
    ∃ base', Renumbers base' (s.after steps source) (t.after steps source) ∧
      haltOf (Session.run steps source t) = haltOf (Session.run steps source s) ∧
      ∃ reported, (s.after steps source).reports.entries.toList = s.reports.entries.toList ++ reported ∧
        (t.after steps source).reports.entries.toList = t.reports.entries.toList ++ reported := by
  obtain ⟨gap, hgap⟩ := Nat.exists_eq_add_of_le h.nextId
  obtain ⟨hrejection, hdiagnostics⟩ := rejection?_moved hgap h.names source
  cases hrejected : s.rejection? source with
  | none =>
    obtain ⟨launch, hlaunch⟩ := Option.isSome_iff_exists.1 (rejection?_eq_none_iff.1 hrejected)
    obtain ⟨launch', hlaunch'⟩ := Option.isSome_iff_exists.1 (rejection?_eq_none_iff.1 (hrejection.trans hrejected))
    refine ⟨_, h.ran hgap hlaunch hlaunch' steps, ?_, [], ?_, ?_⟩
    · have hrun := h.program_launched hgap hlaunch hlaunch' (extends_parsed base hgap source) steps
      rw [run_launch hlaunch, run_launch hlaunch', haltOf_execute, haltOf_execute]
      exact (congrArg haltOfProgram hrun).trans (haltOfProgram_outcome (fun _ => rfl) _)
    · rw [(after_launch hlaunch steps).2, List.append_nil]
    · rw [(after_launch hlaunch' steps).2, List.append_nil]
  | some e =>
    obtain ⟨s', hrun, hs⟩ := (run_rejected hrejected steps).resolve_right fun hlimited => hlimited.1 h.unlimited.1
    obtain ⟨t', hrun', ht⟩ :=
      (run_rejected (hrejection.trans hrejected) steps).resolve_right fun hlimited => hlimited.1 h.unlimited.2
    obtain ⟨ids, hids⟩ := Nat.exists_eq_add_of_le (s.nextId_le_idsBehind source e)
    have hids' : t.idsBehind source e = t.nextId + ids := by
      rw [idsBehind_moved hgap, hids, hgap, Nat.add_right_comm]
    rw [after, after, hrun, hrun']
    refine ⟨extendBase base s.nextId gap, ?_, rfl, (s.diagnostics source e).map reportEntry, hs.reports,
      hdiagnostics e ▸ ht.reports⟩
    exact h.read hgap (hs.nextId.trans hids) (ht.nextId.trans hids') hs.machine ht.machine
      ⟨hs.unlimited h.unlimited.1, ht.unlimited h.unlimited.2⟩

/-- What the host changes is the same in both sessions. -/
theorem host (h : Renumbers base s t) {act : Act} (hact : ∀ steps source, act ≠ .run steps source) :
    (∃ base', Renumbers base' (stateBehind (act.perform s)) (stateBehind (act.perform t))) ∧
      haltOf (act.perform t) = haltOf (act.perform s) ∧
      (stateBehind (act.perform s)).reports = s.reports ∧ (stateBehind (act.perform t)).reports = t.reports := by
  cases act with
  | run steps source => exact absurd rfl (hact steps source)
  | echo on =>
    exact ⟨⟨base, { h with machine := congrArg (fun m : Machine => { m with echo := on }) h.machine }⟩, rfl, rfl, rfl⟩
  | supply input =>
    exact ⟨⟨base, { h with machine := congrArg (fun m : Machine => { m with input }) h.machine }⟩, rfl, rfl, rfl⟩
  | register name f =>
    refine ⟨⟨base, { h with machine := ?_, heap := fun r hr => ?_ }⟩, rfl, rfl, rfl⟩
    · exact congrArg (fun m : Machine => { m with heap := Native.register [(name, f)] m.heap }) h.machine
    · show Native.register _ t.machine.heap = (Native.register _ s.machine.heap).relabel r
      rw [Heap.relabel_register, h.heap r hr]
  | restart limit =>
    have hecho : t.machine.echo = s.machine.echo := by rw [h.machine]
    have hclock : t.machine.clock = s.machine.clock := by rw [h.machine]
    have hnew : (t.restart limit).machine = (s.restart limit).machine := by
      rw [restart, restart, hecho, hclock]
    have hunused (s : Session) (id : NodeId) : (s.restart limit).machine.distances[id]? = none := by
      simp [restart, Machine.initial]
    refine ⟨⟨base, ?_⟩, rfl, rfl, rfl⟩
    exact
      { machine := hnew
        unlimited := h.unlimited
        nextId := h.nextId
        unused := fun id _ => hunused s id
        unused' := fun id _ => hunused t id
        below := h.below
        distances := fun id _ => (hunused t _).trans (hunused s id).symm
        heap := fun r _ => by
          show Native.register _ _ = (Native.register _ _).relabel r
          rw [Heap.relabel_register, Heap.relabel_initial] }

/-- What is done leaves the same trace in both sessions. -/
theorem perform (h : Renumbers base s t) (act : Act) :
    ∃ base', Renumbers base' (stateBehind (act.perform s)) (stateBehind (act.perform t)) ∧ s.account act = t.account act := by
  have hdone : ∃ base', Renumbers base' (stateBehind (act.perform s)) (stateBehind (act.perform t)) ∧
      haltOf (act.perform t) = haltOf (act.perform s) ∧
      ∃ reported, (stateBehind (act.perform s)).reports.entries.toList = s.reports.entries.toList ++ reported ∧
        (stateBehind (act.perform t)).reports.entries.toList = t.reports.entries.toList ++ reported := by
    by_cases hact : ∃ steps source, act = .run steps source
    · obtain ⟨steps, source, rfl⟩ := hact
      exact h.run steps source
    · obtain ⟨⟨base', hbase⟩, hhalt, hs, ht⟩ := h.host fun steps source heq => hact ⟨steps, source, heq⟩
      exact ⟨base', hbase, hhalt, [], by rw [hs, List.append_nil], by rw [ht, List.append_nil]⟩
  obtain ⟨base', hbase, hhalt, reported, hs, ht⟩ := hdone
  have hnew (s : Session) : (s.reports.entries.toList ++ reported).drop s.reports.entries.size = reported :=
    List.drop_left' Array.length_toList
  refine ⟨base', hbase, ?_⟩
  rw [account, account, hhalt, writtenSince, writtenSince, hs, ht, h.output, hbase.output, hnew, hnew]

/-- A rejected run of the second session may be left out in the first. -/
theorem leave (h : Renumbers base s t) {act : Act} (hrejected : (t.account act).Rejected) :
    Renumbers base s (stateBehind (act.perform t)) := by
  obtain ⟨e, hhalt, he⟩ := hrejected
  cases act with
  | run steps source =>
    change haltOf (Session.run steps source t) = some (.error e) at hhalt
    cases hrun : Session.run steps source t with
    | ok _ t' =>
      rw [hrun] at hhalt
      cases hhalt
    | error halt t' =>
      rw [hrun] at hhalt
      cases hhalt
      rcases run_rejected (rejection?_of_run hrun he) steps with ⟨_, hrun', ht⟩ | ⟨hlimited, -⟩
      · rw [hrun] at hrun'
        cases hrun'
        show Renumbers base s (stateBehind (Session.run steps source t))
        rw [hrun]
        exact h.ahead_of_reports ht.machine (ht.nextId ▸ t.nextId_le_idsBehind source e) (ht.unlimited h.unlimited.2)
      · exact absurd h.unlimited.2 hlimited
  | _ => cases hhalt

/-- Without rejected runs a session comes to the same accounts. -/
theorem accounts (h : Renumbers base s t) {acts : List Act} {kept : List Account}
    (hkept : Without Account.Rejected (t.accounts acts) kept) : s.accounts (kept.map (·.act)) = kept := by
  induction acts generalizing base s t kept with
  | nil =>
    cases hkept
    rfl
  | cons act rest ih =>
    cases hkept with
    | keep _ hrest =>
      obtain ⟨base', hbase, haccount⟩ := h.perform act
      exact List.cons_eq_cons.2 ⟨haccount, ih hbase hrest⟩
    | leave hrejected hrest => exact ih (h.leave hrejected) hrest

end Renumbers

/-- A rejected run leaves the machine as it is and reports as many errors as it says, those of the stage that fails
and in their order. Without such runs, all else in a session comes about in the same way. -/
theorem rejected_runs_leave_no_trace :
    (∀ (s s' : Session) (steps : Nat) (source : String) (e : SessionError),
      run steps source s = .error (.error e) s' → e.diagnosed?.isSome →
      s'.machine = s.machine ∧ e.diagnosed? = some (s.diagnostics source e).length ∧
        s'.reports.entries.toList = s.reports.entries.toList ++ (s.diagnostics source e).map reportEntry) ∧
      ∀ (echo : Bool) (limit : Option Nat) (clock : Nat → Float) (acts : List Act) (kept : List Account),
        Without Account.Rejected ((begin echo limit clock).accounts acts) kept →
        (begin echo limit clock).accounts (kept.map (·.act)) = kept := by
  refine ⟨fun s s' steps source e hrun he => ?_, fun echo limit clock acts kept hkept => ?_⟩
  · have hrejection := rejection?_of_run hrun he
    rcases run_rejected hrejection steps with ⟨_, hrun', hs⟩ | ⟨-, _, hrun'⟩
    · rw [hrun] at hrun'
      cases hrun'
      exact ⟨hs.machine, diagnosed?_of_rejection hrejection, hs.reports⟩
    · rw [hrun] at hrun'
      cases hrun'
      cases he
  · exact (Renumbers.begin echo limit clock).accounts hkept

theorem account_rejected {s : Session} {source : String} {e : SessionError} (h : s.rejection? source = some e)
    (hroom : s.reports.room = none) (steps : Nat) : (s.account (.run steps source)).Rejected := by
  obtain ⟨s', hrun, -⟩ := (run_rejected h steps).resolve_right fun hlimited => hlimited.1 hroom
  exact ⟨e, congrArg haltOf hrun, by rw [diagnosed?_of_rejection h]; rfl⟩

theorem without_second {s : Session} {first second : Act} (third : Act)
    (h : ((stateBehind (first.perform s)).account second).Rejected) :
    Without Account.Rejected (s.accounts [first, second, third])
      [s.account first, (stateBehind (second.perform (stateBehind (first.perform s)))).account third] :=
  .keep _ (.leave h (.keep _ .nil))

/-- A program with a syntax error in it, which uses up an id, is run between two others. -/
theorem rejected_runs_leave_no_trace_between :
    (∃ s', run 9 "a b;" new = .error (.error (.syntactic 1)) s' ∧ s'.machine = new.machine ∧
      (SessionError.syntactic 1).diagnosed? = some (new.diagnostics "a b;" (.syntactic 1)).length ∧
      s'.reports.entries.toList = new.reports.entries.toList ++ (new.diagnostics "a b;" (.syntactic 1)).map reportEntry) ∧
    ∃ kept, Without Account.Rejected ((begin false none fun _ => 0).accounts
        [.run 9 "var a=true;", .run 9 "a b;", .run 9 "{var b=a;print b;}"]) kept ∧
      kept.map (·.act) = [.run 9 "var a=true;", .run 9 "{var b=a;print b;}"] ∧
      (begin false none fun _ => 0).accounts (kept.map (·.act)) = kept := by
  have hrejection (s : Session) : s.rejection? "a b;" = some (.syntactic 1) := by
    have hscan : (Scan.ofSource "a b;").errors.isEmpty = true := by cbv
    have hparse : (s.parsed "a b;").errors.length = 1 := by cbv
    have hfound : ¬(s.parsed "a b;").errors.isEmpty = true := by
      rw [List.isEmpty_iff_length_eq_zero, hparse]
      exact Nat.one_ne_zero
    rw [rejection?, if_pos hscan, if_neg hfound, hparse]
  constructor
  · obtain ⟨s', hrun, -⟩ := (run_rejected (hrejection new) 9).resolve_right fun hlimited => hlimited.1 rfl
    exact ⟨s', hrun, rejected_runs_leave_no_trace.1 new s' 9 "a b;" (.syntactic 1) hrun rfl⟩
  · obtain ⟨_, hbehind, -⟩ := (Renumbers.begin false none fun _ => 0).perform (.run 9 "var a=true;")
    have hrejected := account_rejected (hrejection _) hbehind.unlimited.1 9
    have hkept := without_second (.run 9 "{var b=a;print b;}") hrejected
    exact ⟨_, hkept, rfl, rejected_runs_leave_no_trace.2 false none (fun _ => 0) _ _ hkept⟩

end Session

end TreeWalk
