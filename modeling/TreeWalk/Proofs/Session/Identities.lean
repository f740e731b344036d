import Mathlib
import TreeWalk.Proofs.Session.Agreement
import TreeWalk.Proofs.Session.Pruning

/-!
# Ids across runs

Ids are given away once in a session, also to programs that are rejected. So the distances of one run never take
the place of those of another, and a function goes on to look up its names as it was resolved, whatever has run
since.
-/

namespace TreeWalk

/-- The distances of a program come before those that are known already. -/
theorem Resolution.getElem?_addDistances_or (r : Resolution) (known : Distances) (id : NodeId) :
    (r.addDistances known)[id]? = (r.addDistances ∅)[id]?.or known[id]? := by
  obtain ⟨findings⟩ := r
  unfold addDistances
  dsimp only
  induction findings using List.reverseRecOn with
  | nil => simp
  | append_singleton findings finding ih =>
    simp only [List.foldl_append, List.foldl_cons, List.foldl_nil]
    cases finding with
    | violation e => exact ih
    | distance other name d =>
      simp only [Std.TreeMap.getElem?_insert]
      split
      · rfl
      · exact ih

/-- The ids with which a source is read are given away, whether its program is rejected or not. -/
theorem Session.nextId_after (s : Session) (steps : Nat) (source : String) :
    (s.after steps source).nextId =
      if (Scan.ofSource source).errors.isEmpty then (s.parsed source).nextId else s.nextId := by
  refine run_stages s steps source (fun result => (stateBehind result).nextId = _)
    (fun launch hlaunch => ?_) fun e he s₀ _ _ hid stage messages _ => ?_
  · rw [(execute_state _ _ _).2.1, (launch?_eq_some_iff.1 hlaunch).1]
    rfl
  · have hreported := (reportAll_same stage messages s₀).2.trans hid
    have hfailed : (stateBehind ((do reportAll stage messages; fail e : Turn Unit) s₀)).nextId =
        s.idsBehind source e := by
      exact stateBehind_bind (P := fun s' : Session => s'.nextId = s.idsBehind source e) hreported fun _ _ _ hid => hid
    rw [hfailed]
    unfold rejection? at he
    split at he
    case isTrue hscan =>
      rw [if_pos hscan]
      split at he
      · split at he <;> cases he
        rfl
      · cases he
        rfl
    case isFalse hscan =>
      rw [if_neg hscan]
      cases he
      rfl

/-- A source that is run in a session. -/
structure Attempt where
  before : Session
  steps : Nat
  source : String

namespace Attempt

/-- The session behind the run. -/
def after (a : Attempt) : Session := a.before.after a.steps a.source

/-- What the source is read as, be it with errors or without. One with lexical errors is not read. -/
def statements (a : Attempt) : List Stmt :=
  if (Scan.ofSource a.source).errors.isEmpty then (a.before.parsed a.source).statements else []

/-- The nodes that have ids. -/
def references (a : Attempt) : List Reference := Stmt.referencesAll a.statements

/-- The distances that the run adds to those that are known. A program that is rejected adds none. -/
def table (a : Attempt) : Distances :=
  if (a.before.launch? a.source).isSome then (a.before.resolved a.source).addDistances ∅ else ∅

/-- No id has a distance in both tables. -/
def Apart (a b : Attempt) : Prop := ∀ id : NodeId, a.table[id]? = none ∨ b.table[id]? = none

/-- The run is on record as looking up the reference on this machine. -/
def Looks (a : Attempt) (use : Reference) (m : Machine) : Prop :=
  ∃ env, .looks env use m ∈ (a.before.recording a.steps a.source).records

/-! ## Ids of one run -/

variable {a : Attempt} {launch : Launch}

theorem nextId_le (a : Attempt) : a.before.nextId ≤ a.after.nextId := by
  rw [after, Session.nextId_after]
  split
  · exact a.before.nextId_le_parsed a.source
  · exact Nat.le_refl _

theorem fresh (a : Attempt) : Fresh a.before.nextId a.after.nextId a.references := by
  rw [after, Session.nextId_after, references, statements]
  split
  · exact a.before.fresh_parsed a.source
  · exact Fresh.nil

theorem statements_launch (h : a.before.launch? a.source = some launch) : a.statements = launch.program := by
  rw [statements, (Session.launch?_eq_some_iff.1 h).1, Session.program_launch h]
  rfl

/-! ## The distances of one run -/

theorem table_launch (h : a.before.launch? a.source = some launch) :
    a.table = (a.before.resolved a.source).addDistances ∅ := by
  rw [table, h]
  rfl

/-- Only ids of nodes of the program have distances. -/
theorem table_of_ne {id : NodeId} (h : ∀ u ∈ a.references, u.id ≠ id) : a.table[id]? = none := by
  cases hlaunch : a.before.launch? a.source with
  | none => simp [table, hlaunch]
  | some launch =>
    have hnone : ((a.before.resolved a.source).addDistances ∅)[id]? = (∅ : Distances)[id]? := by
      rw [references, statements_launch hlaunch, Session.program_launch hlaunch] at h
      exact getElem?_distances_of_ne h
    rw [table_launch hlaunch, hnone]
    rfl

/-- Behind a run its distances are known, and where it has none those that were. -/
theorem distances_after (a : Attempt) (id : NodeId) :
    a.after.machine.distances[id]? = a.table[id]?.or a.before.machine.distances[id]? := by
  refine a.before.run_state a.steps a.source
    (fun s' => s'.machine.distances[id]? = a.table[id]?.or a.before.machine.distances[id]?)
    (fun launch hlaunch s' hmachine _ => ?_) fun hlaunch s' hmachine _ => ?_
  · rw [hmachine, distances_program, table_launch hlaunch]
    obtain ⟨-, -, -, rfl⟩ := Session.launch?_eq_some_iff.1 hlaunch
    exact Resolution.getElem?_addDistances_or _ _ id
  · rw [hmachine, table, hlaunch]
    simp

/-- A program that is started has the distance of its place for each of its references. -/
theorem table_located {l : Loaded} (hl : l ∈ a.before.started a.source) {p : Place} {n : Node}
    (hn : Occurs l.program p n) {u : Reference} (hu : u ∈ n.uses) :
    (a.before.launch? a.source).isSome ∧ u ∈ a.references ∧
      a.table[u.id]? = (l.scopes p).distance? u.name.text := by
  obtain ⟨launch, hlaunch, rfl⟩ := List.mem_map.1 hl
  rw [Option.mem_toList] at hlaunch
  refine ⟨by rw [hlaunch]; rfl, ?_, ?_⟩
  · rw [references, statements_launch hlaunch]
    exact hn.uses_subset hu
  · rw [table_launch hlaunch]
    obtain ⟨-, -, hresolve, rfl⟩ := Session.launch?_eq_some_iff.1 hlaunch
    exact getElem?_distances (errors_eq_nil_iff_own.1 hresolve) (a.before.fresh_parsed a.source).1 hn hu rfl

end Attempt

namespace Session

/-- The sources that are run one after the other. -/
def attempts (s : Session) : List Act → List Attempt
  | [] => []
  | .run steps source :: rest => ⟨s, steps, source⟩ :: (s.after steps source).attempts rest
  | act :: rest => (stateBehind (act.perform s)).attempts rest

/-! ## Ids of all runs -/

/-- What a host does between two runs gives away no ids. -/
theorem nextId_host (s : Session) {act : Act} (hact : ∀ steps source, act ≠ .run steps source) :
    (stateBehind (act.perform s)).nextId = s.nextId := by
  cases act with
  | run steps source => exact absurd rfl (hact steps source)
  | _ => rfl

theorem fresh_attempts (s : Session) (acts : List Act) :
    ∃ next, s.nextId ≤ next ∧ Fresh s.nextId next ((s.attempts acts).flatMap Attempt.references) := by
  fun_induction s.attempts acts with
  | case1 s => exact ⟨s.nextId, Nat.le_refl _, Fresh.nil⟩
  | case2 s steps source rest ih =>
    obtain ⟨next, hle, hfresh⟩ := ih
    have hfirst := (Attempt.mk s steps source).nextId_le
    exact ⟨next, Nat.le_trans hfirst hle, (Attempt.mk s steps source).fresh.append hfresh hfirst hle⟩
  | case3 s act rest hact ih => exact s.nextId_host (fun steps source heq => hact steps source heq) ▸ ih

/-- Distances of different runs are those of different ids. -/
theorem pairwise_apart {as : List Attempt} (h : ((as.flatMap Attempt.references).map (·.id)).Nodup) :
    as.Pairwise Attempt.Apart := by
  rw [List.map_flatMap] at h
  refine (List.nodup_flatMap.1 h).2.imp fun {a b} hdisjoint id => ?_
  by_cases ha : ∃ u ∈ a.references, u.id = id
  · obtain ⟨u, hu, rfl⟩ := ha
    refine .inr (Attempt.table_of_ne fun v hv hid => ?_)
    exact hdisjoint (List.mem_map_of_mem hu) (hid ▸ List.mem_map_of_mem hv)
  · exact .inl (Attempt.table_of_ne fun u hu hid => ha ⟨u, hu, hid⟩)

/-! ## Where the programs of a session come from -/

/-- There is a world of the session, and its programs are those that the attempts have started. -/
def Traced (earlier : List Attempt) (s : Session) : Prop :=
  ∃ (w : World) (loaded : List Loaded), w.hosted ∧ w.Knows s loaded ∧
    ∀ l ∈ loaded, ∃ b ∈ earlier, l ∈ b.before.started b.source

namespace Traced

variable {earlier : List Attempt} {loaded : List Loaded} {s : Session} {a : Attempt}

theorem start (echo : Bool) (limit : Option Nat) (clock : Nat → Float) (reportLimit : Option Nat) :
    Traced [] (.start (.initial echo limit clock) reportLimit) := by
  obtain ⟨w, hhosted, hw⟩ := World.knows_initial True (s := .start (.initial echo limit clock) reportLimit) rfl rfl
  exact ⟨w, [], hhosted.2 trivial, hw, by simp⟩

/-- The programs of a run are its own and those of earlier ones. -/
theorem started_by (h : ∀ l ∈ loaded, ∃ b ∈ earlier, l ∈ b.before.started b.source) :
    ∀ l ∈ a.before.started a.source ++ loaded, ∃ b ∈ earlier ++ [a], l ∈ b.before.started b.source := by
  intro l hl
  rcases List.mem_append.1 hl with hown | hold
  · exact ⟨a, by simp, hown⟩
  · obtain ⟨b, hb, hstarted⟩ := h l hold
    exact ⟨b, List.mem_append_left _ hb, hstarted⟩

theorem run (h : Traced earlier a.before) : Traced (earlier ++ [a]) a.after := by
  obtain ⟨w, loaded, hhosted, hw, hearlier⟩ := h
  obtain ⟨w', hle, -, hw'⟩ := hw.run_grows a.steps a.source
  exact ⟨w', _, hle.hosted.2 hhosted, hw', started_by hearlier⟩

theorem host (h : Traced earlier s) {act : Act} (hact : ∀ steps source, act ≠ .run steps source) :
    Traced earlier (stateBehind (act.perform s)) := by
  obtain ⟨w, loaded, hhosted, hw, hearlier⟩ := h
  cases act with
  | run steps source => exact absurd rfl (hact steps source)
  | echo on => exact ⟨w, loaded, hhosted, ⟨hw.holds, hw.programs, hw.fresh⟩, hearlier⟩
  | supply input => exact ⟨w, loaded, hhosted, ⟨hw.holds, hw.programs, hw.fresh⟩, hearlier⟩
  | register name f =>
    have hadded : ∀ native ∈ [(name, f)], native.2 = .define → w.hosted := fun _ _ _ => hhosted
    obtain ⟨w', hgrows, hholds⟩ := hw.holds.register hadded
    exact ⟨w', loaded, hgrows.le.hosted.2 hhosted, ⟨hholds, hgrows.programs.trans hw.programs, hw.fresh⟩, hearlier⟩
  | restart limit =>
    obtain ⟨w', hhosted', hw'⟩ := World.knows_initial True (s := s.restart limit) rfl rfl
    exact ⟨w', [], hhosted'.2 trivial, hw', by simp⟩

/-- What is done in the session is traced up to each of its runs. -/
theorem before (h : Traced earlier s) {acts : List Act} {own later : List Attempt}
    (hattempts : s.attempts acts = own ++ a :: later) : Traced (earlier ++ own) a.before := by
  fun_induction s.attempts acts generalizing earlier own with
  | case1 s => simp at hattempts
  | case2 s steps source rest ih =>
    cases own with
    | nil =>
      obtain ⟨rfl, -⟩ := List.cons.inj hattempts
      rwa [List.append_nil]
    | cons first own =>
      obtain ⟨rfl, hrest⟩ := List.cons.inj hattempts
      rw [List.append_cons]
      exact ih (run (a := ⟨s, steps, source⟩) h) hrest
  | case3 s act rest hact ih => exact ih (h.host fun steps source heq => hact steps source heq) hattempts

/-- A run has no distances for ids that have some already. -/
theorem unused (h : Traced earlier a.before) {id : NodeId} {d : Nat} (hd : a.table[id]? = some d) :
    a.before.machine.distances[id]? = none := by
  obtain ⟨w, loaded, -, hw, -⟩ := h
  have hown : ∃ u ∈ a.references, u.id = id := by
    by_contra hnone
    rw [Attempt.table_of_ne fun u hu hid => hnone ⟨u, hu, hid⟩] at hd
    cases hd
  obtain ⟨u, hu, rfl⟩ := hown
  exact Option.eq_none_iff_forall_ne_some.2 fun d' hd' => Nat.not_lt_of_le (a.fresh.2 u hu).1 (hw.id_lt u.id d' hd')

/-- What is looked up was resolved in this run or in one before, and has the distance that was found then. -/
theorem looks (h : Traced earlier a.before) {use : Reference} {m : Machine} (hlooks : a.Looks use m) :
    ∃ b ∈ earlier ++ [a], (b.before.launch? b.source).isSome ∧ use ∈ b.references ∧
      m.distances[use.id]? = b.table[use.id]? := by
  obtain ⟨w, loaded, -, hw, hearlier⟩ := h
  obtain ⟨w', hrecorded, hknows⟩ := hw.run a.steps a.source
  obtain ⟨env, hrecord⟩ := hlooks
  obtain ⟨w'', hle, hallows⟩ := hrecorded.records _ hrecord
  obtain ⟨l, hl, p, e, hoccurs, hu, -, hfinds⟩ := hallows.faithful hle
  rw [hknows.programs] at hl
  obtain ⟨b, hb, hstarted⟩ := started_by hearlier l hl
  obtain ⟨hlaunched, hmem, htable⟩ := b.table_located hstarted hoccurs hu
  exact ⟨b, hb, hlaunched, hmem, hfinds.located.trans htable.symm⟩

end Traced

/-- Runs whose nodes have ids of their own. -/
structure Distinct (as : List Attempt) : Prop where
  /-- No two nodes have the same id, whether the programs are rejected or not. -/
  ids : ((as.flatMap Attempt.references).map (·.id)).Nodup
  apart : as.Pairwise Attempt.Apart
  /-- A run has no distances for ids that have some already. -/
  unused : ∀ a ∈ as, ∀ (id : NodeId) (d : Nat), a.table[id]? = some d → a.before.machine.distances[id]? = none
  kept : ∀ a ∈ as, ∀ id : NodeId, a.after.machine.distances[id]? = a.table[id]?.or a.before.machine.distances[id]?
  /-- A lookup goes by the distance that was found when its own program was resolved, be that program run now or
  earlier. -/
  looks : ∀ earlier a later, as = earlier ++ a :: later → ∀ use m, a.Looks use m →
    ∃ b ∈ earlier ++ [a], (b.before.launch? b.source).isSome ∧ use ∈ b.references ∧
      m.distances[use.id]? = b.table[use.id]?

/-- Ids never clash in a session, whatever is run in it. -/
theorem ids_never_clash (echo : Bool) (limit : Option Nat) (clock : Nat → Float) (reportLimit : Option Nat)
    (acts : List Act) : Distinct ((start (.initial echo limit clock) reportLimit).attempts acts) := by
  have htraced {earlier later : List Attempt} {a : Attempt}
      (hattempts : (start (.initial echo limit clock) reportLimit).attempts acts = earlier ++ a :: later) :
      Traced earlier a.before := (Traced.start echo limit clock reportLimit).before hattempts
  obtain ⟨_, -, hids, -⟩ := (start (.initial echo limit clock) reportLimit).fresh_attempts acts
  exact
    { ids := hids
      apart := pairwise_apart hids
      unused := fun a ha id d => by
        obtain ⟨earlier, later, hattempts⟩ := List.append_of_mem ha
        exact (htraced hattempts).unused
      kept := fun a _ => a.distances_after
      looks := fun earlier a later hattempts use m => (htraced hattempts).looks }

/-- What is on record depends on the machine and on the ids that are given away next. -/
theorem recording_eq {s : Session} {machine : Machine} {id : NodeId} (hmachine : s.machine = machine)
    (hid : s.nextId = id) (steps : Nat) (source : String) :
    s.recording steps source = (Session.mk machine (.empty none) id #[]).recording steps source := by
  subst hmachine hid
  rfl

/-- Behind a program with a syntax error, which uses up an id, a function finds the variable of its block. -/
theorem ids_never_clash_in_closure :
    ((((new.after 9 "var h;{var a;fun g(){a;}h=g;}").after 9 "a b;").recording 9 "h();").records.any fun
        | .looks _ use m => m.distances[use.id]? == some 1
        | _ => false) = true ∧
      Distinct (new.attempts [.run 9 "var h;{var a;fun g(){a;}h=g;}", .run 9 "a b;", .run 9 "h();"]) := by
  refine ⟨?_, ids_never_clash false none (fun _ => 0) none _⟩
  have hrejected (s : Session) : s.recording 9 "a b;" = ⟨s.machine, []⟩ := by
    have herrors : (s.parsed "a b;").errors.isEmpty = false := by cbv
    simp [recording, launch?, herrors]
  have hmachine : ((new.after 9 "var h;{var a;fun g(){a;}h=g;}").after 9 "a b;").machine =
      (new.recording 9 "var h;{var a;fun g(){a;}h=g;}").machine := by
    rw [machine_after, hrejected, machine_after]
  have hnext : (new.after 9 "var h;{var a;fun g(){a;}h=g;}").nextId = 4 := by
    rw [nextId_after]
    cbv
  have hnext' : ((new.after 9 "var h;{var a;fun g(){a;}h=g;}").after 9 "a b;").nextId = 5 := by
    generalize new.after 9 "var h;{var a;fun g(){a;}h=g;}" = s at hnext
    rw [nextId_after, parsed, hnext]
    cbv
  rw [recording_eq hmachine hnext']
  cbv

end Session

end TreeWalk
