import TreeWalk.Proofs.Evaluation.Safety
import TreeWalk.Proofs.Evaluation.Steps
import TreeWalk.Proofs.Evaluation.Transfer

/-!
# Sessions that go on

What is known of a session between two programs, whatever has run in it: nothing in it depends on ids that are
still to be given away, and what runs next writes behind what has been written.
-/

namespace TreeWalk

namespace Session

/-! ## Sessions as they come about -/

/-- Sessions that begin with the standard functions and in which programs run. Between two programs a host may
change all but the heap and the table. -/
inductive Ongoing : Session → Prop where
  | new {s : Session} (hheap : s.machine.heap = Native.register Native.standard .initial)
    (hdistances : s.machine.distances = ∅) : Ongoing s
  | host {s s' : Session} (h : Ongoing s) (hheap : s'.machine.heap = s.machine.heap)
    (hdistances : s'.machine.distances = s.machine.distances) (hid : s.nextId ≤ s'.nextId) : Ongoing s'
  | run {s : Session} (h : Ongoing s) (steps : Nat) (source : String) : Ongoing (s.after steps source)

/-- No function in the heap declares names at top level, and neither the heap nor the table has an id that is
still to be given away. -/
structure Sound (s : Session) : Prop where
  sturdy : s.machine.heap.Sturdy .any
  unused : ∀ id, s.nextId ≤ id → s.machine.distances[id]? = none
  fixed : ∀ r : Relabeling, r.Fixes s.nextId → s.machine.heap.relabel r = s.machine.heap

end Session

/-! ## Runs on other machines -/

theorem Transfer.stateBehind_outcome {α β : Type} (τ : Transfer) (f : α → β) (result : EStateM.Result Stop Machine α) :
    stateBehind (τ.outcome f result) = τ.machine (stateBehind result) := by
  cases result <;> rfl

theorem distances_program (steps : Nat) (statements : List Stmt) (m : Machine) :
    (stateBehind (Evaluation.program steps statements m)).distances = m.distances := by
  have htable := (program_transfers ⟨.onLines id, m.distances, m.distances, fun _ => rfl, #[]⟩ steps statements m rfl).2
  cases hrun : Evaluation.program steps statements m with
  | ok _ m' | error _ m' =>
    rw [hrun] at htable
    exact htable

theorem distances_of_program {steps : Nat} {statements : List Stmt} {m m' : Machine}
    (h : Evaluation.program steps statements m = .ok () m') : m'.distances = m.distances := by
  rw [← distances_program steps statements m, h]
  rfl

namespace Session

section Started

variable {s : Session} {source : String} {launch : Launch}

theorem nextId_le_parsed (s : Session) (source : String) : s.nextId ≤ (s.parsed source).nextId :=
  (Parse.ofTokens_sound s.nextId _).nextId

theorem program_launch (h : s.launch? source = some launch) : launch.program = (s.parsed source).statements := by
  obtain ⟨-, -, -, rfl⟩ := launch?_eq_some_iff.1 h
  rfl

theorem machine_launch (h : s.launch? source = some launch) :
    launch.machine = { s.machine with distances := launch.machine.distances } := by
  obtain ⟨-, -, -, rfl⟩ := launch?_eq_some_iff.1 h
  rfl

theorem heap_launch (h : s.launch? source = some launch) : launch.machine.heap = s.machine.heap := by
  rw [machine_launch h]

theorem settled_launch (h : s.launch? source = some launch) :
    ∀ statement ∈ launch.program, (Node.stmt statement).Every Node.Settled := by
  rw [program_launch h]
  exact (Parse.ofTokens_sound s.nextId _).settled

/-- Ids that have not been given away have no distance when a program starts. -/
theorem unused_launch (hunused : ∀ id, s.nextId ≤ id → s.machine.distances[id]? = none)
    (h : s.launch? source = some launch) {id : NodeId} (hid : (s.parsed source).nextId ≤ id) :
    launch.machine.distances[id]? = none := by
  refine Option.eq_none_iff_forall_ne_some.2 fun d hd => ?_
  rcases owned_launch h hd with hold | ⟨u, hu, rfl⟩
  · rw [hunused id (Nat.le_trans (s.nextId_le_parsed source) hid)] at hold
    cases hold
  · rw [program_launch h] at hu
    exact Nat.not_lt_of_le hid ((fresh_parsed s source).2 u hu).2

/-- Labels that leave all ids alone that have been given away leave a program and the heap in which it starts as
they are. -/
theorem Sound.transfer (hs : s.Sound) (h : s.launch? source = some launch) (steps : Nat) (τ : Transfer)
    (hlabels : τ.labels.Fixes (s.parsed source).nextId) {m : Machine} (hheap : m.heap = s.machine.heap)
    (hdistances : m.distances = τ.before) :
    Evaluation.program steps launch.program { m with distances := τ.after, output := m.output.behind τ.written } =
      τ.outcome id (Evaluation.program steps launch.program m) := by
  have hprogram : launch.program.map (Stmt.relabel τ.labels) = launch.program := by
    rw [program_launch h, ← Stmt.relabelAll_eq]
    exact Stmt.relabelAll_fixed hlabels _ fun u hu => ((fresh_parsed s source).2 u hu).2
  have hmachine : τ.machine m = { m with distances := τ.after, output := m.output.behind τ.written } := by
    unfold Transfer.machine
    rw [hheap, hs.fixed τ.labels (hlabels.mono (s.nextId_le_parsed source))]
  rw [← hmachine, ← (program_transfers τ steps launch.program m hdistances).1, hprogram]

end Started

/-! ## What is known of every session -/

/-- A program unbinds no names at top level, and binds none but those that it declares. -/
theorem Sound.top_ran {s : Session} (hs : s.Sound) {source : String} {launch : Launch}
    (h : s.launch? source = some launch) (steps : Nat) :
    (stateBehind (Evaluation.program steps launch.program launch.machine)).heap.Sturdy
      ⟨(· ∈ s.names), fun name => name ∈ s.names ∨ name ∈ declaredNames launch.program⟩ := by
  have hstart : launch.machine.heap.Sturdy
      ⟨(· ∈ s.names), fun name => name ∈ s.names ∨ name ∈ declaredNames launch.program⟩ := by
    rw [heap_launch h]
    exact hs.sturdy.mono (fun name => (Bindings.mem_names_iff _ name).1) fun name hname =>
      .inl ((Bindings.mem_names_iff _ name).2 hname)
  have hlands := safe_program steps (settled_launch h) (fun _ hname => Or.inr hname) launch.machine hstart
  cases hrun : Evaluation.program steps launch.program launch.machine with
  | ok _ m | error _ m =>
    rw [hrun] at hlands
    exact hlands.1

theorem Sound.ran {s s' : Session} (hs : s.Sound) {source : String} {launch : Launch}
    (h : s.launch? source = some launch) {steps : Nat}
    (hmachine : s'.machine = stateBehind (Evaluation.program steps launch.program launch.machine))
    (hid : s'.nextId = (s.parsed source).nextId) : s'.Sound where
  sturdy := by
    rw [hmachine]
    exact (hs.top_ran h steps).mono (fun _ => False.elim) fun _ _ => trivial
  unused id hge := by
    rw [hmachine, distances_program]
    exact unused_launch hs.unused h (hid ▸ hge)
  fixed r hr := by
    rw [hid] at hr
    have hagree (id : NodeId) : launch.machine.distances[r.id id]? = launch.machine.distances[id]? := by
      rcases Nat.lt_or_ge id (s.parsed source).nextId with hlt | hge
      · rw [hr.id id hlt]
      · rw [unused_launch hs.unused h hge, unused_launch hs.unused h (hr.above id hge)]
    have hrun := hs.transfer h steps ⟨r, _, _, hagree, #[]⟩ hr (heap_launch h) rfl
    rw [Transcript.behind_empty] at hrun
    have hheap := congrArg (fun result => (stateBehind result).heap) hrun
    rw [Transfer.stateBehind_outcome] at hheap
    rw [hmachine]
    exact hheap.symm

theorem Ongoing.sound {s : Session} (h : s.Ongoing) : s.Sound := by
  induction h with
  | @new s hheap hdistances =>
    refine ⟨?_, fun id _ => ?_, fun r _ => ?_⟩
    · exact hheap ▸ Heap.sturdy_initial.register (by decide)
    · simp [hdistances]
    · rw [hheap, Heap.relabel_register, Heap.relabel_initial]
  | host _ hheap hdistances hid ih =>
    refine ⟨hheap ▸ ih.sturdy, fun id hge => ?_, fun r hr => ?_⟩
    · rw [hdistances]
      exact ih.unused id (Nat.le_trans hid hge)
    · rw [hheap]
      exact ih.fixed r (hr.mono hid)
  | @run s _ steps source ih =>
    refine run_state s steps source Sound (fun launch hlaunch s' hmachine hid => ih.ran hlaunch hmachine hid) ?_
    intro _ s' hmachine hid
    exact
      { sturdy := hmachine ▸ ih.sturdy
        unused := fun id hge => hmachine ▸ ih.unused id (Nat.le_trans hid hge)
        fixed := fun r hr => hmachine ▸ ih.fixed r (hr.mono hid) }

/-- A program binds no names at top level but those that it declares. -/
theorem Sound.names_ran {s : Session} (hs : s.Sound) {source : String} {launch : Launch}
    (h : s.launch? source = some launch) {steps : Nat} {m : Machine}
    (hrun : Evaluation.program steps launch.program launch.machine = .ok () m) :
    ∀ name ∈ m.heap.globals.names, name ∈ s.names ∨ name ∈ declaredNames launch.program := by
  have htop := hs.top_ran h steps
  rw [hrun] at htop
  exact fun name hname => htop.top name ((Bindings.mem_names_iff _ name).1 hname)

/-! ## Programs that run -/

theorem run_ok {s s' : Session} {steps : Nat} {source : String} (h : run steps source s = .ok () s') :
    (s.launch? source).isSome := by
  refine run_cases s steps source (fun result => result = .ok () s' → (s.launch? source).isSome)
    (fun launch hlaunch _ => by rw [hlaunch]; rfl) (fun _ _ _ _ _ => nofun) h

theorem execute_ok {s s' : Session} {steps : Nat} {program : List Stmt} (h : execute steps program s = .ok () s') :
    Evaluation.program steps program s.machine = .ok () s'.machine ∧ s' = { s with machine := s'.machine } := by
  unfold execute at h
  cases hrun : Evaluation.program steps program s.machine with
  | ok _ m =>
    rw [hrun] at h
    cases h
    exact ⟨rfl, rfl⟩
  | error stop m =>
    rw [hrun] at h
    cases stop <;> cases h

/-- A program that ends does so in the same way with more steps. -/
theorem run_extends {s : Session} {source : String} (h : (s.launch? source).isSome) {steps more : Nat}
    (hmore : steps ≤ more) :
    (∃ s', run steps source s = .error .unfinished s') ∨ run more source s = run steps source s := by
  obtain ⟨launch, hlaunch⟩ := Option.isSome_iff_exists.1 h
  rw [run_launch hlaunch, run_launch hlaunch]
  unfold execute
  rcases program_extends hmore launch.program (s.starting source launch).machine with ⟨m, hunfinished⟩ | hsame
  · rw [hunfinished]
    exact .inl ⟨_, rfl⟩
  · rw [hsame]
    exact .inr rfl

/-! ## What is written -/

/-- What has been written since the session was in an earlier state. -/
def writtenSince (s before : Session) : List Entry :=
  s.machine.output.entries.toList.drop before.machine.output.entries.size

/-- What a program writes comes behind what has been written before. -/
theorem Sound.written {s s' : Session} (hs : s.Sound) {source : String} {launch : Launch}
    (h : s.launch? source = some launch) (steps : Nat)
    (hmachine : s'.machine = stateBehind (Evaluation.program steps launch.program launch.machine)) :
    s'.machine.output.entries.toList = s.machine.output.entries.toList ++ s'.writtenSince s := by
  let τ : Transfer := ⟨.onLines id, launch.machine.distances, launch.machine.distances, fun _ => rfl,
    s.machine.output.entries⟩
  have hlabels (bound : NodeId) : τ.labels.Fixes bound := ⟨fun _ => rfl, fun _ _ => rfl, fun _ h => h⟩
  have hrun := hs.transfer h steps τ (hlabels _)
    (m := { launch.machine with output := { launch.machine.output with entries := #[] } }) (heap_launch h) rfl
  have houtput : (Transcript.mk #[] launch.machine.output.room).behind s.machine.output.entries = launch.machine.output := by
    rw [machine_launch h]
    simp [Transcript.behind]
  rw [houtput] at hrun
  have hentries := congrArg (fun result => (stateBehind result).output.entries) hrun
  rw [Transfer.stateBehind_outcome] at hentries
  rw [writtenSince, hmachine]
  change _ = s.machine.output.entries ++ _ at hentries
  rw [hentries, Array.toList_append, List.drop_left']
  rfl

end Session

end TreeWalk
