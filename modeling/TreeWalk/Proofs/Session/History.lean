import TreeWalk.Proofs.Evaluation.Soundness
import TreeWalk.Proofs.Session.Launch

/-!
# Sessions as they come about

Which sessions runs can lead to, and what is known of them: there is a world that describes the
machine, and its programs are those that the session has started.
-/

namespace TreeWalk

namespace Session

/-- The program that a source starts, with the names that it finds. -/
def started (s : Session) (source : String) : List Loaded :=
  (s.launch? source).toList.map fun launch => ⟨s.names, launch.program⟩

/-- What a host may do between two programs, such as to switch the echo, to take another sink, clock or input, or to
prompt: the heap, the table and the number of calls in progress stay as they are, and no node id is given away twice. -/
structure Interlude (s s' : Session) : Prop where
  heap : s'.machine.heap = s.machine.heap
  distances : s'.machine.distances = s.machine.distances
  depth : s'.machine.depth = s.machine.depth
  nextId : s.nextId ≤ s'.nextId

theorem Interlude.refl (s : Session) : s.Interlude s := ⟨rfl, rfl, rfl, Nat.le_refl _⟩

/-- Runs lead to the session, and have started the programs since its machine was new, latest first. Between two runs
a host may do something. -/
inductive Reached : Session → List Loaded → Prop where
  | start (echo : Bool) (limit : Option Nat) (clock : Nat → Float) (input : List UInt8) (reportLimit : Option Nat) :
    Reached (.start { Machine.initial echo limit clock with input := input } reportLimit) []
  | run {s : Session} {programs : List Loaded} (h : Reached s programs) (steps : Nat) (source : String) :
    Reached (s.after steps source) (s.started source ++ programs)
  | host {s s' : Session} {programs : List Loaded} (h : Reached s programs) (hhost : s.Interlude s') :
    Reached s' programs
  | restart {s : Session} {programs : List Loaded} (h : Reached s programs) (limit : Option Nat) :
    Reached (s.restart limit) []

theorem new_reached : Reached new [] := .start false none (fun _ => 0) [] none

end Session

theorem Keeps.state {σ α : Type} {holds : World → σ → Prop} {w : World} {x : EStateM Stop σ α}
    {post : World → α → Prop} (h : Keeps holds w x post) {s : σ} (hs : holds w s) :
    ∃ w', w.Grows w' ∧ holds w' (stateBehind (x s)) := by
  have hx := h s hs
  cases hxs : x s with
  | ok a s' =>
    rw [hxs] at hx
    obtain ⟨w', hgrows, hs', -⟩ := hx
    exact ⟨w', hgrows, hs'⟩
  | error stop s' =>
    rw [hxs] at hx
    exact hx

namespace World

/-- The world is that of the session, and no node id will be given away twice. -/
structure Knows (w : World) (s : Session) (loaded : List Loaded) : Prop where
  holds : w.Holds s.machine
  programs : w.programs = loaded
  fresh : ∀ l ∈ loaded, ∀ u ∈ Stmt.referencesAll l.program, u.id < s.nextId

/-! ## A new machine -/

/-- A world in which nothing has run. -/
def initial (hosted : Prop) : World := ⟨hosted, [], fun _ => none, fun _ _ => False, fun _ _ => none⟩

theorem initial_describes (hosted : Prop) : (initial hosted).Describes .initial ∅ where
  runnable := by simp [initial]
  located := by simp [initial]
  owned id d hd := by simp at hd
  top := Nat.zero_lt_one
  fresh _ _ := rfl
  sited id htop hid := absurd (Nat.lt_one_iff.1 hid) htop
  unsited := rfl
  kept _ _ _ h := by cases h
  bound _ _ h := h.elim
  frames id name v hv := by simp [Bindings.get?_empty] at hv
  elements id v hv := by simp at hv
  fields id name v hv := by simp [Bindings.get?_empty] at hv

theorem Describes.register {w : World} {h : Heap} {distances : Distances} (hw : w.Describes h distances)
    {natives : List (String × Native)} (hnatives : ∀ native ∈ natives, native.2 = .define → w.hosted) :
    ∃ w', w.Grows w' ∧ w'.Describes (Native.register natives h) distances := by
  induction natives generalizing w h with
  | nil => exact ⟨w, .refl w, hw⟩
  | cons native rest ih =>
    obtain ⟨hnative, hrest⟩ := List.forall_mem_cons.1 hnatives
    have hnext := hw.addIdentity.define hw.top (hw.kept_top native.1) (v := .native h.addIdentity.1 native.2) hnative
    obtain ⟨w', hgrows, hw'⟩ := ih hnext hrest
    exact ⟨w', (w.grows_bind _ _).trans hgrows, hw'⟩

/-- There is a world for a new machine, be there hosts or not. -/
theorem knows_initial (hosted : Prop) {s : Session} (hheap : s.machine.heap = Native.register Native.standard .initial)
    (hdistances : s.machine.distances = ∅) : ∃ w : World, (w.hosted ↔ hosted) ∧ w.Knows s [] := by
  have hstandard : ∀ native ∈ Native.standard, native.2 ≠ .define := by decide
  obtain ⟨w, hgrows, hw⟩ := (initial_describes hosted).register fun native hmem hdefine => absurd hdefine (hstandard native hmem)
  refine ⟨w, hgrows.le.hosted, ?_, hgrows.programs, by simp⟩
  rw [Holds, hheap, hdistances]
  exact hw

/-! ## A run -/

section Run

variable {w : World} {s : Session} {loaded : List Loaded}

/-- The world with one more program. -/
def load (w : World) (l : Loaded) : World := { w with programs := l :: w.programs }

theorem le_load (w : World) (l : Loaded) : w ≤ w.load l :=
  ⟨.rfl, List.subset_cons_self l w.programs, fun h => h, fun h => h, fun h => h, fun _ h => h⟩

/-- Only ids that have been given away have distances. -/
theorem Knows.id_lt (h : w.Knows s loaded) (id : NodeId) (d : Nat) (hd : s.machine.distances[id]? = some d) :
    id < s.nextId := by
  obtain ⟨l, hl, u, hu, rfl⟩ := h.holds.owned id d hd
  exact h.fresh l (h.programs ▸ hl) u hu

/-- What a host does between two programs is nothing to the world. -/
theorem Knows.host (h : w.Knows s loaded) {s' : Session} (hhost : s.Interlude s') : w.Knows s' loaded where
  holds := by
    rw [Holds, hhost.heap, hhost.distances]
    exact h.holds
  programs := h.programs
  fresh l hl u hu := Nat.lt_of_lt_of_le (h.fresh l hl u hu) hhost.nextId

/-- A program can start when no early stage has found an error in it. -/
theorem Knows.launch (h : w.Knows s loaded) {source : String} {launch : Launch} (hlaunch : s.launch? source = some launch) :
    (w.load ⟨s.names, launch.program⟩).Holds launch.machine := by
  have hle := w.le_load ⟨s.names, launch.program⟩
  have hheap : launch.machine.heap = s.machine.heap := by
    obtain ⟨-, -, -, rfl⟩ := s.launch?_eq_some_iff.1 hlaunch
    rfl
  rw [Holds, hheap]
  exact
    { runnable := List.forall_mem_cons.2 ⟨s.runnable_launch hlaunch, h.holds.runnable⟩
      located := by
        refine List.forall_mem_cons.2 ⟨s.located_launch hlaunch h.id_lt, fun l hl p n hn u hu => ?_⟩
        have hold := h.fresh l (h.programs ▸ hl) u (hn.uses_subset hu)
        rw [s.distances_launch hlaunch hold]
        exact h.holds.located l hl p n hn u hu
      owned := fun id d hd => by
        rcases s.owned_launch hlaunch hd with hd | hu
        · obtain ⟨l, hl, hu⟩ := h.holds.owned id d hd
          exact ⟨l, List.mem_cons_of_mem _ hl, hu⟩
        · exact ⟨_, List.mem_cons_self, hu⟩
      top := h.holds.top
      fresh := h.holds.fresh
      sited := h.holds.sited
      unsited := h.holds.unsited
      kept := h.holds.kept
      bound := h.holds.bound
      frames := fun id name v hv => (h.holds.frames id name v hv).mono hle
      elements := fun id v hv => (h.holds.elements id v hv).mono hle
      fields := fun id name v hv => (h.holds.fields id name v hv).mono hle }

/-- A run leads from a known session to another in a larger world, and its events are as they should be. -/
theorem Knows.run_grows (h : w.Knows s loaded) (steps : Nat) (source : String) :
    ∃ w' ≥ w, w'.Recorded (s.recording steps source) ∧ w'.Knows (s.after steps source) (s.started source ++ loaded) := by
  have hmachine := s.machine_after steps source
  cases hlaunch : s.launch? source with
  | none =>
    -- No program starts, and only node ids have been given away.
    have hrecording : s.recording steps source = ⟨s.machine, []⟩ := by simp [Session.recording, hlaunch]
    have hid : s.nextId ≤ (s.after steps source).nextId := by
      refine s.run_state steps source (s.nextId ≤ ·.nextId) (fun launch hsome => ?_) fun _ s' _ hid => hid
      rw [hlaunch] at hsome
      cases hsome
    rw [hrecording] at hmachine ⊢
    refine ⟨w, le_refl w, ⟨h.holds, by simp⟩, by rw [hmachine]; exact h.holds,
      by simp [Session.started, hlaunch, h.programs], ?_⟩
    simp only [Session.started, hlaunch, Option.toList_none, List.map_nil, List.nil_append]
    exact fun l hl u hu => Nat.lt_of_lt_of_le (h.fresh l hl u hu) hid
  | some launch =>
    have hrecording : s.recording steps source =
        stateBehind (Recorder.program steps launch.program ⟨launch.machine, []⟩) := by
      simp [Session.recording, hlaunch]
    have hid : (s.after steps source).nextId = (s.parsed source).nextId := by
      refine s.run_state steps source (·.nextId = (s.parsed source).nextId) (fun _ _ s' _ hid => hid) fun hnone => ?_
      rw [hlaunch] at hnone
      cases hnone
    -- The program starts in the world with one more program, and what it does makes that larger.
    have hprogram : Keeps World.Recorded (w.load ⟨s.names, launch.program⟩)
        (Recorder.program steps launch.program) Whatever :=
      program_sound List.mem_cons_self (List.nil_append launch.program).symm
    have hinitial : (w.load ⟨s.names, launch.program⟩).Recorded ⟨launch.machine, []⟩ := ⟨h.launch hlaunch, by simp⟩
    obtain ⟨w', hgrows, hrecorded⟩ := hprogram.state hinitial
    rw [← hrecording] at hrecorded
    have hstarted : s.started source ++ loaded = ⟨s.names, launch.program⟩ :: loaded := by
      simp [Session.started, hlaunch]
    rw [hstarted]
    refine ⟨w', le_trans (w.le_load _) hgrows.le, hrecorded, by rw [hmachine]; exact hrecorded.holds,
      by rw [hgrows.programs, load, h.programs], ?_⟩
    obtain ⟨-, -, -, rfl⟩ := s.launch?_eq_some_iff.1 hlaunch
    have hbounds := (s.fresh_parsed source).2
    rw [hid]
    refine List.forall_mem_cons.2 ⟨fun u hu => (hbounds u hu).2, fun l hl u hu => ?_⟩
    exact Nat.lt_of_lt_of_le (h.fresh l hl u hu) (Parse.ofTokens_sound s.nextId _).nextId

theorem Knows.run (h : w.Knows s loaded) (steps : Nat) (source : String) :
    ∃ w' : World, w'.Recorded (s.recording steps source) ∧ w'.Knows (s.after steps source) (s.started source ++ loaded) := by
  obtain ⟨w', -, hrun⟩ := h.run_grows steps source
  exact ⟨w', hrun⟩

end Run

end World

/-- Every session that runs lead to is known. -/
theorem Session.Reached.known_unhosted {s : Session} {loaded : List Loaded} (h : Session.Reached s loaded) :
    ∃ w : World, ¬ w.hosted ∧ w.Knows s loaded := by
  have hnew {s : Session} : (∃ w : World, (w.hosted ↔ False) ∧ w.Knows s []) → ∃ w : World, ¬ w.hosted ∧ w.Knows s [] :=
    fun ⟨w, hhosted, hw⟩ => ⟨w, hhosted.1, hw⟩
  induction h with
  | start echo limit clock input reportLimit => exact hnew (World.knows_initial False rfl rfl)
  | run _ steps source ih =>
    obtain ⟨w, hhosted, hw⟩ := ih
    obtain ⟨w', hle, -, hw'⟩ := hw.run_grows steps source
    exact ⟨w', hhosted ∘ hle.hosted.1, hw'⟩
  | host _ hhost ih =>
    obtain ⟨w, hhosted, hw⟩ := ih
    exact ⟨w, hhosted, hw.host hhost⟩
  | restart _ limit _ => exact hnew (World.knows_initial False rfl rfl)

theorem Session.Reached.known {s : Session} {loaded : List Loaded} (h : Session.Reached s loaded) :
    ∃ w : World, w.Knows s loaded := by
  obtain ⟨w, -, hw⟩ := h.known_unhosted
  exact ⟨w, hw⟩

namespace Session

/-- Runs lead to the session, and these are all events since its machine was new, latest first. Between two runs a
host may do something. -/
inductive Logged : Session → List Record → Prop where
  | start (echo : Bool) (limit : Option Nat) (clock : Nat → Float) (input : List UInt8) (reportLimit : Option Nat) :
    Logged (.start { Machine.initial echo limit clock with input := input } reportLimit) []
  | run {s : Session} {records : List Record} (h : Logged s records) (steps : Nat) (source : String) :
    Logged (s.after steps source) ((s.recording steps source).records ++ records)
  | host {s s' : Session} {records : List Record} (h : Logged s records) (hhost : s.Interlude s') : Logged s' records
  | restart {s : Session} {records : List Record} (h : Logged s records) (limit : Option Nat) :
    Logged (s.restart limit) []

theorem new_logged : Logged new [] := .start false none (fun _ => 0) [] none

/-- There is one world for all events of a session. -/
theorem Logged.recorded {s : Session} {records : List Record} (h : Logged s records) :
    ∃ (w : World) (loaded : List Loaded), w.Knows s loaded ∧ w.Recorded ⟨s.machine, records⟩ := by
  have hnew {s : Session} : (∃ w : World, (w.hosted ↔ True) ∧ w.Knows s []) →
      ∃ (w : World) (loaded : List Loaded), w.Knows s loaded ∧ w.Recorded ⟨s.machine, []⟩ :=
    fun ⟨w, _, hw⟩ => ⟨w, [], hw, hw.holds, by simp⟩
  induction h with
  | start echo limit clock input reportLimit => exact hnew (World.knows_initial True rfl rfl)
  | restart _ limit _ => exact hnew (World.knows_initial True rfl rfl)
  | host _ hhost ih =>
    obtain ⟨w, loaded, hw, hold⟩ := ih
    exact ⟨w, loaded, hw.host hhost, (hw.host hhost).holds, hold.records⟩
  | @run s records _ steps source ih =>
    obtain ⟨w, loaded, hw, hold⟩ := ih
    obtain ⟨w', hle, hrecorded, hw'⟩ := hw.run_grows steps source
    refine ⟨w', _, hw', hw'.holds, List.forall_mem_append.2 ⟨hrecorded.records, fun record hrecord => ?_⟩⟩
    obtain ⟨w₀, hle₀, hallows⟩ := hold.records record hrecord
    exact ⟨w₀, le_trans hle₀ hle, hallows⟩

end Session

end TreeWalk
