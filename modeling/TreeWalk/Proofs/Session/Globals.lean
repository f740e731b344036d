import TreeWalk.Proofs.Session.History
import TreeWalk.Proofs.Session.Ongoing

/-!
# Names at top level

Only declarations at top level bind names there, and nothing unbinds them. Everything else that a program does,
in however many calls, runs in an environment of its own or declares nothing.
-/

namespace TreeWalk

open Evaluation

/-! ## Worlds without hosts are sturdy -/

namespace World

variable {w : World} {h : Heap} {distances : Distances}

theorem Matches.sturdy (hw : w.Describes h distances) {l : Loaded} {p : Place} {env : Environment} (hm : w.Matches l p env) :
    env.Sturdy := fun htop => hm.sited _ htop hw.unsited

theorem Describes.sturdy_closure (hw : w.Describes h distances) {l : Loaded} (hl : l ∈ w.programs) {p q : Place}
    {role : FunctionRole} {c : Closure} (hoccurs : Occurs l.program p (.function role c.function))
    (hm : w.Matches l q c.environment) : c.Sturdy :=
  Closure.sturdy_of_every (hoccurs.inside (hw.runnable l hl).settled) c.name (hm.sturdy hw) c.isInitializer

theorem Describes.sturdy_class (hw : w.Describes h distances) {c : Class} (hc : w.ClassFits c) : c.Sturdy := by
  intro own hown name method hget
  obtain ⟨ancestors, hdescends⟩ := Class.descendsFrom_of_mem hown
  obtain ⟨l, hl, outer, role, hoccurs, hm, -, -⟩ := (hc ⟨own, ancestors⟩ hdescends name method hget).occurs
  exact hw.sturdy_closure hl hoccurs hm

theorem Describes.sturdy_value (hw : w.Describes h distances) (hhosted : ¬ w.hosted) {v : Value} (hv : w.ValueFits v) :
    v.Sturdy := by
  induction v with
  | native identity f => exact hhosted ∘ hv
  | constant identity result ih => exact ih hv
  | function identity c =>
    obtain ⟨l, hl, p, role, hoccurs, hm, -⟩ := ClosureFits.occurs hv
    exact hw.sturdy_closure hl hoccurs hm
  | «class» c => exact hw.sturdy_class hv
  | object id c => exact hw.sturdy_class hv
  | _ => trivial

/-- Where no host adds functions, nothing in the heap declares names at top level. -/
theorem Describes.sturdy (hw : w.Describes h distances) (hhosted : ¬ w.hosted) : h.Sturdy .any where
  nonempty := hw.top
  kept _ := False.elim
  top _ _ := trivial
  frames id name v hv := hw.sturdy_value hhosted (hw.frames id name v hv)
  elements id v hv := hw.sturdy_value hhosted (hw.elements id v hv)
  fields id name v hv := hw.sturdy_value hhosted (hw.fields id name v hv)

/-- What declares a name at top level is a statement of the program itself. -/
theorem Matches.top_of_declares {l : Loaded} (hl : l.Runnable) {p : Place} {s : Stmt} (hoccurs : Occurs l.program p (.stmt s))
    (hm : w.Matches l p []) (hs : s.declaredName? ≠ none) : s ∈ l.program := by
  obtain ⟨place, statements, earlier, later, hsuite, rfl, rfl⟩ :=
    Occurs.suite_of_declares (fun _ _ hn => hn.every hl.settled) hoccurs hs
  generalize hp : place earlier = p at hm
  generalize hstatements : earlier ++ s :: later = statements at hsuite
  cases hsuite with
  | top => simp [← hstatements]
  | block _ | function _ => subst hp; cases hm

end World

/-! ## What keeps the names at top level -/

/-- On the machine, the computation neither binds nor unbinds names at top level, however it ends. -/
def Run.KeepsTop {α : Type} (x : Run α) (m : Machine) : Prop :=
  ∀ name, (stateBehind (x m)).heap.globals.contains name = m.heap.globals.contains name

section Keeping

variable {α : Type} {m : Machine} {steps : Nat} {env : Environment}

/-- What is safe no matter how few names may be at top level keeps them. -/
theorem Safe.keepsTop {x : Run α} {post : α → Prop} (hm : m.heap.Sturdy .any) (h : ∀ names, Safe names x post) :
    x.KeepsTop m := by
  intro name
  have hstart : m.heap.Sturdy ⟨(m.heap.globals.contains · = true), (m.heap.globals.contains · = true)⟩ :=
    hm.mono (fun _ h => h) fun _ h => h
  have hlands := h _ m hstart
  rw [Bool.eq_iff_iff]
  cases hrun : x m with
  | ok a m' | error stop m' =>
    rw [hrun] at hlands
    exact ⟨hlands.1.top name, hlands.1.kept name⟩

theorem keepsTop_eval (hm : m.heap.Sturdy .any) (henv : env.Sturdy) {e : Expr} (he : (Node.expr e).Every Node.Settled) :
    (eval steps env e).KeepsTop m := Safe.keepsTop hm fun names => (safe names steps).eval henv he

theorem keepsTop_exec (hm : m.heap.Sturdy .any) (henv : env.Sturdy) {s : Stmt} (hs : (Node.stmt s).Every Node.Settled)
    (hinner : env = [] → s.declaredName? = none) : (exec steps env s).KeepsTop m :=
  Safe.keepsTop hm fun names =>
    (safe names steps).exec henv (fun henv name hname => by rw [hinner henv] at hname; cases hname) hs

/-- The target of an assignment has no binding in the frame where it is looked up, or there is no such frame. -/
def Machine.Lacks (m : Machine) (env : Environment) (target : Reference) : Prop :=
  ∀ id, Run.frameOf? m env target.id = some id → m.heap.binds id target.name.text = false

/-- All that is left of an assignment to an undefined variable is what evaluating its right side has done. -/
theorem eval_assign_of_lacks {target : Reference} {value : Expr} {v : Value} {m' : Machine}
    (hvalue : eval steps env value m = .ok v m') (h : m'.Lacks env target) :
    eval (steps + 1) env (.assign target value) m =
      .error (.fault (.evaluation target.name.line (.undefinedVariable target.name.text))) m' := by
  have hnone : (Run.frameOf? m' env target.id).filter (fun id => m'.heap.binds id target.name.text) = none :=
    Option.filter_eq_none_iff.2 fun id hid => by simp [h id hid]
  have hassign : Run.assign env target v m' =
      .error (.fault (.evaluation target.name.line (.undefinedVariable target.name.text))) m' := by
    unfold Run.assign
    rw [hnone]
    rfl
  exact (bind_ok hvalue).trans (bind_error hassign)

end Keeping

/-! ## What binds a name at top level -/

/-- If the computation comes to a result, the name is bound at top level behind it. -/
def Run.Binds {α : Type} (name : String) (x : Run α) : Prop :=
  ∀ m, m.heap.Sturdy .any → ∀ a m', x m = .ok a m' → m'.heap.globals.contains name = true

section Binding

variable {α β : Type} {name : String} {x : Run α}

theorem Run.Binds.bind {post : α → Prop} (hx : Safe .any x post) {f : α → Run β} (hf : ∀ a, post a → (f a).Binds name) :
    (x >>= f).Binds name := by
  intro m hm b m' hrun
  obtain ⟨a, m₁, hfirst, hsecond⟩ := ok_of_bind_ok hrun
  have hlands := hx m hm
  rw [hfirst] at hlands
  exact hf a hlands.2 m₁ hlands.1 b m' hsecond

theorem Run.Binds.then_pure (hx : x.Binds name) (b : β) : (x >>= fun _ => pure b).Binds name := by
  intro m hm b' m' hrun
  obtain ⟨a, m₁, hfirst, hpure⟩ := ok_of_bind_ok hrun
  cases hpure
  exact hx m hm a m' hfirst

theorem binds_fail (line : Nat) (cause : FaultCause) : (Run.fail line cause : Run α).Binds name := nofun

theorem binds_define (name : String) (v : Value) : (Run.define [] name v).Binds name := by
  rintro m hm _ m' ⟨⟩
  show ((m.heap.define Heap.topFrame name v).frame Heap.topFrame).contains name = true
  have htop : Heap.topFrame < m.heap.frames.size := hm.nonempty
  rw [Heap.frame_define m.heap Heap.topFrame name v htop, if_pos rfl, Bindings.contains, Bindings.get?_set, if_pos rfl]
  rfl

theorem binds_declareClass {name : Name} {parent : Option Reference} {methods : List Method}
    (h : (Node.stmt (.class name parent methods)).Every Node.Settled) :
    (Run.declareClass [] name parent methods).Binds name.text := by
  have henv : Environment.Sturdy [] := List.not_mem_nil
  have hmethods {inner : Environment} (hinner : inner.Sturdy) := sturdy_methodClosures h hinner
  refine .bind (safe_define (v := .nil) henv (fun _ => trivial) trivial) fun _ _ => ?_
  cases parent with
  | none => exact .bind (safe_newClass (by simp) (hmethods henv) name.text) fun v _ => binds_define _ v
  | some use =>
    refine .bind (safe_read [] use) fun found hfound => ?_
    cases found with
    | «class» c =>
      refine .bind (safe_enter henv (sturdy_single (v := .class c) hfound)) fun inner hinner => ?_
      refine .bind (safe_newClass (fun _ h => ?_) (hmethods hinner.1) name.text) fun v _ => binds_define _ v
      exact Option.some.inj h ▸ hfound
    | _ => exact binds_fail _ _

/-- A declaration at top level binds its name, unless there is a fault. -/
theorem binds_exec (steps : Nat) {s : Stmt} (hs : s.declaredName? = some name) (h : (Node.stmt s).Every Node.Settled) :
    (exec steps [] s).Binds name := by
  have henv : Environment.Sturdy [] := List.not_mem_nil
  cases steps with
  | zero => exact nofun
  | succ steps =>
    unfold exec
    cases s with
    | var name initializer =>
      cases hs
      cases initializer with
      | none => exact (binds_define _ _).then_pure _
      | some initializer =>
        have hinitializer : (Node.expr initializer).Every Node.Settled := h.child _ (by simp [Node.children, Node.parts])
        exact .bind ((safe .any steps).eval henv hinitializer) fun v _ => (binds_define _ v).then_pure _
    | function name f =>
      cases hs
      have hf : (Node.function .function f).Every Node.Settled := h.child _ (by simp [Node.children, Node.parts])
      exact .bind (safe_newFunction (Closure.sturdy_of_every hf _ henv false)) fun v _ => (binds_define _ v).then_pure _
    | «class» name parent methods =>
      cases hs
      exact (binds_declareClass h).then_pure _
    | _ => cases hs

/-- If a program comes to its end, all names are bound that it declares at top level. -/
theorem binds_program (steps : Nat) {statements : List Stmt} (h : ∀ s ∈ statements, (Node.stmt s).Every Node.Settled) :
    ∀ name ∈ declaredNames statements, (program steps statements).Binds name := by
  induction statements with
  | nil => simp [declaredNames]
  | cons s rest ih =>
    obtain ⟨hs, hrest⟩ := List.forall_mem_cons.1 h
    have hsafe : Safe .any (exec steps [] s) fun _ => True :=
      ((safe .any steps).exec List.not_mem_nil (fun _ _ _ => trivial) hs).mono fun _ _ => trivial
    intro name hname
    obtain ⟨s', hs', hname'⟩ := List.mem_filterMap.1 hname
    rcases List.mem_cons.1 hs' with rfl | hs'
    · -- The first statement binds the name, and the others do not unbind it.
      intro m hm _ m' hrun
      obtain ⟨flow, m₁, hexec, hrun⟩ := ok_of_bind_ok hrun
      have hlands := hsafe m hm
      rw [hexec] at hlands
      have hbound : m₁.heap.globals.contains name = true := binds_exec steps hname' hs m hm flow m₁ hexec
      have hstart : m₁.heap.Sturdy ⟨(· = name), fun _ => True⟩ := hlands.1.mono (fun _ h => h ▸ hbound) fun _ _ => trivial
      have hlands' := safe_program steps hrest (fun _ _ => trivial) m₁ hstart
      rw [hrun] at hlands'
      exact hlands'.1.kept name rfl
    · exact .bind hsafe fun _ _ => ih hrest name (List.mem_filterMap.2 ⟨s', hs', hname'⟩)

end Binding

/-! ## Sessions -/

namespace Session

theorem Reached.ongoing {s : Session} {loaded : List Loaded} (h : Reached s loaded) : s.Ongoing := by
  induction h with
  | start echo limit clock input reportLimit => exact .new rfl rfl
  | run _ steps source ih => exact ih.run steps source
  | host _ hhost ih => exact ih.host hhost.heap hhost.distances hhost.nextId
  | restart _ limit _ => exact .new rfl rfl

/-- How the names at top level fare in a run. -/
structure TopDeclared (s : Session) (loaded : List Loaded) (steps : Nat) (source : String) : Prop where
  kept : s.names ⊆ (s.after steps source).names
  declared : ∀ name ∈ (s.after steps source).names,
    name ∈ s.names ∨ name ∈ declaredNames (s.parsed source).statements
  bound : ∀ s', run steps source s = .ok () s' → declaredNames (s.parsed source).statements ⊆ s'.names
  /-- Wherever an expression is evaluated, be it an assignment or a call, there are the same names behind it. -/
  expressions : ∀ env e m, .evaluates env e m ∈ (s.recording steps source).records →
    ∀ more, (eval more env e).KeepsTop m
  /-- Wherever a statement is executed there are the same names behind it, unless it stands at top level and
  declares one. -/
  statements : ∀ env statement m, .executes env statement m ∈ (s.recording steps source).records →
    (∀ more, (exec more env statement).KeepsTop m) ∨
      env = [] ∧ statement.declaredName?.isSome ∧ ∃ l ∈ s.started source ++ loaded, statement ∈ l.program
  /-- An assignment to an undefined variable leaves the machine as it is behind the right side. -/
  undefined : ∀ env target value more m v m', eval more env value m = .ok v m' → m'.Lacks env target →
    eval (more + 1) env (.assign target value) m =
      .error (.fault (.evaluation target.name.line (.undefinedVariable target.name.text))) m'

variable {s : Session} {loaded : List Loaded} {source : String}

/-- A program that is not started changes no names, and no more does any other one but for its own declarations. -/
theorem Sound.names_after (hs : s.Sound) (steps : Nat) (source : String) :
    s.names ⊆ (s.after steps source).names ∧
      ∀ name ∈ (s.after steps source).names, name ∈ s.names ∨ name ∈ declaredNames (s.parsed source).statements := by
  refine run_state s steps source (fun s' => s.names ⊆ s'.names ∧
    ∀ name ∈ s'.names, name ∈ s.names ∨ name ∈ declaredNames (s.parsed source).statements)
    (fun launch hlaunch s' hmachine _ => ?_) fun _ s' hmachine _ => ?_
  · have htop := hs.top_ran hlaunch steps
    rw [← hmachine, program_launch hlaunch] at htop
    exact ⟨fun name hname => (Bindings.mem_names_iff _ name).2 (htop.kept name hname),
      fun name hname => htop.top name ((Bindings.mem_names_iff _ name).1 hname)⟩
  · have hnames : s'.names = s.names := by rw [names, hmachine, names]
    rw [hnames]
    exact ⟨List.Subset.refl _, fun name => .inl⟩

theorem Sound.declared_ok (hs : s.Sound) {steps : Nat} {s' : Session} (hrun : run steps source s = .ok () s') :
    declaredNames (s.parsed source).statements ⊆ s'.names := by
  obtain ⟨launch, hlaunch⟩ := Option.isSome_iff_exists.1 (run_ok hrun)
  rw [run_launch hlaunch] at hrun
  have hprogram := (execute_ok hrun).1
  change program steps launch.program launch.machine = _ at hprogram
  have hstart : launch.machine.heap.Sturdy .any := heap_launch hlaunch ▸ hs.sturdy
  rw [← program_launch hlaunch]
  intro name hname
  have hbound := binds_program steps (settled_launch hlaunch) name hname launch.machine hstart _ _ hprogram
  exact (Bindings.mem_names_iff _ name).2 hbound

/-- Only declarations at top level bind names there, and nothing unbinds any. -/
theorem only_declarations_bind_globals (h : Reached s loaded) (steps : Nat) (source : String) :
    TopDeclared s loaded steps source := by
  have hsound := h.ongoing.sound
  obtain ⟨hkept, hdeclared⟩ := hsound.names_after steps source
  obtain ⟨w, hhosted, hw⟩ := h.known_unhosted
  obtain ⟨w', hle, hrecorded, hknows⟩ := hw.run_grows steps source
  -- At each event there is a world of the machine, and a later one of the session.
  have hsturdy {w'' : World} (hle' : w'' ≤ w') {m : Machine} (hm : w''.Holds m) : m.heap.Sturdy .any :=
    World.Describes.sturdy hm fun hhosted' => hhosted (hle.hosted.1 (hle'.hosted.2 hhosted'))
  refine ⟨hkept, hdeclared, fun s' => hsound.declared_ok, fun env e m hrecord more => ?_,
    fun env statement m hrecord => ?_, fun _ _ _ _ _ _ _ => eval_assign_of_lacks⟩
  · obtain ⟨w'', hle', hm, l, p, hstands⟩ := hrecorded.records _ hrecord
    have hsettled := (hm.runnable l hstands.loaded).settled
    exact keepsTop_eval (hsturdy hle' hm) (hstands.fits.sturdy hm) (hstands.occurs.inside hsettled)
  · obtain ⟨w'', hle', hm, l, p, hstands⟩ := hrecorded.records _ hrecord
    have hrunnable := hm.runnable l hstands.loaded
    by_cases htop : env = [] ∧ statement.declaredName? ≠ none
    · obtain ⟨rfl, hdeclares⟩ := htop
      have hl : l ∈ s.started source ++ loaded := hknows.programs ▸ hle'.programs hstands.loaded
      exact .inr ⟨rfl, Option.isSome_iff_ne_none.2 hdeclares, l, hl,
        hstands.fits.top_of_declares hrunnable hstands.occurs hdeclares⟩
    · refine .inl fun more => keepsTop_exec (hsturdy hle' hm) (hstands.fits.sturdy hm)
        (hstands.occurs.inside hrunnable.settled) fun henv => ?_
      by_contra hdeclares
      exact htop ⟨henv, hdeclares⟩

/-- Declarations in a function and in the body of a loop, and an assignment to an undefined variable. -/
def undefining : String := "var a=true;fun f(){var b;a=nil;}while(a){var c;f();}b=a;"

/-- Neither the function nor the loop binds names at top level but by the declarations there, and no more does the
assignment. -/
theorem only_declarations_bind_globals_undefining :
    ["a", "f", "b", "c"].map (new.after 20 undefining).names.contains = [true, true, false, false] ∧
      Reached new [] ∧ TopDeclared new [] 20 undefining :=
  ⟨by decide +kernel, new_reached, only_declarations_bind_globals new_reached 20 undefining⟩

end Session

end TreeWalk
