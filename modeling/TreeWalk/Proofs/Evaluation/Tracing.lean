import TreeWalk.Proofs.Evaluation.Story

/-!
# Every run has a story

The evaluator with calls on record does the same as the one without, and there is a story of what happens in it.
-/

namespace TreeWalk

open Tracer

/-- All that is evaluated, called and executed within so many steps has a story. -/
structure TellsAt (steps : Nat) : Prop where
  eval : ∀ {scene : Scene} {env e}, scene.Allows env (.expr e) → Tells scene (eval steps env e) (Recorder.eval steps env e)
  evalAll : ∀ {scene : Scene} {env es}, scene.Running → (∀ e ∈ es, scene.Allows env (.expr e)) →
    Tells scene (evalAll steps env es) (Recorder.evalAll steps env es)
  call_mirrors : ∀ a t, untraced (call steps a t) = Recorder.call steps a.line a.value a.arguments t.recording
  call : ∀ {scene : Scene} {a t}, scene.Running → t.machine.depth ≤ maxDepth →
    a.Made t.recording.records t.machine.distances t.machine.depth scene → Told scene t (call steps a t)
  instantiate : ∀ {a : Invocation} {c}, a.value.callable? = some (.class c) → ∀ arguments,
    Tells (.call a) (instantiate steps c arguments) (Recorder.instantiate steps c arguments)
  invoke : ∀ c arguments, Tells (.body c) (invoke steps c arguments) (Recorder.invoke steps c arguments)
  exec : ∀ {scene : Scene} {env s}, scene.Allows env (.stmt s) → Tells scene (exec steps env s) (Recorder.exec steps env s)
  execAll : ∀ {scene : Scene} {env statements}, scene.Running → (∀ s ∈ statements, scene.Allows env (.stmt s)) →
    Tells scene (execAll steps env statements) (Recorder.execAll steps env statements)
  loop : ∀ {scene : Scene} {env condition body increment}, scene.Allows env (.stmt (.loop condition body increment)) →
    Tells scene (loop steps env condition body increment) (Recorder.loop steps env condition body increment)

section Steps

variable {steps : Nat} {scene : Scene} {env : Environment}

/-- A new frame is entered. -/
theorem Tells.entered {α : Type} (hscene : scene.MayEnd) {bindings : Bindings Value} {f : Environment → Tracer α}
    {g : Environment → Recorder α} (hf : ∀ id, Tells scene (f (id :: env)) (g (id :: env))) :
    Tells scene (Tracer.run (Run.enter env bindings) >>= f) (Recorder.lift (Run.enter env bindings) >>= g) :=
  .after (.lift (Run.level_enter env bindings)) hscene fun inner r r' h => by
    cases h
    exact hf _

/-- What comes to a result with calls on record comes to the same result without. -/
theorem run_of_traced {α : Type} {x : Tracer α} {y : Recorder α} {z : Run α} (hx : ∀ t, untraced (x t) = y t.recording)
    (hy : Mirrors y z) {t t' : Tracing} {v : α} (h : x t = .ok v t') : z t.machine = .ok v t'.machine := by
  have hsame := hy t.recording
  rw [← hx t, h] at hsame
  exact hsame.symm

/-! ## Expressions -/

/-- Between the record of a call and the call itself callee and arguments are evaluated. -/
theorem told_behind (ih : TellsAt steps) {callee : Expr} {line : Nat} {operands : List Expr}
    (hallows : scene.Allows env (.expr (.call callee line operands))) {t : Tracing} (ht : t.machine.depth ≤ maxDepth)
    (hrecorded : .evaluates env (.call callee line operands) t.machine ∈ t.recording.records) :
    Told scene t ((do
      let start ← Tracer.run get
      let value ← eval steps env callee
      let values ← evalAll steps env operands
      call steps ⟨env, callee, line, operands, start, value, values⟩ : Tracer Value) t) := by
  have hrunning := hallows.running
  have hcallee := ih.eval (hallows.inner (m := .expr callee) (by simp [Node.parts]))
  have hoperands := ih.evalAll hrunning hallows.operands
  refine (Told.lift (.lift .get) hrunning.mayEnd t).bind hrunning fun start t₀ hstart _ _ _ => ?_
  cases hstart
  refine (hcallee.told t ht).bind hrunning fun value t₁ h₁ hdepth₁ hdistances₁ hrecords₁ => ?_
  refine (hoperands.told t₁ (hdepth₁ ▸ ht)).bind hrunning fun values t₂ h₂ hdepth₂ hdistances₂ hrecords₂ => ?_
  -- Neither the callee nor the arguments have changed the number or the table since the record was made.
  refine ih.call hrunning (hdepth₂ ▸ hdepth₁ ▸ ht) ⟨hallows, hrecords₂ (hrecords₁ hrecorded), ?_, ?_, ?_⟩
  · exact (hdistances₂.trans hdistances₁).symm
  · exact (hdepth₂.trans hdepth₁).symm
  · refine ⟨steps, t₁.machine, t₂.machine, ?_, ?_⟩
    · exact run_of_traced hcallee.mirrors ((Recorder.mirrors steps).eval env callee) h₁
    · exact run_of_traced hoperands.mirrors ((Recorder.mirrors steps).evalAll env operands) h₂

theorem tells_call (ih : TellsAt steps) {callee : Expr} {line : Nat} {operands : List Expr}
    (hallows : scene.Allows env (.expr (.call callee line operands))) :
    Tells scene (eval (steps + 1) env (.call callee line operands))
      (Recorder.eval (steps + 1) env (.call callee line operands)) where
  mirrors t := by
    have hcallee := ih.eval (hallows.inner (m := .expr callee) (by simp [Node.parts]))
    have hoperands := ih.evalAll hallows.running hallows.operands
    refine untraced_bind (x := eval steps env callee) (hcallee.mirrors _) fun value t₁ _ => ?_
    refine untraced_bind (hoperands.mirrors t₁) fun values t₂ _ => ?_
    exact ih.call_mirrors _ t₂
  told t ht := by
    have hnote : Recorder.Level (Recorder.note (.evaluates env (.call callee line operands))) := .note _
    refine (Told.lift hnote hallows.running.mayEnd t).bind hallows.running fun _ t₁ h₁ hdepth₁ _ _ => ?_
    cases h₁
    refine .behind_note (told_behind ih hallows ht List.mem_cons_self) fun _ _ _ hstory => ?_
    exact .reaches hallows hstory

theorem tells_eval (ih : TellsAt steps) {e : Expr} (hallows : scene.Allows env (.expr e)) :
    Tells scene (eval (steps + 1) env e) (Recorder.eval (steps + 1) env e) := by
  have hrunning := hallows.running
  have hend := hrunning.mayEnd
  have hpart {e' : Expr} (he' : ∀ q, (q, Node.expr e') ∈ Node.parts q (.expr e)) :
      Tells scene (eval steps env e') (Recorder.eval steps env e') := ih.eval (hallows.inner he')
  have hlook (v : Value) : (Run.look (·.truthy v)).Level := .look _
  -- A call has to know the machine on which its record was made, which the rules for sequences do not keep.
  by_cases hcall : ∃ callee line operands, e = .call callee line operands
  · obtain ⟨callee, line, operands, rfl⟩ := hcall
    exact tells_call ih hallows
  refine .afterwards (.note _) hend fun _ => .reach hallows ?_
  cases e with
  | call callee line operands => exact absurd ⟨callee, line, operands, rfl⟩ hcall
  | literal value => exact .pure _ hend
  | «variable» use => exact .lift (Recorder.level_read env use) hend
  | assign target value =>
    refine .bind hrunning (hpart (by simp [Node.parts])) fun v => .afterwards (.note _) hend fun _ => ?_
    exact .afterwards (.lift (Run.level_assign env target v)) hend fun _ => .pure v hend
  | group inner => exact hpart (by simp [Node.parts])
  | unary op operand =>
    exact .bind hrunning (hpart (by simp [Node.parts])) fun v => .run (Run.level_unary op v) hend
  | binary left op right =>
    refine .bind hrunning (hpart (by simp [Node.parts])) fun v => ?_
    exact .bind hrunning (hpart (by simp [Node.parts])) fun u => .run (Run.level_binary op v u) hend
  | logical left op right =>
    refine .bind hrunning (hpart (by simp [Node.parts])) fun v => .afterwards (.lift (hlook v)) hend fun truthy => ?_
    split
    · exact .pure v hend
    · exact hpart (by simp [Node.parts])
  | conditional condition thenBranch elseBranch =>
    refine .bind hrunning (hpart (by simp [Node.parts])) fun v => .afterwards (.lift (hlook v)) hend fun truthy => ?_
    split
    · exact hpart (by simp [Node.parts])
    · exact hpart (by simp [Node.parts])
  | get object name =>
    refine .bind hrunning (hpart (by simp [Node.parts])) fun v => ?_
    cases v with
    | object id c => exact .lift (Recorder.level_property id c name) hend
    | _ => exact .run (.fail nofun) hend
  | set object name value =>
    refine .bind hrunning (hpart (by simp [Node.parts])) fun v => ?_
    cases v with
    | object id c =>
      refine .bind hrunning (hpart (by simp [Node.parts])) fun u => ?_
      exact .afterwards (.lift (.update _)) hend fun _ => .pure u hend
    | _ => exact .run (.fail nofun) hend
  | this id line => exact .lift (Recorder.level_read env _) hend
  | parent id keyword method =>
    exact .afterwards (.note _) hend fun _ => .lift (Recorder.level_parentMethod env id keyword method) hend
  | lambda f => exact .run (Run.level_newFunction _) hend
  | list line elements =>
    have helements := ih.evalAll hrunning hallows.elements
    exact .bind hrunning helements fun values => .afterwards (.lift (.allocate _)) hend fun _ => .pure _ hend
  | index object line position =>
    refine .bind hrunning (hpart (by simp [Node.parts])) fun v => ?_
    exact .bind hrunning (hpart (by simp [Node.parts])) fun u => .run (Run.level_subscript line v u) hend

theorem tells_evalAll (ih : TellsAt steps) {es : List Expr} (hrunning : scene.Running)
    (hallows : ∀ e ∈ es, scene.Allows env (.expr e)) :
    Tells scene (evalAll (steps + 1) env es) (Recorder.evalAll (steps + 1) env es) := by
  cases es with
  | nil => exact .pure _ hrunning.mayEnd
  | cons e rest =>
    refine .bind hrunning (ih.eval (hallows e List.mem_cons_self)) fun v => ?_
    have hrest := ih.evalAll hrunning fun e' he' => hallows e' (List.mem_cons_of_mem e he')
    exact .bind hrunning hrest fun values => .pure _ hrunning.mayEnd

/-! ## Calls -/

/-- What a call runs that has not been turned down. -/
theorem tells_admitted (ih : TellsAt steps) (a : Invocation) (callable : Callable) : a.value.callable? = some callable →
    Tells (.call a)
      (match callable with
      | .native f => Tracer.run (f.run a.line a.arguments)
      | .constant result => pure result
      | .closure closure => do
        enter closure
        invoke steps closure (a.arguments.map (·.value))
      | .class c => instantiate steps c (a.arguments.map (·.value)))
      (match callable with
      | .native f => Recorder.lift (f.run a.line a.arguments)
      | .constant result => pure result
      | .closure closure => Recorder.invoke steps closure (a.arguments.map (·.value))
      | .class c => Recorder.instantiate steps c (a.arguments.map (·.value))) := by
  intro hcallable
  have hend (h : ∀ c, callable ≠ .closure c) : (Scene.call a).MayEnd :=
    fun c hc => h c (Option.some.inj (hcallable.symm.trans hc))
  cases callable with
  | native f => exact .run (Run.level_native a.line f a.arguments) (hend nofun)
  | constant result => exact .pure result (hend nofun)
  | closure c => exact .enter (.inl hcallable) (ih.invoke c _)
  | «class» c => exact ih.instantiate hcallable _

theorem call_mirrors (ih : TellsAt steps) (a : Invocation) (t : Tracing) :
    untraced (call (steps + 1) a t) = Recorder.call (steps + 1) a.line a.value a.arguments t.recording := by
  unfold call Recorder.call
  cases hcallable : a.value.callable? with
  | none => rfl
  | some callable =>
    dsimp only
    split
    · rfl
    · exact untraced_nested a (tells_admitted ih a callable hcallable).mirrors t

theorem told_call (ih : TellsAt steps) {a : Invocation} {t : Tracing} (hrunning : scene.Running)
    (ht : t.machine.depth ≤ maxDepth) (hmade : a.Made t.recording.records t.machine.distances t.machine.depth scene) :
    Told scene t (call (steps + 1) a t) := by
  unfold call
  cases hcallable : a.value.callable? with
  | none => exact .refuse hmade (.notCallable hcallable)
  | some callable =>
    dsimp only
    split
    case isTrue hlength => exact .refuse hmade (.arity hcallable (by simpa using hlength))
    case isFalse hlength =>
      exact .nested ht hmade ⟨callable, hcallable, by simpa using hlength⟩ hrunning (tells_admitted ih a callable hcallable)

theorem tells_instantiate (ih : TellsAt steps) {a : Invocation} {c : Class} (hc : a.value.callable? = some (.class c))
    (arguments : List Value) :
    Tells (.call a) (instantiate (steps + 1) c arguments) (Recorder.instantiate (steps + 1) c arguments) := by
  have hend : (Scene.call a).MayEnd := fun closure h => by
    rw [hc] at h
    cases h
  refine .afterwards (.lift (.allocate _)) hend fun id => ?_
  dsimp only
  cases hmethod : c.method? initializerName with
  | none => exact .pure _ hend
  | some initializer =>
    refine .after (Recorder.level_bindReceiver initializer _) hend fun bound r r' hbound => ?_
    cases hbound
    refine .enter (.inr ⟨c, initializer, _, hc, hmethod, rfl⟩) ?_
    exact .bind trivial (ih.invoke _ arguments) fun _ => .pure _ trivial

theorem level_result (c : Closure) (flow : Flow) :
    Run.Level
      (if c.isInitializer then
        Run.look fun h => (h.get? c.environment 0 receiverName).getD .nil
      else
        match flow with
        | .return value => pure value
        | _ => pure .nil) := by
  split
  · exact .look _
  · cases flow <;> exact .pure _

theorem tells_invoke (ih : TellsAt steps) (c : Closure) (arguments : List Value) :
    Tells (.body c) (invoke (steps + 1) c arguments) (Recorder.invoke (steps + 1) c arguments) := by
  have hend : (Scene.body c).MayEnd := trivial
  refine .entered hend fun id => .bind trivial (ih.execAll trivial (Scene.allows_body c id)) fun flow => ?_
  refine .afterwards (.note _) trivial fun _ => .afterwards (.lift (level_result c flow)) trivial fun v => ?_
  exact .afterwards (.note _) trivial fun _ => .pure v trivial

/-! ## Statements -/

theorem tells_exec (ih : TellsAt steps) {s : Stmt} (hallows : scene.Allows env (.stmt s)) :
    Tells scene (exec (steps + 1) env s) (Recorder.exec (steps + 1) env s) := by
  have hrunning := hallows.running
  have hend := hrunning.mayEnd
  have hvalue {e : Expr} (he : ∀ q, (q, Node.expr e) ∈ Node.parts q (.stmt s)) :
      Tells scene (eval steps env e) (Recorder.eval steps env e) := ih.eval (hallows.inner he)
  have hnormal : Tells scene (pure Flow.normal) (pure Flow.normal) := .pure _ hend
  refine .afterwards (.note _) hend fun _ => .reach hallows ?_
  cases s with
  | expression value =>
    refine .bind hrunning (hvalue (by simp [Node.parts])) fun v => .afterwards (.lift .get) hend fun m => ?_
    dsimp only
    split
    · exact .afterwards (.lift (Run.level_writeLine .echoed v)) hend fun _ => hnormal
    · exact hnormal
  | print line value =>
    refine .bind hrunning (hvalue (by simp [Node.parts])) fun v => ?_
    exact .afterwards (.lift (Run.level_writeLine .printed v)) hend fun _ => hnormal
  | var name initializer =>
    cases initializer with
    | none => exact .afterwards (.lift (Run.level_define env name.text .nil)) hend fun _ => hnormal
    | some initializer =>
      refine .bind hrunning (ih.eval hallows.initializer) fun v => ?_
      exact .afterwards (.lift (Run.level_define env name.text v)) hend fun _ => hnormal
  | block body => exact .entered hend fun id => ih.execAll hrunning (hallows.block id)
  | branch condition thenBranch elseBranch =>
    refine .bind hrunning (hvalue (by simp [Node.parts])) fun v => .afterwards (.lift (.look _)) hend fun truthy => ?_
    split
    · exact ih.exec (hallows.inner (by simp [Node.parts]))
    · cases elseBranch with
      | none => exact hnormal
      | some elseBranch => exact ih.exec (hallows.past thenBranch (by simp [Node.parts]))
  | loop condition body increment => exact ih.loop hallows
  | «break» line => exact .pure _ hend
  | «continue» line => exact .pure _ hend
  | «return» line value =>
    cases value with
    | none => exact .pure _ hend
    | some value => exact .bind hrunning (hvalue (by simp [Node.parts])) fun v => .pure _ hend
  | function name f =>
    refine .afterwards (.lift (Run.level_newFunction _)) hend fun v => ?_
    exact .afterwards (.lift (Run.level_define env name.text v)) hend fun _ => hnormal
  | «class» name parent methods =>
    exact .afterwards (Recorder.level_declareClass env name parent methods) hend fun _ => hnormal
  | empty => exact hnormal

theorem tells_execAll (ih : TellsAt steps) {statements : List Stmt} (hrunning : scene.Running)
    (hallows : ∀ s ∈ statements, scene.Allows env (.stmt s)) :
    Tells scene (execAll (steps + 1) env statements) (Recorder.execAll (steps + 1) env statements) := by
  cases statements with
  | nil => exact .pure _ hrunning.mayEnd
  | cons s rest =>
    refine .bind hrunning (ih.exec (hallows s List.mem_cons_self)) fun flow => ?_
    cases flow with
    | normal => exact ih.execAll hrunning fun s' hs' => hallows s' (List.mem_cons_of_mem s hs')
    | _ => exact .pure _ hrunning.mayEnd

theorem tells_loop (ih : TellsAt steps) {condition : Expr} {body : Stmt} {increment : Option Expr}
    (hallows : scene.Allows env (.stmt (.loop condition body increment))) :
    Tells scene (loop (steps + 1) env condition body increment)
      (Recorder.loop (steps + 1) env condition body increment) := by
  have hrunning := hallows.running
  have hend := hrunning.mayEnd
  refine .bind hrunning (ih.eval (hallows.inner (by simp [Node.parts]))) fun again => ?_
  refine .afterwards (.lift (.look _)) hend fun truthy => ?_
  split
  case isFalse => exact .pure _ hend
  case isTrue =>
    refine .bind hrunning (ih.exec (hallows.inner (by simp [Node.parts]))) fun flow => ?_
    cases flow with
    | «break» | «return» => exact .pure _ hend
    | normal | «continue» =>
      cases increment with
      | none => exact ih.loop hallows
      | some increment =>
        exact .bind hrunning (ih.eval (hallows.past body (by simp [Node.parts]))) fun _ => ih.loop hallows

end Steps

/-- Within however many steps, all that happens is told. -/
theorem tells (steps : Nat) : TellsAt steps := by
  induction steps with
  | zero =>
    exact
      { eval := fun h => .run .unfinished h.running.mayEnd
        evalAll := fun h _ => .run .unfinished h.mayEnd
        call_mirrors := fun _ _ => rfl
        call := fun h _ _ => .lift (.lift .unfinished) h.mayEnd _
        instantiate := fun {a c} h _ => .run .unfinished fun closure hclosure => by
          rw [h] at hclosure
          cases hclosure
        invoke := fun _ _ => .run .unfinished trivial
        exec := fun h => .run .unfinished h.running.mayEnd
        execAll := fun h _ => .run .unfinished h.mayEnd
        loop := fun h => .run .unfinished h.running.mayEnd }
  | succ steps ih =>
    exact
      { eval := tells_eval ih
        evalAll := tells_evalAll ih
        call_mirrors := call_mirrors ih
        call := told_call ih
        instantiate := tells_instantiate ih
        invoke := tells_invoke ih
        exec := tells_exec ih
        execAll := tells_execAll ih
        loop := tells_loop ih }

end TreeWalk
