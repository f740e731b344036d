import TreeWalk.Proofs.Evaluation.Relaying

/-!
# How arguments come to what is called

The number of arguments is checked once, against what the callee has evaluated to, and whatever is entered behind the
check relies on it: a constructor hands its arguments on to an initializer that it finds on the way, and parameters are
paired with arguments without a second look. `Invocation.HandsOver` says that in each call of a run the counts agree and
that every argument reaches the parameter at its position.
-/

namespace TreeWalk

/-! ## Operands -/

/-- The expression comes to the value, and the first machine to the second. -/
def Evaluates (env : Environment) (e : Expr) (m : Machine) (v : Value) (m' : Machine) : Prop :=
  ∃ steps, Evaluation.eval steps env e m = .ok v m'

/-- The expressions come to the values one after the other, the first one first. -/
inductive EvaluatesAll (env : Environment) : List Expr → Machine → List Value → Machine → Prop where
  | nil (m : Machine) : EvaluatesAll env [] m [] m
  | cons {e : Expr} {rest : List Expr} {m m₁ m' : Machine} {v : Value} {values : List Value}
    (head : Evaluates env e m v m₁) (tail : EvaluatesAll env rest m₁ values m') :
    EvaluatesAll env (e :: rest) m (v :: values) m'

theorem EvaluatesAll.length {env : Environment} {es : List Expr} {m m' : Machine} {values : List Value}
    (h : EvaluatesAll env es m values m') : values.length = es.length := by
  induction h with
  | nil => rfl
  | cons _ _ ih => rw [List.length_cons, List.length_cons, ih]

theorem evaluatesAll {steps : Nat} {env : Environment} {es : List Expr} {m m' : Machine} {values : List Value}
    (h : Evaluation.evalAll steps env es m = .ok values m') : EvaluatesAll env es m values m' := by
  induction steps generalizing es m values with
  | zero => cases h
  | succ steps ih =>
    cases es with
    | nil =>
      cases h
      exact .nil _
    | cons e rest =>
      have h : (Evaluation.eval steps env e >>= fun v => Evaluation.evalAll steps env rest >>= fun values =>
        pure (v :: values)) m = .ok values m' := h
      obtain ⟨v, m₁, hhead, h⟩ := ok_of_bind_ok h
      obtain ⟨values, m₂, htail, h⟩ := ok_of_bind_ok h
      cases h
      exact .cons ⟨steps, hhead⟩ (ih htail)

/-! ## The machine of a call -/

/-- The machine with one more call in progress. -/
def Machine.calling (m : Machine) : Machine := { m with depth := m.depth + 1 }

/-- What a call comes to when that is what it has run. -/
def leaving : EStateM.Result Stop Machine Value → EStateM.Result Stop Machine Value
  | .ok v m => .ok v { m with depth := m.depth - 1 }
  | .error stop m => .error stop { m with depth := m.depth - 1 }

/-- The machine with one more frame. -/
def Machine.opening (m : Machine) (bindings : Bindings Value) : Machine :=
  { m with heap := (m.heap.addFrame bindings).2 }

/-- The machine with a new object of the class, which is the receiver in a frame of its own. -/
def Machine.constructing (m : Machine) (c : Class) : Machine :=
  Machine.opening { m with heap := m.heap.addObject.2 } (Bindings.empty.set receiverName (.object m.heap.objects.size c))

namespace Closure

/-- The names of the parameters, in order. -/
def parameters (c : Closure) : List String := c.function.params.map (·.text)

/-- What is bound in the frame of a call. -/
def bindings (c : Closure) (arguments : List Value) : Bindings Value :=
  Bindings.empty.setAll (c.parameters.zip arguments)

/-- A call of the function begins with so many arguments as it has parameters. Each is paired with one parameter, the
frame is a new one, and the body is run in it. -/
structure Begins (c : Closure) (arguments : List Value) (m : Machine) (inside : List Happening) : Prop where
  arity : arguments.length = c.arity
  parameters_paired : (c.parameters.zip arguments).map (·.1) = c.parameters
  arguments_paired : (c.parameters.zip arguments).map (·.2) = arguments
  body : ∃ steps records, inside =
    (stateBehind (Tracer.execAll steps (m.heap.frames.size :: c.environment) c.function.body
      ⟨⟨m.opening (c.bindings arguments), records⟩, [.enters c m.depth]⟩)).happenings

/-- In the new frame each parameter has the argument at its position, and nothing else is bound there. All other
frames are as before. -/
structure BindsByPosition (c : Closure) (arguments : List Value) (m : Machine) : Prop where
  bound : ∀ (position : Nat) (name : String), c.parameters[position]? = some name →
    (m.opening (c.bindings arguments)).heap.get? (m.heap.frames.size :: c.environment) 0 name = arguments[position]?
  only : ∀ name, name ∉ c.parameters →
    (m.opening (c.bindings arguments)).heap.get? (m.heap.frames.size :: c.environment) 0 name = none
  others : ∀ id, id ≠ m.heap.frames.size →
    (m.opening (c.bindings arguments)).heap.frame id = m.heap.frame id

variable {c : Closure} {arguments : List Value} {m : Machine}

theorem length_parameters (c : Closure) : c.parameters.length = c.arity := List.length_map _

theorem begins (harity : arguments.length = c.arity) {inside : List Happening} {steps : Nat} {records : List Record}
    (h : inside = (stateBehind (Tracer.execAll steps (m.heap.frames.size :: c.environment) c.function.body
      ⟨⟨m.opening (c.bindings arguments), records⟩, [.enters c m.depth]⟩)).happenings) :
    c.Begins arguments m inside where
  arity := harity
  parameters_paired := List.map_fst_zip (by rw [length_parameters, harity])
  arguments_paired := List.map_snd_zip (by rw [length_parameters, harity])
  body := ⟨steps, records, h⟩

/-- Where no two parameters have the same name, none takes the argument of another one. -/
theorem get?_bindings (hnames : c.parameters.Nodup) (harity : arguments.length = c.arity) {position : Nat}
    {name : String} (hname : c.parameters[position]? = some name) :
    (c.bindings arguments).get? name = arguments[position]? := by
  obtain ⟨hposition, rfl⟩ := List.getElem?_eq_some_iff.1 hname
  have hargument : position < arguments.length := by rw [harity, ← length_parameters]; exact hposition
  have hpair : position < (c.parameters.zip arguments).length := by rw [List.length_zip]; omega
  rw [List.getElem?_eq_getElem hargument, bindings, Bindings.get?_setAll_iff]
  refine .inl ⟨(c.parameters.zip arguments).take position, (c.parameters.zip arguments).drop (position + 1), ?_, ?_⟩
  · rw [← List.getElem_zip (h := hpair), ← List.drop_eq_getElem_cons, List.take_append_drop]
  · -- A later pair is that of a parameter farther on.
    intro other hother heq
    obtain ⟨distance, hdistance, rfl⟩ := List.mem_iff_getElem.1 hother
    rw [List.getElem_drop, List.getElem_zip] at heq
    have := (List.Nodup.getElem_inj_iff hnames).1 heq
    omega

theorem get?_bindings_of_not_mem {name : String} (hname : name ∉ c.parameters) :
    (c.bindings arguments).get? name = none := by
  refine Option.eq_none_iff_forall_ne_some.2 fun v hv => ?_
  rcases Bindings.get?_setAll_iff.1 hv with ⟨earlier, later, hsplit, -⟩ | ⟨hnone, -⟩
  · have hmem : (name, v) ∈ c.parameters.zip arguments := by rw [hsplit]; simp
    exact hname (List.of_mem_zip hmem).1
  · cases hnone

theorem bindsByPosition (hnames : c.parameters.Nodup) (harity : arguments.length = c.arity) (m : Machine) :
    c.BindsByPosition arguments m := by
  have hframe (id : FrameId) : (m.opening (c.bindings arguments)).heap.frame id =
      if id = m.heap.frames.size then c.bindings arguments else m.heap.frame id := m.heap.frame_addFrame _ id
  have hget (name : String) : (m.opening (c.bindings arguments)).heap.get? (m.heap.frames.size :: c.environment) 0 name =
      (c.bindings arguments).get? name := by
    rw [Heap.get?, Heap.outward?, Option.bind_some, hframe, if_pos rfl]
  exact
    { bound := fun position name hname => by rw [hget, get?_bindings hnames harity hname]
      only := fun name hname => by rw [hget, get?_bindings_of_not_mem hname]
      others := fun id hid => by rw [hframe, if_neg hid] }

end Closure

/-! ## Calls -/

namespace Invocation

/-- What is entered by a call that is made on the machine, and what happens inside. -/
inductive Enters (a : Invocation) (m : Machine) : List Happening → Prop where
  /-- The function is run with all arguments, and nothing else. -/
  | native {f : Native} (hcallable : a.value.callable? = some (.native f)) (harity : a.arguments.length = f.parameters)
    (hruns : ∀ steps, Evaluation.call (steps + 1) a.line a.value a.arguments m =
      leaving (f.run a.line a.arguments m.calling)) : Enters a m []
  | constant {result : Value} (hcallable : a.value.callable? = some (.constant result)) (harity : a.arguments = []) :
    Enters a m []
  | function {c : Closure} {inside : List Happening} (hcallable : a.value.callable? = some (.closure c))
    (hbegins : c.Begins a.operandValues m.calling inside) : Enters a m inside
  /-- The initializer is found on the way up from the class, after the arguments have been counted. -/
  | initializer {ofClass : Class} {method : Closure} {inside : List Happening}
    (hcallable : a.value.callable? = some (.class ofClass)) (hmethod : ofClass.method? initializerName = some method)
    (hbegins : (method.inFrame m.heap.frames.size).Begins a.operandValues (m.calling.constructing ofClass) inside) :
    Enters a m inside
  | plain {ofClass : Class} (hcallable : a.value.callable? = some (.class ofClass))
    (hmethod : ofClass.method? initializerName = none) (harity : a.arguments = []) : Enters a m []
  /-- The steps have come to an end before there is an object. -/
  | unfinished {ofClass : Class} (hcallable : a.value.callable? = some (.class ofClass))
    (harity : a.arguments.length = ofClass.arity) : Enters a m []

/-- Callee and operands have been evaluated, one after the other, up to the machine. -/
def Ready (a : Invocation) (m : Machine) : Prop :=
  ∃ m₁, Evaluates a.environment a.callee a.start a.value m₁ ∧ EvaluatesAll a.environment a.operands m₁ a.operandValues m

/-- The call gets the values of all operands, in their order, and enters what takes so many. -/
structure HandsOver (a : Invocation) (depth : Nat) (inside : List Happening) : Prop where
  evaluated : ∃ m, m.depth = depth ∧ a.Ready m ∧ a.Enters m inside
  values : a.arguments.map (·.value) = a.operandValues
  expressions : a.arguments.map (·.expr) = a.operands
  /-- One body is entered at most, before anything else happens. -/
  body : ∀ c d, .enters c d ∈ inside → a.Runs c ∧ ∃ later, inside = .enters c d :: later ∧ ∀ c' d', .enters c' d' ∉ later

variable {a : Invocation} {m : Machine} {inside : List Happening}

theorem Ready.length (h : a.Ready m) : a.operandValues.length = a.operands.length := by
  obtain ⟨m₁, -, hoperands⟩ := h
  exact hoperands.length

theorem Ready.values (h : a.Ready m) : a.arguments.map (·.value) = a.operandValues := by
  rw [arguments, ← List.map_uncurry_zip_eq_zipWith, List.map_map]
  exact List.map_fst_zip (Nat.le_of_eq h.length)

theorem Ready.expressions (h : a.Ready m) : a.arguments.map (·.expr) = a.operands := by
  rw [arguments, ← List.map_uncurry_zip_eq_zipWith, List.map_map]
  exact List.map_snd_zip (Nat.le_of_eq h.length.symm)

end Invocation

namespace Tracer

variable {α β : Type} {steps : Nat} {a : Invocation} {callable : Callable}

theorem happenings_lift (x : Recorder α) (t : Tracing) : (stateBehind (lift x t)).happenings = t.happenings := by
  unfold lift
  cases x t.recording <;> rfl

/-- Nothing happens behind the first part. -/
theorem happenings_bind {x : Tracer α} {f : α → Tracer β}
    (hf : ∀ v t, (stateBehind (f v t)).happenings = t.happenings) (t : Tracing) :
    (stateBehind ((x >>= f) t)).happenings = (stateBehind (x t)).happenings := by
  cases h : x t with
  | ok v t' => rw [bind_ok h, hf, stateBehind]
  | error stop t' => rw [bind_error h, stateBehind]; rfl

theorem happenings_lift_bind (x : Recorder α) {f : α → Tracer β}
    (hf : ∀ v t, (stateBehind (f v t)).happenings = t.happenings) (t : Tracing) :
    (stateBehind ((lift x >>= f) t)).happenings = t.happenings := (happenings_bind hf t).trans (happenings_lift x t)

/-- What happens in the call of a function happens in its body, which is run in a new frame. -/
theorem happenings_invoke (steps : Nat) (c : Closure) (arguments : List Value) (t : Tracing) : ∃ steps',
    (stateBehind (invoke steps c arguments t)).happenings =
      (stateBehind (execAll steps' (t.machine.heap.frames.size :: c.environment) c.function.body
        ⟨⟨t.machine.opening (c.bindings arguments), t.recording.records⟩, t.happenings⟩)).happenings := by
  cases steps with
  | zero => exact ⟨0, rfl⟩
  | succ steps =>
    have henter : run (Run.enter c.environment (c.bindings arguments)) t = .ok (t.machine.heap.frames.size :: c.environment)
        ⟨⟨t.machine.opening (c.bindings arguments), t.recording.records⟩, t.happenings⟩ := rfl
    refine ⟨steps, ?_⟩
    show (stateBehind ((run (Run.enter c.environment (c.bindings arguments)) >>= _) t)).happenings = _
    rw [bind_ok henter]
    exact happenings_bind (fun _ => happenings_lift_bind _ fun _ => happenings_lift_bind _ fun _ =>
      happenings_lift_bind _ fun _ _ => rfl) _

/-- What a call runs that has not been turned down. -/
def admitted (steps : Nat) (a : Invocation) : Callable → Tracer Value
  | .native f => run (f.run a.line a.arguments)
  | .constant result => pure result
  | .closure c => do
    enter c
    invoke steps c (a.arguments.map (·.value))
  | .class c => instantiate steps c (a.arguments.map (·.value))

theorem call_admitted (hcallable : a.value.callable? = some callable) (harity : a.arguments.length = callable.arity)
    (steps : Nat) : call (steps + 1) a = nested a (admitted steps a callable) := by
  have hlength : ¬ (a.arguments.length != callable.arity) = true := by simp [harity]
  rw [call, hcallable]
  dsimp only
  rw [if_neg hlength]
  cases callable <;> rfl

/-- The initializer of a new object gets the arguments of its class. -/
theorem happenings_instantiate {c : Class} {method : Closure} (hmethod : c.method? initializerName = some method)
    (steps : Nat) (arguments : List Value) (m : Machine) (records : List Record) : ∃ records',
    (stateBehind (instantiate (steps + 1) c arguments ⟨⟨m, records⟩, []⟩)).happenings =
      (stateBehind (invoke steps (method.inFrame m.heap.frames.size) arguments
        ⟨⟨m.constructing c, records'⟩, [.enters (method.inFrame m.heap.frames.size) m.depth]⟩)).happenings := by
  let object := Value.object m.heap.objects.size c
  let bound := method.inFrame m.heap.frames.size
  have hnew : run (Run.allocate (·.addObject)) ⟨⟨m, records⟩, []⟩ =
    .ok m.heap.objects.size ⟨⟨{ m with heap := m.heap.addObject.2 }, records⟩, []⟩ := rfl
  have hbound : lift (Recorder.bindReceiver method object) ⟨⟨{ m with heap := m.heap.addObject.2 }, records⟩, []⟩ =
    .ok bound ⟨⟨m.constructing c, .binds bound object :: records⟩, []⟩ := rfl
  refine ⟨.binds bound object :: records, ?_⟩
  rw [instantiate, bind_ok hnew, hmethod]
  dsimp only
  rw [bind_ok hbound]
  show (stateBehind ((invoke steps bound arguments >>= fun _ => pure object)
    ⟨⟨m.constructing c, .binds bound object :: records⟩, [.enters bound m.depth]⟩)).happenings = _
  exact happenings_bind (fun _ _ => rfl) _

/-- Without an initializer nothing is entered. -/
theorem happenings_instantiate_plain {c : Class} (hmethod : c.method? initializerName = none) (steps : Nat)
    (arguments : List Value) (recording : Recording) :
    (stateBehind (instantiate (steps + 1) c arguments ⟨recording, []⟩)).happenings = [] := by
  rw [instantiate, hmethod]
  rfl

theorem call_native {f : Native} (hcallable : a.value.callable? = some (.native f))
    (harity : a.arguments.length = f.parameters) {m : Machine} (hroom : m.depth ≠ maxDepth) (steps : Nat) :
    Evaluation.call (steps + 1) a.line a.value a.arguments m = leaving (f.run a.line a.arguments m.calling) := by
  have hlength : ¬ (a.arguments.length != (Callable.native f).arity) = true := by simp [Callable.arity, harity]
  rw [Evaluation.call, hcallable]
  dsimp only
  rw [if_neg hlength, Run.nested, if_neg (by simpa using hroom)]
  show _ = leaving (f.run a.line a.arguments { m with depth := m.depth + 1 })
  cases f.run a.line a.arguments { m with depth := m.depth + 1 } <;> rfl

/-- Whatever is entered gets its arity. -/
theorem enters_admitted (hvalues : a.arguments.map (·.value) = a.operandValues)
    (hcallable : a.value.callable? = some callable) (harity : a.arguments.length = callable.arity) {m : Machine}
    (hroom : m.depth ≠ maxDepth) (steps : Nat) (records : List Record) :
    a.Enters m (stateBehind (admitted steps a callable ⟨⟨m.calling, records⟩, []⟩)).happenings := by
  have hlength : a.operandValues.length = callable.arity := by rw [← hvalues, List.length_map, harity]
  unfold admitted
  rw [hvalues]
  cases callable with
  | native f =>
    rw [show (stateBehind (run (f.run a.line a.arguments) _)).happenings = _ from happenings_lift _ _]
    exact .native hcallable harity (call_native hcallable harity hroom)
  | constant result => exact .constant hcallable (List.eq_nil_of_length_eq_zero harity)
  | closure c =>
    obtain ⟨steps', hinside⟩ := happenings_invoke steps c a.operandValues
      ⟨⟨m.calling, records⟩, [.enters c m.calling.depth]⟩
    exact .function hcallable (Closure.begins hlength hinside)
  | «class» c =>
    have harity : a.arguments.length = c.arity := harity
    have hlength : a.operandValues.length = c.arity := hlength
    cases steps with
    | zero => exact .unfinished hcallable harity
    | succ steps =>
      -- The class has the arity of the initializer that it finds.
      cases hmethod : c.method? initializerName with
      | none =>
        rw [Class.arity, hmethod] at harity
        dsimp only
        rw [happenings_instantiate_plain hmethod]
        exact .plain hcallable hmethod (List.eq_nil_of_length_eq_zero harity)
      | some method =>
        rw [Class.arity, hmethod] at hlength
        have hlength : a.operandValues.length = (method.inFrame m.heap.frames.size).arity := hlength
        obtain ⟨records', hinside⟩ := happenings_instantiate hmethod steps a.operandValues m.calling records
        obtain ⟨steps', hbody⟩ := happenings_invoke steps (method.inFrame m.heap.frames.size) a.operandValues
          ⟨⟨m.calling.constructing c, records'⟩, [.enters (method.inFrame m.heap.frames.size) m.calling.depth]⟩
        exact .initializer hcallable hmethod (Closure.begins hlength (hinside.trans hbody))

end Tracer

end TreeWalk
