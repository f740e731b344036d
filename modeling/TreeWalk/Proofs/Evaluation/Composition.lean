import TreeWalk.Proofs.Evaluation.Quiet
import TreeWalk.Proofs.Evaluation.Recording

/-!
# How runs are put together

A run is put together from notes on record, from quiet steps, and from a few kinds of writes. What holds of these
parts and of what is composed of such, holds of every program (`program_composed`).
-/

namespace TreeWalk

/-- What the sink has got stays the same in a quiet step. -/
theorem Quiet.sink {α : Type} {careful : Prop} {lists : Nat} {post : Nat → α → Prop} {x : Run α}
    (h : Quiet careful lists post x) {m : Machine} (hm : Given careful lists m.heap) :
    (stateBehind (x m)).output = m.output ∧ (stateBehind (x m)).echo = m.echo := by
  have hsame : x m = talking m.echo m.output (x m) := (h m hm).1 m.echo m.output
  rw [hsame]
  cases x m <;> exact ⟨rfl, rfl⟩

/-- With one more call in progress. -/
def Recording.deeper (r : Recording) : Recording :=
  { r with machine := { r.machine with depth := r.machine.depth + 1 } }

/-- One call fewer is in progress. -/
def shallower {α : Type} : EStateM.Result Stop Recording α → EStateM.Result Stop Recording α
  | .ok a r => .ok a { r with machine := { r.machine with depth := r.machine.depth - 1 } }
  | .error stop r => .error stop { r with machine := { r.machine with depth := r.machine.depth - 1 } }

theorem Recorder.nested_eq {α : Type} (line : Nat) (x : Recorder α) (r : Recording) : Recorder.nested line x r =
    if r.machine.depth == maxDepth then .error (.fault (.evaluation line .stackOverflow)) r else shallower (x r.deeper) := by
  unfold Recorder.nested
  split
  · rfl
  · show _ = shallower (x r.deeper)
    unfold Recording.deeper
    cases x { r with machine := { r.machine with depth := r.machine.depth + 1 } } <;> rfl

/-- A record in which the machine is replaced. -/
def Record.onMachine (f : Machine → Machine) : Record → Record
  | .evaluates env e m => .evaluates env e (f m)
  | .executes env s m => .executes env s (f m)
  | .looks env use m => .looks env use (f m)
  | other => other

/-- A computation that is put together from notes, quiet steps and writes. -/
inductive Composed (careful : Prop) : {α : Type} → (lists : Nat) → (post : Nat → α → Prop) → Recorder α → Prop where
  | quiet {α : Type} {lists : Nat} {post : Nat → α → Prop} {x : Run α} (h : Quiet careful lists post x) :
    Composed careful lists post (Recorder.lift x)
  | note {lists : Nat} {post : Nat → Unit → Prop} (record : Machine → Record)
    (h : ∀ f m, record (f m) = (record m).onMachine f) (hpost : careful → post lists ()) :
    Composed careful lists post (Recorder.note record)
  | bind {α β : Type} {lists : Nat} {mid : Nat → α → Prop} {post : Nat → β → Prop} {x : Recorder α}
    {f : α → Recorder β} (hx : Composed careful lists mid x)
    (hf : ∀ lists' a, (careful → lists ≤ lists' ∧ mid lists' a) → Composed careful lists' post (f a)) :
    Composed careful lists post (x >>= f)
  | nested {α : Type} {lists : Nat} {post : Nat → α → Prop} {x : Recorder α} (line : Nat)
    (h : Composed careful lists post x) : Composed careful lists post (Recorder.nested line x)
  /-- The machine is looked at, but not its sink. -/
  | get {α : Type} {lists : Nat} {post : Nat → α → Prop} {k : Machine → Recorder α}
    (hsame : ∀ m echo output, k (m.talking echo output) = k m)
    (h : ∀ m, Given careful lists m.heap → Composed careful lists post (k m)) :
    Composed careful lists post (Recorder.lift get >>= k)
  | print {lists : Nat} {post : Nat → Unit → Prop} {v : Value} (hv : careful → v.Ordered lists)
    (hpost : careful → post lists ()) : Composed careful lists post (Recorder.lift (Run.writeLine .printed v))
  | echo {α : Type} {lists : Nat} {post : Nat → α → Prop} {v : Value} {a : α} (hv : careful → v.Ordered lists)
    (hpost : careful → post lists a) :
    Composed careful lists post (Recorder.lift get >>= fun m =>
      if m.echo then Recorder.lift (Run.writeLine .echoed v) >>= fun _ => pure a else pure a)
  | prompt {α : Type} {lists : Nat} {post : Nat → α → Prop} {y : Run α} (text : String) (line : Nat)
    (h : Quiet careful lists post y) :
    Composed careful lists post (Recorder.lift (Run.write .prompt text >>= fun accepted =>
      if accepted then y else Run.fail line (.native "input failed: sink full")))

namespace Composed

variable {α : Type} {careful : Prop} {lists : Nat} {post : Nat → α → Prop}

theorem pure {a : α} (h : careful → post lists a) : Composed careful lists post (Pure.pure a) :=
  quiet (x := Pure.pure a) (.pure h)

theorem fail (line : Nat) (cause : FaultCause) : Composed careful lists post (Recorder.lift (Run.fail line cause)) :=
  quiet (.fail line cause)

/-- The result is changed afterwards. -/
theorem map {β : Type} {mid : Nat → β → Prop} {x : Recorder β} {f : β → α} (hx : Composed careful lists mid x)
    (hf : ∀ lists' b, careful → lists ≤ lists' → mid lists' b → post lists' (f b)) :
    Composed careful lists post (x >>= fun b => Pure.pure (f b)) :=
  hx.bind fun lists' b hb => pure fun hc => hf lists' b hc (hb hc).1 (hb hc).2

end Composed

section Steps

open Recorder

variable {careful : Prop} {steps lists : Nat}

/-- Only prompts are written by a native function. -/
theorem composed_native (line : Nat) {f : Native} (hf : careful → f ≠ .push ∧ f ≠ .define) (arguments : List Argument) :
    Composed careful lists Value.Ordered (Recorder.lift (f.run line arguments)) := by
  have hargument (position : Nat) : Quiet careful lists (fun _ _ => True) (Native.argument arguments position) :=
    quiet_argument arguments position
  cases f with
  | input =>
    cases hfirst : arguments[0]? with
    | none =>
      have hcrash : Native.input.run line arguments = Run.crash (.missingArgument 0) := by
        rw [Native.run, Native.argument, hfirst]
        rfl
      rw [hcrash]
      exact .quiet (.crash _)
    | some a =>
      have hread : Native.input.run line arguments = Native.readInput line a := by
        rw [Native.run, Native.argument, hfirst]
        rfl
      obtain ⟨value, e⟩ := a
      rw [hread]
      cases value with
      | text prompt => exact .prompt _ line (quiet_nextLine line)
      | _ => exact .fail _ _
  | clock => exact .quiet (quiet_readClock line)
  | sleep => exact .quiet ((hargument 0).bind fun _ a _ => quiet_pause line a)
  | describe => exact .quiet ((hargument 0).bind fun _ a _ => quiet_description line a)
  | length => exact .quiet ((hargument 0).bind fun _ a _ => quiet_count line a)
  | typeName => exact .quiet ((hargument 0).bind fun _ _ _ => .pure fun _ => trivial)
  | truthy => exact .quiet ((hargument 0).bind fun _ _ _ => .look fun _ _ _ _ => trivial)
  | number =>
    refine .quiet ((hargument 0).bind fun lists' a _ => ?_)
    have hnumeral : Quiet careful lists' (fun _ _ => True) (Run.ofExcept line a.value.numeral) :=
      .ofExcept fun _ _ _ => trivial
    exact hnumeral.bind fun _ _ _ => .pure fun _ => trivial
  | arity => exact .quiet ((hargument 0).bind fun _ a _ => quiet_argumentCount line a)
  | source => exact .quiet ((hargument 0).bind fun _ _ _ => .pure fun _ => trivial)
  | push =>
    have hc : ¬careful := fun hc => (hf hc).1 rfl
    exact .quiet ((hargument 0).bind fun _ a _ => (quiet_argument arguments 1).bind fun _ b _ => quiet_extend line a b hc)
  | define =>
    have hc : ¬careful := fun hc => (hf hc).2 rfl
    exact .quiet ((hargument 0).bind fun _ a _ =>
      (quiet_argument arguments 1).bind fun _ b _ => quiet_registerConstant line a b hc)

/-! ## References and classes -/

/-- A note changes nothing in the heap. -/
theorem Composed.noted {α : Type} {post : Nat → α → Prop} {x : Recorder α} {record : Machine → Record}
    (h : ∀ f m, record (f m) = (record m).onMachine f)
    (hx : ∀ lists', (careful → lists' = lists) → Composed careful lists' post x) :
    Composed careful lists post (Recorder.note record >>= fun _ => x) := by
  have hnote : Composed careful lists (fun lists' _ => lists' = lists) (Recorder.note record) := .note record h fun _ => rfl
  exact hnote.bind fun lists' _ hlists => hx lists' fun hc => (hlists hc).2

theorem composed_read (env : Environment) (use : Reference) : Composed careful lists Value.Ordered (read env use) :=
  .noted (fun _ _ => rfl) fun _ _ => .quiet (quiet_read env use)

theorem composed_bindReceiver (method : Closure) {v : Value} (hv : careful → v.Ordered lists) :
    Composed careful lists (fun _ _ => True) (bindReceiver method v) :=
  (Composed.quiet (quiet_bindReceiver method hv)).bind fun _ _ _ =>
    .noted (fun _ _ => rfl) fun _ _ => .pure fun _ => trivial

/-- A method is bound and made into a function. -/
theorem composed_boundMethod (method : Closure) {v : Value} (hv : careful → v.Ordered lists) :
    Composed careful lists Value.Ordered (do
      let closure ← bindReceiver method v
      lift (Run.newFunction closure)) :=
  (composed_bindReceiver method hv).bind fun _ closure _ => .quiet (quiet_newFunction closure)

theorem composed_property (id : ObjectId) (c : Class) (name : Name) :
    Composed careful lists Value.Ordered (property id c name) := by
  have hfield : Quiet careful lists (fun lists' o => ∀ v ∈ o, Value.Ordered lists' v)
      (Run.look fun h => (h.fields id).get? name.text) :=
    .look fun _ _ hh hsize v hv => hsize ▸ hh.fields id name.text v hv
  refine (Composed.quiet hfield).bind fun lists' o ho => ?_
  cases o with
  | some v => exact .pure fun hc => (ho hc).2 v rfl
  | none =>
    dsimp only
    cases c.method? name.text with
    | some method => exact composed_boundMethod method fun _ => trivial
    | none => exact .fail _ _

theorem composed_parentMethod (env : Environment) (id : NodeId) (keyword method : Name) :
    Composed careful lists Value.Ordered (parentMethod env id keyword method) := by
  refine .get (fun _ _ _ => rfl) fun m hm => ?_
  split
  · exact .fail _ _
  · exact .fail _ _
  case h_3 parent receiver hfound =>
    obtain ⟨d, -, -, hreceiver⟩ := Run.of_parentOf? hfound
    obtain ⟨inner, -, hreceiver⟩ := hreceiver receiver rfl
    cases parent.method? method.text with
    | some closure => exact composed_boundMethod closure fun hc => (hm hc).2 ▸ (hm hc).1.get? hreceiver
    | none => exact .fail _ _

theorem composed_declareClass (env : Environment) (name : Name) (parent : Option Reference) (methods : List Method) :
    Composed careful lists (fun _ _ => True) (declareClass env name parent methods) := by
  refine (Composed.quiet (quiet_define (v := .nil) env name.text fun _ => trivial)).bind fun lists' _ _ => ?_
  cases parent with
  | none => exact .quiet (quiet_defineClass env name.text none _)
  | some use =>
    refine .noted (fun _ _ => rfl) fun _ _ => ?_
    refine (composed_read env use).bind fun _ found _ => ?_
    cases found with
    | «class» c =>
      refine .quiet ((quiet_enter env fun _ => ordered_single (v := .class c) trivial).bind fun _ inner _ => ?_)
      exact quiet_defineClass env name.text (some c) _
    | _ => exact .fail _ _

/-! ## Evaluation -/

/-- A returned value is ordered. -/
def Flow.Ordered (lists : Nat) (flow : Flow) : Prop := ∀ v, flow = .return v → v.Ordered lists

/-- All that is evaluated, called and executed within so many steps is composed. -/
structure ComposedAt (careful : Prop) (steps : Nat) : Prop where
  eval : ∀ lists env e, Composed careful lists Value.Ordered (eval steps env e)
  evalAll : ∀ lists env es, Composed careful lists (fun lists' values => ∀ v ∈ values, Value.Ordered lists' v)
    (evalAll steps env es)
  call : ∀ lists line callee (arguments : List Argument), (careful → callee.Ordered lists) →
    (careful → ∀ a ∈ arguments, a.value.Ordered lists) →
    Composed careful lists Value.Ordered (call steps line callee arguments)
  instantiate : ∀ lists c arguments, (careful → ∀ v ∈ arguments, Value.Ordered lists v) →
    Composed careful lists Value.Ordered (instantiate steps c arguments)
  invoke : ∀ lists closure arguments, (careful → ∀ v ∈ arguments, Value.Ordered lists v) →
    Composed careful lists Value.Ordered (invoke steps closure arguments)
  exec : ∀ lists env s, Composed careful lists Flow.Ordered (exec steps env s)
  execAll : ∀ lists env statements, Composed careful lists Flow.Ordered (execAll steps env statements)
  loop : ∀ lists env condition body increment,
    Composed careful lists Flow.Ordered (loop steps env condition body increment)


theorem composed_truthy (v : Value) :
    Composed careful lists (fun _ _ => True) (lift (Run.look (·.truthy v))) := .quiet (quiet_truthy v)

theorem composed_eval (ih : ComposedAt careful steps) (lists : Nat) (env : Environment) (e : Expr) :
    Composed careful lists Value.Ordered (eval (steps + 1) env e) := by
  refine .noted (fun _ _ => rfl) fun lists _ => ?_
  cases e with
  | literal value => exact .pure fun _ => (plain_ofLiteral value).ordered lists
  | «variable» use => exact composed_read env use
  | assign target value =>
    refine (ih.eval lists env value).bind fun _ v hv => .noted (fun _ _ => rfl) fun lists' hlists => ?_
    have hv (hc : careful) : v.Ordered lists' := hlists hc ▸ (hv hc).2
    exact (Composed.quiet (quiet_assign env target hv)).map fun _ _ hc hle _ => (hv hc).mono hle
  | group inner => exact ih.eval lists env inner
  | unary op operand => exact (ih.eval lists env operand).bind fun _ v _ => .quiet (quiet_unary op v)
  | binary left op right =>
    exact (ih.eval lists env left).bind fun _ v _ => (ih.eval _ env right).bind fun _ u _ => .quiet (quiet_binary op v u)
  | logical left op right =>
    refine (ih.eval lists env left).bind fun lists' v hv => (composed_truthy v).bind fun _ truthy hle => ?_
    split
    · exact .pure fun hc => (hv hc).2.mono (hle hc).1
    · exact ih.eval _ env right
  | conditional condition thenBranch elseBranch =>
    refine (ih.eval lists env condition).bind fun _ v _ => (composed_truthy v).bind fun _ truthy _ => ?_
    split
    · exact ih.eval _ env thenBranch
    · exact ih.eval _ env elseBranch
  | call callee line arguments =>
    refine (ih.eval lists env callee).bind fun _ v hv => (ih.evalAll _ env arguments).bind fun _ values hvalues => ?_
    -- The callee is older than the lists that its arguments may have added.
    refine ih.call _ line v _ (fun hc => (hv hc).2.mono (hvalues hc).1) fun hc a ha => ?_
    obtain ⟨i, hi, rfl⟩ := List.mem_iff_getElem.1 ha
    rw [List.getElem_zipWith]
    exact (hvalues hc).2 _ (List.getElem_mem _)
  | get object name =>
    refine (ih.eval lists env object).bind fun _ v _ => ?_
    cases v with
    | object id c => exact composed_property id c name
    | _ => exact .fail _ _
  | set object name value =>
    refine (ih.eval lists env object).bind fun _ v _ => ?_
    cases v with
    | object id c =>
      refine (ih.eval _ env value).bind fun lists' u hu => ?_
      have hfield : Quiet careful lists' (fun _ _ => True) (Run.update (·.setField id name.text u)) :=
        .update fun hc _ hh hsize => ⟨hh.setField id name.text (hsize ▸ (hu hc).2), hsize, trivial⟩
      exact (Composed.quiet hfield).map fun _ _ hc hle _ => (hu hc).2.mono hle
    | _ => exact .fail _ _
  | this id line => exact composed_read env _
  | parent id keyword method => exact .noted (fun _ _ => rfl) fun _ _ => composed_parentMethod env id keyword method
  | lambda f => exact .quiet (quiet_newFunction _)
  | list line elements =>
    refine (ih.evalAll lists env elements).bind fun lists' values hvalues => ?_
    have hlist : Quiet careful lists' (fun lists'' id => id < lists'') (Run.allocate (·.addList values.toArray)) := by
      refine .allocate fun hc heap hh hsize => ?_
      have helements : ∀ v ∈ values.toArray, v.Ordered heap.lists.size := fun v hv =>
        hsize ▸ (hvalues hc).2 v (by simpa using hv)
      have hgrown : (heap.addList values.toArray).2.lists.size = heap.lists.size + 1 := by simp [Heap.addList]
      refine ⟨hh.addList helements, ?_, ?_⟩
      · rw [hgrown, hsize]
        exact Nat.le_succ lists'
      · rw [hgrown]
        exact Nat.lt_succ_self heap.lists.size
    exact (Composed.quiet hlist).map fun _ _ _ _ hid => hid
  | index object line position =>
    exact (ih.eval lists env object).bind fun _ v _ =>
      (ih.eval _ env position).bind fun _ u _ => .quiet (quiet_subscript line v u)

theorem composed_evalAll (ih : ComposedAt careful steps) (lists : Nat) (env : Environment) (es : List Expr) :
    Composed careful lists (fun lists' values => ∀ v ∈ values, Value.Ordered lists' v) (evalAll (steps + 1) env es) := by
  cases es with
  | nil => exact .pure fun _ _ hv => absurd hv List.not_mem_nil
  | cons e rest =>
    refine (ih.eval lists env e).bind fun _ v hv => (ih.evalAll _ env rest).map fun _ values hc hle hvalues => ?_
    exact List.forall_mem_cons.2 ⟨(hv hc).2.mono hle, hvalues⟩

/-! ### Calls -/

theorem composed_call (ih : ComposedAt careful steps) (lists line : Nat) (callee : Value) (arguments : List Argument)
    (hcallee : careful → callee.Ordered lists) (harguments : careful → ∀ a ∈ arguments, a.value.Ordered lists) :
    Composed careful lists Value.Ordered (call (steps + 1) line callee arguments) := by
  have hvalues (hc : careful) : ∀ v ∈ arguments.map (·.value), v.Ordered lists := fun v hv => by
    obtain ⟨a, ha, rfl⟩ := List.mem_map.1 hv
    exact harguments hc a ha
  unfold call
  cases hcallable : callee.callable? with
  | none => exact .fail _ _
  | some callable =>
    dsimp only
    split
    · exact .fail _ _
    · refine .nested line ?_
      cases callee with
      | native identity f =>
        cases hcallable
        exact composed_native line hcallee arguments
      | constant identity result =>
        cases hcallable
        exact .pure fun hc => (hcallee hc).elim
      | function identity closure =>
        cases hcallable
        exact ih.invoke lists closure _ hvalues
      | «class» c =>
        cases hcallable
        exact ih.instantiate lists c _ hvalues
      | _ => cases hcallable

theorem composed_instantiate (ih : ComposedAt careful steps) (lists : Nat) (c : Class) (arguments : List Value)
    (harguments : careful → ∀ v ∈ arguments, v.Ordered lists) :
    Composed careful lists Value.Ordered (instantiate (steps + 1) c arguments) := by
  have hobject : Quiet careful lists (fun _ _ => True) (Run.allocate (·.addObject)) :=
    .allocate fun _ _ hh hsize => ⟨hh.addObject, Nat.le_of_eq hsize.symm, trivial⟩
  refine (Composed.quiet hobject).bind fun lists' id hlists => ?_
  cases c.method? initializerName with
  | none => exact .pure fun _ => trivial
  | some initializer =>
    refine (composed_bindReceiver initializer (v := .object id c) fun _ => trivial).bind fun lists'' bound hlists' => ?_
    refine (ih.invoke lists'' bound arguments fun hc v hv => ?_).map fun _ _ _ _ _ => trivial
    exact (harguments hc v hv).mono (Nat.le_trans (hlists hc).1 (hlists' hc).1)

/-- The result of a call whose body has come to its end. -/
theorem quiet_result (closure : Closure) (flow : Flow) : (careful → flow.Ordered lists) →
    Quiet careful lists Value.Ordered
      (if closure.isInitializer then
        Run.look fun h => (h.get? closure.environment 0 receiverName).getD .nil
      else
        match flow with
        | .return value => pure value
        | _ => pure .nil) := by
  intro hflow
  split
  · refine .look fun _ heap hh hsize => ?_
    cases hget : heap.get? closure.environment 0 receiverName with
    | none => trivial
    | some v => exact hsize ▸ hh.get? hget
  · cases flow with
    | «return» v => exact .pure fun hc => hflow hc v rfl
    | _ => exact .pure fun _ => trivial

theorem composed_invoke (ih : ComposedAt careful steps) (lists : Nat) (closure : Closure) (arguments : List Value)
    (harguments : careful → ∀ v ∈ arguments, v.Ordered lists) :
    Composed careful lists Value.Ordered (invoke (steps + 1) closure arguments) := by
  have hparameters (hc : careful) (name : String) (v : Value)
      (hv : (Bindings.empty.setAll ((closure.function.params.map (·.text)).zip arguments)).get? name = some v) :
      v.Ordered lists := by
    rcases Bindings.of_get?_setAll hv with hempty | hmem
    · cases hempty
    · exact harguments hc v (List.of_mem_zip hmem).2
  refine (Composed.quiet (quiet_enter closure.environment hparameters)).bind fun _ inner _ => ?_
  refine (ih.execAll _ inner closure.function.body).bind fun _ flow hflow => .noted (fun _ _ => rfl) fun lists' hlists => ?_
  have hresult := quiet_result closure flow fun hc => hlists hc ▸ (hflow hc).2
  refine (Composed.quiet hresult).bind fun _ v hv => ?_
  exact .noted (fun _ _ => rfl) fun _ hsame => .pure fun hc => hsame hc ▸ (hv hc).2

/-! ### Statements -/

theorem Flow.ordered_normal (lists : Nat) : Flow.normal.Ordered lists := by rintro _ ⟨⟩

theorem composed_normal {α : Type} {post : Nat → α → Prop} {x : Recorder α} (hx : Composed careful lists post x) :
    Composed careful lists Flow.Ordered (x >>= fun _ => pure .normal) :=
  hx.map fun lists' _ _ _ _ => Flow.ordered_normal lists'

theorem composed_exec (ih : ComposedAt careful steps) (lists : Nat) (env : Environment) (s : Stmt) :
    Composed careful lists Flow.Ordered (exec (steps + 1) env s) := by
  refine .noted (fun _ _ => rfl) fun lists _ => ?_
  cases s with
  | expression value =>
    exact (ih.eval lists env value).bind fun lists' v hv => .echo (fun hc => (hv hc).2) fun _ => Flow.ordered_normal lists'
  | print line value =>
    refine (ih.eval lists env value).bind fun lists' v hv => ?_
    have hprint : Composed careful lists' (fun _ _ => True) (lift (Run.writeLine .printed v)) :=
      .print (fun hc => (hv hc).2) fun _ => trivial
    exact composed_normal hprint
  | var name initializer =>
    cases initializer with
    | none => exact composed_normal (.quiet (quiet_define (v := .nil) env name.text fun _ => trivial))
    | some initializer =>
      exact (ih.eval lists env initializer).bind fun _ v hv =>
        composed_normal (.quiet (quiet_define env name.text fun hc => (hv hc).2))
  | block body =>
    have hempty (hc : careful) (name : String) (v : Value) (hv : (Bindings.empty.get? name : Option Value) = some v) :
        v.Ordered lists := by simp [Bindings.get?_empty] at hv
    exact (Composed.quiet (quiet_enter env hempty)).bind fun _ inner _ => ih.execAll _ inner body
  | branch condition thenBranch elseBranch =>
    refine (ih.eval lists env condition).bind fun _ v _ => (composed_truthy v).bind fun lists' truthy _ => ?_
    split
    · exact ih.exec _ env thenBranch
    · cases elseBranch with
      | none => exact .pure fun _ => Flow.ordered_normal lists'
      | some elseBranch => exact ih.exec _ env elseBranch
  | loop condition body increment => exact ih.loop lists env condition body increment
  | «break» line => exact .pure fun _ => by rintro _ ⟨⟩
  | «continue» line => exact .pure fun _ => by rintro _ ⟨⟩
  | «return» line value =>
    cases value with
    | none => exact .pure fun _ v hv => Flow.return.inj hv ▸ trivial
    | some value => exact (ih.eval lists env value).map fun _ v _ _ hv u hu => Flow.return.inj hu ▸ hv
  | function name f =>
    refine (Composed.quiet (quiet_newFunction _)).bind fun _ v hv => ?_
    exact composed_normal (.quiet (quiet_define env name.text fun hc => (hv hc).2))
  | «class» name parent methods => exact composed_normal (composed_declareClass env name parent methods)
  | empty => exact .pure fun _ => Flow.ordered_normal lists

theorem composed_execAll (ih : ComposedAt careful steps) (lists : Nat) (env : Environment) (statements : List Stmt) :
    Composed careful lists Flow.Ordered (execAll (steps + 1) env statements) := by
  cases statements with
  | nil => exact .pure fun _ => Flow.ordered_normal lists
  | cons s rest =>
    refine (ih.exec lists env s).bind fun _ flow hflow => ?_
    cases flow with
    | normal => exact ih.execAll _ env rest
    | _ => exact .pure fun hc => (hflow hc).2

theorem composed_loop (ih : ComposedAt careful steps) (lists : Nat) (env : Environment) (condition : Expr) (body : Stmt)
    (increment : Option Expr) : Composed careful lists Flow.Ordered (loop (steps + 1) env condition body increment) := by
  refine (ih.eval lists env condition).bind fun _ v _ => (composed_truthy v).bind fun lists' truthy _ => ?_
  split
  · refine (ih.exec _ env body).bind fun lists'' flow hflow => ?_
    cases flow with
    | «break» => exact .pure fun _ => Flow.ordered_normal lists''
    | «return» v => exact .pure fun hc => (hflow hc).2
    | normal | «continue» =>
      cases increment with
      | none => exact ih.loop _ env condition body none
      | some increment => exact (ih.eval _ env increment).bind fun _ _ _ => ih.loop _ env condition body (some increment)
  · exact .pure fun _ => Flow.ordered_normal lists'

theorem composed (careful : Prop) (steps : Nat) : ComposedAt careful steps := by
  induction steps with
  | zero => constructor <;> intros <;> exact .quiet .unfinished
  | succ steps ih =>
    exact ⟨composed_eval ih, composed_evalAll ih, composed_call ih, composed_instantiate ih, composed_invoke ih,
      composed_exec ih, composed_execAll ih, composed_loop ih⟩

/-- Every program is composed, with or without care. -/
theorem program_composed (careful : Prop) (steps lists : Nat) (statements : List Stmt) :
    Composed careful lists (fun _ _ => True) (program steps statements) := by
  induction statements generalizing lists with
  | nil => exact .pure fun _ => trivial
  | cons s rest ih =>
    exact ((composed careful steps).exec lists [] s).bind fun _ _ _ => .noted (fun _ _ => rfl) fun lists' _ => ih lists'

end Steps

/-! ## Growth -/

theorem Record.machine?_onMachine (f : Machine → Machine) (record : Record) :
    (record.onMachine f).machine? = record.machine?.map f := by cases record <;> rfl

/-- A note is about the machine it is made on. -/
theorem eq_of_note {record : Machine → Record} (h : ∀ f m, record (f m) = (record m).onMachine f) {m m' : Machine}
    (hm : (record m).machine? = some m') : m' = m := by
  have hconst : record m = (record m).onMachine fun _ => m := h (fun _ => m) m
  rw [hconst, Record.machine?_onMachine] at hm
  obtain ⟨_, -, heq⟩ := Option.map_eq_some_iff.1 hm
  exact heq.symm

/-- Nothing that has been written or put on record is lost. What is put on record later came about in between. -/
structure Recording.Grows (r r' : Recording) : Prop where
  written : r.machine.output.entries.toList <+: r'.machine.output.entries.toList
  records : ∃ later, r'.records = later ++ r.records ∧ ∀ record ∈ later, ∀ m, record.machine? = some m →
    r.machine.output.entries.toList <+: m.output.entries.toList ∧
      m.output.entries.toList <+: r'.machine.output.entries.toList

namespace Recording.Grows

/-- More has been written, and nothing put on record. -/
theorem of_written {r : Recording} {m : Machine} (h : r.machine.output.entries.toList <+: m.output.entries.toList) :
    r.Grows { r with machine := m } := ⟨h, [], rfl, fun _ h => absurd h List.not_mem_nil⟩

theorem refl (r : Recording) : r.Grows r := of_written List.prefix_rfl

theorem trans {r r' r'' : Recording} (h : r.Grows r') (h' : r'.Grows r'') : r.Grows r'' := by
  obtain ⟨later, hlater, hbetween⟩ := h.records
  obtain ⟨later', hlater', hbetween'⟩ := h'.records
  refine ⟨h.written.trans h'.written, later' ++ later, ?_, fun record hrecord m hm => ?_⟩
  · rw [hlater', hlater, List.append_assoc]
  · rcases List.mem_append.1 hrecord with hrecord | hrecord
    · exact (hbetween' record hrecord m hm).imp_left h.written.trans
    · exact (hbetween record hrecord m hm).imp_right (·.trans h'.written)

theorem note {record : Machine → Record} (h : ∀ f m, record (f m) = (record m).onMachine f) (r : Recording) :
    r.Grows { r with records := record r.machine :: r.records } := by
  refine ⟨List.prefix_rfl, [record r.machine], rfl, fun other hother m hm => ?_⟩
  obtain rfl := List.mem_singleton.1 hother
  obtain rfl := eq_of_note h hm
  exact ⟨List.prefix_rfl, List.prefix_rfl⟩

end Recording.Grows

theorem Transcript.prefix_write (t : Transcript) (origin : Origin) (bytes : List UInt8) :
    t.entries.toList <+: (t.write origin bytes).2.entries.toList := by
  unfold Transcript.write
  split <;> exact Array.toList_push ▸ List.prefix_append _ _

theorem Recorder.lift_grows {α : Type} {x : Run α} {r : Recording}
    (h : r.machine.output.entries.toList <+: (stateBehind (x r.machine)).output.entries.toList) :
    r.Grows (stateBehind (Recorder.lift x r)) := by
  unfold Recorder.lift
  cases hxr : x r.machine <;> rw [hxr] at h <;> exact .of_written h

theorem Recorder.bind_grows {α β : Type} {x : Recorder α} {f : α → Recorder β} {r : Recording}
    (hx : r.Grows (stateBehind (x r))) (hf : ∀ a (r' : Recording), r'.Grows (stateBehind (f a r'))) :
    r.Grows (stateBehind ((x >>= f) r)) := stateBehind_bind hx fun a r' _ hgrows => hgrows.trans (hf a r')

theorem writeLine_grows (origin : Origin) (v : Value) (m : Machine) :
    m.output.entries.toList <+: (stateBehind (Run.writeLine origin v m)).output.entries.toList := by
  cases hline : Run.lineOf? m v with
  | none =>
    rw [Run.writeLine_of_endless hline]
    exact List.prefix_rfl
  | some line =>
    rw [Run.writeLine_of_line hline]
    split <;> exact m.output.prefix_write origin _

/-- Only writes add to the sink, and only notes to the records. -/
theorem Composed.grows {careful : Prop} (hc : ¬careful) {α : Type} {lists : Nat} {post : Nat → α → Prop}
    {x : Recorder α} (h : Composed careful lists post x) (r : Recording) : r.Grows (stateBehind (x r)) := by
  induction h generalizing r with
  | quiet hx =>
    have hsame := (hx.sink (m := r.machine) fun h => absurd h hc).1
    exact Recorder.lift_grows (hsame ▸ List.prefix_rfl)
  | note record hrecord _ => exact .note hrecord r
  | bind _ _ ihx ihf => exact Recorder.bind_grows (ihx r) fun a r' => ihf 0 a (fun h => absurd h hc) r'
  | @nested _ _ _ x line _ ih =>
    rw [Recorder.nested_eq]
    split
    · exact .refl r
    · have hbody := ih r.deeper
      cases hxr : x r.deeper <;> rw [hxr] at hbody <;> exact ⟨hbody.written, hbody.records⟩
  | get _ _ ih => exact ih r.machine (fun h => absurd h hc) r
  | print _ _ => exact Recorder.lift_grows (writeLine_grows .printed _ r.machine)
  | @echo _ _ _ v a _ _ =>
    show r.Grows (stateBehind ((if r.machine.echo then _ else _ : Recorder _) r))
    split
    · exact Recorder.bind_grows (Recorder.lift_grows (writeLine_grows .echoed v r.machine)) fun _ r' => .refl r'
    · exact .refl r
  | @prompt _ _ _ y text line hy =>
    have hwritten := r.machine.output.prefix_write .prompt (Lines.encode text)
    refine Recorder.lift_grows ?_
    rw [Run.write_bind]
    split
    · rw [(hy.sink fun h => absurd h hc).1]
      exact hwritten
    · exact hwritten

end TreeWalk
