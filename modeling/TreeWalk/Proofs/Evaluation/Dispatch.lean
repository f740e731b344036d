import TreeWalk.Proofs.Evaluation.Contents
import TreeWalk.Proofs.Evaluation.Level
import TreeWalk.Proofs.Evaluation.World

/-!
# Which method runs

A name selects the method of the nearest class that has one, from the class of the receiver upwards, or from a parent
class upwards. What is said here of the methods of a class, of properties and of the call of a class holds on every
machine.
-/

namespace TreeWalk

/-! ## Methods -/

namespace Class

variable {c : Class} {name : String} {method : Closure}

/-- The method is that of the nearest class, from this one upwards, that has one of the name. -/
def Selects (c : Class) (name : String) (method : Closure) : Prop :=
  ∃ nearer body farther, c.lineage = nearer ++ body :: farther ∧ body.methods.get? name = some method ∧
    ∀ other ∈ nearer, other.methods.get? name = none

/-- Neither the class nor an ancestor has a method of the name. -/
def Lacks (c : Class) (name : String) : Prop := ∀ body ∈ c.lineage, body.methods.get? name = none

theorem method?_eq_some_iff : c.method? name = some method ↔ c.Selects name method :=
  List.findSome?_eq_some_iff

theorem method?_eq_none_iff : c.method? name = none ↔ c.Lacks name := List.findSome?_eq_none_iff

/-- How many arguments the call of the class takes. -/
inductive Takes (c : Class) : Nat → Prop where
  | initializer {method : Closure} (h : c.Selects initializerName method) : Takes c method.arity
  | nothing (h : c.Lacks initializerName) : Takes c 0

theorem takes_arity (c : Class) : c.Takes c.arity := by
  unfold arity
  cases h : c.method? initializerName with
  | some method => exact .initializer (method?_eq_some_iff.1 h)
  | none => exact .nothing (method?_eq_none_iff.1 h)

end Class

/-- The method with the frame of a receiver around it. -/
def Closure.inFrame (method : Closure) (frame : FrameId) : Closure :=
  { method with environment := frame :: method.environment }

/-- The method of a class for a receiver, which is in a new frame around it, or the error that there is none. -/
inductive BindsMethod (m : Machine) (c : Class) (receiver : Value) (name : Name) :
    EStateM.Result Stop Machine Value → Prop where
  | method {method : Closure} {identity : Nat} {m' : Machine} (hselects : c.Selects name.text method)
    (hframe : m'.heap.frame m.heap.frames.size = Bindings.empty.set receiverName receiver) :
    BindsMethod m c receiver name (.ok (.function identity (method.inFrame m.heap.frames.size)) m')
  | undefined (hlacks : c.Lacks name.text) :
    BindsMethod m c receiver name (.error (.fault (.evaluation name.line (.undefinedProperty name.text))) m)

/-- A field of an object, or else a method of its class for the object. -/
inductive GetsProperty (m : Machine) (id : ObjectId) (c : Class) (name : Name) : EStateM.Result Stop Machine Value → Prop where
  | field {v : Value} (hfield : (m.heap.fields id).get? name.text = some v) : GetsProperty m id c name (.ok v m)
  | method {result : EStateM.Result Stop Machine Value} (hfield : (m.heap.fields id).get? name.text = none)
    (hbinds : BindsMethod m c (.object id c) name result) : GetsProperty m id c name result

theorem bindsMethod (m : Machine) (c : Class) (receiver : Value) (name : Name) :
    BindsMethod m c receiver name
      ((match c.method? name.text with
        | some method => do Run.newFunction (← Run.bindReceiver method receiver)
        | none => Run.fail name.line (.undefinedProperty name.text) : Run Value) m) := by
  cases hmethod : c.method? name.text with
  | none => exact .undefined (Class.method?_eq_none_iff.1 hmethod)
  | some method =>
    refine .method (Class.method?_eq_some_iff.1 hmethod) ?_
    exact (Heap.frame_addFrame _ _ _).trans (if_pos rfl)

theorem BindsMethod.of_ok {m m' : Machine} {c : Class} {receiver v : Value} {name : Name}
    (h : BindsMethod m c receiver name (.ok v m')) :
    ∃ method identity frame, c.Selects name.text method ∧ v = .function identity (method.inFrame frame) := by
  cases h with
  | method hselects => exact ⟨_, _, _, hselects, rfl⟩

theorem gets_property (m : Machine) (id : ObjectId) (c : Class) (name : Name) :
    GetsProperty m id c name (Run.property id c name m) := by
  have hlook : Run.look (fun h => (h.fields id).get? name.text) m = .ok ((m.heap.fields id).get? name.text) m := rfl
  rw [Run.property, bind_ok hlook]
  cases hfield : (m.heap.fields id).get? name.text with
  | some v => exact .field hfield
  | none => exact .method hfield (bindsMethod m c _ name)

theorem GetsProperty.of_method {m : Machine} {id : ObjectId} {c : Class} {name : Name} {result : EStateM.Result Stop Machine Value}
    (h : GetsProperty m id c name result) (hfield : (m.heap.fields id).get? name.text = none) {method : Closure}
    (hmethod : c.method? name.text = some method) :
    ∃ identity m', result = .ok (.function identity (method.inFrame m.heap.frames.size)) m' := by
  cases h with
  | field hsome =>
    rw [hfield] at hsome
    cases hsome
  | method _ hbinds =>
    cases hbinds with
    | method hselects =>
      rw [Class.method?_eq_some_iff.2 hselects] at hmethod
      cases hmethod
      exact ⟨_, _, rfl⟩
    | undefined hlacks =>
      rw [Class.method?_eq_none_iff.2 hlacks] at hmethod
      cases hmethod

theorem eval_gets_property {env : Environment} {object : Expr} {steps : Nat} {id : ObjectId} {c : Class} {m m' : Machine}
    (h : Evaluation.eval steps env object m = .ok (.object id c) m') (name : Name) :
    GetsProperty m' id c name (Evaluation.eval (steps + 1) env (.get object name) m) := by
  have heval : Evaluation.eval (steps + 1) env (.get object name) m = Run.property id c name m' := bind_ok h
  rw [heval]
  exact gets_property m' id c name

theorem this_evaluates {m : Machine} {env : Environment} {id : NodeId} {distance : Nat} {v : Value}
    (hdistance : m.distances[id]? = some distance) (hget : m.heap.get? env distance receiverName = some v)
    (steps line : Nat) : Evaluation.eval (steps + 1) env (.this id line) m = .ok v m := by
  show Run.read env ⟨id, receiverName, line⟩ m = _
  exact Run.read_of_get? hdistance hget

theorem parent_binds {m : Machine} {env : Environment} {id : NodeId} {c : Class} {receiver : Value}
    (h : Run.parentOf? m env id = some (c, some receiver)) (steps : Nat) (keyword name : Name) :
    BindsMethod m c receiver name (Evaluation.eval (steps + 1) env (.parent id keyword name) m) := by
  show BindsMethod m c receiver name (Run.parentMethod env id keyword name m)
  rw [Run.parentMethod, Run.get_bind, h]
  exact bindsMethod m c receiver name

/-- Without a receiver the evaluation of a method of the parent class fails. -/
theorem parent_without_receiver {m : Machine} {env : Environment} {id : NodeId} {c : Class}
    (h : Run.parentOf? m env id = some (c, none)) (steps : Nat) (keyword name : Name) :
    Evaluation.eval (steps + 1) env (.parent id keyword name) m =
      .error (.fault (.evaluation keyword.line (.undefinedVariable receiverName))) m := by
  show Run.parentMethod env id keyword name m = _
  rw [Run.parentMethod, Run.get_bind, h]
  rfl

/-! ## Classes that are called -/

/-- The call of a class makes a new object, and what its initializer gives back does not matter. -/
inductive Constructs (steps line : Nat) (c : Class) (arguments : List Argument) (m : Machine) :
    EStateM.Result Stop Machine Value → Prop where
  | mismatch {n : Nat} (htakes : c.Takes n) (hlength : arguments.length ≠ n) : Constructs steps line c arguments m
    (.error (.fault (.evaluation line (.arityMismatch n arguments.length))) m)
  | full {n : Nat} (htakes : c.Takes n) (hlength : arguments.length = n) (hdepth : m.depth = maxDepth) :
    Constructs steps line c arguments m (.error (.overflow line) m)
  | plain {m' : Machine} (hlacks : c.Lacks initializerName) (harguments : arguments = []) :
    Constructs steps line c arguments m (.ok (.object m.heap.objects.size c) m')
  | initialized {method : Closure} {frame : FrameId} {v : Value} {m₀ m' : Machine}
    (hselects : c.Selects initializerName method) (hlength : arguments.length = method.arity)
    (hframe : m₀.heap.frame frame = Bindings.empty.set receiverName (.object m.heap.objects.size c))
    (hruns : Evaluation.invoke steps (method.inFrame frame) (arguments.map (·.value)) m₀ = .ok v m') :
    Constructs steps line c arguments m (.ok (.object m.heap.objects.size c) { m' with depth := m'.depth - 1 })
  | stops {method : Closure} {frame : FrameId} {stop : Stop} {m₀ m' : Machine}
    (hselects : c.Selects initializerName method) (hlength : arguments.length = method.arity)
    (hframe : m₀.heap.frame frame = Bindings.empty.set receiverName (.object m.heap.objects.size c))
    (hruns : Evaluation.invoke steps (method.inFrame frame) (arguments.map (·.value)) m₀ = .error stop m') :
    Constructs steps line c arguments m (.error stop { m' with depth := m'.depth - 1 })

section Construction

variable {c : Class}

theorem instantiate_plain (h : c.method? initializerName = none) (steps : Nat) (arguments : List Value) (m : Machine) :
    Evaluation.instantiate (steps + 1) c arguments m =
      .ok (.object m.heap.objects.size c) { m with heap := m.heap.addObject.2 } := by
  have hnew : Run.allocate (·.addObject) m = .ok m.heap.objects.size { m with heap := m.heap.addObject.2 } := rfl
  rw [Evaluation.instantiate, bind_ok hnew, h]
  rfl

theorem instantiate_initialized {method : Closure} (h : c.method? initializerName = some method)
    (steps : Nat) (arguments : List Value) (m : Machine) : ∃ frame m₀,
      m₀.heap.frame frame = Bindings.empty.set receiverName (.object m.heap.objects.size c) ∧
      Evaluation.instantiate (steps + 1) c arguments m =
        match Evaluation.invoke steps (method.inFrame frame) arguments m₀ with
        | .ok _ m' => .ok (.object m.heap.objects.size c) m'
        | .error stop m' => .error stop m' := by
  have hnew : Run.allocate (·.addObject) m = .ok m.heap.objects.size { m with heap := m.heap.addObject.2 } := rfl
  let bindings := Bindings.empty.set receiverName (Value.object m.heap.objects.size c)
  refine ⟨m.heap.addObject.2.frames.size, { m with heap := (m.heap.addObject.2.addFrame bindings).2 }, ?_, ?_⟩
  · exact (Heap.frame_addFrame _ _ _).trans (if_pos rfl)
  · have hbound : Run.bindReceiver method (.object m.heap.objects.size c) { m with heap := m.heap.addObject.2 } =
      .ok (method.inFrame m.heap.addObject.2.frames.size)
        { m with heap := (m.heap.addObject.2.addFrame bindings).2 } := rfl
    rw [Evaluation.instantiate, bind_ok hnew, h]
    show (Run.bindReceiver method (.object m.heap.objects.size c) >>= _) _ = _
    rw [bind_ok hbound]
    cases hruns : Evaluation.invoke steps (method.inFrame m.heap.addObject.2.frames.size) arguments
        { m with heap := (m.heap.addObject.2.addFrame bindings).2 } with
    | ok v m' => rw [bind_ok hruns]; rfl
    | error stop m' => rw [bind_error hruns]

theorem call_constructs (steps line : Nat) (c : Class) (arguments : List Argument) (m : Machine) :
    Constructs steps line c arguments m (Evaluation.call (steps + 2) line (.class c) arguments m) := by
  have htakes := c.takes_arity
  unfold Evaluation.call
  dsimp only [Value.callable?]
  split
  case isTrue hlength => exact .mismatch htakes (by simpa [Callable.arity] using hlength)
  case isFalse hlength =>
    have hlength : arguments.length = c.arity := by simpa [Callable.arity] using hlength
    unfold Run.nested
    split
    case isTrue hfull => exact .full htakes hlength (by simpa using hfull)
    case isFalse =>
      cases hmethod : c.method? initializerName with
      | none =>
        have harguments : arguments.length = 0 := by rw [hlength, Class.arity, hmethod]; rfl
        rw [instantiate_plain hmethod]
        exact .plain (Class.method?_eq_none_iff.1 hmethod) (List.eq_nil_of_length_eq_zero harguments)
      | some method =>
        have hselects := Class.method?_eq_some_iff.1 hmethod
        have hlength : arguments.length = method.arity := by rw [hlength, Class.arity, hmethod]; rfl
        obtain ⟨frame, m₀, hframe, heq⟩ :=
          instantiate_initialized hmethod steps (arguments.map (·.value)) { m with depth := m.depth + 1 }
        rw [heq]
        cases hruns : Evaluation.invoke steps (method.inFrame frame) (arguments.map (·.value)) m₀ with
        | ok v m' => exact .initialized hselects hlength hframe hruns
        | error stop m' => exact .stops hselects hlength hframe hruns

end Construction

/-! ## Classes that are declared -/

/-- Of the entries with a name the last one counts. -/
theorem Bindings.get?_setAll_iff {α : Type} {b : Bindings α} {entries : List (String × α)} {name : String} {a : α} :
    (b.setAll entries).get? name = some a ↔
      (∃ earlier later, entries = earlier ++ (name, a) :: later ∧ ∀ other ∈ later, other.1 ≠ name) ∨
        (b.get? name = some a ∧ ∀ other ∈ entries, other.1 ≠ name) := by
  -- Entries are added from the first on, so the bindings differ from one step to the next.
  induction entries generalizing b with
  | nil => simp [setAll]
  | cons entry rest ih =>
    rw [show b.setAll (entry :: rest) = (b.set entry.1 entry.2).setAll rest from rfl, ih, get?_set]
    constructor
    · rintro (⟨earlier, later, rfl, hlater⟩ | ⟨hget, hrest⟩)
      · exact .inl ⟨entry :: earlier, later, rfl, hlater⟩
      · split at hget
        case isTrue heq =>
          cases hget
          exact .inl ⟨[], rest, by rw [heq]; rfl, hrest⟩
        case isFalse hne => exact .inr ⟨hget, List.forall_mem_cons.2 ⟨Ne.symm hne, hrest⟩⟩
    · rintro (⟨earlier, later, heq, hlater⟩ | ⟨hget, hentries⟩)
      · cases earlier with
        | nil =>
          cases heq
          exact .inr ⟨if_pos rfl, hlater⟩
        | cons first earlier =>
          cases heq
          exact .inl ⟨earlier, later, rfl, hlater⟩
      · obtain ⟨hne, hrest⟩ := List.forall_mem_cons.1 hentries
        exact .inr ⟨by rw [if_neg (Ne.symm hne), hget], hrest⟩

/-- The last method of the name. -/
def LastNamed (methods : List Method) (name : String) (method : Method) : Prop :=
  ∃ earlier later, methods = earlier ++ method :: later ∧ method.name.text = name ∧ ∀ other ∈ later, other.name.text ≠ name

/-- The methods of the class itself are those that are declared, closed over the environment. -/
def Class.DeclaredWith (c : Class) (methods : List Method) (env : Environment) : Prop := ∀ name closure,
  c.own.methods.get? name = some closure ↔ ∃ method, LastNamed methods name method ∧ closure = (Run.methodClosure env method).2

/-- The machine on which the name of a class that is being declared stands for `nil`. -/
def Machine.announcing (m : Machine) (env : Environment) (name : Name) : Machine :=
  { m with heap := m.heap.define (Heap.innermost env) name.text .nil }

/-- What the declaration of a class leaves behind: a class under the name, which descends from the value that the
parent has at the moment. -/
def Builds (env : Environment) (name : Name) (parent : Option Reference) (methods : List Method) (m m' : Machine) : Prop :=
  ∃ c inner, (m'.heap.frame (Heap.innermost env)).get? name.text = some (.class c) ∧ c.DeclaredWith methods inner ∧
    match parent with
    | none => c.parent? = none ∧ inner = env
    | some use => ∃ d frame, Run.read env use (m.announcing env name) = .ok (.class d) (m.announcing env name) ∧
      c.parent? = some d ∧ inner = frame :: env ∧ (m'.heap.frame frame).get? parentName = some (.class d)

theorem declaredWith_setAll (identity : Nat) (name : String) (ancestors : List ClassBody) (methods : List Method)
    (env : Environment) :
    Class.DeclaredWith ⟨⟨identity, name, Bindings.empty.setAll (methods.map (Run.methodClosure env))⟩, ancestors⟩
      methods env := by
  intro n closure
  have hname (method : Method) : (Run.methodClosure env method).1 = method.name.text := by
    obtain ⟨name, f⟩ := method
    rfl
  show (Bindings.empty.setAll (methods.map (Run.methodClosure env))).get? n = some closure ↔ _
  rw [Bindings.get?_setAll_iff]
  constructor
  · rintro (⟨earlier, later, heq, hlater⟩ | ⟨hempty, -⟩)
    · obtain ⟨before, rest, rfl, rfl, hrest⟩ := List.map_eq_append_iff.1 heq
      obtain ⟨method, after, rfl, hmethod, rfl⟩ := List.map_eq_cons_iff.1 hrest
      refine ⟨method, ⟨before, after, rfl, ?_, fun other hother => ?_⟩, (congrArg Prod.snd hmethod).symm⟩
      · rw [← hname, hmethod]
      · rw [← hname]
        exact hlater _ (List.mem_map_of_mem hother)
    · cases hempty
  · rintro ⟨method, ⟨earlier, later, rfl, hmethod, hlater⟩, rfl⟩
    refine .inl ⟨earlier.map (Run.methodClosure env), later.map (Run.methodClosure env), ?_, fun other hother => ?_⟩
    · rw [List.map_append, List.map_cons, ← hmethod, ← hname]
    · obtain ⟨method', hmem, rfl⟩ := List.mem_map.1 hother
      rw [hname]
      exact hlater method' hmem

theorem Heap.get?_define {h : Heap} {id : FrameId} (hid : id < h.frames.size) (name : String) (v : Value) :
    ((h.define id name v).frame id).get? name = some v := by
  rw [frame_define h id name v hid, if_pos rfl, Bindings.get?_set, if_pos rfl]

theorem read_state {env : Environment} {use : Reference} {m m' : Machine} {v : Value} (h : Run.read env use m = .ok v m') :
    m' = m := by
  rcases Run.read_cases m env use with ⟨_, _, -, -, hread⟩ | hread <;> rw [hread] at h <;> cases h
  rfl

section Declaration

variable {env : Environment} {m m' : Machine} {name : Name} {parent : Option Reference} {methods : List Method}

theorem declareClass_builds (henv : Heap.innermost env < m.heap.frames.size)
    (h : Run.declareClass env name parent methods m = .ok () m') : Builds env name parent methods m m' := by
  have hdefine : Run.define env name.text .nil m = .ok () (m.announcing env name) := rfl
  have hsize : Heap.innermost env < (m.announcing env name).heap.frames.size := by
    simpa [Machine.announcing, Heap.define] using henv
  cases parent with
  | none =>
    rw [Run.declareClass, bind_ok hdefine] at h
    cases h
    let own : ClassBody := ⟨m.heap.identities, name.text, Bindings.empty.setAll (methods.map (Run.methodClosure env))⟩
    exact ⟨⟨own, []⟩, env, Heap.get?_define hsize _ _, declaredWith_setAll _ _ _ methods env, rfl, rfl⟩
  | some use =>
    rw [Run.declareClass, bind_ok hdefine] at h
    obtain ⟨v, m₁, hread, h⟩ := ok_of_bind_ok h
    obtain rfl := read_state hread
    cases v with
    | «class» d =>
      cases h
      have hinner : Heap.innermost env <
          ((m.announcing env name).heap.addFrame (Bindings.empty.set parentName (.class d))).2.frames.size := by
        simpa [Heap.addFrame] using Nat.lt_succ_of_lt hsize
      refine ⟨_, _, Heap.get?_define hinner _ _, declaredWith_setAll _ _ _ methods _, d, _, hread,
        Class.parent?_eq _ (some d), rfl, ?_⟩
      -- The class is bound in another frame than the new one, which still has the parent.
      have hother (v : Value) := Heap.frame_define _ (m.announcing env name).heap.frames.size name.text v hinner
      simp only [if_neg (Nat.ne_of_gt hsize)] at hother
      refine (congrArg (·.get? parentName) (hother _)).trans ?_
      rw [Heap.frame_addFrame, if_pos rfl, Bindings.get?_set, if_pos rfl]
    | _ => cases h

/-- A class statement that succeeds declares a class. -/
theorem exec_builds (henv : Heap.innermost env < m.heap.frames.size) {steps : Nat} {flow : Flow}
    (h : Evaluation.exec (steps + 1) env (.class name parent methods) m = .ok flow m') :
    Builds env name parent methods m m' := by
  have hexec : Evaluation.exec (steps + 1) env (.class name parent methods) =
    (Run.declareClass env name parent methods >>= fun _ => pure .normal) := rfl
  rw [hexec] at h
  obtain ⟨_, _, hdeclare, h⟩ := ok_of_bind_ok h
  cases h
  exact declareClass_builds henv hdeclare

end Declaration

end TreeWalk
