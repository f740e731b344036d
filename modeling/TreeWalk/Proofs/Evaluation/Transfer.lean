import TreeWalk.Evaluation
import TreeWalk.Proofs.Evaluation.Relabeling
import TreeWalk.Proofs.Evaluation.Results
import TreeWalk.Proofs.Sequencing

/-!
# Runs with other labels

A relabelled program does on a relabelled machine what the program itself does, as long as the table gives the
new ids the distances of the old ones. By induction on the steps, everything that is evaluated goes on in step.
-/

namespace TreeWalk

/-- Another labelling, another table with the same distances, and what else has been written so far. -/
structure Transfer where
  labels : Relabeling
  before : Distances
  after : Distances
  agree : ∀ id, after[labels.id id]? = before[id]?
  written : Array Entry := #[]

/-! ## Machines and outcomes -/

/-- What has been written, behind other entries. -/
def Transcript.behind (t : Transcript) (entries : Array Entry) : Transcript := { t with entries := entries ++ t.entries }

theorem Transcript.behind_empty (t : Transcript) : t.behind #[] = t := by simp [behind]

theorem Transcript.write_behind (t : Transcript) (entries : Array Entry) (origin : Origin) (bytes : List UInt8) :
    (t.behind entries).write origin bytes = ((t.write origin bytes).1, (t.write origin bytes).2.behind entries) := by
  obtain ⟨_, room⟩ := t
  cases room <;> simp [write, behind]

namespace Transfer

variable (τ : Transfer)

def machine (m : Machine) : Machine :=
  { m with heap := m.heap.relabel τ.labels, distances := τ.after, output := m.output.behind τ.written }

def stop : Stop → Stop
  | .fault (.evaluation line cause) => .fault (.evaluation (τ.labels.line line) cause)
  | other => other

def outcome {α β : Type} (f : α → β) : EStateM.Result Stop Machine α → EStateM.Result Stop Machine β
  | .ok a m => .ok (f a) (τ.machine m)
  | .error stop m => .error (τ.stop stop) (τ.machine m)

def value (v : Value) : Value := v.relabel τ.labels

def flow : Flow → Flow
  | .return v => .return (τ.value v)
  | other => other

def argument (a : Argument) : Argument := ⟨τ.value a.value, a.expr.relabel τ.labels⟩

end Transfer

/-- The second computation does on the other machine what the first one does, and neither changes the table. -/
def Transfers {α β : Type} (τ : Transfer) (f : α → β) (x : Run α) (y : Run β) : Prop :=
  ∀ m, m.distances = τ.before → y (τ.machine m) = τ.outcome f (x m) ∧
    match x m with
    | .ok _ m' => m'.distances = τ.before
    | .error _ m' => m'.distances = τ.before

namespace Transfers

variable {α β γ δ : Type} {τ : Transfer} {f : α → β} {g : γ → δ} {x : Run α} {y : Run β}

theorem pure {a : α} {b : β} (h : b = f a) : Transfers τ f (Pure.pure a) (Pure.pure b) := fun m hm => by
  rw [h]
  exact ⟨rfl, hm⟩

theorem bind {k : α → Run γ} {k' : β → Run δ} (hx : Transfers τ f x y) (hk : ∀ a, Transfers τ g (k a) (k' (f a))) :
    Transfers τ g (x >>= k) (y >>= k') := by
  intro m hm
  obtain ⟨hsame, htable⟩ := hx m hm
  rw [bind_eq_match, bind_eq_match, hsame]
  cases hxm : x m with
  | ok a m' =>
    rw [hxm] at htable
    exact hk a m' htable
  | error stop m' =>
    rw [hxm] at htable
    exact ⟨rfl, htable⟩

/-- The result is changed afterwards. -/
theorem map {h : α → γ} {h' : β → δ} (hx : Transfers τ f x y) (hsame : ∀ a, h' (f a) = g (h a)) :
    Transfers τ g (x >>= fun a => Pure.pure (h a)) (y >>= fun b => Pure.pure (h' b)) :=
  hx.bind fun a => .pure (hsame a)

theorem ite {c c' : Bool} {x' : Run α} {y' : Run β} (hc : c' = c) (hx : Transfers τ f x y) (hx' : Transfers τ f x' y') :
    Transfers τ f (if c then x else x') (if c' then y else y') := by
  subst hc
  cases c' with
  | true => exact hx
  | false => exact hx'

theorem fail (line : Nat) (cause : FaultCause) : Transfers τ f (Run.fail line cause) (Run.fail (τ.labels.line line) cause) :=
  fun _ hm => ⟨rfl, hm⟩

theorem crash (cause : Crash) : Transfers τ f (Run.crash cause) (Run.crash cause) := fun _ hm => ⟨rfl, hm⟩

theorem unfinished : Transfers τ f Run.unfinished Run.unfinished := fun _ hm => ⟨rfl, hm⟩

/-- The machine itself is looked at. -/
theorem get {k k' : Machine → Run γ} {g : γ → γ} (h : ∀ m, m.distances = τ.before → Transfers τ g (k m) (k' (τ.machine m))) :
    Transfers τ g (MonadState.get >>= k) (MonadState.get >>= k') := fun m hm => h m hm m hm

theorem look {k : Heap → α} {k' : Heap → β} (h : ∀ heap : Heap, k' (heap.relabel τ.labels) = f (k heap)) :
    Transfers τ f (Run.look k) (Run.look k') := fun m hm => by
  refine ⟨?_, hm⟩
  show EStateM.Result.ok (k' (m.heap.relabel τ.labels)) _ = _
  rw [h]
  rfl

theorem update {k k' : Heap → Heap} (h : ∀ heap : Heap, k' (heap.relabel τ.labels) = (k heap).relabel τ.labels) :
    Transfers τ id (Run.update k) (Run.update k') := fun m hm => by
  refine ⟨?_, hm⟩
  show EStateM.Result.ok () { τ.machine m with heap := k' (m.heap.relabel τ.labels) } = _
  rw [h]
  rfl

theorem allocate {k : Heap → α × Heap} {k' : Heap → β × Heap}
    (h : ∀ heap : Heap, k' (heap.relabel τ.labels) = (f (k heap).1, (k heap).2.relabel τ.labels)) :
    Transfers τ f (Run.allocate k) (Run.allocate k') := fun m hm => by
  refine ⟨?_, hm⟩
  show EStateM.Result.ok (k' (m.heap.relabel τ.labels)).1 { τ.machine m with heap := (k' (m.heap.relabel τ.labels)).2 } = _
  rw [h]
  rfl

theorem ofExcept {line : Nat} {result : Except FaultCause α} {result' : Except FaultCause β} (h : result' = result.map f) :
    Transfers τ f (Run.ofExcept line result) (Run.ofExcept (τ.labels.line line) result') := by
  rw [h]
  cases result with
  | ok a => exact .pure rfl
  | error cause => exact fail line cause

theorem operation {line : Nat} {k : Heap → Except Failure α} {k' : Heap → Except Failure β}
    (h : ∀ heap : Heap, k' (heap.relabel τ.labels) = (k heap).map f) :
    Transfers τ f (Run.operation line k) (Run.operation (τ.labels.line line) k') := fun m hm => by
  unfold Run.operation
  have hheap : (τ.machine m).heap = m.heap.relabel τ.labels := rfl
  rw [hheap, h]
  cases k m.heap with
  | ok a => exact ⟨rfl, hm⟩
  | error failure => cases failure <;> exact ⟨rfl, hm⟩

/-- Calls in progress are only counted. -/
theorem nested (line : Nat) (hx : Transfers τ f x y) :
    Transfers τ f (Run.nested line x) (Run.nested (τ.labels.line line) y) := fun m hm => by
  unfold Run.nested
  have hdepth : (τ.machine m).depth = m.depth := rfl
  rw [hdepth]
  split
  · exact ⟨rfl, hm⟩
  · obtain ⟨hsame, htable⟩ := hx { m with depth := m.depth + 1 } hm
    change y { τ.machine m with depth := m.depth + 1 } = _ at hsame
    rw [hsame]
    cases hxm : x { m with depth := m.depth + 1 } <;> rw [hxm] at htable <;> exact ⟨rfl, htable⟩

end Transfers

section Operations

variable {τ : Transfer}

/-! ## Variables and functions -/

theorem frameOf?_transfers {m : Machine} (hm : m.distances = τ.before) (env : Environment) (id : NodeId) :
    Run.frameOf? (τ.machine m) env (τ.labels.id id) = Run.frameOf? m env id := by
  unfold Run.frameOf?
  rw [hm, ← τ.agree id]
  rfl

theorem read_transfers (env : Environment) (use : Reference) :
    Transfers τ τ.value (Run.read env use) (Run.read env (use.relabel τ.labels)) := fun m hm => by
  have hframe := frameOf?_transfers hm env use.id
  have hget (id : FrameId) : ((τ.machine m).heap.frame id).get? use.name.text =
      ((m.heap.frame id).get? use.name.text).map τ.value := by
    rw [show (τ.machine m).heap = m.heap.relabel τ.labels from rfl, Heap.relabel_frame, Bindings.get?_map]
    rfl
  unfold Run.read
  rw [Reference.relabel_id, hframe, Reference.relabel_name, Name.relabel_text]
  simp only [hget]
  cases Run.frameOf? m env use.id with
  | none => exact ⟨rfl, hm⟩
  | some id =>
    simp only [Option.bind_some]
    cases (m.heap.frame id).get? use.name.text <;> exact ⟨rfl, hm⟩

theorem assign_transfers (env : Environment) (use : Reference) (v : Value) :
    Transfers τ id (Run.assign env use v) (Run.assign env (use.relabel τ.labels) (τ.value v)) := fun m hm => by
  have hframe := frameOf?_transfers hm env use.id
  have hbinds (id : FrameId) : (τ.machine m).heap.binds id use.name.text = m.heap.binds id use.name.text := by
    rw [show (τ.machine m).heap = m.heap.relabel τ.labels from rfl, Heap.binds, Heap.relabel_frame, Bindings.contains_map]
    rfl
  have hdefine (id : FrameId) : Transfers τ (fun u => u) (Run.update (·.define id use.name.text v))
      (Run.update (·.define id use.name.text (τ.value v))) :=
    .update fun heap => heap.relabel_define τ.labels id use.name.text v
  unfold Run.assign
  rw [Reference.relabel_id, hframe, Reference.relabel_name, Name.relabel_text]
  simp only [hbinds]
  cases (Run.frameOf? m env use.id).filter fun id => m.heap.binds id use.name.text with
  | none => exact ⟨rfl, hm⟩
  | some id => exact hdefine id m hm

theorem define_transfers (env : Environment) (name : String) (v : Value) :
    Transfers τ id (Run.define env name v) (Run.define env name (τ.value v)) :=
  .update fun heap => heap.relabel_define τ.labels _ name v

theorem enter_transfers (env : Environment) (bindings : Bindings Value) :
    Transfers τ id (Run.enter env bindings) (Run.enter env (bindings.map τ.value)) := by
  have hframe : Transfers τ id (Run.allocate (·.addFrame bindings)) (Run.allocate (·.addFrame (bindings.map τ.value))) :=
    .allocate fun heap => heap.relabel_addFrame τ.labels bindings
  exact hframe.map fun _ => rfl

theorem addIdentity_transfers : Transfers τ id (Run.allocate (·.addIdentity)) (Run.allocate (·.addIdentity)) :=
  .allocate fun _ => rfl

theorem newFunction_transfers (c : Closure) :
    Transfers τ τ.value (Run.newFunction c) (Run.newFunction (c.relabel τ.labels)) :=
  addIdentity_transfers.map fun _ => rfl

theorem single_map (name : String) (v : Value) :
    Bindings.empty.set name (τ.value v) = (Bindings.empty.set name v).map τ.value := Bindings.set_map τ.value .empty name v

theorem bindReceiver_transfers (method : Closure) (v : Value) :
    Transfers τ (Closure.relabel τ.labels) (Run.bindReceiver method v)
      (Run.bindReceiver (method.relabel τ.labels) (τ.value v)) := by
  unfold Run.bindReceiver
  rw [single_map]
  exact (enter_transfers method.environment _).map fun _ => rfl

theorem boundMethod_transfers (method : Closure) (v : Value) :
    Transfers τ τ.value (do Run.newFunction (← Run.bindReceiver method v))
      (do Run.newFunction (← Run.bindReceiver (method.relabel τ.labels) (τ.value v))) :=
  (bindReceiver_transfers method v).bind newFunction_transfers

theorem property_transfers (id : ObjectId) (c : Class) (name : Name) :
    Transfers τ τ.value (Run.property id c name) (Run.property id (c.relabel τ.labels) (name.relabel τ.labels)) := by
  have hfield : Transfers τ (Option.map τ.value) (Run.look fun h => (h.fields id).get? name.text)
      (Run.look fun h => (h.fields id).get? name.text) :=
    .look fun heap => by rw [Heap.relabel_fields, Bindings.get?_map]; rfl
  refine hfield.bind fun o => ?_
  cases o with
  | some v => exact .pure rfl
  | none =>
    dsimp only [Option.map_none]
    rw [Class.relabel_method?, Name.relabel_text]
    cases c.method? name.text with
    | some method => exact boundMethod_transfers method (.object id c)
    | none => exact .fail _ _

theorem parentOf?_transfers {m : Machine} (hm : m.distances = τ.before) (env : Environment) (id : NodeId) :
    Run.parentOf? (τ.machine m) env (τ.labels.id id) =
      (Run.parentOf? m env id).map fun (parent, receiver) => (parent.relabel τ.labels, receiver.map τ.value) := by
  have htable : (τ.machine m).distances[τ.labels.id id]? = m.distances[id]? := by
    rw [hm, ← τ.agree id]
    rfl
  have hget (d : Nat) (name : String) : (τ.machine m).heap.get? env d name = (m.heap.get? env d name).map τ.value :=
    m.heap.relabel_get? τ.labels env d name
  unfold Run.parentOf?
  rw [htable]
  cases m.distances[id]? with
  | none => rfl
  | some d =>
    simp only [Option.bind_eq_bind, Option.bind_some, hget]
    cases m.heap.get? env d parentName with
    | none => rfl
    | some v =>
      cases v with
      | «class» c => cases d <;> rfl
      | _ => rfl

theorem parentMethod_transfers (env : Environment) (id : NodeId) (keyword method : Name) :
    Transfers τ τ.value (Run.parentMethod env id keyword method)
      (Run.parentMethod env (τ.labels.id id) (keyword.relabel τ.labels) (method.relabel τ.labels)) := by
  refine .get fun m hm => ?_
  rw [parentOf?_transfers hm]
  rcases Run.parentOf? m env id with _ | ⟨parent, _ | receiver⟩
  · exact .fail _ _
  · exact .fail _ _
  · dsimp only [Option.map_some]
    rw [Class.relabel_method?, Name.relabel_text]
    cases parent.method? method.text with
    | some closure => exact boundMethod_transfers closure receiver
    | none => exact .fail _ _

theorem newClass_transfers (name : String) (parent : Option Class) (methods : List (String × Closure)) :
    Transfers τ τ.value (Run.newClass name parent methods) (Run.newClass name (parent.map (Class.relabel τ.labels))
      (methods.map fun m => (m.1, m.2.relabel τ.labels))) := by
  refine addIdentity_transfers.map fun identity => ?_
  have hmethods := Bindings.setAll_map (Closure.relabel τ.labels) .empty methods
  rw [Bindings.empty_map] at hmethods
  rw [hmethods]
  cases parent <;> rfl

theorem declareClass_transfers (env : Environment) (name : Name) (parent : Option Reference) (methods : List Method) :
    Transfers τ id (Run.declareClass env name parent methods) (Run.declareClass env (name.relabel τ.labels)
      (parent.map (Reference.relabel τ.labels)) (methods.map (Method.relabel τ.labels))) := by
  have hmethods (inner : Environment) : (methods.map (Method.relabel τ.labels)).map (Run.methodClosure inner) =
      (methods.map (Run.methodClosure inner)).map fun m => (m.1, m.2.relabel τ.labels) := by
    rw [List.map_map, List.map_map]
    refine List.map_congr_left fun m _ => ?_
    cases m
    rfl
  refine (define_transfers env name.text .nil).bind fun _ => ?_
  cases parent with
  | none =>
    dsimp only [Option.map_none]
    rw [hmethods]
    exact (newClass_transfers name.text none _).bind fun v => define_transfers env name.text v
  | some use =>
    refine (read_transfers env use).bind fun v => ?_
    cases v with
    | «class» c =>
      dsimp only [Transfer.value, Value.relabel]
      have hinner := enter_transfers (τ := τ) env (Bindings.empty.set parentName (.class c))
      rw [← single_map] at hinner
      refine hinner.bind fun inner => ?_
      rw [id, hmethods]
      exact (newClass_transfers name.text (some c) _).bind fun v => define_transfers env name.text v
    | _ => exact .fail _ _

/-! ## Output and operators -/

theorem write_transfers (origin : Origin) (text : String) :
    Transfers τ id (Run.write origin text) (Run.write origin text) := fun m hm => by
  refine ⟨?_, hm⟩
  have hwrite := m.output.write_behind τ.written origin (Lines.encode text)
  unfold Run.write Transcript.writeText
  rw [show (τ.machine m).output = m.output.behind τ.written from rfl, hwrite]
  rfl

theorem writeLine_transfers (origin : Origin) (v : Value) :
    Transfers τ id (Run.writeLine origin v) (Run.writeLine origin (τ.value v)) := by
  refine .get fun m _ => ?_
  have hline : Run.lineOf? (τ.machine m) (τ.value v) = Run.lineOf? m v := by
    have htext : (τ.machine m).heap.text? (τ.value v) = m.heap.text? v := m.heap.relabel_text? τ.labels v
    have hopening (size : Nat) : (τ.machine m).heap.opening size (τ.value v) = m.heap.opening size v :=
      m.heap.relabel_opening τ.labels size v
    unfold Run.lineOf?
    simp only [htext, hopening]
    rfl
  rw [hline]
  cases Run.lineOf? m v with
  | none => exact .unfinished
  | some line =>
    refine (write_transfers origin line).bind fun accepted => ?_
    cases accepted with
    | false => exact fun _ hm => ⟨rfl, hm⟩
    | true => exact .pure rfl

theorem Value.Plain.relabel {v : Value} (h : v.Plain) (r : Relabeling) : v.relabel r = v := by
  cases v <;> first | rfl | exact h.elim

/-- A plain result has no labels. -/
theorem map_relabel_of_plain {ε : Type} {result : Except ε Value} (h : ∀ v, result = .ok v → v.Plain) (r : Relabeling) :
    result.map (Value.relabel r) = result := by
  cases result with
  | ok v => exact congrArg Except.ok ((h v rfl).relabel r)
  | error e => rfl

theorem binary_transfers (op : Operator TokenKind) (left right : Value) :
    Transfers τ τ.value (Run.binary op left right) (Run.binary (op.relabel τ.labels) (τ.value left) (τ.value right)) := by
  unfold Run.binary
  rw [Operator.relabel_kind]
  cases BinaryKind.ofToken? op.kind with
  | none => exact .crash _
  | some kind =>
    refine .operation fun heap => ?_
    exact (heap.relabel_binary τ.labels kind left right).trans (map_relabel_of_plain (fun _ => plain_binary) τ.labels).symm

theorem negate_transfers (line : Nat) (v : Value) :
    Transfers τ τ.value (Run.ofExcept line v.negate) (Run.ofExcept (τ.labels.line line) (τ.value v).negate) :=
  .ofExcept (by cases v <;> rfl)

theorem truthy_transfers (v : Value) :
    Transfers τ id (Run.look (·.truthy v)) (Run.look (·.truthy (τ.value v))) :=
  .look fun heap => heap.relabel_truthy τ.labels v

theorem subscript_transfers (line : Nat) (target index : Value) :
    Transfers τ τ.value (Run.operation line fun h => h.subscript target index)
      (Run.operation (τ.labels.line line) fun h => h.subscript (τ.value target) (τ.value index)) :=
  .operation fun heap => heap.relabel_subscript τ.labels target index

/-! ## Native functions -/

theorem readClock_transfers (line : Nat) :
    Transfers τ τ.value (Native.readClock line) (Native.readClock (τ.labels.line line)) := fun m hm => by
  unfold Native.readClock
  have hclock : (τ.machine m).clock = m.clock := rfl
  have hreadings : (τ.machine m).readings = m.readings := rfl
  dsimp only
  rw [hclock, hreadings]
  split <;> exact ⟨rfl, hm⟩

theorem nextLine_transfers (line : Nat) :
    Transfers τ τ.value (Native.nextLine line) (Native.nextLine (τ.labels.line line)) := fun m hm => by
  unfold Native.nextLine
  have hinput : (τ.machine m).input = m.input := rfl
  dsimp only
  rw [hinput]
  cases Lines.decode? (Lines.split m.input).1 <;> exact ⟨rfl, hm⟩

theorem readInput_transfers (line : Nat) (a : Argument) :
    Transfers τ τ.value (Native.readInput line a) (Native.readInput (τ.labels.line line) (τ.argument a)) := by
  obtain ⟨v, e⟩ := a
  cases v with
  | text prompt =>
    exact (write_transfers .prompt (prompt ++ "> ")).bind fun _ => .ite rfl (nextLine_transfers line) (.fail _ _)
  | _ => exact .fail _ _

theorem pause_transfers (line : Nat) (a : Argument) :
    Transfers τ τ.value (Native.pause line a) (Native.pause (τ.labels.line line) (τ.argument a)) := by
  obtain ⟨v, e⟩ := a
  cases v with
  | number seconds =>
    unfold Native.pause Transfer.argument Transfer.value Value.relabel
    dsimp only
    split
    · split
      · exact .crash _
      · exact .pure rfl
    · exact .fail _ _
  | _ => exact .fail _ _

theorem description_transfers (line : Nat) (a : Argument) :
    Transfers τ τ.value (Native.description line a) (Native.description (τ.labels.line line) (τ.argument a)) := by
  obtain ⟨v, e⟩ := a
  have hlabel : Native.label (e.relabel τ.labels) = Native.label e := by cases e <;> rfl
  cases v with
  | function identity c =>
    refine Transfers.pure (a := Value.text (Description.framed (Native.label e) (Description.closureLines "function" c))) ?_
    show Value.text (Description.framed (Native.label (e.relabel τ.labels))
      (Description.closureLines "function" (c.relabel τ.labels))) = _
    rw [hlabel, Description.relabel_closureLines]
    rfl
  | «class» c =>
    refine Transfers.pure (a := Value.text (Description.framed (Native.label e) (Description.classLines c))) ?_
    show Value.text (Description.framed (Native.label (e.relabel τ.labels))
      (Description.classLines (c.relabel τ.labels))) = _
    rw [hlabel, Description.relabel_classLines]
    rfl
  | _ => exact .fail _ _

theorem count_transfers (line : Nat) (a : Argument) :
    Transfers τ τ.value (Native.count line a) (Native.count (τ.labels.line line) (τ.argument a)) := by
  obtain ⟨v, e⟩ := a
  cases v with
  | text value => exact .pure rfl
  | list id =>
    have hcount : Transfers τ τ.value (Run.look fun h => .number (.ofNat (h.elements id).size))
        (Run.look fun h => .number (.ofNat (h.elements id).size)) :=
      .look fun heap => by rw [Heap.relabel_elements, Array.size_map]; rfl
    exact hcount
  | _ => exact .fail _ _

theorem argumentCount_transfers (line : Nat) (a : Argument) :
    Transfers τ τ.value (Native.argumentCount line a) (Native.argumentCount (τ.labels.line line) (τ.argument a)) := by
  unfold Native.argumentCount
  rw [show (τ.argument a).value.callable? = _ from a.value.relabel_callable? τ.labels]
  cases a.value.callable? with
  | none => exact .fail _ _
  | some callable => exact .pure (by rw [Callable.relabel_arity]; rfl)

theorem extend_transfers (line : Nat) (list element : Argument) :
    Transfers τ τ.value (Native.extend line list element)
      (Native.extend (τ.labels.line line) (τ.argument list) (τ.argument element)) := by
  obtain ⟨v, e⟩ := list
  cases v with
  | list id =>
    have hupdate : Transfers τ (fun u => u) (Run.update (·.append id element.value))
        (Run.update (·.append id (τ.value element.value))) :=
      .update fun heap => heap.relabel_append τ.labels id element.value
    exact hupdate.map fun _ => rfl
  | _ => exact .fail _ _

theorem registerConstant_transfers (line : Nat) (name result : Argument) :
    Transfers τ τ.value (Native.registerConstant line name result)
      (Native.registerConstant (τ.labels.line line) (τ.argument name) (τ.argument result)) := by
  have hname : Transfers τ (fun u => u) (Run.operation line (·.printed name.value))
      (Run.operation (τ.labels.line line) (·.printed (τ.value name.value))) :=
    .operation fun heap => by
      refine (heap.relabel_printed τ.labels name.value).trans ?_
      cases heap.printed name.value <;> rfl
  refine hname.bind fun text => ?_
  have hdefine : Transfers τ (fun u => u)
      (Run.update fun heap => heap.addIdentity.2.define Heap.topFrame text (.constant heap.addIdentity.1 result.value))
      (Run.update fun heap =>
        heap.addIdentity.2.define Heap.topFrame text (.constant heap.addIdentity.1 (τ.value result.value))) :=
    .update fun heap => heap.addIdentity.2.relabel_define τ.labels _ text (.constant heap.addIdentity.1 result.value)
  exact hdefine.map fun _ => rfl

theorem argument_transfers (arguments : List Argument) (position : Nat) :
    Transfers τ τ.argument (Native.argument arguments position) (Native.argument (arguments.map τ.argument) position) := by
  unfold Native.argument
  rw [List.getElem?_map]
  cases arguments[position]? with
  | none => exact .crash _
  | some a => exact .pure rfl

theorem native_transfers (line : Nat) (f : Native) (arguments : List Argument) :
    Transfers τ τ.value (f.run line arguments) (f.run (τ.labels.line line) (arguments.map τ.argument)) := by
  have hargument := argument_transfers (τ := τ) arguments
  cases f with
  | clock => exact readClock_transfers line
  | sleep => exact (hargument 0).bind fun a => pause_transfers line a
  | input => exact (hargument 0).bind fun a => readInput_transfers line a
  | describe => exact (hargument 0).bind fun a => description_transfers line a
  | length => exact (hargument 0).bind fun a => count_transfers line a
  | typeName => exact (hargument 0).bind fun a => .pure (congrArg Value.text (a.value.relabel_typeName τ.labels))
  | truthy =>
    exact (hargument 0).bind fun a => .look fun heap => congrArg Value.bool (heap.relabel_truthy τ.labels a.value)
  | number =>
    refine (hargument 0).bind fun a => ?_
    have hnumeral : Transfers τ (fun u => u) (Run.ofExcept line a.value.numeral)
        (Run.ofExcept (τ.labels.line line) (τ.value a.value).numeral) := by
      refine .ofExcept ?_
      rw [Transfer.value, Heap.relabel_numeral]
      cases a.value.numeral <;> rfl
    exact hnumeral.map fun _ => rfl
  | arity => exact (hargument 0).bind fun a => argumentCount_transfers line a
  | source => exact (hargument 0).bind fun a => .pure (congrArg Value.text (a.expr.printed_relabel τ.labels))
  | push => exact (hargument 0).bind fun a => (hargument 1).bind fun b => extend_transfers line a b
  | define => exact (hargument 0).bind fun a => (hargument 1).bind fun b => registerConstant_transfers line a b

end Operations

/-! ## Evaluation -/

open Evaluation

/-- All that is evaluated, called and executed within so many steps goes on in step. -/
structure TransfersAt (τ : Transfer) (steps : Nat) : Prop where
  eval : ∀ env e, Transfers τ τ.value (eval steps env e) (eval steps env (e.relabel τ.labels))
  evalAll : ∀ env es, Transfers τ (List.map τ.value) (evalAll steps env es)
    (evalAll steps env (es.map (Expr.relabel τ.labels)))
  call : ∀ line callee arguments, Transfers τ τ.value (call steps line callee arguments)
    (call steps (τ.labels.line line) (τ.value callee) (arguments.map τ.argument))
  instantiate : ∀ c arguments, Transfers τ τ.value (instantiate steps c arguments)
    (instantiate steps (c.relabel τ.labels) (arguments.map τ.value))
  invoke : ∀ c arguments, Transfers τ τ.value (invoke steps c arguments)
    (invoke steps (c.relabel τ.labels) (arguments.map τ.value))
  exec : ∀ env s, Transfers τ τ.flow (exec steps env s) (exec steps env (s.relabel τ.labels))
  execAll : ∀ env statements, Transfers τ τ.flow (execAll steps env statements)
    (execAll steps env (statements.map (Stmt.relabel τ.labels)))
  loop : ∀ env condition body increment, Transfers τ τ.flow (loop steps env condition body increment)
    (loop steps env (condition.relabel τ.labels) (body.relabel τ.labels) (increment.map (Expr.relabel τ.labels)))

section Steps

variable {τ : Transfer} {steps : Nat}

theorem eval_transfers (ih : TransfersAt τ steps) (env : Environment) (e : Expr) :
    Transfers τ τ.value (eval (steps + 1) env e) (eval (steps + 1) env (e.relabel τ.labels)) := by
  cases e with
  | literal value => exact .pure (Value.relabel_ofLiteral τ.labels value).symm
  | «variable» use => exact read_transfers env use
  | assign target value =>
    exact (ih.eval env value).bind fun v => (assign_transfers env target v).map fun _ => rfl
  | group inner => exact ih.eval env inner
  | unary op operand =>
    obtain ⟨kind, spelling, line⟩ := op
    refine (ih.eval env operand).bind fun v => ?_
    cases kind with
    | negate => exact negate_transfers line v
    | not => exact (truthy_transfers v).map fun _ => rfl
  | binary left op right =>
    exact (ih.eval env left).bind fun v => (ih.eval env right).bind fun u => binary_transfers op v u
  | logical left op right =>
    exact (ih.eval env left).bind fun v => (truthy_transfers v).bind fun _ => .ite rfl (.pure rfl) (ih.eval env right)
  | conditional condition thenBranch elseBranch =>
    exact (ih.eval env condition).bind fun v => (truthy_transfers v).bind fun _ =>
      .ite rfl (ih.eval env thenBranch) (ih.eval env elseBranch)
  | call callee line arguments =>
    rw [Expr.relabel, Expr.relabelAll_eq]
    refine (ih.eval env callee).bind fun v => (ih.evalAll env arguments).bind fun values => ?_
    have harguments : (values.map τ.value).zipWith Argument.mk (arguments.map (Expr.relabel τ.labels)) =
        (values.zipWith Argument.mk arguments).map τ.argument := by
      rw [List.zipWith_map, List.map_zipWith]
      rfl
    rw [harguments]
    exact ih.call line v _
  | get object name =>
    refine (ih.eval env object).bind fun v => ?_
    cases v with
    | object id c => exact property_transfers id c name
    | _ => exact .fail _ _
  | set object name value =>
    refine (ih.eval env object).bind fun v => ?_
    cases v with
    | object id c =>
      refine (ih.eval env value).bind fun u => ?_
      have hfield : Transfers τ (fun u => u) (Run.update (·.setField id name.text u))
          (Run.update (·.setField id name.text (τ.value u))) :=
        .update fun heap => heap.relabel_setField τ.labels id name.text u
      exact hfield.map fun _ => rfl
    | _ => exact .fail _ _
  | this id line => exact read_transfers env ⟨id, receiverName, line⟩
  | parent id keyword method => exact parentMethod_transfers env id keyword method
  | lambda f => exact newFunction_transfers ⟨.lambda, f, env, false⟩
  | list line elements =>
    rw [Expr.relabel, Expr.relabelAll_eq]
    refine (ih.evalAll env elements).bind fun values => ?_
    have hlist : Transfers τ (fun u => u) (Run.allocate (·.addList values.toArray))
        (Run.allocate (·.addList (values.map τ.value).toArray)) := by
      refine .allocate fun heap => ?_
      rw [← List.map_toArray]
      exact heap.relabel_addList τ.labels values.toArray
    exact hlist.map fun _ => rfl
  | index object line position =>
    exact (ih.eval env object).bind fun v => (ih.eval env position).bind fun u => subscript_transfers line v u

theorem evalAll_transfers (ih : TransfersAt τ steps) (env : Environment) (es : List Expr) :
    Transfers τ (List.map τ.value) (evalAll (steps + 1) env es)
      (evalAll (steps + 1) env (es.map (Expr.relabel τ.labels))) := by
  cases es with
  | nil => exact .pure rfl
  | cons e rest => exact (ih.eval env e).bind fun _ => (ih.evalAll env rest).map fun _ => rfl

theorem call_transfers (ih : TransfersAt τ steps) (line : Nat) (callee : Value) (arguments : List Argument) :
    Transfers τ τ.value (call (steps + 1) line callee arguments)
      (call (steps + 1) (τ.labels.line line) (τ.value callee) (arguments.map τ.argument)) := by
  have hvalues : (arguments.map τ.argument).map (·.value) = (arguments.map (·.value)).map τ.value := by
    rw [List.map_map, List.map_map]
    rfl
  unfold call
  rw [show (τ.value callee).callable? = _ from callee.relabel_callable? τ.labels]
  cases callee.callable? with
  | none => exact .fail _ _
  | some callable =>
    dsimp only [Option.map_some]
    rw [List.length_map, Callable.relabel_arity, hvalues]
    refine .ite rfl (.fail _ _) (.nested line ?_)
    cases callable with
    | native f => exact native_transfers line f arguments
    | constant result => exact .pure rfl
    | closure c => exact ih.invoke c _
    | «class» c => exact ih.instantiate c _

theorem instantiate_transfers (ih : TransfersAt τ steps) (c : Class) (arguments : List Value) :
    Transfers τ τ.value (instantiate (steps + 1) c arguments)
      (instantiate (steps + 1) (c.relabel τ.labels) (arguments.map τ.value)) := by
  have hobject : Transfers τ (fun u => u) (Run.allocate (·.addObject)) (Run.allocate (·.addObject)) :=
    .allocate fun heap => heap.relabel_addObject τ.labels
  refine hobject.bind fun id => ?_
  rw [Class.relabel_method?]
  cases c.method? initializerName with
  | none => exact .pure rfl
  | some initializer =>
    refine (bindReceiver_transfers initializer (.object id c)).bind fun bound => ?_
    exact (ih.invoke bound arguments).map fun _ => rfl

theorem invoke_transfers (ih : TransfersAt τ steps) (c : Closure) (arguments : List Value) :
    Transfers τ τ.value (invoke (steps + 1) c arguments)
      (invoke (steps + 1) (c.relabel τ.labels) (arguments.map τ.value)) := by
  have hparameters : Bindings.empty.setAll (((c.relabel τ.labels).function.params.map (·.text)).zip (arguments.map τ.value)) =
      (Bindings.empty.setAll ((c.function.params.map (·.text)).zip arguments)).map τ.value := by
    rw [← Bindings.setAll_map, Bindings.empty_map, Closure.relabel, Function.relabel_params_text, List.zip_map_right]
    rfl
  have hbody : (c.relabel τ.labels).function.body = c.function.body.map (Stmt.relabel τ.labels) :=
    Function.relabel_body τ.labels c.function
  unfold invoke
  dsimp only
  rw [hparameters, hbody]
  refine (enter_transfers c.environment _).bind fun inner => (ih.execAll inner c.function.body).bind fun flow => ?_
  refine .ite rfl (.look fun heap => ?_) ?_
  · show (((heap.relabel τ.labels).get? c.environment 0 receiverName).getD .nil) = _
    rw [Heap.relabel_get?]
    cases heap.get? c.environment 0 receiverName <;> rfl
  · cases flow <;> exact .pure rfl

/-! ### Statements -/

theorem exec_transfers (ih : TransfersAt τ steps) (env : Environment) (s : Stmt) :
    Transfers τ τ.flow (exec (steps + 1) env s) (exec (steps + 1) env (s.relabel τ.labels)) := by
  cases s with
  | expression value =>
    refine (ih.eval env value).bind fun v => .get fun m _ => ?_
    exact .ite rfl ((writeLine_transfers .echoed v).map fun _ => rfl) (.pure rfl)
  | print line value => exact (ih.eval env value).bind fun v => (writeLine_transfers .printed v).map fun _ => rfl
  | var name initializer =>
    cases initializer with
    | none => exact (define_transfers env name.text .nil).map fun _ => rfl
    | some initializer =>
      exact (ih.eval env initializer).bind fun v => (define_transfers env name.text v).map fun _ => rfl
  | block body =>
    rw [Stmt.relabel, Stmt.relabelAll_eq]
    have henter := enter_transfers (τ := τ) env .empty
    rw [Bindings.empty_map] at henter
    exact henter.bind fun inner => ih.execAll inner body
  | branch condition thenBranch elseBranch =>
    cases elseBranch with
    | none =>
      exact (ih.eval env condition).bind fun v => (truthy_transfers v).bind fun _ => .ite rfl (ih.exec env thenBranch) (.pure rfl)
    | some elseBranch =>
      exact (ih.eval env condition).bind fun v => (truthy_transfers v).bind fun _ =>
        .ite rfl (ih.exec env thenBranch) (ih.exec env elseBranch)
  | loop condition body increment =>
    cases increment with
    | none => exact ih.loop env condition body none
    | some increment => exact ih.loop env condition body (some increment)
  | «break» line => exact .pure rfl
  | «continue» line => exact .pure rfl
  | «return» line value =>
    cases value with
    | none => exact .pure rfl
    | some value => exact (ih.eval env value).map fun _ => rfl
  | function name f =>
    exact (newFunction_transfers ⟨.function name.text, f, env, false⟩).bind fun v =>
      (define_transfers env name.text v).map fun _ => rfl
  | «class» name parent methods =>
    rw [Stmt.relabel, Method.relabelAll_eq]
    exact (declareClass_transfers env name parent methods).map fun _ => rfl
  | empty => exact .pure rfl

theorem execAll_transfers (ih : TransfersAt τ steps) (env : Environment) (statements : List Stmt) :
    Transfers τ τ.flow (execAll (steps + 1) env statements)
      (execAll (steps + 1) env (statements.map (Stmt.relabel τ.labels))) := by
  cases statements with
  | nil => exact .pure rfl
  | cons s rest =>
    refine (ih.exec env s).bind fun flow => ?_
    cases flow with
    | normal => exact ih.execAll env rest
    | _ => exact .pure rfl

theorem loop_transfers (ih : TransfersAt τ steps) (env : Environment) (condition : Expr) (body : Stmt)
    (increment : Option Expr) :
    Transfers τ τ.flow (loop (steps + 1) env condition body increment)
      (loop (steps + 1) env (condition.relabel τ.labels) (body.relabel τ.labels)
        (increment.map (Expr.relabel τ.labels))) := by
  refine (ih.eval env condition).bind fun v => (truthy_transfers v).bind fun _ => .ite rfl ?_ (.pure rfl)
  refine (ih.exec env body).bind fun flow => ?_
  cases flow with
  | «break» | «return» v => exact .pure rfl
  | normal | «continue» =>
    cases increment with
    | none => exact ih.loop env condition body none
    | some increment => exact (ih.eval env increment).bind fun _ => ih.loop env condition body (some increment)

theorem transfersAt (τ : Transfer) (steps : Nat) : TransfersAt τ steps := by
  induction steps with
  | zero => constructor <;> intros <;> exact .unfinished
  | succ steps ih =>
    exact ⟨eval_transfers ih, evalAll_transfers ih, call_transfers ih, instantiate_transfers ih, invoke_transfers ih,
      exec_transfers ih, execAll_transfers ih, loop_transfers ih⟩

theorem program_transfers (τ : Transfer) (steps : Nat) (statements : List Stmt) :
    Transfers τ id (program steps statements) (program steps (statements.map (Stmt.relabel τ.labels))) := by
  induction statements with
  | nil => exact .pure rfl
  | cons s rest ih => exact ((transfersAt τ steps).exec [] s).bind fun _ => ih

end Steps

end TreeWalk
