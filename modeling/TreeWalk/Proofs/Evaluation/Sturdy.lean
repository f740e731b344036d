import TreeWalk.Evaluation
import TreeWalk.Proofs.Evaluation.Contents
import TreeWalk.Proofs.Evaluation.Results
import TreeWalk.Proofs.Sequencing
import TreeWalk.Proofs.Syntax.Nodes

/-!
# Operations do not crash

A heap is sturdy if all functions in it are made of settled nodes and none of them declares names at top
level. From a sturdy heap no operation of the machine crashes, whatever the table of distances says, with one
exception that `Stop.Tolerable` names, and it leaves a sturdy heap behind.
-/

namespace TreeWalk

/-! ## Sturdy heaps -/

/-- What is declared in the environment does not take effect at top level. -/
def Environment.Sturdy (env : Environment) : Prop := Heap.topFrame ∉ env

structure Closure.Sturdy (c : Closure) : Prop where
  settled : ∀ s ∈ c.function.body, (Node.stmt s).Every Node.Settled
  environment : c.environment.Sturdy

def Class.Sturdy (c : Class) : Prop :=
  ∀ own ∈ c.lineage, ∀ name method, own.methods.get? name = some method → method.Sturdy

/-- All functions to which the value leads are made of settled nodes, and none of them declares names at top
level. -/
def Value.Sturdy : Value → Prop
  | .native _ f => f ≠ .define
  | .constant _ result => result.Sturdy
  | .function _ c => c.Sturdy
  | .class c => c.Sturdy
  | .object _ c => c.Sturdy
  | _ => True

/-- What is asked of the names at top level: some of them are bound, and others than the allowed ones are not. -/
structure TopNames where
  bound : String → Prop
  allowed : String → Prop

def TopNames.any : TopNames := ⟨fun _ => False, fun _ => True⟩

/-- All values in the heap are sturdy, and the names at top level are as they are asked to be. -/
structure Heap.Sturdy (names : TopNames) (h : Heap) : Prop where
  nonempty : 0 < h.frames.size
  kept : ∀ name, names.bound name → h.globals.contains name = true
  top : ∀ name, h.globals.contains name = true → names.allowed name
  frames : ∀ id name v, (h.frame id).get? name = some v → v.Sturdy
  elements : ∀ id, ∀ v ∈ h.elements id, v.Sturdy
  fields : ∀ id name v, (h.fields id).get? name = some v → v.Sturdy

theorem Value.Plain.sturdy {v : Value} (h : v.Plain) : v.Sturdy := by
  cases v <;> trivial

theorem Class.Sturdy.method {c : Class} (h : c.Sturdy) {name : String} {method : Closure}
    (hmethod : c.method? name = some method) : method.Sturdy := by
  obtain ⟨own, hown, hget⟩ := List.exists_of_findSome?_eq_some hmethod
  exact h own hown name method hget

/-- A function that is made of settled nodes can be closed over. -/
theorem Closure.sturdy_of_every {role : FunctionRole} {f : Function} (h : (Node.function role f).Every Node.Settled)
    (name : ClosureName) {env : Environment} (henv : env.Sturdy) (isInitializer : Bool) :
    (Closure.mk name f env isInitializer).Sturdy :=
  ⟨fun s hs => h.child _ (by simpa using hs), henv⟩

namespace Heap

variable {names : TopNames} {h : Heap} {v : Value}

theorem Sturdy.mono (hh : h.Sturdy names) {names' : TopNames}
    (hbound : ∀ name, names'.bound name → h.globals.contains name = true)
    (hallowed : ∀ name, h.globals.contains name = true → names'.allowed name) : h.Sturdy names' :=
  { hh with kept := hbound, top := hallowed }

theorem contains_globals_define (id : FrameId) (name other : String)
    (hother : (h.define id name v).globals.contains other = true) :
    id = topFrame ∧ other = name ∨ h.globals.contains other = true := by
  by_cases hid : id = topFrame
  · subst hid
    by_cases hname : other = name
    · exact .inl ⟨rfl, hname⟩
    · refine .inr ?_
      unfold globals at hother ⊢
      by_cases htop : topFrame < h.frames.size
      · rwa [frame_define h topFrame name v htop, if_pos rfl, Bindings.contains, Bindings.get?_set, if_neg hname] at hother
      · have hnone : h.frames = #[] := Array.eq_empty_of_size_eq_zero (Nat.eq_zero_of_not_pos htop)
        simpa [define, frame, hnone] using hother
  · refine .inr ?_
    have hsame : (h.define id name v).frame topFrame = h.frame topFrame := by
      simp [define, frame, Array.getElem?_modify, hid]
    unfold globals at hother
    rwa [hsame] at hother

theorem contains_define (id : FrameId) (name : String) (v : Value) {i : FrameId} {other : String}
    (h' : (h.frame i).contains other = true) : ((h.define id name v).frame i).contains other = true := by
  by_cases hid : id < h.frames.size
  · rw [frame_define h i name v hid]
    split
    case isTrue hi =>
      subst hi
      rw [Bindings.contains, Bindings.get?_set]
      split
      · rfl
      · exact h'
    case isFalse => exact h'
  · have hsame : h.define id name v = h := by simp [define, Array.modify, Array.modifyM, hid]
    rwa [hsame]

theorem Sturdy.define (hh : h.Sturdy names) {id : FrameId} {name : String} (hname : id = topFrame → names.allowed name)
    (hv : v.Sturdy) : (h.define id name v).Sturdy names :=
  { hh with
    nonempty := by simpa [Heap.define] using hh.nonempty
    kept := fun other hother => contains_define id name v (hh.kept other hother)
    top := fun other hother => by
      rcases contains_globals_define id name other hother with ⟨hid, rfl⟩ | hother
      · exact hname hid
      · exact hh.top other hother
    frames := fun other n u hu => by
      rcases of_get?_define hu with rfl | hu
      · exact hv
      · exact hh.frames other n u hu }

theorem globals_addFrame (hnonempty : 0 < h.frames.size) {bindings : Bindings Value} :
    (h.addFrame bindings).2.globals = h.globals := by
  have hold : topFrame ≠ h.frames.size := Nat.ne_of_lt hnonempty
  rw [globals, frame_addFrame, if_neg hold, globals]

theorem Sturdy.addFrame (hh : h.Sturdy names) {bindings : Bindings Value}
    (hbindings : ∀ name v, bindings.get? name = some v → v.Sturdy) : (h.addFrame bindings).2.Sturdy names :=
  { hh with
    nonempty := by simp [Heap.addFrame]
    kept := fun name hname => globals_addFrame hh.nonempty ▸ hh.kept name hname
    top := fun name hname => hh.top name (globals_addFrame hh.nonempty ▸ hname)
    frames := fun other n u hu => by
      rw [frame_addFrame] at hu
      split at hu
      · exact hbindings n u hu
      · exact hh.frames other n u hu }

theorem Sturdy.addList (hh : h.Sturdy names) {elements : Array Value} (hv : ∀ v ∈ elements, v.Sturdy) :
    (h.addList elements).2.Sturdy names :=
  { hh with
    elements := fun other u hu => by
      rw [elements_addList] at hu
      split at hu
      · exact hv u hu
      · exact hh.elements other u hu }

theorem Sturdy.append (hh : h.Sturdy names) (id : ListId) (hv : v.Sturdy) : (h.append id v).Sturdy names :=
  { hh with
    elements := fun other u hu => by
      rcases of_mem_append hu with rfl | hu
      · exact hv
      · exact hh.elements other u hu }

theorem Sturdy.addObject (hh : h.Sturdy names) : h.addObject.2.Sturdy names :=
  { hh with fields := fun other n u hu => hh.fields other n u (by rwa [fields_addObject] at hu) }

theorem Sturdy.setField (hh : h.Sturdy names) (id : ObjectId) (name : String) (hv : v.Sturdy) :
    (h.setField id name v).Sturdy names :=
  { hh with
    fields := fun other n u hu => by
      rcases of_get?_setField hu with rfl | hu
      · exact hv
      · exact hh.fields other n u hu }

theorem Sturdy.addIdentity (hh : h.Sturdy names) : h.addIdentity.2.Sturdy names := { hh with }

theorem Sturdy.get? (hh : h.Sturdy names) {env : Environment} {d : Nat} {name : String} (hv : h.get? env d name = some v) :
    v.Sturdy := by
  obtain ⟨id, -, hget⟩ := Option.bind_eq_some_iff.1 hv
  exact hh.frames id name v hget

theorem sturdy_initial : Heap.initial.Sturdy .any where
  nonempty := Nat.zero_lt_one
  kept _ hname := hname.elim
  top name hname := by cases hname
  frames id name v hv := by simp [Bindings.get?_empty] at hv
  elements id v hv := by simp at hv
  fields id name v hv := by simp [Bindings.get?_empty] at hv

theorem Sturdy.register (hh : h.Sturdy .any) {natives : List (String × Native)}
    (hnatives : ∀ native ∈ natives, native.2 ≠ .define) : (Native.register natives h).Sturdy .any := by
  induction natives generalizing h with
  | nil => exact hh
  | cons native rest ih =>
    obtain ⟨hnative, hrest⟩ := List.forall_mem_cons.1 hnatives
    exact ih (hh.addIdentity.define (fun _ => trivial) hnative) hrest

end Heap

/-! ## Safe computations -/

/-- A run may stop at a fault or after its last step. It crashes only in a pause for which there are too
many seconds. -/
def Stop.Tolerable : Stop → Prop
  | .crash cause =>
    ∃ seconds, cause = .pauseTooLong seconds ∧ (0 ≤ seconds && seconds.isFinite) = true ∧ Native.pauseLimit ≤ seconds
  | _ => True

/-- A computation has come to a sturdy heap, with such a result or a tolerable end. -/
def Lands {α : Type} (names : TopNames) (post : α → Prop) : EStateM.Result Stop Machine α → Prop
  | .ok a m => m.heap.Sturdy names ∧ post a
  | .error stop m => m.heap.Sturdy names ∧ stop.Tolerable

def Safe {α : Type} (names : TopNames) (x : Run α) (post : α → Prop) : Prop :=
  ∀ m, m.heap.Sturdy names → Lands names post (x m)

namespace Safe

variable {α β : Type} {names : TopNames} {x : Run α} {post post' : α → Prop} {postβ : β → Prop}

theorem pure {a : α} (h : post a) : Safe names (Pure.pure a) post := fun _ hm => ⟨hm, h⟩

theorem bind {f : α → Run β} (hx : Safe names x post) (hf : ∀ a, post a → Safe names (f a) postβ) :
    Safe names (x >>= f) postβ := by
  intro m hm
  have hfirst := hx m hm
  rw [bind_eq_match]
  cases hxm : x m with
  | error stop m' => rwa [hxm] at hfirst
  | ok a m' =>
    rw [hxm] at hfirst
    exact hf a hfirst.2 m' hfirst.1

theorem mono (h : Safe names x post) (hpost : ∀ a, post a → post' a) : Safe names x post' := by
  intro m hm
  have hx := h m hm
  cases hxm : x m with
  | error stop m' => rwa [hxm] at hx
  | ok a m' =>
    rw [hxm] at hx
    exact ⟨hx.1, hpost a hx.2⟩

/-- A computation that leaves the heap as it is. -/
theorem of_same (h : ∀ m, m.heap.Sturdy names → match x m with
    | .ok a m' => m'.heap = m.heap ∧ post a
    | .error stop m' => m'.heap = m.heap ∧ stop.Tolerable) : Safe names x post := by
  intro m hm
  have hx := h m hm
  cases hxm : x m with
  | ok a m' =>
    rw [hxm] at hx
    exact ⟨hx.1 ▸ hm, hx.2⟩
  | error stop m' =>
    rw [hxm] at hx
    exact ⟨hx.1 ▸ hm, hx.2⟩

theorem fail (line : Nat) (cause : FaultCause) : Safe names (Run.fail line cause) post := of_same fun _ _ => ⟨rfl, trivial⟩

theorem unfinished : Safe names Run.unfinished post := of_same fun _ _ => ⟨rfl, trivial⟩

theorem get : Safe names (MonadState.get : Run Machine) fun _ => True := of_same fun _ _ => ⟨rfl, trivial⟩

theorem look {f : Heap → α} (h : ∀ heap : Heap, heap.Sturdy names → post (f heap)) : Safe names (Run.look f) post :=
  of_same fun m hm => ⟨rfl, h m.heap hm⟩

theorem update {f : Heap → Heap} (h : ∀ heap : Heap, heap.Sturdy names → (f heap).Sturdy names) :
    Safe names (Run.update f) fun _ => True := fun m hm => ⟨h m.heap hm, trivial⟩

theorem allocate {f : Heap → α × Heap} (h : ∀ heap : Heap, heap.Sturdy names → (f heap).2.Sturdy names ∧ post (f heap).1) :
    Safe names (Run.allocate f) post := fun m hm => h m.heap hm

theorem ofExcept {line : Nat} {result : Except FaultCause α} (h : ∀ a, result = .ok a → post a) :
    Safe names (Run.ofExcept line result) post := by
  cases result with
  | ok a => exact .pure (h a rfl)
  | error cause => exact fail line cause

theorem operation {line : Nat} {f : Heap → Except Failure α}
    (h : ∀ heap : Heap, heap.Sturdy names → ∀ a, f heap = .ok a → post a) : Safe names (Run.operation line f) post := by
  refine of_same fun m hm => ?_
  unfold Run.operation
  cases hf : f m.heap with
  | ok a => exact ⟨rfl, h m.heap hm a hf⟩
  | error failure => cases failure <;> exact ⟨rfl, trivial⟩

/-- Calls in progress are only counted. -/
theorem nested (line : Nat) (h : Safe names x post) : Safe names (Run.nested line x) post := by
  intro m hm
  unfold Run.nested
  by_cases hdepth : (m.depth == maxDepth) = true
  · rw [if_pos hdepth]
    exact ⟨hm, trivial⟩
  · rw [if_neg hdepth]
    have hx := h { m with depth := m.depth + 1 } hm
    cases hxm : x { m with depth := m.depth + 1 } <;> rwa [hxm] at hx

end Safe

/-! ## Variables and functions -/

section Operations

variable {names : TopNames} {v : Value}

theorem safe_read (env : Environment) (use : Reference) : Safe names (Run.read env use) Value.Sturdy := by
  refine .of_same fun m hm => ?_
  rcases Run.read_cases m env use with ⟨id, v, -, hget, hread⟩ | hread
  · rw [hread]
    exact ⟨rfl, hm.frames id _ v hget⟩
  · rw [hread]
    exact ⟨rfl, trivial⟩

theorem safe_assign (env : Environment) (use : Reference) (hv : v.Sturdy) :
    Safe names (Run.assign env use v) fun _ => True := by
  intro m hm
  rcases Run.assign_cases m env use v with ⟨id, -, hbinds, hassign⟩ | hassign
  · rw [hassign]
    refine ⟨hm.define (fun htop => ?_) hv, trivial⟩
    subst htop
    exact hm.top _ hbinds
  · rw [hassign]
    exact ⟨hm, trivial⟩

theorem Environment.Sturdy.eq_nil {env : Environment} (h : env.Sturdy) (htop : Heap.innermost env = Heap.topFrame) :
    env = [] := by
  cases env with
  | nil => rfl
  | cons id outer => exact absurd (htop ▸ List.mem_cons_self) h

theorem safe_define {env : Environment} (henv : env.Sturdy) {name : String} (hname : env = [] → names.allowed name)
    (hv : v.Sturdy) : Safe names (Run.define env name v) fun _ => True :=
  .update fun _ hh => hh.define (fun htop => hname (henv.eq_nil htop)) hv

/-- A frame is entered, which is not the top level. -/
theorem safe_enter {env : Environment} (henv : env.Sturdy) {bindings : Bindings Value}
    (hbindings : ∀ name v, bindings.get? name = some v → v.Sturdy) :
    Safe names (Run.enter env bindings) fun inner => Environment.Sturdy inner ∧ inner ≠ [] := by
  have hframe : Safe names (Run.allocate (·.addFrame bindings)) fun id => id ≠ Heap.topFrame :=
    .allocate fun _ hh => ⟨hh.addFrame hbindings, Nat.ne_of_gt hh.nonempty⟩
  refine hframe.bind fun id hid => .pure ⟨fun hmem => ?_, List.cons_ne_nil id env⟩
  rcases List.mem_cons.1 hmem with htop | hmem
  · exact hid htop.symm
  · exact henv hmem

theorem safe_addIdentity : Safe names (Run.allocate (·.addIdentity)) fun _ => True :=
  .allocate fun _ hh => ⟨hh.addIdentity, trivial⟩

theorem safe_newFunction {c : Closure} (hc : c.Sturdy) : Safe names (Run.newFunction c) Value.Sturdy :=
  safe_addIdentity.bind fun _ _ => .pure hc

/-- One binding and no more. -/
theorem sturdy_single {name : String} (hv : v.Sturdy) (other : String) (u : Value)
    (hu : (Bindings.empty.set name v).get? other = some u) : u.Sturdy := by
  rw [Bindings.get?_set] at hu
  split at hu
  · exact Option.some.inj hu ▸ hv
  · simp [Bindings.get?_empty] at hu

theorem safe_bindReceiver {method : Closure} (hmethod : method.Sturdy) (hv : v.Sturdy) :
    Safe names (Run.bindReceiver method v) Closure.Sturdy :=
  (safe_enter hmethod.environment (sturdy_single hv)).bind fun _ hinner => .pure { hmethod with environment := hinner.1 }

theorem safe_boundMethod {method : Closure} (hmethod : method.Sturdy) (hv : v.Sturdy) :
    Safe names (do Run.newFunction (← Run.bindReceiver method v)) Value.Sturdy :=
  (safe_bindReceiver hmethod hv).bind fun _ hc => safe_newFunction hc

theorem safe_property {c : Class} (hc : c.Sturdy) (id : ObjectId) (name : Name) :
    Safe names (Run.property id c name) Value.Sturdy := by
  have hfield : Safe names (Run.look fun h => (h.fields id).get? name.text) fun o => ∀ v ∈ o, v.Sturdy :=
    .look fun _ hh v hv => hh.fields id name.text v hv
  refine hfield.bind fun o ho => ?_
  cases o with
  | some v => exact .pure (ho v rfl)
  | none =>
    dsimp only
    cases hmethod : c.method? name.text with
    | some method => exact safe_boundMethod (hc.method hmethod) hc
    | none => exact .fail _ _

/-- Without a class or a receiver at the distances that the table gives, there is a fault. -/
theorem safe_parentMethod (env : Environment) (id : NodeId) (keyword method : Name) :
    Safe names (Run.parentMethod env id keyword method) Value.Sturdy := by
  have hget : Safe names (MonadState.get : Run Machine) fun m => m.heap.Sturdy names := .of_same fun _ hm => ⟨rfl, hm⟩
  refine hget.bind fun m hm => ?_
  split
  · exact .fail _ _
  · exact .fail _ _
  case h_3 parent receiver hfound =>
    obtain ⟨d, -, hparent, hreceiver⟩ := Run.of_parentOf? hfound
    obtain ⟨inner, -, hreceiver⟩ := hreceiver receiver rfl
    have hc : parent.Sturdy := hm.get? hparent
    have hv : receiver.Sturdy := hm.get? hreceiver
    cases hmethod : parent.method? method.text with
    | some closure => exact safe_boundMethod (hc.method hmethod) hv
    | none => exact .fail _ _

theorem safe_newClass {parent : Option Class} (hparent : ∀ c ∈ parent, c.Sturdy) {methods : List (String × Closure)}
    (hmethods : ∀ m ∈ methods, m.2.Sturdy) (name : String) : Safe names (Run.newClass name parent methods) Value.Sturdy := by
  refine safe_addIdentity.bind fun identity _ => .pure fun own hown => ?_
  rcases List.mem_cons.1 hown with rfl | hown
  · intro other method hget
    rcases Bindings.of_get?_setAll hget with hempty | hmem
    · cases hempty
    · exact hmethods _ hmem
  · cases parent with
    | none => cases hown
    | some c => exact hparent c rfl own hown

/-- The methods of a class that is made of settled nodes can be closed over. -/
theorem sturdy_methodClosures {name : Name} {parent : Option Reference} {methods : List Method}
    (h : (Node.stmt (.class name parent methods)).Every Node.Settled) {env : Environment} (henv : env.Sturdy) :
    ∀ m ∈ methods.map (Run.methodClosure env), m.2.Sturdy := by
  intro m hm
  obtain ⟨⟨name', f⟩, hmethod, rfl⟩ := List.mem_map.1 hm
  have hfunction : (Node.function (methodRole name') f).Every Node.Settled := h.child _ (by
    rw [Node.children_class]
    exact List.mem_append_right _ (List.mem_map_of_mem (f := fun m => Node.function (methodRole m.name) m.function) hmethod))
  exact Closure.sturdy_of_every hfunction _ henv _

theorem safe_declareClass {env : Environment} (henv : env.Sturdy) {name : Name} (hname : env = [] → names.allowed name.text)
    {parent : Option Reference} {methods : List Method}
    (h : (Node.stmt (.class name parent methods)).Every Node.Settled) :
    Safe names (Run.declareClass env name parent methods) fun _ => True := by
  have hdefine {v : Value} (hv : v.Sturdy) : Safe names (Run.define env name.text v) fun _ => True :=
    safe_define henv hname hv
  have hmethods {inner : Environment} (hinner : inner.Sturdy) := sturdy_methodClosures h hinner
  refine (hdefine (v := .nil) trivial).bind fun _ _ => ?_
  cases parent with
  | none => exact (safe_newClass (by simp) (hmethods henv) name.text).bind fun _ hv => hdefine hv
  | some use =>
    refine (safe_read env use).bind fun found hfound => ?_
    cases found with
    | «class» c =>
      refine (safe_enter henv (sturdy_single (v := .class c) hfound)).bind fun inner hinner => ?_
      refine (safe_newClass (fun _ h => ?_) (hmethods hinner.1) name.text).bind fun _ hv => hdefine hv
      exact Option.some.inj h ▸ hfound
    | _ => exact .fail _ _

/-! ## Output and operators -/

theorem safe_write (origin : Origin) (text : String) : Safe names (Run.write origin text) fun _ => True :=
  .of_same fun _ _ => ⟨rfl, trivial⟩

theorem safe_writeLine (origin : Origin) (v : Value) : Safe names (Run.writeLine origin v) fun _ => True := by
  refine Safe.get.bind fun m _ => ?_
  cases Run.lineOf? m v with
  | none => exact .unfinished
  | some line =>
    refine (safe_write origin line).bind fun accepted _ => ?_
    cases accepted with
    | false => exact .of_same fun _ _ => ⟨rfl, trivial⟩
    | true => exact .pure trivial

theorem safe_binary {op : Operator TokenKind} (h : (BinaryKind.ofToken? op.kind).isSome = true) (left right : Value) :
    Safe names (Run.binary op left right) Value.Sturdy := by
  obtain ⟨kind, hkind⟩ := Option.isSome_iff_exists.1 h
  unfold Run.binary
  rw [hkind]
  exact .operation fun _ _ _ hresult => (plain_binary hresult).sturdy

theorem safe_subscript (line : Nat) (target index : Value) :
    Safe names (Run.operation line fun h => h.subscript target index) Value.Sturdy := by
  refine .operation fun heap hh result hresult => ?_
  rcases plain_or_mem_of_subscript hresult with hplain | ⟨id, hmem⟩
  · exact hplain.sturdy
  · exact hh.elements id _ hmem

/-! ## Native functions -/

theorem safe_pause (line : Nat) (argument : Argument) : Safe names (Native.pause line argument) Value.Sturdy := by
  unfold Native.pause
  split
  case h_1 seconds _ =>
    split
    case isTrue haccepted =>
      split
      case isTrue hlimit => exact .of_same fun _ _ => ⟨rfl, seconds, rfl, haccepted, hlimit⟩
      case isFalse => exact .pure trivial
    case isFalse => exact .fail _ _
  case h_2 => exact .fail _ _

theorem safe_readClock (line : Nat) : Safe names (Native.readClock line) Value.Sturdy := by
  refine .of_same fun m _ => ?_
  unfold Native.readClock
  dsimp only
  by_cases hearly : m.clock m.readings < 0
  · rw [if_pos hearly]
    exact ⟨rfl, trivial⟩
  · rw [if_neg hearly]
    exact ⟨rfl, trivial⟩

theorem safe_readInput (line : Nat) (argument : Argument) : Safe names (Native.readInput line argument) Value.Sturdy := by
  unfold Native.readInput
  split
  · refine (safe_write _ _).bind fun accepted _ => ?_
    split
    · refine .of_same fun m _ => ?_
      unfold Native.nextLine
      dsimp only
      cases Lines.decode? (Lines.split m.input).1 <;> exact ⟨rfl, trivial⟩
    · exact .fail _ _
  · exact .fail _ _

theorem safe_description (line : Nat) (argument : Argument) : Safe names (Native.description line argument) Value.Sturdy := by
  unfold Native.description
  dsimp only
  split
  · exact .pure trivial
  · exact .pure trivial
  · exact .fail _ _

theorem safe_count (line : Nat) (argument : Argument) : Safe names (Native.count line argument) Value.Sturdy := by
  unfold Native.count
  split
  · exact .pure trivial
  · exact .look fun _ _ => trivial
  · exact .fail _ _

theorem safe_argumentCount (line : Nat) (argument : Argument) :
    Safe names (Native.argumentCount line argument) Value.Sturdy := by
  unfold Native.argumentCount
  split
  · exact .pure trivial
  · exact .fail _ _

theorem safe_extend (line : Nat) {list element : Argument} (hlist : list.value.Sturdy) (helement : element.value.Sturdy) :
    Safe names (Native.extend line list element) Value.Sturdy := by
  unfold Native.extend
  split
  · exact (Safe.update fun _ hh => hh.append _ helement).bind fun _ _ => .pure hlist
  · exact .fail _ _

theorem safe_argument {arguments : List Argument} (h : ∀ a ∈ arguments, a.value.Sturdy) {position : Nat}
    (hposition : position < arguments.length) : Safe names (Native.argument arguments position) fun a => a.value.Sturdy := by
  unfold Native.argument
  rw [List.getElem?_eq_getElem hposition]
  exact .pure (h _ (List.getElem_mem _))

/-- A native function finds all arguments that it looks for. -/
theorem safe_native (line : Nat) {f : Native} (hf : f ≠ .define) {arguments : List Argument}
    (h : ∀ a ∈ arguments, a.value.Sturdy) (hlength : arguments.length = f.parameters) : Safe names (f.run line arguments) Value.Sturdy := by
  have hargument (position : Nat) (hposition : position < f.parameters) :
      Safe names (Native.argument arguments position) fun a => a.value.Sturdy :=
    safe_argument h (hlength ▸ hposition)
  cases f with
  | clock => exact safe_readClock line
  | sleep => exact (hargument 0 (by decide)).bind fun _ _ => safe_pause _ _
  | input => exact (hargument 0 (by decide)).bind fun _ _ => safe_readInput _ _
  | describe => exact (hargument 0 (by decide)).bind fun _ _ => safe_description _ _
  | length => exact (hargument 0 (by decide)).bind fun _ _ => safe_count _ _
  | typeName => exact (hargument 0 (by decide)).bind fun _ _ => .pure trivial
  | truthy => exact (hargument 0 (by decide)).bind fun _ _ => .look fun _ _ => trivial
  | number =>
    refine (hargument 0 (by decide)).bind fun a _ => ?_
    have hnumeral : Safe names (Run.ofExcept line (Value.numeral a.value)) fun _ => True := .ofExcept fun _ _ => trivial
    exact hnumeral.bind fun _ _ => .pure trivial
  | arity => exact (hargument 0 (by decide)).bind fun _ _ => safe_argumentCount _ _
  | source => exact (hargument 0 (by decide)).bind fun _ _ => .pure trivial
  | push =>
    exact (hargument 0 (by decide)).bind fun _ ha => (hargument 1 (by decide)).bind fun _ hb => safe_extend _ ha hb
  | define => exact absurd rfl hf

end Operations

end TreeWalk
