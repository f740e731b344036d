import TreeWalk.Proofs.Evaluation.Ordered
import TreeWalk.Proofs.Sequencing

/-!
# Quiet steps

Most operations of the machine have nothing to do with the sink. They do the same whatever it is and leave it
alone. Where care is taken that lists are in order, they also stay in order.
-/

namespace TreeWalk

/-- The machine with another sink and another echo mode. -/
def Machine.talking (m : Machine) (echo : Bool) (output : Transcript) : Machine := { m with echo, output }

def talking {α : Type} (echo : Bool) (output : Transcript) :
    EStateM.Result Stop Machine α → EStateM.Result Stop Machine α
  | .ok a m => .ok a (m.talking echo output)
  | .error stop m => .error stop (m.talking echo output)

/-- If care is taken, lists are in order and there are so many of them. -/
def Given (careful : Prop) (lists : Nat) (h : Heap) : Prop := careful → h.Ordered ∧ h.lists.size = lists

/-- Lists are still in order. What is said of the result may depend on how many there are now. -/
def Settles {α : Type} (lists : Nat) (post : Nat → α → Prop) : EStateM.Result Stop Machine α → Prop
  | .ok a m => m.heap.Ordered ∧ lists ≤ m.heap.lists.size ∧ post m.heap.lists.size a
  | .error _ m => m.heap.Ordered

/-- A computation that does the same whatever the sink is and whether values are echoed, and leaves both alone. -/
def Quiet {α : Type} (careful : Prop) (lists : Nat) (post : Nat → α → Prop) (x : Run α) : Prop :=
  ∀ m, Given careful lists m.heap →
    (∀ echo output, x (m.talking echo output) = talking echo output (x m)) ∧ (careful → Settles lists post (x m))

namespace Settles

variable {α : Type} {lists lists' : Nat} {post : Nat → α → Prop} {result : EStateM.Result Stop Machine α}

theorem mono (h : Settles lists' post result) (hle : lists ≤ lists') : Settles lists post result := by
  cases result with
  | ok a m => exact ⟨h.1, Nat.le_trans hle h.2.1, h.2.2⟩
  | error stop m => exact h

end Settles

namespace Quiet

variable {α β : Type} {careful : Prop} {lists : Nat} {mid post : Nat → α → Prop} {postβ : Nat → β → Prop} {x : Run α}

theorem bind {f : α → Run β} (hx : Quiet careful lists mid x)
    (hf : ∀ lists' a, (careful → lists ≤ lists' ∧ mid lists' a) → Quiet careful lists' postβ (f a)) :
    Quiet careful lists postβ (x >>= f) := by
  intro m hm
  obtain ⟨hsame, hsettles⟩ := hx m hm
  simp only [bind_eq_match, hsame]
  -- Whatever the sink is, the second part is run with the same result of the first on the same heap.
  cases hxm : x m with
  | error stop m' =>
    rw [hxm] at hsettles
    exact ⟨fun _ _ => rfl, hsettles⟩
  | ok a m' =>
    rw [hxm] at hsettles
    obtain ⟨hsame', hsettles'⟩ := hf m'.heap.lists.size a (fun hc => (hsettles hc).2) m' fun hc => ⟨(hsettles hc).1, rfl⟩
    exact ⟨hsame', fun hc => (hsettles' hc).mono (hsettles hc).2.1⟩

/-- Neither the heap nor the sink matters, and the heap stays as it is. -/
theorem of_const {result : Machine → EStateM.Result Stop Machine α}
    (hsame : ∀ m echo output, result (m.talking echo output) = talking echo output (result m))
    (hpost : careful → ∀ m, m.heap.Ordered → m.heap.lists.size = lists → Settles lists post (result m)) :
    Quiet careful lists post result :=
  fun m hm => ⟨hsame m, fun hc => hpost hc m (hm hc).1 (hm hc).2⟩

theorem pure {a : α} (h : careful → post lists a) : Quiet careful lists post (Pure.pure a) :=
  of_const (fun _ _ _ => rfl) fun hc _ hm hsize => ⟨hm, Nat.le_of_eq hsize.symm, hsize ▸ h hc⟩

theorem fail (line : Nat) (cause : FaultCause) : Quiet careful lists post (Run.fail line cause) :=
  of_const (fun _ _ _ => rfl) fun _ _ hm _ => hm

theorem crash (cause : Crash) : Quiet careful lists post (Run.crash cause) :=
  of_const (fun _ _ _ => rfl) fun _ _ hm _ => hm

theorem unfinished : Quiet careful lists post Run.unfinished := of_const (fun _ _ _ => rfl) fun _ _ hm _ => hm

theorem look {f : Heap → α} (h : careful → ∀ heap : Heap, heap.Ordered → heap.lists.size = lists → post lists (f heap)) :
    Quiet careful lists post (Run.look f) :=
  of_const (fun _ _ _ => rfl) fun hc m hm hsize =>
    ⟨hm, Nat.le_of_eq hsize.symm, hsize ▸ h hc m.heap hm hsize⟩

theorem update {f : Heap → Heap} {post : Nat → Unit → Prop}
    (h : careful → ∀ heap : Heap, heap.Ordered → heap.lists.size = lists →
      (f heap).Ordered ∧ (f heap).lists.size = lists ∧ post lists ()) : Quiet careful lists post (Run.update f) :=
  of_const (fun _ _ _ => rfl) fun hc m hm hsize => by
    obtain ⟨hordered, hkept, hpost⟩ := h hc m.heap hm hsize
    exact ⟨hordered, Nat.le_of_eq hkept.symm, hkept.symm ▸ hpost⟩

theorem allocate {f : Heap → α × Heap}
    (h : careful → ∀ heap : Heap, heap.Ordered → heap.lists.size = lists →
      (f heap).2.Ordered ∧ lists ≤ (f heap).2.lists.size ∧ post (f heap).2.lists.size (f heap).1) :
    Quiet careful lists post (Run.allocate f) :=
  of_const (fun _ _ _ => rfl) fun hc m hm hsize => h hc m.heap hm hsize

theorem ofExcept {line : Nat} {result : Except FaultCause α} (h : careful → ∀ a, result = .ok a → post lists a) :
    Quiet careful lists post (Run.ofExcept line result) := by
  cases result with
  | ok a => exact .pure fun hc => h hc a rfl
  | error cause => exact fail line cause

theorem operation {line : Nat} {f : Heap → Except Failure α}
    (h : careful → ∀ heap : Heap, heap.Ordered → heap.lists.size = lists → ∀ a, f heap = .ok a → post lists a) :
    Quiet careful lists post (Run.operation line f) := by
  refine of_const (fun m _ _ => ?_) fun hc m hm hsize => ?_
  · unfold Run.operation Machine.talking
    dsimp only
    cases f m.heap with
    | ok a => rfl
    | error failure => cases failure <;> rfl
  · unfold Run.operation
    cases hf : f m.heap with
    | ok a => exact ⟨hm, Nat.le_of_eq hsize.symm, hsize ▸ h hc m.heap hm hsize a hf⟩
    | error failure => cases failure <;> exact hm

end Quiet

section Operations

variable {careful : Prop} {lists : Nat} {v : Value}

/-! ## Variables and functions -/

theorem Machine.heap_talking (m : Machine) (echo : Bool) (output : Transcript) :
    (m.talking echo output).heap = m.heap := rfl

theorem frameOf?_talking (m : Machine) (echo : Bool) (output : Transcript) (env : Environment) (id : NodeId) :
    Run.frameOf? (m.talking echo output) env id = Run.frameOf? m env id := rfl

theorem quiet_read (env : Environment) (use : Reference) : Quiet careful lists Value.Ordered (Run.read env use) := by
  refine .of_const (fun m echo output => ?_) fun _ m hm hsize => ?_
  · unfold Run.read
    rw [frameOf?_talking, Machine.heap_talking]
    cases (Run.frameOf? m env use.id).bind fun id => (m.heap.frame id).get? use.name.text <;> rfl
  · rcases Run.read_cases m env use with ⟨id, v, -, hget, hread⟩ | hread
    · rw [hread]
      exact ⟨hm, Nat.le_of_eq hsize.symm, hm.frames id _ v hget⟩
    · rw [hread]
      exact hm

theorem quiet_define (env : Environment) (name : String) (hv : careful → v.Ordered lists) :
    Quiet careful lists (fun _ _ => True) (Run.define env name v) :=
  .update fun hc _ hh hsize => ⟨hh.define _ name (hsize ▸ hv hc), hsize, trivial⟩

theorem quiet_assign (env : Environment) (use : Reference) (hv : careful → v.Ordered lists) :
    Quiet careful lists (fun _ _ => True) (Run.assign env use v) := by
  refine .of_const (fun m echo output => ?_) fun hc m hm hsize => ?_
  · unfold Run.assign
    rw [frameOf?_talking, Machine.heap_talking]
    cases (Run.frameOf? m env use.id).filter fun id => m.heap.binds id use.name.text <;> rfl
  · rcases Run.assign_cases m env use v with ⟨id, -, -, hassign⟩ | hassign
    · rw [hassign]
      exact ⟨hm.define id use.name.text (hsize ▸ hv hc), Nat.le_of_eq hsize.symm, trivial⟩
    · rw [hassign]
      exact hm

theorem quiet_enter (env : Environment) {bindings : Bindings Value}
    (hbindings : careful → ∀ name v, bindings.get? name = some v → v.Ordered lists) :
    Quiet careful lists (fun _ _ => True) (Run.enter env bindings) := by
  have hframe : Quiet careful lists (fun _ _ => True) (Run.allocate (·.addFrame bindings)) :=
    .allocate fun hc _ hh hsize =>
      ⟨hh.addFrame fun name u hu => hsize ▸ hbindings hc name u hu, Nat.le_of_eq hsize.symm, trivial⟩
  exact hframe.bind fun _ _ _ => .pure fun _ => trivial

theorem quiet_addIdentity : Quiet careful lists (fun _ _ => True) (Run.allocate (·.addIdentity)) :=
  .allocate fun _ _ hh hsize => ⟨hh.addIdentity, Nat.le_of_eq hsize.symm, trivial⟩

theorem quiet_newFunction (c : Closure) : Quiet careful lists Value.Ordered (Run.newFunction c) :=
  quiet_addIdentity.bind fun _ _ _ => .pure fun _ => trivial

/-- One binding and no more. -/
theorem ordered_single {name : String} (hv : v.Ordered lists) (other : String) (u : Value)
    (hu : (Bindings.empty.set name v).get? other = some u) : u.Ordered lists := by
  rw [Bindings.get?_set] at hu
  split at hu
  · exact Option.some.inj hu ▸ hv
  · simp [Bindings.get?_empty] at hu

theorem quiet_bindReceiver (method : Closure) (hv : careful → v.Ordered lists) :
    Quiet careful lists (fun _ _ => True) (Run.bindReceiver method v) :=
  (quiet_enter method.environment fun hc => ordered_single (hv hc)).bind fun _ _ _ => .pure fun _ => trivial

theorem quiet_newClass (name : String) (parent : Option Class) (methods : List (String × Closure)) :
    Quiet careful lists Value.Ordered (Run.newClass name parent methods) :=
  quiet_addIdentity.bind fun _ _ _ => .pure fun _ => trivial

/-- A class is made and bound. -/
theorem quiet_defineClass (env : Environment) (name : String) (parent : Option Class) (methods : List (String × Closure)) :
    Quiet careful lists (fun _ _ => True) (do Run.define env name (← Run.newClass name parent methods)) :=
  (quiet_newClass name parent methods).bind fun _ _ hv => quiet_define env name fun hc => (hv hc).2

/-! ## Operators -/

theorem quiet_truthy (v : Value) : Quiet careful lists (fun _ _ => True) (Run.look (·.truthy v)) :=
  .look fun _ _ _ _ => trivial

theorem quiet_unary (op : Operator UnaryKind) (v : Value) :
    Quiet careful lists Value.Ordered (match op.kind with
      | .negate => Run.ofExcept op.line (Value.negate v)
      | .not => do pure (.bool !(← Run.look (·.truthy v)))) := by
  cases op.kind with
  | negate => exact .ofExcept fun _ _ hresult => (plain_negate hresult).ordered lists
  | not => exact (quiet_truthy v).bind fun _ _ _ => .pure fun _ => trivial

theorem quiet_binary (op : Operator TokenKind) (left right : Value) :
    Quiet careful lists Value.Ordered (Run.binary op left right) := by
  unfold Run.binary
  cases BinaryKind.ofToken? op.kind with
  | none => exact .crash _
  | some kind => exact .operation fun _ _ _ _ _ hresult => (plain_binary hresult).ordered lists

theorem quiet_subscript (line : Nat) (target index : Value) :
    Quiet careful lists Value.Ordered (Run.operation line fun h => h.subscript target index) := by
  refine .operation fun _ heap hh hsize result hresult => ?_
  rcases plain_or_mem_of_subscript hresult with hplain | ⟨id, hmem⟩
  · exact hplain.ordered lists
  · exact hsize ▸ hh.of_mem hmem

/-! ## Native functions -/

theorem quiet_readClock (line : Nat) : Quiet careful lists Value.Ordered (Native.readClock line) := by
  refine .of_const (fun m _ _ => ?_) fun _ m hm hsize => ?_
  · unfold Native.readClock Machine.talking
    dsimp only
    split <;> rfl
  · unfold Native.readClock
    dsimp only
    split
    · exact hm
    · exact ⟨hm, Nat.le_of_eq hsize.symm, trivial⟩

theorem quiet_nextLine (line : Nat) : Quiet careful lists Value.Ordered (Native.nextLine line) := by
  refine .of_const (fun m _ _ => ?_) fun _ m hm hsize => ?_
  · unfold Native.nextLine Machine.talking
    dsimp only
    cases Lines.decode? (Lines.split m.input).1 <;> rfl
  · unfold Native.nextLine
    dsimp only
    cases Lines.decode? (Lines.split m.input).1 with
    | none => exact hm
    | some text => exact ⟨hm, Nat.le_of_eq hsize.symm, trivial⟩

theorem quiet_pause (line : Nat) (a : Argument) : Quiet careful lists Value.Ordered (Native.pause line a) := by
  unfold Native.pause
  split
  · split
    · split
      · exact .crash _
      · exact .pure fun _ => trivial
    · exact .fail _ _
  · exact .fail _ _

theorem quiet_description (line : Nat) (a : Argument) :
    Quiet careful lists Value.Ordered (Native.description line a) := by
  unfold Native.description
  dsimp only
  split
  · exact .pure fun _ => trivial
  · exact .pure fun _ => trivial
  · exact .fail _ _

theorem quiet_count (line : Nat) (a : Argument) : Quiet careful lists Value.Ordered (Native.count line a) := by
  unfold Native.count
  split
  · exact .pure fun _ => trivial
  · exact .look fun _ _ _ _ => trivial
  · exact .fail _ _

theorem quiet_argumentCount (line : Nat) (a : Argument) :
    Quiet careful lists Value.Ordered (Native.argumentCount line a) := by
  unfold Native.argumentCount
  split
  · exact .pure fun _ => trivial
  · exact .fail _ _

/-- Where care is taken nothing can be added to a list. -/
theorem quiet_extend (line : Nat) (list element : Argument) (h : ¬careful) :
    Quiet careful lists Value.Ordered (Native.extend line list element) := by
  unfold Native.extend
  split
  case h_1 id _ =>
    have hupdate : Quiet careful lists (fun _ _ => True) (Run.update (·.append id element.value)) :=
      .update fun hc => absurd hc h
    exact hupdate.bind fun _ _ _ => .pure fun hc => absurd hc h
  case h_2 => exact .fail _ _

theorem quiet_registerConstant (line : Nat) (name result : Argument) (h : ¬careful) :
    Quiet careful lists Value.Ordered (Native.registerConstant line name result) := by
  have hname : Quiet careful lists (fun _ _ => True) (Run.operation line (·.printed name.value)) :=
    .operation fun hc => absurd hc h
  refine hname.bind fun lists' _ _ => ?_
  have hdefine {f : Heap → Heap} : Quiet careful lists' (fun _ _ => True) (Run.update f) := .update fun hc => absurd hc h
  exact hdefine.bind fun _ _ _ => .pure fun hc => absurd hc h

theorem quiet_argument (arguments : List Argument) (position : Nat) :
    Quiet careful lists (fun _ _ => True) (Native.argument arguments position) := by
  unfold Native.argument
  split
  · exact .pure fun _ => trivial
  · exact .crash _

end Operations

end TreeWalk
