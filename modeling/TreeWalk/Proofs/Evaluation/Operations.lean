import TreeWalk.Evaluation
import TreeWalk.Proofs.Evaluation.Results
import TreeWalk.Proofs.Evaluation.World

/-!
# What operations keep

A computation keeps worlds if it ends in a machine that a larger world describes, whether it succeeds or
not. One lemma for each operation of the machine says so, and what the result fits.
-/

namespace TreeWalk

/-- From a state of the world the computation ends in a state of one that the world has become. -/
def Keeps {σ α : Type} (holds : World → σ → Prop) (w : World) (c : EStateM Stop σ α) (post : World → α → Prop) :
    Prop :=
  ∀ s, holds w s → match c s with
    | .ok a s' => ∃ w', w.Grows w' ∧ holds w' s' ∧ post w' a
    | .error _ s' => ∃ w', w.Grows w' ∧ holds w' s'

namespace Keeps

variable {σ α β : Type} {holds : World → σ → Prop} {w : World} {x : EStateM Stop σ α} {post post' : World → α → Prop}
  {postβ : World → β → Prop}

theorem pure {a : α} (h : post w a) : Keeps holds w (Pure.pure a) post :=
  fun _ hs => ⟨w, .refl w, hs, h⟩

theorem bind {f : α → EStateM Stop σ β} (hx : Keeps holds w x post)
    (hf : ∀ a w', w ≤ w' → post w' a → Keeps holds w' (f a) postβ) : Keeps holds w (x >>= f) postβ := by
  intro s hs
  have hfirst := hx s hs
  rw [bind_eq_match]
  cases hxs : x s with
  | error stop s' => rwa [hxs] at hfirst
  | ok a s' =>
    rw [hxs] at hfirst
    obtain ⟨w', hgrows, hs', hpost⟩ := hfirst
    have hnext := hf a w' hgrows.le hpost s' hs'
    dsimp only
    cases hfs : f a s' with
    | error stop s'' =>
      rw [hfs] at hnext
      obtain ⟨w'', hgrows', hs''⟩ := hnext
      exact ⟨w'', hgrows.trans hgrows', hs''⟩
    | ok b s'' =>
      rw [hfs] at hnext
      obtain ⟨w'', hgrows', hs'', hpost'⟩ := hnext
      exact ⟨w'', hgrows.trans hgrows', hs'', hpost'⟩

theorem mono (h : Keeps holds w x post) (hpost : ∀ w' a, w ≤ w' → post w' a → post' w' a) :
    Keeps holds w x post' := by
  intro s hs
  have hx := h s hs
  cases hxs : x s with
  | error stop s' => rwa [hxs] at hx
  | ok a s' =>
    rw [hxs] at hx
    obtain ⟨w', hgrows, hs', ha⟩ := hx
    exact ⟨w', hgrows, hs', hpost w' a hgrows.le ha⟩

/-- What the state has may be used. -/
theorem given (h : ∀ s, holds w s → Keeps holds w x post) : Keeps holds w x post :=
  fun s hs => h s hs s hs

end Keeps

/-- Nothing is said of the result. -/
def Whatever {α : Type} (_ : World) (_ : α) : Prop := True

/-- The closure is a method for a receiver, an object, and the frame around its body is that of the receiver. -/
def Closure.BoundTo (c : Closure) (receivers : FrameId → Option Value) (receiver : Value) : Prop :=
  ∃ id object ofClass, c.environment.head? = some id ∧ receiver = .object object ofClass ∧
    receivers id = some receiver

namespace World

/-- What frames keep as a receiver. -/
def receivers (w : World) (id : FrameId) : Option Value := w.kept id receiverName

abbrev BoundTo (w : World) (c : Closure) (receiver : Value) : Prop := c.BoundTo w.receivers receiver

theorem BoundTo.mono {w w' : World} {c : Closure} {receiver : Value} (hw : w ≤ w') (h : w.BoundTo c receiver) :
    w'.BoundTo c receiver := by
  obtain ⟨id, object, ofClass, hid, hreceiver, hkept⟩ := h
  exact ⟨id, object, ofClass, hid, hreceiver, hw.kept hkept⟩

/-- The machine is one of this world. -/
def Holds (w : World) (m : Machine) : Prop := w.Describes m.heap m.distances

end World

section Operations

variable {α : Type} {w : World} {post : World → α → Prop}

/-- What changes neither the heap nor the distances keeps every world. -/
theorem keeps_of_same {x : Run α} (h : ∀ m, w.Holds m → match x m with
    | .ok a m' => m'.heap = m.heap ∧ m'.distances = m.distances ∧ post w a
    | .error _ m' => m'.heap = m.heap ∧ m'.distances = m.distances) : Keeps World.Holds w x post := by
  intro m hm
  have hx := h m hm
  cases hxm : x m with
  | ok a m' =>
    rw [hxm] at hx
    exact ⟨w, .refl w, by rw [World.Holds, hx.1, hx.2.1]; exact hm, hx.2.2⟩
  | error stop m' =>
    rw [hxm] at hx
    exact ⟨w, .refl w, by rw [World.Holds, hx.1, hx.2]; exact hm⟩

theorem keeps_fail (line : Nat) (cause : FaultCause) : Keeps World.Holds w (Run.fail line cause) post :=
  keeps_of_same fun _ _ => ⟨rfl, rfl⟩

theorem keeps_crash (cause : Crash) : Keeps World.Holds w (Run.crash cause) post :=
  keeps_of_same fun _ _ => ⟨rfl, rfl⟩

theorem keeps_unfinished : Keeps World.Holds w Run.unfinished post := keeps_of_same fun _ _ => ⟨rfl, rfl⟩

theorem keeps_look {f : Heap → α} (h : ∀ m, w.Holds m → post w (f m.heap)) :
    Keeps World.Holds w (Run.look f) post := keeps_of_same fun m hm => ⟨rfl, rfl, h m hm⟩

theorem keeps_truthy (v : Value) : Keeps World.Holds w (Run.look (·.truthy v)) Whatever := keeps_look fun _ _ => trivial

theorem keeps_get {post : World → Machine → Prop} (h : ∀ m, w.Holds m → post w m) :
    Keeps World.Holds w (get : Run Machine) post := keeps_of_same fun m hm => ⟨rfl, rfl, h m hm⟩

/-- What changes the heap only keeps the world if the new heap is one of it. -/
theorem keeps_update {f : Heap → Heap} {post : World → Unit → Prop}
    (h : ∀ heap distances, w.Describes heap distances → ∃ w', w.Grows w' ∧ w'.Describes (f heap) distances ∧ post w' ()) :
    Keeps World.Holds w (Run.update f) post := fun m hm => h m.heap m.distances hm

theorem keeps_allocate {f : Heap → α × Heap}
    (h : ∀ heap distances, w.Describes heap distances →
      ∃ w', w.Grows w' ∧ w'.Describes (f heap).2 distances ∧ post w' (f heap).1) :
    Keeps World.Holds w (Run.allocate f) post := fun m hm => h m.heap m.distances hm

theorem keeps_ofExcept {line : Nat} {result : Except FaultCause α} (h : ∀ a, result = .ok a → post w a) :
    Keeps World.Holds w (Run.ofExcept line result) post := by
  cases result with
  | ok a => exact .pure (h a rfl)
  | error cause => exact keeps_fail line cause

theorem keeps_operation {line : Nat} {f : Heap → Except Failure α}
    (h : ∀ m a, w.Holds m → f m.heap = .ok a → post w a) : Keeps World.Holds w (Run.operation line f) post := by
  refine keeps_of_same fun m hm => ?_
  unfold Run.operation
  cases hf : f m.heap with
  | ok a => exact ⟨rfl, rfl, h m a hm hf⟩
  | error failure => cases failure <;> exact ⟨rfl, rfl⟩

/-! ## Variables and frames -/

variable {env : Environment} {l : Loaded} {p : Place} {v : Value}

theorem keeps_read (env : Environment) (use : Reference) : Keeps World.Holds w (Run.read env use) World.ValueFits := by
  refine keeps_of_same fun m hm => ?_
  rcases Run.read_cases m env use with ⟨id, v, -, hget, hread⟩ | hread
  · rw [hread]
    exact ⟨rfl, rfl, hm.frames id _ v hget⟩
  · rw [hread]
    exact ⟨rfl, rfl⟩

theorem keeps_assign (env : Environment) {use : Reference} (hname : IsName use.name.text) (hv : w.ValueFits v) :
    Keeps World.Holds w (Run.assign env use v) Whatever := by
  intro m hm
  rcases Run.assign_cases m env use v with ⟨id, -, hbinds, hassign⟩ | hassign
  · rw [hassign]
    have hid := Heap.lt_size_of_binds hbinds
    have hgrows := w.grows_bind id use.name.text
    exact ⟨_, hgrows, World.Describes.define hm hid (World.Describes.kept_name hm hname id) (hv.mono hgrows.le), trivial⟩
  · rw [hassign]
    exact ⟨w, .refl w, hm⟩

/-- A name that is defined is bound in the innermost frame, and its value may rely on that. -/
theorem keeps_define (hm : w.Matches l p env) {name : String} (hname : IsName name)
    (hv : ∀ w', w ≤ w' → (∀ id ∈ env.head?, w'.bound id name) → w'.ValueFits v) :
    Keeps World.Holds w (Run.define env name v) fun w' _ => ∀ id ∈ env.head?, w'.bound id name := by
  refine keeps_update fun heap distances hw => ?_
  have hgrows := w.grows_bind (Heap.innermost env) name
  have hbound : ∀ id ∈ env.head?, (w.bind (Heap.innermost env) name).bound id name :=
    fun id hid => .inr ⟨by simp [Heap.innermost, Option.mem_def.1 hid], rfl⟩
  exact ⟨_, hgrows, hw.define (hm.lt_size hw) (hw.kept_name hname _) (hv _ hgrows.le hbound), hbound⟩

/-- A new frame belongs to the scope that is entered, and keeps what has been put into it for ever. -/
theorem keeps_enter {outer : Place} {names : List String} (hp : p.scope? = some (outer, names))
    (hm : w.Matches l outer env) {bindings : Bindings Value} (kept : String → Option Value)
    (hnames : ∀ name ∈ names, bindings.contains name = true)
    (hkept : ∀ name v, kept name = some v → ¬ IsName name ∧ bindings.get? name = some v)
    (hbindings : ∀ name v, bindings.get? name = some v → w.ValueFits v)
    (hhouses : ∀ w' id, w ≤ w' → w'.kept id = kept → w'.Houses id env p) :
    Keeps World.Holds w (Run.enter env bindings) fun w' env' =>
      w'.Matches l p env' ∧ ∃ id, env' = id :: env ∧ w'.kept id = kept := by
  have hallocate : Keeps World.Holds w (Run.allocate (·.addFrame bindings)) fun w' id =>
      w'.Matches l p (id :: env) ∧ w'.kept id = kept := by
    refine keeps_allocate fun heap distances hw => ?_
    have hgrows := hw.grows_enter ⟨l, p.opening⟩ names kept
    have hnew : (w.enter heap.frames.size ⟨l, p.opening⟩ names kept).kept heap.frames.size = kept := by
      simp [World.enter]
    refine ⟨_, hgrows, hw.addFrame ⟨l, p.opening⟩ bindings names kept hnames hkept hbindings, ?_, hnew⟩
    refine .scope hp (hm.mono hgrows.le) ?_ ?_ (hhouses _ _ hgrows.le hnew)
    · simp [World.enter, Heap.addFrame]
    · exact fun name hname => .inr ⟨rfl, hname⟩
  exact hallocate.bind fun id w' _ h => .pure ⟨h.1, id, rfl, h.2⟩

/-- The scope of a block or function keeps nothing for ever. -/
theorem keeps_enterScope {outer : Place} {names : List String} (hp : p.scope? = some (outer, names))
    (hm : w.Matches l outer env) {bindings : Bindings Value}
    (hnames : ∀ name ∈ names, bindings.contains name = true)
    (hbindings : ∀ name v, bindings.get? name = some v → w.ValueFits v)
    (hhouses : ∀ (w' : World) id, w'.Houses id env p) :
    Keeps World.Holds w (Run.enter env bindings) fun w' env' => w'.Matches l p env' := by
  have hkept (name : String) (v : Value) (h : (fun _ => none : String → Option Value) name = some v) :
      ¬ IsName name ∧ bindings.get? name = some v := by cases h
  exact (keeps_enter hp hm (fun _ => none) hnames hkept hbindings fun w' id _ _ => hhouses w' id).mono
    fun _ _ _ h => h.1

/-- The scope of a receiver or parent class keeps what it has. -/
theorem keeps_enterSpecial {outer : Place} {name : String} (hp : p.scope? = some (outer, [name]))
    (hname : ¬ IsName name) (hm : w.Matches l outer env) (hv : w.ValueFits v)
    (hhouses : ∀ w' id, w ≤ w' → w'.kept id name = some v → w'.Houses id env p) :
    Keeps World.Holds w (Run.enter env (Bindings.empty.set name v)) fun w' env' =>
      w'.Matches l p env' ∧ ∃ id, env' = id :: env ∧ w'.kept id name = some v := by
  let kept : String → Option Value := (Bindings.empty.set name v).get?
  have honly {other : String} {u : Value} (h : (Bindings.empty.set name v).get? other = some u) : other = name ∧ u = v := by
    rw [Bindings.get?_set] at h
    split at h
    case isTrue heq => exact ⟨heq, (Option.some.inj h).symm⟩
    case isFalse => cases h
  have hnew : kept name = some v := by simp [kept, Bindings.get?_set]
  refine (keeps_enter hp hm kept (fun other hother => ?_) (fun other u hu => ?_) (fun other u hu => ?_)
    fun w' id hle hkept => hhouses w' id hle (hkept ▸ hnew)).mono fun w' env' _ ⟨hm', id, henv, hkept⟩ =>
      ⟨hm', id, henv, hkept ▸ hnew⟩
  · simp [List.mem_singleton.1 hother, Bindings.contains, Bindings.get?_set]
  · exact ⟨(honly hu).1 ▸ hname, hu⟩
  · exact (honly hu).2 ▸ hv

/-! ## Functions and classes -/

theorem keeps_addIdentity : Keeps World.Holds w (Run.allocate (·.addIdentity)) Whatever :=
  keeps_allocate fun _ _ hw => ⟨w, .refl w, hw.addIdentity, trivial⟩

theorem keeps_newFunction (c : Closure) :
    Keeps World.Holds w (Run.newFunction c) fun _ v => ∃ identity, v = .function identity c :=
  keeps_addIdentity.bind fun identity _ _ _ => .pure ⟨identity, rfl⟩

/-- A function whose closure fits is a value that does. -/
theorem keeps_closure {c : Closure} (hc : w.ClosureFits c) :
    Keeps World.Holds w (Run.newFunction c) World.ValueFits :=
  (keeps_newFunction c).mono fun _ _ hle ⟨_, hv⟩ => hv ▸ World.ClosureFits.mono hle hc

/-- A method of a class or its ancestors finds its receiver in the scope around it. -/
theorem keeps_bindReceiver {c d : Class} (hc : w.ClassFits c) (hd : c.DescendsFrom d) {name : String} {method : Closure}
    (hmethod : d.method? name = some method) (object : ObjectId) :
    Keeps World.Holds w (Run.bindReceiver method (.object object c)) fun w' closure =>
      w'.ClosureFits closure ∧ closure.arity = method.arity ∧ w'.BoundTo closure (.object object c) := by
  obtain ⟨owner, howner, hget⟩ := Class.of_method? hmethod
  obtain ⟨l, hl, outer, role, hoccurs, hmatches, hrole, hparented⟩ := (hc owner (hd.trans howner) name method hget).occurs
  have henter : Keeps World.Holds w (Run.enter method.environment (Bindings.empty.set receiverName (.object object c)))
      fun w' env' => w'.Matches l (.receiver outer) env' ∧ ∃ id, env' = id :: method.environment ∧
        w'.kept id receiverName = some (.object object c) := by
    refine keeps_enterSpecial rfl not_isName_receiver hmatches hc fun w' id hle hkept => ?_
    exact ⟨object, c, owner, hkept, hd.trans howner, ⟨name, method, hget, rfl⟩, hparented.mono hle⟩
  refine henter.bind fun env' w' hle ⟨hmatches, id, henv, hkept⟩ => .pure ⟨?_, rfl, ?_⟩
  · exact ⟨l, hle.programs hl, _, role, hoccurs, hmatches, hrole⟩
  · exact ⟨id, object, c, henv ▸ rfl, rfl, hkept⟩

theorem keeps_newClass {parent : Option Class} (hparent : ∀ c ∈ parent, w.ClassFits c)
    {methods : List (String × Closure)} (hmethods : ∀ d : Class, d.parent? = parent → ∀ m ∈ methods, w.MethodFits d m.2)
    (name : String) : Keeps World.Holds w (Run.newClass name parent methods) World.ValueFits := by
  refine keeps_addIdentity.bind fun identity w' hle _ => .pure fun d hd other method hget => ?_
  rcases Class.descendsFrom_cases hd with rfl | ⟨p, hp, hdescends⟩
  · rcases Bindings.of_get?_setAll hget with hempty | hmem
    · cases hempty
    · exact (hmethods _ (Class.parent?_eq _ parent) _ hmem).mono hle
  · exact (hparent p hp).mono hle d hdescends other method hget

/-! ## Lists, objects and output -/

theorem keeps_addObject : Keeps World.Holds w (Run.allocate (·.addObject)) Whatever :=
  keeps_allocate fun _ _ hw => ⟨w, .refl w, hw.addObject, trivial⟩

theorem keeps_addList {elements : Array Value} (h : ∀ v ∈ elements, w.ValueFits v) :
    Keeps World.Holds w (Run.allocate (·.addList elements)) Whatever :=
  keeps_allocate fun _ _ hw => ⟨w, .refl w, hw.addList h, trivial⟩

theorem keeps_setField (id : ObjectId) (name : String) (hv : w.ValueFits v) :
    Keeps World.Holds w (Run.update (·.setField id name v)) Whatever :=
  keeps_update fun _ _ hw => ⟨w, .refl w, hw.setField id name hv, trivial⟩

theorem keeps_write (origin : Origin) (text : String) : Keeps World.Holds w (Run.write origin text) Whatever :=
  keeps_of_same fun _ _ => ⟨rfl, rfl, trivial⟩

theorem keeps_writeLine (origin : Origin) (v : Value) : Keeps World.Holds w (Run.writeLine origin v) Whatever := by
  have hget : Keeps World.Holds w (get : Run Machine) Whatever := keeps_get fun _ _ => trivial
  refine hget.bind fun m w' _ _ => ?_
  cases Run.lineOf? m v with
  | none => exact keeps_unfinished
  | some line =>
    refine (keeps_write origin line).bind fun accepted w'' _ _ => ?_
    cases accepted with
    | false => exact keeps_of_same fun _ _ => ⟨rfl, rfl⟩
    | true => exact .pure trivial

/-! ## Operators -/

theorem Value.Plain.fits {v : Value} (h : v.Plain) : w.ValueFits v := by
  cases v <;> trivial

theorem keeps_binary (op : Operator TokenKind) (left right : Value) :
    Keeps World.Holds w (Run.binary op left right) World.ValueFits := by
  unfold Run.binary
  split
  · exact keeps_operation fun _ _ _ hresult => (plain_binary hresult).fits
  · exact keeps_crash _

theorem fits_subscript {heap : Heap} {distances : Distances} (hw : w.Describes heap distances)
    {target index result : Value} (h : heap.subscript target index = .ok result) : w.ValueFits result := by
  rcases plain_or_mem_of_subscript h with hplain | ⟨id, hmem⟩
  · exact hplain.fits
  · exact hw.elements id _ hmem

/-! ## Native functions -/

theorem keeps_readClock (line : Nat) : Keeps World.Holds w (Native.readClock line) World.ValueFits := by
  refine keeps_of_same fun m _ => ?_
  unfold Native.readClock
  dsimp only
  by_cases hearly : m.clock m.readings < 0
  · rw [if_pos hearly]
    exact ⟨rfl, rfl⟩
  · rw [if_neg hearly]
    exact ⟨rfl, rfl, trivial⟩

theorem keeps_nextLine (line : Nat) : Keeps World.Holds w (Native.nextLine line) World.ValueFits := by
  refine keeps_of_same fun m _ => ?_
  unfold Native.nextLine
  dsimp only
  cases Lines.decode? (Lines.split m.input).1 with
  | none => exact ⟨rfl, rfl⟩
  | some text => exact ⟨rfl, rfl, trivial⟩

theorem keeps_readInput (line : Nat) (argument : Argument) :
    Keeps World.Holds w (Native.readInput line argument) World.ValueFits := by
  unfold Native.readInput
  split
  · refine (keeps_write _ _).bind fun accepted w' _ _ => ?_
    split
    · exact keeps_nextLine line
    · exact keeps_fail _ _
  · exact keeps_fail _ _

theorem keeps_pause (line : Nat) (argument : Argument) :
    Keeps World.Holds w (Native.pause line argument) World.ValueFits := by
  unfold Native.pause
  split
  · split
    · split
      · exact keeps_crash _
      · exact .pure trivial
    · exact keeps_fail _ _
  · exact keeps_fail _ _

theorem keeps_description (line : Nat) (argument : Argument) :
    Keeps World.Holds w (Native.description line argument) World.ValueFits := by
  unfold Native.description
  dsimp only
  split
  · exact .pure trivial
  · exact .pure trivial
  · exact keeps_fail _ _

theorem keeps_count (line : Nat) (argument : Argument) :
    Keeps World.Holds w (Native.count line argument) World.ValueFits := by
  unfold Native.count
  split
  · exact .pure trivial
  · exact keeps_look fun _ _ => trivial
  · exact keeps_fail _ _

theorem keeps_argumentCount (line : Nat) (argument : Argument) :
    Keeps World.Holds w (Native.argumentCount line argument) World.ValueFits := by
  unfold Native.argumentCount
  split
  · exact .pure trivial
  · exact keeps_fail _ _

theorem keeps_extend (line : Nat) {list element : Argument} (hlist : w.ValueFits list.value)
    (helement : w.ValueFits element.value) :
    Keeps World.Holds w (Native.extend line list element) World.ValueFits := by
  unfold Native.extend
  split
  case h_1 id _ =>
    have happend : Keeps World.Holds w (Run.update (·.append id element.value)) Whatever :=
      keeps_update fun _ _ hw => ⟨w, .refl w, hw.append id helement, trivial⟩
    exact happend.bind fun _ w' hle _ => .pure (hlist.mono hle)
  case h_2 => exact keeps_fail _ _

theorem keeps_registerConstant (line : Nat) (name : Argument) {result : Argument} (h : w.ValueFits result.value) :
    Keeps World.Holds w (Native.registerConstant line name result) World.ValueFits := by
  have hname : Keeps World.Holds w (Run.operation line (·.printed name.value)) Whatever :=
    keeps_operation fun _ _ _ _ => trivial
  refine hname.bind fun text w' hle _ => ?_
  have hdefine : Keeps World.Holds w' (Run.update fun h =>
      h.addIdentity.2.define Heap.topFrame text (.constant h.addIdentity.1 result.value)) Whatever :=
    keeps_update fun heap distances hw =>
      ⟨_, w'.grows_bind Heap.topFrame text,
        hw.addIdentity.define hw.top (hw.kept_top text) (h.mono (le_trans hle (w'.grows_bind _ _).le)), trivial⟩
  exact hdefine.bind fun _ _ _ _ => .pure trivial

theorem keeps_argument {arguments : List Argument} (h : ∀ a ∈ arguments, w.ValueFits a.value) (position : Nat) :
    Keeps World.Holds w (Native.argument arguments position) fun w' a => w'.ValueFits a.value := by
  unfold Native.argument
  split
  case h_1 a ha => exact .pure (h a (List.mem_of_getElem? ha))
  case h_2 => exact keeps_crash _

theorem keeps_native (line : Nat) (f : Native) {arguments : List Argument}
    (h : ∀ a ∈ arguments, w.ValueFits a.value) : Keeps World.Holds w (f.run line arguments) World.ValueFits := by
  have hfirst := keeps_argument h 0
  have hsecond {w' : World} (hle : w ≤ w') := keeps_argument (fun a ha => (h a ha).mono hle) 1
  cases f with
  | clock => exact keeps_readClock line
  | sleep => exact hfirst.bind fun _ _ _ _ => keeps_pause _ _
  | input => exact hfirst.bind fun _ _ _ _ => keeps_readInput _ _
  | describe => exact hfirst.bind fun _ _ _ _ => keeps_description _ _
  | length => exact hfirst.bind fun _ _ _ _ => keeps_count _ _
  | typeName => exact hfirst.bind fun _ _ _ _ => .pure trivial
  | truthy => exact hfirst.bind fun _ _ _ _ => keeps_look fun _ _ => trivial
  | number =>
    refine hfirst.bind fun a w' _ _ => ?_
    have hnumeral : Keeps World.Holds w' (Run.ofExcept line (Value.numeral a.value)) Whatever :=
      keeps_ofExcept fun _ _ => trivial
    exact hnumeral.bind fun _ _ _ _ => .pure trivial
  | arity => exact hfirst.bind fun _ _ _ _ => keeps_argumentCount _ _
  | source => exact hfirst.bind fun _ _ _ _ => .pure trivial
  | push => exact hfirst.bind fun _ _ hle ha => (hsecond hle).bind fun _ _ hle' hb => keeps_extend _ (ha.mono hle') hb
  | define => exact hfirst.bind fun _ _ hle _ => (hsecond hle).bind fun _ _ _ hb => keeps_registerConstant _ _ hb

end Operations

end TreeWalk
