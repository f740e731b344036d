import TreeWalk.Proofs.Evaluation.Recording
import TreeWalk.Proofs.Evaluation.Results

/-!
# What is done without a call

Only calls change how many calls are in progress, and only a call overflows. All other operations of the machine
leave the number as it is, whether they succeed or not.
-/

namespace TreeWalk

/-- Too many calls are in progress for one more. -/
abbrev Stop.overflow (line : Nat) : Stop := .fault (.evaluation line .stackOverflow)

/-- The computation leaves the number of calls in progress and the table of distances as they are, and does not
overflow. -/
def Run.Level {α : Type} (x : Run α) : Prop := ∀ m,
  (stateBehind (x m)).depth = m.depth ∧ (stateBehind (x m)).distances = m.distances ∧
    ∀ line, stopOf (x m) ≠ some (.overflow line)

/-- On record the computation loses no record besides. -/
def Recorder.Level {α : Type} (x : Recorder α) : Prop := ∀ r,
  (stateBehind (x r)).machine.depth = r.machine.depth ∧ (stateBehind (x r)).machine.distances = r.machine.distances ∧
    (∀ line, stopOf (x r) ≠ some (.overflow line)) ∧ r.records ⊆ (stateBehind (x r)).records

namespace Run.Level

variable {α β : Type} {x : Run α}

protected theorem pure (a : α) : Level (Pure.pure a) := fun _ => ⟨rfl, rfl, nofun⟩

theorem bind {f : α → Run β} (hx : Level x) (hf : ∀ a, Level (f a)) : Level (x >>= f) := by
  intro m
  obtain ⟨hdepth, hdistances, hstop⟩ := hx m
  cases h : x m with
  | error stop m' =>
    rw [h] at hdepth hdistances hstop
    rw [bind_error h]
    exact ⟨hdepth, hdistances, hstop⟩
  | ok a m' =>
    rw [h] at hdepth hdistances
    rw [bind_ok h]
    obtain ⟨hdepth', hdistances', hstop'⟩ := hf a m'
    exact ⟨hdepth'.trans hdepth, hdistances'.trans hdistances, hstop'⟩

theorem fail {line : Nat} {cause : FaultCause} (h : cause ≠ .stackOverflow) : Level (Run.fail line cause : Run α) :=
  fun _ => ⟨rfl, rfl, fun _ heq => h (by cases heq; rfl)⟩

theorem crash (cause : Crash) : Level (Run.crash cause : Run α) := fun _ => ⟨rfl, rfl, nofun⟩

theorem unfinished : Level (Run.unfinished : Run α) := fun _ => ⟨rfl, rfl, nofun⟩

theorem get : Level (MonadState.get : Run Machine) := fun _ => ⟨rfl, rfl, nofun⟩

theorem look (f : Heap → α) : Level (Run.look f) := fun _ => ⟨rfl, rfl, nofun⟩

theorem update (f : Heap → Heap) : Level (Run.update f) := fun _ => ⟨rfl, rfl, nofun⟩

theorem allocate (f : Heap → α × Heap) : Level (Run.allocate f) := fun _ => ⟨rfl, rfl, nofun⟩

theorem ofExcept {line : Nat} {result : Except FaultCause α} (h : result ≠ .error .stackOverflow) :
    Level (Run.ofExcept line result) := by
  cases result with
  | ok a => exact .pure a
  | error cause => exact fail fun heq => h (heq ▸ rfl)

theorem operation {line : Nat} {f : Heap → Except Failure α} (h : ∀ heap, f heap ≠ .error (.fault .stackOverflow)) :
    Level (Run.operation line f) := by
  intro m
  unfold Run.operation
  cases hf : f m.heap with
  | ok a => exact ⟨rfl, rfl, nofun⟩
  | error failure =>
    cases failure with
    | endless => exact ⟨rfl, rfl, nofun⟩
    | fault cause => exact ⟨rfl, rfl, fun _ heq => h m.heap (by cases heq; exact hf)⟩

end Run.Level

namespace Run

/-! ## Variables and functions -/

theorem level_read (env : Environment) (use : Reference) : Level (read env use) := by
  intro m
  rcases read_cases m env use with ⟨_, _, -, -, hread⟩ | hread <;> rw [hread] <;> exact ⟨rfl, rfl, nofun⟩

theorem level_assign (env : Environment) (use : Reference) (v : Value) : Level (assign env use v) := by
  intro m
  rcases assign_cases m env use v with ⟨_, -, -, hassign⟩ | hassign <;> rw [hassign] <;> exact ⟨rfl, rfl, nofun⟩

theorem level_define (env : Environment) (name : String) (v : Value) : Level (define env name v) := .update _

theorem level_enter (env : Environment) (bindings : Bindings Value) : Level (enter env bindings) :=
  (Level.allocate _).bind fun _ => .pure _

theorem level_newFunction (c : Closure) : Level (newFunction c) := (Level.allocate _).bind fun _ => .pure _

theorem level_bindReceiver (method : Closure) (receiver : Value) : Level (bindReceiver method receiver) :=
  (level_enter _ _).bind fun _ => .pure _

theorem level_newClass (name : String) (parent : Option Class) (methods : List (String × Closure)) :
    Level (newClass name parent methods) := (Level.allocate _).bind fun _ => .pure _

theorem level_defineClass (env : Environment) (name : String) (parent : Option Class) (methods : List (String × Closure)) :
    Level (do define env name (← newClass name parent methods)) :=
  (level_newClass name parent methods).bind fun _ => level_define env name _

/-! ## Operators -/

theorem bind_ne_error {ε α β : Type} {e : ε} {x : Except ε α} {f : α → Except ε β} (hx : x ≠ .error e)
    (hf : ∀ a, f a ≠ .error e) : (x >>= f) ≠ .error e := by
  cases x with
  | ok a => exact hf a
  | error e' => exact fun heq => hx (by cases heq; rfl)

theorem numeral_ne_overflow (v : Value) : v.numeral ≠ .error .stackOverflow := by cases v <;> nofun

theorem numerals_ne_overflow (left right : Value) : Value.numerals left right ≠ .error .stackOverflow :=
  bind_ne_error (numeral_ne_overflow left) fun _ => bind_ne_error (numeral_ne_overflow right) nofun

theorem numbers_ne_overflow (left right : Value) : Value.numbers left right ≠ .error .stackOverflow := by
  unfold Value.numbers
  split <;> nofun

theorem compare_ne_overflow (strings : String → String → Bool) (floats : Float → Float → Bool) (left right : Value) :
    Value.compare strings floats left right ≠ .error .stackOverflow := by
  unfold Value.compare
  split
  · nofun
  · exact bind_ne_error (numerals_ne_overflow _ _) nofun

theorem arithmetic_ne_overflow (f : Float → Float → Float) (left right : Value) :
    Value.arithmetic f left right ≠ .error .stackOverflow := bind_ne_error (numbers_ne_overflow left right) nofun

theorem divide_ne_overflow (left right : Value) : left.divide right ≠ .error .stackOverflow := by
  refine bind_ne_error (numbers_ne_overflow left right) fun pair => ?_
  dsimp only
  split <;> nofun

theorem mapError_ne_overflow {α : Type} {x : Except FaultCause α} (h : x ≠ .error .stackOverflow) :
    x.mapError Failure.fault ≠ .error (.fault .stackOverflow) := by
  cases x with
  | ok a => nofun
  | error cause => exact fun heq => h (by cases heq; rfl)

theorem printed_ne_fault (h : Heap) (v : Value) (cause : FaultCause) : h.printed v ≠ .error (.fault cause) := by
  unfold Heap.printed
  split <;> nofun

theorem add_ne_overflow (h : Heap) (left right : Value) : h.add left right ≠ .error (.fault .stackOverflow) := by
  have hjoin (left right : Value) : h.join left right ≠ .error (.fault .stackOverflow) :=
    bind_ne_error (printed_ne_fault h left _) fun _ => bind_ne_error (printed_ne_fault h right _) nofun
  unfold Heap.add
  split
  · exact hjoin _ _
  · exact hjoin _ _
  · split
    case h_1 => nofun
    case h_2 cause hnumerals => exact fun heq => numerals_ne_overflow _ _ (by cases heq; exact hnumerals)

theorem equality_ne_fault (h : Heap) (left right : Value) (cause : FaultCause) :
    h.equality left right ≠ .error (.fault cause) := by
  unfold Heap.equality
  split <;> nofun

theorem map_ne_error {ε α β : Type} {e : ε} {x : Except ε α} (f : α → β) (hx : x ≠ .error e) : x.map f ≠ .error e := by
  cases x with
  | ok a => nofun
  | error e' => exact fun heq => hx (by cases heq; rfl)

theorem binary_ne_overflow (h : Heap) (kind : BinaryKind) (left right : Value) :
    h.binary kind left right ≠ .error (.fault .stackOverflow) := by
  cases kind with
  | equal | notEqual => exact map_ne_error _ (equality_ne_fault h left right _)
  | greater | greaterEqual | less | lessEqual => exact mapError_ne_overflow (compare_ne_overflow _ _ left right)
  | add => exact add_ne_overflow h left right
  | subtract | multiply => exact mapError_ne_overflow (arithmetic_ne_overflow _ left right)
  | divide => exact mapError_ne_overflow (divide_ne_overflow left right)

theorem subscript_ne_overflow (h : Heap) (target index : Value) :
    h.subscript target index ≠ .error (.fault .stackOverflow) := by
  intro heq
  rcases of_subscript_error heq with hposition | ⟨position, cause, helement, hcause⟩
  · rcases of_position_error hposition with ⟨text, htext⟩ | ⟨-, hendless⟩
    · cases htext
    · cases hendless
  · cases hcause
    rcases of_element_error helement with hcause | ⟨length, hcause, -⟩ <;> cases hcause

theorem level_unary (op : Operator UnaryKind) (v : Value) :
    Level (match op.kind with
      | .negate => ofExcept op.line (Value.negate v)
      | .not => do pure (.bool !(← look (·.truthy v)))) := by
  cases op.kind with
  | negate => exact .ofExcept (by cases v <;> nofun)
  | not => exact (Level.look _).bind fun _ => .pure _

theorem level_binary (op : Operator TokenKind) (left right : Value) : Level (binary op left right) := by
  unfold binary
  cases BinaryKind.ofToken? op.kind with
  | none => exact .crash _
  | some kind => exact .operation fun h => binary_ne_overflow h kind left right

theorem level_subscript (line : Nat) (target index : Value) :
    Level (operation line fun h => h.subscript target index) :=
  .operation fun h => subscript_ne_overflow h target index

/-! ## Native functions and output -/

theorem level_write (origin : Origin) (text : String) : Level (write origin text) := fun _ => ⟨rfl, rfl, nofun⟩

theorem level_writeLine (origin : Origin) (v : Value) : Level (writeLine origin v) := by
  have houtput : Level (throw (.fault .output) : Run Unit) := fun _ => ⟨rfl, rfl, nofun⟩
  refine Level.get.bind fun m => ?_
  split
  · exact .unfinished
  · refine (level_write origin _).bind fun accepted => ?_
    split
    · exact houtput
    · exact .pure _

theorem level_pause (line : Nat) (a : Argument) : Level (Native.pause line a) := by
  unfold Native.pause
  split
  · split
    · split
      · exact .crash _
      · exact .pure _
    · exact .fail nofun
  · exact .fail nofun

theorem level_readClock (line : Nat) : Level (Native.readClock line) := by
  intro m
  unfold Native.readClock
  dsimp only
  split <;> exact ⟨rfl, rfl, nofun⟩

theorem level_nextLine (line : Nat) : Level (Native.nextLine line) := by
  intro m
  unfold Native.nextLine
  dsimp only
  split <;> exact ⟨rfl, rfl, nofun⟩

theorem level_readInput (line : Nat) (a : Argument) : Level (Native.readInput line a) := by
  unfold Native.readInput
  split
  · refine (level_write _ _).bind fun accepted => ?_
    split
    · exact level_nextLine line
    · exact .fail nofun
  · exact .fail nofun

theorem level_argument (arguments : List Argument) (position : Nat) : Level (Native.argument arguments position) := by
  unfold Native.argument
  split
  · exact .pure _
  · exact .crash _

theorem level_native (line : Nat) (f : Native) (arguments : List Argument) : Level (f.run line arguments) := by
  have first := level_argument arguments 0
  cases f with
  | clock => exact level_readClock line
  | sleep => exact first.bind fun a => level_pause line a
  | input => exact first.bind fun a => level_readInput line a
  | describe =>
    refine first.bind fun a => ?_
    unfold Native.description
    dsimp only
    split
    · exact .pure _
    · exact .pure _
    · exact .fail nofun
  | length =>
    refine first.bind fun a => ?_
    unfold Native.count
    split
    · exact .pure _
    · exact .look _
    · exact .fail nofun
  | typeName | source => exact first.bind fun _ => .pure _
  | truthy => exact first.bind fun _ => .look _
  | number => exact first.bind fun a => (Level.ofExcept (numeral_ne_overflow a.value)).bind fun _ => .pure _
  | arity =>
    refine first.bind fun a => ?_
    unfold Native.argumentCount
    split
    · exact .pure _
    · exact .fail nofun
  | push =>
    refine first.bind fun list => (level_argument arguments 1).bind fun element => ?_
    unfold Native.extend
    split
    · exact (Level.update _).bind fun _ => .pure _
    · exact .fail nofun
  | define =>
    refine first.bind fun name => (level_argument arguments 1).bind fun result => ?_
    exact (Level.operation fun h => printed_ne_fault h name.value _).bind fun _ => (Level.update _).bind fun _ => .pure _

end Run

/-! ## On record -/

namespace Recorder

namespace Level

variable {α β : Type} {x : Recorder α}

protected theorem pure (a : α) : Level (Pure.pure a) := fun _ => ⟨rfl, rfl, nofun, List.Subset.refl _⟩

theorem bind {f : α → Recorder β} (hx : Level x) (hf : ∀ a, Level (f a)) : Level (x >>= f) := by
  intro r
  obtain ⟨hdepth, hdistances, hstop, hrecords⟩ := hx r
  cases h : x r with
  | error stop r' =>
    rw [h] at hdepth hdistances hstop hrecords
    rw [bind_error h]
    exact ⟨hdepth, hdistances, hstop, hrecords⟩
  | ok a r' =>
    rw [h] at hdepth hdistances hrecords
    rw [bind_ok h]
    obtain ⟨hdepth', hdistances', hstop', hrecords'⟩ := hf a r'
    exact ⟨hdepth'.trans hdepth, hdistances'.trans hdistances, hstop', List.Subset.trans hrecords hrecords'⟩

theorem note (record : Machine → Record) : Level (Recorder.note record) :=
  fun _ => ⟨rfl, rfl, nofun, List.subset_cons_self _ _⟩

theorem lift {x : Run α} (h : x.Level) : Level (Recorder.lift x) := by
  intro r
  obtain ⟨hdepth, hdistances, hstop⟩ := h r.machine
  cases hx : x r.machine with
  | ok a m | error stop m =>
    rw [hx] at hdepth hdistances hstop
    unfold Recorder.lift
    rw [hx]
    exact ⟨hdepth, hdistances, hstop, List.Subset.refl _⟩

end Level

theorem level_read (env : Environment) (use : Reference) : Level (read env use) :=
  (Level.note _).bind fun _ => .lift (Run.level_read env use)

theorem level_bindReceiver (method : Closure) (receiver : Value) : Level (bindReceiver method receiver) :=
  (Level.lift (Run.level_bindReceiver method receiver)).bind fun _ => (Level.note _).bind fun _ => .pure _

theorem level_property (id : ObjectId) (c : Class) (name : Name) : Level (property id c name) := by
  refine (Level.lift (.look _)).bind fun found => ?_
  cases found with
  | some v => exact .pure v
  | none =>
    dsimp only
    cases c.method? name.text with
    | some method => exact (level_bindReceiver _ _).bind fun bound => .lift (Run.level_newFunction bound)
    | none => exact .lift (.fail nofun)

theorem level_parentMethod (env : Environment) (id : NodeId) (keyword method : Name) :
    Level (parentMethod env id keyword method) := by
  refine (Level.lift .get).bind fun m => ?_
  rcases Run.parentOf? m env id with _ | ⟨parent, _ | receiver⟩
  · exact .lift (.fail nofun)
  · exact .lift (.fail nofun)
  · dsimp only
    cases parent.method? method.text with
    | some closure => exact (level_bindReceiver _ _).bind fun bound => .lift (Run.level_newFunction bound)
    | none => exact .lift (.fail nofun)

theorem level_declareClass (env : Environment) (name : Name) (parent : Option Reference) (methods : List Method) :
    Level (declareClass env name parent methods) := by
  refine (Level.lift (Run.level_define env name.text .nil)).bind fun _ => ?_
  cases parent with
  | none => exact .lift (Run.level_defineClass env name.text none _)
  | some use =>
    refine (Level.note _).bind fun _ => (level_read env use).bind fun found => ?_
    cases found with
    | «class» c =>
      exact .lift ((Run.level_enter _ _).bind fun inner => Run.level_defineClass env name.text (some c) _)
    | _ => exact .lift (.fail nofun)

end Recorder

end TreeWalk
