import TreeWalk.Proofs.Evaluation.Receivers
import TreeWalk.Proofs.Evaluation.Recording

/-!
# Evaluation keeps worlds

Whatever is evaluated or executed runs in an environment that matches its place, and hands over only
as its place lets it. `sound` says so for all that happens within so many steps.
-/

namespace TreeWalk

namespace World

/-- How a statement may hand over in a function, or at top level. -/
def FlowFits (w : World) (around : Option FunctionRole) (escapes : Prop) : Flow → Prop
  | .normal => True
  | .break | .continue => escapes
  | .return v => w.ValueFits v ∧ around ≠ none ∧ (around = some .initializer → v = .nil)

theorem FlowFits.imp {w : World} {around : Option FunctionRole} {escapes escapes' : Prop} {flow : Flow}
    (h : w.FlowFits around escapes flow) (hescapes : escapes → escapes') : w.FlowFits around escapes' flow := by
  cases flow with
  | «break» | «continue» => exact hescapes h
  | _ => exact h

/-- The body of a function comes to its end, and that of an initializer without a value. -/
def Finishes (c : Closure) : Flow → Prop
  | .normal => True
  | .break | .continue => False
  | .return v => c.isInitializer = true → v = .nil

/-- What holds of an event in the world. -/
def Allows (w : World) : Record → Prop
  | .evaluates env e m => w.Holds m ∧ ∃ l p, w.Stands l p env (.expr e)
  | .executes env s m => w.Holds m ∧ ∃ l p, w.Stands l p env (.stmt s)
  | .looks env use m => w.Holds m ∧ ∃ l p e, w.Stands l p env (.expr e) ∧ use ∈ (Node.expr e).uses
  | .finishes c flow => Finishes c flow
  | .concludes _ flow => flow = .normal
  | .binds c receiver => w.BoundTo c receiver
  | .returns c result => c.isInitializer = true → w.BoundTo c result

/-- The machine is one of this world, and every event was one of a smaller world. -/
structure Recorded (w : World) (r : Recording) : Prop where
  holds : w.Holds r.machine
  records : ∀ record ∈ r.records, ∃ w' ≤ w, w'.Allows record

end World

/-! ## On record -/

namespace Keeps

variable {α : Type} {w : World} {post : World → α → Prop}

theorem lift {run : Run α} (h : Keeps World.Holds w run post) : Keeps World.Recorded w (Recorder.lift run) post := by
  intro r hr
  have hrun := h r.machine hr.holds
  unfold Recorder.lift
  have hrecords {w' : World} (hgrows : w.Grows w') (record) (hrecord : record ∈ r.records) : ∃ w'' ≤ w', w''.Allows record := by
    obtain ⟨w'', hle, hallows⟩ := hr.records record hrecord
    exact ⟨w'', le_trans hle hgrows.le, hallows⟩
  cases hm : run r.machine with
  | ok a m =>
    rw [hm] at hrun
    obtain ⟨w', hgrows, hholds, hpost⟩ := hrun
    exact ⟨w', hgrows, ⟨hholds, hrecords hgrows⟩, hpost⟩
  | error stop m =>
    rw [hm] at hrun
    obtain ⟨w', hgrows, hholds⟩ := hrun
    exact ⟨w', hgrows, hholds, hrecords hgrows⟩

theorem note {x : Recorder α} {record : Machine → Record} (hrecord : ∀ m, w.Holds m → w.Allows (record m))
    (h : Keeps World.Recorded w x post) : Keeps World.Recorded w (Recorder.note record >>= fun _ => x) post := by
  intro r hr
  refine h { r with records := record r.machine :: r.records } ⟨hr.holds, fun other hother => ?_⟩
  rcases List.mem_cons.1 hother with rfl | hother
  · exact ⟨w, le_refl w, hrecord r.machine hr.holds⟩
  · exact hr.records other hother

theorem nested {x : Recorder α} (line : Nat) (h : Keeps World.Recorded w x post) :
    Keeps World.Recorded w (Recorder.nested line x) post := by
  intro r hr
  unfold Recorder.nested
  by_cases hdeep : (r.machine.depth == maxDepth) = true
  · rw [if_pos hdeep]
    have hfail : Keeps World.Holds w (Run.fail line .stackOverflow) post := keeps_fail line .stackOverflow
    exact lift hfail r hr
  · rw [if_neg hdeep]
    have hbody := h { r with machine := { r.machine with depth := r.machine.depth + 1 } } ⟨hr.holds, hr.records⟩
    cases hx : x { r with machine := { r.machine with depth := r.machine.depth + 1 } } with
    | ok a r' =>
      rw [hx] at hbody
      obtain ⟨w', hgrows, hr', hpost⟩ := hbody
      exact ⟨w', hgrows, ⟨hr'.holds, hr'.records⟩, hpost⟩
    | error stop r' =>
      rw [hx] at hbody
      obtain ⟨w', hgrows, hr'⟩ := hbody
      exact ⟨w', hgrows, hr'.holds, hr'.records⟩

end Keeps

section Evaluation

variable {w : World} {l : Loaded} {p : Place} {env : Environment} {place : List Stmt → Place}
  {statements : List Stmt}

/-- Behind a statement its names are bound, and so the environment matches the next place. -/
theorem SuiteOf.next {program : List Stmt} (hsuite : SuiteOf program place statements) {before : List Stmt} {s : Stmt}
    (h : w.Matches l (place before) env) (hbound : ∀ name ∈ s.names, ∀ id ∈ env.head?, w.bound id name) :
    w.Matches l (place (before ++ [s])) env := by
  have hdeclared (name : String) (hname : name ∈ Stmt.namesAll (before ++ [s])) :
      name ∈ Stmt.namesAll before ∨ name ∈ s.names := by
    rw [Stmt.namesAll_append, List.mem_append] at hname
    exact hname.imp_right fun h => by simpa [Stmt.namesAll] using h
  cases hsuite with
  | top =>
    cases h with
    | top => exact .top _
    | scope hp => cases hp
  | block =>
    cases h with
    | scope hp houter hsite hnames hhouses =>
      cases hp
      refine .scope rfl houter hsite (fun name hname => ?_) hhouses
      exact (hdeclared name hname).elim (hnames name) fun hs => hbound name hs _ rfl
  | function =>
    cases h with
    | scope hp houter hsite hnames hhouses =>
      cases hp
      refine .scope rfl houter hsite (fun name hname => ?_) hhouses
      rcases List.mem_append.1 hname with hparam | hname
      · exact hnames name (List.mem_append_left _ hparam)
      · exact (hdeclared name hname).elim (fun h => hnames name (List.mem_append_right _ h))
          fun hs => hbound name hs _ rfl

/-- All statements of a suite stand in the same function. -/
theorem SuiteOf.inFunction {program : List Stmt} (h : SuiteOf program place statements) (before : List Stmt) :
    (place before).surroundings.inFunction = (place []).surroundings.inFunction := by
  cases h <;> rfl

/-! ## Declarations -/

theorem fits_methodClosure {outer : Place} {name : Name} {parent : Option Reference} {methods : List Method}
    (h : w.Stands l p env (.stmt (.class name parent methods))) {inner : Environment}
    (houter : p.methods name parent = .receiver outer) (hm : w.Matches l outer inner) {d : Class}
    (hparented : w.Parented outer inner d) : ∀ m ∈ methods.map (Run.methodClosure inner), w.MethodFits d m.2 := by
  intro m hm'
  obtain ⟨method, hmem, rfl⟩ := List.mem_map.1 hm'
  have hpart : (p.methods name parent, Node.function (methodRole method.name) method.function) ∈
      (Node.stmt (.class name parent methods)).parts p :=
    List.mem_append_right _ (List.mem_map_of_mem hmem)
  refine ⟨l, h.loaded, outer, methodRole method.name, houter ▸ h.occurs.part ?_, ?_, ?_, ?_⟩
  all_goals obtain ⟨name', function⟩ := method
  · exact hpart
  · exact hm
  · by_cases hname : name'.text = initializerName <;> simp [Run.methodClosure, methodRole, Method.name, hname]
  · exact hparented

theorem keeps_lookup {e : Expr} (h : w.Stands l p env (.expr e)) {use : Reference}
    (huse : use ∈ (Node.expr e).uses) : Keeps World.Recorded w (Recorder.read env use) World.ValueFits := by
  have hrecord (m : Machine) (hm : w.Holds m) : w.Allows (.looks env use m) := ⟨hm, l, p, e, h, huse⟩
  exact .note hrecord (.lift (keeps_read env use))

theorem keeps_declareClass {name : Name} {parent : Option Reference} {methods : List Method}
    (h : w.Stands l p env (.stmt (.class name parent methods))) (hname : IsName name.text) :
    Keeps World.Recorded w (Recorder.declareClass env name parent methods)
      fun w' _ => ∀ id ∈ env.head?, w'.bound id name.text := by
  have hdefine := keeps_define h.fits hname (v := .nil) fun _ _ _ => trivial
  refine hdefine.lift.bind fun _ w₁ hle hbound => ?_
  have h := h.mono hle
  have hnamed : w₁.Matches l (.named p name) env := .named h.fits hbound
  cases parent with
  | none =>
    refine .lift ?_
    have hnone : ∀ c ∈ (none : Option Class), w₁.ClassFits c := fun _ hc => by cases hc
    have hmethods (d : Class) (_ : d.parent? = none) := fits_methodClosure h rfl hnamed (d := d) fun _ hq => by cases hq
    refine (keeps_newClass hnone hmethods name.text).bind fun v w₂ hle₂ hv => ?_
    exact keeps_define (h.fits.mono hle₂) hname fun w' hle' _ => hv.mono hle'
  | some use =>
    have huse : w₁.Stands l (.named p name) env (.expr (.variable use)) :=
      h.part (List.mem_append_left _ (by simp)) hnamed
    refine .note (fun m hm => ⟨hm, l, _, huse⟩) ?_
    refine (keeps_lookup huse (List.mem_singleton_self use)).bind fun v w₂ hle₂ hv => ?_
    cases v with
    | «class» c =>
      refine .lift ?_
      have henter := keeps_enterSpecial (p := .parent (.named p name)) rfl not_isName_parent (hnamed.mono hle₂) hv
        fun _ _ _ _ => trivial
      refine henter.bind fun inner w₃ hle₃ ⟨hinner, id, hcons, hkept⟩ => ?_
      have h := h.mono (le_trans hle₂ hle₃)
      have hparent : ∀ c' ∈ some c, w₃.ClassFits c' := fun c' hc => Option.some.inj hc ▸ World.ClassFits.mono hle₃ hv
      have hmethods (d : Class) (hd : d.parent? = some c) := fits_methodClosure h rfl hinner (d := d) fun _ _ =>
        ⟨id, hcons ▸ rfl, c, hkept, hd⟩
      refine (keeps_newClass hparent hmethods name.text).bind fun v w₄ hle₄ hv => ?_
      exact keeps_define (h.fits.mono hle₄) hname fun w' hle' _ => hv.mono hle'
    | _ => exact .lift (keeps_fail _ _)

/-! ## Methods -/

theorem bindReceiver_sound {c d : Class} (hc : w.ClassFits c) (hd : c.DescendsFrom d) {name : String} {method : Closure}
    (hmethod : d.method? name = some method) (object : ObjectId) :
    Keeps World.Recorded w (Recorder.bindReceiver method (.object object c)) fun w' closure =>
      w'.ClosureFits closure ∧ closure.arity = method.arity :=
  (keeps_bindReceiver hc hd hmethod object).lift.bind fun _ _ _ ⟨hclosure, harity, hbound⟩ =>
    .note (fun _ _ => hbound) (.pure ⟨hclosure, harity⟩)

theorem property_sound {c : Class} (hc : w.ClassFits c) (id : ObjectId) (name : Name) :
    Keeps World.Recorded w (Recorder.property id c name) World.ValueFits := by
  have hfield : Keeps World.Holds w (Run.look fun h => (h.fields id).get? name.text)
      fun w' o => ∀ v ∈ o, w'.ValueFits v := keeps_look fun m hm v hv => hm.fields id name.text v hv
  refine hfield.lift.bind fun o w' hle ho => ?_
  cases o with
  | some v => exact .pure (ho v rfl)
  | none =>
    dsimp only
    cases hmethod : c.method? name.text with
    | some method =>
      exact (bindReceiver_sound (hc.mono hle) (.refl c) hmethod id).bind fun _ _ _ h => .lift (keeps_closure h.1)
    | none => exact .lift (keeps_fail _ _)

/-- The methods of the parent class suit the receiver, because its class descends from that too. -/
theorem parentMethod_sound {id : NodeId} {keyword method : Name}
    (h : w.Stands l p env (.expr (.parent id keyword method))) :
    Keeps World.Recorded w (Recorder.parentMethod env id keyword method) World.ValueFits := by
  have hget : Keeps World.Holds w (get : Run Machine) fun w' m => w'.Holds m := keeps_get fun m hm => hm
  refine hget.lift.bind fun m w' hle hm => ?_
  obtain ⟨inner, object, c, d, parent, hfound, hreceiver, hparent, hdescends⟩ := ((h.mono hle).findsParent hm).parentOf?
  have hc : w'.ClassFits c := World.Describes.get? hm hreceiver
  rw [hfound]
  dsimp only
  cases hmethod : parent.method? method.text with
  | some closure =>
    have hancestor := hdescends.trans (Class.descendsFrom_parent hparent)
    exact (bindReceiver_sound hc hancestor hmethod object).bind fun _ _ _ h => .lift (keeps_closure h.1)
  | none => exact .lift (keeps_fail _ _)

end Evaluation

/-- All that is evaluated, called and executed within so many steps keeps the world. -/
structure SoundAt (steps : Nat) : Prop where
  eval : ∀ {w l p env e}, World.Stands w l p env (.expr e) →
    Keeps World.Recorded w (Recorder.eval steps env e) World.ValueFits
  evalAll : ∀ {w l p env es}, (∀ e ∈ es, World.Stands w l p env (.expr e)) →
    Keeps World.Recorded w (Recorder.evalAll steps env es) fun w' values => ∀ v ∈ values, w'.ValueFits v
  call : ∀ {w line callee} {arguments : List Argument}, World.ValueFits w callee →
    (∀ a ∈ arguments, w.ValueFits a.value) →
    Keeps World.Recorded w (Recorder.call steps line callee arguments) World.ValueFits
  instantiate : ∀ {w c arguments}, World.ClassFits w c → (∀ v ∈ arguments, w.ValueFits v) →
    arguments.length = c.arity → Keeps World.Recorded w (Recorder.instantiate steps c arguments) World.ValueFits
  invoke : ∀ {w c arguments}, World.ClosureFits w c → (∀ v ∈ arguments, w.ValueFits v) →
    arguments.length = c.arity → Keeps World.Recorded w (Recorder.invoke steps c arguments) World.ValueFits
  exec : ∀ {w l p env s}, World.Stands w l p env (.stmt s) →
    Keeps World.Recorded w (Recorder.exec steps env s) fun w' flow => w'.FlowFits p.surroundings.inFunction s.Escapes flow ∧
      (flow = .normal → ∀ name ∈ s.names, ∀ id ∈ env.head?, w'.bound id name)
  execAll : ∀ {w l place statements before rest env}, l ∈ w.programs → SuiteOf l.program place statements →
    statements = before ++ rest → World.Matches w l (place before) env →
    Keeps World.Recorded w (Recorder.execAll steps env rest) fun w' flow =>
      w'.FlowFits (place []).surroundings.inFunction (∃ s ∈ rest, s.Escapes) flow
  loop : ∀ {w l p env condition body increment}, World.Stands w l p env (.stmt (.loop condition body increment)) →
    Keeps World.Recorded w (Recorder.loop steps env condition body increment) fun w' flow =>
      w'.FlowFits p.surroundings.inFunction False flow

section Steps

variable {steps : Nat} {w : World} {l : Loaded} {p : Place} {env : Environment}

/-! ## Expressions -/

/-- Whether its value is truthy decides what comes behind a condition. -/
theorem SoundAt.test {α : Type} {post : World → α → Prop} (ih : SoundAt steps) {e : Expr}
    (h : w.Stands l p env (.expr e)) {next : Value → Bool → Recorder α}
    (hnext : ∀ v truthy w', w ≤ w' → w'.ValueFits v → Keeps World.Recorded w' (next v truthy) post) :
    Keeps World.Recorded w (Recorder.eval steps env e >>= fun v =>
      Recorder.lift (Run.look (·.truthy v)) >>= fun truthy => next v truthy) post :=
  (ih.eval h).bind fun v _ hle hv => (keeps_truthy v).lift.bind fun truthy w' hle' _ =>
    hnext v truthy w' (hle.trans hle') (hv.mono hle')

theorem eval_sound (ih : SoundAt steps) {e : Expr} (h : w.Stands l p env (.expr e)) :
    Keeps World.Recorded w (Recorder.eval (steps + 1) env e) World.ValueFits := by
  refine .given fun r hr => .note (fun m hm => ⟨hm, l, p, h⟩) ?_
  have hunreserved : (Node.expr e).Unreserved := Occurs.every (hr.holds.runnable l h.loaded).unreserved h.occurs
  cases e with
  | literal value => exact .pure (plain_ofLiteral value).fits
  | «variable» use => exact keeps_lookup h (by simp [Node.uses])
  | assign target value =>
    refine (ih.eval (h.inner (by simp [Node.parts]))).bind fun v w₁ hle hv => ?_
    have hrecord (m : Machine) (hm : w₁.Holds m) : w₁.Allows (.looks env target m) :=
      ⟨hm, l, p, _, h.mono hle, List.mem_singleton_self target⟩
    refine .note hrecord ((keeps_assign env hunreserved hv).lift.bind fun _ w₂ hle₂ _ => .pure (hv.mono hle₂))
  | group inner => exact ih.eval (h.inner (by simp [Node.parts]))
  | unary op operand =>
    refine (ih.eval (h.inner (by simp [Node.parts]))).bind fun v w₁ hle hv => .lift ?_
    split
    · exact keeps_ofExcept fun _ hresult => (plain_negate hresult).fits
    · exact (keeps_truthy v).bind fun _ _ _ _ => .pure trivial
  | binary left op right =>
    refine (ih.eval (h.inner (by simp [Node.parts]))).bind fun v w₁ hle hv => ?_
    refine (ih.eval ((h.mono hle).inner (by simp [Node.parts]))).bind fun u w₂ hle₂ hu => ?_
    exact .lift (keeps_binary op v u)
  | logical left op right =>
    refine ih.test (h.inner (by simp [Node.parts])) fun v truthy w' hle hv => ?_
    split
    · exact .pure hv
    · exact ih.eval ((h.mono hle).inner (by simp [Node.parts]))
  | conditional condition thenBranch elseBranch =>
    refine ih.test (h.inner (by simp [Node.parts])) fun v truthy w' hle hv => ?_
    split
    · exact ih.eval ((h.mono hle).inner (by simp [Node.parts]))
    · exact ih.eval ((h.mono hle).inner (by simp [Node.parts]))
  | call callee line arguments =>
    refine (ih.eval (h.inner (by simp [Node.parts]))).bind fun v w₁ hle hv => ?_
    have harguments : ∀ e ∈ arguments, w₁.Stands l p env (.expr e) := fun e he =>
      (h.mono hle).inner (List.mem_cons_of_mem _ (List.mem_map_of_mem he))
    refine (ih.evalAll harguments).bind fun values w₂ hle₂ hvalues => ih.call (hv.mono hle₂) fun a ha => ?_
    obtain ⟨i, hi, rfl⟩ := List.mem_iff_getElem.1 ha
    rw [List.getElem_zipWith]
    exact hvalues _ (List.getElem_mem _)
  | get object name =>
    refine (ih.eval (h.inner (by simp [Node.parts]))).bind fun v w₁ hle hv => ?_
    cases v with
    | object id c => exact property_sound hv id name
    | _ => exact .lift (keeps_fail _ _)
  | set object name value =>
    refine (ih.eval (h.inner (by simp [Node.parts]))).bind fun v w₁ hle hv => ?_
    cases v with
    | object id c =>
      refine (ih.eval ((h.mono hle).inner (by simp [Node.parts]))).bind fun u w₂ hle₂ hu => ?_
      exact (keeps_setField id name.text hu).lift.bind fun _ w₃ hle₃ _ => .pure (hu.mono hle₃)
    | _ => exact .lift (keeps_fail _ _)
  | this id line => exact keeps_lookup h (by simp [Node.uses])
  | parent id keyword method =>
    have hrecord (m : Machine) (hm : w.Holds m) : w.Allows (.looks env ⟨id, parentName, keyword.line⟩ m) :=
      ⟨hm, l, p, _, h, List.mem_singleton_self _⟩
    exact .note hrecord (parentMethod_sound h)
  | lambda f =>
    refine .lift (keeps_closure ⟨l, h.loaded, p, .function, h.occurs.part (by simp [Node.parts]), h.fits, ?_⟩)
    simp
  | list line elements =>
    have helements : ∀ e ∈ elements, w.Stands l p env (.expr e) := fun e he =>
      h.inner (List.mem_map_of_mem he)
    refine (ih.evalAll helements).bind fun values w₁ hle hvalues => ?_
    have hadd : Keeps World.Holds w₁ (Run.allocate (·.addList values.toArray)) Whatever :=
      keeps_addList fun v hv => hvalues v (by simpa using hv)
    exact hadd.lift.bind fun _ _ _ _ => .pure trivial
  | index object line position =>
    refine (ih.eval (h.inner (by simp [Node.parts]))).bind fun v w₁ hle hv => ?_
    refine (ih.eval ((h.mono hle).inner (by simp [Node.parts]))).bind fun u w₂ hle₂ hu => .lift ?_
    exact keeps_operation fun m _ hm hresult => fits_subscript hm hresult

theorem evalAll_sound (ih : SoundAt steps) {es : List Expr} (h : ∀ e ∈ es, w.Stands l p env (.expr e)) :
    Keeps World.Recorded w (Recorder.evalAll (steps + 1) env es) fun w' values => ∀ v ∈ values, w'.ValueFits v := by
  cases es with
  | nil => exact .pure (by simp)
  | cons e rest =>
    refine (ih.eval (h e List.mem_cons_self)).bind fun v w₁ hle hv => ?_
    refine (ih.evalAll fun e' he' => (h e' (List.mem_cons_of_mem e he')).mono hle).bind fun values w₂ hle₂ hvalues => ?_
    exact .pure (List.forall_mem_cons.2 ⟨hv.mono hle₂, hvalues⟩)

/-! ## Calls -/

theorem call_sound (ih : SoundAt steps) {line : Nat} {callee : Value} {arguments : List Argument}
    (hcallee : w.ValueFits callee) (harguments : ∀ a ∈ arguments, w.ValueFits a.value) :
    Keeps World.Recorded w (Recorder.call (steps + 1) line callee arguments) World.ValueFits := by
  have hvalues : ∀ v ∈ arguments.map (·.value), w.ValueFits v := by
    simpa using harguments
  unfold Recorder.call
  cases hcallable : callee.callable? with
  | none => exact .lift (keeps_fail _ _)
  | some callable =>
    dsimp only
    split
    · exact .lift (keeps_fail _ _)
    case isFalse harity =>
      have harity : (arguments.map (·.value)).length = callable.arity := by simpa using harity
      refine .nested line ?_
      cases callee <;> cases hcallable
      case native => exact .lift (keeps_native line _ harguments)
      case constant => exact .pure hcallee
      case function => exact ih.invoke hcallee hvalues harity
      case «class» => exact ih.instantiate hcallee hvalues harity

theorem instantiate_sound (ih : SoundAt steps) {c : Class} {arguments : List Value} (hc : w.ClassFits c)
    (harguments : ∀ v ∈ arguments, w.ValueFits v) (harity : arguments.length = c.arity) :
    Keeps World.Recorded w (Recorder.instantiate (steps + 1) c arguments) World.ValueFits := by
  refine keeps_addObject.lift.bind fun id w₁ hle _ => ?_
  have hobject : w₁.ValueFits (.object id c) := hc.mono hle
  dsimp only
  cases hmethod : c.method? initializerName with
  | none => exact .pure hobject
  | some initializer =>
    refine (bindReceiver_sound (hc.mono hle) (.refl c) hmethod id).bind fun bound w₂ hle₂ hbound => ?_
    have harguments : ∀ v ∈ arguments, w₂.ValueFits v := fun v hv => (harguments v hv).mono (le_trans hle hle₂)
    have hlength : arguments.length = bound.arity := by
      rw [harity, hbound.2, Class.arity, hmethod]
      rfl
    exact (ih.invoke hbound.1 harguments hlength).bind fun _ w₃ hle₃ _ => .pure (hobject.mono (le_trans hle₂ hle₃))

/-- The frame around the body of an initializer is that of a receiver. -/
theorem bound_of_initializer {f : Function} {role : FunctionRole} (hoccurs : Occurs l.program p (.function role f))
    (hm : w.Matches l p env) (hrole : role = .initializer) : ∃ id object c, env.head? = some id ∧
      w.kept id receiverName = some (.object object c) := by
  subst hrole
  obtain ⟨outer, rfl⟩ := hoccurs.receiver_of_initializer
  cases hm with
  | scope hp _ _ _ hhouses =>
    cases hp
    obtain ⟨object, c, d, hkept, -⟩ := hhouses
    exact ⟨_, object, c, rfl, hkept⟩

theorem invoke_sound (ih : SoundAt steps) {c : Closure} {arguments : List Value} (hc : w.ClosureFits c)
    (harguments : ∀ v ∈ arguments, w.ValueFits v) (harity : arguments.length = c.arity) :
    Keeps World.Recorded w (Recorder.invoke (steps + 1) c arguments) World.ValueFits := by
  obtain ⟨l, hl, p, role, hoccurs, hfits, hrole⟩ := hc.occurs
  have henter : Keeps World.Holds w (Run.enter c.environment
      (Bindings.empty.setAll ((c.function.params.map (·.text)).zip arguments)))
      fun w' env => w'.Matches l (.function p role c.function.params []) env := by
    refine keeps_enterScope rfl hfits (fun name hname => Bindings.contains_setAll (.inr ?_)) (fun name v hv => ?_)
      fun _ _ => trivial
    · have hlength : (c.function.params.map (·.text)).length ≤ arguments.length := by
        rw [harity, List.length_map]
        rfl
      rw [List.map_fst_zip hlength]
      simpa [Stmt.namesAll] using hname
    · rcases Bindings.of_get?_setAll hv with hempty | hmem
      · cases hempty
      · exact harguments v (List.of_mem_zip hmem).2
  refine .given fun r hr => henter.lift.bind fun env w₁ hle henv => ?_
  refine (ih.execAll (hle.programs hl) (.function hoccurs) (List.nil_append _).symm henv).bind fun flow w₂ hle₂ hflow => ?_
  have hconfined : ∀ s ∈ c.function.body, ¬ s.Escapes := Occurs.every (hr.holds.runnable l hl).confined hoccurs
  have hflow : w₂.FlowFits (some role) False flow := hflow.imp fun h => by
    obtain ⟨s, hs, hescapes⟩ := h
    exact hconfined s hs hescapes
  have hfinishes : World.Finishes c flow := by
    cases flow with
    | normal => trivial
    | «break» | «continue» => exact hflow
    | «return» v => exact fun hinitializer => hflow.2.2 (hrole.1 hinitializer ▸ rfl)
  refine .note (fun _ _ => hfinishes) ?_
  have hreturns {x : Run Value}
      (hx : Keeps World.Holds w₂ x fun w' v => w'.ValueFits v ∧ (c.isInitializer = true → w'.BoundTo c v)) :
      Keeps World.Recorded w₂ (do
        let v ← Recorder.lift x
        Recorder.note fun _ => .returns c v
        pure v) World.ValueFits := by
    refine hx.lift.bind fun v w₃ _ hv => ?_
    have hrecord (m : Machine) (_ : w₃.Holds m) : w₃.Allows (.returns c v) := hv.2
    exact .note hrecord (.pure hv.1)
  refine hreturns ?_
  split
  case isTrue hinitializer =>
    obtain ⟨id, object, ofClass, henv, hkept⟩ := bound_of_initializer hoccurs hfits (hrole.1 hinitializer)
    refine keeps_look fun m hm => ?_
    have hkept := (le_trans hle hle₂).kept hkept
    have hframe := (hm.kept id receiverName _ hkept).2.2
    have hget : m.heap.get? c.environment 0 receiverName = some (.object object ofClass) :=
      Heap.get?_of_frame (by rw [← List.head?_eq_getElem?, henv]) hframe
    rw [hget, Option.getD_some]
    exact ⟨hm.frames id _ _ hframe, fun _ => ⟨id, object, ofClass, henv, rfl, hkept⟩⟩
  case isFalse hplain =>
    cases flow with
    | «return» v => exact .pure ⟨hflow.1, fun h => absurd h hplain⟩
    | _ => exact .pure ⟨trivial, fun h => absurd h hplain⟩

/-! ## Statements -/

theorem exec_sound (ih : SoundAt steps) {s : Stmt} (h : w.Stands l p env (.stmt s)) :
    Keeps World.Recorded w (Recorder.exec (steps + 1) env s) fun w' flow =>
      w'.FlowFits p.surroundings.inFunction s.Escapes flow ∧
        (flow = .normal → ∀ name ∈ s.names, ∀ id ∈ env.head?, w'.bound id name) := by
  refine .given fun r hr => .note (fun m hm => ⟨hm, l, p, h⟩) ?_
  have hrunnable := hr.holds.runnable l h.loaded
  have hunreserved : (Node.stmt s).Unreserved := Occurs.every hrunnable.unreserved h.occurs
  have hsettled : (Node.stmt s).Every Node.Settled := h.occurs.inside hrunnable.settled
  have hnames : s.names = s.declaredName?.toList := Stmt.names_of_settled hsettled
  have hnameless {w' : World} {flow : Flow} (hs : s.declaredName? = none) :
      flow = .normal → ∀ name ∈ s.names, ∀ id ∈ env.head?, w'.bound id name := by simp [hnames, hs]
  have hnamed {w' : World} {flow : Flow} {name : String} (hs : s.declaredName? = some name)
      (hbound : ∀ id ∈ env.head?, w'.bound id name) :
      flow = .normal → ∀ name ∈ s.names, ∀ id ∈ env.head?, w'.bound id name := by
    intro _ other hother
    rw [hnames, hs, Option.toList_some, List.mem_singleton] at hother
    exact hother ▸ hbound
  cases s with
  | expression value =>
    refine (ih.eval (h.inner (by simp [Node.parts]))).bind fun v w₁ hle hv => ?_
    have hget : Keeps World.Holds w₁ (get : Run Machine) Whatever := keeps_get fun _ _ => trivial
    refine hget.lift.bind fun m w₂ hle₂ _ => ?_
    dsimp only
    split
    · exact (keeps_writeLine .echoed v).lift.bind fun _ _ _ _ => .pure ⟨trivial, hnameless rfl⟩
    · exact .pure ⟨trivial, hnameless rfl⟩
  | print line value =>
    refine (ih.eval (h.inner (by simp [Node.parts]))).bind fun v w₁ hle hv => ?_
    exact (keeps_writeLine .printed v).lift.bind fun _ _ _ _ => .pure ⟨trivial, hnameless rfl⟩
  | var name initializer =>
    cases initializer with
    | none =>
      have hdefine := keeps_define h.fits hunreserved (v := .nil) fun _ _ _ => trivial
      exact hdefine.lift.bind fun _ w₁ _ hbound => .pure ⟨trivial, hnamed rfl hbound⟩
    | some value =>
      have hvalue : w.Stands l (.initializer p name) env (.expr value) :=
        h.part (by simp [Node.parts]) (.initializer name h.fits)
      refine (ih.eval hvalue).bind fun v w₁ hle hv => ?_
      exact (keeps_define (h.mono hle).fits hunreserved fun w' hle' _ => hv.mono hle').lift.bind
        fun _ w₂ _ hbound => .pure ⟨trivial, hnamed rfl hbound⟩
  | block body =>
    have henter : Keeps World.Holds w (Run.enter env .empty) fun w' inner => w'.Matches l (.block p []) inner :=
      keeps_enterScope rfl h.fits (fun _ hname => by cases hname) (fun _ _ hv => by cases hv) fun _ _ => trivial
    refine henter.lift.bind fun inner w₁ hle hinner => ?_
    have hbody := ih.execAll (hle.programs h.loaded) (.block h.occurs) (List.nil_append _).symm hinner
    refine hbody.mono fun w₂ flow _ hflow => ⟨hflow.imp fun h => ?_, hnameless rfl⟩
    obtain ⟨s, hs, hescapes⟩ := h
    exact .block hs hescapes
  | branch condition thenBranch elseBranch =>
    refine ih.test (h.inner (by simp [Node.parts])) fun v truthy w' hle hv => ?_
    have h := h.mono hle
    split
    · have hthen := ih.exec (h.inner (m := .stmt thenBranch) (by simp [Node.parts]))
      exact hthen.mono fun w₃ flow _ hflow => ⟨hflow.1.imp .thenBranch, hnameless rfl⟩
    · cases elseBranch with
      | none => exact .pure ⟨trivial, hnameless rfl⟩
      | some elseBranch =>
        have helse := ih.exec (h.past (m := .stmt elseBranch) (Stmt.names_of_thenBranch hsettled) (by simp [Node.parts]))
        exact helse.mono fun w₃ flow _ hflow => ⟨hflow.1.imp .elseBranch, hnameless rfl⟩
  | loop condition body increment =>
    exact (ih.loop h).mono fun w₁ flow _ hflow => ⟨hflow.imp False.elim, hnameless rfl⟩
  | «break» line => exact .pure ⟨.break line, hnameless rfl⟩
  | «continue» line => exact .pure ⟨.continue line, hnameless rfl⟩
  | «return» line value =>
    have hfunction := hrunnable.legal.returns_in_function p line value h.occurs
    cases value with
    | none => exact .pure ⟨⟨trivial, hfunction, fun _ => rfl⟩, hnameless rfl⟩
    | some value =>
      have hinitializer := hrunnable.legal.initializers_return_nothing p line value h.occurs
      refine (ih.eval (h.inner (by simp [Node.parts]))).bind fun v w₁ hle hv => ?_
      exact .pure ⟨⟨hv, hfunction, fun hrole => absurd hrole hinitializer⟩, hnameless rfl⟩
  | function name f =>
    refine (keeps_newFunction _).lift.bind fun v w₁ hle hv => ?_
    obtain ⟨identity, hv⟩ := hv
    -- The function is a value of the world in which its own name is bound.
    have hfits (w' : World) (hle' : w₁ ≤ w') (hbound : ∀ id ∈ env.head?, w'.bound id name.text) : w'.ValueFits v := by
      have h := h.mono (le_trans hle hle')
      subst hv
      exact ⟨l, h.loaded, .named p name, .function, h.occurs.part (by simp [Node.parts]), .named h.fits hbound, by simp⟩
    exact (keeps_define (h.mono hle).fits hunreserved hfits).lift.bind fun _ w₂ _ hbound => .pure ⟨trivial, hnamed rfl hbound⟩
  | «class» name parent methods =>
    exact (keeps_declareClass h hunreserved).bind fun _ w₁ _ hbound => .pure ⟨trivial, hnamed rfl hbound⟩
  | empty => exact .pure ⟨trivial, hnameless rfl⟩

theorem execAll_sound (ih : SoundAt steps) {place : List Stmt → Place} {statements before rest : List Stmt}
    (hl : l ∈ w.programs) (hsuite : SuiteOf l.program place statements) (hs : statements = before ++ rest)
    (hm : w.Matches l (place before) env) :
    Keeps World.Recorded w (Recorder.execAll (steps + 1) env rest) fun w' flow =>
      w'.FlowFits (place []).surroundings.inFunction (∃ s ∈ rest, s.Escapes) flow := by
  cases rest with
  | nil => exact .pure trivial
  | cons s rest =>
    refine (ih.exec ⟨hl, hsuite.occurs hs, hm⟩).bind fun flow w₁ hle hflow => ?_
    rw [hsuite.inFunction] at hflow
    cases flow with
    | normal =>
      have hnext := hsuite.next (hm.mono hle) (hflow.2 rfl)
      refine (ih.execAll (hle.programs hl) hsuite (by simp [hs]) hnext).mono fun w₂ flow _ hrest => ?_
      exact hrest.imp fun ⟨s', hs', hescapes⟩ => ⟨s', List.mem_cons_of_mem s hs', hescapes⟩
    | _ => exact .pure (hflow.1.imp fun hescapes => ⟨s, List.mem_cons_self, hescapes⟩)

theorem loop_sound (ih : SoundAt steps) {condition : Expr} {body : Stmt} {increment : Option Expr}
    (h : w.Stands l p env (.stmt (.loop condition body increment))) :
    Keeps World.Recorded w (Recorder.loop (steps + 1) env condition body increment) fun w' flow =>
      w'.FlowFits p.surroundings.inFunction False flow := by
  refine .given fun r hr => ih.test (h.inner (by simp [Node.parts])) fun v truthy w' hle hv => ?_
  have hbody : body.names = [] := Stmt.names_of_body (h.occurs.inside (hr.holds.runnable l h.loaded).settled)
  have h := h.mono hle
  split
  case isFalse => exact .pure trivial
  case isTrue =>
    refine (ih.exec (h.inner (m := .stmt body) (by simp [Node.parts]))).bind fun flow w₃ hle₃ hflow => ?_
    have h := h.mono hle₃
    cases flow with
    | «break» => exact .pure trivial
    | «return» v => exact .pure hflow.1
    | normal | «continue» =>
      cases increment with
      | none => exact ih.loop h
      | some increment =>
        exact (ih.eval (h.past hbody (by simp [Node.parts]))).bind fun _ w₄ hle₄ _ => ih.loop (h.mono hle₄)

/-- Within however many steps, all that happens keeps the world. -/
theorem sound (steps : Nat) : SoundAt steps := by
  induction steps with
  | zero => constructor <;> intros <;> exact .lift keeps_unfinished
  | succ steps ih =>
    exact ⟨eval_sound ih, evalAll_sound ih, call_sound ih, instantiate_sound ih, invoke_sound ih, exec_sound ih,
      execAll_sound ih, loop_sound ih⟩

/-- The statements of a program that can run keep its world, and each hands over to the next one. -/
theorem program_sound {before rest : List Stmt} (hl : l ∈ w.programs) (hs : l.program = before ++ rest) :
    Keeps World.Recorded w (Recorder.program steps rest) Whatever := by
  induction rest generalizing w before with
  | nil => exact .pure trivial
  | cons s rest ih =>
    refine .given fun r hr => ?_
    have hcontained : ¬ s.Escapes := (hr.holds.runnable l hl).contained s (by simp [hs])
    refine ((sound steps).exec ⟨hl, SuiteOf.top.occurs hs, .top before⟩).bind fun flow w₁ hle hflow => ?_
    have hnormal : flow = .normal := by
      cases flow with
      | normal => rfl
      | «break» | «continue» => exact absurd hflow.1 hcontained
      | «return» v => exact absurd rfl hflow.1.2.1
    have hnext : l.program = (before ++ [s]) ++ rest := by simp [hs]
    exact .note (fun _ _ => hnormal) (ih (hle.programs hl) hnext)

end Steps

end TreeWalk
