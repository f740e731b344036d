import TreeWalk.Proofs.Evaluation.Sturdy
import TreeWalk.Proofs.Session.Launch

/-!
# Runs do not crash

Programs that have been read, with or without errors, run on any table of distances without a crash other
than the one of a pause that is too long. By induction on the steps, everything that is evaluated in a
sturdy heap is safe.
-/

namespace TreeWalk

open Evaluation

variable {names : TopNames}

/-- All that is evaluated, called and executed within so many steps is safe. At top level no names are declared
but the given ones. -/
structure SafeAt (names : TopNames) (steps : Nat) : Prop where
  eval : ∀ {env e}, Environment.Sturdy env → (Node.expr e).Every Node.Settled → Safe names (eval steps env e) Value.Sturdy
  evalAll : ∀ {env es}, Environment.Sturdy env → (∀ e ∈ es, (Node.expr e).Every Node.Settled) →
    Safe names (evalAll steps env es) fun values => ∀ v ∈ values, v.Sturdy
  call : ∀ {line callee} {arguments : List Argument}, Value.Sturdy callee → (∀ a ∈ arguments, a.value.Sturdy) →
    Safe names (call steps line callee arguments) Value.Sturdy
  instantiate : ∀ {c arguments}, Class.Sturdy c → (∀ v ∈ arguments, Value.Sturdy v) →
    Safe names (instantiate steps c arguments) Value.Sturdy
  invoke : ∀ {c arguments}, Closure.Sturdy c → (∀ v ∈ arguments, Value.Sturdy v) →
    Safe names (invoke steps c arguments) Value.Sturdy
  exec : ∀ {env s}, Environment.Sturdy env → (env = [] → ∀ name ∈ s.declaredName?, names.allowed name) →
    (Node.stmt s).Every Node.Settled → Safe names (exec steps env s) fun flow => ∀ v, flow = .return v → v.Sturdy
  execAll : ∀ {env statements}, Environment.Sturdy env → env ≠ [] → (∀ s ∈ statements, (Node.stmt s).Every Node.Settled) →
    Safe names (execAll steps env statements) fun flow => ∀ v, flow = .return v → v.Sturdy
  loop : ∀ {env condition body increment}, Environment.Sturdy env →
    (Node.stmt (.loop condition body increment)).Every Node.Settled →
    Safe names (loop steps env condition body increment) fun flow => ∀ v, flow = .return v → v.Sturdy

section Steps

variable {steps : Nat} {env : Environment}

/-! ## Expressions -/

theorem safe_truthy (v : Value) : Safe names (Run.look (·.truthy v)) fun _ => True := .look fun _ _ => trivial

theorem safe_eval (ih : SafeAt names steps) {e : Expr} (henv : env.Sturdy) (h : (Node.expr e).Every Node.Settled) :
    Safe names (eval (steps + 1) env e) Value.Sturdy := by
  have child {e' : Expr} (he : Node.expr e' ∈ (Node.expr e).children) := h.child _ he
  unfold eval
  cases e with
  | literal value => exact .pure (plain_ofLiteral value).sturdy
  | «variable» use => exact safe_read env use
  | assign target value =>
    exact (ih.eval henv (child (by simp [Node.children, Node.parts]))).bind fun v hv =>
      (safe_assign env target hv).bind fun _ _ => .pure hv
  | group inner => exact ih.eval henv (child (by simp [Node.children, Node.parts]))
  | unary op operand =>
    refine (ih.eval henv (child (by simp [Node.children, Node.parts]))).bind fun v _ => ?_
    cases op.kind with
    | negate => exact .ofExcept fun _ hresult => (plain_negate hresult).sturdy
    | not => exact (safe_truthy v).bind fun _ _ => .pure trivial
  | binary left op right =>
    refine (ih.eval henv (child (by simp [Node.children, Node.parts]))).bind fun v _ => ?_
    exact (ih.eval henv (child (by simp [Node.children, Node.parts]))).bind fun u _ => safe_binary h.here v u
  | logical left op right =>
    refine (ih.eval henv (child (by simp [Node.children, Node.parts]))).bind fun v hv => ?_
    refine (safe_truthy v).bind fun truthy _ => ?_
    split
    · exact .pure hv
    · exact ih.eval henv (child (by simp [Node.children, Node.parts]))
  | conditional condition thenBranch elseBranch =>
    refine (ih.eval henv (child (by simp [Node.children, Node.parts]))).bind fun v _ => ?_
    refine (safe_truthy v).bind fun truthy _ => ?_
    split
    · exact ih.eval henv (child (by simp [Node.children, Node.parts]))
    · exact ih.eval henv (child (by simp [Node.children, Node.parts]))
  | call callee line arguments =>
    refine (ih.eval henv (child (by simp))).bind fun v hv => ?_
    have harguments : ∀ e ∈ arguments, (Node.expr e).Every Node.Settled := fun e he => child (by simp [he])
    refine (ih.evalAll henv harguments).bind fun values hvalues => ih.call hv fun a ha => ?_
    obtain ⟨i, hi, rfl⟩ := List.mem_iff_getElem.1 ha
    rw [List.getElem_zipWith]
    exact hvalues _ (List.getElem_mem _)
  | get object name =>
    refine (ih.eval henv (child (by simp [Node.children, Node.parts]))).bind fun v hv => ?_
    cases v with
    | object id c => exact safe_property hv id name
    | _ => exact .fail _ _
  | set object name value =>
    refine (ih.eval henv (child (by simp [Node.children, Node.parts]))).bind fun v hv => ?_
    cases v with
    | object id c =>
      refine (ih.eval henv (child (by simp [Node.children, Node.parts]))).bind fun u hu => ?_
      exact (Safe.update fun _ hh => hh.setField id name.text hu).bind fun _ _ => .pure hu
    | _ => exact .fail _ _
  | this id line => exact safe_read env _
  | parent id keyword method => exact safe_parentMethod env id keyword method
  | lambda f =>
    have hf : (Node.function .function f).Every Node.Settled := h.child _ (by simp [Node.children, Node.parts])
    exact safe_newFunction (Closure.sturdy_of_every hf .lambda henv false)
  | list line elements =>
    have helements : ∀ e ∈ elements, (Node.expr e).Every Node.Settled := fun e he => child (by simp [he])
    refine (ih.evalAll henv helements).bind fun values hvalues => ?_
    have hadd : Safe names (Run.allocate (·.addList values.toArray)) fun _ => True :=
      .allocate fun _ hh => ⟨hh.addList fun v hv => hvalues v (by simpa using hv), trivial⟩
    exact hadd.bind fun _ _ => .pure trivial
  | index object line position =>
    refine (ih.eval henv (child (by simp [Node.children, Node.parts]))).bind fun v _ => ?_
    exact (ih.eval henv (child (by simp [Node.children, Node.parts]))).bind fun u _ => safe_subscript line v u

theorem safe_evalAll (ih : SafeAt names steps) {es : List Expr} (henv : env.Sturdy)
    (h : ∀ e ∈ es, (Node.expr e).Every Node.Settled) :
    Safe names (evalAll (steps + 1) env es) fun values => ∀ v ∈ values, v.Sturdy := by
  cases es with
  | nil => exact .pure (by simp)
  | cons e rest =>
    refine (ih.eval henv (h e (by simp))).bind fun v hv => ?_
    exact (ih.evalAll henv fun e he => h e (by simp [he])).bind fun values hvalues => .pure (List.forall_mem_cons.2 ⟨hv, hvalues⟩)

/-! ## Calls -/

/-- Whatever is called has as many arguments as it takes. -/
theorem safe_call (ih : SafeAt names steps) {line : Nat} {callee : Value} {arguments : List Argument} (hcallee : callee.Sturdy)
    (harguments : ∀ a ∈ arguments, a.value.Sturdy) : Safe names (call (steps + 1) line callee arguments) Value.Sturdy := by
  have hvalues : ∀ v ∈ arguments.map (·.value), v.Sturdy := fun v hv => by
    obtain ⟨a, ha, rfl⟩ := List.mem_map.1 hv
    exact harguments a ha
  unfold call
  cases hcallable : callee.callable? with
  | none => exact .fail _ _
  | some callable =>
    dsimp only
    split
    case isTrue => exact .fail _ _
    case isFalse hlength =>
      have hlength : arguments.length = callable.arity := by simpa using hlength
      refine .nested line ?_
      cases callee <;> cases hcallable
      case native => exact safe_native line hcallee harguments hlength
      case constant => exact .pure hcallee
      case function => exact ih.invoke hcallee hvalues
      case «class» => exact ih.instantiate hcallee hvalues

theorem safe_instantiate (ih : SafeAt names steps) {c : Class} {arguments : List Value} (hc : c.Sturdy)
    (harguments : ∀ v ∈ arguments, v.Sturdy) : Safe names (instantiate (steps + 1) c arguments) Value.Sturdy := by
  have hobject : Safe names (Run.allocate (·.addObject)) fun _ => True := .allocate fun _ hh => ⟨hh.addObject, trivial⟩
  refine hobject.bind fun id _ => ?_
  cases hmethod : c.method? initializerName with
  | none => exact .pure hc
  | some initializer =>
    refine (safe_bindReceiver (v := .object id c) (hc.method hmethod) hc).bind fun bound hbound => ?_
    exact (ih.invoke hbound harguments).bind fun _ _ => .pure hc

theorem safe_invoke (ih : SafeAt names steps) {c : Closure} {arguments : List Value} (hc : c.Sturdy)
    (harguments : ∀ v ∈ arguments, v.Sturdy) : Safe names (invoke (steps + 1) c arguments) Value.Sturdy := by
  have hparameters (name : String) (v : Value)
      (hv : (Bindings.empty.setAll ((c.function.params.map (·.text)).zip arguments)).get? name = some v) : v.Sturdy := by
    rcases Bindings.of_get?_setAll hv with hempty | hmem
    · cases hempty
    · exact harguments v (List.of_mem_zip hmem).2
  refine (safe_enter hc.environment hparameters).bind fun inner hinner => ?_
  refine (ih.execAll hinner.1 hinner.2 hc.settled).bind fun flow hflow => ?_
  split
  · refine .look fun heap hh => ?_
    cases hget : heap.get? c.environment 0 receiverName with
    | none => trivial
    | some v => exact Heap.Sturdy.get? hh hget
  · cases flow with
    | «return» v => exact .pure (hflow v rfl)
    | _ => exact .pure trivial

/-! ## Statements -/

theorem safe_normal : Safe names (pure Flow.normal) fun flow => ∀ v, flow = .return v → v.Sturdy :=
  .pure (by rintro _ ⟨⟩)

/-- A statement that declares nothing can be executed at top level too. -/
theorem SafeAt.exec_nameless (ih : SafeAt names steps) (henv : env.Sturdy) {s : Stmt} (hs : s.declaredName? = none)
    (h : (Node.stmt s).Every Node.Settled) :
    Safe names (Evaluation.exec steps env s) fun flow => ∀ v, flow = .return v → v.Sturdy :=
  ih.exec henv (fun _ name hname => by rw [hs] at hname; cases hname) h

theorem safe_exec (ih : SafeAt names steps) {s : Stmt} (henv : env.Sturdy)
    (hnames : env = [] → ∀ name ∈ s.declaredName?, names.allowed name) (h : (Node.stmt s).Every Node.Settled) :
    Safe names (exec (steps + 1) env s) fun flow => ∀ v, flow = .return v → v.Sturdy := by
  have child {n : Node} (hn : n ∈ (Node.stmt s).children) := h.child _ hn
  unfold exec
  cases s with
  | expression value =>
    refine (ih.eval henv (child (by simp [Node.children, Node.parts]))).bind fun v _ => Safe.get.bind fun m _ => ?_
    split
    · exact (safe_writeLine .echoed v).bind fun _ _ => safe_normal
    · exact safe_normal
  | print line value =>
    refine (ih.eval henv (child (by simp [Node.children, Node.parts]))).bind fun v _ => ?_
    exact (safe_writeLine .printed v).bind fun _ _ => safe_normal
  | var name initializer =>
    cases initializer with
    | none => exact (safe_define (v := .nil) henv (hnames · _ rfl) trivial).bind fun _ _ => safe_normal
    | some initializer =>
      refine (ih.eval henv (child (by simp [Node.children, Node.parts]))).bind fun v hv => ?_
      exact (safe_define henv (hnames · _ rfl) hv).bind fun _ _ => safe_normal
  | block body =>
    refine (safe_enter henv fun _ _ hv => by simp [Bindings.get?_empty] at hv).bind fun inner hinner => ?_
    exact ih.execAll hinner.1 hinner.2 fun s hs => child (by simp [hs])
  | branch condition thenBranch elseBranch =>
    refine (ih.eval henv (child (by simp [Node.children, Node.parts]))).bind fun v _ => ?_
    refine (safe_truthy v).bind fun truthy _ => ?_
    split
    · exact ih.exec_nameless henv h.here.1 (child (by simp [Node.children, Node.parts]))
    · cases elseBranch with
      | none => exact safe_normal
      | some elseBranch => exact ih.exec_nameless henv (h.here.2 _ rfl) (child (by simp [Node.children, Node.parts]))
  | loop condition body increment => exact ih.loop henv h
  | «break» line => exact .pure (by rintro _ ⟨⟩)
  | «continue» line => exact .pure (by rintro _ ⟨⟩)
  | «return» line value =>
    cases value with
    | none => exact .pure fun v hv => Flow.return.inj hv ▸ trivial
    | some value =>
      exact (ih.eval henv (child (by simp [Node.children, Node.parts]))).bind fun v hv =>
        .pure fun u hu => Flow.return.inj hu ▸ hv
  | function name f =>
    have hf : (Node.function .function f).Every Node.Settled := child (by simp [Node.children, Node.parts])
    refine (safe_newFunction (Closure.sturdy_of_every hf (.function name.text) henv false)).bind fun v hv => ?_
    exact (safe_define henv (hnames · _ rfl) hv).bind fun _ _ => safe_normal
  | «class» name parent methods => exact (safe_declareClass henv (hnames · _ rfl) h).bind fun _ _ => safe_normal
  | empty => exact safe_normal

theorem safe_execAll (ih : SafeAt names steps) {statements : List Stmt} (henv : env.Sturdy) (hinner : env ≠ [])
    (h : ∀ s ∈ statements, (Node.stmt s).Every Node.Settled) :
    Safe names (execAll (steps + 1) env statements) fun flow => ∀ v, flow = .return v → v.Sturdy := by
  cases statements with
  | nil => exact .pure nofun
  | cons s rest =>
    refine (ih.exec henv (absurd · hinner) (h s (by simp))).bind fun flow hflow => ?_
    cases flow with
    | normal => exact ih.execAll henv hinner fun s hs => h s (by simp [hs])
    | _ => exact .pure hflow

theorem safe_loop (ih : SafeAt names steps) {condition : Expr} {body : Stmt} {increment : Option Expr}
    (henv : env.Sturdy) (h : (Node.stmt (.loop condition body increment)).Every Node.Settled) :
    Safe names (loop (steps + 1) env condition body increment) fun flow => ∀ v, flow = .return v → v.Sturdy := by
  have child {n : Node} (hn : n ∈ (Node.stmt (.loop condition body increment)).children) := h.child _ hn
  refine (ih.eval henv (child (by simp [Node.children, Node.parts]))).bind fun v _ => ?_
  refine (safe_truthy v).bind fun truthy _ => ?_
  split
  · refine (ih.exec_nameless henv h.here (child (by simp [Node.children, Node.parts]))).bind fun flow hflow => ?_
    cases flow with
    | «break» => exact safe_normal
    | «return» u => exact .pure hflow
    | normal | «continue» =>
      cases increment with
      | none => exact ih.loop henv h
      | some increment =>
        exact (ih.eval henv (child (by simp [Node.children, Node.parts]))).bind fun _ _ => ih.loop henv h
  · exact safe_normal

theorem safe (names : TopNames) (steps : Nat) : SafeAt names steps := by
  induction steps with
  | zero => constructor <;> intros <;> exact Safe.unfinished
  | succ steps ih =>
    exact ⟨safe_eval ih, safe_evalAll ih, safe_call ih, safe_instantiate ih, safe_invoke ih, safe_exec ih,
      safe_execAll ih, safe_loop ih⟩

theorem safe_program (steps : Nat) {statements : List Stmt} (h : ∀ s ∈ statements, (Node.stmt s).Every Node.Settled)
    (hnames : ∀ name ∈ declaredNames statements, names.allowed name) :
    Safe names (program steps statements) fun _ => True := by
  induction statements with
  | nil => exact .pure trivial
  | cons s rest ih =>
    have hs : Safe names (exec steps [] s) fun _ => True :=
      ((safe names steps).exec List.not_mem_nil (fun _ name hname => hnames name (List.mem_filterMap.2 ⟨s, by simp, hname⟩))
        (h s (by simp))).mono fun _ _ => trivial
    refine hs.bind fun _ _ => ih (fun s hs => h s (by simp [hs])) fun name hname => hnames name ?_
    obtain ⟨s', hs', hname⟩ := List.mem_filterMap.1 hname
    exact List.mem_filterMap.2 ⟨s', by simp [hs'], hname⟩

end Steps

end TreeWalk
