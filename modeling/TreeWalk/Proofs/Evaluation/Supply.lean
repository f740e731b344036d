import TreeWalk.Proofs.Evaluation.Arguments

/-!
# All calls of a run

Every call that a run makes hands over its arguments, however many other calls are around it. There is one lemma for each
function of the evaluator, with a case for each form of expression and statement, and the induction is on the steps.
-/

namespace TreeWalk

/-! ## Happenings -/

theorem Happens.append_iff {hs hs' : List Happening} {calls : Nat} {x : Happening} :
    Happens (hs ++ hs') calls x ↔ Happens hs calls x ∨ Happens hs' calls x := by
  refine ⟨fun hx => ?_, Or.rec (·.mono (List.subset_append_left hs hs')) (·.mono (List.subset_append_right hs hs'))⟩
  cases hx with
  | here hmem => exact (List.mem_append.1 hmem).imp .here .here
  | inside hmem hx => exact (List.mem_append.1 hmem).imp (.inside · hx) (.inside · hx)

/-- In what is not a call none happens. -/
theorem Happens.not_call {h : Happening} (hcall : ∀ b d hs, h ≠ .call b d hs) {calls : Nat} {a : Invocation} {depth : Nat}
    {inside : List Happening} : ¬ Happens [h] calls (.call a depth inside) := by
  intro hx
  cases hx with
  | here hmem | inside hmem => exact hcall _ _ _ (List.mem_singleton.1 hmem).symm

/-- All calls hand over their arguments, also those inside others, and only calls enter bodies. -/
structure Supplied (hs : List Happening) : Prop where
  calls : ∀ calls a depth inside, Happens hs calls (.call a depth inside) → a.HandsOver depth inside
  bodies : ∀ c depth, .enters c depth ∉ hs

/-- All calls inside of one hand over their arguments, and one body is entered at most, before anything else happens. -/
structure Invocation.Encloses (a : Invocation) (inside : List Happening) : Prop where
  calls : ∀ calls b depth inside', Happens inside calls (.call b depth inside') → b.HandsOver depth inside'
  body : ∀ c d, .enters c d ∈ inside → a.Runs c ∧ ∃ later, inside = .enters c d :: later ∧ ∀ c' d', .enters c' d' ∉ later

section Supplied

variable {a : Invocation} {c : Closure} {depth : Nat} {hs hs' inside : List Happening}

theorem supplied_nil : Supplied [] := ⟨fun _ _ _ _ hx => (Happens.nil_iff.1 hx).elim, fun _ _ => List.not_mem_nil⟩

theorem Supplied.append (h : Supplied hs) (h' : Supplied hs') : Supplied (hs ++ hs') where
  calls calls a depth inside hx := (Happens.append_iff.1 hx).elim (h.calls calls a depth inside) (h'.calls calls a depth inside)
  bodies c depth hmem := (List.mem_append.1 hmem).elim (h.bodies c depth) (h'.bodies c depth)

theorem supplied_single {h : Happening} (hcall : ∀ b d hs, h ≠ .call b d hs) (henters : ∀ c d, h ≠ .enters c d) :
    Supplied [h] where
  calls _ _ _ _ hx := absurd hx (Happens.not_call hcall)
  bodies c d hmem := henters c d (List.mem_singleton.1 hmem).symm

theorem supplied_call (h : a.HandsOver depth inside) (hinside : a.Encloses inside) : Supplied [.call a depth inside] := by
  refine ⟨fun calls b d inside' hx => ?_, by simp⟩
  cases hx with
  | here hmem =>
    cases List.mem_singleton.1 hmem
    exact h
  | inside hmem hx =>
    cases List.mem_singleton.1 hmem
    exact hinside.calls _ b d inside' hx

theorem Supplied.encloses (h : Supplied hs) (a : Invocation) : a.Encloses hs :=
  ⟨h.calls, fun c d hmem => absurd hmem (h.bodies c d)⟩

theorem Supplied.enters (h : Supplied hs) (hruns : a.Runs c) (depth : Nat) : a.Encloses (.enters c depth :: hs) where
  calls calls b d inside hx := by
    rcases Happens.cons_iff.1 hx with hx | hx
    · exact absurd hx (Happens.not_call (h := .enters c depth) nofun)
    · exact h.calls calls b d inside hx
  body c' d hmem := by
    rcases List.mem_cons.1 hmem with heq | hmem
    · cases heq
      exact ⟨hruns, hs, rfl, h.bodies⟩
    · exact absurd hmem (h.bodies c' d)

end Supplied

/-- In what happens from the state on all calls hand over their arguments. -/
def Supplies {α : Type} (t : Tracing) (result : EStateM.Result Stop Tracing α) : Prop :=
  ∃ hs, (stateBehind result).happenings = t.happenings ++ hs ∧ Supplied hs

namespace Supplies

variable {α β : Type} {t : Tracing} {x : Tracer α}

theorem silent {result : EStateM.Result Stop Tracing α} (h : (stateBehind result).happenings = t.happenings) :
    Supplies t result := ⟨[], by rw [h, List.append_nil], supplied_nil⟩

protected theorem lift (y : Recorder α) (t : Tracing) : Supplies t (Tracer.lift y t) :=
  silent (Tracer.happenings_lift y t)

protected theorem run (y : Run α) (t : Tracing) : Supplies t (Tracer.run y t) := .lift (Recorder.lift y) t

protected theorem pure (v : α) (t : Tracing) : Supplies t ((Pure.pure v : Tracer α) t) := silent rfl

theorem bind {f : α → Tracer β} (hx : Supplies t (x t)) (hf : ∀ v t', x t = .ok v t' → Supplies t' (f v t')) :
    Supplies t ((x >>= f) t) := by
  obtain ⟨hs, hhs, hsupplied⟩ := hx
  cases h : x t with
  | error stop t' =>
    rw [h] at hhs
    rw [bind_error h]
    exact ⟨hs, hhs, hsupplied⟩
  | ok v t' =>
    rw [h] at hhs
    rw [bind_ok h]
    obtain ⟨hs', hhs', hsupplied'⟩ := hf v t' h
    refine ⟨hs ++ hs', ?_, hsupplied.append hsupplied'⟩
    rw [hhs', ← List.append_assoc]
    exact congrArg (· ++ hs') hhs

/-- Something without a call comes first. -/
theorem after {y : Recorder α} {f : α → Tracer β} (hf : ∀ v t', Supplies t' (f v t')) :
    Supplies t ((Tracer.lift y >>= f) t) := .bind (.lift y t) fun v t' _ => hf v t'

theorem reach (env : Environment) (n : Node) {f : Unit → Tracer α} (hf : ∀ t', Supplies t' (f () t')) :
    Supplies t ((Tracer.reach env n >>= f) t) :=
  .bind ⟨_, rfl, supplied_single nofun nofun⟩ fun _ t' _ => hf t'

theorem refuse (a : Invocation) (cause : FaultCause) (t : Tracing) : Supplies t ((Tracer.refuse a cause : Tracer α) t) :=
  ⟨_, rfl, supplied_single nofun nofun⟩

end Supplies

/-- Within so many steps all calls hand over their arguments. -/
structure SuppliesAt (steps : Nat) : Prop where
  eval : ∀ env e t, Supplies t (Tracer.eval steps env e t)
  evalAll : ∀ env es t, Supplies t (Tracer.evalAll steps env es t)
  call : ∀ {a : Invocation} {t}, a.Ready t.machine → Supplies t (Tracer.call steps a t)
  instantiate : ∀ {a : Invocation} {c}, a.value.callable? = some (.class c) → ∀ arguments recording,
    a.Encloses (stateBehind (Tracer.instantiate steps c arguments ⟨recording, []⟩)).happenings
  invoke : ∀ c arguments t, Supplies t (Tracer.invoke steps c arguments t)
  exec : ∀ env s t, Supplies t (Tracer.exec steps env s t)
  execAll : ∀ env statements t, Supplies t (Tracer.execAll steps env statements t)
  loop : ∀ env condition body increment t, Supplies t (Tracer.loop steps env condition body increment t)

section Steps

variable {steps : Nat}

open Tracer

/-- Callee and operands are evaluated, and then the call is made. -/
theorem supplies_behind (ih : SuppliesAt steps) (env : Environment) (callee : Expr) (line : Nat) (operands : List Expr)
    (t : Tracing) : Supplies t ((do
      let start ← Tracer.run get
      let value ← eval steps env callee
      let values ← evalAll steps env operands
      call steps ⟨env, callee, line, operands, start, value, values⟩ : Tracer Value) t) := by
  have hcallee : Tells .outside (eval steps env callee) (Recorder.eval steps env callee) := (tells steps).eval trivial
  have hoperands : Tells .outside (evalAll steps env operands) (Recorder.evalAll steps env operands) :=
    (tells steps).evalAll trivial fun _ _ => trivial
  refine .bind (.run get t) fun start t₀ hstart => ?_
  cases hstart
  -- The call is made on the machine behind the last operand.
  refine .bind (ih.eval env callee t) fun value t₁ h₁ => .bind (ih.evalAll env operands t₁) fun values t₂ h₂ => ?_
  have hvalue := run_of_traced hcallee.mirrors ((Recorder.mirrors steps).eval env callee) h₁
  have hvalues := run_of_traced hoperands.mirrors ((Recorder.mirrors steps).evalAll env operands) h₂
  exact ih.call ⟨t₁.machine, ⟨steps, hvalue⟩, evaluatesAll hvalues⟩

theorem supplies_eval (ih : SuppliesAt steps) (env : Environment) (e : Expr) (t : Tracing) :
    Supplies t (eval (steps + 1) env e t) := by
  refine .after fun _ t => .reach env (.expr e) fun t => ?_
  cases e with
  | literal value => exact .pure _ t
  | «variable» use => exact .lift _ t
  | assign target value =>
    exact .bind (ih.eval env value t) fun v t _ => .after fun _ _ => .after fun _ t => .pure v t
  | group inner => exact ih.eval env inner t
  | unary op operand => exact .bind (ih.eval env operand t) fun v t _ => .run _ t
  | binary left op right =>
    exact .bind (ih.eval env left t) fun v t _ => .bind (ih.eval env right t) fun u t _ => .run _ t
  | logical left op right =>
    refine .bind (ih.eval env left t) fun v t _ => .after fun truthy t => ?_
    split
    · exact .pure v t
    · exact ih.eval env right t
  | conditional condition thenBranch elseBranch =>
    refine .bind (ih.eval env condition t) fun v t _ => .after fun truthy t => ?_
    split
    · exact ih.eval env thenBranch t
    · exact ih.eval env elseBranch t
  | call callee line operands => exact supplies_behind ih env callee line operands t
  | get object name =>
    refine .bind (ih.eval env object t) fun v t _ => ?_
    cases v with
    | object id c => exact .lift _ t
    | _ => exact .run _ t
  | set object name value =>
    refine .bind (ih.eval env object t) fun v t _ => ?_
    cases v with
    | object id c => exact .bind (ih.eval env value t) fun u t _ => .after fun _ t => .pure u t
    | _ => exact .run _ t
  | this id line => exact .lift _ t
  | parent id keyword method => exact .after fun _ t => .lift _ t
  | lambda f => exact .run _ t
  | list line elements => exact .bind (ih.evalAll env elements t) fun values t _ => .after fun _ t => .pure _ t
  | index object line position =>
    exact .bind (ih.eval env object t) fun v t _ => .bind (ih.eval env position t) fun u t _ => .run _ t

theorem supplies_evalAll (ih : SuppliesAt steps) (env : Environment) (es : List Expr) (t : Tracing) :
    Supplies t (evalAll (steps + 1) env es t) := by
  cases es with
  | nil => exact .pure _ t
  | cons e rest =>
    exact .bind (ih.eval env e t) fun v t _ => .bind (ih.evalAll env rest t) fun values t _ => .pure _ t

/-- What happens in a call that has not been turned down. -/
theorem encloses_admitted (ih : SuppliesAt steps) {a : Invocation} {callable : Callable}
    (hcallable : a.value.callable? = some callable) (recording : Recording) :
    a.Encloses (stateBehind (admitted steps a callable ⟨recording, []⟩)).happenings := by
  cases callable with
  | native f =>
    rw [show (stateBehind (admitted steps a (.native f) _)).happenings = _ from happenings_lift _ _]
    exact supplied_nil.encloses a
  | constant result => exact supplied_nil.encloses a
  | closure c =>
    obtain ⟨hs, hhs, hsupplied⟩ := ih.invoke c (a.arguments.map (·.value)) ⟨recording, [.enters c recording.machine.depth]⟩
    have hinside : (stateBehind (admitted steps a (.closure c) ⟨recording, []⟩)).happenings =
      .enters c recording.machine.depth :: hs := hhs
    rw [hinside]
    exact hsupplied.enters (.inl hcallable) _
  | «class» c => exact ih.instantiate hcallable _ recording

theorem supplies_call (ih : SuppliesAt steps) {a : Invocation} {t : Tracing} (hready : a.Ready t.machine) :
    Supplies t (call (steps + 1) a t) := by
  cases hcallable : a.value.callable? with
  | none =>
    rw [call, hcallable]
    exact .refuse a _ t
  | some callable =>
    by_cases harity : a.arguments.length = callable.arity
    · rw [call_admitted hcallable harity, nested]
      split
      case isTrue => exact .refuse a _ t
      case isFalse hroom =>
        have hroom : t.machine.depth ≠ maxDepth := by simpa using hroom
        have hencloses := encloses_admitted ih hcallable t.recording.deeper
        refine ⟨_, happenings_closed a t _, supplied_call ?_ hencloses⟩
        exact
          { evaluated := ⟨t.machine, rfl, hready, enters_admitted hready.values hcallable harity hroom steps _⟩
            values := hready.values
            expressions := hready.expressions
            body := hencloses.body }
    · have hlength : (a.arguments.length != callable.arity) = true := by simp [harity]
      rw [call, hcallable]
      dsimp only
      rw [if_pos hlength]
      exact .refuse a _ t

theorem encloses_instantiate (ih : SuppliesAt steps) {a : Invocation} {c : Class}
    (hc : a.value.callable? = some (.class c)) (arguments : List Value) (recording : Recording) :
    a.Encloses (stateBehind (instantiate (steps + 1) c arguments ⟨recording, []⟩)).happenings := by
  cases hmethod : c.method? initializerName with
  | none =>
    rw [happenings_instantiate_plain hmethod]
    exact supplied_nil.encloses a
  | some method =>
    obtain ⟨records, hinside⟩ := happenings_instantiate hmethod steps arguments recording.machine recording.records
    obtain ⟨hs, hhs, hsupplied⟩ := ih.invoke _ arguments ⟨⟨recording.machine.constructing c, records⟩, [.enters _ _]⟩
    rw [hinside, hhs]
    exact hsupplied.enters (.inr ⟨c, method, _, hc, hmethod, rfl⟩) _

theorem supplies_invoke (ih : SuppliesAt steps) (c : Closure) (arguments : List Value) (t : Tracing) :
    Supplies t (invoke (steps + 1) c arguments t) :=
  .after fun _ t => .bind (ih.execAll _ _ t) fun _ _ _ => .after fun _ _ => .after fun v _ => .after fun _ t => .pure v t

theorem supplies_exec (ih : SuppliesAt steps) (env : Environment) (s : Stmt) (t : Tracing) :
    Supplies t (exec (steps + 1) env s t) := by
  refine .after fun _ t => .reach env (.stmt s) fun t => ?_
  cases s with
  | expression value =>
    refine .bind (ih.eval env value t) fun v t _ => .after fun m t => ?_
    dsimp only
    split
    · exact .after fun _ t => .pure _ t
    · exact .pure _ t
  | print line value => exact .bind (ih.eval env value t) fun v t _ => .after fun _ t => .pure _ t
  | var name initializer =>
    cases initializer with
    | none => exact .after fun _ t => .pure _ t
    | some initializer => exact .bind (ih.eval env initializer t) fun v t _ => .after fun _ t => .pure _ t
  | block body => exact .after fun inner t => ih.execAll inner body t
  | branch condition thenBranch elseBranch =>
    refine .bind (ih.eval env condition t) fun v t _ => .after fun truthy t => ?_
    split
    · exact ih.exec env thenBranch t
    · cases elseBranch with
      | none => exact .pure _ t
      | some elseBranch => exact ih.exec env elseBranch t
  | loop condition body increment => exact ih.loop env condition body increment t
  | «break» line => exact .pure _ t
  | «continue» line => exact .pure _ t
  | «return» line value =>
    cases value with
    | none => exact .pure _ t
    | some value => exact .bind (ih.eval env value t) fun v t _ => .pure _ t
  | function name f => exact .after fun v _ => .after fun _ t => .pure _ t
  | «class» name parent methods => exact .after fun _ t => .pure _ t
  | empty => exact .pure _ t

theorem supplies_execAll (ih : SuppliesAt steps) (env : Environment) (statements : List Stmt) (t : Tracing) :
    Supplies t (execAll (steps + 1) env statements t) := by
  cases statements with
  | nil => exact .pure _ t
  | cons s rest =>
    refine .bind (ih.exec env s t) fun flow t _ => ?_
    cases flow with
    | normal => exact ih.execAll env rest t
    | _ => exact .pure _ t

theorem supplies_loop (ih : SuppliesAt steps) (env : Environment) (condition : Expr) (body : Stmt) (increment : Option Expr)
    (t : Tracing) : Supplies t (loop (steps + 1) env condition body increment t) := by
  refine .bind (ih.eval env condition t) fun again t _ => .after fun truthy t => ?_
  split
  case isFalse => exact .pure _ t
  case isTrue =>
    refine .bind (ih.exec env body t) fun flow t _ => ?_
    cases flow with
    | «break» | «return» => exact .pure _ t
    | normal | «continue» =>
      cases increment with
      | none => exact ih.loop env condition body none t
      | some increment =>
        exact .bind (ih.eval env increment t) fun _ t _ => ih.loop env condition body (some increment) t

end Steps

/-- Within however many steps, all calls hand over their arguments. -/
theorem supplies (steps : Nat) : SuppliesAt steps := by
  induction steps with
  | zero =>
    exact
      { eval := fun _ _ t => .run _ t
        evalAll := fun _ _ t => .run _ t
        call := fun {a t} _ => .run _ t
        instantiate := fun _ _ _ => supplied_nil.encloses _
        invoke := fun _ _ t => .run _ t
        exec := fun _ _ t => .run _ t
        execAll := fun _ _ t => .run _ t
        loop := fun _ _ _ _ t => .run _ t }
  | succ steps ih =>
    exact
      { eval := supplies_eval ih
        evalAll := supplies_evalAll ih
        call := supplies_call ih
        instantiate := encloses_instantiate ih
        invoke := supplies_invoke ih
        exec := supplies_exec ih
        execAll := supplies_execAll ih
        loop := supplies_loop ih }

/-! ## Programs -/

/-- A program with its calls on record. -/
def Tracer.program (steps : Nat) : List Stmt → Tracer Unit
  | [] => pure ()
  | statement :: rest => do
    let flow ← exec steps [] statement
    lift (Recorder.note fun _ => .concludes statement flow)
    program steps rest

theorem supplies_program (steps : Nat) (program : List Stmt) (t : Tracing) : Supplies t (Tracer.program steps program t) := by
  induction program generalizing t with
  | nil => exact .pure () t
  | cons s rest ih => exact .bind ((supplies steps).exec [] s t) fun _ _ _ => .after fun _ t => ih t

theorem tells_program (steps : Nat) (program : List Stmt) :
    Tells .outside (Tracer.program steps program) (Recorder.program steps program) := by
  induction program with
  | nil => exact .pure () trivial
  | cons s rest ih => exact .bind trivial ((tells steps).exec trivial) fun _ => .afterwards (.note _) trivial fun _ => ih

/-- How calls get their arguments in what runs on the machine. The happenings are those of the evaluator with calls on
record, which does the same. -/
structure HandsOverArguments {α : Type} (m : Machine) (x : Tracer α) (y : Run α) : Prop where
  same : withoutRecords (untraced (x (.blank m))) = y m
  calls : ∀ calls a depth inside, Happens (stateBehind (x (.blank m))).happenings calls (.call a depth inside) →
    a.HandsOver depth inside
  /-- No body is entered but in a call. -/
  bodies : ∀ c depth, .enters c depth ∉ (stateBehind (x (.blank m))).happenings

theorem program_handsOver (m : Machine) (steps : Nat) (program : List Stmt) :
    HandsOverArguments m (Tracer.program steps program) (Evaluation.program steps program) := by
  obtain ⟨hs, hhs, hsupplied⟩ := supplies_program steps program (.blank m)
  have hhs : (stateBehind (Tracer.program steps program (.blank m))).happenings = hs := hhs
  exact
    { same := by
        rw [(tells_program steps program).mirrors]
        exact Recorder.program_mirrors steps program _
      calls := hhs ▸ hsupplied.calls
      bodies := hhs ▸ hsupplied.bodies }

end TreeWalk
