import TreeWalk.Proofs.Evaluation.Calls
import TreeWalk.Proofs.Evaluation.Level
import TreeWalk.Proofs.Scope.Openings

/-!
# What trees of calls are like

`Story` says what can happen in a run that begins with so many calls in progress. Every run happens in this way, so
what holds of all stories holds of all runs, and no proof of it looks at the evaluator again.
-/

namespace TreeWalk

/-! ## Scenes -/

/-- A node inside another one, though not in a class there: its place, and an environment there, with a frame for every
scope on the way. -/
inductive Comes (p : Place) (n : Node) (env : Environment) : Place → Node → Environment → Prop where
  | here : Comes p n env p n env
  | part {q q' : Place} {m m' : Node} {inner : Environment} (h : Comes p n env q m inner)
    (hpart : (q', m') ∈ m.parts q) (hsame : q'.scope? = none ∨ q' = q) : Comes p n env q' m' inner
  | block {q : Place} {m m' : Node} {inner : Environment} {before : List Stmt} (h : Comes p n env q m inner)
    (hpart : (.block q before, m') ∈ m.parts q) (id : FrameId) : Comes p n env (.block q before) m' (id :: inner)
  | function {q : Place} {m m' : Node} {inner : Environment} {role : FunctionRole} {params : List Name}
    {before : List Stmt} (h : Comes p n env q m inner) (hpart : (.function q role params before, m') ∈ m.parts q)
    (id : FrameId) : Comes p n env (.function q role params before) m' (id :: inner)

/-- Where something happens: outside of the calls that a run makes, directly in one of them, or in the body of a
function. -/
inductive Scene where
  | outside
  | call (a : Invocation)
  | body (c : Closure)

namespace Scene

/-- The node may be run here. -/
def Allows (env : Environment) (n : Node) : Scene → Prop
  | outside => True
  | call _ => False
  | body c => ∀ p role, ∃ q, Comes p (.function role c.function) c.environment q n env

/-- Statements and expressions are run here. -/
def Running : Scene → Prop
  | call _ => False
  | _ => True

/-- It may be that nothing happens here. -/
def MayEnd : Scene → Prop
  | call a => ∀ c, a.value.callable? ≠ some (.closure c)
  | _ => True

variable {scene : Scene} {env : Environment} {n m : Node}

theorem Allows.running (h : scene.Allows env n) : scene.Running := by
  cases scene with
  | call => exact h
  | _ => trivial

theorem Running.mayEnd (h : scene.Running) : scene.MayEnd := by
  cases scene with
  | call => exact h.elim
  | _ => trivial

theorem Allows.part (h : scene.Allows env n) (place : Place → Place) (hplace : ∀ q, (place q).scope? = none ∨ place q = q)
    (hpart : ∀ q, (place q, m) ∈ n.parts q) : scene.Allows env m := by
  cases scene with
  | outside => trivial
  | call => exact h
  | body c =>
    intro p role
    obtain ⟨q, hq⟩ := h p role
    exact ⟨place q, .part hq (hpart q) (hplace q)⟩

/-- A part at the same place. -/
theorem Allows.inner (h : scene.Allows env n) (hpart : ∀ q, (q, m) ∈ n.parts q) : scene.Allows env m :=
  h.part id (fun _ => .inr rfl) hpart

theorem Allows.past (h : scene.Allows env n) (s : Stmt) (hpart : ∀ q, (.past q s, m) ∈ n.parts q) :
    scene.Allows env m := h.part (.past · s) (fun _ => .inl rfl) hpart

theorem Allows.operands {callee : Expr} {line : Nat} {operands : List Expr}
    (h : scene.Allows env (.expr (.call callee line operands))) : ∀ e ∈ operands, scene.Allows env (.expr e) :=
  fun e he => h.inner fun _ => by simp [Node.parts, he]

theorem Allows.elements {line : Nat} {elements : List Expr} (h : scene.Allows env (.expr (.list line elements))) :
    ∀ e ∈ elements, scene.Allows env (.expr e) := fun e he => h.inner fun _ => by simp [Node.parts, he]

theorem Allows.initializer {name : Name} {e : Expr} (h : scene.Allows env (.stmt (.var name (some e)))) :
    scene.Allows env (.expr e) := h.part (.initializer · name) (fun _ => .inl rfl) (by simp [Node.parts])

theorem Allows.block {body : List Stmt} (h : scene.Allows env (.stmt (.block body))) (id : FrameId) :
    ∀ s ∈ body, scene.Allows (id :: env) (.stmt s) := by
  intro s hs
  cases scene with
  | outside => trivial
  | call => exact h
  | body c =>
    intro p role
    obtain ⟨q, hq⟩ := h p role
    obtain ⟨earlier, later, rfl⟩ := List.append_of_mem hs
    exact ⟨.block q earlier, .block hq (mem_suite.2 ⟨earlier, s, later, rfl, rfl⟩) id⟩

theorem allows_body (c : Closure) (id : FrameId) :
    ∀ s ∈ c.function.body, (body c).Allows (id :: c.environment) (.stmt s) := by
  intro s hs p role
  obtain ⟨earlier, later, hsplit⟩ := List.append_of_mem hs
  exact ⟨.function p role c.function.params earlier, .function .here (mem_suite.2 ⟨earlier, s, later, hsplit, rfl⟩) id⟩

end Scene

/-! ## Invocations -/

namespace Invocation

/-- The call runs the body: that of the function which is called, or of the initializer of a class for a new object. -/
def Runs (a : Invocation) (c : Closure) : Prop :=
  a.value.callable? = some (.closure c) ∨ ∃ ofClass method frame, a.value.callable? = some (.class ofClass) ∧
    ofClass.method? initializerName = some method ∧ c = { method with environment := frame :: method.environment }

/-- The invocation is made where the scene allows it. Its expression is on record, and callee and arguments have been
evaluated from there on. -/
structure Made (a : Invocation) (records : List Record) (table : Distances) (depth : Nat) (scene : Scene) : Prop where
  allowed : scene.Allows a.environment (.expr a.site)
  recorded : .evaluates a.environment a.site a.start ∈ records
  distances : a.start.distances = table
  depth : a.start.depth = depth
  evaluated : ∃ steps m m', Evaluation.eval steps a.environment a.callee a.start = .ok a.value m ∧
    Evaluation.evalAll steps a.environment a.operands m = .ok a.operandValues m'

/-- Why a call is turned down. That too many are in progress matters only where it could be made. -/
inductive Declined (a : Invocation) (depth : Nat) : FaultCause → Prop where
  | notCallable (h : a.value.callable? = none) : Declined a depth .notCallable
  | arity {callable : Callable} (h : a.value.callable? = some callable) (hlength : a.arguments.length ≠ callable.arity) :
    Declined a depth (.arityMismatch callable.arity a.arguments.length)
  | full (h : a.Admitted) (hdepth : depth = maxDepth) : Declined a depth .stackOverflow

theorem Made.mono {a : Invocation} {records records' : List Record} {table : Distances} {depth : Nat} {scene : Scene}
    (h : a.Made records table depth scene) (hrecords : records ⊆ records') : a.Made records' table depth scene :=
  { h with recorded := hrecords h.recorded }

end Invocation

/-! ## Stories -/

/-- What happens, in order, in a run that begins with so many calls in progress, and why it stops, if it does. -/
inductive Story (records : List Record) (table : Distances) : Nat → Scene → List Happening → Option Stop → Prop where
  /-- Nothing more happens. -/
  | ends {depth : Nat} {scene : Scene} {stop : Option Stop} (hscene : scene.MayEnd)
    (hstop : ∀ line, stop ≠ some (.overflow line)) : Story records table depth scene [] stop
  | reaches {depth : Nat} {scene : Scene} {env : Environment} {n : Node} {later : List Happening} {stop : Option Stop}
    (hallows : scene.Allows env n) (h : Story records table depth scene later stop) :
    Story records table depth scene (.reaches env n depth :: later) stop
  | enters {depth : Nat} {a : Invocation} {c : Closure} {later : List Happening} {stop : Option Stop} (hruns : a.Runs c)
    (h : Story records table depth (.body c) later stop) :
    Story records table depth (.call a) (.enters c depth :: later) stop
  | refuses {depth : Nat} {scene : Scene} {a : Invocation} {cause : FaultCause} (hmade : a.Made records table depth scene)
    (hdeclined : a.Declined depth cause) :
    Story records table depth scene [.refuses a depth] (some (.fault (.evaluation a.line cause)))
  /-- A call comes to its end, and the run goes on. -/
  | call {depth : Nat} {scene : Scene} {a : Invocation} {inside later : List Happening} {stop : Option Stop}
    (hmade : a.Made records table depth scene) (hadmitted : a.Admitted) (hdepth : depth < maxDepth)
    (hinside : Story records table (depth + 1) (.call a) inside none)
    (h : Story records table depth scene later stop) :
    Story records table depth scene (.call a depth inside :: later) stop
  /-- A call stops, and the run with it. -/
  | breaks {depth : Nat} {scene : Scene} {a : Invocation} {inside : List Happening} {stop : Stop}
    (hmade : a.Made records table depth scene) (hadmitted : a.Admitted) (hdepth : depth < maxDepth)
    (hinside : Story records table (depth + 1) (.call a) inside (some stop)) :
    Story records table depth scene [.call a depth inside] (some stop)

namespace Story

variable {records records' : List Record} {table : Distances} {depth : Nat} {scene : Scene} {hs hs' : List Happening}
  {stop : Option Stop}

theorem mono (h : Story records table depth scene hs stop) (hrecords : records ⊆ records') :
    Story records' table depth scene hs stop := by
  induction h with
  | ends hscene hstop => exact .ends hscene hstop
  | reaches hallows _ ih => exact .reaches hallows ih
  | enters hruns _ ih => exact .enters hruns ih
  | refuses hmade hdeclined => exact .refuses (hmade.mono hrecords) hdeclined
  | call hmade hadmitted hdepth _ _ ihinside ih => exact .call (hmade.mono hrecords) hadmitted hdepth ihinside ih
  | breaks hmade hadmitted hdepth _ ih => exact .breaks (hmade.mono hrecords) hadmitted hdepth ih

/-- What happens next comes behind what has happened. -/
theorem append (hscene : scene.Running) (h : Story records table depth scene hs none)
    (h' : Story records table depth scene hs' stop) : Story records table depth scene (hs ++ hs') stop := by
  generalize hnone : (none : Option Stop) = stop₀ at h
  -- Where the first part stops there is no second one, so only `ends` is followed by anything.
  induction h with
  | ends => exact h'
  | reaches hallows _ ih => exact .reaches hallows (ih hscene h' hnone)
  | enters => exact hscene.elim
  | refuses => cases hnone
  | call hmade hadmitted hdepth hinside _ _ ih => exact .call hmade hadmitted hdepth hinside (ih hscene h' hnone)
  | breaks => cases hnone

/-- The number is the same for all that happens in one call. -/
theorem depth_mem (h : Story records table depth scene hs stop) : ∀ x ∈ hs, x.depth = depth := by
  induction h with
  | ends => simp
  | reaches _ _ ih | enters _ _ ih | call _ _ _ _ _ _ ih => exact List.forall_mem_cons.2 ⟨rfl, ih⟩
  | refuses | breaks => simp [Happening.depth]

/-- What is known of a call, and of what happens inside. -/
theorem call_mem {a : Invocation} {d : Nat} {inside : List Happening} (h : Story records table depth scene hs stop)
    (hmem : .call a d inside ∈ hs) : a.Admitted ∧ depth < maxDepth ∧
      (∃ scene', a.Made records table depth scene') ∧
      ∃ stop', Story records table (depth + 1) (.call a) inside stop' := by
  induction h with
  | ends => cases hmem
  | reaches _ _ ih | enters _ _ ih => exact ih ((List.mem_cons.1 hmem).resolve_left nofun)
  | refuses => exact absurd (List.mem_singleton.1 hmem) nofun
  | call hmade hadmitted hdepth hinside _ _ ih =>
    rcases List.mem_cons.1 hmem with heq | hmem
    · cases heq
      exact ⟨hadmitted, hdepth, ⟨_, hmade⟩, none, hinside⟩
    · exact ih hmem
  | breaks hmade hadmitted hdepth hinside =>
    cases List.mem_singleton.1 hmem
    exact ⟨hadmitted, hdepth, ⟨_, hmade⟩, _, hinside⟩

/-- What happens inside calls is in the story of the innermost. -/
theorem happens {calls : Nat} {x : Happening} (hx : Happens hs calls x) {depth : Nat} {scene : Scene}
    {stop : Option Stop} (h : Story records table depth scene hs stop) :
    ∃ scene' hs' stop', Story records table (depth + calls) scene' hs' stop' ∧ x ∈ hs' ∧
      (depth ≤ maxDepth → depth + calls ≤ maxDepth) := by
  -- The way goes from the outermost call inwards, and each call on it was made below the greatest number.
  induction hx generalizing depth scene stop with
  | here hmem => exact ⟨scene, _, stop, h, hmem, id⟩
  | inside hmem _ ih =>
    obtain ⟨-, hdepth, -, stop', hinside⟩ := h.call_mem hmem
    obtain ⟨scene', hs', stop'', hstory, hx, hbound⟩ := ih hinside
    refine ⟨scene', hs', stop'', ?_, hx, fun _ => ?_⟩
    · rwa [Nat.add_right_comm, Nat.add_assoc] at hstory
    · have := hbound hdepth
      omega

end Story

/-! ## Runs -/

/-- The outcome without the happenings. -/
def untraced {α : Type} : EStateM.Result Stop Tracing α → EStateM.Result Stop Recording α
  | .ok a t => .ok a t.recording
  | .error stop t => .error stop t.recording

/-- There is a story of what happens from a state on, and behind it as many calls are in progress as before. -/
structure Told {α : Type} (scene : Scene) (t : Tracing) (result : EStateM.Result Stop Tracing α) : Prop where
  depth : (stateBehind result).machine.depth = t.machine.depth
  distances : (stateBehind result).machine.distances = t.machine.distances
  records : t.recording.records ⊆ (stateBehind result).recording.records
  story : ∃ hs, (stateBehind result).happenings = t.happenings ++ hs ∧
    Story (stateBehind result).recording.records t.machine.distances t.machine.depth scene hs (stopOf result)

/-- The first does the same as the second, and what happens in it makes a story. -/
structure Tells {α : Type} (scene : Scene) (x : Tracer α) (y : Recorder α) : Prop where
  mirrors : ∀ t, untraced (x t) = y t.recording
  told : ∀ t, t.machine.depth ≤ maxDepth → Told scene t (x t)

section Rules

variable {α β : Type} {scene : Scene} {t : Tracing} {x : Tracer α} {y : Recorder α}

theorem untraced_bind {f : α → Tracer β} {g : α → Recorder β} (hx : untraced (x t) = y t.recording)
    (hf : ∀ a t', x t = .ok a t' → untraced (f a t') = g a t'.recording) :
    untraced ((x >>= f) t) = (y >>= g) t.recording := by
  cases h : x t with
  | ok a t' =>
    rw [h] at hx
    rw [bind_ok h, bind_ok hx.symm, hf a t' h]
  | error stop t' =>
    rw [h] at hx
    rw [bind_error h, bind_error hx.symm]
    rfl

theorem Told.bind {f : α → Tracer β} (hscene : scene.Running) (hx : Told scene t (x t))
    (hf : ∀ a t', x t = .ok a t' → t'.machine.depth = t.machine.depth → t'.machine.distances = t.machine.distances →
      t.recording.records ⊆ t'.recording.records → Told scene t' (f a t')) : Told scene t ((x >>= f) t) := by
  cases h : x t with
  | error stop t' =>
    rw [h] at hx
    rw [bind_error h]
    exact ⟨hx.depth, hx.distances, hx.records, hx.story⟩
  | ok a t' =>
    rw [h] at hx
    rw [bind_ok h]
    obtain ⟨hdepth, hdistances, hrecords, hs, hhs, hstory⟩ := hf a t' h hx.depth hx.distances hx.records
    obtain ⟨hs₀, hhs₀, hstory₀⟩ := hx.story
    have hdepth₀ : t'.machine.depth = t.machine.depth := hx.depth
    have hdistances₀ : t'.machine.distances = t.machine.distances := hx.distances
    rw [hdepth₀, hdistances₀] at hstory
    -- The records grow on the way, so the first story has to be told again with those of the second.
    refine ⟨hdepth.trans hdepth₀, hdistances.trans hdistances₀, List.Subset.trans hx.records hrecords, hs₀ ++ hs, ?_,
      (hstory₀.mono hrecords).append hscene hstory⟩
    rw [hhs, ← List.append_assoc]
    exact congrArg (· ++ hs) hhs₀

/-- What makes no call adds nothing to the story. -/
theorem Told.lift (hy : y.Level) (hscene : scene.MayEnd) (t : Tracing) : Told scene t (Tracer.lift y t) := by
  obtain ⟨hdepth, hdistances, hstop, hrecords⟩ := hy t.recording
  unfold Tracer.lift
  cases h : y t.recording with
  | ok a r | error stop r =>
    rw [h] at hdepth hdistances hstop hrecords
    exact ⟨hdepth, hdistances, hrecords, [], (List.append_nil _).symm, .ends hscene hstop⟩

theorem Told.behind_note {f : Unit → Tracer α} {happening : Machine → Happening} {scene' : Scene}
    (hf : Told scene' { t with happenings := t.happenings ++ [happening t.machine] }
      (f () { t with happenings := t.happenings ++ [happening t.machine] }))
    (hstep : ∀ records hs stop, Story records t.machine.distances t.machine.depth scene' hs stop →
      Story records t.machine.distances t.machine.depth scene (happening t.machine :: hs) stop) :
    Told scene t ((Tracer.note happening >>= f) t) := by
  obtain ⟨hdepth, hdistances, hrecords, hs, hhs, hstory⟩ := hf
  refine ⟨hdepth, hdistances, hrecords, happening t.machine :: hs, ?_, hstep _ hs _ hstory⟩
  exact hhs.trans (List.append_assoc _ _ _)

theorem Told.refuse {a : Invocation} {cause : FaultCause}
    (hmade : a.Made t.recording.records t.machine.distances t.machine.depth scene)
    (hdeclined : a.Declined t.machine.depth cause) : Told scene t ((Tracer.refuse a cause : Tracer α) t) :=
  ⟨rfl, rfl, List.Subset.refl _, [.refuses a t.machine.depth], rfl, .refuses hmade hdeclined⟩

namespace Tells

protected theorem lift (hy : y.Level) (hscene : scene.MayEnd) : Tells scene (Tracer.lift y) y where
  mirrors t := by
    unfold Tracer.lift
    cases h : y t.recording <;> rfl
  told t _ := .lift hy hscene t

protected theorem run {z : Run α} (hz : z.Level) (hscene : scene.MayEnd) : Tells scene (Tracer.run z) (Recorder.lift z) :=
  .lift (.lift hz) hscene

protected theorem pure (a : α) (hscene : scene.MayEnd) : Tells scene (Pure.pure a) (Pure.pure a) where
  mirrors _ := rfl
  told _ _ := ⟨rfl, rfl, List.Subset.refl _, [], (List.append_nil _).symm, .ends hscene nofun⟩

theorem bind {f : α → Tracer β} {g : α → Recorder β} (hscene : scene.Running) (hx : Tells scene x y)
    (hf : ∀ a, Tells scene (f a) (g a)) : Tells scene (x >>= f) (y >>= g) where
  mirrors t := untraced_bind (hx.mirrors t) fun a t' _ => (hf a).mirrors t'
  told t ht := (hx.told t ht).bind hscene fun a t' _ hdepth _ _ => (hf a).told t' (hdepth ▸ ht)

/-- First comes something without a call. -/
theorem after {f : α → Tracer β} {g : α → Recorder β} (hy : y.Level) (hscene : scene.MayEnd)
    (hf : ∀ a r r', y r = .ok a r' → Tells scene (f a) (g a)) : Tells scene (Tracer.lift y >>= f) (y >>= g) where
  mirrors t := by
    refine untraced_bind ((Tells.lift hy hscene).mirrors t) fun a t' h => ?_
    cases hrun : y t.recording with
    | ok b r =>
      have hmirrors := (Tells.lift hy hscene).mirrors t
      rw [h, hrun] at hmirrors
      cases hmirrors
      exact (hf _ _ _ hrun).mirrors t'
    | error stop r =>
      have hmirrors := (Tells.lift hy hscene).mirrors t
      rw [h, hrun] at hmirrors
      cases hmirrors
  told t ht := by
    obtain ⟨hdepth, hdistances, hstop, hrecords⟩ := hy t.recording
    cases h : y t.recording with
    | error stop r =>
      have hlift : Tracer.lift y t = .error stop { t with recording := r } := by rw [Tracer.lift, h]
      rw [h] at hdepth hdistances hstop hrecords
      rw [bind_error hlift]
      exact ⟨hdepth, hdistances, hrecords, [], (List.append_nil _).symm, .ends hscene hstop⟩
    | ok a r =>
      have hlift : Tracer.lift y t = .ok a { t with recording := r } := by rw [Tracer.lift, h]
      rw [h] at hdepth hdistances hrecords
      have hdepth : r.machine.depth = t.machine.depth := hdepth
      have hdistances : r.machine.distances = t.machine.distances := hdistances
      rw [bind_ok hlift]
      obtain ⟨hdepth', hdistances', hrecords', hs, hhs, hstory⟩ :=
        (hf a _ _ h).told { t with recording := r } (Nat.le_trans (Nat.le_of_eq hdepth) ht)
      have hstory : Story _ r.machine.distances r.machine.depth scene hs _ := hstory
      rw [hdepth, hdistances] at hstory
      exact ⟨hdepth'.trans hdepth, hdistances'.trans hdistances, List.Subset.trans hrecords hrecords', hs, hhs, hstory⟩

/-- Something without a call comes first, whatever its result. -/
theorem afterwards {f : α → Tracer β} {g : α → Recorder β} (hy : y.Level) (hscene : scene.MayEnd)
    (hf : ∀ a, Tells scene (f a) (g a)) : Tells scene (Tracer.lift y >>= f) (y >>= g) :=
  .after hy hscene fun a _ _ _ => hf a

theorem reach {env : Environment} {n : Node} (hallows : scene.Allows env n) (h : Tells scene x y) :
    Tells scene (Tracer.reach env n >>= fun _ => x) y where
  mirrors t := h.mirrors { t with happenings := t.happenings ++ [.reaches env n t.machine.depth] }
  told _ ht := .behind_note (h.told _ ht) fun _ _ _ hstory => .reaches hallows hstory

theorem enter {a : Invocation} {c : Closure} (hruns : a.Runs c) (h : Tells (.body c) x y) :
    Tells (.call a) (Tracer.enter c >>= fun _ => x) y where
  mirrors t := h.mirrors { t with happenings := t.happenings ++ [.enters c t.machine.depth] }
  told _ ht := .behind_note (h.told _ ht) fun _ _ _ hstory => .enters hruns hstory

end Tells

/-! ## Calls -/

theorem untraced_closed (a : Invocation) (t : Tracing) (result : EStateM.Result Stop Tracing α) :
    untraced (Tracer.closed a t result) = shallower (untraced result) := by cases result <;> rfl

theorem untraced_nested (a : Invocation) (hx : ∀ t, untraced (x t) = y t.recording) (t : Tracing) :
    untraced (Tracer.nested a x t) = Recorder.nested a.line y t.recording := by
  rw [Recorder.nested_eq]
  unfold Tracer.nested
  split
  · rfl
  · rw [untraced_closed, hx]

theorem Told.nested {a : Invocation} (ht : t.machine.depth ≤ maxDepth)
    (hmade : a.Made t.recording.records t.machine.distances t.machine.depth scene) (hadmitted : a.Admitted)
    (hscene : scene.Running) (hx : Tells (.call a) x y) : Told scene t (Tracer.nested a x t) := by
  unfold Tracer.nested
  split
  case isTrue hfull => exact .refuse hmade (.full hadmitted (by simpa using hfull))
  case isFalse hroom =>
    have hdepth : t.machine.depth < maxDepth := Nat.lt_of_le_of_ne ht (by simpa using hroom)
    -- What happens inside is told from nothing on, with one more call in progress.
    have hbody := hx.told { recording := t.recording.deeper, happenings := [] } hdepth
    cases h : x { recording := t.recording.deeper, happenings := [] } with
    | ok v inner | error stop inner =>
      rw [h] at hbody
      obtain ⟨hinner, hdistances, hrecords, hs, hhs, hstory⟩ := hbody
      have hinner : inner.machine.depth = t.machine.depth + 1 := hinner
      have hhs : inner.happenings = hs := hhs
      have hstory : Story inner.recording.records t.machine.distances (t.machine.depth + 1) (.call a) hs _ := hstory
      refine ⟨?_, hdistances, hrecords, [.call a t.machine.depth inner.happenings], rfl, ?_⟩
      · show inner.machine.depth - 1 = t.machine.depth
        omega
      · rw [hhs]
        first
          | exact .call (hmade.mono hrecords) hadmitted hdepth hstory (.ends hscene.mayEnd nofun)
          | exact .breaks (hmade.mono hrecords) hadmitted hdepth hstory

end Rules

end TreeWalk
