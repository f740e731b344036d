import TreeWalk.Proofs.Evaluation.Alongside

/-!
# Loops at work without their increments

A program with some of its loops written without their increments does what the program itself does. By induction on
the steps, everything that is evaluated goes on side by side. The second program nests up to five times as deep, for
each round of a loop enters a block and comes to the increment as the last of the statements there.
-/

namespace TreeWalk

open Evaluation Comparison

/-! ## Steps -/

/-- So many steps are enough for the second run, if it is the first one that comes to an end, and not too many, if it
is the second one. -/
def Side.Covers (slack : Nat) : Side → Nat → Nat → Prop
  | first, steps, steps' => 5 * steps + slack ≤ steps'
  | second, steps, steps' => steps' ≤ steps

section Covers

variable {side : Side} {slack steps steps' : Nat}

theorem Side.Covers.weaken (h : side.Covers slack steps steps') {less : Nat} (hless : less ≤ slack) :
    side.Covers less steps steps' := by
  cases side <;> simp only [Side.Covers] at h ⊢ <;> omega

theorem Side.Covers.step (h : side.Covers 0 (steps + 1) (steps' + 1)) : side.Covers 4 steps steps' := by
  cases side <;> simp only [Side.Covers] at h ⊢ <;> omega

variable {c : Comparison} {α β : Type} {frames : Frames} {post : Frames → α → β → Prop} {y : Nat → Run β}

/-- Only the second run goes one step deeper. -/
theorem Comparison.Along.deeper {x : Run α} (h : c.side.Covers (slack + 1) steps steps')
    (hzero : ∀ m, ∃ m', y 0 m = .error .unfinished m')
    (hstep : ∀ {less}, c.side.Covers slack steps less → c.Along frames post x (y (less + 1))) : c.Along frames post x (y steps') := by
  cases steps' with
  | succ less =>
    refine hstep ?_
    generalize c.side = side at h
    cases side <;> simp only [Side.Covers] at h ⊢ <;> omega
  | zero =>
    intro m m' _
    obtain ⟨m'', hnone⟩ := hzero m'
    rw [hnone]
    cases hside : c.side with
    | first =>
      rw [hside, Side.Covers] at h
      omega
    | second => exact .second hside _ m''

/-- Where a step is left to both runs, they go on; where one has none left, it does not come to an end. -/
theorem Comparison.Along.count {x : Nat → Run α} (h : c.side.Covers 0 steps steps') (hx : x 0 = Run.unfinished)
    (hy : y 0 = Run.unfinished) (hstep : ∀ {fewer less}, steps = fewer + 1 → c.side.Covers 4 fewer less →
      c.Along frames post (x (fewer + 1)) (y (less + 1))) : c.Along frames post (x steps) (y steps') := by
  rcases steps with _ | fewer <;> rcases steps' with _ | less
  · rw [hx, hy]
    exact .unfinished
  · intro m m' _
    cases hside : c.side with
    | first =>
      rw [hx]
      exact .first hside m _
    | second =>
      rw [hside, Side.Covers] at h
      omega
  · intro m m' _
    cases hside : c.side with
    | first =>
      rw [hside, Side.Covers] at h
      omega
    | second =>
      rw [hy]
      exact .second hside _ m'
  · exact hstep rfl h.step

end Covers

/-! ## Evaluation -/

variable {c : Comparison}

/-- All that is evaluated, called and executed within so many steps goes on side by side. -/
structure AlongAt (c : Comparison) (steps : Nat) : Prop where
  eval : ∀ {steps' frames π env env' e e'}, c.side.Covers 0 steps steps' → Environment.Padded frames π env env' →
    Expr.Desugars c.pairing π e e' → c.Along frames c.value (eval steps env e) (eval steps' env' e')
  evalAll : ∀ {steps' frames π env env' es es'}, c.side.Covers 0 steps steps' → Environment.Padded frames π env env' →
    Expr.DesugarsAll c.pairing π es es' → c.Along frames c.values (evalAll steps env es) (evalAll steps' env' es')
  call : ∀ {steps' frames line line' callee callee' arguments arguments'}, c.side.Covers 0 steps steps' →
    c.line line line' → Value.Pairs c.pairing frames callee callee' →
    List.Forall₂ (Argument.Pairs c.pairing frames) arguments arguments' →
    c.Along frames c.value (call steps line callee arguments) (call steps' line' callee' arguments')
  instantiate : ∀ {steps' frames d d' arguments arguments'}, c.side.Covers 0 steps steps' →
    Class.Pairs c.pairing frames d d' → c.values frames arguments arguments' →
    c.Along frames c.value (instantiate steps d arguments) (instantiate steps' d' arguments')
  invoke : ∀ {steps' frames f f' arguments arguments'}, c.side.Covers 0 steps steps' →
    Closure.Pairs c.pairing frames [] f f' → c.values frames arguments arguments' →
    c.Along frames c.value (invoke steps f arguments) (invoke steps' f' arguments')
  exec : ∀ {steps' frames π env env' s s'}, c.side.Covers 0 steps steps' → Environment.Padded frames π env env' →
    Stmt.Desugars c.pairing π s s' → c.Along frames (c.flow s.Continues) (exec steps env s) (exec steps' env' s')
  execAll : ∀ {steps' frames π env env' statements statements'}, c.side.Covers 0 steps steps' →
    Environment.Padded frames π env env' → Stmt.DesugarsAll c.pairing π statements statements' →
    c.Along frames (c.flow (∃ s ∈ statements, s.Continues)) (execAll steps env statements) (execAll steps' env' statements')
  loop : ∀ {steps' frames π env env' condition condition' body body' increment increment'}, c.side.Covers 0 steps steps' →
    Environment.Padded frames π env env' →
    Stmt.Desugars c.pairing π (.loop condition body increment) (.loop condition' body' increment') →
    c.Along frames (c.flow False) (loop steps env condition body increment) (loop steps' env' condition' body' increment')

section Steps

variable {steps steps' : Nat} {frames : Frames} {π : Padding} {env env' : Environment}

theorem arguments_pair {k : Pairing} {values values' : List Value} (hvalues : List.Forall₂ (Value.Pairs k frames) values values')
    {es es' : List Expr} (hes : Expr.DesugarsAll k π es es') :
    List.Forall₂ (Argument.Pairs k frames) (values.zipWith Argument.mk es) (values'.zipWith Argument.mk es') := by
  induction hvalues generalizing es es' with
  | nil => exact .nil
  | cons hv _ ih =>
    cases hes with
    | nil => exact .nil
    | cons he hrest => exact .cons ⟨hv, he.printed, he.label⟩ (ih hrest)

theorem eval_along (ih : AlongAt c steps) (h : c.side.Covers 0 steps steps') (henv : env.Padded frames π env') {e e' : Expr}
    (he : e.Desugars c.pairing π e') :
    c.Along frames c.value (eval (steps + 1) env e) (eval (steps' + 1) env' e') := by
  cases he with
  | literal value => exact .pure (.ofLiteral value)
  | «variable» huse => exact read_along henv huse
  | assign htarget hvalue =>
    exact (ih.eval h henv hvalue).bind fun hgrown hv =>
      (assign_along (henv.mono hgrown) htarget hv).map fun hgrown' _ => hv.mono hgrown'
  | group hinner =>
    have hinner := ih.eval h henv hinner
    exact hinner
  | @unary _ op op' _ _ hop hoperand =>
    refine (ih.eval h henv hoperand).bind fun _ hv => ?_
    rw [hop.kind]
    cases op.kind with
    | negate => exact negate_along hop.line hv
    | not => exact (truthy_along hv).map fun _ hsame => hsame ▸ .bool _
  | binary hleft hop hright =>
    exact (ih.eval h henv hleft).bind fun hgrown hv =>
      (ih.eval h (henv.mono hgrown) hright).bind fun hgrown' hu => binary_along hop (hv.mono hgrown') hu
  | @logical _ _ _ op op' _ _ hleft hop hright =>
    refine (ih.eval h henv hleft).bind fun hgrown hv => (truthy_along hv).bind fun hgrown' hsame => ?_
    rw [hop.kind, hsame]
    exact .ite rfl (.pure (hv.mono hgrown')) (ih.eval h (henv.mono (hgrown.trans hgrown')) hright)
  | conditional hcondition hthen helse =>
    refine (ih.eval h henv hcondition).bind fun hgrown hv => (truthy_along hv).bind fun hgrown' hsame => ?_
    have henv := henv.mono (hgrown.trans hgrown')
    exact .ite hsame (ih.eval h henv hthen) (ih.eval h henv helse)
  | call hcallee hline harguments =>
    refine (ih.eval h henv hcallee).bind fun hgrown hv => ?_
    refine (ih.evalAll h (henv.mono hgrown) harguments).bind fun hgrown' hvalues => ?_
    exact ih.call h hline (hv.mono hgrown') (arguments_pair hvalues harguments)
  | get hobject hname =>
    refine (ih.eval h henv hobject).bind fun _ hv => ?_
    cases hv with
    | object id hd => exact property_along id hd hname
    | _ => exact .fail hname.line _
  | set hobject hname hvalue =>
    refine (ih.eval h henv hobject).bind fun hgrown hv => ?_
    cases hv with
    | object id hd =>
      refine (ih.eval h (henv.mono hgrown) hvalue).bind fun {grown u u'} _ hu => ?_
      rw [hname.text]
      exact (Along.update fun _ _ hheap => hheap.setField id _ hu).map fun hgrown' _ => hu.mono hgrown'
    | _ => exact .fail hname.line _
  | this huse => exact read_along henv huse
  | parent huse hkeyword hmethod => exact parentMethod_along henv huse hkeyword hmethod
  | lambda hf => exact newFunction_along ⟨by simp [Closure.signature, hf.texts], π, henv, hf, nofun⟩
  | list _ helements =>
    refine (ih.evalAll h henv helements).bind fun {grown values values'} _ hvalues => ?_
    have hlist : c.Along grown Same (Run.allocate (·.addList values.toArray)) (Run.allocate (·.addList values'.toArray)) :=
      .allocate fun _ _ hheap => ⟨grown, List.prefix_refl _, hheap.addList (.toArray hvalues), hheap.lists.size⟩
    exact hlist.map fun _ hsame => hsame ▸ .list _
  | index hobject hline hposition =>
    refine (ih.eval h henv hobject).bind fun hgrown hv => (ih.eval h (henv.mono hgrown) hposition).bind fun hgrown' hu => ?_
    exact .operation hline fun _ _ hheap => hheap.subscript (hv.mono hgrown') hu

theorem evalAll_along (ih : AlongAt c steps) (h : c.side.Covers 0 steps steps') (henv : env.Padded frames π env')
    {es es' : List Expr} (hes : Expr.DesugarsAll c.pairing π es es') :
    c.Along frames c.values (evalAll (steps + 1) env es) (evalAll (steps' + 1) env' es') := by
  cases hes with
  | nil => exact .pure .nil
  | cons he hrest =>
    exact (ih.eval h henv he).bind fun hgrown hv =>
      (ih.evalAll h (henv.mono hgrown) hrest).map fun hgrown' hvalues => .cons (hv.mono hgrown') hvalues

theorem call_along (ih : AlongAt c steps) (h : c.side.Covers 0 steps steps') {line line' : Nat} (hline : c.line line line')
    {callee callee' : Value} (hcallee : callee.Pairs c.pairing frames callee') {arguments arguments' : List Argument}
    (harguments : List.Forall₂ (Argument.Pairs c.pairing frames) arguments arguments') :
    c.Along frames c.value (call (steps + 1) line callee arguments) (call (steps' + 1) line' callee' arguments') := by
  have hcallable := hcallee.callable?
  have hvalues : c.values frames (arguments.map (·.value)) (arguments'.map (·.value)) := by
    rw [Comparison.values, List.forall₂_map_left_iff, List.forall₂_map_right_iff]
    exact harguments.imp fun _ _ ha => ha.value
  unfold call
  generalize callee.callable? = o, callee'.callable? = o' at hcallable
  cases hcallable with
  | none => exact .fail hline _
  | some hcallable =>
    dsimp only
    rw [harguments.length_eq, hcallable.arity]
    refine .ite rfl (.fail hline _) (.nested hline ?_)
    cases hcallable with
    | native f => exact native_along f hline harguments
    | constant hresult => exact .pure hresult
    | closure hf => exact ih.invoke h hf hvalues
    | «class» hd => exact ih.instantiate h hd hvalues

theorem instantiate_along (ih : AlongAt c steps) (h : c.side.Covers 0 steps steps') {d d' : Class}
    (hd : d.Pairs c.pairing frames d') {arguments arguments' : List Value} (harguments : c.values frames arguments arguments') :
    c.Along frames c.value (instantiate (steps + 1) d arguments) (instantiate (steps' + 1) d' arguments') := by
  have hobject : c.Along frames Same (Run.allocate (·.addObject)) (Run.allocate (·.addObject)) :=
    .allocate fun _ _ hheap => ⟨frames, List.prefix_refl _, hheap.addObject, hheap.objects.size⟩
  refine hobject.bind fun {grown id id'} hgrown hsame => ?_
  obtain rfl : id' = id := hsame
  replace hd := hd.mono hgrown
  have hmethod := hd.method? initializerName
  dsimp only
  generalize d.method? initializerName = o, d'.method? initializerName = o' at hmethod
  cases hmethod with
  | none => exact .pure (.object id' hd)
  | some hmethod =>
    refine (bindReceiver_along hmethod (.object id' hd)).bind fun hgrown' hbound => ?_
    have harguments := harguments.imp fun _ _ => Value.Pairs.mono (hgrown.trans hgrown')
    exact (ih.invoke h hbound harguments).map fun hgrown'' _ => .object id' (hd.mono (hgrown'.trans hgrown''))

theorem invoke_along (ih : AlongAt c steps) (h : c.side.Covers 0 steps steps') {f f' : Closure}
    (hf : f.Pairs c.pairing frames [] f') {arguments arguments' : List Value} (harguments : c.values frames arguments arguments') :
    c.Along frames c.value (invoke (steps + 1) f arguments) (invoke (steps' + 1) f' arguments') := by
  obtain ⟨hsignature, π, henv, hfunction, hopen⟩ := hf
  have hinitializer : f'.isInitializer = f.isInitializer := congrArg (·.2.2) hsignature
  have hparameters : (Bindings.empty.setAll ((f.function.params.map (·.text)).zip arguments)).Pairs
      (Value.Pairs c.pairing frames) (Bindings.empty.setAll ((f'.function.params.map (·.text)).zip arguments')) := by
    rw [hfunction.texts]
    refine Bindings.Pairs.empty.setAll ?_
    generalize f.function.params.map (·.text) = texts
    induction harguments generalizing texts with
    | nil => simp
    | cons hv _ ih' =>
      cases texts with
      | nil => exact .nil
      | cons text texts => exact .cons ⟨rfl, hv⟩ (ih' texts)
  unfold invoke
  dsimp only
  rw [hinitializer]
  refine (enter_along henv hparameters).bind fun hgrown hinner => ?_
  refine (ih.execAll h hinner hfunction.body).bind fun hgrown' hflow => ?_
  cases hinit : f.isInitializer with
  | true =>
    have hnow : π.shift 0 = 0 := Padding.shift_zero (hopen hinit)
    have hlook {grown : Frames} (henv : f.environment.Padded grown π f'.environment) : c.Along grown c.value
        (Run.look fun heap => (heap.get? f.environment 0 receiverName).getD .nil)
        (Run.look fun heap => (heap.get? f'.environment 0 receiverName).getD .nil) := by
      refine .look fun heap heap' hheap => ?_
      have hreceiver := hheap.get? henv 0 receiverName
      rw [hnow] at hreceiver
      generalize heap.get? f.environment 0 receiverName = o, heap'.get? f'.environment 0 receiverName = o' at hreceiver
      cases hreceiver with
      | none => exact .nil
      | some hv => exact hv
    exact hlook (henv.mono (hgrown.trans hgrown'))
  | false =>
    cases hflow with
    | «return» hv => exact .pure hv
    | _ => exact .pure .nil

/-! ### Statements -/

theorem declareClass_along (henv : env.Padded frames π env') (hopen : π.Open) {name name' : Name}
    (hname : name.Pairs c.line name') {methods methods' : List Method}
    (hmethods : Method.DesugarsAll c.pairing (.shared :: π) methods methods') :
    c.Along frames Same (Run.declareClass env name none methods) (Run.declareClass env' name' none methods') := by
  unfold Run.declareClass
  rw [hname.text]
  refine (define_along henv hopen name.text .nil).bind fun hgrown _ => ?_
  refine (newClass_along name.text .none (methodClosures_pair (henv.mono hgrown) hmethods)).bind fun hgrown' hv => ?_
  exact define_along (henv.mono (hgrown.trans hgrown')) hopen name.text hv

theorem declareSubclass_along (henv : env.Padded frames π env') (hopen : π.Open) {name name' : Name}
    (hname : name.Pairs c.line name') {parent parent' : Reference} (hparent : c.pairing.use π parent parent')
    {methods methods' : List Method} (hmethods : Method.DesugarsAll c.pairing (.shared :: .shared :: π) methods methods') :
    c.Along frames Same (Run.declareClass env name (some parent) methods) (Run.declareClass env' name' (some parent') methods') := by
  unfold Run.declareClass
  rw [hname.text]
  refine (define_along henv hopen name.text .nil).bind fun hgrown _ => ?_
  refine (read_along (henv.mono hgrown) hparent).bind fun hgrown' hv => ?_
  cases hv with
  | «class» hd =>
    have henv := henv.mono (hgrown.trans hgrown')
    refine (enter_along henv (single_pairs parentName (.class hd))).bind fun hgrown'' hinner => ?_
    refine (newClass_along name.text (.some (hd.mono hgrown'')) (methodClosures_pair hinner hmethods)).bind fun hmore hv => ?_
    exact define_along (henv.mono (hgrown''.trans hmore)) hopen name.text hv
  | _ => exact .fail hparent.1.line _

/-- What happens behind a statement, where others follow. -/
def handOver (rest : Run Flow) : Flow → Run Flow
  | .normal => rest
  | flow => pure flow

/-- A statement with an increment behind it is the same as a block in which the increment comes last. -/
theorem written_along {α β : Type} {post : Frames → α → β → Prop} (ih : AlongAt c steps) (h : c.side.Covers 4 steps steps')
    (henv : env.Padded frames π env') {body body' : Stmt} {increment increment' : Expr}
    (hbody : body.Desugars c.pairing (.added :: π) body') (hincrement : increment.Desugars c.pairing (.added :: π) increment')
    (hcontinue : ¬ body.Continues) {k : Flow → Run α} {k' : Flow → Run β} {rest : Run α}
    (hk : k .normal = eval steps env increment >>= fun _ => rest)
    (hrest : ∀ {grown}, frames <+: grown → c.Along grown post rest (k' .normal))
    (hleave : ∀ {grown flow flow'}, c.flow False grown flow flow' → flow ≠ .normal → c.Along grown post (k flow) (k' flow')) :
    c.Along frames post (exec steps env body >>= k) (exec steps' env' (.block [body', .expression increment']) >>= k') := by
  refine .deeper (y := fun n => exec n env' (.block [body', .expression increment']) >>= k') h (fun m => ⟨m, rfl⟩) fun h => ?_
  show c.Along frames post _ ((Run.enter env' .empty >>= fun inner => execAll _ inner _) >>= k')
  rw [bind_assoc]
  refine .enter_right .empty fun id' => ?_
  have hinner : env.Padded frames (.added :: π) (id' :: env') := .added id' henv
  refine .deeper (y := fun n => execAll n (id' :: env') [body', .expression increment'] >>= k') h (fun m => ⟨m, rfl⟩) fun h => ?_
  show c.Along frames post _ ((exec _ _ body' >>= _) >>= k')
  rw [bind_assoc]
  refine (ih.exec (h.weaken (Nat.zero_le 2)) hinner hbody).bind fun hgrown hflow => ?_
  cases hflow with
  | «continue» hcontinues => exact absurd hcontinues hcontinue
  | «break» => exact hleave .break nofun
  | «return» hv => exact hleave (.return hv) nofun
  | normal =>
    rw [hk]
    refine .deeper (y := fun n => execAll n (id' :: env') [.expression increment'] >>= k') h (fun m => ⟨m, rfl⟩) fun h => ?_
    refine .deeper (y := fun n => (exec n (id' :: env') (.expression increment') >>= handOver (execAll n (id' :: env') [])) >>= k')
      h (fun m => ⟨m, rfl⟩) fun h => ?_
    show c.Along _ post _ (((eval _ _ increment' >>= _) >>= _) >>= k')
    rw [bind_assoc, bind_assoc]
    refine (ih.eval h (hinner.mono hgrown) hincrement).bind fun hgrown' _ => ?_
    rw [bind_assoc]
    refine .get_right fun m m' hm => ?_
    rw [hm.quiet']
    exact hrest (hgrown.trans hgrown')

/-- A loop is the same in a block of its own. -/
theorem boxed_along (ih : AlongAt c steps) (h : c.side.Covers 4 steps steps') (henv : env.Padded frames π env')
    {condition condition' : Expr} {body body' : Stmt} {increment increment' : Option Expr}
    (hloop : Stmt.Desugars c.pairing (.added :: π) (.loop condition body increment) (.loop condition' body' increment')) :
    c.Along frames (c.flow False) (loop steps env condition body increment)
      (exec (steps' + 1) env' (.block [.loop condition' body' increment'])) := by
  -- The block takes two steps, and one more to find that nothing is left to do there.
  refine .enter_right .empty fun id' => ?_
  refine .deeper (y := fun n => execAll n (id' :: env') [_]) h (fun m => ⟨m, rfl⟩) fun h => ?_
  refine .deeper (y := fun n => exec n (id' :: env') _ >>= handOver (execAll n (id' :: env') [])) h (fun m => ⟨m, rfl⟩)
    fun h => ?_
  refine .bind_right (ih.loop (h.weaken (Nat.zero_le 2)) (.added id' henv) hloop) fun _ hflow => ?_
  cases hflow with
  | normal => exact .pure .normal
  | «break» => exact .pure .break
  | «continue» h => exact h.elim
  | «return» hv => exact .pure (.return hv)

theorem exec_along (ih : AlongAt c steps) (h : c.side.Covers 4 steps steps') (henv : env.Padded frames π env') {s s' : Stmt}
    (hs : s.Desugars c.pairing π s') :
    c.Along frames (c.flow s.Continues) (exec (steps + 1) env s) (exec (steps' + 1) env' s') := by
  have h₀ := h.weaken (Nat.zero_le 4)
  cases hs with
  | expression hvalue =>
    refine (ih.eval h₀ henv hvalue).bind fun _ hv => .get fun m m' hm => ?_
    exact .ite (hm.quiet'.trans hm.quiet.symm) ((writeLine_along .echoed hv).map fun _ _ => .normal) (.pure .normal)
  | print hvalue => exact (ih.eval h₀ henv hvalue).bind fun _ hv => (writeLine_along .printed hv).map fun _ _ => .normal
  | @declare _ name name' hopen hname =>
    have hdefine : c.Along frames Same (Run.define env name.text .nil) (Run.define env' name'.text .nil) :=
      hname.text.symm ▸ define_along henv hopen name.text .nil
    exact hdefine.map fun _ _ => .normal
  | var hopen hname hinitializer =>
    refine (ih.eval h₀ henv hinitializer).bind fun hgrown hv => ?_
    rw [hname.text]
    exact (define_along (henv.mono hgrown) hopen _ hv).map fun _ _ => .normal
  | block hbody =>
    refine (enter_along henv .empty).bind fun _ hinner => (ih.execAll h₀ hinner hbody).imp fun _ hflow => ?_
    cases hflow with
    | «continue» h =>
      obtain ⟨s, hs, hcontinues⟩ := h
      exact .continue (.block hs hcontinues)
    | normal => exact .normal
    | «break» => exact .break
    | «return» hv => exact .return hv
  | branch hcondition hthen =>
    refine (ih.eval h₀ henv hcondition).bind fun hgrown hv => (truthy_along hv).bind fun hgrown' hsame => ?_
    exact .ite hsame ((ih.exec h₀ (henv.mono (hgrown.trans hgrown')) hthen).imp fun _ hflow => hflow.imp .thenBranch)
      (.pure .normal)
  | branches hcondition hthen helse =>
    refine (ih.eval h₀ henv hcondition).bind fun hgrown hv => (truthy_along hv).bind fun hgrown' hsame => ?_
    have henv := henv.mono (hgrown.trans hgrown')
    exact .ite hsame ((ih.exec h₀ henv hthen).imp fun _ hflow => hflow.imp .thenBranch)
      ((ih.exec h₀ henv helse).imp fun _ hflow => hflow.imp .elseBranch)
  | loop hcondition hbody => exact (ih.loop h₀ henv (.loop hcondition hbody)).imp fun _ hflow => hflow.imp False.elim
  | counting hcondition hbody hincrement =>
    exact (ih.loop h₀ henv (.counting hcondition hbody hincrement)).imp fun _ hflow => hflow.imp False.elim
  | written hcondition hbody hincrement hcontinue =>
    exact (ih.loop h₀ henv (.written hcondition hbody hincrement hcontinue)).imp fun _ hflow => hflow.imp False.elim
  | boxed hloop => exact (boxed_along ih h henv hloop).imp fun _ hflow => hflow.imp False.elim
  | «break» => exact .pure .break
  | «continue» => exact .pure (.continue (.continue _))
  | leave => exact .pure (.return .nil)
  | «return» hvalue => exact (ih.eval h₀ henv hvalue).map fun _ hv => .return hv
  | @function _ name name' f f' hopen hname hf =>
    have hclosure : Closure.Pairs c.pairing frames [] ⟨.function name.text, f, env, false⟩
        ⟨.function name'.text, f', env', false⟩ :=
      ⟨by simp [Closure.signature, hf.texts, hname.text], π, henv, hf, nofun⟩
    refine (newFunction_along hclosure).bind fun hgrown hv => ?_
    rw [hname.text]
    exact (define_along (henv.mono hgrown) hopen _ hv).map fun _ _ => .normal
  | «class» hopen hname hmethods => exact (declareClass_along henv hopen hname hmethods).map fun _ _ => .normal
  | subclass hopen hname hparent hmethods =>
    exact (declareSubclass_along henv hopen hname hparent hmethods).map fun _ _ => .normal
  | empty => exact .pure .normal

theorem execAll_along (ih : AlongAt c steps) (h : c.side.Covers 0 steps steps') (henv : env.Padded frames π env')
    {statements statements' : List Stmt} (hall : Stmt.DesugarsAll c.pairing π statements statements') :
    c.Along frames (c.flow (∃ s ∈ statements, s.Continues)) (execAll (steps + 1) env statements)
      (execAll (steps' + 1) env' statements') := by
  cases hall with
  | nil => exact .pure .normal
  | cons hs hrest =>
    refine (ih.exec h henv hs).bind fun hgrown hflow => ?_
    cases hflow with
    | normal =>
      refine (ih.execAll h (henv.mono hgrown) hrest).imp fun _ hflow => hflow.imp fun ⟨s, hs, hcontinues⟩ => ?_
      exact ⟨s, List.mem_cons_of_mem _ hs, hcontinues⟩
    | «break» => exact .pure .break
    | «continue» hcontinues => exact .pure (.continue ⟨_, List.mem_cons_self, hcontinues⟩)
    | «return» hv => exact .pure (.return hv)

theorem loop_along (ih : AlongAt c steps) (h : c.side.Covers 4 steps steps') (henv : env.Padded frames π env')
    {condition condition' : Expr} {body body' : Stmt} {increment increment' : Option Expr}
    (hloop : Stmt.Desugars c.pairing π (.loop condition body increment) (.loop condition' body' increment')) :
    c.Along frames (c.flow False) (loop (steps + 1) env condition body increment)
      (loop (steps' + 1) env' condition' body' increment') := by
  have h₀ := h.weaken (Nat.zero_le 4)
  have hcondition : condition.Desugars c.pairing π condition' := by
    cases hloop <;> assumption
  refine (ih.eval h₀ henv hcondition).bind fun hgrown hv => (truthy_along hv).bind fun hgrown' hsame => ?_
  have henv := henv.mono (hgrown.trans hgrown')
  refine .ite hsame ?_ (.pure .normal)
  have hagain {grown : Frames} (hgrown : _ <+: grown) := ih.loop h₀ (henv.mono hgrown) hloop
  cases hloop with
  | loop _ hbody =>
    refine (ih.exec h₀ henv hbody).bind fun hgrown hflow => ?_
    cases hflow with
    | «break» => exact .pure .normal
    | «return» hv => exact .pure (.return hv)
    | normal => exact hagain hgrown
    | «continue» => exact hagain hgrown
  | counting _ hbody hincrement =>
    refine (ih.exec h₀ henv hbody).bind fun hgrown hflow => ?_
    have hnext : c.Along _ (c.flow False) _ _ := (ih.eval h₀ (henv.mono hgrown) hincrement).bind fun hgrown' _ =>
      hagain (hgrown.trans hgrown')
    cases hflow with
    | «break» => exact .pure .normal
    | «return» hv => exact .pure (.return hv)
    | normal => exact hnext
    | «continue» => exact hnext
  | written _ hbody hincrement hcontinue =>
    refine written_along ih h henv hbody hincrement hcontinue rfl (fun hgrown => hagain hgrown) fun hflow hne => ?_
    cases hflow with
    | normal => exact absurd rfl hne
    | «break» => exact .pure .normal
    | «continue» h => exact h.elim
    | «return» hv => exact .pure (.return hv)

end Steps

theorem alongAt (c : Comparison) (steps : Nat) : AlongAt c steps := by
  induction steps using Nat.strongRecOn with
  | ind steps ih =>
    have ih {fewer : Nat} (hsteps : steps = fewer + 1) : AlongAt c fewer := ih fewer (by omega)
    have hfew {fewer less : Nat} (h : c.side.Covers 4 fewer less) : c.side.Covers 0 fewer less := h.weaken (Nat.zero_le 4)
    constructor
    case eval =>
      exact fun {_ _ _ env env' e e'} h henv he => .count (x := fun n => eval n env e) (y := fun n => eval n env' e') h rfl rfl
        fun hsteps h => eval_along (ih hsteps) (hfew h) henv he
    case evalAll =>
      exact fun {_ _ _ env env' es es'} h henv hes =>
        .count (x := fun n => evalAll n env es) (y := fun n => evalAll n env' es') h rfl rfl
          fun hsteps h => evalAll_along (ih hsteps) (hfew h) henv hes
    case call =>
      exact fun {_ _ line line' v v' arguments arguments'} h hline hv harguments =>
        .count (x := fun n => call n line v arguments) (y := fun n => call n line' v' arguments') h rfl rfl
          fun hsteps h => call_along (ih hsteps) (hfew h) hline hv harguments
    case instantiate =>
      exact fun {_ _ d d' arguments arguments'} h hd harguments =>
        .count (x := fun n => instantiate n d arguments) (y := fun n => instantiate n d' arguments') h rfl rfl
          fun hsteps h => instantiate_along (ih hsteps) (hfew h) hd harguments
    case invoke =>
      exact fun {_ _ f f' arguments arguments'} h hf harguments =>
        .count (x := fun n => invoke n f arguments) (y := fun n => invoke n f' arguments') h rfl rfl
          fun hsteps h => invoke_along (ih hsteps) (hfew h) hf harguments
    case exec =>
      exact fun {_ _ _ env env' s s'} h henv hs => .count (x := fun n => exec n env s) (y := fun n => exec n env' s') h rfl rfl
        fun hsteps h => exec_along (ih hsteps) h henv hs
    case execAll =>
      exact fun {_ _ _ env env' statements statements'} h henv hall =>
        .count (x := fun n => execAll n env statements) (y := fun n => execAll n env' statements') h rfl rfl
          fun hsteps h => execAll_along (ih hsteps) (hfew h) henv hall
    case loop =>
      exact fun {_ _ _ env env' condition condition' body body' increment increment'} h henv hloop =>
        .count (x := fun n => loop n env condition body increment) (y := fun n => loop n env' condition' body' increment') h
          rfl rfl fun hsteps h => loop_along (ih hsteps) h henv hloop

/-- The statements of a program at top level go on side by side. -/
theorem program_along {c : Comparison} {steps steps' : Nat} (h : c.side.Covers 0 steps steps') {frames : Frames}
    {statements statements' : List Stmt} (hall : Stmt.DesugarsAll c.pairing [] statements statements') :
    c.Along frames Any (program steps statements) (program steps' statements') := by
  induction statements generalizing frames statements' with
  | nil =>
    cases hall
    exact .pure trivial
  | cons s rest ih =>
    cases hall with
    | cons hs hrest => exact ((alongAt c steps).exec h .nil hs).bind fun _ _ => ih hrest

end TreeWalk
