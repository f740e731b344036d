import TreeWalk.Evaluation
import TreeWalk.Proofs.Evaluation.Appearance

/-!
# Runs side by side

Two runs on machines that hold the same, up to frames that only the second one has. What the one does the other does
too, and both end in the same way. Only one of the runs is known to come to an end, and where it does not, nothing is
said of the other.
-/

namespace TreeWalk

/-- Which of two runs is known to come to an end. -/
inductive Side where
  | first
  | second
  deriving DecidableEq

/-- What two runs have to do with each other: how lines differ, the tables they use, and which one comes to an
end. -/
structure Comparison where
  line : Nat → Nat → Prop
  before : Distances
  after : Distances
  side : Side

/-! ## Machines and outcomes -/

inductive Stop.Pairs (line : Nat → Nat → Prop) : Stop → Stop → Prop where
  | evaluation {l l' : Nat} (hline : line l l') (cause : FaultCause) :
    Pairs line (.fault (.evaluation l cause)) (.fault (.evaluation l' cause))
  | output : Pairs line (.fault .output) (.fault .output)
  | crash (cause : Crash) : Pairs line (.crash cause) (.crash cause)
  | unfinished : Pairs line .unfinished .unfinished

inductive Flow.Pairs (k : Pairing) (frames : Frames) (continues : Prop) : Flow → Flow → Prop where
  | normal : Pairs k frames continues .normal .normal
  | break : Pairs k frames continues .break .break
  | continue (h : continues) : Pairs k frames continues .continue .continue
  | return {v v' : Value} (h : v.Pairs k frames v') : Pairs k frames continues (.return v) (.return v')

theorem Flow.Pairs.imp {k : Pairing} {frames : Frames} {continues more : Prop} {flow flow' : Flow}
    (h : flow.Pairs k frames continues flow') (hmore : continues → more) : flow.Pairs k frames more flow' := by
  cases h with
  | normal => exact .normal
  | «break» => exact .break
  | «continue» h => exact .continue (hmore h)
  | «return» hv => exact .return hv

structure Argument.Pairs (k : Pairing) (frames : Frames) (a a' : Argument) : Prop where
  value : a.value.Pairs k frames a'.value
  printed : a'.expr.printed = a.expr.printed
  label : Native.label a'.expr = Native.label a.expr

namespace Comparison

variable (c : Comparison)

def pairing : Pairing := .tables c.line c.before c.after

/-- All but the heaps and the tables is the same, and nothing is echoed. -/
structure Machines (frames : Frames) (m m' : Machine) : Prop where
  heap : Heap.Pairs c.pairing frames m.heap m'.heap
  before : m.distances = c.before
  after : m'.distances = c.after
  quiet : m.echo = false
  quiet' : m'.echo = false
  output : m'.output = m.output
  depth : m'.depth = m.depth
  input : m'.input = m.input
  clock : m'.clock = m.clock
  readings : m'.readings = m.readings

variable {α β γ δ : Type}

/-- How two runs end: with results that stand for each other, by the same fault, or without an end of the run that was
to have one. -/
inductive Ends (frames : Frames) (post : Frames → α → β → Prop) :
    EStateM.Result Stop Machine α → EStateM.Result Stop Machine β → Prop where
  | ok {grown : Frames} {a : α} {b : β} {m m' : Machine} (hgrown : frames <+: grown) (hm : c.Machines grown m m')
    (h : post grown a b) : Ends frames post (.ok a m) (.ok b m')
  | error {grown : Frames} {stop stop' : Stop} {m m' : Machine} (hgrown : frames <+: grown) (hm : c.Machines grown m m')
    (h : stop.Pairs c.line stop') : Ends frames post (.error stop m) (.error stop' m')
  | first (h : c.side = .first) (m : Machine) (result : EStateM.Result Stop Machine β) :
    Ends frames post (.error .unfinished m) result
  | second (h : c.side = .second) (result : EStateM.Result Stop Machine α) (m' : Machine) :
    Ends frames post result (.error .unfinished m')

/-- The computations end in the same way, whatever the machines hold. -/
def Along (frames : Frames) (post : Frames → α → β → Prop) (x : Run α) (y : Run β) : Prop :=
  ∀ m m', c.Machines frames m m' → c.Ends frames post (x m) (y m')

/-- The second result is the first one. -/
def Same (_ : Frames) (a b : α) : Prop := b = a

def Any (_ : Frames) (_ : α) (_ : β) : Prop := True

abbrev value (frames : Frames) : Value → Value → Prop := Value.Pairs c.pairing frames

abbrev values (frames : Frames) : List Value → List Value → Prop := List.Forall₂ (Value.Pairs c.pairing frames)

abbrev flow (continues : Prop) (frames : Frames) : Flow → Flow → Prop := Flow.Pairs c.pairing frames continues

abbrev environment (π : Padding) (frames : Frames) : Environment → Environment → Prop := Environment.Padded frames π

end Comparison

open Comparison

variable {c : Comparison}

/-- Other heaps that hold the same. -/
theorem Comparison.Machines.withHeaps {frames grown : Frames} {m m' : Machine} (h : c.Machines frames m m') {heap heap' : Heap}
    (hheap : Heap.Pairs c.pairing grown heap heap') : c.Machines grown { m with heap } { m' with heap := heap' } :=
  { h with heap := hheap }

namespace Comparison.Along

variable {α β γ δ : Type} {frames : Frames} {post : Frames → α → β → Prop} {post' : Frames → γ → δ → Prop} {x : Run α} {y : Run β}

/-! ## Rules -/

theorem pure {a : α} {b : β} (h : post frames a b) : c.Along frames post (Pure.pure a) (Pure.pure b) :=
  fun _ _ hm => .ok (List.prefix_refl _) hm h

theorem bind {k : α → Run γ} {k' : β → Run δ} (hx : c.Along frames post x y)
    (hk : ∀ {grown a b}, frames <+: grown → post grown a b → c.Along grown post' (k a) (k' b)) :
    c.Along frames post' (x >>= k) (y >>= k') := by
  intro m m' hm
  have hends := hx m m' hm
  rw [bind_eq_match, bind_eq_match]
  generalize x m = result, y m' = result' at hends
  cases hends with
  | @ok grown a b m m' hgrown hm hpost =>
    have hrest := hk hgrown hpost m m' hm
    dsimp only
    generalize k a m = rest, k' b m' = rest' at hrest
    cases hrest with
    | ok hgrown' hm hpost => exact .ok (hgrown.trans hgrown') hm hpost
    | error hgrown' hm hstop => exact .error (hgrown.trans hgrown') hm hstop
    | first hside m => exact .first hside m _
    | second hside _ m' => exact .second hside _ m'
  | error hgrown hm hstop => exact .error hgrown hm hstop
  | first hside m => exact .first hside m _
  | second hside _ m' => exact .second hside _ m'

/-- Only the second run goes on. -/
theorem bind_right {k' : β → Run δ} {post' : Frames → α → δ → Prop} (hx : c.Along frames post x y)
    (hk : ∀ {grown a b}, frames <+: grown → post grown a b → c.Along grown post' (Pure.pure a) (k' b)) :
    c.Along frames post' x (y >>= k') := by
  rw [← bind_pure x]
  exact hx.bind hk

theorem imp {wider : Frames → α → β → Prop} (hx : c.Along frames post x y)
    (h : ∀ {grown a b}, frames <+: grown → post grown a b → wider grown a b) : c.Along frames wider x y := by
  intro m m' hm
  have hends := hx m m' hm
  generalize x m = result, y m' = result' at hends
  cases hends with
  | ok hgrown hm hpost => exact .ok hgrown hm (h hgrown hpost)
  | error hgrown hm hstop => exact .error hgrown hm hstop
  | first hside m => exact .first hside m _
  | second hside _ m' => exact .second hside _ m'

/-- The results are changed afterwards. -/
theorem map {f : α → γ} {g : β → δ} (hx : c.Along frames post x y)
    (h : ∀ {grown a b}, frames <+: grown → post grown a b → post' grown (f a) (g b)) :
    c.Along frames post' (x >>= fun a => Pure.pure (f a)) (y >>= fun b => Pure.pure (g b)) :=
  hx.bind fun hgrown hpost => .pure (h hgrown hpost)

theorem ite {p p' : Bool} {x' : Run α} {y' : Run β} (hp : p' = p) (hx : c.Along frames post x y)
    (hx' : c.Along frames post x' y') : c.Along frames post (if p then x else x') (if p' then y else y') := by
  subst hp
  cases p' with
  | true => exact hx
  | false => exact hx'

theorem fail {line line' : Nat} (hline : c.line line line') (cause : FaultCause) :
    c.Along frames post (Run.fail line cause) (Run.fail line' cause) :=
  fun _ _ hm => .error (List.prefix_refl _) hm (.evaluation hline cause)

theorem crash (cause : Crash) : c.Along frames post (Run.crash cause) (Run.crash cause) :=
  fun _ _ hm => .error (List.prefix_refl _) hm (.crash cause)

theorem unfinished : c.Along frames post Run.unfinished Run.unfinished :=
  fun _ _ hm => .error (List.prefix_refl _) hm .unfinished

/-- The machines themselves are looked at. -/
theorem get {k : Machine → Run α} {k' : Machine → Run β}
    (h : ∀ m m', c.Machines frames m m' → c.Along frames post (k m) (k' m')) :
    c.Along frames post (MonadState.get >>= k) (MonadState.get >>= k') := fun m m' hm => h m m' hm m m' hm

/-- Only the second machine is looked at. -/
theorem get_right {k' : Machine → Run β} (h : ∀ m m', c.Machines frames m m' → c.Along frames post x (k' m')) :
    c.Along frames post x (MonadState.get >>= k') := fun m m' hm => h m m' hm m m' hm

theorem look {k : Heap → α} {k' : Heap → β}
    (h : ∀ heap heap', Heap.Pairs c.pairing frames heap heap' → post frames (k heap) (k' heap')) :
    c.Along frames post (Run.look k) (Run.look k') :=
  fun m m' hm => .ok (List.prefix_refl _) hm (h m.heap m'.heap hm.heap)

theorem update {k k' : Heap → Heap}
    (h : ∀ heap heap', Heap.Pairs c.pairing frames heap heap' → Heap.Pairs c.pairing frames (k heap) (k' heap')) :
    c.Along frames Same (Run.update k) (Run.update k') :=
  fun m m' hm => .ok (List.prefix_refl _) (hm.withHeaps (h m.heap m'.heap hm.heap)) rfl

theorem allocate {k : Heap → α × Heap} {k' : Heap → β × Heap}
    (h : ∀ heap heap', Heap.Pairs c.pairing frames heap heap' → ∃ grown, frames <+: grown ∧
      Heap.Pairs c.pairing grown (k heap).2 (k' heap').2 ∧ post grown (k heap).1 (k' heap').1) :
    c.Along frames post (Run.allocate k) (Run.allocate k') := by
  intro m m' hm
  obtain ⟨grown, hgrown, hheap, hpost⟩ := h m.heap m'.heap hm.heap
  exact .ok hgrown (hm.withHeaps hheap) hpost

theorem ofExcept {line line' : Nat} (hline : c.line line line') {result : Except FaultCause α} {result' : Except FaultCause β}
    (h : ResultPairs (post frames) result result') : c.Along frames post (Run.ofExcept line result) (Run.ofExcept line' result') := by
  cases h with
  | ok h => exact .pure h
  | error cause => exact .fail hline cause

theorem operation {line line' : Nat} (hline : c.line line line') {k : Heap → Except Failure α} {k' : Heap → Except Failure β}
    (h : ∀ heap heap', Heap.Pairs c.pairing frames heap heap' → ResultPairs (post frames) (k heap) (k' heap')) :
    c.Along frames post (Run.operation line k) (Run.operation line' k') := by
  intro m m' hm
  have hresult := h m.heap m'.heap hm.heap
  unfold Run.operation
  generalize k m.heap = result, k' m'.heap = result' at hresult
  cases hresult with
  | ok hresult => exact .ok (List.prefix_refl _) hm hresult
  | error failure =>
    cases failure with
    | fault cause => exact .error (List.prefix_refl _) hm (.evaluation hline cause)
    | endless => exact .error (List.prefix_refl _) hm .unfinished

/-- Calls in progress are only counted. -/
theorem nested {line line' : Nat} (hline : c.line line line') (hx : c.Along frames post x y) :
    c.Along frames post (Run.nested line x) (Run.nested line' y) := by
  have hdepth {frames : Frames} {m m' : Machine} (hm : c.Machines frames m m') (depth : Nat) :
      c.Machines frames { m with depth } { m' with depth } := { hm with depth := rfl }
  intro m m' hm
  unfold Run.nested
  rw [hm.depth]
  split
  · exact .error (List.prefix_refl _) hm (.evaluation hline .stackOverflow)
  · have hends := hx _ _ (hdepth hm (m.depth + 1))
    generalize x _ = result, y _ = result' at hends
    cases hends with
    | ok hgrown hm hpost =>
      dsimp only
      rw [hm.depth]
      exact .ok hgrown (hdepth hm _) hpost
    | error hgrown hm hstop =>
      dsimp only
      rw [hm.depth]
      exact .error hgrown (hdepth hm _) hstop
    | first hside m => exact .first hside _ _
    | second hside _ m' => exact .second hside _ _

end Comparison.Along

/-! ## Variables -/

section Operations

variable {frames : Frames} {π : Padding} {env env' : Environment} {v v' u u' : Value} {line line' : Nat} {use use' : Reference}

/-- A reference finds frames that stand for each other. -/
theorem frameOf?_along {m m' : Machine} (hm : c.Machines frames m m') (henv : env.Padded frames π env')
    (huse : c.pairing.use π use use') : Option.Rel (fun id id' => frames[id]? = some id') (Run.frameOf? m env use.id)
      (Run.frameOf? m' env' use'.id) := by
  obtain ⟨-, htable, -⟩ := huse
  unfold Run.frameOf?
  rw [hm.before, hm.after, htable]
  cases c.before[use.id]? with
  | none => exact .some hm.heap.top
  | some distance => exact henv.outward? hm.heap.top distance

theorem read_along (henv : env.Padded frames π env') (huse : c.pairing.use π use use') :
    c.Along frames c.value (Run.read env use) (Run.read env' use') := by
  intro m m' hm
  have hframe := frameOf?_along hm henv huse
  obtain ⟨⟨htext, hline⟩, -, -⟩ := huse
  unfold Run.read
  rw [htext]
  generalize Run.frameOf? m env use.id = o, Run.frameOf? m' env' use'.id = o' at hframe
  cases hframe with
  | none => exact Along.fail hline _ m m' hm
  | @some id id' hid =>
    have hget := hm.heap.frame hid use.name.text
    simp only [Option.bind_some]
    generalize (m.heap.frame id).get? use.name.text = o, (m'.heap.frame id').get? use.name.text = o' at hget
    cases hget with
    | none => exact Along.fail hline _ m m' hm
    | some hv => exact .ok (List.prefix_refl _) hm hv

theorem assign_along (henv : env.Padded frames π env') (huse : c.pairing.use π use use')
    (hv : v.Pairs c.pairing frames v') : c.Along frames Same (Run.assign env use v) (Run.assign env' use' v') := by
  intro m m' hm
  have hframe := frameOf?_along hm henv huse
  obtain ⟨⟨htext, hline⟩, -, -⟩ := huse
  unfold Run.assign
  rw [htext]
  generalize Run.frameOf? m env use.id = o, Run.frameOf? m' env' use'.id = o' at hframe
  cases hframe with
  | none => exact Along.fail hline _ m m' hm
  | @some id id' hid =>
    have hbinds : m'.heap.binds id' use.name.text = m.heap.binds id use.name.text := (hm.heap.frame hid).contains _
    simp only [Option.filter_some, hbinds]
    cases m.heap.binds id use.name.text with
    | true => exact Along.update (fun _ _ hheap => hheap.define hid use.name.text hv) m m' hm
    | false => exact Along.fail hline _ m m' hm

theorem define_along (henv : env.Padded frames π env') (hopen : π.Open) (name : String) (hv : v.Pairs c.pairing frames v') :
    c.Along frames Same (Run.define env name v) (Run.define env' name v') :=
  .update fun _ _ hheap => hheap.define (henv.innermost hheap.top hopen) name hv

theorem enter_along (henv : env.Padded frames π env') {b b' : Bindings Value} (hb : b.Pairs (Value.Pairs c.pairing frames) b') :
    c.Along frames (environment (.shared :: π)) (Run.enter env b) (Run.enter env' b') := by
  have hframe : c.Along frames (fun grown id id' => grown[id]? = some id') (Run.allocate (·.addFrame b))
      (Run.allocate (·.addFrame b')) := by
    refine .allocate fun heap heap' hheap => ?_
    have hgrown : frames <+: frames ++ [heap'.frames.size] := List.prefix_append _ _
    refine ⟨_, hgrown, hheap.addFrame (hb.mono fun _ _ => .mono hgrown), ?_⟩
    show (frames ++ [heap'.frames.size])[heap.frames.size]? = some heap'.frames.size
    rw [← hheap.size, List.getElem?_concat_length]
  exact hframe.map fun hgrown hid => .shared hid (henv.mono hgrown)

/-- Only the second run enters a frame. -/
theorem Comparison.Along.enter_right {α β : Type} {post : Frames → α → β → Prop} {x : Run α} (b : Bindings Value)
    {k : Environment → Run β} (h : ∀ id', c.Along frames post x (k (id' :: env'))) :
    c.Along frames post x (Run.enter env' b >>= k) :=
  fun m m' hm => h m'.heap.frames.size m _ (hm.withHeaps (hm.heap.addFrame_right b))

/-! ## Functions and methods -/

theorem addIdentity_along : c.Along frames Same (Run.allocate (·.addIdentity)) (Run.allocate (·.addIdentity)) :=
  .allocate fun _ _ hheap => ⟨frames, List.prefix_refl _, hheap.addIdentity, hheap.identities⟩

theorem newFunction_along {f f' : Closure} (hf : f.Pairs c.pairing frames [] f') :
    c.Along frames c.value (Run.newFunction f) (Run.newFunction f') :=
  addIdentity_along.map fun hgrown hidentity => hidentity ▸ .function _ (hf.mono hgrown)

theorem single_pairs (name : String) (hv : v.Pairs c.pairing frames v') :
    (Bindings.empty.set name v).Pairs (Value.Pairs c.pairing frames) (Bindings.empty.set name v') :=
  Bindings.Pairs.empty.set hv name

theorem bindReceiver_along {method method' : Closure} (hmethod : method.Pairs c.pairing frames [.shared] method')
    (hv : v.Pairs c.pairing frames v') :
    c.Along frames (Closure.Pairs c.pairing · []) (Run.bindReceiver method v) (Run.bindReceiver method' v') := by
  obtain ⟨hsignature, π, henv, hfunction, hopen⟩ := hmethod
  exact (enter_along henv (single_pairs receiverName hv)).map fun _ henv => ⟨hsignature, .shared :: π, henv, hfunction, hopen⟩

theorem boundMethod_along {method method' : Closure} (hmethod : method.Pairs c.pairing frames [.shared] method')
    (hv : v.Pairs c.pairing frames v') : c.Along frames c.value (do Run.newFunction (← Run.bindReceiver method v))
      (do Run.newFunction (← Run.bindReceiver method' v')) :=
  (bindReceiver_along hmethod hv).bind fun _ => newFunction_along

theorem property_along (id : ObjectId) {d d' : Class} (hd : d.Pairs c.pairing frames d') {name name' : Name}
    (hname : name.Pairs c.line name') : c.Along frames c.value (Run.property id d name) (Run.property id d' name') := by
  have hfield : c.Along frames (fun grown => Option.Rel (Value.Pairs c.pairing grown))
      (Run.look fun h => (h.fields id).get? name.text) (Run.look fun h => (h.fields id).get? name.text) :=
    .look fun _ _ hheap => hheap.fields id name.text
  unfold Run.property
  rw [hname.text]
  refine hfield.bind fun hgrown hfound => ?_
  cases hfound with
  | some hv => exact .pure hv
  | none =>
    have hmethod := (hd.mono hgrown).method? name.text
    dsimp only
    generalize d.method? name.text = o, d'.method? name.text = o' at hmethod
    cases hmethod with
    | some hmethod => exact boundMethod_along hmethod (.object id (hd.mono hgrown))
    | none => exact .fail hname.line _

/-- The parent class and the receiver that a reference finds. -/
theorem parentOf?_along {m m' : Machine} (hm : c.Machines frames m m') (henv : env.Padded frames π env')
    (huse : c.pairing.use π use use') (hparent : use.name.text = parentName) :
    Option.Rel (fun found found' => found.1.Pairs c.pairing frames found'.1 ∧
        Option.Rel (Value.Pairs c.pairing frames) found.2 found'.2)
      (Run.parentOf? m env use.id) (Run.parentOf? m' env' use'.id) := by
  obtain ⟨-, htable, hadjoins⟩ := huse
  replace hadjoins := hadjoins hparent
  unfold Run.parentOf?
  rw [hm.before, hm.after, htable]
  cases hdistance : c.before[use.id]? with
  | none => exact .none
  | some distance =>
    have hfound := hm.heap.get? henv distance parentName
    have hat := hadjoins distance hdistance
    simp only [Option.map_some, Option.bind_eq_bind, Option.bind_some]
    generalize m.heap.get? env distance parentName = o, m'.heap.get? env' (π.shift distance) parentName = o' at hfound
    cases hfound with
    | none => exact .none
    | some hv =>
      cases hv with
      | «class» hd =>
        refine .some ⟨hd, ?_⟩
        cases distance with
        | zero =>
          have hat : π.shift 0 = 0 := hat
          rw [hat]
          exact .none
        | succ inner =>
          have hat : π.shift (inner + 1) = π.shift inner + 1 := hat
          rw [hat]
          exact hm.heap.get? henv inner receiverName
      | _ => exact .none

theorem parentMethod_along (henv : env.Padded frames π env') {id id' : NodeId} {keyword keyword' method method' : Name}
    (huse : c.pairing.use π ⟨id, parentName, keyword.line⟩ ⟨id', parentName, keyword'.line⟩)
    (hkeyword : keyword.Pairs c.line keyword') (hmethod : method.Pairs c.line method') :
    c.Along frames c.value (Run.parentMethod env id keyword method) (Run.parentMethod env' id' keyword' method') := by
  refine .get fun m m' hm => ?_
  have hfound := parentOf?_along hm henv huse rfl
  dsimp only at hfound
  generalize Run.parentOf? m env id = o, Run.parentOf? m' env' id' = o' at hfound
  rw [hmethod.text]
  cases hfound with
  | none => exact .fail hkeyword.line _
  | @some found found' hfound =>
    obtain ⟨parent, receiver⟩ := found
    obtain ⟨parent', receiver'⟩ := found'
    obtain ⟨hparent, hreceiver⟩ := hfound
    cases hreceiver with
    | none => exact .fail hkeyword.line _
    | some hv =>
      have hfound := hparent.method? method.text
      dsimp only
      dsimp only at hfound
      generalize parent.method? method.text = o, parent'.method? method.text = o' at hfound
      cases hfound with
      | some hclosure => exact boundMethod_along hclosure hv
      | none => exact .fail hmethod.line _

/-! ## Classes -/

/-- Methods as they are closed over the environment of their class. -/
def MethodsPair (k : Pairing) (frames : Frames) : List (String × Closure) → List (String × Closure) → Prop :=
  List.Forall₂ fun m m' => m'.1 = m.1 ∧ m.2.Pairs k frames [.shared] m'.2

theorem methodClosures_pair (henv : env.Padded frames π env') {methods methods' : List Method}
    (h : Method.DesugarsAll c.pairing (.shared :: π) methods methods') :
    MethodsPair c.pairing frames (methods.map (Run.methodClosure env)) (methods'.map (Run.methodClosure env')) := by
  induction methods generalizing methods' with
  | nil =>
    cases h
    exact .nil
  | cons method rest ih =>
    cases h with
    | cons hname hf hrest =>
      have htexts := hf.texts
      refine .cons ⟨hname.text, ?_, π, henv, hf, fun _ => nofun⟩ (ih hrest)
      simp only [Closure.signature, Run.methodClosure, hname.text, htexts]

theorem signatures_of_pair {k : Pairing} {methods methods' : List (String × Closure)} (h : MethodsPair k frames methods methods') :
    methods'.map (fun m => (m.1, m.2.signature)) = methods.map fun m => (m.1, m.2.signature) := by
  induction h with
  | nil => rfl
  | cons hm _ ih => rw [List.map_cons, List.map_cons, ih, hm.1, hm.2.signature]

theorem newClass_along (name : String) {parent parent' : Option Class}
    (hparent : Option.Rel (Class.Pairs c.pairing frames) parent parent') {methods methods' : List (String × Closure)}
    (hmethods : MethodsPair c.pairing frames methods methods') :
    c.Along frames c.value (Run.newClass name parent methods) (Run.newClass name parent' methods') := by
  refine addIdentity_along.map fun {grown identity identity'} hgrown hidentity => .class (.cons ?_ ?_)
  · refine ⟨hidentity, rfl, ?_, ?_⟩
    · have hshown (methods : List (String × Closure)) : (Bindings.empty.setAll methods).map Closure.signature =
          Bindings.empty.setAll (methods.map fun m => (m.1, m.2.signature)) :=
        (Bindings.setAll_map Closure.signature .empty methods).symm
      dsimp only
      rw [hshown, hshown, signatures_of_pair hmethods]
    · exact Bindings.Pairs.empty.setAll (hmethods.imp fun _ _ hm => ⟨hm.1, hm.2.mono hgrown⟩)
  · cases hparent with
    | none => exact .nil
    | some h => exact h.mono hgrown

/-! ## Output and operators -/

theorem write_along (origin : Origin) (text : String) : c.Along frames Same (Run.write origin text) (Run.write origin text) := by
  intro m m' hm
  unfold Run.write
  rw [hm.output]
  exact .ok (List.prefix_refl _) { hm with output := rfl } rfl

theorem writeLine_along (origin : Origin) (hv : v.Pairs c.pairing frames v') :
    c.Along frames Same (Run.writeLine origin v) (Run.writeLine origin v') := by
  refine .get fun m m' hm => ?_
  have hline : Run.lineOf? m' v' = Run.lineOf? m v := by
    unfold Run.lineOf?
    rw [hm.output, hm.heap.text? hv]
    simp only [hm.heap.opening _ hv]
  rw [hline]
  cases Run.lineOf? m v with
  | none => exact .unfinished
  | some text =>
    refine (write_along origin text).bind fun _ haccepted => ?_
    rw [haccepted]
    refine .ite rfl ?_ (.pure rfl)
    exact fun m m' hm => .error (List.prefix_refl _) hm .output

theorem truthy_along (hv : v.Pairs c.pairing frames v') :
    c.Along frames Same (Run.look (·.truthy v)) (Run.look (·.truthy v')) :=
  .look fun _ _ hheap => hheap.truthy hv

theorem negate_along (hline : c.line line line') (hv : v.Pairs c.pairing frames v') :
    c.Along frames c.value (Run.ofExcept line v.negate) (Run.ofExcept line' v'.negate) := by
  refine .ofExcept hline (.of_eq ?_ fun _ h => .of_plain (plain_negate h))
  cases hv <;> rfl

theorem binary_along {op op' : Operator TokenKind} (hop : op.Pairs c.line op') (hv : v.Pairs c.pairing frames v')
    (hu : u.Pairs c.pairing frames u') : c.Along frames c.value (Run.binary op v u) (Run.binary op' v' u') := by
  unfold Run.binary
  rw [hop.kind]
  cases BinaryKind.ofToken? op.kind with
  | none => exact .crash _
  | some kind =>
    exact .operation hop.line fun _ _ hheap => .of_eq (hheap.binary kind hv hu) fun _ h => .of_plain (plain_binary h)

/-! ## Native functions -/

variable {a a' b b' : Argument} {arguments arguments' : List Argument}

theorem Argument.Pairs.mono {k : Pairing} {grown : Frames} (hgrown : frames <+: grown) (h : a.Pairs k frames a') :
    a.Pairs k grown a' := ⟨h.value.mono hgrown, h.printed, h.label⟩

theorem readClock_along (hline : c.line line line') :
    c.Along frames c.value (Native.readClock line) (Native.readClock line') := by
  intro m m' hm
  unfold Native.readClock
  dsimp only
  rw [hm.clock, hm.readings]
  split
  · exact .error (List.prefix_refl _) { hm with clock := rfl, readings := rfl } (.evaluation hline _)
  · exact .ok (List.prefix_refl _) { hm with clock := rfl, readings := rfl } (.number _)

theorem nextLine_along (hline : c.line line line') : c.Along frames c.value (Native.nextLine line) (Native.nextLine line') := by
  intro m m' hm
  unfold Native.nextLine
  dsimp only
  rw [hm.input]
  cases Lines.decode? (Lines.split m.input).1 with
  | none => exact .error (List.prefix_refl _) { hm with input := rfl } (.evaluation hline _)
  | some text => exact .ok (List.prefix_refl _) { hm with input := rfl } (.text _)

theorem readInput_along (hline : c.line line line') (ha : a.Pairs c.pairing frames a') :
    c.Along frames c.value (Native.readInput line a) (Native.readInput line' a') := by
  obtain ⟨v, e⟩ := a
  obtain ⟨v', e'⟩ := a'
  cases ha.value with
  | text prompt =>
    exact (write_along .prompt (prompt ++ "> ")).bind fun _ haccepted =>
      .ite haccepted (nextLine_along hline) (.fail hline _)
  | _ => exact .fail hline _

theorem pause_along (hline : c.line line line') (ha : a.Pairs c.pairing frames a') :
    c.Along frames c.value (Native.pause line a) (Native.pause line' a') := by
  obtain ⟨v, e⟩ := a
  obtain ⟨v', e'⟩ := a'
  cases ha.value with
  | number seconds =>
    unfold Native.pause
    dsimp only
    split
    · split
      · exact .crash _
      · exact .pure .nil
    · exact .fail hline _
  | _ => exact .fail hline _

theorem description_along (hline : c.line line line') (ha : a.Pairs c.pairing frames a') :
    c.Along frames c.value (Native.description line a) (Native.description line' a') := by
  obtain ⟨v, e⟩ := a
  obtain ⟨v', e'⟩ := a'
  obtain ⟨hv, -, hlabel⟩ := ha
  dsimp only at hv hlabel
  cases hv with
  | function identity hc =>
    unfold Native.description
    dsimp only
    rw [hlabel, Description.closureLines_of_signature "function" hc.signature]
    exact .pure (.text _)
  | «class» hc =>
    unfold Native.description
    dsimp only
    rw [hlabel, Description.classLines_pairs hc]
    exact .pure (.text _)
  | _ => exact .fail hline _

theorem count_along (hline : c.line line line') (ha : a.Pairs c.pairing frames a') :
    c.Along frames c.value (Native.count line a) (Native.count line' a') := by
  obtain ⟨v, e⟩ := a
  obtain ⟨v', e'⟩ := a'
  cases ha.value with
  | text value => exact .pure (.number _)
  | list id =>
    have hcount : c.Along frames c.value (Run.look fun h => .number (.ofNat (h.elements id).size))
        (Run.look fun h => .number (.ofNat (h.elements id).size)) :=
      .look fun heap heap' hheap => (hheap.elements id).size ▸ .number _
    exact hcount
  | _ => exact .fail hline _

theorem argumentCount_along (hline : c.line line line') (ha : a.Pairs c.pairing frames a') :
    c.Along frames c.value (Native.argumentCount line a) (Native.argumentCount line' a') := by
  have hcallable := ha.value.callable?
  unfold Native.argumentCount
  generalize a.value.callable? = o, a'.value.callable? = o' at hcallable
  cases hcallable with
  | none => exact .fail hline _
  | some hcallable =>
    dsimp only
    rw [hcallable.arity]
    exact .pure (.number _)

theorem extend_along (hline : c.line line line') (ha : a.Pairs c.pairing frames a') (hb : b.Pairs c.pairing frames b') :
    c.Along frames c.value (Native.extend line a b) (Native.extend line' a' b') := by
  obtain ⟨v, e⟩ := a
  obtain ⟨v', e'⟩ := a'
  cases ha.value with
  | list id =>
    have hupdate : c.Along frames Same (Run.update (·.append id b.value)) (Run.update (·.append id b'.value)) :=
      .update fun _ _ hheap => hheap.append id hb.value
    exact hupdate.map fun _ _ => .list id
  | _ => exact .fail hline _

theorem registerConstant_along (hline : c.line line line') (ha : a.Pairs c.pairing frames a') (hb : b.Pairs c.pairing frames b') :
    c.Along frames c.value (Native.registerConstant line a b) (Native.registerConstant line' a' b') := by
  have hname : c.Along frames Same (Run.operation line (·.printed a.value)) (Run.operation line' (·.printed a'.value)) :=
    .operation hline fun _ _ hheap => .of_eq (hheap.printed ha.value) fun _ _ => rfl
  refine hname.bind fun {grown name name'} hgrown hsame => ?_
  obtain rfl : name' = name := hsame
  have hupdate : c.Along grown Same
      (Run.update fun h => h.addIdentity.2.define Heap.topFrame name' (.constant h.addIdentity.1 b.value))
      (Run.update fun h => h.addIdentity.2.define Heap.topFrame name' (.constant h.addIdentity.1 b'.value)) := by
    refine .update fun heap heap' hheap => hheap.addIdentity.define hheap.top name' ?_
    have hidentity : heap'.addIdentity.1 = heap.addIdentity.1 := hheap.identities
    rw [hidentity]
    exact .constant _ (hb.value.mono hgrown)
  exact hupdate.map fun _ _ => .nil

theorem argument_along (h : List.Forall₂ (Argument.Pairs c.pairing frames) arguments arguments') (position : Nat) :
    c.Along frames (Argument.Pairs c.pairing) (Native.argument arguments position) (Native.argument arguments' position) := by
  have hat := (Paired.toArray h).getElem? position
  simp only [List.getElem?_toArray] at hat
  unfold Native.argument
  generalize arguments[position]? = o, arguments'[position]? = o' at hat
  cases hat with
  | none => exact .crash _
  | some ha => exact .pure ha

theorem native_along (f : Native) (hline : c.line line line') (h : List.Forall₂ (Argument.Pairs c.pairing frames) arguments arguments') :
    c.Along frames c.value (f.run line arguments) (f.run line' arguments') := by
  have hfirst := argument_along h 0
  have hboth {k k' : Argument → Argument → Run Value}
      (hk : ∀ {grown a a' b b'}, Argument.Pairs c.pairing grown a a' → Argument.Pairs c.pairing grown b b' →
        c.Along grown c.value (k a b) (k' a' b')) :
      c.Along frames c.value (do k (← Native.argument arguments 0) (← Native.argument arguments 1))
        (do k' (← Native.argument arguments' 0) (← Native.argument arguments' 1)) :=
    hfirst.bind fun hgrown ha =>
      (argument_along (h.imp fun _ _ => .mono hgrown) 1).bind fun hgrown' hb => hk (ha.mono hgrown') hb
  cases f with
  | clock => exact readClock_along hline
  | sleep => exact hfirst.bind fun _ ha => pause_along hline ha
  | input => exact hfirst.bind fun _ ha => readInput_along hline ha
  | describe => exact hfirst.bind fun _ ha => description_along hline ha
  | length => exact hfirst.bind fun _ ha => count_along hline ha
  | typeName => exact hfirst.bind fun _ ha => .pure (ha.value.typeName ▸ .text _)
  | truthy =>
    refine hfirst.bind fun _ ha => .look fun heap heap' hheap => ?_
    rw [hheap.truthy ha.value]
    exact .bool _
  | number =>
    refine hfirst.bind fun {grown a a'} _ ha => ?_
    have hnumeral : c.Along grown Same (Run.ofExcept line a.value.numeral) (Run.ofExcept line' a'.value.numeral) :=
      .ofExcept hline (.of_eq (Heap.Pairs.numeral ha.value) fun _ _ => rfl)
    exact hnumeral.map fun _ hsame => hsame ▸ .number _
  | arity => exact hfirst.bind fun _ ha => argumentCount_along hline ha
  | source => exact hfirst.bind fun _ ha => .pure (ha.printed ▸ .text _)
  | push => exact hboth fun ha hb => extend_along hline ha hb
  | define => exact hboth fun ha hb => registerConstant_along hline ha hb

end Operations

end TreeWalk
