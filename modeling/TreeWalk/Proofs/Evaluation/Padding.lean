import TreeWalk.Proofs.Evaluation.Printing
import TreeWalk.Proofs.Evaluation.Relabeling
import TreeWalk.Proofs.Scope.Desugaring

/-!
# Heaps with frames in between

Two heaps hold the same up to frames that only the second one has, and up to loops that are written in different
ways in the functions that they hold. Nothing that values are printed as, compared by or computed from tells such
heaps apart.
-/

namespace TreeWalk

/-! ## Options, arrays and bindings in pairs -/

section Pairs

variable {α β γ δ : Type} {R S : α → β → Prop}

theorem rel_mono {o : Option α} {o' : Option β} (hR : ∀ a b, R a b → S a b) : Option.Rel R o o' → Option.Rel S o o'
  | .none => .none
  | .some h => .some (hR _ _ h)

theorem rel_refl_of {R : α → α → Prop} {o : Option α} (h : ∀ a ∈ o, R a a) : Option.Rel R o o := by
  cases o with
  | none => exact .none
  | some a => exact .some (h a rfl)

/-- Arrays of the same size, element by element. -/
structure Paired (R : α → β → Prop) (xs : Array α) (ys : Array β) : Prop where
  size : ys.size = xs.size
  getElem? : ∀ i : Nat, Option.Rel R xs[i]? ys[i]?

namespace Paired

variable {xs : Array α} {ys : Array β}

theorem refl_of {R : α → α → Prop} {xs : Array α} (h : ∀ a ∈ xs, R a a) : Paired R xs xs :=
  ⟨rfl, fun _ => rel_refl_of fun a ha => h a (Array.mem_of_getElem? ha)⟩

theorem mono (h : Paired R xs ys) (hR : ∀ a b, R a b → S a b) : Paired S xs ys :=
  ⟨h.size, fun i => rel_mono hR (h.getElem? i)⟩

theorem push (h : Paired R xs ys) {a : α} {b : β} (hab : R a b) : Paired R (xs.push a) (ys.push b) := by
  refine ⟨by simp [h.size], fun i => ?_⟩
  rw [Array.getElem?_push, Array.getElem?_push, h.size]
  split
  · exact .some hab
  · exact h.getElem? i

theorem modify (h : Paired R xs ys) {f : α → α} {g : β → β} (hfg : ∀ a b, R a b → R (f a) (g b)) (i : Nat) :
    Paired R (xs.modify i f) (ys.modify i g) := by
  refine ⟨by simp [h.size], fun j => ?_⟩
  rw [Array.getElem?_modify, Array.getElem?_modify]
  have hj := h.getElem? j
  split
  · generalize xs[j]? = o, ys[j]? = o' at hj
    cases hj with
    | none => exact .none
    | some hab => exact .some (hfg _ _ hab)
  · exact hj

theorem toList (h : Paired R xs ys) : List.Forall₂ R xs.toList ys.toList := by
  refine List.forall₂_iff_get.2 ⟨h.size.symm, fun i hi hi' => ?_⟩
  have hat := h.getElem? i
  rw [Array.getElem?_eq_getElem hi, Array.getElem?_eq_getElem hi'] at hat
  cases hat with
  | some hab => exact hab

theorem toArray {xs : List α} {ys : List β} (h : List.Forall₂ R xs ys) : Paired R xs.toArray ys.toArray := by
  induction h with
  | nil => exact ⟨rfl, fun _ => .none⟩
  | cons hab h ih =>
    refine ⟨congrArg (· + 1) ih.size, fun i => ?_⟩
    cases i with
    | zero => exact .some hab
    | succ i => simpa using ih.getElem? i

end Paired

theorem mapM_pairs {f : α → Option γ} {g : β → Option γ} (hfg : ∀ a b, R a b → g b = f a) {xs : List α} {ys : List β}
    (h : List.Forall₂ R xs ys) : ys.mapM g = xs.mapM f := by
  induction h with
  | nil => rfl
  | cons hab _ ih => rw [List.mapM_cons, List.mapM_cons, hfg _ _ hab, ih]

/-- The same names are bound, to one of a pair each. -/
def Bindings.Pairs (R : α → β → Prop) (b : Bindings α) (b' : Bindings β) : Prop :=
  ∀ name, Option.Rel R (b.get? name) (b'.get? name)

namespace Bindings.Pairs

variable {b : Bindings α} {b' : Bindings β}

theorem mono (h : b.Pairs R b') (hR : ∀ a b, R a b → S a b) : b.Pairs S b' := fun name => rel_mono hR (h name)

theorem empty : Bindings.empty.Pairs R Bindings.empty := fun _ => .none

theorem contains (h : b.Pairs R b') (name : String) : b'.contains name = b.contains name := by
  have hget := h name
  unfold Bindings.contains
  generalize b.get? name = o, b'.get? name = o' at hget
  cases hget <;> rfl

theorem set (h : b.Pairs R b') {a : α} {a' : β} (ha : R a a') (name : String) : (b.set name a).Pairs R (b'.set name a') := by
  intro other
  rw [get?_set, get?_set]
  split
  · exact .some ha
  · exact h other

theorem setAll (h : b.Pairs R b') {entries : List (String × α)} {entries' : List (String × β)}
    (hentries : List.Forall₂ (fun entry entry' => entry'.1 = entry.1 ∧ R entry.2 entry'.2) entries entries') :
    (b.setAll entries).Pairs R (b'.setAll entries') := by
  induction hentries generalizing b b' with
  | nil => exact h
  | @cons entry entry' _ _ hentry _ ih =>
    show ((b.set entry.1 entry.2).setAll _).Pairs R ((b'.set entry'.1 entry'.2).setAll _)
    refine ih ?_
    rw [hentry.1]
    exact h.set hentry.2 entry.1

end Bindings.Pairs

end Pairs

/-! ## Environments -/

/-- The frames of a second heap that stand for those of a first one, in their order. -/
abbrev Frames := List FrameId

theorem Frames.getElem?_of_prefix {frames frames' : Frames} (h : frames <+: frames') {id id' : FrameId}
    (hid : frames[id]? = some id') : frames'[id]? = some id' := by
  obtain ⟨more, rfl⟩ := h
  rw [List.getElem?_append_left (List.getElem?_eq_some_iff.1 hid).1, hid]

namespace Environment

/-- Environments of which the second one has a frame for each scope of the padding. -/
inductive Padded (frames : Frames) : Padding → Environment → Environment → Prop where
  | nil : Padded frames [] [] []
  | shared {π : Padding} {env env' : Environment} {id id' : FrameId} (hid : frames[id]? = some id')
    (h : Padded frames π env env') : Padded frames (.shared :: π) (id :: env) (id' :: env')
  | added {π : Padding} {env env' : Environment} (id' : FrameId) (h : Padded frames π env env') :
    Padded frames (.added :: π) env (id' :: env')

namespace Padded

variable {frames frames' : Frames} {π : Padding} {env env' : Environment}

theorem mono (hframes : frames <+: frames') (h : Padded frames π env env') : Padded frames' π env env' := by
  induction h with
  | nil => exact .nil
  | shared hid _ ih => exact .shared (Frames.getElem?_of_prefix hframes hid) ih
  | added id' _ ih => exact .added id' ih

/-- The frame at a distance stands for itself at the shifted distance. -/
theorem outward? (h : Padded frames π env env') (htop : frames[Heap.topFrame]? = some Heap.topFrame) (distance : Nat) :
    Option.Rel (fun id id' => frames[id]? = some id') (Heap.outward? env distance) (Heap.outward? env' (π.shift distance)) := by
  induction h generalizing distance with
  | nil =>
    cases distance with
    | zero => exact .some htop
    | succ distance => exact .none
  | shared hid _ ih =>
    cases distance with
    | zero => exact .some hid
    | succ distance => exact ih distance
  | added id' _ ih => exact ih distance

theorem innermost (h : Padded frames π env env') (htop : frames[Heap.topFrame]? = some Heap.topFrame) (hopen : π.Open) :
    frames[Heap.innermost env]? = some (Heap.innermost env') := by
  cases h with
  | nil => exact htop
  | shared hid _ => exact hid
  | added id' _ => exact absurd rfl hopen

/-- An environment stands for itself where all frames do. -/
theorem whole {size : Nat} (henv : ∀ id ∈ env, id < size) : Padded (List.range size) (.whole env.length) env env := by
  induction env with
  | nil => exact .nil
  | cons id env ih =>
    obtain ⟨hid, henv⟩ := List.forall_mem_cons.1 henv
    exact .shared (List.getElem?_range hid) (ih henv)

end Padded

end Environment

/-! ## Values -/

/-- What is shown of a function, apart from its body. -/
def Closure.signature (c : Closure) : ClosureName × List String × Bool :=
  (c.name, c.function.params.map (·.text), c.isInitializer)

/-- Functions that stand for each other. Their bodies may have more scopes around than the frames of their
environments. -/
structure Closure.Pairs (k : Pairing) (frames : Frames) (around : Padding) (c c' : Closure) : Prop where
  signature : c'.signature = c.signature
  body : ∃ π, c.environment.Padded frames π c'.environment ∧ c.function.Desugars k (around ++ π) c'.function ∧
    (c.isInitializer = true → (around ++ π).Open)

/-- The methods of a class have the scope of their receiver around. -/
structure ClassBody.Pairs (k : Pairing) (frames : Frames) (c c' : ClassBody) : Prop where
  identity : c'.identity = c.identity
  name : c'.name = c.name
  shown : c'.methods.map Closure.signature = c.methods.map Closure.signature
  methods : c.methods.Pairs (Closure.Pairs k frames [.shared]) c'.methods

def Class.Pairs (k : Pairing) (frames : Frames) (c c' : Class) : Prop :=
  List.Forall₂ (ClassBody.Pairs k frames) c.lineage c'.lineage

inductive Value.Pairs (k : Pairing) (frames : Frames) : Value → Value → Prop where
  | nil : Pairs k frames .nil .nil
  | bool (value : Bool) : Pairs k frames (.bool value) (.bool value)
  | number (value : Float) : Pairs k frames (.number value) (.number value)
  | text (value : String) : Pairs k frames (.text value) (.text value)
  | list (id : ListId) : Pairs k frames (.list id) (.list id)
  | native (identity : Nat) (f : Native) : Pairs k frames (.native identity f) (.native identity f)
  | constant (identity : Nat) {result result' : Value} (h : Pairs k frames result result') :
    Pairs k frames (.constant identity result) (.constant identity result')
  | function (identity : Nat) {c c' : Closure} (h : c.Pairs k frames [] c') :
    Pairs k frames (.function identity c) (.function identity c')
  | class {c c' : Class} (h : c.Pairs k frames c') : Pairs k frames (.class c) (.class c')
  | object (id : ObjectId) {c c' : Class} (h : c.Pairs k frames c') : Pairs k frames (.object id c) (.object id c')

inductive Callable.Pairs (k : Pairing) (frames : Frames) : Callable → Callable → Prop where
  | native (f : Native) : Pairs k frames (.native f) (.native f)
  | constant {result result' : Value} (h : result.Pairs k frames result') : Pairs k frames (.constant result) (.constant result')
  | closure {c c' : Closure} (h : c.Pairs k frames [] c') : Pairs k frames (.closure c) (.closure c')
  | class {c c' : Class} (h : c.Pairs k frames c') : Pairs k frames (.class c) (.class c')

section Values

variable {k : Pairing} {frames frames' : Frames}

theorem Closure.Pairs.mono {around : Padding} {c c' : Closure} (hframes : frames <+: frames') (h : c.Pairs k frames around c') :
    c.Pairs k frames' around c' := by
  obtain ⟨hsignature, π, henv, hbody⟩ := h
  exact ⟨hsignature, π, henv.mono hframes, hbody⟩

theorem Class.Pairs.mono {c c' : Class} (hframes : frames <+: frames') (h : c.Pairs k frames c') : c.Pairs k frames' c' :=
  h.imp fun _ _ hbody => ⟨hbody.identity, hbody.name, hbody.shown, hbody.methods.mono fun _ _ => .mono hframes⟩

theorem Value.Pairs.mono {v v' : Value} (hframes : frames <+: frames') (h : v.Pairs k frames v') : v.Pairs k frames' v' := by
  induction h with
  | constant identity _ ih => exact .constant identity ih
  | function identity h => exact .function identity (h.mono hframes)
  | «class» h => exact .class (h.mono hframes)
  | object id h => exact .object id (h.mono hframes)
  | _ => constructor

theorem Closure.Pairs.arity {around : Padding} {c c' : Closure} (h : c.Pairs k frames around c') : c'.arity = c.arity := by
  have hparams : c'.function.params.map (·.text) = c.function.params.map (·.text) := congrArg (·.2.1) h.signature
  simpa [Closure.arity] using congrArg List.length hparams

namespace Class.Pairs

variable {c c' : Class}

theorem own (h : c.Pairs k frames c') : c.own.Pairs k frames c'.own := (List.forall₂_cons.1 h).1

theorem text (h : c.Pairs k frames c') : c'.text = c.text := by rw [Class.text, h.own.name, Class.text]

theorem method? (h : c.Pairs k frames c') (name : String) :
    Option.Rel (Closure.Pairs k frames [.shared]) (c.method? name) (c'.method? name) := by
  unfold Class.Pairs at h
  unfold Class.method?
  generalize c.lineage = lineage, c'.lineage = lineage' at h
  induction h with
  | nil => exact .none
  | @cons own own' _ _ hown _ ih =>
    rw [List.findSome?_cons, List.findSome?_cons]
    have hget := hown.methods name
    generalize own.methods.get? name = o, own'.methods.get? name = o' at hget
    cases hget with
    | none => exact ih
    | some hmethod => exact .some hmethod

theorem arity (h : c.Pairs k frames c') : c'.arity = c.arity := by
  have hmethod := h.method? initializerName
  unfold Class.arity
  generalize c.method? initializerName = o, c'.method? initializerName = o' at hmethod
  cases hmethod with
  | none => rfl
  | some h => exact h.arity

theorem parent? (h : c.Pairs k frames c') : Option.Rel (Class.Pairs k frames) c.parent? c'.parent? := by
  obtain ⟨own, ancestors⟩ := c
  obtain ⟨own', ancestors'⟩ := c'
  have hancestors := (List.forall₂_cons.1 h).2
  cases hancestors with
  | nil => exact .none
  | cons hparent hrest => exact .some (.cons hparent hrest)

end Class.Pairs

theorem Callable.Pairs.arity {c c' : Callable} (h : c.Pairs k frames c') : c'.arity = c.arity := by
  cases h with
  | native f => rfl
  | constant _ => rfl
  | closure h => exact h.arity
  | «class» h => exact h.arity

namespace Value.Pairs

variable {v v' : Value}

theorem callable? (h : v.Pairs k frames v') : Option.Rel (Callable.Pairs k frames) v.callable? v'.callable? := by
  cases h with
  | native identity f => exact .some (.native f)
  | constant identity h => exact .some (.constant h)
  | function identity h => exact .some (.closure h)
  | «class» h => exact .some (.class h)
  | _ => exact .none

theorem typeName (h : v.Pairs k frames v') : v'.typeName = v.typeName := by
  cases h <;> rfl

theorem ofLiteral (value : Literal) : (Value.ofLiteral value).Pairs k frames (Value.ofLiteral value) := by
  cases value <;> constructor

/-- What has no functions in it stands for itself. -/
theorem of_plain (h : v.Plain) : v.Pairs k frames v := by
  cases v <;> first | exact h.elim | constructor

end Value.Pairs

end Values

/-! ## Heaps -/

/-- Heaps that hold the same, but for frames of the second one that stand for none of the first. -/
structure Heap.Pairs (k : Pairing) (frames : Frames) (h h' : Heap) : Prop where
  size : frames.length = h.frames.size
  top : frames[Heap.topFrame]? = some Heap.topFrame
  distinct : frames.Nodup
  bounded : ∀ id' ∈ frames, id' < h'.frames.size
  frame : ∀ {id id'}, frames[id]? = some id' → (h.frame id).Pairs (Value.Pairs k frames) (h'.frame id')
  lists : Paired (Paired (Value.Pairs k frames)) h.lists h'.lists
  objects : Paired (Bindings.Pairs (Value.Pairs k frames)) h.objects h'.objects
  identities : h'.identities = h.identities

namespace Heap.Pairs

variable {k : Pairing} {frames : Frames} {h h' : Heap} {v v' : Value}

theorem elements (hh : Heap.Pairs k frames h h') (id : ListId) :
    Paired (Value.Pairs k frames) (h.elements id) (h'.elements id) := by
  have hlist := hh.lists.getElem? id
  unfold Heap.elements
  generalize h.lists[id]? = o, h'.lists[id]? = o' at hlist
  cases hlist with
  | none => exact ⟨rfl, fun _ => .none⟩
  | some hlist => exact hlist

theorem fields (hh : Heap.Pairs k frames h h') (id : ObjectId) :
    (h.fields id).Pairs (Value.Pairs k frames) (h'.fields id) := by
  have hobject := hh.objects.getElem? id
  unfold Heap.fields
  generalize h.objects[id]? = o, h'.objects[id]? = o' at hobject
  cases hobject with
  | none => exact .empty
  | some hobject => exact hobject

theorem get? (hh : Heap.Pairs k frames h h') {π : Padding} {env env' : Environment} (henv : env.Padded frames π env')
    (distance : Nat) (name : String) :
    Option.Rel (Value.Pairs k frames) (h.get? env distance name) (h'.get? env' (π.shift distance) name) := by
  have hframe := henv.outward? hh.top distance
  unfold Heap.get?
  generalize outward? env distance = o, outward? env' (π.shift distance) = o' at hframe
  cases hframe with
  | none => exact .none
  | some hid => exact hh.frame hid name

/-! ### Changes -/

theorem define (hh : Heap.Pairs k frames h h') {id id' : FrameId} (hid : frames[id]? = some id') (name : String)
    (hv : v.Pairs k frames v') : Heap.Pairs k frames (h.define id name v) (h'.define id' name v') where
  size := by simpa [Heap.define] using hh.size
  top := hh.top
  distinct := hh.distinct
  bounded := by simpa [Heap.define] using hh.bounded
  frame {other other'} hother := by
    have hlength : id < h.frames.size := hh.size ▸ (List.getElem?_eq_some_iff.1 hid).1
    have hlength' : id' < h'.frames.size := hh.bounded id' (List.mem_of_getElem? hid)
    have hsame : other' = id' ↔ other = id := by
      refine ⟨fun heq => ?_, fun heq => ?_⟩
      · subst heq
        exact (List.getElem?_inj (hh.size ▸ (List.getElem?_eq_some_iff.1 hother).1) hh.distinct).1 (hother.trans hid.symm)
      · subst heq
        exact Option.some.inj (hother.symm.trans hid)
    rw [frame_define h other name v hlength, frame_define h' other' name v' hlength']
    by_cases heq : other = id
    · rw [if_pos heq, if_pos (hsame.2 heq)]
      exact (hh.frame hid).set hv name
    · rw [if_neg heq, if_neg (heq ∘ hsame.1)]
      exact hh.frame hother
  lists := hh.lists
  objects := hh.objects
  identities := hh.identities

/-- A frame that stands for another one is new in both heaps. -/
theorem addFrame (hh : Heap.Pairs k frames h h') {b b' : Bindings Value}
    (hb : b.Pairs (Value.Pairs k (frames ++ [h'.frames.size])) b') :
    Heap.Pairs k (frames ++ [h'.frames.size]) (h.addFrame b).2 (h'.addFrame b').2 := by
  have hframes : frames <+: frames ++ [h'.frames.size] := List.prefix_append _ _
  have hmono {v v' : Value} (hv : v.Pairs k frames v') : v.Pairs k (frames ++ [h'.frames.size]) v' := hv.mono hframes
  have hnew : ∀ id' ∈ frames, id' ≠ h'.frames.size := fun id' hid' => Nat.ne_of_lt (hh.bounded id' hid')
  refine
    { size := by simp [Heap.addFrame, hh.size]
      top := Frames.getElem?_of_prefix hframes hh.top
      distinct := List.Nodup.append hh.distinct (List.nodup_singleton _) (by simpa using fun hmem => hnew _ hmem rfl)
      bounded := fun id' hid' => ?_
      frame := fun {id id'} hid => ?_
      lists := hh.lists.mono fun _ _ h => h.mono fun _ _ => hmono
      objects := hh.objects.mono fun _ _ h => h.mono fun _ _ => hmono
      identities := hh.identities }
  · rcases List.mem_append.1 hid' with hid' | hid'
    · simpa [Heap.addFrame] using Nat.lt_succ_of_lt (hh.bounded id' hid')
    · simp [Heap.addFrame, List.mem_singleton.1 hid']
  · rw [frame_addFrame, frame_addFrame]
    rcases Nat.lt_or_ge id frames.length with hlt | hge
    · rw [List.getElem?_append_left hlt] at hid
      rw [if_neg (by rw [← hh.size]; exact Nat.ne_of_lt hlt), if_neg (hnew id' (List.mem_of_getElem? hid))]
      exact (hh.frame hid).mono fun _ _ => hmono
    · rw [List.getElem?_append_right hge, List.getElem?_singleton] at hid
      split at hid
      case isFalse => cases hid
      case isTrue hzero =>
        have hsize : id = h.frames.size := hh.size ▸ Nat.le_antisymm (Nat.sub_eq_zero_iff_le.1 hzero) hge
        rw [if_pos hsize, if_pos (Option.some.inj hid).symm]
        exact hb

/-- A frame that stands for none is new in the second heap. -/
theorem addFrame_right (hh : Heap.Pairs k frames h h') (b : Bindings Value) : Heap.Pairs k frames h (h'.addFrame b).2 :=
  { hh with
    bounded := fun id' hid' => by simpa [Heap.addFrame] using Nat.lt_succ_of_lt (hh.bounded id' hid')
    frame := fun {id id'} hid => by
      rw [frame_addFrame, if_neg (Nat.ne_of_lt (hh.bounded id' (List.mem_of_getElem? hid)))]
      exact hh.frame hid }

theorem addList (hh : Heap.Pairs k frames h h') {values values' : Array Value} (hvalues : Paired (Value.Pairs k frames) values values') :
    Heap.Pairs k frames (h.addList values).2 (h'.addList values').2 := { hh with lists := hh.lists.push hvalues }

theorem append (hh : Heap.Pairs k frames h h') (id : ListId) (hv : v.Pairs k frames v') :
    Heap.Pairs k frames (h.append id v) (h'.append id v') :=
  { hh with lists := hh.lists.modify (fun _ _ hlist => hlist.push hv) id }

theorem addObject (hh : Heap.Pairs k frames h h') : Heap.Pairs k frames h.addObject.2 h'.addObject.2 :=
  { hh with objects := hh.objects.push .empty }

theorem setField (hh : Heap.Pairs k frames h h') (id : ObjectId) (name : String) (hv : v.Pairs k frames v') :
    Heap.Pairs k frames (h.setField id name v) (h'.setField id name v') :=
  { hh with objects := hh.objects.modify (fun _ _ hobject => hobject.set hv name) id }

theorem addIdentity (hh : Heap.Pairs k frames h h') : Heap.Pairs k frames h.addIdentity.2 h'.addIdentity.2 :=
  { hh with identities := congrArg (· + 1) hh.identities }

end Heap.Pairs

end TreeWalk
