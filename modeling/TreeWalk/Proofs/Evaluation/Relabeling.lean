import TreeWalk.Native
import TreeWalk.Proofs.Evaluation.Printing
import TreeWalk.Proofs.Evaluation.Results
import TreeWalk.Proofs.Syntax.Relabeling

/-!
# Values with other labels

The functions in a heap have bodies, and these have lines and ids. Nothing that values are printed as, compared
by or computed from depends on them.
-/

namespace TreeWalk

/-! ## Bindings -/

namespace Bindings

variable {α β : Type}

/-- The same names with changed values. -/
def map (f : α → β) (b : Bindings α) : Bindings β := ⟨b.entries.map fun entry => (entry.1, f entry.2)⟩

theorem find?_map (f : α → β) (name : String) (entries : List (String × α)) :
    find? name (entries.map fun entry => (entry.1, f entry.2)) = (find? name entries).map f := by
  induction entries with
  | nil => rfl
  | cons entry rest ih =>
    simp only [List.map_cons, find?, ih]
    split <;> rfl

theorem replace_map (f : α → β) (name : String) (a : α) (entries : List (String × α)) :
    replace name (f a) (entries.map fun entry => (entry.1, f entry.2)) =
      (replace name a entries).map fun entry => (entry.1, f entry.2) := by
  induction entries with
  | nil => rfl
  | cons entry rest ih =>
    simp only [List.map_cons, replace, ih]
    split <;> rfl

@[simp] theorem get?_map (f : α → β) (b : Bindings α) (name : String) : (b.map f).get? name = (b.get? name).map f :=
  find?_map f name b.entries

@[simp] theorem contains_map (f : α → β) (b : Bindings α) (name : String) : (b.map f).contains name = b.contains name := by
  simp [contains]

theorem set_map (f : α → β) (b : Bindings α) (name : String) (a : α) : (b.map f).set name (f a) = (b.set name a).map f :=
  congrArg Bindings.mk (replace_map f name a b.entries)

@[simp] theorem empty_map (f : α → β) : (empty : Bindings α).map f = empty := rfl

theorem setAll_map (f : α → β) (b : Bindings α) (entries : List (String × α)) :
    (b.map f).setAll (entries.map fun entry => (entry.1, f entry.2)) = (b.setAll entries).map f := by
  induction entries generalizing b with
  | nil => rfl
  | cons entry rest ih =>
    rw [List.map_cons, setAll, List.foldl_cons, ← setAll, set_map, ih]
    rfl

end Bindings

/-! ## Values -/

def Closure.relabel (r : Relabeling) (c : Closure) : Closure := { c with function := c.function.relabel r }

def ClassBody.relabel (r : Relabeling) (c : ClassBody) : ClassBody := { c with methods := c.methods.map (Closure.relabel r) }

def Class.relabel (r : Relabeling) (c : Class) : Class := ⟨c.own.relabel r, c.ancestors.map (ClassBody.relabel r)⟩

def Value.relabel (r : Relabeling) : Value → Value
  | .nil => .nil
  | .bool value => .bool value
  | .number value => .number value
  | .text value => .text value
  | .list id => .list id
  | .native identity f => .native identity f
  | .constant identity result => .constant identity (result.relabel r)
  | .function identity closure => .function identity (closure.relabel r)
  | .class c => .class (c.relabel r)
  | .object id c => .object id (c.relabel r)

def Callable.relabel (r : Relabeling) : Callable → Callable
  | .native f => .native f
  | .constant result => .constant (result.relabel r)
  | .closure c => .closure (c.relabel r)
  | .class c => .class (c.relabel r)

section Values

variable (r : Relabeling)

@[simp] theorem Closure.relabel_arity (c : Closure) : (c.relabel r).arity = c.arity := by
  simp [Closure.arity, Closure.relabel]

@[simp] theorem Class.relabel_lineage (c : Class) : (c.relabel r).lineage = c.lineage.map (ClassBody.relabel r) := rfl

theorem Class.relabel_method? (c : Class) (name : String) :
    (c.relabel r).method? name = (c.method? name).map (Closure.relabel r) := by
  simp [Class.method?, List.findSome?_map, Function.comp_def, ClassBody.relabel, List.map_findSome?]

@[simp] theorem Class.relabel_arity (c : Class) : (c.relabel r).arity = c.arity := by
  simp [Class.arity, Class.relabel_method?, Function.comp_def]

theorem Class.relabel_parent? (c : Class) : (c.relabel r).parent? = c.parent?.map (Class.relabel r) := by
  obtain ⟨own, ancestors⟩ := c
  cases ancestors <;> rfl

@[simp] theorem Callable.relabel_arity (c : Callable) : (c.relabel r).arity = c.arity := by
  cases c <;> simp [Callable.relabel, Callable.arity]

theorem Value.relabel_callable? (v : Value) : (v.relabel r).callable? = v.callable?.map (Callable.relabel r) := by
  cases v <;> rfl

@[simp] theorem Value.relabel_typeName (v : Value) : (v.relabel r).typeName = v.typeName := by
  cases v <;> rfl

@[simp] theorem Value.relabel_ofLiteral (value : Literal) : (Value.ofLiteral value).relabel r = .ofLiteral value := by
  cases value <;> rfl

end Values

/-! ## The heap -/

namespace Heap

def relabel (r : Relabeling) (h : Heap) : Heap :=
  { h with
    frames := h.frames.map (Bindings.map (Value.relabel r))
    lists := h.lists.map (Array.map (Value.relabel r))
    objects := h.objects.map (Bindings.map (Value.relabel r)) }

section Relabel

variable (r : Relabeling) (h : Heap)

@[simp] theorem relabel_frame (id : FrameId) : (h.relabel r).frame id = (h.frame id).map (Value.relabel r) := by
  unfold frame relabel
  rw [Array.getElem?_map]
  cases h.frames[id]? <;> rfl

@[simp] theorem relabel_elements (id : ListId) : (h.relabel r).elements id = (h.elements id).map (Value.relabel r) := by
  unfold elements relabel
  rw [Array.getElem?_map]
  cases h.lists[id]? <;> simp

@[simp] theorem relabel_fields (id : ObjectId) : (h.relabel r).fields id = (h.fields id).map (Value.relabel r) := by
  unfold fields relabel
  rw [Array.getElem?_map]
  cases h.objects[id]? <;> rfl

theorem relabel_get? (env : Environment) (distance : Nat) (name : String) :
    (h.relabel r).get? env distance name = (h.get? env distance name).map (Value.relabel r) := by
  unfold get?
  cases outward? env distance <;> simp

theorem modify_map {α β : Type} (f : α → β) {g : α → α} (g' : β → β) (hg : ∀ a, g' (f a) = f (g a)) (xs : Array α)
    (i : Nat) : (xs.map f).modify i g' = (xs.modify i g).map f := by
  apply Array.ext_getElem?
  intro j
  simp only [Array.getElem?_modify, Array.getElem?_map]
  split
  · cases xs[j]? <;> simp [hg]
  · rfl

theorem set_relabel (name : String) (v : Value) (b : Bindings Value) :
    (b.map (Value.relabel r)).set name (v.relabel r) = (b.set name v).map (Value.relabel r) := b.set_map _ name v

theorem relabel_define (id : FrameId) (name : String) (v : Value) :
    (h.relabel r).define id name (v.relabel r) = (h.define id name v).relabel r :=
  congrArg (fun frames => { h.relabel r with frames })
    (modify_map _ (·.set name (v.relabel r)) (set_relabel r name v) h.frames id)

theorem relabel_addFrame (bindings : Bindings Value) :
    (h.relabel r).addFrame (bindings.map (Value.relabel r)) =
      ((h.addFrame bindings).1, (h.addFrame bindings).2.relabel r) := by
  simp [addFrame, relabel]

theorem relabel_addList (values : Array Value) :
    (h.relabel r).addList (values.map (Value.relabel r)) = ((h.addList values).1, (h.addList values).2.relabel r) := by
  simp [addList, relabel]

theorem relabel_append (id : ListId) (v : Value) :
    (h.relabel r).append id (v.relabel r) = (h.append id v).relabel r :=
  congrArg (fun lists => { h.relabel r with lists })
    (modify_map (Array.map (Value.relabel r)) (·.push (v.relabel r)) (fun _ => Array.map_push.symm) h.lists id)

theorem relabel_addObject : (h.relabel r).addObject = (h.addObject.1, h.addObject.2.relabel r) := by
  simp [addObject, relabel]

theorem relabel_setField (id : ObjectId) (name : String) (v : Value) :
    (h.relabel r).setField id name (v.relabel r) = (h.setField id name v).relabel r :=
  congrArg (fun objects => { h.relabel r with objects })
    (modify_map _ (·.set name (v.relabel r)) (set_relabel r name v) h.objects id)

@[simp] theorem relabel_initial : Heap.initial.relabel r = .initial := by simp [Heap.relabel, Heap.initial]

theorem relabel_register (natives : List (String × Native)) :
    (Native.register natives h).relabel r = Native.register natives (h.relabel r) := by
  induction natives generalizing h with
  | nil => rfl
  | cons native rest ih =>
    have hdefine := h.addIdentity.2.relabel_define r Heap.topFrame native.1 (.native h.addIdentity.1 native.2)
    rw [Native.register, List.foldl_cons, ← Native.register, ih, ← hdefine]
    rfl

/-! ### Text and equality -/

theorem relabel_textWithin? (depth : Nat) (v : Value) : (h.relabel r).textWithin? depth (v.relabel r) = h.textWithin? depth v := by
  induction depth generalizing v with
  | zero => cases v <;> simp [Value.relabel, textWithin?, Closure.relabel, Class.relabel, Class.text, ClassBody.relabel]
  | succ depth ih =>
    cases v with
    | list id =>
      simp only [Value.relabel, textWithin?, relabel_elements, Array.toList_map, List.mapM_map]
      congr 2
      funext element
      cases element with
      | text value => rfl
      | _ => exact ih _
    | _ => simp [Value.relabel, textWithin?, Closure.relabel, Class.relabel, Class.text, ClassBody.relabel]

theorem relabel_text? (v : Value) : (h.relabel r).text? (v.relabel r) = h.text? v := by
  unfold text?
  rw [relabel_textWithin?, relabel, Array.size_map]

theorem relabel_appendUntil {α β : Type} (f : α → β) (size : Nat) {item : String → α → String} {item' : String → β → String}
    (hitem : ∀ before a, item' before (f a) = item before a) (before : String) (xs : List α) :
    appendUntil size item' before (xs.map f) = appendUntil size item before xs := by
  induction xs generalizing before with
  | nil => rfl
  | cons x rest ih =>
    cases rest with
    | nil => exact hitem before x
    | cons y rest =>
      simp only [List.map_cons, appendUntil, hitem] at ih ⊢
      rw [ih]

theorem relabel_openingAfter (size depth : Nat) (before : String) (v : Value) :
    (h.relabel r).openingAfter size depth before (v.relabel r) = h.openingAfter size depth before v := by
  have hother (depth : Nat) (before : String) {v : Value} (hv : depth = 0 ∨ ∀ id, v ≠ .list id) :
      (h.relabel r).openingAfter size depth before (v.relabel r) = h.openingAfter size depth before v := by
    have hv' : depth = 0 ∨ ∀ id, v.relabel r ≠ .list id := hv.imp_right fun hv id heq => by
      cases v with
      | list id => exact hv id rfl
      | _ => cases heq
    rw [openingAfter_eq hv, openingAfter_eq hv', relabel_textWithin?]
  induction depth generalizing before v with
  | zero => exact hother 0 before (.inl rfl)
  | succ depth ih =>
    cases v with
    | list id =>
      simp only [Value.relabel, openingAfter, relabel_elements, Array.toList_map]
      split
      · rfl
      · rw [relabel_appendUntil]
        intro before element
        cases element with
        | text value => rfl
        | _ => exact ih before _
    | _ => exact hother (depth + 1) before (.inr nofun)

theorem relabel_opening (size : Nat) (v : Value) : (h.relabel r).opening size (v.relabel r) = h.opening size v :=
  relabel_openingAfter r h size size "" v

theorem relabel_allPairs? {test? test'? : Value → Value → Option Bool}
    (htest : ∀ left right, test'? (left.relabel r) (right.relabel r) = test? left right) (lefts rights : List Value) :
    allPairs? test'? (lefts.map (Value.relabel r)) (rights.map (Value.relabel r)) = allPairs? test? lefts rights := by
  induction lefts generalizing rights with
  | nil => cases rights <;> rfl
  | cons left lefts ih =>
    cases rights with
    | nil => rfl
    | cons right rights => simp only [List.map_cons, allPairs?, htest, ih]

theorem relabel_equalWithin? (depth : Nat) (left right : Value) :
    (h.relabel r).equalWithin? depth (left.relabel r) (right.relabel r) = h.equalWithin? depth left right := by
  induction depth generalizing left right with
  | zero =>
    cases left <;> cases right <;> simp [Value.relabel, equalWithin?, Class.relabel, ClassBody.relabel]
  | succ depth ih =>
    have hpairs := relabel_allPairs? r ih
    cases left <;> cases right <;> simp [Value.relabel, equalWithin?, Class.relabel, ClassBody.relabel, hpairs]

theorem relabel_equality (left right : Value) :
    (h.relabel r).equality (left.relabel r) (right.relabel r) = h.equality left right := by
  have hlists : (h.relabel r).lists.size = h.lists.size := Array.size_map
  unfold equality equal?
  rw [hlists, relabel_equalWithin?]

/-! ### Operations -/

@[simp] theorem relabel_truthy (v : Value) : (h.relabel r).truthy (v.relabel r) = h.truthy v := by
  cases v with
  | list id => simp [Value.relabel, truthy, Array.isEmpty]
  | _ => rfl

theorem relabel_printed (v : Value) : (h.relabel r).printed (v.relabel r) = h.printed v := by
  unfold printed
  rw [relabel_text?]

theorem relabel_numeral (v : Value) : (v.relabel r).numeral = v.numeral := by
  cases v <;> rfl

theorem relabel_numbers (left right : Value) : Value.numbers (left.relabel r) (right.relabel r) = Value.numbers left right := by
  cases left <;> cases right <;> rfl

theorem relabel_compare (strings : String → String → Bool) (floats : Float → Float → Bool) (left right : Value) :
    Value.compare strings floats (left.relabel r) (right.relabel r) = Value.compare strings floats left right := by
  cases left <;> cases right <;> rfl

theorem relabel_add (left right : Value) : (h.relabel r).add (left.relabel r) (right.relabel r) = h.add left right := by
  have hjoin : (h.relabel r).join (left.relabel r) (right.relabel r) = h.join left right := by
    unfold join
    rw [relabel_printed, relabel_printed]
  have hnumerals : Value.numerals (left.relabel r) (right.relabel r) = Value.numerals left right := by
    unfold Value.numerals
    rw [relabel_numeral, relabel_numeral]
  unfold add
  rw [← hjoin, ← hnumerals]
  cases left with
  | text value => rfl
  | _ => cases right <;> rfl

theorem relabel_binary (kind : BinaryKind) (left right : Value) :
    (h.relabel r).binary kind (left.relabel r) (right.relabel r) = h.binary kind left right := by
  cases kind with
  | equal | notEqual => simp only [binary, relabel_equality]
  | greater | greaterEqual | less | lessEqual => simp only [binary, relabel_compare]
  | add => exact relabel_add r h left right
  | subtract | multiply => simp only [binary, Value.arithmetic, relabel_numbers]
  | divide => simp only [binary, Value.divide, relabel_numbers]

theorem relabel_position (index : Value) : (h.relabel r).position (index.relabel r) = h.position index := by
  have hinvalid : (h.relabel r).invalidIndex (index.relabel r) = h.invalidIndex index := by
    unfold invalidIndex
    rw [relabel_printed]
  unfold position
  rw [hinvalid]
  cases index <;> rfl

theorem relabel_element (target : Value) (position : Nat) :
    (h.relabel r).element (target.relabel r) position = (h.element target position).map (Value.relabel r) := by
  cases target with
  | list id =>
    simp only [Value.relabel, element, relabel_elements, Array.getElem?_map, Array.size_map]
    cases (h.elements id)[position]? <;> rfl
  | text value =>
    simp only [Value.relabel, element]
    cases value.toList[position]? <;> rfl
  | _ => rfl

theorem relabel_subscript (target index : Value) :
    (h.relabel r).subscript (target.relabel r) (index.relabel r) = (h.subscript target index).map (Value.relabel r) := by
  unfold subscript
  rw [relabel_position]
  cases h.position index with
  | error failure => rfl
  | ok position =>
    show ((h.relabel r).element (target.relabel r) position).mapError _ = Except.map _ ((h.element target position).mapError _)
    rw [relabel_element]
    cases h.element target position <;> rfl

end Relabel

end Heap

/-! ## Descriptions -/

namespace Description

variable (r : Relabeling)

theorem relabel_closureLines (kind : String) (c : Closure) : closureLines kind (c.relabel r) = closureLines kind c := by
  have hparams : parameterLines (c.function.relabel r).params = parameterLines c.function.params := by
    unfold parameterLines
    rw [Function.relabel_params, List.isEmpty_map]
    congr 1
    apply List.ext_getElem?
    intro i
    simp [List.getElem?_mapIdx, Function.comp_def]
  simp only [closureLines, Closure.relabel, hparams]

theorem relabel_classLines (c : Class) : classLines (c.relabel r) = classLines c := by
  have hsorted : (c.relabel r).own.methods.entries.mergeSort (fun a b => a.1 ≤ b.1) =
      (c.own.methods.entries.mergeSort fun a b => a.1 ≤ b.1).map fun entry => (entry.1, entry.2.relabel r) :=
    (List.map_mergeSort (f := fun entry : String × Closure => (entry.1, entry.2.relabel r)) fun _ _ _ _ => rfl).symm
  have hmethod (name : String) (method : Closure) : methodLines name (method.relabel r) = methodLines name method := by
    rw [methodLines, relabel_closureLines, methodLines]
  have hparent : ((c.relabel r).parent?.map fun parent => "   Parent: " ++ parent.text) =
      c.parent?.map fun parent => "   Parent: " ++ parent.text := by
    rw [Class.relabel_parent?, Option.map_map]
    rfl
  unfold classLines
  rw [hsorted, hparent]
  simp only [List.flatMap_map, hmethod]
  rfl

end Description

end TreeWalk
