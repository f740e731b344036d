import TreeWalk.Machine

/-!
# Results of operations

Operators give plain values, which lead to nothing in the heap, and a subscript gives a plain value or
an element of the list that it looks into. A variable is read or assigned in its frame, or it is undefined.
-/

namespace TreeWalk

/-- A value that stands for nothing but itself. -/
def Value.Plain : Value → Prop
  | .nil | .bool _ | .number _ | .text _ => True
  | _ => False

theorem ok_of_mapError {ε ε' α : Type} {f : ε → ε'} {x : Except ε α} {a : α} (h : x.mapError f = .ok a) :
    x = .ok a := by
  cases x with
  | error e => cases h
  | ok b => cases h; rfl

section Operators

variable {h : Heap} {left right result : Value}

theorem plain_ofLiteral (value : Literal) : (Value.ofLiteral value).Plain := by
  cases value <;> trivial

theorem plain_negate {v : Value} (hresult : v.negate = .ok result) : result.Plain := by
  cases v <;> cases hresult
  trivial

theorem plain_compare {strings : String → String → Bool} {floats : Float → Float → Bool}
    (hresult : Value.compare strings floats left right = .ok result) : result.Plain := by
  unfold Value.compare at hresult
  split at hresult
  · cases hresult
    trivial
  · cases hn : Value.numerals left right with
    | error cause => rw [hn] at hresult; cases hresult
    | ok pair => rw [hn] at hresult; cases hresult; trivial

theorem plain_arithmetic {f : Float → Float → Float} (hresult : Value.arithmetic f left right = .ok result) :
    result.Plain := by
  unfold Value.arithmetic at hresult
  cases hn : Value.numbers left right with
  | error cause => rw [hn] at hresult; cases hresult
  | ok pair => rw [hn] at hresult; cases hresult; trivial

theorem plain_divide (hresult : left.divide right = .ok result) : result.Plain := by
  unfold Value.divide at hresult
  cases hn : Value.numbers left right with
  | error cause => rw [hn] at hresult; cases hresult
  | ok pair =>
    rw [hn] at hresult
    change (if (pair.2 == 0) = true then _ else _) = _ at hresult
    split at hresult <;> cases hresult
    trivial

theorem plain_join (hresult : h.join left right = .ok result) : result.Plain := by
  unfold Heap.join at hresult
  cases hl : h.printed left with
  | error failure => rw [hl] at hresult; cases hresult
  | ok first =>
    cases hr : h.printed right with
    | error failure => rw [hl, hr] at hresult; cases hresult
    | ok second => rw [hl, hr] at hresult; cases hresult; trivial

theorem plain_add (hresult : h.add left right = .ok result) : result.Plain := by
  unfold Heap.add at hresult
  split at hresult
  · exact plain_join hresult
  · exact plain_join hresult
  · split at hresult <;> cases hresult
    trivial

theorem plain_binary {kind : BinaryKind} (hresult : h.binary kind left right = .ok result) : result.Plain := by
  cases kind with
  | equal | notEqual =>
    cases he : h.equality left right with
    | error failure => simp [Heap.binary, he, Except.map] at hresult
    | ok equal =>
      simp only [Heap.binary, he, Except.map, Except.ok.injEq] at hresult
      exact hresult ▸ trivial
  | greater | greaterEqual | less | lessEqual => exact plain_compare (ok_of_mapError hresult)
  | subtract | multiply => exact plain_arithmetic (ok_of_mapError hresult)
  | divide => exact plain_divide (ok_of_mapError hresult)
  | add => exact plain_add hresult

end Operators

/-! ## Subscripts -/

section Subscripts

variable {h : Heap} {target index result : Value} {position : Nat}

/-- An element is one of a list or a character of a string, and its position lies inside. -/
theorem of_element_ok (hresult : h.element target position = .ok result) :
    (∃ id, target = .list id ∧ (h.elements id)[position]? = some result) ∨
      ∃ text c, target = .text text ∧ text.toList[position]? = some c ∧ result = .text c.toString := by
  unfold Heap.element at hresult
  split at hresult
  case h_1 id =>
    dsimp only at hresult
    split at hresult
    case h_1 value hvalue =>
      cases hresult
      exact .inl ⟨id, rfl, hvalue⟩
    case h_2 => cases hresult
  case h_2 text =>
    split at hresult
    case h_1 c hc =>
      cases hresult
      exact .inr ⟨text, c, rfl, hc, rfl⟩
    case h_2 => cases hresult
  case h_3 => cases hresult

theorem of_subscript_ok (hresult : h.subscript target index = .ok result) :
    ∃ position, h.position index = .ok position ∧ h.element target position = .ok result := by
  unfold Heap.subscript at hresult
  cases hp : h.position index with
  | error failure => rw [hp] at hresult; cases hresult
  | ok position =>
    rw [hp] at hresult
    exact ⟨position, rfl, ok_of_mapError hresult⟩

theorem of_element_error {cause : FaultCause} (hresult : h.element target position = .error cause) :
    cause = .notIndexable ∨ ∃ length, cause = .indexOutOfBounds position length ∧ length ≤ position := by
  unfold Heap.element at hresult
  split at hresult
  case h_1 id =>
    dsimp only at hresult
    split at hresult
    case h_1 => cases hresult
    case h_2 hnone =>
      cases hresult
      exact .inr ⟨_, rfl, Array.getElem?_eq_none_iff.1 hnone⟩
  case h_2 text =>
    split at hresult
    case h_1 => cases hresult
    case h_2 hnone =>
      cases hresult
      exact .inr ⟨text.length, rfl, String.length_toList ▸ List.getElem?_eq_none_iff.1 hnone⟩
  case h_3 =>
    cases hresult
    exact .inl rfl

theorem of_invalidIndex_error {failure : Failure} (hresult : h.invalidIndex index = .error failure) :
    (∃ text, failure = .fault (.invalidIndex text)) ∨ h.printed index = .error .endless ∧ failure = .endless := by
  unfold Heap.invalidIndex Heap.printed at hresult
  unfold Heap.printed
  cases htext : h.text? index with
  | some text =>
    rw [htext] at hresult
    cases hresult
    exact .inl ⟨text, rfl⟩
  | none =>
    rw [htext] at hresult
    cases hresult
    exact .inr ⟨rfl, rfl⟩

theorem of_position_error {failure : Failure} (hresult : h.position index = .error failure) :
    (∃ text, failure = .fault (.invalidIndex text)) ∨ h.printed index = .error .endless ∧ failure = .endless := by
  unfold Heap.position at hresult
  split at hresult
  · split at hresult
    · cases hresult
    · exact of_invalidIndex_error hresult
  · exact of_invalidIndex_error hresult

theorem of_subscript_error {failure : Failure} (hresult : h.subscript target index = .error failure) :
    h.position index = .error failure ∨
      ∃ position cause, h.element target position = .error cause ∧ failure = .fault cause := by
  unfold Heap.subscript at hresult
  cases hp : h.position index with
  | error _ =>
    rw [hp] at hresult
    cases hresult
    exact .inl rfl
  | ok position =>
    rw [hp] at hresult
    change (h.element target position).mapError Failure.fault = _ at hresult
    cases he : h.element target position with
    | error cause =>
      rw [he] at hresult
      cases hresult
      exact .inr ⟨position, cause, he, rfl⟩
    | ok v =>
      rw [he] at hresult
      cases hresult

theorem plain_or_mem_of_subscript (hresult : h.subscript target index = .ok result) :
    result.Plain ∨ ∃ id, result ∈ h.elements id := by
  obtain ⟨position, -, helement⟩ := of_subscript_ok hresult
  rcases of_element_ok helement with ⟨id, rfl, hvalue⟩ | ⟨text, c, rfl, -, rfl⟩
  · exact .inr ⟨id, Array.mem_of_getElem? hvalue⟩
  · exact .inl trivial

end Subscripts

/-! ## Variables -/

namespace Run

theorem read_cases (m : Machine) (env : Environment) (use : Reference) :
    (∃ id v, frameOf? m env use.id = some id ∧ (m.heap.frame id).get? use.name.text = some v ∧ read env use m = .ok v m) ∨
      read env use m = .error (.fault (.evaluation use.name.line (.undefinedVariable use.name.text))) m := by
  unfold read
  cases hvalue : (frameOf? m env use.id).bind fun id => (m.heap.frame id).get? use.name.text with
  | some v =>
    obtain ⟨id, hid, hget⟩ := Option.bind_eq_some_iff.1 hvalue
    exact .inl ⟨id, v, hid, hget, rfl⟩
  | none => exact .inr rfl

theorem assign_cases (m : Machine) (env : Environment) (use : Reference) (v : Value) :
    (∃ id, frameOf? m env use.id = some id ∧ m.heap.binds id use.name.text = true ∧
      assign env use v m = .ok () { m with heap := m.heap.define id use.name.text v }) ∨
      assign env use v m = .error (.fault (.evaluation use.name.line (.undefinedVariable use.name.text))) m := by
  unfold assign
  cases hframe : (frameOf? m env use.id).filter fun id => m.heap.binds id use.name.text with
  | some id =>
    obtain ⟨hid, hbinds⟩ := Option.filter_eq_some_iff.1 hframe
    exact .inl ⟨id, hid, hbinds, rfl⟩
  | none => exact .inr rfl

/-- A name with a distance is read from the frame that lies so far outward. -/
theorem read_of_get? {m : Machine} {env : Environment} {use : Reference} {d : Nat} {v : Value}
    (hd : m.distances[use.id]? = some d) (hget : m.heap.get? env d use.name.text = some v) :
    read env use m = .ok v m := by
  have hfound : ((frameOf? m env use.id).bind fun id => (m.heap.frame id).get? use.name.text) = some v := by
    rw [frameOf?, hd]
    exact hget
  rw [read, hfound]

end Run

end TreeWalk
