import TreeWalk.Proofs.Evaluation.Contents
import TreeWalk.Proofs.Evaluation.Printing
import TreeWalk.Proofs.Evaluation.Results
import TreeWalk.Session

/-!
# Lists in order

The functions that come with the language change no list once it has been made, so every list holds only lists
that are older. Where that is so, every value has a text.
-/

namespace TreeWalk

/-- If the value is a list, it is one of the first so many. Nor is it a function with which a host lets programs
change lists or hide values in other functions. -/
def Value.Ordered (lists : Nat) : Value → Prop
  | .list id => id < lists
  | .native _ f => f ≠ .push ∧ f ≠ .define
  | .constant _ _ => False
  | _ => True

theorem Value.Ordered.mono {v : Value} {lists lists' : Nat} (h : v.Ordered lists) (hle : lists ≤ lists') :
    v.Ordered lists' := by
  cases v with
  | list id => exact Nat.lt_of_lt_of_le h hle
  | _ => exact h

theorem Value.Plain.ordered {v : Value} (h : v.Plain) (lists : Nat) : v.Ordered lists := by
  cases v with
  | nil | bool _ | number _ | text _ => trivial
  | _ => exact h.elim

namespace Heap

/-- Every list in the heap holds older lists only. -/
structure Ordered (h : Heap) : Prop where
  frames : ∀ id name v, (h.frame id).get? name = some v → v.Ordered h.lists.size
  elements : ∀ id, ∀ v ∈ h.elements id, v.Ordered id
  fields : ∀ id name v, (h.fields id).get? name = some v → v.Ordered h.lists.size

namespace Ordered

variable {h : Heap} {v : Value}

theorem define (hh : h.Ordered) (id : FrameId) (name : String) (hv : v.Ordered h.lists.size) :
    (h.define id name v).Ordered :=
  { hh with
    frames := fun other n u hu => by
      rcases of_get?_define hu with rfl | hu
      · exact hv
      · exact hh.frames other n u hu }

theorem addFrame (hh : h.Ordered) {bindings : Bindings Value}
    (hbindings : ∀ name v, bindings.get? name = some v → v.Ordered h.lists.size) : (h.addFrame bindings).2.Ordered :=
  { hh with
    frames := fun other n u hu => by
      rw [frame_addFrame] at hu
      split at hu
      · exact hbindings n u hu
      · exact hh.frames other n u hu }

/-- A new list is younger than all that it holds. -/
theorem addList (hh : h.Ordered) {elements : Array Value} (hv : ∀ v ∈ elements, v.Ordered h.lists.size) :
    (h.addList elements).2.Ordered := by
  have hsize : h.lists.size ≤ (h.addList elements).2.lists.size := by simp [Heap.addList]
  exact
    { frames := fun id name u hu => (hh.frames id name u hu).mono hsize
      elements := fun other u hu => by
        rw [elements_addList] at hu
        split at hu
        case isTrue hother => exact hother ▸ hv u hu
        case isFalse => exact hh.elements other u hu
      fields := fun id name u hu => (hh.fields id name u hu).mono hsize }

theorem addObject (hh : h.Ordered) : h.addObject.2.Ordered :=
  { hh with fields := fun other n u hu => hh.fields other n u (by rwa [fields_addObject] at hu) }

theorem setField (hh : h.Ordered) (id : ObjectId) (name : String) (hv : v.Ordered h.lists.size) :
    (h.setField id name v).Ordered :=
  { hh with
    fields := fun other n u hu => by
      rcases of_get?_setField hu with rfl | hu
      · exact hv
      · exact hh.fields other n u hu }

theorem addIdentity (hh : h.Ordered) : h.addIdentity.2.Ordered := { hh with }

theorem get? (hh : h.Ordered) {env : Environment} {d : Nat} {name : String} (hv : h.get? env d name = some v) :
    v.Ordered h.lists.size := by
  obtain ⟨id, -, hget⟩ := Option.bind_eq_some_iff.1 hv
  exact hh.frames id name v hget

/-- What a list holds is among the lists in the heap. -/
theorem of_mem (hh : h.Ordered) {id : ListId} (hv : v ∈ h.elements id) : v.Ordered h.lists.size := by
  refine (hh.elements id v hv).mono (Nat.le_of_not_lt fun hid => ?_)
  simp [Heap.elements, Array.getElem?_eq_none (Nat.le_of_lt hid)] at hv

theorem register (hh : h.Ordered) {natives : List (String × Native)}
    (hnatives : ∀ native ∈ natives, native.2 ≠ .push ∧ native.2 ≠ .define) : (Native.register natives h).Ordered := by
  induction natives generalizing h with
  | nil => exact hh
  | cons native rest ih =>
    obtain ⟨hnative, hrest⟩ := List.forall_mem_cons.1 hnatives
    exact ih (hh.addIdentity.define topFrame native.1 hnative) hrest

end Ordered

theorem ordered_initial : Heap.initial.Ordered where
  frames id name v hv := by simp [Bindings.get?_empty] at hv
  elements id v hv := by simp at hv
  fields id name v hv := by simp [Bindings.get?_empty] at hv

/-! ## Texts -/

theorem isSome_mapM {α β : Type} {f : α → Option β} {xs : List α} (h : ∀ x ∈ xs, (f x).isSome) : (xs.mapM f).isSome := by
  induction xs with
  | nil => rfl
  | cons x rest ih =>
    obtain ⟨hx, hrest⟩ := List.forall_mem_cons.1 h
    obtain ⟨y, hy⟩ := Option.isSome_iff_exists.1 hx
    obtain ⟨ys, hys⟩ := Option.isSome_iff_exists.1 (ih hrest)
    simp [hy, hys]

/-- A list that holds older lists only is nested no deeper than there are lists as old as these. -/
theorem Ordered.textWithin?_isSome {h : Heap} (hh : h.Ordered) {lists : Nat} {v : Value} (hv : v.Ordered lists) :
    (h.textWithin? lists v).isSome := by
  -- The elements of the list `id` are lists below `id`. So there is a list less for each level that is used up.
  induction lists generalizing v with
  | zero =>
    cases v with
    | list id => exact absurd hv (Nat.not_lt_zero id)
    | _ => rfl
  | succ lists ih =>
    cases v with
    | list id =>
      have hid : id ≤ lists := Nat.le_of_lt_succ hv
      have helement (u : Value) (hu : u ∈ (h.elements id).toList) : (h.elementText? lists u).isSome := by
        have htext := ih ((hh.elements id u (by simpa using hu)).mono hid)
        cases u with
        | text value => rfl
        | _ => exact htext
      rw [textWithin?_list, Option.isSome_map]
      exact isSome_mapM helement
    | _ => rfl

theorem Ordered.text?_isSome {h : Heap} (hh : h.Ordered) {v : Value} (hv : v.Ordered h.lists.size) :
    (h.text? v).isSome := hh.textWithin?_isSome hv

end Heap

theorem Machine.ordered_initial (echo : Bool) (limit : Option Nat) (clock : Nat → Float) :
    (Machine.initial echo limit clock).heap.Ordered := Heap.ordered_initial.register (by decide)

end TreeWalk
