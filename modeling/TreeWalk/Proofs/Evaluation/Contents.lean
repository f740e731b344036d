import TreeWalk.Heap

/-!
# What the heap gives back

Whatever is found in the heap after a change was there before it or is what was put in.
-/

namespace TreeWalk

namespace Bindings

variable {α : Type} {b : Bindings α} {entries : List (String × α)} {name : String}

theorem of_get?_setAll {a : α} (h : (b.setAll entries).get? name = some a) :
    b.get? name = some a ∨ (name, a) ∈ entries := by
  induction entries generalizing b with
  | nil => exact .inl h
  | cons entry rest ih =>
    rcases ih h with hset | hrest
    · rw [get?_set] at hset
      split at hset
      case isTrue heq =>
        obtain rfl := Option.some.inj hset
        exact .inr (heq ▸ List.mem_cons_self)
      case isFalse => exact .inl hset
    · exact .inr (List.mem_cons_of_mem _ hrest)

theorem mem_names_iff (b : Bindings α) (name : String) : name ∈ b.names ↔ b.contains name = true := by
  obtain ⟨entries⟩ := b
  induction entries with
  | nil => simp [names, contains, get?, find?]
  | cons entry rest ih =>
    obtain ⟨key, value⟩ := entry
    simp only [names, contains, get?, find?, List.map_cons, List.mem_cons] at ih ⊢
    by_cases hname : name = key <;> simp [hname, ih]

theorem contains_setAll (h : b.contains name = true ∨ name ∈ entries.map (·.1)) :
    (b.setAll entries).contains name = true := by
  induction entries generalizing b with
  | nil => simpa [setAll] using h
  | cons entry rest ih =>
    refine ih ?_
    simp only [List.map_cons, List.mem_cons] at h
    rw [contains, get?_set]
    by_cases heq : name = entry.1
    · simp [heq]
    · rw [if_neg heq]
      rcases h with h | h | h
      · exact .inl h
      · exact absurd h heq
      · exact .inr h

end Bindings

namespace Heap

variable {h : Heap} {u v : Value} {name other : String}

/-! ## The heap at the start -/

@[simp] theorem frame_initial (id : FrameId) : initial.frame id = .empty := by
  cases id <;> simp [initial, frame]

@[simp] theorem elements_initial (id : ListId) : initial.elements id = #[] := by simp [initial, elements]

@[simp] theorem fields_initial (id : ObjectId) : initial.fields id = .empty := by simp [initial, fields]

/-! ## Changes -/

/-- Frames and objects are both kept as arrays of bindings. -/
theorem of_get?_modify {stored : Array (Bindings Value)} {id i : Nat}
    (hu : ((stored.modify id (·.set name v))[i]?.getD .empty).get? other = some u) :
    u = v ∨ (stored[i]?.getD .empty).get? other = some u := by
  rw [Array.getElem?_modify] at hu
  split at hu
  · cases hfound : stored[i]? with
    | none => simp [hfound, Bindings.get?_empty] at hu
    | some bindings =>
      simp only [hfound, Option.map_some, Option.getD_some, Bindings.get?_set] at hu ⊢
      split at hu
      · exact .inl (Option.some.inj hu).symm
      · exact .inr hu
  · exact .inr hu

theorem of_get?_define {id i : FrameId} (hu : ((h.define id name v).frame i).get? other = some u) :
    u = v ∨ (h.frame i).get? other = some u := of_get?_modify hu

theorem of_get?_setField {id i : ObjectId} (hu : ((h.setField id name v).fields i).get? other = some u) :
    u = v ∨ (h.fields i).get? other = some u := of_get?_modify hu

theorem fields_addObject (h : Heap) (i : ObjectId) : h.addObject.2.fields i = h.fields i := by
  by_cases hi : i = h.objects.size <;> simp [addObject, fields, Array.getElem?_push, hi]

theorem of_mem_append {id i : ListId} (hu : u ∈ (h.append id v).elements i) : u = v ∨ u ∈ h.elements i := by
  simp only [append, elements, Array.getElem?_modify] at hu ⊢
  split at hu
  · cases hlist : h.lists[i]? with
    | none => simp [hlist] at hu
    | some list =>
      simp only [hlist, Option.map_some, Option.getD_some, Array.mem_push] at hu ⊢
      exact hu.symm
  · exact .inr hu

theorem lt_size_of_binds {id : FrameId} (hbinds : h.binds id name = true) : id < h.frames.size := by
  rcases Nat.lt_or_ge id h.frames.size with hlt | hge
  · exact hlt
  · rw [binds, frame, Array.getElem?_eq_none hge] at hbinds
    cases hbinds

theorem get?_of_frame {h : Heap} {environment : Environment} {distance : Nat} {id : FrameId} {name : String}
    {v : Value} (hid : environment[distance]? = some id) (hv : (h.frame id).get? name = some v) :
    h.get? environment distance name = some v := by
  have hlength := (List.getElem?_eq_some_iff.1 hid).1
  rw [get?, outward?_eq, List.getElem?_append_left hlength, hid]
  exact hv

end Heap

end TreeWalk
