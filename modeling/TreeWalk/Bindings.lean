/-!
# Bindings

Finite maps from names to values, as association lists in which the first entry of a name counts.
-/

namespace TreeWalk

structure Bindings (α : Type) where
  entries : List (String × α)

namespace Bindings

variable {α : Type}

def find? (name : String) : List (String × α) → Option α
  | [] => none
  | (key, value) :: rest => if name = key then some value else find? name rest

/-- Replaces the value of a name, or adds the name at the end. -/
def replace (name : String) (value : α) : List (String × α) → List (String × α)
  | [] => [(name, value)]
  | (key, old) :: rest =>
    if name = key then (key, value) :: rest else (key, old) :: replace name value rest

theorem find?_replace (name other : String) (value : α) (entries : List (String × α)) :
    find? other (replace name value entries) =
      if other = name then some value else find? other entries := by
  induction entries with
  | nil => simp [replace, find?]
  | cons entry rest ih =>
    obtain ⟨key, old⟩ := entry
    by_cases hk : name = key
    · subst hk
      by_cases h : other = name <;> simp [replace, find?, h]
    · by_cases h : other = key
      · subst h
        simp [replace, find?, hk, Ne.symm hk]
      · simp [replace, find?, hk, h, ih]

def empty : Bindings α := ⟨[]⟩

def get? (b : Bindings α) (name : String) : Option α := find? name b.entries

def contains (b : Bindings α) (name : String) : Bool := (b.get? name).isSome

def names (b : Bindings α) : List String := b.entries.map (·.1)

def set (b : Bindings α) (name : String) (value : α) : Bindings α := ⟨replace name value b.entries⟩

/-- Sets one name after the other. -/
def setAll (b : Bindings α) (entries : List (String × α)) : Bindings α :=
  entries.foldl (fun b entry => b.set entry.1 entry.2) b

theorem get?_empty (name : String) : (empty : Bindings α).get? name = none := rfl

theorem get?_set (b : Bindings α) (name other : String) (value : α) :
    (b.set name value).get? other = if other = name then some value else b.get? other :=
  find?_replace name other value b.entries

end Bindings

end TreeWalk
