import TreeWalk.Value

/-!
# The heap

Frames, lists and the fields of objects live in the heap and are reached through handles. Handles
are given out in order and never taken back.
-/

namespace TreeWalk

structure Heap where
  frames : Array (Bindings Value)
  lists : Array (Array Value)
  /-- The fields of each object. -/
  objects : Array (Bindings Value)
  /-- How many identities of functions and classes have been given out. -/
  identities : Nat

namespace Heap

/-- The top level is the first frame. -/
def topFrame : FrameId := 0

/-- A heap with nothing but an empty top level. -/
def initial : Heap := ⟨#[.empty], #[], #[], 0⟩

/-! ## Frames -/

def frame (h : Heap) (id : FrameId) : Bindings Value := h.frames[id]?.getD .empty

def globals (h : Heap) : Bindings Value := h.frame topFrame

def addFrame (h : Heap) (bindings : Bindings Value) : FrameId × Heap :=
  (h.frames.size, { h with frames := h.frames.push bindings })

def define (h : Heap) (id : FrameId) (name : String) (value : Value) : Heap :=
  { h with frames := h.frames.modify id (·.set name value) }

/-- The frame in which declarations at a place of this environment take effect. -/
def innermost (environment : Environment) : FrameId := environment.head?.getD topFrame

/-- The frame that lies `distance` frames outward from the innermost one. The outermost is the top
level. -/
def outward? : Environment → (distance : Nat) → Option FrameId
  | [], 0 => some topFrame
  | [], _ + 1 => none
  | id :: _, 0 => some id
  | _ :: outer, distance + 1 => outward? outer distance

theorem outward?_eq (environment : Environment) (distance : Nat) :
    outward? environment distance = (environment ++ [topFrame])[distance]? := by
  induction environment generalizing distance with
  | nil => cases distance <;> simp [outward?]
  | cons id outer ih => cases distance <;> simp [outward?, ih]

theorem frame_addFrame (h : Heap) (bindings : Bindings Value) (id : FrameId) :
    (h.addFrame bindings).2.frame id = if id = h.frames.size then bindings else h.frame id := by
  by_cases hid : id = h.frames.size <;> simp [addFrame, frame, Array.getElem?_push, hid]

theorem frame_define (h : Heap) {id : FrameId} (other : FrameId) (name : String) (value : Value)
    (hid : id < h.frames.size) :
    (h.define id name value).frame other =
      if other = id then (h.frame id).set name value else h.frame other := by
  by_cases ho : other = id
  · subst ho; simp [define, frame, hid, Array.getElem_modify]
  · simp [define, frame, Array.getElem?_modify, ho, Ne.symm ho]

/-- The value of a name in exactly one frame. -/
def get? (h : Heap) (environment : Environment) (distance : Nat) (name : String) : Option Value :=
  (outward? environment distance).bind fun id => (h.frame id).get? name

/-- Whether exactly this frame has the name. -/
def binds (h : Heap) (id : FrameId) (name : String) : Bool := (h.frame id).contains name

/-! ## Lists and objects -/

def elements (h : Heap) (id : ListId) : Array Value := h.lists[id]?.getD #[]

def addList (h : Heap) (elements : Array Value) : ListId × Heap :=
  (h.lists.size, { h with lists := h.lists.push elements })

def append (h : Heap) (id : ListId) (value : Value) : Heap :=
  { h with lists := h.lists.modify id (·.push value) }

theorem elements_addList (h : Heap) (elements : Array Value) (id : ListId) :
    (h.addList elements).2.elements id = if id = h.lists.size then elements else h.elements id := by
  by_cases hid : id = h.lists.size <;> simp [addList, Heap.elements, Array.getElem?_push, hid]

def fields (h : Heap) (id : ObjectId) : Bindings Value := h.objects[id]?.getD .empty

/-- A new object without fields. -/
def addObject (h : Heap) : ObjectId × Heap :=
  (h.objects.size, { h with objects := h.objects.push .empty })

def setField (h : Heap) (id : ObjectId) (name : String) (value : Value) : Heap :=
  { h with objects := h.objects.modify id (·.set name value) }

theorem fields_setField (h : Heap) {id : ObjectId} (other : ObjectId) (name : String)
    (value : Value) (hid : id < h.objects.size) :
    (h.setField id name value).fields other =
      if other = id then (h.fields id).set name value else h.fields other := by
  by_cases ho : other = id
  · subst ho; simp [setField, fields, hid, Array.getElem_modify]
  · simp [setField, fields, Array.getElem?_modify, ho, Ne.symm ho]

/-! ## Identities -/

def addIdentity (h : Heap) : Nat × Heap := (h.identities, { h with identities := h.identities + 1 })

end Heap

end TreeWalk
