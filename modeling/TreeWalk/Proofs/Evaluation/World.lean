import Mathlib.Order.Basic
import TreeWalk.Machine
import TreeWalk.Proofs.Evaluation.Contents
import TreeWalk.Proofs.Scope.Legality
import TreeWalk.Proofs.Scope.Receivers

/-!
# Which frame is which scope

A world says of the frames of a machine to which scopes of which programs they belong, which names
they have at least, and what they hold for ever under the names of receivers and parent classes. An
environment that matches a place has a frame for each scope there, and a closure fits a world if its
environment matches the place of its function. Worlds only grow while programs run, so what fits goes on
to fit.
-/

namespace TreeWalk

/-! ## Classes and their ancestors -/

namespace Class

variable {c d e : Class}

/-- The class is the other one or one of its descendants. -/
def DescendsFrom (c d : Class) : Prop := d.lineage <:+ c.lineage

/-- The class has a method of its own that is closed over the environment, and so all of them are. -/
def Declares (c : Class) (environment : Environment) : Prop :=
  ∃ name method, c.own.methods.get? name = some method ∧ method.environment = environment

theorem DescendsFrom.refl (c : Class) : c.DescendsFrom c := List.suffix_refl _

theorem DescendsFrom.trans (h : c.DescendsFrom d) (h' : d.DescendsFrom e) : c.DescendsFrom e := List.IsSuffix.trans h' h

theorem descendsFrom_parent (h : c.parent? = some d) : c.DescendsFrom d := by
  obtain ⟨own, ancestors⟩ := c
  cases ancestors with
  | nil => cases h
  | cons parent rest =>
    cases h
    exact List.suffix_cons own (parent :: rest)

/-- A class descends from itself and from those from which its parent does. -/
theorem descendsFrom_cases {own : ClassBody} {parent : Option Class}
    (h : Class.DescendsFrom ⟨own, (parent.map lineage).getD []⟩ d) :
    d = ⟨own, (parent.map lineage).getD []⟩ ∨ ∃ p ∈ parent, p.DescendsFrom d := by
  rcases List.suffix_cons_iff.1 h with heq | hsuffix
  · obtain ⟨hown, hancestors⟩ := List.cons.inj heq
    exact .inl (congrArg₂ Class.mk hown hancestors)
  · cases parent with
    | none => exact absurd (List.suffix_nil.1 hsuffix) (List.cons_ne_nil _ _)
    | some p => exact .inr ⟨p, rfl, hsuffix⟩

theorem parent?_eq (own : ClassBody) (parent : Option Class) :
    Class.parent? ⟨own, (parent.map lineage).getD []⟩ = parent := by
  cases parent <;> rfl

theorem descendsFrom_of_mem {own : ClassBody} (h : own ∈ c.lineage) : ∃ ancestors, c.DescendsFrom ⟨own, ancestors⟩ := by
  obtain ⟨descendants, ancestors, hsplit⟩ := List.append_of_mem h
  exact ⟨ancestors, descendants, hsplit.symm⟩

/-- A method is one of the class's own or of an ancestor's own. -/
theorem of_method? {name : String} {method : Closure} (h : c.method? name = some method) :
    ∃ d, c.DescendsFrom d ∧ d.own.methods.get? name = some method := by
  obtain ⟨own, hown, hget⟩ := List.exists_of_findSome?_eq_some h
  obtain ⟨ancestors, hdescends⟩ := descendsFrom_of_mem hown
  exact ⟨⟨own, ancestors⟩, hdescends, hget⟩

end Class

/-- A program, and the names that were at top level when it was resolved. -/
structure Loaded where
  globals : List String
  program : List Stmt

/-- A scope of a program. -/
structure Site where
  loaded : Loaded
  opening : Place

structure World where
  /-- Hosts may add functions, also such that bind names at top level. -/
  hosted : Prop
  programs : List Loaded
  /-- The scope to which a frame belongs. -/
  site : FrameId → Option Site
  /-- Names that a frame has. -/
  bound : FrameId → String → Prop
  /-- What a frame holds from the beginning, and can never lose, because no program can name it. -/
  kept : FrameId → String → Option Value

namespace World

/-- The one world knows all that the other does. -/
structure Extends (w w' : World) : Prop where
  hosted : w'.hosted ↔ w.hosted
  programs : w.programs ⊆ w'.programs
  site : ∀ {id site}, w.site id = some site → w'.site id = some site
  bound : ∀ {id name}, w.bound id name → w'.bound id name
  kept : ∀ {id name v}, w.kept id name = some v → w'.kept id name = some v
  settled : ∀ {id name v}, w.site id ≠ none → w'.kept id name = some v → w.kept id name = some v

instance : Preorder World where
  le := Extends
  le_refl _ := ⟨.rfl, List.Subset.refl _, id, id, id, fun _ => id⟩
  le_trans w w' _ h h' :=
    { hosted := h'.hosted.trans h.hosted
      programs := List.Subset.trans h.programs h'.programs
      site := h'.site ∘ h.site
      bound := h'.bound ∘ h.bound
      kept := h'.kept ∘ h.kept
      settled := fun {id} _ _ hsite hkept => by
        obtain ⟨site, hsome⟩ := Option.ne_none_iff_exists'.1 hsite
        have hsite' : w'.site id ≠ none := by rw [h.site hsome]; exact Option.some_ne_none _
        exact h.settled hsite (h'.settled hsite' hkept) }

/-- If the place is that around the methods of a class with a parent, then the class has the parent that is
kept there. -/
def Parented (w : World) (outer : Place) (environment : Environment) (c : Class) : Prop :=
  ∀ q, outer = .parent q → ∃ id ∈ environment.head?, ∃ parent,
    w.kept id parentName = some (.class parent) ∧ c.parent? = some parent

/-- The frame of a receiver keeps an object, and that descends from the class whose methods are closed over
the frames around. -/
def Houses (w : World) (id : FrameId) (environment : Environment) : Place → Prop
  | .receiver outer => ∃ object c d, w.kept id receiverName = some (.object object c) ∧ c.DescendsFrom d ∧
      d.Declares environment ∧ w.Parented outer environment d
  | _ => True

/-- The frames of the environment belong to the scopes at the place, and have the names that are
initialized there. -/
inductive Matches (w : World) (l : Loaded) : Place → Environment → Prop where
  | top (before : List Stmt) : Matches w l (.top before) []
  | past {outer : Place} {env : Environment} {s : Stmt} (h : Matches w l outer env)
    (hbound : ∀ id ∈ env.head?, ∀ name ∈ s.names, w.bound id name) : Matches w l (.past outer s) env
  | initializer {outer : Place} {env : Environment} (name : Name) (h : Matches w l outer env) :
    Matches w l (.initializer outer name) env
  | named {outer : Place} {env : Environment} {name : Name} (h : Matches w l outer env)
    (hbound : ∀ id ∈ env.head?, w.bound id name.text) : Matches w l (.named outer name) env
  | scope {p outer : Place} {names : List String} {id : FrameId} {env : Environment}
    (hp : p.scope? = some (outer, names)) (h : Matches w l outer env)
    (hsite : w.site id = some ⟨l, p.opening⟩) (hbound : ∀ name ∈ names, w.bound id name)
    (hhouses : w.Houses id env p) : Matches w l p (id :: env)

/-- A function as it can be called. -/
structure ClosureFits (w : World) (c : Closure) : Prop where
  occurs : ∃ l ∈ w.programs, ∃ p role, Occurs l.program p (.function role c.function) ∧
    w.Matches l p c.environment ∧ (c.isInitializer = true ↔ role = .initializer)

/-- A method of the class without a receiver. -/
structure MethodFits (w : World) (d : Class) (c : Closure) : Prop where
  occurs : ∃ l ∈ w.programs, ∃ outer role, Occurs l.program (.receiver outer) (.function role c.function) ∧
    w.Matches l outer c.environment ∧ (c.isInitializer = true ↔ role = .initializer) ∧
      w.Parented outer c.environment d

def ClassFits (w : World) (c : Class) : Prop :=
  ∀ d, c.DescendsFrom d → ∀ name method, d.own.methods.get? name = some method → w.MethodFits d method

def ValueFits (w : World) : Value → Prop
  | .native _ f => f = .define → w.hosted
  | .constant _ result => w.ValueFits result
  | .function _ c => w.ClosureFits c
  | .class c => w.ClassFits c
  | .object _ c => w.ClassFits c
  | _ => True

/-- The one world becomes the other while programs run. -/
structure Grows (w w' : World) : Prop where
  le : w ≤ w'
  programs : w'.programs = w.programs

theorem Grows.refl (w : World) : w.Grows w := ⟨le_refl w, rfl⟩

theorem Grows.trans {w w' w'' : World} (h : w.Grows w') (h' : w'.Grows w'') : w.Grows w'' :=
  ⟨le_trans h.le h'.le, h'.programs.trans h.programs⟩

section Growing

variable {w w' : World}

theorem Parented.mono {outer : Place} {env : Environment} {c : Class} (hw : w ≤ w') (h : w.Parented outer env c) :
    w'.Parented outer env c := by
  intro q hq
  obtain ⟨id, hid, parent, hkept, hparent⟩ := h q hq
  exact ⟨id, hid, parent, hw.kept hkept, hparent⟩

theorem Houses.mono {id : FrameId} {env : Environment} {p : Place} (hw : w ≤ w') (h : w.Houses id env p) :
    w'.Houses id env p := by
  cases p with
  | receiver outer =>
    obtain ⟨object, c, d, hkept, hdescends, hdeclares, hparented⟩ := h
    exact ⟨object, c, d, hw.kept hkept, hdescends, hdeclares, hparented.mono hw⟩
  | _ => trivial

theorem Matches.mono {l : Loaded} {p : Place} {env : Environment} (hw : w ≤ w') (h : w.Matches l p env) :
    w'.Matches l p env := by
  induction h with
  | top before => exact .top before
  | past _ hbound ih => exact .past ih fun id hid name hname => hw.bound (hbound id hid name hname)
  | initializer name _ ih => exact .initializer name ih
  | named _ hbound ih => exact .named ih fun id hid => hw.bound (hbound id hid)
  | scope hp _ hsite hbound hhouses ih =>
    exact .scope hp ih (hw.site hsite) (fun name hname => hw.bound (hbound name hname)) (hhouses.mono hw)

theorem ClosureFits.mono {c : Closure} (hw : w ≤ w') (h : w.ClosureFits c) : w'.ClosureFits c := by
  obtain ⟨l, hl, p, role, hoccurs, hmatches, hrole⟩ := h.occurs
  exact ⟨l, hw.programs hl, p, role, hoccurs, hmatches.mono hw, hrole⟩

theorem MethodFits.mono {d : Class} {c : Closure} (hw : w ≤ w') (h : w.MethodFits d c) : w'.MethodFits d c := by
  obtain ⟨l, hl, outer, role, hoccurs, hmatches, hrole, hparented⟩ := h.occurs
  exact ⟨l, hw.programs hl, outer, role, hoccurs, hmatches.mono hw, hrole, hparented.mono hw⟩

theorem ClassFits.mono {c : Class} (hw : w ≤ w') (h : w.ClassFits c) : w'.ClassFits c :=
  fun d hd name method hmethod => (h d hd name method hmethod).mono hw

theorem ValueFits.mono {v : Value} (hw : w ≤ w') (h : w.ValueFits v) : w'.ValueFits v := by
  induction v with
  | constant identity result ih => exact ih h
  | function identity c => exact ClosureFits.mono hw h
  | «class» c => exact ClassFits.mono hw h
  | object id c => exact ClassFits.mono hw h
  | native identity f => exact hw.hosted.2 ∘ h
  | _ => trivial

end Growing

end World

/-! ## Programs that can run -/

/-- Every reference has the distance of its place. -/
def Loaded.Located (l : Loaded) (distances : Distances) : Prop :=
  ∀ p n, Occurs l.program p n → ∀ u ∈ n.uses,
    distances[u.id]? = (p.scopes (Resolution.knownGlobals l.globals)).distance? u.name.text

/-- What the early stages make sure of. -/
structure Loaded.Runnable (l : Loaded) : Prop where
  legal : Legal l.globals l.program
  settled : ∀ s ∈ l.program, (Node.stmt s).Every Node.Settled
  unreserved : ∀ s ∈ l.program, (Node.stmt s).Every Node.Unreserved
  confined : ∀ s ∈ l.program, (Node.stmt s).Every Node.Confined
  contained : ∀ s ∈ l.program, ¬ s.Escapes

namespace World

/-- The world is one of the machine with this heap, and everything in the heap fits it. -/
structure Describes (w : World) (h : Heap) (distances : Distances) : Prop where
  runnable : ∀ l ∈ w.programs, l.Runnable
  located : ∀ l ∈ w.programs, l.Located distances
  owned : ∀ id d, distances[id]? = some d → ∃ l ∈ w.programs, ∃ u ∈ Stmt.referencesAll l.program, u.id = id
  top : 0 < h.frames.size
  fresh : ∀ id, h.frames.size ≤ id → w.site id = none
  sited : ∀ id, id ≠ Heap.topFrame → id < h.frames.size → w.site id ≠ none
  unsited : w.site Heap.topFrame = none
  bound : ∀ id name, w.bound id name → h.binds id name = true
  kept : ∀ id name v, w.kept id name = some v → ¬ IsName name ∧ id ≠ Heap.topFrame ∧ (h.frame id).get? name = some v
  frames : ∀ id name v, (h.frame id).get? name = some v → w.ValueFits v
  elements : ∀ id, ∀ v ∈ h.elements id, w.ValueFits v
  fields : ∀ id name v, (h.fields id).get? name = some v → w.ValueFits v

section Describes

variable {w : World} {h : Heap} {distances : Distances}

theorem Describes.get? (hw : w.Describes h distances) {env : Environment} {d : Nat} {name : String} {v : Value}
    (hv : h.get? env d name = some v) : w.ValueFits v := by
  obtain ⟨id, -, hget⟩ := Option.bind_eq_some_iff.1 hv
  exact hw.frames id name v hget

/-- A frame that belongs to a scope is one of the heap. -/
theorem Describes.lt_size (hw : w.Describes h distances) {id : FrameId} {site : Site} (hsite : w.site id = some site) :
    id < h.frames.size := by
  by_contra hge
  rw [hw.fresh id (Nat.le_of_not_lt hge)] at hsite
  cases hsite

theorem Matches.lt_size (hw : w.Describes h distances) {l : Loaded} {p : Place} {env : Environment}
    (hm : w.Matches l p env) : Heap.innermost env < h.frames.size := by
  induction hm with
  | top before => exact hw.top
  | past _ _ ih => exact ih
  | initializer name _ ih => exact ih
  | named _ _ ih => exact ih
  | scope _ _ hsite _ _ _ => exact hw.lt_size hsite

theorem Matches.sited {l : Loaded} {p : Place} {env : Environment} (h : w.Matches l p env) : ∀ id ∈ env, w.site id ≠ none := by
  induction h with
  | top before => exact fun id hid => absurd hid List.not_mem_nil
  | past _ _ ih => exact ih
  | initializer name _ ih => exact ih
  | named _ _ ih => exact ih
  | scope _ _ hsite _ _ ih => exact List.forall_mem_cons.2 ⟨by rw [hsite]; exact Option.some_ne_none _, ih⟩

/-- What programs can name is not kept. -/
theorem Describes.kept_name (hw : w.Describes h distances) {name : String} (hname : IsName name) (id : FrameId) :
    w.kept id name = none :=
  Option.eq_none_iff_forall_ne_some.2 fun v hv => (hw.kept id name v hv).1 hname

theorem Describes.kept_top (hw : w.Describes h distances) (name : String) : w.kept Heap.topFrame name = none :=
  Option.eq_none_iff_forall_ne_some.2 fun v hv => (hw.kept _ name v hv).2.1 rfl

theorem Describes.kept_fresh (hw : w.Describes h distances) {id : FrameId} (hid : h.frames.size ≤ id) (name : String) :
    w.kept id name = none := by
  apply Option.eq_none_iff_forall_ne_some.2
  intro v hv
  have hframe := (hw.kept id name v hv).2.2
  simp [Heap.frame, Array.getElem?_eq_none hid, Bindings.get?_empty] at hframe

/-- One frame has one name more. -/
def bind (w : World) (id : FrameId) (name : String) : World :=
  { w with bound := fun other n => w.bound other n ∨ (other = id ∧ n = name) }

theorem grows_bind (w : World) (id : FrameId) (name : String) : w.Grows (w.bind id name) where
  le := ⟨.rfl, List.Subset.refl _, fun h => h, .inl, fun h => h, fun _ h => h⟩
  programs := rfl

/-- One frame has been added. -/
def enter (w : World) (id : FrameId) (site : Site) (names : List String) (kept : String → Option Value) : World :=
  { w with
    site := fun other => if other = id then some site else w.site other
    bound := fun other name => w.bound other name ∨ (other = id ∧ name ∈ names)
    kept := fun other => if other = id then kept else w.kept other }

theorem Describes.grows_enter (hw : w.Describes h distances) (site : Site) (names : List String)
    (kept : String → Option Value) : w.Grows (w.enter h.frames.size site names kept) where
  le :=
    { hosted := .rfl
      programs := List.Subset.refl _
      site := fun {other} site' hsite => by
        have hother : other ≠ h.frames.size := fun heq => by simp [heq, hw.fresh _ (Nat.le_refl _)] at hsite
        simpa [enter, hother] using hsite
      bound := .inl
      kept := fun {other name v} hkept => by
        have hother : other ≠ h.frames.size := fun heq => by simp [heq, hw.kept_fresh (Nat.le_refl _)] at hkept
        simpa [enter, hother] using hkept
      settled := fun {other name v} hsite hkept => by
        have hother : other ≠ h.frames.size := fun heq => hsite (heq ▸ hw.fresh _ (Nat.le_refl _))
        simpa [enter, hother] using hkept }
  programs := rfl

/-- Nothing is lost by a definition of what is not kept. -/
theorem Describes.define (hw : w.Describes h distances) {id : FrameId} (hid : id < h.frames.size) {name : String}
    (hkept : w.kept id name = none) {v : Value} (hv : (w.bind id name).ValueFits v) :
    (w.bind id name).Describes (h.define id name v) distances :=
  { runnable := hw.runnable
    located := hw.located
    owned := hw.owned
    top := by simpa [Heap.define] using hw.top
    fresh := fun other hother => hw.fresh other (by simpa [Heap.define] using hother)
    sited := fun other htop hother => hw.sited other htop (by simpa [Heap.define] using hother)
    unsited := hw.unsited
    kept := fun other n u hu => by
      obtain ⟨hname, htop, hget⟩ := hw.kept other n u hu
      refine ⟨hname, htop, ?_⟩
      rw [Heap.frame_define h other name v hid]
      split
      case isTrue heq =>
        subst heq
        have hne : n ≠ name := fun heq => by
          have hsome : w.kept other name = some u := heq ▸ hu
          simp [hkept] at hsome
        rw [Bindings.get?_set, if_neg hne]
        exact hget
      case isFalse => exact hget
    bound := fun other n hn => by
      have hbinds : (h.define id name v).binds other n =
          if other = id then ((h.frame id).set name v).contains n else h.binds other n := by
        rw [Heap.binds, Heap.frame_define h other name v hid]
        split <;> rfl
      rw [hbinds]
      rcases hn with hn | ⟨rfl, rfl⟩
      · have hold := hw.bound other n hn
        split
        case isTrue heq =>
          subst heq
          rw [Bindings.contains, Bindings.get?_set]
          split
          · rfl
          · exact hold
        case isFalse => exact hold
      · simp [Bindings.contains, Bindings.get?_set]
    frames := fun other n u hu => by
      rw [Heap.frame_define h other name v hid] at hu
      have hle := (w.grows_bind id name).le
      split at hu
      · rw [Bindings.get?_set] at hu
        split at hu
        · exact Option.some.inj hu ▸ hv
        · exact (hw.frames id n u hu).mono hle
      · exact (hw.frames other n u hu).mono hle
    elements := fun other u hu => (hw.elements other u hu).mono (w.grows_bind id name).le
    fields := fun other n u hu => (hw.fields other n u hu).mono (w.grows_bind id name).le }

theorem Describes.addFrame (hw : w.Describes h distances) (site : Site) (bindings : Bindings Value)
    (names : List String) (kept : String → Option Value) (hnames : ∀ name ∈ names, bindings.contains name = true)
    (hkept : ∀ name v, kept name = some v → ¬ IsName name ∧ bindings.get? name = some v)
    (hbindings : ∀ name v, bindings.get? name = some v → w.ValueFits v) :
    (w.enter h.frames.size site names kept).Describes (h.addFrame bindings).2 distances := by
  have hle := (hw.grows_enter site names kept).le
  exact
    { runnable := hw.runnable
      located := hw.located
      owned := hw.owned
      top := Nat.lt_of_lt_of_le hw.top (by simp [Heap.addFrame])
      fresh := fun id hid => by
        simp only [Heap.addFrame, Array.size_push] at hid
        have hne : id ≠ h.frames.size := by omega
        simp only [enter, hne, if_false]
        exact hw.fresh id (by omega)
      sited := fun id htop hid => by
        simp only [Heap.addFrame, Array.size_push] at hid
        by_cases hnew : id = h.frames.size
        · simp [enter, hnew]
        · simp only [enter, hnew, if_false]
          exact hw.sited id htop (Nat.lt_of_le_of_ne (Nat.le_of_lt_succ hid) hnew)
      unsited := by
        have htop : Heap.topFrame ≠ h.frames.size := Nat.ne_of_lt hw.top
        simp only [enter, htop, if_false]
        exact hw.unsited
      kept := fun id name v hv => by
        rw [Heap.frame_addFrame]
        by_cases hnew : id = h.frames.size
        · simp only [enter, hnew, if_true] at hv ⊢
          obtain ⟨hname, hget⟩ := hkept name v hv
          exact ⟨hname, Nat.ne_of_gt hw.top, hget⟩
        · simp only [enter, hnew, if_false] at hv ⊢
          exact hw.kept id name v hv
      bound := fun id name hname => by
        rw [Heap.binds, Heap.frame_addFrame]
        rcases hname with hname | ⟨rfl, hname⟩
        · split
          case isTrue heq =>
            subst heq
            have hold := hw.bound _ name hname
            simp [Heap.binds, Heap.frame, Bindings.contains, Bindings.get?_empty] at hold
          case isFalse => exact hw.bound id name hname
        · rw [if_pos rfl]
          exact hnames name hname
      frames := fun id name v hv => by
        rw [Heap.frame_addFrame] at hv
        split at hv
        · exact (hbindings name v hv).mono hle
        · exact (hw.frames id name v hv).mono hle
      elements := fun other u hu => (hw.elements other u hu).mono hle
      fields := fun other n u hu => (hw.fields other n u hu).mono hle }

theorem Describes.setField (hw : w.Describes h distances) (id : ObjectId) (name : String) {v : Value}
    (hv : w.ValueFits v) : w.Describes (h.setField id name v) distances :=
  { hw with
    fields := fun other n u hu => by
      rcases Heap.of_get?_setField hu with rfl | hu
      · exact hv
      · exact hw.fields other n u hu }

theorem Describes.addObject (hw : w.Describes h distances) : w.Describes h.addObject.2 distances :=
  { hw with
    fields := fun other n u hu => hw.fields other n u (by rwa [Heap.fields_addObject] at hu) }

theorem Describes.addList (hw : w.Describes h distances) {elements : Array Value}
    (hv : ∀ v ∈ elements, w.ValueFits v) : w.Describes (h.addList elements).2 distances :=
  { hw with
    elements := fun other u hu => by
      rw [Heap.elements_addList] at hu
      split at hu
      · exact hv u hu
      · exact hw.elements other u hu }

theorem Describes.append (hw : w.Describes h distances) (id : ListId) {v : Value} (hv : w.ValueFits v) :
    w.Describes (h.append id v) distances :=
  { hw with
    elements := fun other u hu => by
      rcases Heap.of_mem_append hu with rfl | hu
      · exact hv
      · exact hw.elements other u hu }

theorem Describes.addIdentity (hw : w.Describes h distances) : w.Describes h.addIdentity.2 distances :=
  { hw with }

end Describes

end World

end TreeWalk
