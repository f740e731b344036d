import Mathlib
import TreeWalk.Proofs.Evaluation.Ordered

/-!
# Equality of values

Lists are equal if they are one and the same, or element by element. In every heap this is symmetric and transitive,
and what is equal has the same type and is true or false alike. Where lists are in order it is settled for all values.
-/

namespace TreeWalk

namespace Heap

/-! ## Pairs of elements -/

section Pairs

variable {test? : Value → Value → Option Bool}

theorem allPairs?_comm (htest : ∀ left right, test? left right = test? right left) (lefts rights : List Value) :
    allPairs? test? lefts rights = allPairs? test? rights lefts := by
  induction lefts generalizing rights with
  | nil => cases rights <;> simp [allPairs?]
  | cons left lefts ih =>
    cases rights with
    | nil => simp [allPairs?]
    | cons right rights => simp only [allPairs?, htest left right, ih]

theorem allPairs?_eq_true_iff (lefts rights : List Value) :
    allPairs? test? lefts rights = some true ↔
      List.Forall₂ (fun left right => test? left right = some true) lefts rights := by
  induction lefts generalizing rights with
  | nil => cases rights <;> simp [allPairs?]
  | cons left lefts ih =>
    cases rights with
    | nil => simp [allPairs?]
    | cons right rights =>
      rw [List.forall₂_cons, ← ih, allPairs?]
      rcases test? left right with _ | _ | _ <;> simp

/-- A test that settles more pairs settles them in the same way. -/
theorem allPairs?_mono {test?' : Value → Value → Option Bool} {lefts rights : List Value} {equal : Bool}
    (htest : ∀ left right equal, test? left right = some equal → test?' left right = some equal)
    (h : allPairs? test? lefts rights = some equal) : allPairs? test?' lefts rights = some equal := by
  induction lefts generalizing rights with
  | nil => exact h
  | cons left lefts ih =>
    cases rights with
    | nil => exact h
    | cons right rights =>
      rw [allPairs?] at h ⊢
      obtain ⟨first, hfirst, hrest⟩ := Option.bind_eq_some_iff.1 h
      rw [htest left right first hfirst]
      cases first with
      | true => exact ih hrest
      | false => exact hrest

theorem isSome_allPairs? {lefts : List Value} (htest : ∀ left ∈ lefts, ∀ right, (test? left right).isSome)
    (rights : List Value) : (allPairs? test? lefts rights).isSome := by
  induction lefts generalizing rights with
  | nil => cases rights <;> rfl
  | cons left lefts ih =>
    cases rights with
    | nil => rfl
    | cons right rights =>
      obtain ⟨hleft, hlefts⟩ := List.forall_mem_cons.1 htest
      obtain ⟨equal, hequal⟩ := Option.isSome_iff_exists.1 (hleft right)
      rw [allPairs?, hequal]
      cases equal with
      | true => exact ih hlefts rights
      | false => rfl

end Pairs

/-! ## Equality up to a depth -/

section Within

variable (h : Heap)

theorem equalWithin?_list (depth : Nat) (id id' : ListId) :
    h.equalWithin? depth (.list id) (.list id') =
      if id = id' then some true
      else if (h.elements id).size ≠ (h.elements id').size then some false
      else
        match depth with
        | 0 => none
        | depth + 1 => allPairs? (h.equalWithin? depth) (h.elements id).toList (h.elements id').toList := by
  cases depth <;> simp [equalWithin?]

/-- Lists are equal if they are the same list or have equal elements. -/
theorem equalWithin?_list_iff (depth : Nat) (id id' : ListId) :
    h.equalWithin? depth (.list id) (.list id') = some true ↔ id = id' ∨ ∃ inner, depth = inner + 1 ∧
      List.Forall₂ (fun left right => h.equalWithin? inner left right = some true)
        (h.elements id).toList (h.elements id').toList := by
  rw [equalWithin?_list]
  by_cases hid : id = id'
  · simp [hid]
  · rw [if_neg hid]
    by_cases hsize : (h.elements id).size = (h.elements id').size
    · cases depth <;> simp [hid, hsize, allPairs?_eq_true_iff]
    · rw [if_pos hsize]
      simp only [Option.some.injEq, Bool.false_eq_true, hid, false_or, false_iff, not_exists, not_and]
      exact fun _ _ hpairs => hsize (by simpa using hpairs.length_eq)

/-- What is settled within a depth stays so if one looks deeper. -/
theorem equalWithin?_mono {depth depth' : Nat} (hle : depth ≤ depth') {v w : Value} {equal : Bool}
    (hequal : h.equalWithin? depth v w = some equal) : h.equalWithin? depth' v w = some equal := by
  induction depth using Nat.strongRecOn generalizing depth' v w equal with
  | ind depth ih =>
    cases v <;> cases w
    case list.list id id' =>
      rw [equalWithin?_list] at hequal ⊢
      split at hequal
      · rw [if_pos ‹_›, hequal]
      · rw [if_neg ‹_›]
        split at hequal
        · rw [if_pos ‹_›, hequal]
        · rw [if_neg ‹_›]
          cases depth with
          | zero => cases hequal
          | succ depth =>
            obtain ⟨depth', rfl⟩ := Nat.exists_eq_add_one.2 (Nat.lt_of_lt_of_le depth.succ_pos hle)
            exact allPairs?_mono (fun _ _ _ => ih depth depth.lt_succ_self (Nat.le_of_succ_le_succ hle)) hequal
    all_goals simpa only [equalWithin?] using hequal

theorem equalWithin?_comm (depth : Nat) (left right : Value) :
    h.equalWithin? depth left right = h.equalWithin? depth right left := by
  have hsizes (id id' : ListId) : ((h.elements id).size != (h.elements id').size) =
      ((h.elements id').size != (h.elements id).size) := bne_comm
  induction depth generalizing left right with
  | zero =>
    cases left <;> cases right <;> simp only [equalWithin?]
    case list.list id id' => rw [BEq.comm, hsizes]
    all_goals rw [BEq.comm]
  | succ depth ih =>
    cases left <;> cases right <;> simp only [equalWithin?]
    case list.list id id' => rw [BEq.comm, hsizes, allPairs?_comm ih]
    all_goals rw [BEq.comm]

theorem forall₂_trans {α : Type} {r : α → α → Prop} {xs ys zs : List α} (h : List.Forall₂ r xs ys)
    (h' : List.Forall₂ r ys zs) (htrans : ∀ a b c, r a b → r b c → r a c) : List.Forall₂ r xs zs := by
  induction h generalizing zs with
  | nil => exact h'
  | cons hab _ ih =>
    cases h' with
    | cons hbc hrest => exact .cons (htrans _ _ _ hab hbc) (ih hrest)

/-- Of lists that are one and the same the elements need not be equal to themselves, but then the other comparison
is the one that is asked for. -/
theorem equalWithin?_trans {depth : Nat} {u v w : Value} (huv : h.equalWithin? depth u v = some true)
    (hvw : h.equalWithin? depth v w = some true) : h.equalWithin? depth u w = some true := by
  induction depth using Nat.strongRecOn generalizing u v w with
  | ind depth ih =>
    cases u <;> cases v
    case list.list id id' =>
      cases w
      case list id'' =>
        rcases (h.equalWithin?_list_iff depth id id').1 huv with rfl | ⟨inner, rfl, hleft⟩
        · exact hvw
        · rcases (h.equalWithin?_list_iff _ id' id'').1 hvw with rfl | ⟨_, hinner, hright⟩
          · exact huv
          · obtain rfl := Nat.succ.inj hinner
            have hpairs := forall₂_trans hleft hright fun _ _ _ => ih inner (Nat.lt_succ_self inner)
            exact (h.equalWithin?_list_iff _ id id'').2 (.inr ⟨inner, rfl, hpairs⟩)
      all_goals simp only [equalWithin?, Option.some.injEq, Bool.false_eq_true] at hvw
    all_goals simp only [equalWithin?, Option.some.injEq, Bool.false_eq_true] at huv
    all_goals cases w <;> simp only [equalWithin?, Option.some.injEq, Bool.false_eq_true] at hvw ⊢
    all_goals exact BEq.trans huv hvw

/-- What is equal has the same type and is true or false alike. -/
theorem alike_of_equalWithin? {depth : Nat} {v w : Value} (hequal : h.equalWithin? depth v w = some true) :
    v.typeName = w.typeName ∧ h.truthy v = h.truthy w := by
  cases v <;> cases w
  case list.list id id' =>
    refine ⟨rfl, ?_⟩
    rcases (h.equalWithin?_list_iff depth id id').1 hequal with rfl | ⟨_, -, hpairs⟩
    · rfl
    · have hsize : (h.elements id).size = (h.elements id').size := by simpa using hpairs.length_eq
      simp [truthy, Array.isEmpty, hsize]
  all_goals simp only [equalWithin?, Option.some.injEq, Bool.false_eq_true] at hequal
  case number.number x y => exact ⟨rfl, congrArg (! ·) (BEq.congr_left hequal)⟩
  case bool.bool x y => exact ⟨rfl, beq_iff_eq.1 hequal⟩
  case text.text x y => exact ⟨rfl, by rw [beq_iff_eq.1 hequal]⟩
  all_goals exact ⟨rfl, rfl⟩

end Within

/-! ## Texts at a depth -/

theorem mapM_mono {α β : Type} {f g : α → Option β} (hfg : ∀ x y, f x = some y → g x = some y) {xs : List α}
    {ys : List β} (h : xs.mapM f = some ys) : xs.mapM g = some ys := by
  induction xs generalizing ys with
  | nil => exact h
  | cons x rest ih =>
    rw [List.mapM_cons] at h ⊢
    obtain ⟨y, hy, h⟩ := Option.bind_eq_some_iff.1 h
    obtain ⟨others, hothers, h⟩ := Option.bind_eq_some_iff.1 h
    rw [hfg x y hy, ih hothers]
    exact h

/-- A text stays the same if one looks deeper. -/
theorem textWithin?_mono {h : Heap} {depth depth' : Nat} (hle : depth ≤ depth') {v : Value} {text : String}
    (htext : h.textWithin? depth v = some text) : h.textWithin? depth' v = some text := by
  induction depth generalizing depth' v text with
  | zero =>
    cases v with
    | list id => cases htext
    | _ => rwa [textWithin?_of_ne_list (by rintro _ ⟨⟩) depth' 0]
  | succ depth ih =>
    cases v with
    | list id =>
      obtain ⟨depth', rfl⟩ := Nat.exists_eq_add_one.2 (Nat.lt_of_lt_of_le depth.succ_pos hle)
      have helement (u : Value) (t : String) (hu : h.elementText? depth u = some t) :
          h.elementText? depth' u = some t := by
        cases u with
        | text value => exact hu
        | _ => exact ih (Nat.le_of_succ_le_succ hle) hu
      rw [textWithin?_list] at htext ⊢
      obtain ⟨texts, htexts, rfl⟩ := Option.map_eq_some_iff.1 htext
      rw [mapM_mono helement htexts]
      rfl
    | _ => rwa [textWithin?_of_ne_list (by rintro _ ⟨⟩) depth' (depth + 1)]

end Heap

/-! ## Heaps with lists in order -/

/-- If the value is a list, it is one of the first so many. -/
def Value.Within (lists : Nat) : Value → Prop
  | .list id => id < lists
  | _ => True

theorem Value.Ordered.within {v : Value} {lists : Nat} (h : v.Ordered lists) : v.Within lists := by
  cases v with
  | list id => exact h
  | _ => trivial

theorem Value.Within.mono {v : Value} {lists lists' : Nat} (h : v.Within lists) (hle : lists ≤ lists') :
    v.Within lists' := by
  cases v with
  | list id => exact Nat.lt_of_lt_of_le h hle
  | _ => trivial

namespace Heap

variable {h : Heap}

theorem Ordered.isSome_textWithin? (hh : h.Ordered) {lists : Nat} {v : Value} (hv : v.Within lists) :
    (h.textWithin? lists v).isSome := by
  cases v with
  | list id => exact hh.textWithin?_isSome hv
  | _ => cases lists <;> rfl

/-- The lists of which the first one holds only older ones are compared in so many levels. -/
theorem Ordered.isSome_equalWithin? (hh : h.Ordered) {depth : Nat} {v : Value} (hv : v.Within depth) (w : Value) :
    (h.equalWithin? depth v w).isSome := by
  induction depth generalizing v w with
  | zero =>
    cases v with
    | list id => exact absurd hv (Nat.not_lt_zero id)
    | _ => cases w <;> rfl
  | succ depth ih =>
    cases v with
    | list id =>
      cases w with
      | list id' =>
        have hid : id ≤ depth := Nat.le_of_lt_succ hv
        have helement (u : Value) (hu : u ∈ (h.elements id).toList) (w : Value) : (h.equalWithin? depth u w).isSome :=
          ih ((hh.elements id u (by simpa using hu)).within.mono hid) w
        rw [equalWithin?_list]
        split
        · rfl
        · split
          · rfl
          · exact isSome_allPairs? helement _
      | _ => rfl
    | _ => cases w <;> rfl

/-! ## Consistency -/

/-- The list has the other one among its elements. -/
def Holds (h : Heap) (outer inner : ListId) : Prop := Value.list inner ∈ h.elements outer

theorem Ordered.lt_of_holds (hh : h.Ordered) {outer inner : ListId} (hchain : Relation.TransGen h.Holds outer inner) :
    inner < outer := by
  induction hchain with
  | single hholds => exact hh.elements _ _ hholds
  | tail _ hholds ih => exact Nat.lt_trans (hh.elements _ _ hholds) ih

/-- The value is NaN or a list that has it somewhere inside. -/
inductive HoldsNaN (h : Heap) : Value → Prop where
  | number {x : Float} (hx : x.isNaN) : HoldsNaN h (.number x)
  | element {id : ListId} {v : Value} (hv : v ∈ h.elements id) (hnan : HoldsNaN h v) : HoldsNaN h (.list id)

/-- No list contains itself. However deep one looks, if only deep enough for all lists there are, values have texts
and are equal or not, and equality is consistent. -/
structure Comparable (h : Heap) : Prop where
  acyclic : ∀ id, ¬ Relation.TransGen h.Holds id id
  frames : ∀ id name v, (h.frame id).get? name = some v → v.Within h.lists.size
  elements : ∀ id, ∀ v ∈ h.elements id, v.Within h.lists.size
  fields : ∀ id name v, (h.fields id).get? name = some v → v.Within h.lists.size
  prints : ∀ v, v.Within h.lists.size → ∃ text, h.text? v = some text ∧
    ∀ depth, h.lists.size ≤ depth → h.textWithin? depth v = some text
  compares : ∀ v w, v.Within h.lists.size → ∃ equal, h.equal? v w = some equal ∧
    (∀ depth, h.lists.size ≤ depth → h.equalWithin? depth v w = some equal) ∧
    h.binary .equal v w = .ok (.bool equal) ∧ h.binary .notEqual v w = .ok (.bool !equal)
  symmetric : ∀ v w, h.equal? v w = h.equal? w v
  transitive : ∀ u v w, h.equal? u v = some true → h.equal? v w = some true → h.equal? u w = some true
  reflexive : ∀ v, ¬ h.HoldsNaN v → h.equal? v v = some true
  identical : ∀ id, h.equal? (.list id) (.list id) = some true
  alike : ∀ v w, h.equal? v w = some true → v.typeName = w.typeName ∧ h.truthy v = h.truthy w

theorem equal?_self (h : Heap) {v : Value} (hv : ¬ h.HoldsNaN v) : h.equal? v v = some true := by
  cases v with
  | number x =>
    have hx : x ≠ Float.nan := fun hnan => hv (.number (by simp [hnan]))
    rw [equal?, equalWithin?, Float.beq_self_iff.2 hx]
  | list id => exact (h.equalWithin?_list_iff _ id id).2 (.inl rfl)
  | _ => simp [equal?, equalWithin?]

theorem Ordered.comparable (hh : h.Ordered) : h.Comparable where
  acyclic id hcycle := Nat.lt_irrefl id (hh.lt_of_holds hcycle)
  frames id name v hv := (hh.frames id name v hv).within
  elements _ _ hv := (hh.of_mem hv).within
  fields id name v hv := (hh.fields id name v hv).within
  prints v hv := by
    obtain ⟨text, htext⟩ := Option.isSome_iff_exists.1 (hh.isSome_textWithin? hv)
    exact ⟨text, htext, fun _ hdepth => textWithin?_mono hdepth htext⟩
  compares v w hv := by
    obtain ⟨equal, hequal⟩ := Option.isSome_iff_exists.1 (hh.isSome_equalWithin? hv w)
    have hdeeper (depth : Nat) (hdepth : h.lists.size ≤ depth) : h.equalWithin? depth v w = some equal :=
      h.equalWithin?_mono hdepth hequal
    have hsame : h.equal? v w = some equal := hdeeper _ (Nat.le_mul_self _)
    have hequality : h.equality v w = .ok equal := by rw [equality, hsame]
    exact ⟨equal, hsame, hdeeper, by rw [binary, hequality]; rfl, by rw [binary, hequality]; rfl⟩
  symmetric := h.equalWithin?_comm _
  transitive _ _ _ := h.equalWithin?_trans
  reflexive _ := h.equal?_self
  identical id := (h.equalWithin?_list_iff _ id id).2 (.inl rfl)
  alike _ _ := h.alike_of_equalWithin?

end Heap

end TreeWalk
