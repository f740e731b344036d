import TreeWalk.Proofs.Evaluation.Padding

/-!
# What is seen of padded heaps

Values that stand for each other are printed as the same text, and operators make of them what stands for each other
again.
-/

namespace TreeWalk

variable {k : Pairing} {frames : Frames} {h h' : Heap} {v v' u u' : Value}

/-! ## Results in pairs -/

/-- The same failure, or results of which one stands for the other. -/
inductive ResultPairs {ε α β : Type} (R : α → β → Prop) : Except ε α → Except ε β → Prop where
  | ok {a : α} {b : β} (h : R a b) : ResultPairs R (.ok a) (.ok b)
  | error (e : ε) : ResultPairs R (.error e) (.error e)

namespace ResultPairs

variable {ε ε' α β : Type} {R : α → β → Prop}

theorem mapError {x : Except ε α} {y : Except ε β} (h : ResultPairs R x y) (f : ε → ε') :
    ResultPairs R (x.mapError f) (y.mapError f) := by
  cases h with
  | ok h => exact .ok h
  | error e => exact .error (f e)

theorem of_eq {R : α → α → Prop} {x y : Except ε α} (h : y = x) (hx : ∀ a, x = .ok a → R a a) : ResultPairs R x y := by
  subst h
  cases y with
  | ok a => exact .ok (hx a rfl)
  | error e => exact .error e

end ResultPairs

namespace Heap.Pairs

/-! ## Text -/

/-- Only the text of a list depends on the heap. -/
theorem textWithin?_flat {depth : Nat} (hv : v.Pairs k frames v') (hflat : depth = 0 ∨ ∀ id, v ≠ .list id) :
    h'.textWithin? depth v' = h.textWithin? depth v := by
  cases hv with
  | list id =>
    obtain rfl := hflat.resolve_right fun h => h id rfl
    rfl
  | function identity hc =>
    have hname := congrArg (·.1) hc.signature
    simp only [Closure.signature] at hname
    simp [Heap.textWithin?, hname]
  | «class» hc => simp [Heap.textWithin?, hc.text]
  | object id hc => simp [Heap.textWithin?, hc.own.name]
  | _ => simp [Heap.textWithin?]

theorem textWithin? (hh : Heap.Pairs k frames h h') (depth : Nat) (hv : v.Pairs k frames v') :
    h'.textWithin? depth v' = h.textWithin? depth v := by
  induction depth generalizing v v' with
  | zero => exact textWithin?_flat hv (.inl rfl)
  | succ depth ih =>
    by_cases hlist : ∃ id, v = .list id
    · obtain ⟨id, rfl⟩ := hlist
      cases hv
      simp only [Heap.textWithin?]
      rw [mapM_pairs (fun element element' helement => ?_) (hh.elements id).toList]
      have hsame := ih helement
      cases helement <;> first | exact hsame | rfl
    · exact textWithin?_flat hv (.inr fun id hid => hlist ⟨id, hid⟩)

theorem text? (hh : Heap.Pairs k frames h h') (hv : v.Pairs k frames v') : h'.text? v' = h.text? v := by
  unfold Heap.text?
  rw [hh.lists.size, hh.textWithin? _ hv]

theorem appendUntil_pairs {α β : Type} {R : α → β → Prop} (size : Nat) {item : String → α → String}
    {item' : String → β → String} (hitem : ∀ before a b, R a b → item' before b = item before a) (before : String)
    {xs : List α} {ys : List β} (h : List.Forall₂ R xs ys) : appendUntil size item' before ys = appendUntil size item before xs := by
  induction h generalizing before with
  | nil => rfl
  | cons hab hrest ih =>
    cases hrest with
    | nil => exact hitem before _ _ hab
    | cons hcd hrest =>
      simp only [appendUntil, hitem _ _ _ hab] at ih ⊢
      rw [ih]

theorem openingAfter (hh : Heap.Pairs k frames h h') (size depth : Nat) (before : String) (hv : v.Pairs k frames v') :
    h'.openingAfter size depth before v' = h.openingAfter size depth before v := by
  have hflat {depth : Nat} {before : String} {v v' : Value} (hv : v.Pairs k frames v') (hlist : depth = 0 ∨ ∀ id, v ≠ .list id) :
      h'.openingAfter size depth before v' = h.openingAfter size depth before v := by
    have hlist' : depth = 0 ∨ ∀ id, v' ≠ .list id := hlist.imp_right fun hne id heq => by
      subst heq
      cases hv
      exact hne id rfl
    rw [openingAfter_eq hlist, openingAfter_eq hlist', textWithin?_flat hv hlist]
  induction depth generalizing before v v' with
  | zero => exact hflat hv (.inl rfl)
  | succ depth ih =>
    by_cases hlist : ∃ id, v = .list id
    · obtain ⟨id, rfl⟩ := hlist
      cases hv
      simp only [Heap.openingAfter]
      split
      · rfl
      · rw [appendUntil_pairs size (fun before element element' helement => ?_) _ (hh.elements id).toList]
        have hsame := ih before helement
        cases helement <;> first | exact hsame | rfl
    · exact hflat hv (.inr fun id hid => hlist ⟨id, hid⟩)

theorem opening (hh : Heap.Pairs k frames h h') (size : Nat) (hv : v.Pairs k frames v') :
    h'.opening size v' = h.opening size v := hh.openingAfter size size "" hv

/-! ## Equality -/

theorem allPairs?_pairs {test? test'? : Value → Value → Option Bool}
    (htest : ∀ {left left' right right'}, Value.Pairs k frames left left' → Value.Pairs k frames right right' →
      test'? left' right' = test? left right) {lefts lefts' rights rights' : List Value}
    (hlefts : List.Forall₂ (Value.Pairs k frames) lefts lefts') (hrights : List.Forall₂ (Value.Pairs k frames) rights rights') :
    allPairs? test'? lefts' rights' = allPairs? test? lefts rights := by
  induction hlefts generalizing rights rights' with
  | nil => cases hrights <;> rfl
  | cons hleft _ ih =>
    cases hrights with
    | nil => rfl
    | cons hright hrest => simp only [allPairs?, htest hleft hright, ih hrest]

theorem equalWithin? (hh : Heap.Pairs k frames h h') (depth : Nat) (hv : v.Pairs k frames v') (hu : u.Pairs k frames u') :
    h'.equalWithin? depth v' u' = h.equalWithin? depth v u := by
  have hsize (id : ListId) : (h'.elements id).size = (h.elements id).size := (hh.elements id).size
  have hown {c c' : Class} (hc : c.Pairs k frames c') : c'.own.identity = c.own.identity := hc.own.identity
  induction depth generalizing v v' u u' with
  | zero =>
    cases hv <;> cases hu <;> simp [Heap.equalWithin?, hsize]
    case class.class c c' hc d d' hd => rw [hown hc, hown hd]
  | succ depth ih =>
    cases hv <;> cases hu <;> simp only [Heap.equalWithin?, hsize]
    case list.list id other => rw [allPairs?_pairs ih (hh.elements id).toList (hh.elements other).toList]
    case class.class c c' hc d d' hd => rw [hown hc, hown hd]

theorem equality (hh : Heap.Pairs k frames h h') (hv : v.Pairs k frames v') (hu : u.Pairs k frames u') :
    h'.equality v' u' = h.equality v u := by
  unfold Heap.equality Heap.equal?
  rw [hh.lists.size, hh.equalWithin? _ hv hu]

/-! ## Operations -/

theorem truthy (hh : Heap.Pairs k frames h h') (hv : v.Pairs k frames v') : h'.truthy v' = h.truthy v := by
  cases hv with
  | list id => simp [Heap.truthy, Array.isEmpty, (hh.elements id).size]
  | _ => rfl

theorem printed (hh : Heap.Pairs k frames h h') (hv : v.Pairs k frames v') : h'.printed v' = h.printed v := by
  unfold Heap.printed
  rw [hh.text? hv]

theorem numeral (hv : v.Pairs k frames v') : v'.numeral = v.numeral := by
  cases hv <;> rfl

theorem numbers (hv : v.Pairs k frames v') (hu : u.Pairs k frames u') : Value.numbers v' u' = Value.numbers v u := by
  cases hv <;> cases hu <;> rfl

theorem compare (strings : String → String → Bool) (floats : Float → Float → Bool) (hv : v.Pairs k frames v')
    (hu : u.Pairs k frames u') : Value.compare strings floats v' u' = Value.compare strings floats v u := by
  cases hv <;> cases hu <;> rfl

theorem add (hh : Heap.Pairs k frames h h') (hv : v.Pairs k frames v') (hu : u.Pairs k frames u') :
    h'.add v' u' = h.add v u := by
  have hjoin : h'.join v' u' = h.join v u := by
    unfold join
    rw [hh.printed hv, hh.printed hu]
  have hnumerals : Value.numerals v' u' = Value.numerals v u := by
    unfold Value.numerals
    rw [numeral hv, numeral hu]
  unfold Heap.add
  rw [← hjoin, ← hnumerals]
  cases hv with
  | text value => rfl
  | _ => cases hu <;> rfl

theorem binary (hh : Heap.Pairs k frames h h') (kind : BinaryKind) (hv : v.Pairs k frames v') (hu : u.Pairs k frames u') :
    h'.binary kind v' u' = h.binary kind v u := by
  cases kind with
  | equal | notEqual => simp only [Heap.binary, hh.equality hv hu]
  | greater | greaterEqual | less | lessEqual => simp only [Heap.binary, compare _ _ hv hu]
  | add => exact hh.add hv hu
  | subtract | multiply => simp only [Heap.binary, Value.arithmetic, numbers hv hu]
  | divide => simp only [Heap.binary, Value.divide, numbers hv hu]

theorem position (hh : Heap.Pairs k frames h h') (hv : v.Pairs k frames v') : h'.position v' = h.position v := by
  have hinvalid : h'.invalidIndex v' = h.invalidIndex v := by
    unfold invalidIndex
    rw [hh.printed hv]
  unfold Heap.position
  rw [hinvalid]
  cases hv <;> rfl

theorem element (hh : Heap.Pairs k frames h h') (hv : v.Pairs k frames v') (position : Nat) :
    ResultPairs (Value.Pairs k frames) (h.element v position) (h'.element v' position) := by
  cases hv with
  | list id =>
    have hat := (hh.elements id).getElem? position
    simp only [Heap.element, (hh.elements id).size]
    generalize (h.elements id)[position]? = o, (h'.elements id)[position]? = o' at hat
    cases hat with
    | none => exact .error _
    | some hat => exact .ok hat
  | text value =>
    simp only [Heap.element]
    cases value.toList[position]? with
    | none => exact .error _
    | some c => exact .ok (.text _)
  | _ => exact .error _

theorem subscript (hh : Heap.Pairs k frames h h') (hv : v.Pairs k frames v') (hu : u.Pairs k frames u') :
    ResultPairs (Value.Pairs k frames) (h.subscript v u) (h'.subscript v' u') := by
  unfold Heap.subscript
  rw [hh.position hu]
  cases h.position u with
  | error failure => exact .error failure
  | ok position => exact (hh.element hv position).mapError _

end Heap.Pairs

/-! ## Descriptions -/

namespace Description

theorem closureLines_of_signature (kind : String) {c c' : Closure} (hc : c'.signature = c.signature) :
    closureLines kind c' = closureLines kind c := by
  have hname : c'.name = c.name := congrArg (·.1) hc
  have htexts : c'.function.params.map (·.text) = c.function.params.map (·.text) := congrArg (·.2.1) hc
  have hlines (params : List Name) : parameterLines params =
      if (params.map (·.text)).isEmpty then ["      NONE"]
      else (params.map (·.text)).mapIdx fun i text => "      - param[" ++ toString i ++ "]:   (" ++ text ++ ")" := by
    unfold parameterLines
    rw [List.isEmpty_map]
    congr 1
    apply List.ext_getElem?
    intro i
    simp [List.getElem?_mapIdx, Function.comp_def]
  rw [closureLines, closureLines, hname, hlines, hlines, htexts]

theorem classLines_pairs {c c' : Class} (hc : c.Pairs k frames c') : classLines c' = classLines c := by
  -- Methods are sorted by their names and described by their signatures.
  have hsorted (methods : Bindings Closure) :
      (methods.entries.mergeSort fun a b => a.1 ≤ b.1).map (fun entry => (entry.1, entry.2.signature)) =
        (methods.map Closure.signature).entries.mergeSort fun a b => a.1 ≤ b.1 :=
    List.map_mergeSort fun _ _ _ _ => rfl
  have hlines (entries entries' : List (String × Closure))
      (hsame : entries'.map (fun entry => (entry.1, entry.2.signature)) = entries.map fun entry => (entry.1, entry.2.signature)) :
      (entries'.flatMap fun entry => methodLines entry.1 entry.2) =
        entries.flatMap fun entry => methodLines entry.1 entry.2 := by
    induction entries generalizing entries' with
    | nil => simp_all
    | cons entry rest ih =>
      obtain ⟨entry', rest', rfl, hentry, hrest⟩ := List.map_eq_cons_iff.1 hsame
      obtain ⟨hname, hsignature⟩ := Prod.mk.injEq .. ▸ hentry
      rw [List.flatMap_cons, List.flatMap_cons, ih rest' hrest]
      simp only [methodLines, hname, closureLines_of_signature "method" hsignature]
  have hparent : (c'.parent?.map fun parent => "   Parent: " ++ parent.text) =
      c.parent?.map fun parent => "   Parent: " ++ parent.text := by
    have hparent := hc.parent?
    generalize c.parent? = o, c'.parent? = o' at hparent
    cases hparent with
    | none => rfl
    | some hparent => rw [Option.map_some, Option.map_some, hparent.text]
  have hmethods := hlines (c.own.methods.entries.mergeSort fun a b => a.1 ≤ b.1)
    (c'.own.methods.entries.mergeSort fun a b => a.1 ≤ b.1) (by rw [hsorted, hsorted, hc.own.shown])
  show ["   Type: class", "   Name: " ++ c'.own.name] ++ (c'.parent?.map fun parent => "   Parent: " ++ parent.text).toList
    ++ (c'.own.methods.entries.mergeSort fun a b => a.1 ≤ b.1).flatMap (fun entry => methodLines entry.1 entry.2) = _
  rw [hc.own.name, hparent, hmethods]
  rfl

end Description

end TreeWalk
