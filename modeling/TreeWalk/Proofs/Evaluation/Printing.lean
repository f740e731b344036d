import TreeWalk.Machine

/-!
# Texts and how they begin

The beginning of a text that is written to a limited sink agrees with the text for as many bytes as are asked for.
-/

namespace TreeWalk

namespace Heap

/-- The text of a value as an element of a list. -/
def elementText? (h : Heap) (depth : Nat) : Value → Option String
  | .text value => some (quoted value)
  | element => h.textWithin? depth element

theorem textWithin?_list (h : Heap) (depth : Nat) (id : ListId) : h.textWithin? (depth + 1) (.list id) =
    ((h.elements id).toList.mapM (h.elementText? depth)).map fun texts => "[" ++ ", ".intercalate texts ++ "]" := by
  rw [Option.map_eq_bind]
  rfl

end Heap

/-! ## Beginnings of texts -/

theorem encode_append (s t : String) : Lines.encode (s ++ t) = Lines.encode s ++ Lines.encode t := by
  simp [Lines.encode]

theorem length_encode (s : String) : (Lines.encode s).length = s.utf8ByteSize := rfl

/-- The one text begins with the same so many bytes as the other, and is the other if that has fewer. -/
structure BeginsAs (size : Nat) (s t : String) : Prop where
  begins : (Lines.encode s).take size = (Lines.encode t).take size
  whole : t.utf8ByteSize < size → s = t

namespace BeginsAs

variable {size : Nat} {s t : String}

theorem refl (size : Nat) (s : String) : BeginsAs size s s := ⟨rfl, fun _ => rfl⟩

/-- The two have so many bytes or neither has. -/
theorem size_le_iff (h : BeginsAs size s t) : size ≤ s.utf8ByteSize ↔ size ≤ t.utf8ByteSize := by
  have hlength := congrArg List.length h.begins
  rw [List.length_take, List.length_take, length_encode, length_encode] at hlength
  omega

theorem take_append (hs : size ≤ s.utf8ByteSize) (a : String) :
    (Lines.encode (s ++ a)).take size = (Lines.encode s).take size := by
  have hlength : size ≤ (Lines.encode s).length := hs
  rw [encode_append, List.take_append_of_le_length hlength]

/-- What stands behind so many bytes does not matter. -/
theorem append_of_le (h : BeginsAs size s t) (hs : size ≤ s.utf8ByteSize) (a b : String) : BeginsAs size (s ++ a) (t ++ b) := by
  have ht := h.size_le_iff.1 hs
  refine ⟨by rw [take_append hs, take_append ht, h.begins], fun hlt => ?_⟩
  rw [String.utf8ByteSize_append] at hlt
  omega

theorem append (h : BeginsAs size s t) (a : String) : BeginsAs size (s ++ a) (t ++ a) := by
  by_cases ht : t.utf8ByteSize < size
  · rw [h.whole ht]
    exact refl size _
  · exact h.append_of_le (h.size_le_iff.2 (Nat.le_of_not_lt ht)) a a

end BeginsAs

namespace Heap

/-- Only lists can be cut off. -/
theorem openingAfter_eq {h : Heap} {size depth : Nat} {v : Value} (hv : depth = 0 ∨ ∀ id, v ≠ .list id) (before : String) :
    h.openingAfter size depth before v = before ++ (h.textWithin? depth v).getD "" := by
  cases depth with
  | zero => cases v <;> rfl
  | succ depth =>
    cases v with
    | list id => exact absurd rfl (hv.resolve_left (Nat.succ_ne_zero depth) id)
    | _ => rfl

/-- Items that each begin as their texts do, begin together as the texts with commas between them. -/
theorem appendUntil_begins {α : Type} {size depth : Nat} {item : String → α → String} {text? : α → Option String}
    (hitem : ∀ before x t, size ≤ before.utf8ByteSize + depth → text? x = some t → BeginsAs size (item before x) (before ++ t))
    {before : String} (hbefore : size ≤ before.utf8ByteSize + depth) {xs : List α} {texts : List String}
    (h : xs.mapM text? = some texts) :
    BeginsAs size (appendUntil size item before xs) (before ++ ", ".intercalate texts) := by
  induction xs generalizing before texts with
  | nil =>
    rw [List.mapM_nil] at h
    obtain rfl := Option.some.inj h
    rw [appendUntil, String.intercalate_nil, String.append_empty]
    exact .refl size before
  | cons x rest ih =>
    rw [List.mapM_cons] at h
    obtain ⟨first, hfirst, h⟩ := Option.bind_eq_some_iff.1 h
    obtain ⟨others, hothers, h⟩ := Option.bind_eq_some_iff.1 h
    obtain rfl := Option.some.inj h
    have hbegins := hitem before x first hbefore hfirst
    cases rest with
    | nil =>
      rw [List.mapM_nil] at hothers
      obtain rfl := Option.some.inj hothers
      rw [appendUntil, String.intercalate_singleton]
      exact hbegins
    | cons y rest =>
      have hcons : ∃ second later, others = second :: later := by
        rw [List.mapM_cons] at hothers
        obtain ⟨second, -, hothers⟩ := Option.bind_eq_some_iff.1 hothers
        obtain ⟨later, -, hothers⟩ := Option.bind_eq_some_iff.1 hothers
        exact ⟨second, later, (Option.some.inj hothers).symm⟩
      obtain ⟨second, later, rfl⟩ := hcons
      rw [String.intercalate_cons_cons]
      show BeginsAs size (if size ≤ (item before x).utf8ByteSize then item before x
        else appendUntil size item (item before x ++ ", ") (y :: rest)) _
      split
      case isTrue hfull =>
        -- Nothing more is written. Behind so many bytes the texts may differ.
        have hmore := hbegins.append_of_le hfull "" (", " ++ ", ".intercalate (second :: later))
        simp only [String.append_empty, String.append_assoc] at hmore ⊢
        exact hmore
      case isFalse hroom =>
        -- So far the item has been written whole.
        have hwhole := hbegins.whole (Nat.lt_of_not_le fun hle => hroom (hbegins.size_le_iff.2 hle))
        rw [hwhole]
        have hmore : size ≤ (before ++ first ++ ", ").utf8ByteSize + depth := by
          simp only [String.utf8ByteSize_append]
          omega
        have hrest := ih hmore hothers
        simp only [String.append_assoc] at hrest ⊢
        exact hrest

theorem textWithin?_of_ne_list {h : Heap} {v : Value} (hv : ∀ id, v ≠ .list id) (depth depth' : Nat) :
    h.textWithin? depth v = h.textWithin? depth' v := by
  cases v with
  | list id => exact absurd rfl (hv id)
  | _ => cases depth <;> cases depth' <;> rfl

/-- Appends the text of an element of a list, or as much of it. -/
def elementAfter (h : Heap) (size depth : Nat) (before : String) : Value → String
  | .text value => before ++ quoted value
  | element => h.openingAfter size depth before element

theorem openingAfter_list (h : Heap) (size depth : Nat) (before : String) (id : ListId) :
    h.openingAfter size (depth + 1) before (.list id) =
      if size ≤ before.utf8ByteSize then before
      else appendUntil size (h.elementAfter size depth) (before ++ "[") (h.elements id).toList ++ "]" := rfl

/-- As far as so many bytes, the opening of a text agrees with the text. A byte is written for each level of nesting,
so the levels last as long as the bytes do. -/
theorem openingAfter_begins {h : Heap} {size depth lists : Nat} {before : String} {v : Value} {text : String}
    (hbefore : size ≤ before.utf8ByteSize + depth) (htext : h.textWithin? lists v = some text) :
    BeginsAs size (h.openingAfter size depth before v) (before ++ text) := by
  have hother {depth : Nat} {before : String} {v : Value} (hv : ∀ id, v ≠ .list id) {lists : Nat} {text : String}
      (htext : h.textWithin? lists v = some text) : BeginsAs size (h.openingAfter size depth before v) (before ++ text) := by
    rw [openingAfter_eq (.inr hv), textWithin?_of_ne_list hv depth lists, htext]
    exact .refl size _
  -- By the levels of nesting that are left. A bracket makes up for the level it opens, which keeps `hbefore`.
  induction depth generalizing lists before v text with
  | zero =>
    have hfull := (BeginsAs.refl size before).append_of_le hbefore ((h.textWithin? 0 v).getD "") text
    rwa [openingAfter_eq (.inl rfl)]
  | succ depth ih =>
    cases v with
    | list id =>
      cases lists with
      | zero => cases htext
      | succ lists =>
        rw [textWithin?_list] at htext
        obtain ⟨texts, htexts, rfl⟩ := Option.map_eq_some_iff.1 htext
        rw [openingAfter_list]
        split
        case isTrue hfull =>
          have hmore := (BeginsAs.refl size before).append_of_le hfull "" ("[" ++ ", ".intercalate texts ++ "]")
          rwa [String.append_empty] at hmore
        case isFalse =>
          have helement (before : String) (u : Value) (t : String) (hbefore : size ≤ before.utf8ByteSize + depth)
              (hu : h.elementText? lists u = some t) : BeginsAs size (h.elementAfter size depth before u) (before ++ t) := by
            cases u with
            | text value =>
              obtain rfl := Option.some.inj hu
              exact .refl size _
            | _ => exact ih hbefore hu
          have hbracket : size ≤ (before ++ "[").utf8ByteSize + depth := by
            rw [String.utf8ByteSize_append]
            have hbyte : "[".utf8ByteSize = 1 := rfl
            omega
          have hitems := (appendUntil_begins helement hbracket htexts).append "]"
          simp only [String.append_assoc] at hitems ⊢
          exact hitems
    | _ => exact hother (by rintro _ ⟨⟩) htext

/-- The opening of so many bytes of a text. -/
theorem opening_begins {h : Heap} {v : Value} {text : String} (htext : h.text? v = some text) (size : Nat) :
    BeginsAs size (h.opening size v) text := by
  have hbegins : BeginsAs size (h.openingAfter size size "" v) ("" ++ text) :=
    openingAfter_begins (Nat.le_add_left size _) htext
  rwa [String.empty_append] at hbegins

end Heap

/-! ## Lines -/

/-- A sink without a limit accepts everything. -/
theorem Transcript.writeText_of_unlimited {t : Transcript} (h : t.room = none) (origin : Origin) (text : String) :
    (t.writeText origin text).1 = true := by
  simp [writeText, write, h]

namespace Run

theorem write_bind {α : Type} (origin : Origin) (text : String) (k : Bool → Run α) (m : Machine) :
    (write origin text >>= k) m =
      k (m.output.writeText origin text).1 { m with output := (m.output.writeText origin text).2 } := rfl

theorem writeLine_of_line {m : Machine} {v : Value} {line : String} (hline : lineOf? m v = some line) (origin : Origin) :
    writeLine origin v m =
      if (m.output.writeText origin line).1 then .ok () { m with output := (m.output.writeText origin line).2 }
      else .error (.fault .output) { m with output := (m.output.writeText origin line).2 } := by
  unfold writeLine
  rw [get_bind, hline]
  dsimp only
  rw [write_bind]
  cases (m.output.writeText origin line).1 <;> rfl

theorem writeLine_of_endless {m : Machine} {v : Value} (hline : lineOf? m v = none) (origin : Origin) :
    writeLine origin v m = .error .unfinished m := by
  unfold writeLine
  rw [get_bind, hline]
  rfl

/-- A value with a text is written on a line to a sink that takes everything. -/
theorem writeLine_of_unlimited {m : Machine} (hroom : m.output.room = none) {v : Value} {text : String}
    (htext : m.heap.text? v = some text) (origin : Origin) :
    writeLine origin v m = .ok () { m with output := (m.output.writeText origin (text ++ "\n")).2 } := by
  have hline : lineOf? m v = some (text ++ "\n") := by rw [lineOf?, hroom, htext]; rfl
  rw [writeLine_of_line hline, if_pos (Transcript.writeText_of_unlimited hroom origin _)]

end Run

end TreeWalk
