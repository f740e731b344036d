/-!
# Forms in parentheses

The text of a form of words, strings between quotes and smaller forms in parentheses. Neither words nor strings are
escaped. And yet the form can be told from its text, if no word has a space, a parenthesis or a quote in it, and no
string has a quote (`Form.text_inj`).
-/

namespace TreeWalk

/-- A word, a string or several forms in parentheses. -/
inductive Form where
  | word (text : String)
  | quoted (text : String)
  | group (parts : List Form)

namespace Form

mutual

/-- The characters of a form. -/
def text : Form → List Char
  | word text => text.toList
  | quoted text => '"' :: (text.toList ++ ['"'])
  | group [] => ['(', ')']
  | group (first :: rest) => '(' :: (first.text ++ closing rest)

/-- The forms in order, each behind a space, and the parenthesis behind them. -/
def closing : List Form → List Char
  | [] => [')']
  | first :: rest => ' ' :: (first.text ++ closing rest)

end

/-- The character may stand in a word. -/
def InWord (c : Char) : Prop := c ≠ ' ' ∧ c ≠ '(' ∧ c ≠ ')' ∧ c ≠ '"'

instance : DecidablePred InWord := fun _ => inferInstanceAs (Decidable (_ ∧ _))

/-- The ends of words and strings can be told. -/
inductive Legible : Form → Prop where
  | word {text : String} (hnonempty : text.toList ≠ []) (h : ∀ c ∈ text.toList, InWord c) : Legible (word text)
  | quoted {text : String} (h : '"' ∉ text.toList) : Legible (quoted text)
  | group {parts : List Form} (h : ∀ part ∈ parts, part.Legible) : Legible (group parts)

/-- What may stand behind a form. -/
def Follows (rest : List Char) : Prop := ∀ c ∈ rest.head?, ¬ InWord c

/-- If all characters of a kind come first and then one that is not of the kind, the place in between can be told. -/
theorem split_inj {p : Char → Prop} [DecidablePred p] {xs ys rest rest' : List Char} (hxs : ∀ c ∈ xs, p c)
    (hys : ∀ c ∈ ys, p c) (hrest : ∀ c ∈ rest.head?, ¬ p c) (hrest' : ∀ c ∈ rest'.head?, ¬ p c)
    (h : xs ++ rest = ys ++ rest') : xs = ys ∧ rest = rest' := by
  have hsplit {xs rest : List Char} (hxs : ∀ c ∈ xs, p c) (hrest : ∀ c ∈ rest.head?, ¬ p c) :
      (xs ++ rest).takeWhile p = xs := by
    rw [List.takeWhile_append_of_pos (by simpa using hxs)]
    cases rest with
    | nil => simp
    | cons c rest => simp [hrest c rfl]
  obtain rfl : xs = ys := by rw [← hsplit hxs hrest, h, hsplit hys hrest']
  exact ⟨rfl, List.append_cancel_left h⟩

theorem follows_nil : Follows [] := by simp [Follows]

theorem follows_closing (parts : List Form) (rest : List Char) : Follows (closing parts ++ rest) := by
  cases parts with
  | nil => simp [closing, Follows, InWord]
  | cons part parts => simp [closing, Follows, InWord]

theorem closing_inj {parts parts' : List Form} {rest rest' : List Char}
    (hpart : ∀ part ∈ parts, ∀ part' ∈ parts', ∀ {rest rest' : List Char}, Follows rest → Follows rest' →
      part.text ++ rest = part'.text ++ rest' → part = part' ∧ rest = rest')
    (h : closing parts ++ rest = closing parts' ++ rest') : parts = parts' ∧ rest = rest' := by
  induction parts generalizing parts' with
  | nil =>
    cases parts' with
    | nil => simpa [closing] using h
    | cons part' parts' => simp [closing] at h
  | cons part parts ih =>
    cases parts' with
    | nil => simp [closing] at h
    | cons part' parts' =>
      simp only [closing, List.cons_append, List.append_assoc, List.cons.injEq, true_and] at h
      obtain ⟨rfl, hclosing⟩ := hpart part List.mem_cons_self part' List.mem_cons_self (follows_closing parts rest)
        (follows_closing parts' rest') h
      obtain ⟨rfl, rfl⟩ := ih (fun p hp p' hp' => hpart p (.tail _ hp) p' (.tail _ hp')) hclosing
      exact ⟨rfl, rfl⟩

/-- The first character tells the kind of a form. -/
theorem ne_of_head {text xs ys : List Char} {c : Char} (hnonempty : text ≠ []) (hword : ∀ c ∈ text, InWord c)
    (hc : ¬ InWord c) : text ++ xs ≠ c :: ys := by
  obtain ⟨first, others, rfl⟩ := List.exists_cons_of_ne_nil hnonempty
  intro h
  exact hc ((List.cons.inj h).1 ▸ hword first List.mem_cons_self)

theorem text_group (parts : List Form) : ∃ inside, (group parts).text = '(' :: inside := by
  cases parts <;> exact ⟨_, rfl⟩

theorem Legible.ne_close {form : Form} (h : form.Legible) {xs ys : List Char} : form.text ++ xs ≠ ')' :: ys := by
  cases h with
  | word hnonempty hword => exact ne_of_head hnonempty hword (by decide)
  | quoted => simp [Form.text]
  | @group parts =>
    obtain ⟨inside, hinside⟩ := text_group parts
    simp [hinside]

/-- A form can be told from its text, also where more follows. -/
theorem text_inj {form form' : Form} (hform : form.Legible) (hform' : form'.Legible) {rest rest' : List Char}
    (hrest : Follows rest) (hrest' : Follows rest') (h : form.text ++ rest = form'.text ++ rest') :
    form = form' ∧ rest = rest' := by
  -- What follows is generalized, for behind a part of a group stands the rest of the group.
  induction hform generalizing form' rest rest' with
  | @word text hnonempty hword =>
    cases hform' with
    | word _ hword' =>
      obtain ⟨htext, rfl⟩ := split_inj hword hword' hrest hrest' h
      exact ⟨congrArg _ (String.toList_inj.1 htext), rfl⟩
    | quoted => exact absurd h (ne_of_head hnonempty hword (by decide))
    | @group parts' =>
      obtain ⟨inside, hinside⟩ := text_group parts'
      rw [hinside] at h
      exact absurd h (ne_of_head hnonempty hword (by decide))
  | @quoted text hquote =>
    cases hform' with
    | word hnonempty hword => exact absurd h.symm (ne_of_head hnonempty hword (by decide))
    | @quoted text' hquote' =>
      simp only [Form.text, List.cons_append, List.append_assoc, List.cons.injEq, true_and] at h
      have hopen {text : String} (hquote : '"' ∉ text.toList) (c : Char) (hc : c ∈ text.toList) : c ≠ '"' :=
        fun heq => hquote (heq ▸ hc)
      obtain ⟨htext, hclosed⟩ := split_inj (hopen hquote) (hopen hquote') (by simp) (by simp) h
      exact ⟨congrArg _ (String.toList_inj.1 htext), by simpa using hclosed⟩
    | @group parts' =>
      obtain ⟨inside, hinside⟩ := text_group parts'
      rw [hinside] at h
      simp [Form.text] at h
  | @group parts hparts ih =>
    obtain ⟨inside, hinside⟩ := text_group parts
    cases hform' with
    | word hnonempty hword =>
      rw [hinside] at h
      exact absurd h.symm (ne_of_head hnonempty hword (by decide))
    | quoted =>
      rw [hinside] at h
      simp [Form.text] at h
    | @group parts' hparts' =>
      cases parts with
      | nil =>
        cases parts' with
        | nil => simpa [Form.text] using h
        | cons part' parts' =>
          simp only [Form.text, List.cons_append, List.append_assoc, List.cons.injEq, true_and] at h
          exact absurd h.symm ((hparts' part' List.mem_cons_self).ne_close)
      | cons part parts =>
        cases parts' with
        | nil =>
          simp only [Form.text, List.cons_append, List.append_assoc, List.cons.injEq, true_and] at h
          exact absurd h ((hparts part List.mem_cons_self).ne_close)
        | cons part' parts' =>
          simp only [Form.text, List.cons_append, List.append_assoc, List.cons.injEq, true_and] at h
          obtain ⟨rfl, hclosing⟩ := ih part List.mem_cons_self (hparts' part' List.mem_cons_self)
            (follows_closing parts rest) (follows_closing parts' rest') h
          obtain ⟨rfl, rfl⟩ := closing_inj (fun p hp p' hp' => ih p (.tail _ hp) (hparts' p' (.tail _ hp'))) hclosing
          exact ⟨rfl, rfl⟩

end Form

end TreeWalk
