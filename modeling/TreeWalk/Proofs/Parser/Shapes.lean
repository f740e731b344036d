import TreeWalk.Proofs.Parser.Flattening
import TreeWalk.Proofs.Parser.Progress

/-!
# What is read is shaped

An expression that is read without error keeps to the precedence of its operators, and its tokens are those
that have been read.
-/

namespace TreeWalk

open TreeWalk.Parser TreeWalk.Grammar

/-- From the one state to the other tokens that say this have been read, and no others. -/
def Consumed (words : List Token) (s s' : ParserState) : Prop :=
  ∃ ts, s.tokens = ts ++ s'.tokens ∧ ts.map Token.word = words

namespace Consumed

variable {s s' s'' : ParserState} {xs ys : List Token}

theorem nil (h : s'.tokens = s.tokens) : Consumed [] s s' := ⟨[], h.symm, rfl⟩

theorem append (h : Consumed xs s s') (h' : Consumed ys s' s'') : Consumed (xs ++ ys) s s'' := by
  obtain ⟨ts, htokens, rfl⟩ := h
  obtain ⟨us, htokens', rfl⟩ := h'
  exact ⟨ts ++ us, by rw [htokens, htokens', List.append_assoc], List.map_append⟩

theorem cons {t word : Token} {rest : List Token} (htokens : s.tokens = t :: rest) (hword : t.word = word)
    (h : Consumed xs { s with tokens := rest } s') : Consumed (word :: xs) s s' := by
  obtain ⟨ts, hrest, rfl⟩ := h
  exact ⟨t :: ts, by rw [htokens, List.cons_append, ← hrest], by rw [List.map_cons, hword]⟩

end Consumed

/-- Fewer than so many tokens are left, and all of them might have been scanned. -/
structure Legible (n : Nat) (s : ParserState) : Prop where
  short : s.tokens.length < n
  scanned : ∀ t ∈ s.tokens, t.Scanned

namespace Legible

variable {n : Nat} {s s' : ParserState}

theorem later (h : Legible n s) (hlater : Later s s') : Legible n s' :=
  ⟨Nat.lt_of_le_of_lt hlater.length_le h.short, fun t ht => h.scanned t (hlater.tokens.subset ht)⟩

theorem next (h : Legible (n + 1) s) {t : Token} {rest : List Token} (htokens : s.tokens = t :: rest) :
    t.Scanned ∧ Legible n { s with tokens := rest } := by
  have hshort := h.short
  have hscanned := h.scanned
  rw [htokens] at hshort hscanned
  obtain ⟨ht, hrest⟩ := List.forall_mem_cons.1 hscanned
  exact ⟨ht, Nat.lt_of_succ_lt_succ hshort, hrest⟩

theorem le (h : Legible (n + 1) s) : s.tokens.length ≤ n := Nat.le_of_lt_succ h.short

end Legible

/-! ## Single tokens -/

section Tokens

variable {n : Nat} {s : ParserState}

theorem expect_consumes (h : Legible n s) {kind : TokenKind} (hfixed : kind.isFixed) (what : String) :
    Ends s (fun _ s' => Consumed [.fixed kind] s s') (expect kind what s) := by
  apply ends_accept
  · intro _
    exact Ends.fail _ _
  · intro t rest htokens hkind
    have ht : t.Scanned := h.scanned t (by simp [htokens])
    exact .pure (.cons htokens (ht.word_fixed hkind hfixed) (.nil rfl))

theorem Token.Scanned.word_name {t : Token} (ht : t.Scanned) (hkind : t.kind = .identifier) :
    t.word = Name.token ⟨t.lexeme, t.line⟩ := by
  rw [ht.word_eq (by simp [hkind]) (by simp [hkind]), hkind]
  rfl

theorem expectName_consumes (h : Legible n s) (what : String) :
    Ends s (fun name s' => Consumed [name.token] s s') (expectName what s) := by
  unfold expectName expect
  rw [bind_assoc]
  apply ends_accept
  · intro _
    exact Ends.fail _ _
  · intro t rest htokens hkind
    have ht : t.Scanned := h.scanned t (by simp [htokens])
    exact .pure (.cons htokens (ht.word_name hkind) (.nil rfl))

theorem fresh_keeps (s : ParserState) : Ends s (fun _ s' => s'.tokens = s.tokens) (fresh s) :=
  ⟨⟨List.suffix_refl _, rfl, rfl, List.prefix_refl _, Nat.le_succ _⟩, rfl⟩

theorem reference_keeps (name : Name) (s : ParserState) :
    Ends s (fun use s' => use.name = name ∧ s'.tokens = s.tokens) (reference name s) :=
  (fresh_keeps s).bind fun _ _ _ htokens => .pure ⟨rfl, htokens⟩

end Tokens

/-! ## Expressions -/

/-- If neither an error was recorded nor a function read, the expression is at least as tight as stated, it keeps to
the precedence, and its tokens have been read. -/
def Flattens (level : Nat) (s : ParserState) (e : Expr) (s' : ParserState) : Prop :=
  s'.errors = s.errors → e.Functionless → Consumed e.flatten s s' ∧ e.Shaped ∧ level ≤ e.level

theorem Flattens.mono {level level' : Nat} {s s' : ParserState} {e : Expr} (h : Flattens level s e s')
    (hlevel : level' ≤ level) : Flattens level' s e s' := by
  intro hclean hfree
  obtain ⟨hconsumed, hshaped, hle⟩ := h hclean hfree
  exact ⟨hconsumed, hshaped, Nat.le_trans hlevel hle⟩

/-- What the rules inside others read of fewer tokens. -/
structure Rules.Flatten (r : Rules) (n : Nat) : Prop where
  expression : ∀ s, Legible n s → Ends s (Flattens 1 s) (r.expression s)
  conditional : ∀ s, Legible n s → Ends s (Flattens 2 s) (r.conditional s)
  unary : ∀ s, Legible n s → Ends s (Flattens 9 s) (r.unary s)

/-- The same of expressions between commas, of which there is room for more behind `count` others. -/
def FlattensAll (tooMany : Option SyntaxCause) (count : Nat) (s : ParserState) (es : List Expr) (s' : ParserState) : Prop :=
  s'.errors = s.errors → (∀ e ∈ es, e.Functionless) →
    Consumed (commaSeparated (Expr.flattenAll es)) s s' ∧ (∀ e ∈ es, e.Shaped) ∧
      (tooMany.isSome → count ≤ maxItems → count + es.length ≤ maxItems)

section Lists

variable {n : Nat} {item : Parser Expr} {tooMany : Option SyntaxCause} {s : ParserState}

/-- There is room for the first item, and what is behind it has been read. -/
theorem FlattensAll.cons {count : Nat} {first : Expr} {es : List Expr} {s₁ s₂ : ParserState} {t : Token}
    {rest : List Token} (hfirst : Flattens 1 s first s₁) (hlater : Later s s₁) (htokens : s₁.tokens = t :: rest)
    (hword : t.word = .fixed .comma) (hrest : FlattensAll tooMany (count + 1) { s₁ with tokens := rest } es s₂)
    (hlater' : Later { s₁ with tokens := rest } s₂) (hes : es ≠ []) (hroom : tooMany.isSome → count ≠ maxItems) :
    FlattensAll tooMany count s (first :: es) s₂ := by
  intro hclean hfree
  obtain ⟨hfreeFirst, hfreeRest⟩ := List.forall_mem_cons.1 hfree
  obtain ⟨hc, hc'⟩ := hlater.clean ((later_next htokens).trans hlater') hclean
  obtain ⟨hconsumed, hshaped, -⟩ := hfirst hc hfreeFirst
  obtain ⟨hconsumed', hshaped', hcount⟩ := hrest hc' hfreeRest
  obtain ⟨next, es, rfl⟩ := List.exists_cons_of_ne_nil hes
  refine ⟨?_, List.forall_mem_cons.2 ⟨hshaped, hshaped'⟩, fun hmany hle => ?_⟩
  · simp only [Expr.flattenAll, commaSeparated_cons_cons]
    exact hconsumed.append (hconsumed'.cons htokens hword)
  · have := hcount hmany (Nat.lt_of_le_of_ne hle (hroom hmany))
    simp only [List.length_cons] at this ⊢
    omega

/-- A round reads an item, and what else there is from where a comma is behind it. -/
theorem commaRound_flattens (hitem : ∀ s, Legible n s → Ends s (Flattens 1 s) (item s)) {others : Parser (List Expr)}
    {count : Nat} (h : Legible n s)
    (hothers : ∀ s', Legible n s' → s'.tokens.length < s.tokens.length →
      Ends s' (fun es s'' => es ≠ [] ∧ FlattensAll tooMany (count + 1) s' es s'') (others s')) :
    Ends s (fun es s' => es ≠ [] ∧ ((tooMany.isSome → count ≠ maxItems) → FlattensAll tooMany count s es s'))
      (commaRound item others s) := by
  apply (hitem s h).bind
  intro first s₁ hlater hfirst
  apply ends_accept
  · intro _
    refine .pure ⟨by simp, fun hroom hclean hfree => ?_⟩
    obtain ⟨hconsumed, hshaped, -⟩ := hfirst hclean (hfree first (by simp))
    refine ⟨by simpa [Expr.flattenAll] using hconsumed, by simpa using hshaped, fun hmany hle => ?_⟩
    exact Nat.lt_of_le_of_ne hle (hroom hmany)
  · intro t rest htokens hkind
    have hlegible := h.later (hlater.trans (later_next htokens))
    have hshort := hlater.length_le
    rw [htokens, List.length_cons] at hshort
    apply (hothers { s₁ with tokens := rest } hlegible hshort).bind
    intro es s₂ hlater₂ hes
    have ht : t.Scanned := (h.later hlater).scanned t (by simp [htokens])
    exact .pure ⟨by simp, .cons hfirst hlater htokens (ht.word_fixed hkind rfl) hes.2 hlater₂ hes.1⟩

theorem commaItems_flattens (hitem : ∀ s, Legible n s → Ends s (Flattens 1 s) (item s)) {bound count : Nat}
    (hbound : s.tokens.length < bound) (h : Legible n s) :
    Ends s (fun es s' => es ≠ [] ∧ FlattensAll tooMany count s es s') (commaItems item tooMany bound count s) := by
  induction bound generalizing s count with
  | zero => exact absurd hbound (Nat.not_lt_zero _)
  | succ bound ih =>
    have hround (s₁ : ParserState) (hlater : Later s s₁) (hsame : s₁.tokens = s.tokens) :
        Ends s₁ (fun es s' => es ≠ [] ∧ ((tooMany.isSome → count ≠ maxItems) → FlattensAll tooMany count s₁ es s'))
          (commaRound item (commaItems item tooMany bound (count + 1)) s₁) := by
      apply commaRound_flattens hitem (h.later hlater)
      intro s₂ hlegible hshort
      rw [hsame] at hshort
      exact ih (by omega) hlegible
    cases tooMany with
    | none => exact (hround s (.refl s) rfl).mono fun es s' _ hes => ⟨hes.1, hes.2 (by simp)⟩
    | some cause =>
      by_cases hfull : count = maxItems
      · -- The complaint is an error, and then nothing is said of the items.
        simp only [commaItems, hfull, beq_self_eq_true, if_true]
        let s₁ : ParserState := { s with errors := s.errors ++ [⟨s.tokens.head?.getD (.endOfInput s.endLine), cause⟩] }
        have hreport : Later s s₁ := report_later _ cause s
        have hitems := hround s₁ hreport rfl
        rw [hfull] at hitems
        apply Ends.behind hreport
        apply hitems.mono
        intro es s' hlater hes
        refine ⟨hes.1, fun hclean => ?_⟩
        have := (hreport.clean hlater hclean).1
        simp [s₁] at this
      · simp only [commaItems, beq_iff_eq, hfull, if_false]
        exact (hround s (.refl s) rfl).mono fun es s' _ hes => ⟨hes.1, hes.2 fun _ => hfull⟩

theorem commaList_flattens (hitem : ∀ s, Legible n s → Ends s (Flattens 1 s) (item s)) (closing : TokenKind)
    (h : Legible n s) : Ends s (FlattensAll tooMany 0 s) (commaList item tooMany closing s) := by
  show Ends s _ (ite (s.tokens.head?.any (·.kind == closing) = true) (pure [])
    (remaining >>= fun left => commaItems item tooMany (left + 1) 0) s)
  split
  · exact .pure fun _ _ => ⟨.nil rfl, by simp, fun _ _ => Nat.zero_le _⟩
  · exact (commaItems_flattens hitem (Nat.lt_succ_self _) h).mono fun es s' _ hes => hes.2

end Lists

section Rules

variable {r : Rules} {n : Nat} {s : ParserState}

theorem primary_flattens (hr : r.Sound n) (hf : r.Flatten n) (h : Legible (n + 1) s) :
    Ends s (Flattens 10 s) (primary r s) := by
  rw [primary, bind_current]
  rcases htokens : s.tokens with _ | ⟨t, rest⟩
  · exact Ends.fail _ _
  obtain ⟨ht, hrest⟩ := h.next htokens
  -- Everything but a function is as tight as can be.
  have hread {e : Expr} {s' : ParserState} {word : Token} {words : List Token} (hword : t.word = word)
      (hconsumed : Consumed words { s with tokens := rest } s') (hflatten : e.flatten = word :: words) (hshaped : e.Shaped)
      (hlevel : 10 ≤ e.level) : Flattens 10 s e s' := fun _ _ =>
    ⟨hflatten ▸ hconsumed.cons htokens hword, hshaped, hlevel⟩
  simp only [List.head?_cons, Option.getD_some]
  cases hkind : t.kind with
  | falseKeyword | trueKeyword | nilKeyword =>
    apply ends_advance htokens
    exact .pure (hread (ht.word_fixed hkind rfl) (.nil rfl) rfl (.literal _) (Nat.le_refl _))
  | number =>
    apply ends_advance htokens
    obtain ⟨value, hliteral⟩ := ht.number hkind
    have hword : t.word = (Literal.number value).token := by
      simp [Token.word, Literal.token, hkind, hliteral]
    rw [hliteral]
    exact .pure (hread hword (.nil rfl) rfl (.literal _) (Nat.le_refl _))
  | string =>
    apply ends_advance htokens
    obtain ⟨text, hliteral, hlexeme, -⟩ := ht.string hkind
    have hword : t.word = (Literal.text text).token := by
      simp [Token.word, Literal.token, hkind, hliteral, hlexeme]
    rw [hliteral]
    exact .pure (hread hword (.nil rfl) rfl (.literal _) (Nat.le_refl _))
  | thisKeyword =>
    apply ends_advance htokens
    apply (fresh_keeps _).bind
    intro id s₁ _ hsame
    exact .pure (hread (ht.word_fixed hkind rfl) (.nil hsame) rfl (.this id _) (Nat.le_refl _))
  | parentKeyword =>
    apply ends_advance htokens
    apply (expect_consumes hrest rfl _).bind
    intro _ s₁ hlater₁ hdot
    apply (expectName_consumes (hrest.later hlater₁) _).bind
    intro method s₂ hlater₂ hmethod
    apply (fresh_keeps s₂).bind
    intro id s₃ _ hsame
    have hword : t.word = ⟨.parentKeyword, t.lexeme, none, 0⟩ := by
      rw [ht.word_eq (by simp [hkind]) (by simp [hkind]), hkind]
    exact .pure (hread hword (hdot.append (hmethod.append (.nil hsame))) rfl (.parent id _ method) (Nat.le_refl _))
  | identifier =>
    apply ends_advance htokens
    apply (reference_keeps _ _).bind
    rintro use s₁ - ⟨hname, hsame⟩
    have hflatten : (Expr.variable use).flatten = [Name.token ⟨t.lexeme, t.line⟩] := by rw [Expr.flatten, hname]
    exact .pure (hread (ht.word_name hkind) (.nil hsame) hflatten (.variable use) (Nat.le_refl _))
  | leftParen =>
    apply ends_advance htokens
    apply (hf.expression _ hrest).bind
    intro inner s₁ hlater₁ hinner
    apply (expect_consumes (hrest.later hlater₁) rfl _).bind
    intro _ s₂ hlater₂ hclose
    refine .pure fun hclean hfree => ?_
    obtain ⟨hc, -⟩ := hlater₁.clean hlater₂ hclean
    obtain ⟨hconsumed, hshaped, -⟩ := hinner hc (hfree.child (by simp [Node.children, Node.parts]))
    exact hread (ht.word_fixed hkind rfl) (hconsumed.append hclose) rfl (.group hshaped) (Nat.le_refl _) hclean hfree
  | funKeyword =>
    apply ends_advance htokens
    apply (function_ends hr .function hrest.short.le).bind
    intro f s₁ _ _
    exact .pure fun _ hfree => absurd hfree (Expr.not_functionless f)
  | leftBracket =>
    apply ends_advance htokens
    apply (commaList_flattens hf.expression _ hrest).bind
    intro elements s₁ hlater₁ helements
    apply (expect_consumes (hrest.later hlater₁) rfl _).bind
    intro _ s₂ hlater₂ hclose
    refine .pure fun hclean hfree => ?_
    obtain ⟨hc, -⟩ := hlater₁.clean hlater₂ hclean
    obtain ⟨hconsumed, hshaped, -⟩ := helements hc fun e he => hfree.child (by simpa using he)
    exact hread (ht.word_fixed hkind rfl) (hconsumed.append hclose) rfl (.list hshaped) (Nat.le_refl _) hclean hfree
  | bangEqual | equalEqual | greater | greaterEqual | less | lessEqual | plus | star | slash =>
    exact missingOperand_ends hr htokens h.le
  | _ => exact Ends.fail _ _

/-- A suffix behind what can be called makes something that can be called. -/
theorem suffix_flattens (hf : r.Flatten n) {s₁ : ParserState} {target : Expr} (hlater : Later s s₁)
    (htarget : Flattens 10 s target s₁) {t : Token} {rest : List Token} (htokens : s₁.tokens = t :: rest)
    (h : Legible (n + 1) s₁) (hopens : opensSuffix t.kind) :
    Ends { s₁ with tokens := rest } (Flattens 10 s) (suffix r target t { s₁ with tokens := rest }) := by
  obtain ⟨ht, hrest⟩ := h.next htokens
  have hclean {s' : ParserState} (hlater' : Later { s₁ with tokens := rest } s') (hclean : s'.errors = s.errors) :
      s₁.errors = s.errors ∧ s'.errors = s₁.errors := hlater.clean ((later_next htokens).trans hlater') hclean
  unfold suffix
  cases hkind : t.kind with
  | leftParen =>
    apply (commaList_flattens hf.expression _ hrest).bind
    intro arguments s₂ hlater₂ harguments
    apply (expect_consumes (hrest.later hlater₂) rfl _).bind
    intro closing s₃ hlater₃ hclose
    refine .pure fun hc hfree => ?_
    obtain ⟨hc₁, hc₃⟩ := hclean (hlater₂.trans hlater₃) hc
    obtain ⟨hc₂, -⟩ := hlater₂.clean hlater₃ hc₃
    obtain ⟨hconsumed, hshaped, hlevel⟩ := htarget hc₁ (hfree.child (by simp))
    obtain ⟨hconsumed', hshaped', hcount⟩ := harguments hc₂ fun e he => hfree.child (by simp [he])
    refine ⟨?_, .call hshaped hlevel hshaped' ?_, Nat.le_refl _⟩
    · exact hconsumed.append ((hconsumed'.append hclose).cons htokens (ht.word_fixed hkind rfl))
    · simpa using hcount rfl (Nat.zero_le _)
  | leftBracket =>
    apply (hf.expression _ hrest).bind
    intro position s₂ hlater₂ hposition
    apply (expect_consumes (hrest.later hlater₂) rfl _).bind
    intro _ s₃ hlater₃ hclose
    refine .pure fun hc hfree => ?_
    obtain ⟨hc₁, hc₃⟩ := hclean (hlater₂.trans hlater₃) hc
    obtain ⟨hc₂, -⟩ := hlater₂.clean hlater₃ hc₃
    obtain ⟨hconsumed, hshaped, hlevel⟩ := htarget hc₁ (hfree.child (by simp [Node.children, Node.parts]))
    obtain ⟨hconsumed', hshaped', -⟩ := hposition hc₂ (hfree.child (by simp [Node.children, Node.parts]))
    refine ⟨?_, .index hshaped hlevel hshaped', Nat.le_refl _⟩
    exact hconsumed.append ((hconsumed'.append hclose).cons htokens (ht.word_fixed hkind rfl))
  | dot =>
    apply (expectName_consumes hrest _).bind
    intro name s₂ hlater₂ hname
    refine .pure fun hc hfree => ?_
    obtain ⟨hc₁, -⟩ := hclean hlater₂ hc
    obtain ⟨hconsumed, hshaped, hlevel⟩ := htarget hc₁ (hfree.child (by simp [Node.children, Node.parts]))
    refine ⟨?_, .get hshaped hlevel, Nat.le_refl _⟩
    exact hconsumed.append (hname.cons htokens (ht.word_fixed hkind rfl))
  | _ => simp [hkind, opensSuffix] at hopens

theorem call_flattens (hr : r.Sound n) (hf : r.Flatten n) (h : Legible (n + 1) s) :
    Ends s (Flattens 10 s) (call r s) := by
  have hloop (bound : Nat) (target : Expr) (s₁ : ParserState) (hlater : Later s s₁) (htarget : Flattens 10 s target s₁) :
      Ends s₁ (Flattens 10 s) (suffixes r bound target s₁) := by
    induction bound generalizing target s₁ with
    | zero => exact .pure htarget
    | succ bound ih =>
      apply ends_acceptWhere
      · intro _
        exact .pure htarget
      · intro t rest t' htokens ht
        simp only [Option.ite_none_right_eq_some, Option.some.injEq] at ht
        obtain ⟨hopens, rfl⟩ := ht
        apply (suffix_flattens hf hlater htarget htokens (h.later hlater) hopens).bind
        intro target' s₂ hlater₂ htarget'
        exact ih target' s₂ (hlater.trans ((later_next htokens).trans hlater₂)) htarget'
  apply (primary_flattens hr hf h).bind
  intro target s₁ hlater htarget
  exact hloop s₁.tokens.length target s₁ hlater htarget

theorem unary_flattens (hr : r.Sound n) (hf : r.Flatten n) (h : Legible (n + 1) s) :
    Ends s (Flattens 9 s) (unary r s) := by
  apply ends_acceptWhere
  · intro _
    exact (call_flattens hr hf h).mono fun e s' _ he => he.mono (Nat.le_succ 9)
  · intro t rest op htokens hop
    obtain ⟨kind, hkind, rfl⟩ := Option.map_eq_some_iff.1 hop
    obtain ⟨ht, hrest⟩ := h.next htokens
    have htoken : kind.token = t.kind := by
      cases hsign : t.kind <;> simp [hsign, unaryKind] at hkind <;> subst hkind <;> rfl
    have hplain : t.kind ≠ .number ∧ t.kind ≠ .string := by cases kind <;> simp [← htoken, UnaryKind.token]
    apply (hf.unary _ hrest).bind
    intro operand s₂ _ hoperand
    refine .pure fun hclean hfree => ?_
    obtain ⟨hconsumed, hshaped, hlevel⟩ := hoperand hclean (hfree.child (by simp [Node.children, Node.parts]))
    have hword : t.word = Operator.token ⟨kind, t.lexeme, t.line⟩ kind.token := by
      rw [ht.word_eq hplain.1 hplain.2, htoken, Operator.token]
    exact ⟨hconsumed.cons htokens hword, .unary hshaped hlevel, Nat.le_refl _⟩

end Rules

/-! ## Operators between two operands -/

section Operators

variable {κ : Type} {operator : TokenKind → Option κ} {build : Expr → Operator κ → Expr → Expr} {operand : Parser Expr}
  {n level : Nat} {s : ParserState}

/-- The operators are those of a level, and what they build is shaped when the operands are. -/
structure Grouped (operator : TokenKind → Option κ) (build : Expr → Operator κ → Expr → Expr) (level : Nat) : Prop where
  children : ∀ left op right, (Node.expr (build left op right)).children = [.expr left, .expr right]
  flatten : ∀ left right kind (t : Token), t.Scanned → operator t.kind = some kind →
    (build left ⟨kind, t.lexeme, t.line⟩ right).flatten = left.flatten ++ t.word :: right.flatten
  tight : ∀ left right kind token lexeme line, operator token = some kind →
    (build left ⟨kind, lexeme, line⟩ right).level = level
  shaped : ∀ left right kind token lexeme line, operator token = some kind → left.Shaped → right.Shaped →
    level ≤ left.level → level < right.level → (build left ⟨kind, lexeme, line⟩ right).Shaped

theorem leftAssociative_flattens (hbuild : Grouped operator build level)
    (hoperand : ∀ s, Legible (n + 1) s → Ends s (Flattens (level + 1) s) (operand s)) (h : Legible (n + 1) s) :
    Ends s (Flattens level s) (leftAssociative operator build operand s) := by
  -- Behind the operands so far, the loop reads the rest.
  have hloop (bound : Nat) (left : Expr) (s₁ : ParserState) (hlater : Later s s₁) (hleft : Flattens level s left s₁) :
      Ends s₁ (Flattens level s) (leftGrouped operator build operand bound left s₁) := by
    induction bound generalizing left s₁ with
    | zero => exact .pure hleft
    | succ bound ih =>
      apply ends_acceptWhere
      · intro _
        exact .pure hleft
      · intro t rest op htokens hop
        obtain ⟨kind, hkind, rfl⟩ := Option.map_eq_some_iff.1 hop
        have ht : t.Scanned := (h.later hlater).scanned t (by simp [htokens])
        apply (hoperand _ (h.later (hlater.trans (later_next htokens)))).bind
        intro right s₂ hlater₂ hright
        apply ih _ s₂ (hlater.trans ((later_next htokens).trans hlater₂))
        intro hclean hfree
        obtain ⟨hc, hc'⟩ := hlater.clean ((later_next htokens).trans hlater₂) hclean
        obtain ⟨hconsumed, hshaped, hlevel⟩ := hleft hc (hfree.child (by simp [hbuild.children]))
        obtain ⟨hconsumed', hshaped', hlevel'⟩ := hright hc' (hfree.child (by simp [hbuild.children]))
        refine ⟨?_, hbuild.shaped _ _ _ _ _ _ hkind hshaped hshaped' hlevel hlevel',
          (hbuild.tight _ _ _ _ _ _ hkind).ge⟩
        rw [hbuild.flatten _ _ _ t ht hkind]
        exact hconsumed.append (hconsumed'.cons htokens rfl)
  apply (hoperand s h).bind
  intro first s₁ hlater hfirst
  exact hloop s₁.tokens.length first s₁ hlater (hfirst.mono (Nat.le_succ _))

theorem grouped_binary {operator : TokenKind → Option TokenKind}
    (hoperator : ∀ token, ∀ kind ∈ operator token,
      kind = token ∧ (BinaryKind.ofToken? token).isSome ∧ tightness token = level) :
    Grouped operator Expr.binary level where
  children _ _ _ := rfl
  flatten left right kind t ht hkind := by
    obtain ⟨rfl, hop, -⟩ := hoperator t.kind kind hkind
    have hplain : t.kind ≠ .number ∧ t.kind ≠ .string := by
      constructor <;> intro hkind <;> simp [hkind, BinaryKind.ofToken?] at hop
    rw [Expr.flatten, ht.word_eq hplain.1 hplain.2, Operator.token]
  tight left right kind token lexeme line hkind := by
    obtain ⟨rfl, -, htight⟩ := hoperator token kind hkind
    exact htight
  shaped left right kind token lexeme line hkind hleft hright hl hr := by
    obtain ⟨rfl, hop, htight⟩ := hoperator token kind hkind
    exact .binary hop hleft hright (htight ▸ hl) (htight ▸ hr)

theorem grouped_logical {operator : TokenKind → Option LogicalKind}
    (hoperator : ∀ token, ∀ kind ∈ operator token, kind.token = token ∧ tightness token = level) :
    Grouped operator Expr.logical level where
  children _ _ _ := rfl
  flatten left right kind t ht hkind := by
    obtain ⟨htoken, -⟩ := hoperator t.kind kind hkind
    have hplain : t.kind ≠ .number ∧ t.kind ≠ .string := by cases kind <;> simp [← htoken, LogicalKind.token]
    rw [Expr.flatten, ht.word_eq hplain.1 hplain.2, Operator.token, htoken]
  tight left right kind token lexeme line hkind := by
    obtain ⟨rfl, htight⟩ := hoperator token kind hkind
    exact htight
  shaped left right kind token lexeme line hkind hleft hright hl hr := by
    obtain ⟨rfl, htight⟩ := hoperator token kind hkind
    exact .logical hleft hright (htight ▸ hl) (htight ▸ hr)

end Operators

section Rules

variable {r : Rules} {n : Nat} {s : ParserState}

theorem disjunction_flattens (hr : r.Sound n) (hf : r.Flatten n) (h : Legible (n + 1) s) :
    Ends s (Flattens 3 s) (disjunction r s) := by
  have hfactor (s : ParserState) (h : Legible (n + 1) s) : Ends s (Flattens 8 s) (factor r s) :=
    leftAssociative_flattens (grouped_binary fun token => by cases token <;> decide) (fun _ => unary_flattens hr hf) h
  have hterm (s : ParserState) (h : Legible (n + 1) s) : Ends s (Flattens 7 s) (term r s) :=
    leftAssociative_flattens (grouped_binary fun token => by cases token <;> decide) hfactor h
  have hcomparison (s : ParserState) (h : Legible (n + 1) s) : Ends s (Flattens 6 s) (comparison r s) :=
    leftAssociative_flattens (grouped_binary fun token => by cases token <;> decide) hterm h
  have hequality (s : ParserState) (h : Legible (n + 1) s) : Ends s (Flattens 5 s) (equality r s) :=
    leftAssociative_flattens (grouped_binary fun token => by cases token <;> decide) hcomparison h
  have hconjunction (s : ParserState) (h : Legible (n + 1) s) : Ends s (Flattens 4 s) (conjunction r s) :=
    leftAssociative_flattens (grouped_logical fun token => by cases token <;> decide) hequality h
  exact leftAssociative_flattens (grouped_logical fun token => by cases token <;> decide) hconjunction h

theorem conditional_flattens (hr : r.Sound n) (hf : r.Flatten n) (h : Legible (n + 1) s) :
    Ends s (Flattens 2 s) (conditional r s) := by
  apply (disjunction_flattens hr hf h).bind
  intro condition s₁ hlater₁ hcondition
  apply ends_accept
  · intro _
    exact .pure (hcondition.mono (Nat.le_succ 2))
  · intro t rest htokens hkind
    obtain ⟨ht, hrest⟩ := (h.later hlater₁).next htokens
    apply (hf.expression _ hrest).bind
    intro thenBranch s₂ hlater₂ hthen
    apply (expect_consumes (hrest.later hlater₂) rfl _).bind
    intro _ s₃ hlater₃ hcolon
    apply (hf.conditional s₃ (hrest.later (hlater₂.trans hlater₃))).bind
    intro elseBranch s₄ hlater₄ helse
    refine .pure fun hclean hfree => ?_
    obtain ⟨hc₁, hc⟩ := hlater₁.clean ((later_next htokens).trans (hlater₂.trans (hlater₃.trans hlater₄))) hclean
    obtain ⟨hc₂, hc⟩ := hlater₂.clean (hlater₃.trans hlater₄) hc
    obtain ⟨-, hc₄⟩ := hlater₃.clean hlater₄ hc
    obtain ⟨hconsumed₁, hshaped₁, hlevel₁⟩ := hcondition hc₁ (hfree.child (by simp [Node.children, Node.parts]))
    obtain ⟨hconsumed₂, hshaped₂, -⟩ := hthen hc₂ (hfree.child (by simp [Node.children, Node.parts]))
    obtain ⟨hconsumed₄, hshaped₄, hlevel₄⟩ := helse hc₄ (hfree.child (by simp [Node.children, Node.parts]))
    refine ⟨?_, .conditional hshaped₁ hshaped₂ hshaped₄ hlevel₁ hlevel₄, Nat.le_refl _⟩
    exact hconsumed₁.append ((hconsumed₂.append (hcolon.append hconsumed₄)).cons htokens (ht.word_fixed hkind rfl))

/-- The value has been read. What is left is to make the target that of an assignment. -/
theorem assignTo_flattens {target value : Expr} {t : Token} {s₁ s₂ : ParserState} {rest : List Token}
    (hlater₁ : Later s s₁) (htarget : Flattens 2 s target s₁) (htokens : s₁.tokens = t :: rest)
    (hword : t.word = .fixed .equal) (hlater₂ : Later { s₁ with tokens := rest } s₂)
    (hvalue : Flattens 1 { s₁ with tokens := rest } value s₂) :
    Ends s₂ (Flattens 1 s) (assignTo target t value s₂) := by
  have hlater := (later_next htokens).trans hlater₂
  -- The end of an assignment to a target that is none is an error.
  have hinvalid : Ends s₂ (Flattens 1 s) ((report t .invalidAssignmentTarget >>= fun _ => pure target) s₂) := by
    refine ⟨report_later t _ s₂, fun hclean => ?_⟩
    have := ((hlater₁.trans hlater).clean (report_later t .invalidAssignmentTarget s₂) hclean).2
    simp at this
  cases target with
  | «variable» use =>
    apply (reference_keeps use.name s₂).bind
    rintro use' s₃ hlater₃ ⟨hname, hsame⟩
    refine .pure fun hclean hfree => ?_
    obtain ⟨hc₁, hc⟩ := hlater₁.clean (hlater.trans hlater₃) hclean
    obtain ⟨hc₂, -⟩ := hlater.clean hlater₃ hc
    obtain ⟨hconsumed, -⟩ := htarget hc₁ (.intro (by simp) (by simp [Node.children, Node.parts]))
    obtain ⟨hconsumed', hshaped', -⟩ := hvalue hc₂ (hfree.child (by simp [Node.children, Node.parts]))
    refine ⟨?_, .assign hshaped', Nat.le_refl _⟩
    rw [Expr.flatten, hname]
    have hall := hconsumed.append ((hconsumed'.append (.nil hsame)).cons htokens hword)
    rwa [List.append_nil] at hall
  | get object name =>
    refine .pure fun hclean hfree => ?_
    obtain ⟨hc₁, hc₂⟩ := hlater₁.clean hlater hclean
    have hobject : object.Functionless := hfree.child (by simp [Node.children, Node.parts])
    have hget : (Expr.get object name).Functionless :=
      .intro (by simp) (by simpa [Node.children, Node.parts, Expr.Functionless] using hobject)
    obtain ⟨hconsumed, hshaped, -⟩ := htarget hc₁ hget
    obtain ⟨hconsumed', hshaped', -⟩ := hvalue hc₂ (hfree.child (by simp [Node.children, Node.parts]))
    cases hshaped with
    | get hshaped hlevel =>
      refine ⟨?_, .set hshaped hlevel hshaped', Nat.le_refl _⟩
      have hall := hconsumed.append (hconsumed'.cons htokens hword)
      simpa [Expr.flatten] using hall
  | _ => exact hinvalid

theorem expression_flattens (hr : r.Sound n) (hf : r.Flatten n) (h : Legible (n + 1) s) :
    Ends s (Flattens 1 s) (expression r s) := by
  apply (conditional_flattens hr hf h).bind
  intro target s₁ hlater₁ htarget
  apply ends_accept
  · intro _
    exact .pure (htarget.mono (Nat.le_succ 1))
  · intro t rest htokens hkind
    obtain ⟨ht, hrest⟩ := (h.later hlater₁).next htokens
    apply (hf.expression _ hrest).bind
    intro value s₂ hlater₂ hvalue
    exact assignTo_flattens hlater₁ htarget htokens (ht.word_fixed hkind rfl) hlater₂ hvalue

end Rules

theorem flatten_rules (levels : Nat) : (rules levels).Flatten levels := by
  induction levels with
  | zero => exact ⟨fun s h => absurd h.short (Nat.not_lt_zero _), fun s h => absurd h.short (Nat.not_lt_zero _),
      fun s h => absurd h.short (Nat.not_lt_zero _)⟩
  | succ levels ih =>
    have hsound := sound_rules levels
    exact
      { expression := fun s h => expression_flattens hsound ih h
        conditional := fun s h => conditional_flattens hsound ih h
        unary := fun s h => unary_flattens hsound ih h }

end TreeWalk
