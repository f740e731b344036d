import Mathlib
import TreeWalk.Proofs.Parser.Shapes

/-!
# Shaped expressions are read back

From the tokens of an expression that keeps to the precedence of its operators the same expression is read,
but for lines and ids. A parser that goes on in a loop behind an operand is followed up to the loop: the tokens
of an operand lead to it, those of an operator and another operand keep it going, and any other token
ends it.
-/

namespace TreeWalk

open TreeWalk.Parser TreeWalk.Grammar

/-- Everything on one line, and all ids the same. -/
def Relabeling.blank : Relabeling := ⟨fun _ => 0, fun _ => 0⟩

@[simp] theorem Relabeling.blank_id (id : NodeId) : blank.id id = 0 := rfl

@[simp] theorem Relabeling.blank_line (line : Nat) : blank.line line = 0 := rfl

/-- The other expression differs in lines and ids at most. -/
def Expr.Alike (e e' : Expr) : Prop := e'.relabel .blank = e.relabel .blank

/-! ## Loops behind an operand -/

/-- From the tokens the parser gets into the loop, with a result as stated. -/
def Leads (p : Nat → Parser Expr) (loop : Nat → Nat → Expr → Parser Expr) (fits : List Token → Prop) (ts : List Token)
    (post : Expr → Prop) : Prop :=
  ∀ first, ∃ e next, post e ∧ ∀ levels rounds s rest, Ready 0 false fits ts first levels rounds s rest →
    ∃ bound, rest.length ≤ bound ∧ p levels s = loop levels bound e { s with tokens := rest, nextId := next }

namespace Leads

variable {κ : Type} {p q : Nat → Parser Expr} {loop : Nat → Nat → Expr → Parser Expr} {choose : Token → Option κ}
  {step : Nat → Expr → κ → Parser Expr} {fits fits' : List Token → Prop} {ts xs ys : List Token}
  {post post' : Expr → Prop}

/-- The first operand leads to the loop. -/
theorem operand (h : Accepts 0 (fun n _ => q n) false fits ts post) :
    Leads (fun n => q n >>= fun first => remaining >>= fun left => loop n left first) loop fits ts post := by
  intro first
  obtain ⟨e, next, he, hreads⟩ := h first
  refine ⟨e, next, he, fun levels rounds s rest hready => ⟨rest.length, Nat.le_refl _, ?_⟩⟩
  exact bind_ok (hreads levels rounds s rest hready)

/-- One more round of the loop. -/
theorem round (hloop : ∀ n, Extending (loop n) choose (step n)) (h : Leads p loop fits xs post) {t : Token} {k : κ}
    (hchoose : choose t = some k) (hfits : ∀ rest, fits ([t] ++ rest))
    (hstep : ∀ left, post left → Accepts 1 (fun n _ => step n left k) false fits' ys post') :
    Leads p loop fits' (xs ++ ([t] ++ ys)) post' := by
  intro first
  obtain ⟨left, middle, hleft, hleads⟩ := h first
  obtain ⟨e, next, he, hreads⟩ := hstep left hleft middle
  refine ⟨e, next, he, fun levels rounds s rest hready => ?_⟩
  obtain ⟨bound, hbound, hp⟩ := hleads levels rounds s ([t] ++ ys ++ rest)
    (hready.front (by rw [List.append_assoc]; exact hfits _))
  obtain ⟨bound, rfl⟩ : ∃ b, bound = b + 1 := ⟨bound - 1, by simp at hbound; omega⟩
  refine ⟨bound, by simp at hbound; omega, ?_⟩
  rw [hp, (hloop levels).succ]
  rw [← List.append_assoc] at hready
  have hstep := hreads levels rounds _ rest (hready.behind middle (by simp))
  exact (bind_ok (acceptWhere_takes rfl hchoose)).trans (bind_ok hstep)

/-- What follows ends the loop. -/
theorem stop (hloop : ∀ n, Extending (loop n) choose (step n)) (h : Leads p loop fits ts post)
    (hfits : ∀ rest, fits' rest → fits rest) (hstop : ∀ rest, fits' rest → ∀ t ∈ rest.head?, choose t = none) :
    Accepts 0 (fun n _ => p n) false fits' ts post := by
  intro first
  obtain ⟨e, next, he, hleads⟩ := h first
  refine ⟨e, next, he, fun levels rounds s rest hready => ?_⟩
  obtain ⟨bound, -, hp⟩ := hleads levels rounds s rest { hready with fits := hfits rest hready.fits }
  exact hp.trans ((hloop levels).stop bound e (hstop rest hready.fits))

end Leads

/-! ## Levels -/

/-- From the tokens the loop over the operators of a level is reached with the expression. -/
def Groups {κ : Type} (operator : TokenKind → Option κ) (build : Expr → Operator κ → Expr → Expr)
    (operand : Rules → Parser Expr) (level : Nat) (ts : List Token) (e : Expr) : Prop :=
  Leads (fun n => leftAssociative operator build (operand (rules n)))
    (fun n => leftGrouped operator build (operand (rules n))) (Stops (level + 1)) ts e.Alike

/-- The tokens are read as the expression at a level, or where a loop may go on behind it as the beginning of what is
read there. -/
def ReadsAt (level : Nat) (ts : List Token) (e : Expr) : Prop :=
  match level with
  | 1 => Accepts 0 (fun n _ => expression (rules n)) false (Stops 1) ts e.Alike
  | 2 => Accepts 0 (fun n _ => conditional (rules n)) false (Stops 2) ts e.Alike
  | 3 => Groups orKind .logical conjunction 3 ts e
  | 4 => Groups andKind .logical equality 4 ts e
  | 5 => Groups equalityKind .binary comparison 5 ts e
  | 6 => Groups comparisonKind .binary term 6 ts e
  | 7 => Groups termKind .binary factor 7 ts e
  | 8 => Groups factorKind .binary unary 8 ts e
  | 9 => Accepts 0 (fun n _ => unary (rules n)) false (Stops 9) ts e.Alike
  | _ => Leads (fun n => call (rules n)) (fun n bound target => suffixes (rules n) bound target) Anything ts e.Alike

section Levels

variable {κ : Type} {operator : TokenKind → Option κ} {build : Expr → Operator κ → Expr → Expr}
  {operand : Rules → Parser Expr} {level : Nat} {xs ys ts : List Token} {e : Expr}

variable (operator) in
theorem Groups.accepts (h : Groups operator build operand level ts e)
    (htight : ∀ kind, (operator kind).isSome → tightness kind = level) :
    Accepts 0 (fun n _ => leftAssociative operator build (operand (rules n))) false (Stops level) ts e.Alike := by
  apply Leads.stop (fun n => extending_leftGrouped operator build (operand (rules n))) h
  · intro rest hrest
    exact hrest.mono (Nat.le_succ _)
  · intro rest hrest t ht
    simp [hrest.operator_eq_none htight t ht]

/-- What is read at a level is read at the level above, where an operand stands that could go on. -/
theorem ReadsAt.looser (h : ReadsAt (level + 1) ts e) (hpos : 1 ≤ level) (hlevel : level < 10)
    (hopens : level = 9 → Opens callStarts ts) : ReadsAt level ts e := by
  interval_cases level
  · exact expression_of_conditional h
  · exact conditional_of_disjunction (Groups.accepts _ h fun kind => by cases kind <;> decide)
  · exact Leads.operand (Groups.accepts _ h fun kind => by cases kind <;> decide)
  · exact Leads.operand (Groups.accepts _ h fun kind => by cases kind <;> decide)
  · exact Leads.operand (Groups.accepts _ h fun kind => by cases kind <;> decide)
  · exact Leads.operand (Groups.accepts _ h fun kind => by cases kind <;> decide)
  · exact Leads.operand (Groups.accepts _ h fun kind => by cases kind <;> decide)
  · exact Leads.operand h
  · apply unary_of_call (hopens rfl)
    apply Leads.stop (fun n => extending_suffixes (rules n)) h
    · intro _ _
      trivial
    · intro rest hrest t ht
      have hkind := hrest t ht
      revert hkind
      cases t.kind <;> simp [tightness, opensSuffix]

end Levels

/-! ## Expressions -/

/-- The expression is read from its tokens, at every level that is not too tight for it. -/
def Restores (e : Expr) : Prop :=
  ∀ ts, ts.map Token.word = e.flatten → ∀ level, 1 ≤ level → level ≤ e.level → ReadsAt level ts e

/-- It is enough to read an expression at its own level. -/
theorem restores_of {e : Expr} (hshaped : e.Shaped) (h : ∀ ts, ts.map Token.word = e.flatten → ReadsAt e.level ts e) :
    Restores e := by
  intro ts hts level hpos hle
  obtain ⟨distance, hdistance⟩ := Nat.exists_eq_add_of_le hle
  induction distance generalizing level with
  | zero =>
    obtain rfl : e.level = level := hdistance
    exact h ts hts
  | succ distance ih =>
    have hbound := hshaped.level_bounds.2
    apply (ih (level + 1) (Nat.le_add_left 1 level) (by omega) (by omega)).looser hpos (by omega)
    intro hlast
    exact opens_words (hts ▸ hshaped.opens.2 (by omega))

section Words

variable {ts xs zs : List Token} {word : Token}

theorem split_words (h : ts.map Token.word = xs ++ word :: zs) :
    ∃ us t vs, ts = us ++ ([t] ++ vs) ∧ us.map Token.word = xs ∧ t.word = word ∧ vs.map Token.word = zs := by
  obtain ⟨us, rest, rfl, hus, hrest⟩ := List.map_eq_append_iff.1 h
  obtain ⟨t, vs, rfl, ht, hvs⟩ := List.map_eq_cons_iff.1 hrest
  exact ⟨us, t, vs, rfl, hus, ht, hvs⟩

theorem split_word (h : ts.map Token.word = word :: zs) :
    ∃ t vs, ts = [t] ++ vs ∧ t.word = word ∧ vs.map Token.word = zs := List.map_eq_cons_iff.1 h

theorem single_word (h : ts.map Token.word = [word]) : ∃ t, ts = [t] ∧ t.word = word := by
  obtain ⟨t, vs, rfl, ht, hvs⟩ := split_word h
  exact ⟨t, by rw [List.map_eq_nil_iff.1 hvs, List.append_nil], ht⟩

theorem closed_words (h : ts.map Token.word = xs ++ [word]) :
    ∃ us t, ts = us ++ [t] ∧ us.map Token.word = xs ∧ t.word = word := by
  obtain ⟨us, t, vs, rfl, hus, ht, hvs⟩ := split_words h
  exact ⟨us, t, by rw [List.map_eq_nil_iff.1 hvs, List.append_nil], hus, ht⟩

theorem kind_of_word {t word : Token} (h : t.word = word) : t.kind = word.kind := by
  rw [← h, Token.word_kind]

/-- The name that a token gives. -/
theorem lexeme_of_word {t word : Token} (h : t.word = word) (hkind : word.kind ≠ .number) : t.lexeme = word.lexeme := by
  rw [← h, Token.word_lexeme fun hnumber => hkind ((kind_of_word h).symm.trans hnumber)]

end Words

section Parts

variable {e : Expr} {ts : List Token}

theorem Restores.expression (h : Restores e) (hshaped : e.Shaped) (hts : ts.map Token.word = e.flatten) :
    Accepts 1 (fun n _ => (rules n).expression) false (Stops 1) ts e.Alike :=
  level_accepts Rules.expression Grammar.expression (fun _ => rfl) (h ts hts 1 (Nat.le_refl 1) hshaped.level_bounds.1)

theorem Restores.conditional (h : Restores e) (hlevel : 2 ≤ e.level) (hts : ts.map Token.word = e.flatten) :
    Accepts 1 (fun n _ => (rules n).conditional) false (Stops 2) ts e.Alike :=
  level_accepts Rules.conditional Grammar.conditional (fun _ => rfl) (h ts hts 2 (by decide) hlevel)

theorem Restores.unary (h : Restores e) (hlevel : 9 ≤ e.level) (hts : ts.map Token.word = e.flatten) :
    Accepts 1 (fun n _ => (rules n).unary) false (Stops 9) ts e.Alike :=
  level_accepts Rules.unary Grammar.unary (fun _ => rfl) (h ts hts 9 (by decide) hlevel)

/-- What a primary expression is read from leads to the suffixes. -/
theorem restores_primary (hshaped : e.Shaped) (hlevel : e.level = 10)
    (h : ∀ ts, ts.map Token.word = e.flatten → Accepts 0 (fun n _ => primary (rules n)) false Anything ts e.Alike) :
    Restores e := by
  apply restores_of hshaped
  intro ts hts
  rw [hlevel]
  exact Leads.operand (h ts hts)

end Parts

theorem restores_literal (value : Literal) : Restores (.literal value) := by
  apply restores_primary (.literal value) rfl
  intro ts hts
  obtain ⟨t, rfl, ht⟩ := single_word hts
  have hkind := kind_of_word ht
  have hliteral : t.literal = value.token.literal := by rw [← ht, Token.word_literal]
  rw [← List.append_nil [t]]
  apply current_accepts
  rcases value with _ | (_ | _) | number | text
  all_goals
    simp only [hkind, Literal.token, Token.fixed_kind]
    apply advance_then
    apply Accepts.pure
  all_goals simp [Expr.Alike, hliteral, Literal.token, tokenLiteral]

theorem restores_variable (use : Reference) : Restores (.variable use) := by
  apply restores_primary (.variable use) rfl
  intro ts hts
  obtain ⟨t, rfl, ht⟩ := single_word hts
  have hlexeme : t.lexeme = use.name.text := lexeme_of_word ht (by simp [Name.token])
  rw [← List.append_nil [t]]
  apply current_accepts
  simp only [kind_of_word ht, Name.token]
  apply advance_then
  apply (reference_accepts _).map
  intro use' hname
  simp [Expr.Alike, Expr.relabel, Reference.relabel, Name.relabel, hname, hlexeme]

theorem restores_this (id : NodeId) (line : Nat) : Restores (.this id line) := by
  apply restores_primary (.this id line) rfl
  intro ts hts
  obtain ⟨t, rfl, ht⟩ := single_word hts
  rw [← List.append_nil [t]]
  apply current_accepts
  simp only [kind_of_word ht, Token.fixed_kind]
  apply advance_then
  exact fresh_accepts.map _ fun _ _ => rfl

theorem restores_parent (id : NodeId) (keyword method : Name) : Restores (.parent id keyword method) := by
  apply restores_primary (.parent id keyword method) rfl
  intro ts hts
  obtain ⟨t, _, rfl, ht, hrest⟩ := split_word hts
  obtain ⟨dot, _, rfl, hdot, hrest⟩ := split_word hrest
  obtain ⟨name, rfl, hname⟩ := single_word hrest
  have hlexeme : t.lexeme = keyword.text := lexeme_of_word ht (by simp)
  have hmethod : name.lexeme = method.text := lexeme_of_word hname (by simp [Name.token])
  apply current_accepts
  simp only [kind_of_word ht]
  apply advance_then
  refine (expect_accepts (kind_of_word hdot)).after fun _ _ => ?_
  rw [← List.append_nil [name]]
  refine (expectName_accepts (kind_of_word hname)).known ?_ (Nat.le_add_right 1 _)
  refine (fresh_accepts.map _ fun id' _ => ?_).always
  simp [Expr.Alike, Expr.relabel, Name.relabel, hlexeme, hmethod]

theorem restores_group {inner : Expr} (hshaped : inner.Shaped) (h : Restores inner) : Restores (.group inner) := by
  apply restores_primary (.group hshaped) rfl
  intro ts hts
  obtain ⟨t, _, rfl, ht, hrest⟩ := split_word hts
  obtain ⟨us, close, rfl, hus, hclose⟩ := closed_words hrest
  apply current_accepts
  simp only [kind_of_word ht, Token.fixed_kind]
  apply advance_then
  refine (h.expression hshaped hus).bind (fun e he => ?_)
    (fun _ _ => stops_cons.2 (by rw [kind_of_word hclose]; decide)) (Nat.le_add_right 1 _)
  refine (expect_accepts (kind_of_word hclose)).map _ fun _ _ => ?_
  simpa [Expr.Alike, Expr.relabel] using he

/-! ## Expressions between commas -/

section Lists

variable {es : List Expr} {ts : List Token}

theorem items_restore (first : Expr) (h : ∀ e ∈ first :: es, e.Shaped ∧ Restores e)
    (hts : ts.map Token.word = commaSeparated (Expr.flattenAll (first :: es))) :
    ∃ posts, ItemsRead (fun n => (rules n).expression) false (es.length + 1) ts posts ∧
      ∀ l, posts l → l.map (Expr.relabel .blank) = (first :: es).map (Expr.relabel .blank) := by
  induction es generalizing first ts with
  | nil =>
    obtain ⟨hshaped, hrestores⟩ := h first (by simp)
    simp only [Expr.flattenAll, commaSeparated_singleton] at hts
    refine ⟨_, .one (hrestores.expression hshaped hts), ?_⟩
    rintro l ⟨e, he, rfl⟩
    simpa [Expr.Alike] using he
  | cons next es ih =>
    obtain ⟨hshaped, hrestores⟩ := h first (by simp)
    simp only [Expr.flattenAll, commaSeparated_cons_cons] at hts
    obtain ⟨us, comma, vs, rfl, hus, hcomma, hvs⟩ := split_words hts
    obtain ⟨posts, hitems, hposts⟩ := ih next (fun e he => h e (List.mem_cons_of_mem _ he)) hvs
    refine ⟨_, .more (hrestores.expression hshaped hus) (kind_of_word hcomma) hitems, ?_⟩
    rintro l ⟨e, rest, he, hrest, rfl⟩
    exact congrArg₂ List.cons he (hposts rest hrest)

/-- All expressions up to a token that closes them are read. -/
theorem list_restores (tooMany : Option SyntaxCause) (closing : TokenKind) (h : ∀ e ∈ es, e.Shaped ∧ Restores e)
    (hts : ts.map Token.word = commaSeparated (Expr.flattenAll es)) (hclosing : tightness closing = 0)
    (hcomma : closing ≠ .comma) (hstarts : closing ∉ expressionStarts) (hroom : tooMany.isSome → es.length ≤ maxItems) :
    Accepts 1 (fun n _ => commaList (rules n).expression tooMany closing) false (Closes closing) ts
      (fun l => l.map (Expr.relabel .blank) = es.map (Expr.relabel .blank)) := by
  cases es with
  | nil =>
    obtain rfl : ts = [] := List.map_eq_nil_iff.1 hts
    exact (commaList_nil _ tooMany closing).mono (fun l hl => by rw [hl]) fun _ h => h
  | cons first es =>
    obtain ⟨posts, hitems, hposts⟩ := items_restore first h hts
    have hopens : Opens expressionStarts ts := by
      apply opens_words
      rw [hts]
      have hfirst := (h first (by simp)).1.opens.1
      cases es with
      | nil => simpa [Expr.flattenAll] using hfirst
      | cons next es => simpa [Expr.flattenAll] using hfirst.append _
    obtain ⟨t, rest, rfl, hkind, -⟩ := hopens
    have ht : t.kind ≠ closing := fun h => hstarts (h ▸ hkind)
    exact (commaList_items hclosing hcomma hitems ht hroom).mono hposts fun _ h => h

end Lists

theorem restores_list {line : Nat} {elements : List Expr} (hshaped : ∀ e ∈ elements, e.Shaped)
    (h : ∀ e ∈ elements, Restores e) : Restores (.list line elements) := by
  apply restores_primary (.list hshaped) rfl
  intro ts hts
  obtain ⟨t, _, rfl, ht, hrest⟩ := split_word hts
  obtain ⟨us, close, rfl, hus, hclose⟩ := closed_words hrest
  apply current_accepts
  simp only [kind_of_word ht, Token.fixed_kind]
  apply advance_then
  have helements := list_restores none .rightBracket (fun e he => ⟨hshaped e he, h e he⟩) hus rfl (by decide) (by decide)
    nofun
  refine helements.bind (fun es hes => ?_) (fun _ _ => closes_cons.2 (kind_of_word hclose)) (Nat.le_add_right 1 _)
  refine (expect_accepts (kind_of_word hclose)).map _ fun _ _ => ?_
  simp [Expr.Alike, Expr.relabel, hes]

/-! ## Suffixes -/

section Suffixes

variable {object : Expr} {name : Name} {line : Nat}

/-- A suffix behind what can be called leads to further suffixes. -/
theorem restores_suffix {e : Expr} {opening : Token} {inner : List Token} (hshaped : e.Shaped) (htop : e.level = 10)
    (hlevel : 10 ≤ object.level) (h : Restores object) (hflatten : e.flatten = object.flatten ++ opening :: inner)
    (hopens : opensSuffix opening.kind)
    (hsuffix : ∀ t ts object', t.word = opening → ts.map Token.word = inner → object.Alike object' →
      Accepts 1 (fun n _ => suffix (rules n) object' t) false Anything ts e.Alike) : Restores e := by
  apply restores_of hshaped
  intro ts hts
  rw [hflatten] at hts
  obtain ⟨xs, t, ys, rfl, hxs, ht, hys⟩ := split_words hts
  have hchosen : opensSuffix t.kind := by rwa [kind_of_word ht]
  rw [htop]
  exact Leads.round (fun n => extending_suffixes (rules n)) (h xs hxs 10 (by decide) hlevel) (if_pos hchosen)
    (fun _ => trivial) fun object' hobject' => hsuffix t ys object' ht hys hobject'

theorem restores_call {arguments : List Expr} (hobject : object.Shaped) (hlevel : 10 ≤ object.level) (h : Restores object)
    (harguments : ∀ e ∈ arguments, e.Shaped) (hall : ∀ e ∈ arguments, Restores e) (hcount : arguments.length ≤ maxItems) :
    Restores (.call object line arguments) := by
  apply restores_suffix (.call hobject hlevel harguments hcount) rfl hlevel h rfl rfl
  intro t ts object' ht hts hobject'
  obtain ⟨us, close, rfl, hus, hclose⟩ := closed_words hts
  have hitems := list_restores (some .tooManyArguments) .rightParen (fun e he => ⟨harguments e he, hall e he⟩) hus rfl
    (by decide) (by decide) fun _ => hcount
  simp only [suffix, kind_of_word ht, Token.fixed_kind]
  refine hitems.bind (fun es hes => ?_) (fun _ _ => closes_cons.2 (kind_of_word hclose)) (Nat.le_add_right 1 _)
  refine (expect_accepts (kind_of_word hclose)).map _ fun _ _ => ?_
  simp only [Expr.Alike] at hobject' ⊢
  simp [Expr.relabel, hes, hobject']

theorem restores_index {position : Expr} (hobject : object.Shaped) (hlevel : 10 ≤ object.level) (h : Restores object)
    (hposition : position.Shaped) (hinside : Restores position) : Restores (.index object line position) := by
  apply restores_suffix (.index hobject hlevel hposition) rfl hlevel h rfl rfl
  intro t ts object' ht hts hobject'
  obtain ⟨us, close, rfl, hus, hclose⟩ := closed_words hts
  simp only [suffix, kind_of_word ht, Token.fixed_kind]
  refine (hinside.expression hposition hus).bind (fun position' hposition' => ?_)
    (fun _ _ => stops_cons.2 (by rw [kind_of_word hclose]; decide)) (Nat.le_add_right 1 _)
  refine (expect_accepts (kind_of_word hclose)).map _ fun _ _ => ?_
  simp only [Expr.Alike] at hobject' hposition' ⊢
  simp [Expr.relabel, hobject', hposition']

theorem restores_get (hobject : object.Shaped) (hlevel : 10 ≤ object.level) (h : Restores object) :
    Restores (.get object name) := by
  apply restores_suffix (.get hobject hlevel) rfl hlevel h rfl rfl
  intro t ts object' ht hts hobject'
  obtain ⟨u, rfl, hu⟩ := single_word hts
  have hname : u.lexeme = name.text := lexeme_of_word hu (by simp [Name.token])
  simp only [suffix, kind_of_word ht, Token.fixed_kind]
  refine (expectName_accepts (kind_of_word hu)).map _ fun name' hname' => ?_
  simp only [Expr.Alike] at hobject' ⊢
  simp [Expr.relabel, Name.relabel, hobject', hname', hname]

end Suffixes

/-! ## Operators -/

theorem restores_unary {op : Operator UnaryKind} {operand : Expr} (hoperand : operand.Shaped) (hlevel : 9 ≤ operand.level)
    (h : Restores operand) : Restores (.unary op operand) := by
  apply restores_of (.unary hoperand hlevel)
  intro ts hts
  obtain ⟨t, us, rfl, ht, hus⟩ := split_word hts
  have hkind : t.kind = op.kind.token := kind_of_word ht
  have hsign : unaryKind t.kind = some op.kind := by rw [hkind]; cases op.kind <;> rfl
  have hlexeme : t.lexeme = op.spelling :=
    lexeme_of_word ht (by cases hop : op.kind <;> simp [Operator.token, UnaryKind.token])
  refine (acceptWhere_accepts (by rw [hsign]; rfl)).known ?_ (Nat.le_refl 1)
  refine (h.unary hlevel hus).map _ fun operand' hoperand' => ?_
  simp only [Expr.Alike] at hoperand' ⊢
  simp [Expr.relabel, Operator.relabel, hlexeme, hoperand']

section Groups

variable {κ : Type} {operator : TokenKind → Option κ} {build : Expr → Operator κ → Expr → Expr}
  {operand : Rules → Parser Expr} {level : Nat} {left right : Expr} {xs ys : List Token} {t : Token}

variable (operator) in
/-- An operator of the level and its right operand lead to further operators of the level. -/
theorem Groups.more (hbuild : ∀ left left' right right' op line, left.Alike left' → right.Alike right' →
      (build left op right).Alike (build left' { op with line := line } right'))
    (hleft : Groups operator build operand level xs left)
    (hright : Accepts 0 (fun n _ => operand (rules n)) false (Stops (level + 1)) ys right.Alike) {op : Operator κ}
    (hop : operator t.kind = some op.kind) (hlexeme : t.lexeme = op.spelling) (htight : tightness t.kind = level) :
    Groups operator build operand level (xs ++ ([t] ++ ys)) (build left op right) := by
  apply Leads.round (fun n => extending_leftGrouped operator build (operand (rules n))) hleft (k := ⟨op.kind, t.lexeme, t.line⟩)
  · rw [hop]
    rfl
  · intro rest
    exact stops_cons.2 (Nat.lt_succ_of_le htight.le)
  · intro left' hleft'
    rw [hlexeme]
    exact (hright.weaken (Nat.zero_le 1)).map _ fun right' hright' => hbuild left left' right right' op t.line hleft' hright'

theorem alike_binary (left left' right right' : Expr) (op : Operator TokenKind) (line : Nat) (hleft : left.Alike left')
    (hright : right.Alike right') : (Expr.binary left op right).Alike (.binary left' { op with line := line } right') := by
  simp only [Expr.Alike] at hleft hright ⊢
  simp [Expr.relabel, Operator.relabel, hleft, hright]

theorem alike_logical (left left' right right' : Expr) (op : Operator LogicalKind) (line : Nat) (hleft : left.Alike left')
    (hright : right.Alike right') : (Expr.logical left op right).Alike (.logical left' { op with line := line } right') := by
  simp only [Expr.Alike] at hleft hright ⊢
  simp [Expr.relabel, Operator.relabel, hleft, hright]

theorem restores_binary {op : Operator TokenKind} (hop : (BinaryKind.ofToken? op.kind).isSome) (hleft : left.Shaped)
    (hright : right.Shaped) (hleftLevel : tightness op.kind ≤ left.level) (hrightLevel : tightness op.kind < right.level)
    (h : Restores left) (h' : Restores right) : Restores (.binary left op right) := by
  apply restores_of (.binary hop hleft hright hleftLevel hrightLevel)
  intro ts hts
  obtain ⟨xs, t, ys, rfl, hxs, ht, hys⟩ := split_words hts
  have hbounds := tightness_binary hop
  have hreads := h xs hxs (tightness op.kind) (by omega) hleftLevel
  have hreads' := h' ys hys (tightness op.kind + 1) (by omega) hrightLevel
  have hkind : t.kind = op.kind := kind_of_word ht
  have hlexeme : t.lexeme = op.spelling :=
    lexeme_of_word ht fun hnumber => by simp [Operator.token] at hnumber; simp [hnumber, BinaryKind.ofToken?] at hop
  have hmore {operator : TokenKind → Option TokenKind} {operand : Rules → Parser Expr} {level : Nat}
      (htight : tightness op.kind = level) (hleft : Groups operator .binary operand level xs left)
      (hright : Accepts 0 (fun n _ => operand (rules n)) false (Stops (level + 1)) ys right.Alike)
      (hop : operator op.kind = some op.kind) : Groups operator .binary operand level (xs ++ ([t] ++ ys)) (.binary left op right) :=
    Groups.more operator alike_binary hleft hright (hkind ▸ hop) hlexeme (hkind ▸ htight)
  show ReadsAt (tightness op.kind) _ _
  cases hcase : op.kind with
  | slash | star =>
    rw [hcase] at hreads hreads'
    exact hmore (by rw [hcase]; rfl) hreads hreads' (by rw [hcase]; rfl)
  | minus | plus =>
    rw [hcase] at hreads hreads'
    have hright := Groups.accepts factorKind hreads' fun kind => by cases kind <;> decide
    exact hmore (by rw [hcase]; rfl) hreads hright (by rw [hcase]; rfl)
  | greater | greaterEqual | less | lessEqual =>
    rw [hcase] at hreads hreads'
    have hright := Groups.accepts termKind hreads' fun kind => by cases kind <;> decide
    exact hmore (by rw [hcase]; rfl) hreads hright (by rw [hcase]; rfl)
  | bangEqual | equalEqual =>
    rw [hcase] at hreads hreads'
    have hright := Groups.accepts comparisonKind hreads' fun kind => by cases kind <;> decide
    exact hmore (by rw [hcase]; rfl) hreads hright (by rw [hcase]; rfl)
  | _ => simp [hcase, BinaryKind.ofToken?] at hop

theorem restores_logical {op : Operator LogicalKind} (hleft : left.Shaped) (hright : right.Shaped)
    (hleftLevel : tightness op.kind.token ≤ left.level) (hrightLevel : tightness op.kind.token < right.level)
    (h : Restores left) (h' : Restores right) : Restores (.logical left op right) := by
  apply restores_of (.logical hleft hright hleftLevel hrightLevel)
  intro ts hts
  obtain ⟨xs, t, ys, rfl, hxs, ht, hys⟩ := split_words hts
  have hbounds := tightness_logical op.kind
  have hreads := h xs hxs (tightness op.kind.token) (by omega) hleftLevel
  have hreads' := h' ys hys (tightness op.kind.token + 1) (by omega) hrightLevel
  have hkind : t.kind = op.kind.token := kind_of_word ht
  have hlexeme : t.lexeme = op.spelling :=
    lexeme_of_word ht (by cases hop : op.kind <;> simp [Operator.token, LogicalKind.token])
  show ReadsAt (tightness op.kind.token) _ _
  cases hcase : op.kind with
  | and =>
    rw [hcase] at hreads hreads' hkind
    have hright := Groups.accepts equalityKind hreads' fun kind => by cases kind <;> decide
    exact Groups.more andKind alike_logical hreads hright (by rw [hkind, hcase]; rfl) hlexeme (by rw [hkind]; rfl)
  | or =>
    rw [hcase] at hreads hreads' hkind
    have hright := Groups.accepts andKind hreads' fun kind => by cases kind <;> decide
    exact Groups.more orKind alike_logical hreads hright (by rw [hkind, hcase]; rfl) hlexeme (by rw [hkind]; rfl)

end Groups

theorem restores_conditional {condition thenBranch elseBranch : Expr} (hcondition : condition.Shaped)
    (hthen : thenBranch.Shaped) (helse : elseBranch.Shaped) (hconditionLevel : 2 < condition.level)
    (helseLevel : 2 ≤ elseBranch.level) (h₁ : Restores condition) (h₂ : Restores thenBranch) (h₃ : Restores elseBranch) :
    Restores (.conditional condition thenBranch elseBranch) := by
  apply restores_of (.conditional hcondition hthen helse hconditionLevel helseLevel)
  intro ts hts
  obtain ⟨xs, question, _, rfl, hxs, hquestion, hrest⟩ := split_words hts
  obtain ⟨ys, colon, zs, rfl, hys, hcolon, hzs⟩ := split_words hrest
  have hfirst := Groups.accepts orKind (h₁ xs hxs 3 (by decide) hconditionLevel) fun kind => by
    cases kind <;> decide
  refine hfirst.bind (fun condition' hcondition' => ?_)
    (fun _ _ => stops_cons.2 (by rw [kind_of_word hquestion]; decide)) (Nat.zero_le _)
  refine (accept_accepts (kind_of_word hquestion)).known ?_ (Nat.le_refl 1)
  refine (h₂.expression hthen hys).bind (fun thenBranch' hthen' => ?_)
    (fun _ _ => stops_cons.2 (by rw [kind_of_word hcolon]; decide)) (Nat.le_add_right 1 _)
  refine (expect_accepts (kind_of_word hcolon)).after fun _ _ => ?_
  refine (h₃.conditional helseLevel hzs).map _ fun elseBranch' helse' => ?_
  simp only [Expr.Alike] at hcondition' hthen' helse' ⊢
  simp [Expr.relabel, hcondition', hthen', helse']

/-! ## Assignments -/

section Assignments

variable {target value e : Expr} {xs ys : List Token} {t : Token}

/-- A target is read first, then the value, and then an assignment is made of them. -/
theorem reads_assignment (htarget : ReadsAt 2 xs target) (ht : t.kind = .equal)
    (hvalue : Accepts 1 (fun n _ => (rules n).expression) false (Stops 1) ys value.Alike)
    (h : ∀ target' value', target.Alike target' → value.Alike value' →
      Accepts 1 (fun _ _ => assignTo target' t value') false (Stops 1) [] e.Alike) :
    ReadsAt 1 (xs ++ ([t] ++ ys)) e := by
  refine Accepts.bind (p := fun n _ => conditional (rules n)) htarget (fun target' htarget' => ?_)
    (fun _ _ => stops_cons.2 (by rw [ht]; decide)) (Nat.zero_le _)
  refine (accept_accepts ht).known ?_ (Nat.le_refl 1)
  rw [← List.append_nil ys]
  exact hvalue.bind (fun value' hvalue' => h target' value' htarget' hvalue') (fun _ h => h) (Nat.le_add_right 1 _)

theorem restores_assign {use : Reference} (hvalue : value.Shaped) (h : Restores value) : Restores (.assign use value) := by
  apply restores_of (.assign hvalue)
  intro ts hts
  obtain ⟨t, _, rfl, ht, hrest⟩ := split_word hts
  obtain ⟨equal, ys, rfl, hequal, hys⟩ := split_word hrest
  have htarget := restores_variable use [t] (by simp [ht, Expr.flatten]) 2 (by decide) (show 2 ≤ 10 by decide)
  apply reads_assignment htarget (kind_of_word hequal) (h.expression hvalue hys)
  intro target' value' htarget' hvalue'
  cases target' with
  | «variable» use' =>
    refine ((reference_accepts use'.name).map _ fun use'' hname => ?_).always
    simp only [Expr.Alike] at htarget' hvalue' ⊢
    simpa [Expr.relabel, Reference.relabel, hname, hvalue'] using htarget'
  | _ => simp [Expr.Alike, Expr.relabel] at htarget'

theorem restores_set {object : Expr} {name : Name} (hobject : object.Shaped) (hlevel : 10 ≤ object.level)
    (hvalue : value.Shaped) (h : Restores object) (h' : Restores value) : Restores (.set object name value) := by
  apply restores_of (.set hobject hlevel hvalue)
  intro ts hts
  obtain ⟨xs, dot, _, rfl, hxs, hdot, hrest⟩ := split_words hts
  obtain ⟨u, _, rfl, hu, hrest⟩ := split_word hrest
  obtain ⟨equal, ys, rfl, hequal, hys⟩ := split_word hrest
  have hflatten : (xs ++ [dot, u]).map Token.word = (Expr.get object name).flatten := by
    simp [Expr.flatten, hxs, hdot, hu]
  have hget : Restores (.get object name) := restores_get hobject hlevel h
  have htarget := hget (xs ++ [dot, u]) hflatten 2 (by decide) (show 2 ≤ 10 by decide)
  have hassignment : ReadsAt 1 ((xs ++ [dot, u]) ++ ([equal] ++ ys)) (.set object name value) := by
    apply reads_assignment htarget (kind_of_word hequal) (h'.expression hvalue hys)
    intro target' value' htarget' hvalue'
    cases target' with
    | get object' name' =>
      apply Accepts.pure
      simp only [Expr.Alike] at htarget' hvalue' ⊢
      simpa [Expr.relabel, hvalue'] using htarget'
    | _ => simp [Expr.Alike, Expr.relabel] at htarget'
  rwa [List.append_assoc] at hassignment

end Assignments

/-- Shaped expressions are read back. -/
theorem Expr.Shaped.restores {e : Expr} (h : e.Shaped) : Restores e := by
  induction h with
  | literal value => exact restores_literal value
  | «variable» use => exact restores_variable use
  | this id line => exact restores_this id line
  | parent id keyword method => exact restores_parent id keyword method
  | group hinner ih => exact restores_group hinner ih
  | list helements ih => exact restores_list helements ih
  | call hcallee hlevel harguments hcount ih ihs => exact restores_call hcallee hlevel ih harguments ihs hcount
  | get hobject hlevel ih => exact restores_get hobject hlevel ih
  | index hobject hlevel hposition ih ih' => exact restores_index hobject hlevel ih hposition ih'
  | unary hoperand hlevel ih => exact restores_unary hoperand hlevel ih
  | binary hop hleft hright hleftLevel hrightLevel ih ih' =>
    exact restores_binary hop hleft hright hleftLevel hrightLevel ih ih'
  | logical hleft hright hleftLevel hrightLevel ih ih' =>
    exact restores_logical hleft hright hleftLevel hrightLevel ih ih'
  | conditional hcondition hthen helse hconditionLevel helseLevel ih₁ ih₂ ih₃ =>
    exact restores_conditional hcondition hthen helse hconditionLevel helseLevel ih₁ ih₂ ih₃
  | assign hvalue ih => exact restores_assign hvalue ih
  | set hobject hlevel hvalue ih ih' => exact restores_set hobject hlevel hvalue ih ih'

namespace Parse

/-- Reading an expression is the inverse of flattening it. What is read from a source text without an error and
without a function keeps to the precedence of its operators, and its tokens are those that have been read.
Conversely, from the tokens of an expression that keeps to the precedence, on whatever lines and with its numbers
written in whatever way, and in front of anything that does not continue it, this expression is read, its tokens
and no others are consumed, and no error is recorded. -/
theorem expression_inverts_flatten :
    (∀ (source : String) (levels : Nat) (s s' : ParserState) (e : Expr),
      s.tokens <:+ (delimited (Scan.ofSource source).tokens).1 → s.tokens.length < levels →
      (rules levels).expression s = .ok e s' → s'.errors = s.errors → e.Functionless →
      ∃ ts, s.tokens = ts ++ s'.tokens ∧ ts.map Token.word = e.flatten ∧ e.Shaped) ∧
    (∀ e : Expr, e.Shaped → e.flatten.map Token.word = e.flatten ∧
      ∀ (levels : Nat) (s : ParserState) (ts rest : List Token), ts.map Token.word = e.flatten →
        s.tokens = ts ++ rest → Stops 1 rest → s.tokens.length < levels →
        ∃ e' next, (rules levels).expression s = .ok e' { s with tokens := rest, nextId := next } ∧ e.Alike e') := by
  constructor
  · intro source levels s s' e hsuffix hlevels hread hclean hfree
    have hlegible : Legible levels s := ⟨hlevels, fun t ht => scanned_tokens source t (hsuffix.subset ht)⟩
    have hends := (flatten_rules levels).expression s hlegible
    rw [hread] at hends
    obtain ⟨⟨ts, htokens, hwords⟩, hshaped, -⟩ := hends.2 hclean hfree
    exact ⟨ts, htokens, hwords, hshaped⟩
  · intro e hshaped
    refine ⟨hshaped.map_word_flatten, ?_⟩
    intro levels s ts rest hwords htokens hstops hlevels
    obtain ⟨e', next, halike, hreads⟩ := hshaped.restores.expression hshaped hwords s.nextId
    exact ⟨e', next, hreads levels levels s rest ⟨htokens, hlevels, hlevels, rfl, nofun, hstops⟩, halike⟩

/-- An assignment of a negation is read, and its tokens are read as the same again. -/
theorem expression_inverts_flatten_assignment :
    ∃ e : Expr, e.Functionless ∧
      (rules 9).expression ⟨(delimited (Scan.ofSource "a=-b").tokens).1, 1, 0, 0, []⟩ = .ok e ⟨[], 1, 0, 3, []⟩ ∧
      (delimited (Scan.ofSource "a=-b").tokens).1.map Token.word = e.flatten ∧ e.Shaped ∧
      ∃ e' next, (rules 9).expression ⟨(delimited (Scan.ofSource "a=-b").tokens).1, 1, 0, 3, []⟩ =
        .ok e' ⟨[], 1, 0, next, []⟩ ∧ e.Alike e' := by
  have hoperand : (Expr.variable ⟨1, ⟨"b", 1⟩⟩).Functionless := .intro (by simp) (List.forall_mem_nil _)
  have hvalue : (Expr.unary ⟨.negate, "-", 1⟩ (.variable ⟨1, ⟨"b", 1⟩⟩)).Functionless :=
    .intro (by simp) (List.forall_mem_singleton.2 hoperand)
  have hfree : (Expr.assign ⟨2, ⟨"a", 1⟩⟩ (.unary ⟨.negate, "-", 1⟩ (.variable ⟨1, ⟨"b", 1⟩⟩))).Functionless :=
    .intro (by simp) (List.forall_mem_singleton.2 hvalue)
  have hlength : (delimited (Scan.ofSource "a=-b").tokens).1.length < 9 := by cbv
  have hread : (rules 9).expression ⟨(delimited (Scan.ofSource "a=-b").tokens).1, 1, 0, 0, []⟩ =
      .ok (.assign ⟨2, ⟨"a", 1⟩⟩ (.unary ⟨.negate, "-", 1⟩ (.variable ⟨1, ⟨"b", 1⟩⟩))) ⟨[], 1, 0, 3, []⟩ := by cbv
  obtain ⟨ts, htokens, hwords, hshaped⟩ :=
    expression_inverts_flatten.1 "a=-b" 9 _ _ _ List.suffix_rfl hlength hread rfl hfree
  rw [List.append_nil] at htokens
  subst htokens
  refine ⟨_, hfree, hread, hwords, hshaped, ?_⟩
  exact (expression_inverts_flatten.2 _ hshaped).2 9 ⟨_, 1, 0, 3, []⟩ _ [] hwords (List.append_nil _).symm (by simp [Stops])
    hlength

end Parse

end TreeWalk
