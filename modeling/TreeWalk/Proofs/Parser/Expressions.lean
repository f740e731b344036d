import TreeWalk.Proofs.Parser.Steps
import TreeWalk.Syntax.Grammar

/-!
# Expressions are read as the grammar has them

One lemma per rule, from functions up to assignments, says what the rule yields when the rules inside
it yield what they are for. An assignment recognises its target only behind it, so for variables and
properties it is kept which tokens they were read from.
-/

namespace TreeWalk

open TreeWalk.Parser TreeWalk.Grammar

/-! ## Shapes of expressions -/

/-- The tokens of a variable or a property are known from the expression alone. -/
def Expr.phrase (otherwise : Phrase) : Expr → Phrase
  | .variable _ => .token .identifier
  | .get _ _ => .seq [.symbol .call, .token .dot, .token .identifier]
  | _ => otherwise

/-- An expression has been read as what the symbol derives, and a target of an assignment as such. -/
abbrev YieldsExpr (σ : Symbol) (e : Expr) (s s' : ParserState) : Prop :=
  Yields (e.phrase (.symbol σ)) [.expr e] s s'

/-- Every call is read as the symbol too. -/
def Covers (σ : Symbol) : Prop := ∀ xs ys, Spans (.symbol .call) xs ys → Spans (.symbol σ) xs ys

section Shapes

variable {σ τ : Symbol} {e : Expr} {s s' : ParserState} {xs ys : List Token}

theorem covers_call : Covers .call := fun _ _ => id

theorem Spans.call_of_identifier (h : Spans (.token .identifier) xs ys) : Spans (.symbol .call) xs ys := by
  have hprimary : Spans (.symbol .primary) xs ys := by
    obtain ⟨t, ht, rfl⟩ := spans_token.1 h
    have hatom : t.kind ∈ atoms := by simp [ht, atoms]
    exact .symbol (.choice (spans_oneOf.2 ⟨t, hatom, rfl⟩) (by simp))
  exact .symbol (hprimary.cons (Spans.single .done))

theorem Spans.call_of_property (h : Spans (.seq [.symbol .call, .token .dot, .token .identifier]) xs ys) :
    Spans (.symbol .call) xs ys := by
  obtain ⟨us, ⟨ts, hd, rfl⟩, hname⟩ := spans_cons.1 h
  have hcall : Spans (production .call) (ts ++ us) us := ⟨ts, derives_symbol.1 hd, rfl⟩
  exact .symbol (hcall.snoc (hname.choice (by simp)))

theorem Covers.spans (hσ : Covers σ) (h : Spans (e.phrase (.symbol σ)) xs ys) : Spans (.symbol σ) xs ys := by
  cases e with
  | «variable» use => exact hσ _ _ h.call_of_identifier
  | get object name => exact hσ _ _ h.call_of_property
  | _ => exact h

theorem YieldsExpr.yields (hσ : Covers σ) (h : YieldsExpr σ e s s') : Yields (.symbol σ) [.expr e] s s' :=
  h.imp hσ.spans

/-- What is read as one symbol may be read as another that derives it. -/
theorem YieldsExpr.lift (h : YieldsExpr σ e s s')
    (hτ : ∀ {xs ys}, Spans (.symbol σ) xs ys → Spans (.symbol τ) xs ys) : YieldsExpr τ e s s' := by
  refine h.imp fun hs => ?_
  cases e with
  | «variable» use => exact hs
  | get object name => exact hs
  | _ => exact hτ hs

end Shapes

/-! ## Binary operators -/

section Operators

variable {κ : Type} {operator : TokenKind → Option κ} {build : Expr → Operator κ → Expr → Expr}
  {operand : Parser Expr} {operators : List TokenKind} {σ τ : Symbol} {n : Nat}

theorem Covers.chain (hτ : Covers τ) (hσ : production σ = .chain operators (.symbol τ)) : Covers σ :=
  fun xs ys h => .symbol (hσ ▸ (hτ xs ys h).cons (Spans.single .done))

/-- The operator has two operands and nothing else. -/
structure IsBinary (operator : TokenKind → Option κ) (build : Expr → Operator κ → Expr → Expr) : Prop where
  children : ∀ left op right, (Node.expr (build left op right)).children = [.expr left, .expr right]
  uses : ∀ left op right, (Node.expr (build left op right)).uses = []
  phrase : ∀ left op right φ, (build left op right).phrase φ = φ
  settled : ∀ left op right token, operator token = some op.kind → (Node.expr (build left op right)).Settled
  unreserved : ∀ left op right, (Node.expr (build left op right)).Unreserved

theorem leftAssociative_ends (hσ : production σ = .chain operators (.symbol τ))
    (hoperators : ∀ kind, (operator kind).isSome → kind ∈ operators) (hbuild : IsBinary operator build)
    (hτ : Covers τ)
    (hoperand : ∀ s, s.tokens.length ≤ n → Ends s (YieldsExpr τ · s ·) (operand s))
    {s : ParserState} (hn : s.tokens.length ≤ n) :
    Ends s (YieldsExpr σ · s ·) (leftAssociative operator build operand s) := by
  have hcovers := hτ.chain hσ
  -- Behind the operands so far, the loop reads the rest.
  have hloop (bound : Nat) (left : Expr) (s₁ : ParserState) (hleft : YieldsExpr σ left s s₁) :
      Ends s₁ (YieldsExpr σ · s ·) (leftGrouped operator build operand bound left s₁) := by
    induction bound generalizing left s₁ with
    | zero => exact .pure hleft
    | succ bound ih =>
      refine ends_acceptWhere (fun _ => .pure hleft) fun t rest op hnext hop => ?_
      obtain ⟨kind, hfound, rfl⟩ := Option.map_eq_some_iff.1 hop
      have hkind : t.kind ∈ operators := hoperators _ (hfound ▸ rfl)
      have hshorter := hleft.length_le
      rw [hnext, List.length_cons] at hshorter
      refine (hoperand _ (by simp only; omega)).bind fun right s₂ _ hright => ih _ s₂ ?_
      have hnext := ((Yields.oneOf hnext hkind).cons (hright.yields hτ).single).single
      have hnode := ((hleft.yields hcovers).cons hnext).plain _ (hbuild.uses left ⟨kind, t.lexeme, t.line⟩ right)
        (by simp [hbuild.children, List.Subperm.refl]) (hbuild.settled left _ right _ hfound) (fun _ => trivial)
        fun _ => hbuild.unreserved left _ right
      rw [YieldsExpr, hbuild.phrase]
      refine hnode.imp fun hs => ?_
      obtain ⟨us, hchain, hlast⟩ := spans_pair.1 hs
      exact .symbol (hσ ▸ (hσ ▸ hchain.of_symbol).snoc hlast)
  refine (hoperand s hn).bind fun first s₁ _ hfirst => ?_
  exact hloop s₁.tokens.length first s₁ (hfirst.lift fun h => .symbol (hσ ▸ h.cons (Spans.single .done)))

end Operators

/-! ## Functions -/

/-- A `break` or `continue` escapes from statements that were read without error only in a loop. -/
def Contained (statements : List Stmt) (s s' : ParserState) : Prop :=
  s'.errors = s.errors → ∀ statement ∈ statements, statement.Escapes → s.loopDepth ≠ 0

/-- A statement that declares nothing has been read, also as one in front of an `else` if that comes
next. -/
structure YieldsStatement (φ : Bool → Phrase) (statement : Stmt) (s s' : ParserState) : Prop where
  yields : ∀ beforeElse, (beforeElse = true → s'.tokens.head?.map (·.kind) = some .elseKeyword) →
    Yields (φ beforeElse) [.stmt statement] s s'
  contained : Contained [statement] s s'
  nameless : statement.declaredName? = none

/-- The statements for a place in a loop or outside of one. -/
def statementPhrase (s : ParserState) (beforeElse : Bool) : Phrase :=
  .symbol (.statement (s.loopDepth != 0) beforeElse)

/-- The rules yield what they are for from every list of fewer tokens. -/
structure Rules.Sound (r : Rules) (n : Nat) : Prop where
  expression : ∀ s, s.tokens.length < n →
    Ends s (fun e s' => Yields (.symbol .expression) [.expr e] s s') (r.expression s)
  conditional : ∀ s, s.tokens.length < n →
    Ends s (fun e s' => Yields (.symbol .conditional) [.expr e] s s') (r.conditional s)
  unary : ∀ s, s.tokens.length < n →
    Ends s (fun e s' => Yields (.symbol .unary) [.expr e] s s') (r.unary s)
  statement : ∀ s, s.tokens.length < n → Ends s (YieldsStatement (statementPhrase s) · s ·) (r.statement s)
  declaration : ∀ s, s.tokens.length < n →
    Ends s (fun o s' => Yields (.symbol (.declaration (s.loopDepth != 0))) (o.toList.map .stmt) s s' ∧
      Contained o.toList s s') (r.declaration s)

section Rules

variable {r : Rules} {n : Nat} {s : ParserState}

theorem Contained.append {xs ys : List Stmt} {s s' s'' : ParserState} (h : Later s s') (h' : Later s' s'')
    (hx : Contained xs s s') (hy : Contained ys s' s'') : Contained (xs ++ ys) s s'' := by
  intro hclean statement hmem hescapes
  obtain ⟨hc, hc'⟩ := h.clean h' hclean
  rcases List.mem_append.1 hmem with hmem | hmem
  · exact hx hc statement hmem hescapes
  · exact h.loopDepth ▸ hy hc' statement hmem hescapes

theorem declarations_ends (hr : r.Sound n) (bound : Nat) (hn : s.tokens.length < n) :
    Ends s (fun l s' => Yields (.many none (.symbol (.declaration (s.loopDepth != 0)))) (l.map .stmt) s s' ∧
      Contained l s s') (declarations r.declaration bound s) := by
  refine (collecting_declarations r.declaration).ends (fun _ => rfl)
    (fun _ s l s' => Yields (.many none (.symbol (.declaration (s.loopDepth != 0)))) (l.map .stmt) s s' ∧ Contained l s s')
    (fun _ s _ => ⟨.done, fun _ _ h => by simp at h⟩) hr.declaration ?_ bound hn
  intro _ s s₁ s₂ first rest hlater hlater' ⟨hfirst, hcontained⟩ ⟨hrest, hcontained'⟩
  rw [hlater.loopDepth] at hrest
  rw [List.map_append]
  exact ⟨hfirst.more hrest, hcontained.append hlater hlater' hcontained'⟩

theorem block_ends (hr : r.Sound n) (hn : s.tokens.length < n) :
    Ends s (fun body s' => Yields (.seq [.many none (.symbol (.declaration (s.loopDepth != 0))),
      .token .rightBrace]) (body.map .stmt) s s' ∧ Contained body s s') (block r s) := by
  refine (declarations_ends hr s.tokens.length hn).bind fun body s₁ hlater ⟨hbody, hcontained⟩ => ?_
  refine (expect_ends _ _ s₁).bind fun _ s₂ hlater' ⟨hbrace, _⟩ => .pure ⟨?_, ?_⟩
  · simpa using hbody.cons hbrace.single
  · exact fun hclean => hcontained (hlater.clean hlater' hclean).1

theorem atLoopDepth_ends {α : Type} {depth : Nat → Nat} {p : Parser α} {post : α → ParserState → Prop}
    (h : Ends { s with loopDepth := depth s.loopDepth } post (p { s with loopDepth := depth s.loopDepth })) :
    Ends s (fun a s' => ∃ s₁, post a s₁ ∧ s' = { s₁ with loopDepth := s.loopDepth })
      (atLoopDepth depth p s) := by
  unfold atLoopDepth
  cases hp : p { s with loopDepth := depth s.loopDepth } with
  | ok a s₁ =>
    rw [hp] at h
    exact ⟨⟨h.1.tokens, h.1.endLine, rfl, h.1.errors, h.1.nextId⟩, s₁, h.2, rfl⟩
  | error e s₁ =>
    rw [hp] at h
    exact ⟨⟨h.1.tokens, h.1.endLine, rfl, h.1.errors, h.1.nextId⟩, h.2⟩

theorem function_ends (hr : r.Sound n) (role : FunctionRole) (hn : s.tokens.length ≤ n) :
    Ends s (fun f s' => Yields (.symbol .function) [.function role f] s s') (function r s) := by
  unfold function
  refine (expect_ends _ _ s).bind fun _ s₁ _ ⟨hopen, hlt⟩ => ?_
  refine (commaList_ends (fun s _ => declaredName_ends _ s) _ _ (Nat.le_refl s₁.tokens.length)).bind fun params s₂ hlater₂ hparams => ?_
  refine (expect_ends _ _ s₂).bind fun _ s₃ hlater₃ ⟨hclose, _⟩ => ?_
  refine (expect_ends _ _ s₃).bind fun _ s₄ hlater₄ ⟨hbrace, _⟩ => ?_
  have hn₄ : s₄.tokens.length < n :=
    Nat.lt_of_le_of_lt ((hlater₂.trans hlater₃).trans hlater₄).length_le (Nat.lt_of_lt_of_le hlt hn)
  refine (atLoopDepth_ends (block_ends hr hn₄)).bind fun body s₅ _ ⟨s', ⟨hbody, hcontained⟩, hs⟩ => ?_
  subst hs
  have hblock : Yields (.symbol (.block false)) (body.map .stmt) s₃ { s' with loopDepth := s₄.loopDepth } :=
    .symbol _ (hbrace.cons hbody.atLoopDepth)
  have hall := Yields.symbol .function (hopen.cons (hparams.cons (hclose.cons hblock.single)))
  have hparts : (Node.function role (.mk params body)).children.Subperm
      (params.flatMap (fun name => [.stmt (.var name none)]) ++ body.map .stmt) := by
    simpa [Function.body] using (List.sublist_append_right _ _).subperm
  refine .pure (hall.plain _ rfl hparts trivial (fun hclean statement hmem hescapes => ?_) fun hworded name hmem => ?_)
  · have hlater := ((hopen.trans hlater₂).trans hlater₃).trans hlater₄
    exact hcontained (hlater.clean hbody.atLoopDepth.toLater hclean).2 statement hmem hescapes rfl
  · have hname : name ∈ params := hmem
    exact (hall.unreserved hworded (.stmt (.var name none)) (by simp [hname])).here

/-! ## Primary expressions -/

theorem lambda_ends (hr : r.Sound n) (hn : s.tokens.length ≤ n) :
    Ends s (fun e s' => Yields (.symbol .function) [.expr e] s s' ∧ ∀ φ, e.phrase φ = φ)
      ((function r >>= fun f => pure (Expr.lambda f)) s) :=
  (function_ends hr .function hn).bind fun _ _ _ hf =>
    .pure ⟨hf.plain _ rfl (by simp [Node.children, Node.parts]) trivial (fun _ => trivial) fun _ => trivial, fun _ => rfl⟩

theorem atom_ends {t : Token} {rest : List Token} {e : Expr} (h : s.tokens = t :: rest)
    (hkind : t.kind ∈ atoms) (he : (Node.expr e).references = []) (hchildren : (Node.expr e).children = [])
    (hphrase : ∀ φ, e.phrase φ = φ) :
    Ends s (YieldsExpr .primary · s ·) ((advance >>= fun _ => pure e) s) := by
  refine ends_advance h (.pure ?_)
  rw [YieldsExpr, hphrase]
  have hatom := Yields.symbol .primary ((Yields.oneOf h hkind).choice (by simp))
  have hsettled : (Node.expr e).Settled := by
    cases e with
    | binary left op right => cases hchildren
    | _ => trivial
  have hunreserved : (Node.expr e).Unreserved := by
    cases e with
    | «variable» use | assign use value => simp [Expr.references] at he
    | _ => trivial
  exact hatom.node _ (by simp [hchildren]) (by simp [he]) hsettled (fun _ => trivial) fun _ => hunreserved

/-- An operator without left operand is reported, and what follows it is read in vain. -/
theorem missingOperand_ends {post : Expr → ParserState → Prop} (hr : r.Sound n) {t : Token}
    {rest : List Token} (h : s.tokens = t :: rest) (hn : s.tokens.length ≤ n) :
    Ends s post ((do
      advance
      report t .missingLeftOperand
      let _ ← r.expression
      throw GivenUp.reported) s) := by
  refine ends_advance h ?_
  let s₁ : ParserState := { s with tokens := rest, errors := s.errors ++ [⟨t, .missingLeftOperand⟩] }
  have hlater : Later { s with tokens := rest } s₁ :=
    ⟨List.suffix_refl _, rfl, rfl, List.prefix_append _ _, Nat.le_refl _⟩
  have hnew : s.errors.length < s₁.errors.length := by simp [s₁]
  show Ends _ post ((r.expression >>= fun _ => throw .reported) s₁)
  have hexpr := hr.expression s₁ (by rw [h] at hn; exact hn)
  rw [bind_eq_match]
  cases hresult : r.expression s₁ with
  | ok e s₂ =>
    rw [hresult] at hexpr
    exact ⟨hlater.trans hexpr.1, rfl, Nat.lt_of_lt_of_le hnew hexpr.1.errors_le⟩
  | error e s₂ =>
    rw [hresult] at hexpr
    exact ⟨hlater.trans hexpr.1, hexpr.2.1, Nat.lt_of_lt_of_le hnew hexpr.1.errors_le⟩

theorem primary_ends (hr : r.Sound n) (hn : s.tokens.length ≤ n) :
    Ends s (YieldsExpr .primary · s ·) (primary r s) := by
  rw [primary, bind_current]
  rcases htokens : s.tokens with _ | ⟨t, rest⟩
  · exact Ends.fail _ _
  have hrest : rest.length < n := by rw [htokens] at hn; exact hn
  have hatom {e : Expr} (hkind : t.kind ∈ atoms) (he : (Node.expr e).references = [])
      (hchildren : (Node.expr e).children = []) (hphrase : ∀ φ, e.phrase φ = φ) :=
    atom_ends htokens hkind he hchildren hphrase
  simp only [List.head?_cons, Option.getD_some]
  cases hkind : t.kind with
  | falseKeyword => exact hatom (by simp [hkind, atoms]) rfl rfl fun _ => rfl
  | trueKeyword => exact hatom (by simp [hkind, atoms]) rfl rfl fun _ => rfl
  | nilKeyword => exact hatom (by simp [hkind, atoms]) rfl rfl fun _ => rfl
  | number => exact hatom (by simp [hkind, atoms]) rfl rfl fun _ => rfl
  | string => exact hatom (by simp [hkind, atoms]) rfl rfl fun _ => rfl
  | thisKeyword =>
    refine ends_advance htokens ((fresh_ends _).bind fun id s₂ _ hid => .pure ?_)
    have hatom : t.kind ∈ atoms := by simp [hkind, atoms]
    have hall := (Yields.oneOf htokens hatom).last hid
    have hnode := hall.node (.expr (.this id t.line)) (by simp [Node.children, Node.parts])
      (by simp [Expr.references]) trivial (fun _ => trivial) fun _ => trivial
    exact .symbol .primary (hnode.choice (by simp))
  | parentKeyword =>
    refine ends_advance htokens ?_
    refine (expect_ends _ _ _).bind fun _ s₂ _ hdot => ?_
    refine (expectName_ends _ s₂).bind fun method s₃ _ hname => ?_
    refine (fresh_ends s₃).bind fun id s₄ _ hid => .pure ?_
    have hall := ((Yields.token htokens hkind).cons (hdot.1.cons hname.1.single)).last hid
    have hnode := hall.node (.expr (.parent id ⟨t.lexeme, t.line⟩ method))
      (by simp [Node.children, Node.parts]) (by simp [Expr.references]) trivial (fun _ => trivial) fun _ => trivial
    exact .symbol .primary (hnode.choice (by simp))
  | identifier =>
    refine ends_advance htokens ((reference_ends _ _).bind fun use s₂ _ huse => .pure ?_)
    have hall := (Yields.token htokens hkind).last huse.2
    exact hall.node (.expr (.variable use)) (by simp [Node.children, Node.parts]) (by simp [Expr.references]) trivial
      (fun _ => trivial) fun hworded => by
        rw [Node.Unreserved, huse.1]
        exact hworded t (by simp [htokens]) hkind
  | leftParen =>
    refine ends_advance htokens ?_
    refine (hr.expression _ hrest).bind fun inner s₂ _ hinner => ?_
    refine (expect_ends _ _ s₂).bind fun _ s₃ _ hclose => .pure ?_
    have hall := (Yields.token htokens hkind).cons (hinner.cons hclose.1.single)
    have hnode := hall.plain (.expr (.group inner)) rfl (by simp [Node.children, Node.parts]) trivial
      (fun _ => trivial) fun _ => trivial
    exact .symbol .primary (hnode.choice (by simp))
  | funKeyword =>
    refine ends_advance htokens ((lambda_ends hr (Nat.le_of_lt hrest)).mono fun e s₂ _ he => ?_)
    rw [YieldsExpr, he.2]
    exact .symbol .primary (((Yields.token htokens hkind).cons he.1.single).choice (by simp))
  | leftBracket =>
    refine ends_advance htokens ?_
    refine (commaList_ends (fun s hs => hr.expression s (Nat.lt_of_le_of_lt hs hrest)) _ _
      (Nat.le_refl _)).bind fun elements s₂ _ helements => ?_
    refine (expect_ends _ _ s₂).bind fun _ s₃ _ hclose => .pure ?_
    have hall := (Yields.token htokens hkind).cons (helements.cons hclose.1.single)
    have hnode := hall.plain (.expr (.list t.line elements)) rfl
      (by simp [List.map_eq_flatMap, List.Subperm.refl]) trivial (fun _ => trivial) fun _ => trivial
    exact .symbol .primary (hnode.choice (by simp))
  | bangEqual | equalEqual | greater | greaterEqual | less | lessEqual | plus | star | slash =>
    exact missingOperand_ends hr htokens hn
  | _ => exact Ends.fail _ _

/-! ## Calls and operators -/

theorem Spans.call_suffix {xs ys : List Token} (h : Spans (.seq [.symbol .call, suffixPhrase]) xs ys) :
    Spans (.symbol .call) xs ys := by
  obtain ⟨us, htarget, hsuffix⟩ := spans_pair.1 h
  have hproduction : Spans (production .call) xs us := htarget.of_symbol
  exact .symbol (hproduction.snoc hsuffix)

/-- A suffix behind a call so far makes a longer call. -/
theorem suffix_ends (hr : r.Sound n) {s₁ : ParserState} {target : Expr} (htarget : YieldsExpr .call target s s₁)
    {t : Token} {rest : List Token} (htokens : s₁.tokens = t :: rest) (hn : rest.length < n)
    (hopens : opensSuffix t.kind) :
    Ends { s₁ with tokens := rest } (YieldsExpr .call · s ·) (suffix r target t { s₁ with tokens := rest }) := by
  have hcall := htarget.yields covers_call
  unfold suffix
  cases hkind : t.kind with
  | leftParen =>
    refine (commaList_ends (fun s hs => hr.expression s (Nat.lt_of_le_of_lt hs hn)) _ _
      (Nat.le_refl _)).bind fun arguments s₂ _ harguments => ?_
    refine (expect_ends _ _ s₂).bind fun closing s₃ _ hclose => .pure ?_
    have hsuffix : Yields suffixPhrase _ s₁ s₃ :=
      ((Yields.token htokens hkind).cons (harguments.cons hclose.1.single)).choice (by simp [maxItems])
    have hall := hcall.cons hsuffix.single
    have hnode := hall.plain (.expr (.call target closing.line arguments)) rfl
      (by simp [List.map_eq_flatMap, List.Subperm.refl]) trivial (fun _ => trivial) fun _ => trivial
    exact hnode.imp Spans.call_suffix
  | leftBracket =>
    refine (hr.expression _ hn).bind fun position s₂ _ hposition => ?_
    refine (expect_ends _ _ s₂).bind fun _ s₃ _ hclose => .pure ?_
    have hsuffix : Yields suffixPhrase _ s₁ s₃ :=
      ((Yields.token htokens hkind).cons (hposition.cons hclose.1.single)).choice (by simp)
    have hall := hcall.cons hsuffix.single
    have hnode := hall.plain (.expr (.index target t.line position)) rfl
      (by simp [Node.children, Node.parts, List.Subperm.refl]) trivial (fun _ => trivial) fun _ => trivial
    exact hnode.imp Spans.call_suffix
  | dot =>
    refine (expectName_ends _ _).bind fun name s₂ _ hname => .pure ?_
    have hall := hcall.cons ((Yields.token htokens hkind).cons hname.1.single)
    exact hall.plain (.expr (.get target name)) rfl
      (by simp [Node.children, Node.parts]) trivial (fun _ => trivial) fun _ => trivial
  | _ => simp [hkind, opensSuffix] at hopens

theorem call_ends (hr : r.Sound n) (hn : s.tokens.length ≤ n) :
    Ends s (YieldsExpr .call · s ·) (call r s) := by
  have hloop (bound : Nat) (target : Expr) (s₁ : ParserState) (htarget : YieldsExpr .call target s s₁) :
      Ends s₁ (YieldsExpr .call · s ·) (suffixes r bound target s₁) := by
    induction bound generalizing target s₁ with
    | zero => exact .pure htarget
    | succ bound ih =>
      refine ends_acceptWhere (fun _ => .pure htarget) fun t rest t' htokens ht => ?_
      simp only [Option.ite_none_right_eq_some, Option.some.injEq] at ht
      obtain ⟨hopens, rfl⟩ := ht
      have hshorter := htarget.length_le
      rw [htokens, List.length_cons] at hshorter
      exact (suffix_ends hr htarget htokens (by omega) hopens).bind fun target s₂ _ h => ih target s₂ h
  refine (primary_ends hr hn).bind fun target s₁ _ htarget => hloop s₁.tokens.length target s₁ ?_
  exact htarget.lift fun h => .symbol (h.cons (Spans.single .done))

theorem covers_unary : Covers .unary := fun _ _ h => .symbol (h.choice (by simp))

theorem unary_ends (hr : r.Sound n) (hn : s.tokens.length ≤ n) :
    Ends s (YieldsExpr .unary · s ·) (unary r s) := by
  refine ends_acceptWhere (fun _ => ?_) fun t rest op htokens hop => ?_
  · exact (call_ends hr hn).mono fun e s' _ h => h.lift fun hs => covers_unary _ _ hs
  · obtain ⟨kind, hkind, rfl⟩ := Option.map_eq_some_iff.1 hop
    have hsign : t.kind ∈ [.bang, .minus] := by
      cases ht : t.kind <;> simp [ht, unaryKind] at hkind ⊢
    rw [htokens] at hn
    refine (hr.unary { s with tokens := rest } hn).bind fun operand s₂ _ hoperand => .pure ?_
    have hall := (Yields.oneOf htokens hsign).cons hoperand.single
    have hnode := hall.plain (.expr (.unary ⟨kind, t.lexeme, t.line⟩ operand)) rfl
      (by simp [Node.children, Node.parts]) trivial (fun _ => trivial) fun _ => trivial
    exact .symbol .unary (hnode.choice (by simp))

/-- What is read as an operator between operands is one. -/
theorem isBinary_binary {operator : TokenKind → Option TokenKind}
    (h : operator ∈ [factorKind, termKind, comparisonKind, equalityKind]) : IsBinary operator Expr.binary where
  children _ _ _ := rfl
  uses _ _ _ := rfl
  phrase _ _ _ _ := rfl
  settled left op right token := by
    have hkinds (kind : TokenKind) (hkind : operator token = some kind) : (BinaryKind.ofToken? kind).isSome = true := by
      simp only [List.mem_cons, List.not_mem_nil, or_false] at h
      rcases h with rfl | rfl | rfl | rfl <;> cases token <;> cases hkind <;> rfl
    exact hkinds op.kind
  unreserved _ _ _ := trivial

theorem isBinary_logical (operator : TokenKind → Option LogicalKind) : IsBinary operator Expr.logical where
  children _ _ _ := rfl
  uses _ _ _ := rfl
  phrase _ _ _ _ := rfl
  settled _ _ _ _ _ := trivial
  unreserved _ _ _ := trivial

theorem covers_factor : Covers .factor := covers_unary.chain rfl

theorem covers_term : Covers .term := covers_factor.chain rfl

theorem covers_comparison : Covers .comparison := covers_term.chain rfl

theorem covers_equality : Covers .equality := covers_comparison.chain rfl

theorem covers_conjunction : Covers .conjunction := covers_equality.chain rfl

theorem covers_disjunction : Covers .disjunction := covers_conjunction.chain rfl

theorem factor_ends (hr : r.Sound n) (hn : s.tokens.length ≤ n) :
    Ends s (YieldsExpr .factor · s ·) (factor r s) :=
  leftAssociative_ends rfl (fun kind => by cases kind <;> simp [factorKind]) (isBinary_binary (by simp)) covers_unary
    (fun _ => unary_ends hr) hn

theorem term_ends (hr : r.Sound n) (hn : s.tokens.length ≤ n) :
    Ends s (YieldsExpr .term · s ·) (term r s) :=
  leftAssociative_ends rfl (fun kind => by cases kind <;> simp [termKind]) (isBinary_binary (by simp)) covers_factor
    (fun _ => factor_ends hr) hn

theorem comparison_ends (hr : r.Sound n) (hn : s.tokens.length ≤ n) :
    Ends s (YieldsExpr .comparison · s ·) (comparison r s) :=
  leftAssociative_ends rfl (fun kind => by cases kind <;> simp [comparisonKind]) (isBinary_binary (by simp)) covers_term
    (fun _ => term_ends hr) hn

theorem equality_ends (hr : r.Sound n) (hn : s.tokens.length ≤ n) :
    Ends s (YieldsExpr .equality · s ·) (equality r s) :=
  leftAssociative_ends rfl (fun kind => by cases kind <;> simp [equalityKind]) (isBinary_binary (by simp))
    covers_comparison (fun _ => comparison_ends hr) hn

theorem conjunction_ends (hr : r.Sound n) (hn : s.tokens.length ≤ n) :
    Ends s (YieldsExpr .conjunction · s ·) (conjunction r s) :=
  leftAssociative_ends rfl (fun kind => by cases kind <;> simp [andKind]) (isBinary_logical _) covers_equality
    (fun _ => equality_ends hr) hn

theorem disjunction_ends (hr : r.Sound n) (hn : s.tokens.length ≤ n) :
    Ends s (YieldsExpr .disjunction · s ·) (disjunction r s) :=
  leftAssociative_ends rfl (fun kind => by cases kind <;> simp [orKind]) (isBinary_logical _)
    covers_conjunction (fun _ => conjunction_ends hr) hn

theorem covers_conditional : Covers .conditional := fun xs ys h =>
  .symbol ((covers_disjunction xs ys h).cons (Spans.single .absent))

theorem conditional_ends (hr : r.Sound n) (hn : s.tokens.length ≤ n) :
    Ends s (YieldsExpr .conditional · s ·) (conditional r s) := by
  refine (disjunction_ends hr hn).bind fun condition s₁ _ hcondition => ?_
  refine ends_accept (fun _ => ?_) fun t rest htokens hkind => ?_
  · exact .pure (hcondition.lift fun h => .symbol (h.cons (Spans.single .absent)))
  have hn₁ := hcondition.length_le
  rw [htokens, List.length_cons] at hn₁
  refine (hr.expression { s₁ with tokens := rest } (by simp only; omega)).bind fun thenBranch s₂ hlater hthen => ?_
  refine (expect_ends _ _ s₂).bind fun _ s₃ hlater' ⟨hcolon, _⟩ => ?_
  have hn₃ := (hlater.trans hlater').length_le
  refine (hr.conditional s₃ (by simp only at hn₃; omega)).bind fun elseBranch s₄ _ helse => .pure ?_
  have hrest : Yields (.maybe _) _ s₁ s₄ :=
    ((Yields.token htokens hkind).cons (hthen.cons (hcolon.cons helse.single))).present
  have hall := (hcondition.yields covers_disjunction).cons hrest.single
  exact .symbol .conditional (hall.plain (.expr (.conditional condition thenBranch elseBranch)) rfl
    (by simp [Node.children, Node.parts, List.Subperm.refl]) trivial (fun _ => trivial) fun _ => trivial)

/-! ## Assignments -/

theorem Spans.assign_variable {xs ys : List Token}
    (h : Spans (.seq [.token .identifier, .token .equal, .symbol .assignment]) xs ys) :
    Spans (.symbol .assignment) xs ys := by
  have htarget : Spans (.maybe (.seq [.symbol .call, .token .dot])) xs xs := .absent
  exact .symbol (.choice (htarget.cons h) (by simp))

theorem Spans.assign_property {xs ys : List Token}
    (h : Spans (.seq [.seq [.symbol .call, .token .dot, .token .identifier], .token .equal, .symbol .assignment])
      xs ys) : Spans (.symbol .assignment) xs ys := by
  obtain ⟨us, htarget, hrest⟩ := spans_cons.1 h
  obtain ⟨vs, hcall, htarget⟩ := spans_cons.1 htarget
  obtain ⟨ws, hdot, hname⟩ := spans_pair.1 htarget
  exact .symbol (.choice ((hcall.cons hdot.single).present.cons (hname.cons hrest)) (by simp))

theorem invalidTarget_ends {target value : Expr} {t : Token} {s₁ s₂ : ParserState} {φ : Phrase}
    (htarget : Yields φ [.expr target] s s₁)
    (hvalue : Yields (.seq [.token .equal, .symbol .assignment]) [.expr value] s₁ s₂) :
    Ends s₂ (fun e s' => Yields (.symbol .assignment) [.expr e] s s')
      ((report t .invalidAssignmentTarget >>= fun _ => pure target) s₂) := by
  have hlater : Later s₂ { s₂ with errors := s₂.errors ++ [⟨t, .invalidAssignmentTarget⟩] } :=
    ⟨List.suffix_refl _, rfl, rfl, List.prefix_append _ _, Nat.le_refl _⟩
  have hnew (h : (s₂.errors ++ [⟨t, .invalidAssignmentTarget⟩]) = s₂.errors) : False := by simp at h
  have hall := (htarget.cons hvalue).last (.ofLater hlater fun h => (hnew h).elim)
  refine ⟨hlater, (hall.subperm (List.Sublist.subperm (by simp))).imp_of_clean fun hclean _ => ?_⟩
  exact (hnew ((htarget.trans hvalue.toLater).clean hlater hclean).2).elim

/-- The value has been read. What is left is to make the target that of an assignment. -/
theorem assignTo_ends {target value : Expr} {t : Token} {s₁ s₂ : ParserState}
    (htarget : YieldsExpr .conditional target s s₁)
    (hvalue : Yields (.seq [.token .equal, .symbol .assignment]) [.expr value] s₁ s₂) :
    Ends s₂ (fun e s' => Yields (.symbol .assignment) [.expr e] s s') (assignTo target t value s₂) := by
  cases target with
  | «variable» use =>
    refine (reference_ends use.name s₂).bind fun use' s₃ _ ⟨hname, huse⟩ => .pure ?_
    have hall := (htarget.cons hvalue).last huse
    have hnode := hall.node (.expr (.assign use' value)) (by simp [Node.children, Node.parts]) (by
      simpa [Expr.references] using
        (List.perm_append_singleton use'.id (value.references.map (·.id))).symm.subperm.trans
          (List.sublist_cons_self _ _).subperm)
      trivial (fun _ => trivial) fun hworded => by
        have htarget : (Node.expr (.variable use)).Unreserved :=
          (htarget.unreserved hworded _ (List.mem_singleton_self _)).here
        rw [Node.Unreserved, hname]
        exact htarget
    exact hnode.imp Spans.assign_variable
  | get object name =>
    have hall := (htarget.cons hvalue).children rfl
    have hnode := hall.plain (.expr (.set object name value)) rfl
      (by simp [Node.children, Node.parts, List.Subperm.refl]) trivial (fun _ => trivial) fun _ => trivial
    exact .pure (hnode.imp Spans.assign_property)
  | _ => exact invalidTarget_ends htarget hvalue

theorem expression_ends (hr : r.Sound n) (hn : s.tokens.length ≤ n) :
    Ends s (fun e s' => Yields (.symbol .expression) [.expr e] s s') (expression r s) := by
  refine (conditional_ends hr hn).bind fun target s₁ _ htarget => ?_
  refine ends_accept (fun _ => ?_) fun t rest htokens hkind => ?_
  · have hassignment := Yields.symbol .assignment ((htarget.yields covers_conditional).choice (by simp))
    exact .pure (.symbol .expression hassignment)
  · have hn₁ := htarget.length_le
    rw [htokens, List.length_cons] at hn₁
    refine (hr.expression { s₁ with tokens := rest } (by simp only; omega)).bind fun value s₂ _ hvalue => ?_
    have hassigned := (Yields.token htokens hkind).cons (Yields.single (hvalue.imp fun h => h.of_symbol))
    exact (assignTo_ends htarget hassigned).mono fun e s' _ h => .symbol .expression h

end Rules

end TreeWalk
