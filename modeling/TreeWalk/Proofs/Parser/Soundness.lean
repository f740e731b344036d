import TreeWalk.Proofs.Parser.Expressions

/-!
# The parser reads its grammar

One lemma per rule of declarations and statements, and `sound_rules` closes the recursion: all rules
yield what they are for.
-/

namespace TreeWalk

open TreeWalk.Parser TreeWalk.Grammar

section Rules

variable {r : Rules} {n : Nat} {s : ParserState}

/-! ## Declarations -/

/-- The declaration has been read, and no `break` or `continue` escapes from it. -/
def YieldsDeclaration (φ : Phrase) (statement : Stmt) (s s' : ParserState) : Prop :=
  Yields φ [.stmt statement] s s' ∧ ¬ statement.Escapes

theorem varDeclaration_ends (hr : r.Sound n) (hn : s.tokens.length < n) :
    Ends s (YieldsDeclaration (.seq [.token .identifier, .maybe (.seq [.token .equal, .symbol .expression]),
      .token .semicolon]) · s ·) (varDeclaration r s) := by
  simp only [varDeclaration, bind_map_left]
  refine (expectName_ends _ s).bind fun name s₁ hlater ⟨hname, hword⟩ => ?_
  have hrest (initializer : Option Expr) {s₂ : ParserState} (h : Yields (.maybe (.seq [.token .equal,
      .symbol .expression])) (initializer.toList.map .expr) s₁ s₂) :
      Ends s₂ (YieldsDeclaration (.seq [.token .identifier,
        .maybe (.seq [.token .equal, .symbol .expression]), .token .semicolon]) · s ·)
        ((expect .semicolon "';' after variable declaration" >>= fun _ => pure (.var name initializer)) s₂) := by
    refine (expect_ends _ _ s₂).bind fun _ s₃ _ ⟨hclose, _⟩ => .pure ⟨?_, nofun⟩
    have hall := hname.cons (h.cons hclose.single)
    exact hall.plain (.stmt (.var name initializer)) rfl
      (by cases initializer <;> simp [Node.children, Node.parts]) trivial (fun _ => trivial) hword
  refine ends_accept (fun _ => hrest none .absent) fun t rest htokens hkind => ?_
  have hn₁ := hlater.length_le
  rw [htokens, List.length_cons] at hn₁
  refine (hr.expression { s₁ with tokens := rest } (by simp only; omega)).bind fun value s₂ _ hvalue => ?_
  exact hrest (some value) ((Yields.token htokens hkind).cons hvalue.single).present

theorem functionDeclaration_ends (hr : r.Sound n) (hn : s.tokens.length < n) :
    Ends s (YieldsDeclaration (.seq [.token .identifier, .symbol .function]) · s ·)
      (functionDeclaration r s) := by
  refine (expectName_ends _ s).bind fun name s₁ hlater ⟨hname, hword⟩ => ?_
  refine (function_ends hr .function (Nat.le_trans hlater.length_le (Nat.le_of_lt hn))).bind fun f s₂ _ hf => ?_
  have hall := hname.cons hf.single
  exact .pure ⟨hall.plain (.stmt (.function name f)) rfl (by simp [Node.children, Node.parts]) trivial
    (fun _ => trivial) hword, nofun⟩

/-- The methods of a class as nodes. -/
def methodNodes (methods : List Method) : List Node :=
  methods.map fun m => .function (methodRole m.name) m.function

theorem method_ends (hr : r.Sound n) (hn : s.tokens.length < n) :
    Ends s (fun m s' => Yields (.symbol .method) (methodNodes [m]) s s')
      ((expectName "method name" >>= fun name => function r >>= fun body => pure (Method.mk name body)) s) := by
  refine (expectName_ends _ s).bind fun name s₁ hlater ⟨hname, _⟩ => ?_
  have hn₁ := Nat.le_of_lt (Nat.lt_of_le_of_lt hlater.length_le hn)
  exact (function_ends hr (methodRole name) hn₁).bind fun f s₂ _ hf => .pure (.symbol .method (hname.cons hf.single))

theorem methods_ends (hr : r.Sound n) (bound : Nat) (hn : s.tokens.length < n) :
    Ends s (fun ms s' => Yields (.many none (.symbol .method)) (methodNodes ms) s s') (methods r bound s) :=
  (collecting_methods r).ends (fun _ => rfl) (fun _ s ms s' => Yields (.many none (.symbol .method)) (methodNodes ms) s s')
    (fun _ _ _ => .done) (fun _ hn => method_ends hr hn) (fun _ _ hfirst hrest => hfirst.more hrest) bound hn

theorem parentClause_ends (s : ParserState) :
    Ends s (fun o s' => Yields (.maybe (.seq [.oneOf [.colon, .less], .token .identifier]))
      (o.toList.map fun use => .expr (.variable use)) s s') (parentClause s) := by
  refine ends_acceptWhere (fun _ => .pure .absent) fun t rest t' htokens ht => ?_
  have hkind : t.kind ∈ [.colon, .less] := by
    simp only [Option.ite_none_right_eq_some, Bool.or_eq_true, beq_iff_eq] at ht
    simpa using ht.1
  refine (declaredName_ends _ _).bind fun name s₁ _ hname => ?_
  refine (reference_ends name s₁).bind fun use s₂ _ ⟨huse, hid⟩ => .pure ?_
  have hall := ((Yields.oneOf htokens hkind).cons hname.single).last hid
  have hnode := hall.node (.expr (.variable use)) (by simp [Node.children, Node.parts]) (by simp [Expr.references, Stmt.references])
    trivial (fun _ => trivial) fun hworded => by
      have hname : (Node.stmt (.var name none)).Unreserved := (hall.unreserved hworded _ (by simp)).here
      rw [Node.Unreserved, huse]
      exact hname
  exact hnode.present

theorem classDeclaration_ends (hr : r.Sound n) (hn : s.tokens.length < n) :
    Ends s (YieldsDeclaration (.seq [.token .identifier,
      .maybe (.seq [.oneOf [.colon, .less], .token .identifier]), .token .leftBrace,
      .many none (.symbol .method), .token .rightBrace]) · s ·) (classDeclaration r s) := by
  refine (expectName_ends _ s).bind fun name s₁ hlater₁ ⟨hname, hword⟩ => ?_
  refine (parentClause_ends s₁).bind fun parent s₂ hlater₂ hparent => ?_
  refine (expect_ends _ _ s₂).bind fun _ s₃ hlater₃ ⟨hopen, _⟩ => ?_
  have hn₃ : s₃.tokens.length < n :=
    Nat.lt_of_le_of_lt ((hlater₁.trans hlater₂).trans hlater₃).length_le hn
  refine (methods_ends hr s₃.tokens.length hn₃).bind fun ms s₄ _ hms => ?_
  refine (expect_ends _ _ s₄).bind fun _ s₅ _ ⟨hclose, _⟩ => .pure ⟨?_, nofun⟩
  have hall := hname.cons (hparent.cons (hopen.cons (hms.cons hclose.single)))
  exact hall.plain (.stmt (.class name parent ms)) rfl
    (by simp [methodNodes, List.Subperm.refl]) trivial (fun _ => trivial) hword

/-! ## Statements -/

theorem unlessClosed_ends (hr : r.Sound n) (closing : TokenKind) (hn : s.tokens.length < n) :
    Ends s (fun o s' => Yields (.maybe (.symbol .expression)) (o.toList.map .expr) s s')
      (unlessClosed r closing s) := by
  show Ends s _ (ite (s.tokens.head?.any (·.kind == closing) = true) (pure none) (some <$> r.expression) s)
  split
  · exact .pure .absent
  · exact .map ((hr.expression s hn).mono fun e s' _ h => h.present)

theorem forInitializer_ends (hr : r.Sound n) (hn : s.tokens.length < n) :
    Ends s (fun o s' => Yields (.choice [.token .semicolon, .symbol .varDeclaration,
      .symbol .expressionStatement]) (o.toList.map .stmt) s s' ∧ ∀ first ∈ o, ¬ first.Escapes)
      (forInitializer r s) := by
  refine ends_accept (fun _ => ?_) fun t rest htokens hkind =>
    .pure ⟨(Yields.token htokens hkind).choice (by simp), by simp⟩
  refine ends_accept (fun _ => ?_) fun t rest htokens hkind => ?_
  · refine (hr.expression s hn).bind fun value s₁ _ hvalue => ?_
    refine (expect_ends _ _ s₁).bind fun _ s₂ _ hclose => .pure ⟨?_, fun first h => ?_⟩
    · have hall := (hvalue.cons hclose.1.single).plain (.stmt (.expression value)) rfl
        (by simp [Node.children, Node.parts]) trivial (fun _ => trivial) fun _ => trivial
      exact (Yields.symbol .expressionStatement hall).choice (by simp)
    · obtain rfl := Option.some.inj h
      rintro ⟨⟩
  · have hn₁ : rest.length < n := by
      rw [htokens, List.length_cons] at hn
      omega
    refine .map ((varDeclaration_ends hr hn₁).mono fun first s₁ _ hfirst => ⟨?_, fun other h => ?_⟩)
    · exact (Yields.symbol .varDeclaration ((Yields.token htokens hkind).cons hfirst.1)).choice (by simp)
    · exact Option.some.inj h ▸ hfirst.2

theorem loopBody_ends (hr : r.Sound n) (hn : s.tokens.length < n) :
    Ends s (fun body s' => (∀ beforeElse, (beforeElse = true → s'.tokens.head?.map (·.kind) = some .elseKeyword) →
      Yields (.symbol (.statement true beforeElse)) [.stmt body] s s') ∧ body.declaredName? = none)
      (atLoopDepth (· + 1) r.statement s) := by
  refine (atLoopDepth_ends (hr.statement { s with loopDepth := s.loopDepth + 1 } hn)).mono
    fun body s' _ ⟨s₁, h, hs⟩ => ?_
  subst hs
  exact ⟨fun beforeElse helse => (h.yields beforeElse helse).atLoopDepth, h.nameless⟩

theorem whileStatement_ends (hr : r.Sound n) (hn : s.tokens.length < n) :
    Ends s (YieldsStatement (fun beforeElse => .seq [.token .leftParen, .symbol .expression,
      .token .rightParen, .symbol (.statement true beforeElse)]) · s ·) (whileStatement r s) := by
  refine (expect_ends _ _ s).bind fun _ s₁ hlater₁ hopen => ?_
  have hn₁ := Nat.lt_of_le_of_lt hlater₁.length_le hn
  refine (hr.expression s₁ hn₁).bind fun condition s₂ hlater₂ hcondition => ?_
  refine (expect_ends _ _ s₂).bind fun _ s₃ hlater₃ hclose => ?_
  have hn₃ := Nat.lt_of_le_of_lt (hlater₂.trans hlater₃).length_le hn₁
  refine (loopBody_ends hr hn₃).bind fun body s₄ _ hbody => .pure ⟨fun e he => ?_, ?_, rfl⟩
  · have hall := hopen.1.cons (hcondition.cons (hclose.1.cons (hbody.1 e he).single))
    exact hall.plain (.stmt (.loop condition body none)) rfl
      (by simp [Node.children, Node.parts, List.Subperm.refl]) hbody.2 (fun _ => trivial) fun _ => trivial
  · exact fun _ statement hmem => by
      obtain rfl := List.mem_singleton.1 hmem
      rintro ⟨⟩

/-- The clauses and the body of a `for` are the parts of a loop. -/
theorem Yields.loop {φ : Phrase} {s s' : ParserState} {condition increment : Option Expr} {body : Stmt}
    (h : Yields φ (condition.toList.map .expr ++ (increment.toList.map .expr ++ [.stmt body])) s s')
    (hnameless : body.declaredName? = none) :
    Yields φ [.stmt (.loop (condition.getD (.literal (.bool true))) body increment)] s s' := by
  have hall : Yields φ (.expr (condition.getD (.literal (.bool true))) ::
      (increment.toList.map .expr ++ [.stmt body])) s s' := by
    cases condition with
    | none => exact h.literal _
    | some condition => exact h
  refine hall.plain _ rfl ?_ hnameless (fun _ => trivial) fun _ => trivial
  simpa [Node.children, Node.parts, Function.comp_def] using
    ((List.perm_append_singleton (Node.stmt body) (increment.toList.map Node.expr)).symm.cons _).subperm

theorem forStatement_ends (hr : r.Sound n) (hn : s.tokens.length < n) :
    Ends s (YieldsStatement (fun beforeElse => .seq [.token .leftParen,
      .choice [.token .semicolon, .symbol .varDeclaration, .symbol .expressionStatement],
      .maybe (.symbol .expression), .token .semicolon, .maybe (.symbol .expression), .token .rightParen,
      .symbol (.statement true beforeElse)]) · s ·) (forStatement r s) := by
  refine (expect_ends _ _ s).bind fun _ s₁ hlater₁ ⟨hopen, _⟩ => ?_
  have hn₁ := Nat.lt_of_le_of_lt hlater₁.length_le hn
  refine (forInitializer_ends hr hn₁).bind fun initializer s₂ hlater₂ ⟨hinitializer, hescapes⟩ => ?_
  have hn₂ := Nat.lt_of_le_of_lt hlater₂.length_le hn₁
  refine (unlessClosed_ends hr _ hn₂).bind fun condition s₃ hlater₃ hcondition => ?_
  refine (expect_ends _ _ s₃).bind fun _ s₄ hlater₄ ⟨hsemicolon, _⟩ => ?_
  have hn₄ := Nat.lt_of_le_of_lt (hlater₃.trans hlater₄).length_le hn₂
  refine (unlessClosed_ends hr _ hn₄).bind fun increment s₅ hlater₅ hincrement => ?_
  refine (expect_ends _ _ s₅).bind fun _ s₆ hlater₆ ⟨hclose, _⟩ => ?_
  have hn₆ := Nat.lt_of_le_of_lt (hlater₅.trans hlater₆).length_le hn₄
  refine (loopBody_ends hr hn₆).bind fun body s₇ _ ⟨hbody, hnameless⟩ => ?_
  have hloop (e : Bool) (he : e = true → s₇.tokens.head?.map (·.kind) = some .elseKeyword) :=
    (hcondition.cons (hsemicolon.cons (hincrement.cons (hclose.cons (hbody e he).single)))).loop hnameless
  cases initializer with
  | none =>
    refine .pure ⟨fun e he => hopen.cons (hinitializer.cons (hloop e he)), fun _ statement hmem => ?_, rfl⟩
    obtain rfl := List.mem_singleton.1 hmem
    exact nofun
  | some first =>
    refine .pure ⟨fun e he => ?_, fun _ statement hmem hblock => ?_, rfl⟩
    · have hall := hopen.cons (hinitializer.cons (hloop e he))
      exact hall.plain (.stmt (.block _)) rfl (by simp [List.Subperm.refl]) trivial (fun _ => trivial) fun _ => trivial
    · obtain rfl := List.mem_singleton.1 hmem
      obtain _ | _ | ⟨hmem, hinner⟩ := hblock
      rcases List.mem_pair.1 hmem with heq | heq
      · exact (hescapes first rfl (heq ▸ hinner)).elim
      · subst heq
        cases hinner

theorem ifStatement_ends (hr : r.Sound n) (hn : s.tokens.length < n) :
    Ends s (YieldsStatement (fun beforeElse => .seq [.token .leftParen, .symbol .expression,
      .token .rightParen, branches (s.loopDepth != 0) beforeElse]) · s ·)
      (ifStatement r s) := by
  refine (expect_ends _ _ s).bind fun _ s₁ hlater₁ ⟨hopen, _⟩ => ?_
  have hn₁ := Nat.lt_of_le_of_lt hlater₁.length_le hn
  refine (hr.expression s₁ hn₁).bind fun condition s₂ hlater₂ hcondition => ?_
  refine (expect_ends _ _ s₂).bind fun _ s₃ hlater₃ ⟨hclose, _⟩ => ?_
  have hn₃ := Nat.lt_of_le_of_lt (hlater₂.trans hlater₃).length_le hn₁
  refine (hr.statement s₃ hn₃).bind fun thenBranch s₄ hlater₄ hthen => ?_
  have hlater := (hlater₁.trans hlater₂).trans hlater₃
  have hthen' (e : Bool) (he : e = true → s₄.tokens.head?.map (·.kind) = some .elseKeyword) :
      Yields (.symbol (.statement (s.loopDepth != 0) e)) [.stmt thenBranch] s₃ s₄ := by
    have h := hthen.yields e he
    rwa [statementPhrase, hlater.loopDepth] at h
  have hcontained {s' : ParserState} (h : Later s₄ s') (hclean : s'.errors = s.errors)
      (hescapes : thenBranch.Escapes) : s.loopDepth ≠ 0 :=
    hlater.loopDepth ▸ hthen.contained (hlater₄.clean h (hlater.clean (hlater₄.trans h) hclean).2).1 _
      (List.mem_singleton_self _) hescapes
  refine ends_accept (fun hnext => ?_) fun t rest htokens hkind => ?_
  · refine .pure ⟨fun e he => ?_, fun hclean statement hmem hescapes => ?_, rfl⟩
    · have hfalse : e = false := by
        by_contra htrue
        obtain ⟨t, ht, hkind⟩ := Option.map_eq_some_iff.1 (he (by simpa using htrue))
        exact hnext t ht hkind
      subst hfalse
      have hbranch : Yields (branches (s.loopDepth != 0) false) [.stmt thenBranch] s₃ s₄ :=
        (hthen' false nofun).choice (List.mem_cons_of_mem _ (List.mem_singleton_self _))
      exact (hopen.cons (hcondition.cons (hclose.cons hbranch.single))).plain
        (.stmt (.branch condition thenBranch none)) rfl
        (by simp [Node.children, Node.parts, List.Subperm.refl]) ⟨hthen.nameless, nofun⟩ (fun _ => trivial) fun _ => trivial
    · obtain rfl := List.mem_singleton.1 hmem
      obtain _ | _ | _ | hinner := hescapes
      exact hcontained (.refl s₄) hclean hinner
  · have hn₄ := hlater₄.length_le
    rw [htokens, List.length_cons] at hn₄
    refine (hr.statement { s₄ with tokens := rest } (by simp only; omega)).bind fun elseBranch s₅ hlater₅ helse => ?_
    refine .pure ⟨fun e he => ?_, fun hclean statement hmem hescapes => ?_, rfl⟩
    · have helse' : Yields (.symbol (.statement (s.loopDepth != 0) e)) [.stmt elseBranch]
          { s₄ with tokens := rest } s₅ := by
        have h : Yields (.symbol (.statement (s₄.loopDepth != 0) e)) _ _ s₅ := helse.yields e he
        have hdepth : (s₄.loopDepth != 0) = (s.loopDepth != 0) := by rw [(hlater.trans hlater₄).loopDepth]
        rwa [hdepth] at h
      have hbranch : Yields (branches (s.loopDepth != 0) e) _ s₃ s₅ :=
        ((hthen' true fun _ => by simp [htokens, hkind]).cons
          ((Yields.token htokens hkind).cons helse'.single)).choice (List.mem_cons_self ..)
      exact (hopen.cons (hcondition.cons (hclose.cons hbranch.single))).plain
        (.stmt (.branch condition thenBranch (some elseBranch))) rfl
        (by simp [Node.children, Node.parts, List.Subperm.refl])
        ⟨hthen.nameless, fun _ h => Option.some.inj h ▸ helse.nameless⟩ (fun _ => trivial) fun _ => trivial
    · obtain rfl := List.mem_singleton.1 hmem
      have hlater' := (later_next htokens).trans hlater₅
      obtain _ | _ | _ | hinner | hinner := hescapes
      · exact hcontained hlater' hclean hinner
      · have hdepth := helse.contained
          ((hlater.trans (hlater₄.trans (later_next htokens))).clean hlater₅ hclean).2 _
          (List.mem_singleton_self _) hinner
        simpa only [hlater₄.loopDepth, hlater.loopDepth] using hdepth

/-- A statement is read when all behind its keyword is. -/
theorem YieldsStatement.keyword {φs : Bool → List Phrase} {statement : Stmt} {kind : TokenKind} {t : Token}
    {rest : List Token} {s' : ParserState}
    (h : YieldsStatement (fun e => .seq (φs e)) statement { s with tokens := rest } s') (σ : Bool → Symbol)
    (htokens : s.tokens = t :: rest) (hkind : t.kind = kind)
    (hproduction : ∀ e, production (σ e) = .seq (.token kind :: φs e))
    (hmem : ∀ e, .symbol (σ e) ∈ statements (s.loopDepth != 0) e) :
    YieldsStatement (statementPhrase s) statement s s' where
  yields e he := by
    have hall := (Yields.token htokens hkind).cons (h.yields e he)
    have hsymbol : Yields (.symbol (σ e)) [.stmt statement] s s' := .symbol _ (hproduction e ▸ hall)
    exact .symbol _ (hsymbol.choice (List.mem_append_left _ (hmem e)))
  contained := h.contained
  nameless := h.nameless

/-- A statement that reads the same in front of an `else`, and from which nothing escapes. -/
theorem YieldsStatement.simple {φ : Phrase} {statement : Stmt} {s' : ParserState}
    (h : Yields φ [.stmt statement] s s') (hmem : ∀ inLoop e, φ ∈ statements inLoop e)
    (hescapes : ¬ statement.Escapes) (hnameless : statement.declaredName? = none) :
    YieldsStatement (statementPhrase s) statement s s' where
  yields e _ := .symbol _ (h.choice (List.mem_append_left _ (hmem _ e)))
  contained _ other hother hbad := by
    obtain rfl := List.mem_singleton.1 hother
    exact (hescapes hbad).elim
  nameless := hnameless

theorem expressionStatement_ends (hr : r.Sound n) (hn : s.tokens.length ≤ n) :
    Ends s (YieldsStatement (statementPhrase s) · s ·) (expressionStatement r s) := by
  refine (expression_ends hr hn).bind fun value s₁ _ hvalue => ?_
  refine (expect_ends _ _ s₁).bind fun _ s₂ _ hclose => .pure ?_
  have hnode := (hvalue.cons hclose.1.single).plain (.stmt (.expression value)) rfl
    (by simp [Node.children, Node.parts]) trivial (fun _ => trivial) fun _ => trivial
  exact .simple (.symbol .expressionStatement hnode) (by simp [statements]) (by rintro ⟨⟩) rfl

/-- A `break` or `continue` is reported outside of a loop. -/
theorem loopControl_ends {keyword : Token} {word : String} {kind : TokenKind} {rest : List Token}
    (statement : Stmt) (σ : Symbol) (htokens : s.tokens = keyword :: rest) (hkind : keyword.kind = kind)
    (hσ : production σ = .seq [.token kind, .token .semicolon]) (hmem : .symbol σ ∈ loopControls true)
    (hchildren : (Node.stmt statement).children = []) (huses : (Node.stmt statement).uses = [])
    (hsettled : (Node.stmt statement).Settled) (hnameless : statement.declaredName? = none) :
    Ends { s with tokens := rest } (fun _ s' => YieldsStatement (statementPhrase s) statement s s')
      (loopControl keyword word { s with tokens := rest }) := by
  have hrest (s₁ : ParserState) (hlater : Later { s with tokens := rest } s₁) (hsame : s₁.tokens = rest)
      (hloop : s₁.errors = s.errors → s.loopDepth ≠ 0) :
      Ends s₁ (fun _ s' => YieldsStatement (statementPhrase s) statement s s')
        ((expect .semicolon "';' after loop control" >>= fun _ => pure ()) s₁) := by
    refine (expect_ends _ _ s₁).bind fun _ s₂ _ ⟨hclose, _⟩ => .pure ?_
    have hinLoop (hclean : s₂.errors = s.errors) : s.loopDepth ≠ 0 :=
      hloop (((later_next htokens).trans hlater).clean hclose.toLater hclean).1
    have hall := (Yields.token htokens hkind).cons (hclose.behind hlater hsame).single
    have hnode : Yields (.symbol σ) [.stmt statement] s s₂ :=
      .symbol _ (hσ ▸ hall.plain _ huses (by simp [hchildren]) hsettled (fun _ => trivial)
        fun _ => Stmt.unreserved_of_nameless hnameless)
    refine ⟨fun e _ => .symbol _ (hnode.imp_of_clean fun hclean hs => ?_), fun hclean _ _ _ => hinLoop hclean,
      hnameless⟩
    have hflag : (s.loopDepth != 0) = true := by simpa using hinLoop hclean
    rw [hflag]
    exact hs.choice (List.mem_append_right _ hmem)
  show Ends _ _ ((if (!(s.loopDepth != 0)) = true then _ else _ : Parser Unit) { s with tokens := rest })
  by_cases hdepth : s.loopDepth = 0
  · have hreport : Later { s with tokens := rest }
        { s with tokens := rest, errors := s.errors ++ [⟨keyword, .outsideLoop word⟩] } :=
      ⟨List.suffix_refl _, rfl, rfl, List.prefix_append _ _, Nat.le_refl _⟩
    rw [if_pos (by simp [hdepth])]
    exact (hrest _ hreport rfl fun h => absurd (congrArg List.length h) (by simp)).behind hreport
  · rw [if_neg (by simp [hdepth])]
    exact hrest _ (.refl _) rfl fun _ => hdepth

theorem statement_ends (hr : r.Sound n) (hn : s.tokens.length ≤ n) :
    Ends s (YieldsStatement (statementPhrase s) · s ·) (statement r s) := by
  rw [statement, bind_current]
  rcases htokens : s.tokens with _ | ⟨t, rest⟩
  · exact expressionStatement_ends hr hn
  have hrest : rest.length < n := by rw [htokens] at hn; exact hn
  simp only [List.head?_cons, Option.getD_some]
  cases hkind : t.kind with
  | forKeyword =>
    exact ends_advance htokens ((forStatement_ends hr hrest).mono fun statement s' _ h =>
      h.keyword .forStatement htokens hkind (fun _ => rfl) fun _ => by simp [statements])
  | ifKeyword =>
    exact ends_advance htokens ((ifStatement_ends hr hrest).mono fun statement s' _ h =>
      h.keyword (.ifStatement (s.loopDepth != 0)) htokens hkind (fun _ => rfl) fun _ => by simp [statements])
  | whileKeyword =>
    exact ends_advance htokens ((whileStatement_ends hr hrest).mono fun statement s' _ h =>
      h.keyword .whileStatement htokens hkind (fun _ => rfl) fun _ => by simp [statements])
  | printKeyword =>
    refine ends_advance htokens ((hr.expression { s with tokens := rest } hrest).bind fun value s₁ _ hvalue => ?_)
    refine (expect_ends _ _ s₁).bind fun _ s₂ _ hclose => .pure ?_
    have hall := (Yields.token htokens hkind).cons (hvalue.cons hclose.1.single)
    have hnode := hall.plain (.stmt (.print t.line value)) rfl (by simp [Node.children, Node.parts]) trivial
      (fun _ => trivial) fun _ => trivial
    exact .simple (.symbol .printStatement hnode) (by simp [statements]) (by rintro ⟨⟩) rfl
  | returnKeyword =>
    refine ends_advance htokens ((unlessClosed_ends hr _ hrest).bind fun value s₁ _ hvalue => ?_)
    refine (expect_ends _ _ s₁).bind fun _ s₂ _ hclose => .pure ?_
    have hall := (Yields.token htokens hkind).cons (hvalue.cons hclose.1.single)
    have hnode := hall.plain (.stmt (.return t.line value)) rfl
      (by cases value <;> simp [Node.children, Node.parts]) trivial (fun _ => trivial) fun _ => trivial
    exact .simple (.symbol .returnStatement hnode) (by simp [statements]) (by rintro ⟨⟩) rfl
  | breakKeyword =>
    exact ends_advance htokens ((loopControl_ends (.break t.line) .breakStatement htokens hkind rfl
      (by simp [loopControls]) rfl rfl trivial rfl).bind fun _ _ _ h => .pure h)
  | continueKeyword =>
    exact ends_advance htokens ((loopControl_ends (.continue t.line) .continueStatement htokens hkind rfl
      (by simp [loopControls]) rfl rfl trivial rfl).bind fun _ _ _ h => .pure h)
  | leftBrace =>
    refine ends_advance htokens ((block_ends hr hrest).bind fun body s₁ _ hbody => .pure ?_)
    have hall := (Yields.token htokens hkind).cons hbody.1
    have hnode := hall.plain (.stmt (.block body)) rfl (by simp [List.Subperm.refl]) trivial (fun _ => trivial) fun _ => trivial
    have hblock : Yields (.symbol (.block (s.loopDepth != 0))) [.stmt (.block body)] s s₁ := .symbol _ hnode
    refine ⟨fun e _ => .symbol _ (hblock.choice (List.mem_append_left _ (by simp [statements]))),
      fun hclean statement hmem hescapes => ?_, rfl⟩
    obtain rfl := List.mem_singleton.1 hmem
    obtain _ | _ | ⟨hmem, hinner⟩ := hescapes
    exact hbody.2 hclean _ hmem hinner
  | semicolon =>
    refine ends_advance htokens (.pure ?_)
    have hnode := (Yields.token htokens hkind).plain (.stmt .empty) rfl
      (by simp [Node.children, Node.parts]) trivial (fun _ => trivial) fun _ => trivial
    exact .simple hnode (by simp [statements]) (by rintro ⟨⟩) rfl
  | _ => exact expressionStatement_ends hr hn

/-- A declaration is read when all behind its keyword is. -/
theorem YieldsDeclaration.keyword {φs : List Phrase} {statement : Stmt} {kind : TokenKind} {t : Token}
    {rest : List Token} {s' : ParserState}
    (h : YieldsDeclaration (.seq φs) statement { s with tokens := rest } s') (σ : Symbol)
    (htokens : s.tokens = t :: rest) (hkind : t.kind = kind)
    (hproduction : production σ = .seq (.token kind :: φs))
    (hmem : σ ∈ [.classDeclaration, .functionDeclaration, .varDeclaration]) :
    Yields (.symbol (.declaration (s.loopDepth != 0))) [.stmt statement] s s' ∧ Contained [statement] s s' := by
  refine ⟨.symbol _ ?_, fun _ other hother hbad => ?_⟩
  · have hsymbol : Yields (.symbol σ) [.stmt statement] s s' :=
      .symbol _ (hproduction ▸ (Yields.token htokens hkind).cons h.1)
    rcases List.mem_cons.1 hmem with rfl | hmem
    · exact hsymbol.choice (by simp)
    · rcases List.mem_pair.1 hmem with rfl | rfl <;> exact hsymbol.choice (by simp)
  · obtain rfl := List.mem_singleton.1 hother
    exact (h.2 hbad).elim

theorem seesFunctionDeclaration_eq (s : ParserState) :
    ∃ sees, seesFunctionDeclaration s = .ok sees s ∧
      (sees = true → ∃ t rest, s.tokens = t :: rest ∧ t.kind = .funKeyword) := by
  rcases htokens : s.tokens with _ | ⟨t, _ | ⟨name, rest⟩⟩
  · exact ⟨false, by simp [seesFunctionDeclaration, htokens], nofun⟩
  · exact ⟨false, by simp [seesFunctionDeclaration, htokens], nofun⟩
  · refine ⟨t.kind == .funKeyword && name.kind == .identifier, by simp [seesFunctionDeclaration, htokens],
      fun h => ⟨t, name :: rest, rfl, ?_⟩⟩
    simp only [Bool.and_eq_true, beq_iff_eq] at h
    exact h.1

theorem ends_seesFunctionDeclaration {α : Type} {f : Bool → Parser α} {post : α → ParserState → Prop}
    (hfalse : Ends s post (f false s))
    (htrue : ∀ t rest, s.tokens = t :: rest → t.kind = .funKeyword → Ends s post (f true s)) :
    Ends s post ((seesFunctionDeclaration >>= f) s) := by
  obtain ⟨sees, hsees, hfun⟩ := seesFunctionDeclaration_eq s
  rw [bind_ok hsees]
  cases sees with
  | false => exact hfalse
  | true =>
    obtain ⟨t, rest, htokens, hkind⟩ := hfun rfl
    exact htrue t rest htokens hkind

theorem item_ends (hr : r.Sound n) (hn : s.tokens.length ≤ n) :
    Ends s (fun statement s' => Yields (.symbol (.declaration (s.loopDepth != 0))) [.stmt statement] s s' ∧
      Contained [statement] s s') (item r s) := by
  have hrest {t : Token} {rest : List Token} (htokens : s.tokens = t :: rest) : rest.length < n := by
    rw [htokens] at hn; exact hn
  refine ends_accept (fun _ => ?_) fun t rest htokens hkind =>
    (classDeclaration_ends hr (hrest htokens)).mono fun _ _ _ h =>
      h.keyword .classDeclaration htokens hkind rfl (by simp)
  have hother : Ends s (fun statement s' => Yields (.symbol (.declaration (s.loopDepth != 0))) [.stmt statement] s s' ∧
      Contained [statement] s s')
      ((accept .varKeyword >>= fun o => if o.isSome = true then varDeclaration r else statement r) s) := by
    refine ends_accept (fun _ => ?_) fun t rest htokens hkind =>
      (varDeclaration_ends hr (hrest htokens)).mono fun _ _ _ h =>
        h.keyword .varDeclaration htokens hkind rfl (by simp)
    refine (statement_ends hr hn).mono fun statement s' _ h => ⟨.symbol _ ?_, h.contained⟩
    exact (h.yields false nofun).choice (by simp [statementPhrase])
  refine ends_seesFunctionDeclaration hother fun t rest htokens hkind => ?_
  exact ends_advance htokens ((functionDeclaration_ends hr (hrest htokens)).mono fun _ _ _ h =>
    h.keyword .functionDeclaration htokens hkind rfl (by simp))

theorem resume_suffix (previous : Token) (ts : List Token) : resume previous ts <:+ ts := by
  induction ts generalizing previous with
  | nil => exact List.suffix_refl _
  | cons t rest ih =>
    unfold resume
    split
    · exact List.suffix_refl _
    · exact (ih t).trans (List.suffix_cons t rest)

theorem later_synchronize (s : ParserState) : Later s (synchronize s) := by
  unfold synchronize
  split
  · exact .refl s
  case _ t rest htokens =>
    exact ⟨htokens ▸ (resume_suffix t rest).trans (List.suffix_cons t rest), rfl, rfl, List.prefix_refl _,
      Nat.le_refl _⟩

/-- A declaration that cannot be read is skipped, and then an error is on record. -/
theorem declaration_ends (hr : r.Sound n) (hn : s.tokens.length ≤ n) :
    Ends s (fun o s' => Yields (.symbol (.declaration (s.loopDepth != 0))) (o.toList.map .stmt) s s' ∧
      Contained o.toList s s') (orSkip (item r) s) := by
  have hitem := item_ends hr hn
  unfold orSkip
  cases h : item r s with
  | ok statement s' =>
    rw [h] at hitem
    exact hitem
  | error e s' =>
    rw [h] at hitem
    obtain ⟨hlater, rfl, herrors⟩ := hitem
    have hall := hlater.trans (later_synchronize s')
    have hnew (hclean : (synchronize s').errors = s.errors) : False := by
      have := congrArg List.length hclean
      have := (later_synchronize s').errors_le
      omega
    exact ⟨hall, .ofLater hall fun hclean => (hnew hclean).elim, fun hclean => (hnew hclean).elim⟩

end Rules

/-- The parser reads its grammar, however deeply it is nested. -/
theorem sound_rules (levels : Nat) : (rules levels).Sound levels := by
  induction levels with
  | zero => exact ⟨nofun, nofun, nofun, nofun, nofun⟩
  | succ levels ih =>
    exact
      { expression := fun _ hn => expression_ends ih (Nat.le_of_lt_succ hn)
        conditional := fun _ hn => (conditional_ends ih (Nat.le_of_lt_succ hn)).mono fun _ _ _ h =>
          h.yields covers_conditional
        unary := fun _ hn => (unary_ends ih (Nat.le_of_lt_succ hn)).mono fun _ _ _ h => h.yields covers_unary
        statement := fun _ hn => statement_ends ih (Nat.le_of_lt_succ hn)
        declaration := fun _ hn => declaration_ends ih (Nat.le_of_lt_succ hn) }

end TreeWalk
