import Mathlib
import TreeWalk.Proofs.Parser.Flattening
import TreeWalk.Proofs.Parser.Soundness

/-!
# Trees are spelled like tokens

The names, strings and operators in a tree come from tokens. So whatever the parser makes of tokens that have been
scanned, with errors or without, has names that are identifiers, strings without quotes, and operators that are
written as their kinds are.
-/

namespace TreeWalk

open TreeWalk.Parser TreeWalk.Grammar

/-! ## Nodes -/

/-- The name is an identifier. -/
def Name.Spelled (name : Name) : Prop := Spells .identifier name.text.toList none

/-- No quote stands in a string. -/
def Literal.Spelled : Literal → Prop
  | text value => '"' ∉ value.toList
  | _ => True

/-- What stands in the node itself, and not in one of its parts, is spelled like a token. -/
def Node.Spelled : Node → Prop
  | .expr (.literal value) => value.Spelled
  | .expr (.variable use) | .expr (.assign use _) => use.name.Spelled
  | .expr (.unary op _) => op.spelling = op.kind.token.spelling
  | .expr (.binary _ op _) => (BinaryKind.ofToken? op.kind).isSome ∧ op.spelling = op.kind.spelling
  | .expr (.logical _ op _) => op.spelling = op.kind.token.spelling
  | .expr (.get _ name) | .expr (.set _ name _) | .expr (.parent _ _ name) => name.Spelled
  | .function _ f => ∀ name ∈ f.params, name.Spelled
  | _ => True

def Expr.Spelled (e : Expr) : Prop := (Node.expr e).Every Node.Spelled

def Stmt.Spelled (s : Stmt) : Prop := (Node.stmt s).Every Node.Spelled

def Function.Spelled (f : Function) : Prop := ∀ role, (Node.function role f).Every Node.Spelled

theorem Token.Scanned.spelled_name {t : Token} (h : t.Scanned) (hkind : t.kind = .identifier) :
    Name.Spelled ⟨t.lexeme, t.line⟩ := by
  have hliteral := h.literal_eq_none (by simp [hkind]) (by simp [hkind])
  rwa [Token.Scanned, hkind, hliteral] at h

/-! ## What parsers make -/

/-- All tokens that are left might have been scanned. -/
def ParserState.Scanned (s : ParserState) : Prop := ∀ t ∈ s.tokens, t.Scanned

/-- What is left might have been scanned, and the result is as stated if there is one. -/
def Leaves {α : Type} (post : α → Prop) : EStateM.Result GivenUp ParserState α → Prop
  | .ok a s => s.Scanned ∧ post a
  | .error _ s => s.Scanned

/-- Of tokens that might have been scanned the parser makes nothing but such results. -/
def Makes {α : Type} (p : Parser α) (post : α → Prop) : Prop := ∀ s, s.Scanned → Leaves post (p s)

namespace Makes

variable {α β : Type} {p : Parser α} {post post' : α → Prop} {postβ : β → Prop}

theorem pure {a : α} (h : post a) : Makes (Pure.pure a) post := fun _ hs => ⟨hs, h⟩

theorem throw (e : GivenUp) : Makes (throw e : Parser α) post := fun _ hs => hs

theorem bind {f : α → Parser β} (hp : Makes p post) (hf : ∀ a, post a → Makes (f a) postβ) : Makes (p >>= f) postβ := by
  intro s hs
  have hfirst := hp s hs
  rw [bind_eq_match]
  cases hps : p s with
  | ok a s' =>
    rw [hps] at hfirst
    exact hf a hfirst.2 s' hfirst.1
  | error e s' =>
    rw [hps] at hfirst
    exact hfirst

theorem mono (h : Makes p post) (hpost : ∀ a, post a → post' a) : Makes p post' := by
  intro s hs
  have hp := h s hs
  cases hps : p s with
  | ok a s' =>
    rw [hps] at hp
    exact ⟨hp.1, hpost a hp.2⟩
  | error e s' =>
    rw [hps] at hp
    exact hp

theorem map {f : α → β} (h : Makes p post) (hf : ∀ a, post a → postβ (f a)) : Makes (f <$> p) postβ := by
  rw [← bind_pure_comp]
  exact h.bind fun a ha => pure (hf a ha)

/-- The parser reads no token. -/
theorem of_same {a : ParserState → α} {f : ParserState → ParserState} (h : ∀ s, (f s).tokens = s.tokens) :
    Makes (fun s => .ok (a s) (f s)) fun _ => True := by
  intro s hs
  refine ⟨?_, trivial⟩
  rw [ParserState.Scanned, h]
  exact hs

/-! ## Single tokens -/

theorem report (token : Token) (cause : SyntaxCause) : Makes (Parser.report token cause) fun _ => True :=
  of_same fun _ => rfl

theorem fail (token : Token) (cause : SyntaxCause) : Makes (Parser.fail token cause) post :=
  (report token cause).bind fun _ _ => throw _

theorem sees (kind : TokenKind) : Makes (Parser.sees kind) fun _ => True := of_same fun _ => rfl

theorem atEnd : Makes Parser.atEnd fun _ => True := of_same fun _ => rfl

theorem remaining : Makes Parser.remaining fun _ => True := of_same fun _ => rfl

theorem insideLoop : Makes Parser.insideLoop fun _ => True := of_same fun _ => rfl

theorem fresh : Makes Parser.fresh fun _ => True := of_same fun _ => rfl

theorem reference (name : Name) : Makes (Parser.reference name) fun use => use.name = name :=
  fresh.bind fun _ _ => pure rfl

theorem current : Makes Parser.current fun t => t.kind ≠ .endOfInput → t.Scanned := by
  intro s hs
  refine ⟨hs, fun hkind => ?_⟩
  rcases htokens : s.tokens with _ | ⟨t, rest⟩
  · simp [htokens, Token.endOfInput] at hkind
  · exact hs t (by simp [htokens])

theorem advance : Makes Parser.advance fun _ => True :=
  fun _ hs => ⟨fun t ht => hs t (List.mem_of_mem_tail ht), trivial⟩

theorem acceptWhere (choose : Token → Option α) :
    Makes (Parser.acceptWhere choose) fun o => ∀ a ∈ o, ∃ t : Token, t.Scanned ∧ choose t = some a := by
  intro s hs
  unfold Parser.acceptWhere
  rcases htokens : s.tokens with _ | ⟨t, rest⟩
  · exact ⟨hs, nofun⟩
  · dsimp only
    cases hchoose : choose t with
    | none => exact ⟨hs, nofun⟩
    | some a =>
      rw [ParserState.Scanned, htokens] at hs
      obtain ⟨ht, hrest⟩ := List.forall_mem_cons.1 hs
      exact ⟨hrest, by rintro _ ⟨⟩; exact ⟨t, ht, hchoose⟩⟩

theorem accept (kind : TokenKind) : Makes (Parser.accept kind) fun o => ∀ t ∈ o, t.Scanned ∧ t.kind = kind := by
  refine (acceptWhere _).mono fun o ho t ht => ?_
  obtain ⟨u, hu, hchoose⟩ := ho t ht
  simp only [Option.ite_none_right_eq_some, beq_iff_eq, Option.some.injEq] at hchoose
  obtain ⟨hkind, rfl⟩ := hchoose
  exact ⟨hu, hkind⟩

theorem expect (kind : TokenKind) (what : String) :
    Makes (Parser.expect kind what) fun t => t.Scanned ∧ t.kind = kind := by
  refine (accept kind).bind fun o ho => ?_
  cases o with
  | some t => exact pure (ho t rfl)
  | none => exact current.bind fun t _ => fail t _

theorem expectName (what : String) : Makes (Parser.expectName what) Name.Spelled :=
  (expect .identifier what).bind fun _ ht => pure (ht.1.spelled_name ht.2)

/-! ## Repetition -/

theorem atLoopDepth (depth : Nat → Nat) (h : Makes p post) : Makes (Parser.atLoopDepth depth p) post := by
  intro s hs
  have hp := h { s with loopDepth := depth s.loopDepth } hs
  unfold Parser.atLoopDepth
  cases hps : p { s with loopDepth := depth s.loopDepth } <;> rw [hps] at hp <;> exact hp

theorem orSkip (h : Makes p post) : Makes (Parser.orSkip p) fun o => ∀ a ∈ o, post a := by
  intro s hs
  have hp := h s hs
  unfold Parser.orSkip
  cases hps : p s with
  | ok a s' =>
    rw [hps] at hp
    exact ⟨hp.1, by rintro _ ⟨⟩; exact hp.2⟩
  | error e s' =>
    rw [hps] at hp
    cases e with
    | reported => exact ⟨fun t ht => hp t ((later_synchronize s').tokens.subset ht), nofun⟩
    | tooDeep => exact hp

theorem commaRound {item : Parser α} {others : Parser (List α)} (h : Makes item post)
    (hothers : Makes others fun l => ∀ a ∈ l, post a) :
    Makes (TreeWalk.commaRound item others) fun l => ∀ a ∈ l, post a := by
  refine h.bind fun first hfirst => (accept .comma).bind fun o _ => ?_
  cases o with
  | none => exact pure (by simpa using hfirst)
  | some _ => exact hothers.bind fun rest hrest => pure (List.forall_mem_cons.2 ⟨hfirst, hrest⟩)

theorem commaItems {item : Parser α} (h : Makes item post) (tooMany : Option SyntaxCause) (bound count : Nat) :
    Makes (Parser.commaItems item tooMany bound count) fun l => ∀ a ∈ l, post a := by
  induction bound generalizing count with
  | zero => exact throw _
  | succ bound ih =>
    have hround := commaRound h (ih (count + 1))
    unfold Parser.commaItems
    cases tooMany with
    | none => exact hround
    | some cause =>
      dsimp only
      split
      · exact current.bind fun t _ => (report t cause).bind fun _ _ => hround
      · exact hround

theorem commaList {item : Parser α} (h : Makes item post) (tooMany : Option SyntaxCause) (closing : TokenKind) :
    Makes (Parser.commaList item tooMany closing) fun l => ∀ a ∈ l, post a := by
  refine (sees closing).bind fun closed _ => ?_
  split
  · exact pure (by simp)
  · exact remaining.bind fun _ _ => commaItems h tooMany _ 0

theorem declarations {declaration : Parser (Option Stmt)} (h : Makes declaration fun o => ∀ s ∈ o, s.Spelled)
    (bound : Nat) : Makes (Parser.declarations declaration bound) fun l => ∀ s ∈ l, s.Spelled := by
  induction bound with
  | zero => exact pure (by simp)
  | succ bound ih =>
    refine (sees .rightBrace).bind fun closed _ => ?_
    refine atEnd.bind fun ended _ => ?_
    split
    · exact pure (by simp)
    · refine h.bind fun first hfirst => ih.bind fun rest hrest => pure ?_
      rw [List.forall_mem_append]
      exact ⟨by simpa using hfirst, hrest⟩

/-! ## Expressions -/

theorem leftGrouped {κ : Type} {operator : TokenKind → Option κ} {build : Expr → Operator κ → Expr → Expr}
    {operand : Parser Expr} (hoperand : Makes operand Expr.Spelled)
    (hbuild : ∀ left right kind (t : Token), t.Scanned → operator t.kind = some kind → left.Spelled → right.Spelled →
      (build left ⟨kind, t.lexeme, t.line⟩ right).Spelled) (bound : Nat) {left : Expr} (hleft : left.Spelled) :
    Makes (Parser.leftGrouped operator build operand bound left) Expr.Spelled := by
  induction bound generalizing left with
  | zero => exact pure hleft
  | succ bound ih =>
    refine (acceptWhere _).bind fun o ho => ?_
    cases o with
    | none => exact pure hleft
    | some op =>
      obtain ⟨t, ht, hchoose⟩ := ho op rfl
      obtain ⟨kind, hkind, rfl⟩ := Option.map_eq_some_iff.1 hchoose
      exact hoperand.bind fun right hright => ih (hbuild left right kind t ht hkind hleft hright)

theorem leftAssociative {κ : Type} {operator : TokenKind → Option κ} {build : Expr → Operator κ → Expr → Expr}
    {operand : Parser Expr} (hoperand : Makes operand Expr.Spelled)
    (hbuild : ∀ left right kind (t : Token), t.Scanned → operator t.kind = some kind → left.Spelled → right.Spelled →
      (build left ⟨kind, t.lexeme, t.line⟩ right).Spelled) :
    Makes (Parser.leftAssociative operator build operand) Expr.Spelled :=
  hoperand.bind fun _ hfirst => remaining.bind fun _ _ => leftGrouped hoperand hbuild _ hfirst

end Makes

/-! ## The rules of the grammar -/

/-- What the rules inside others make. -/
structure Rules.Spelled (r : Rules) : Prop where
  expression : Makes r.expression Expr.Spelled
  conditional : Makes r.conditional Expr.Spelled
  unary : Makes r.unary Expr.Spelled
  statement : Makes r.statement Stmt.Spelled
  declaration : Makes r.declaration fun o => ∀ s ∈ o, s.Spelled

theorem Function.Spelled.mk {params : List Name} {body : List Stmt} (hparams : ∀ name ∈ params, name.Spelled)
    (hbody : ∀ s ∈ body, s.Spelled) : (Function.mk params body).Spelled := by
  intro role
  refine .intro hparams ?_
  rw [Node.children_function]
  exact List.forall_mem_map.2 hbody

/-- A node without parts. -/
theorem Expr.Spelled.leaf {e : Expr} (h : (Node.expr e).Spelled) (hleaf : (Node.expr e).children = []) : e.Spelled :=
  .intro h (by simp [hleaf])

theorem Expr.Spelled.pair {e left right : Expr} (h : (Node.expr e).Spelled)
    (hchildren : (Node.expr e).children = [.expr left, .expr right]) (hleft : left.Spelled) (hright : right.Spelled) :
    e.Spelled := by
  refine .intro h ?_
  rw [hchildren]
  exact List.forall_mem_cons.2 ⟨hleft, List.forall_mem_singleton.2 hright⟩

theorem Stmt.Spelled.loop {condition : Expr} {body : Stmt} {increment : Option Expr} (hcondition : condition.Spelled)
    (hbody : body.Spelled) (hincrement : ∀ e ∈ increment, e.Spelled) :
    (Stmt.loop condition body increment).Spelled := by
  refine .intro trivial (List.forall_mem_cons.2 ⟨hcondition, List.forall_mem_cons.2 ⟨hbody, ?_⟩⟩)
  cases increment with
  | none => exact List.forall_mem_nil _
  | some e => exact List.forall_mem_singleton.2 (hincrement e rfl)

theorem TokenKind.isFixed_of_binary {kind : TokenKind} (h : (BinaryKind.ofToken? kind).isSome) : kind.isFixed := by
  revert h
  cases kind <;> decide

namespace Makes

variable {r : Rules}

theorem block (hr : r.Spelled) : Makes (Grammar.block r) fun body => ∀ s ∈ body, s.Spelled :=
  remaining.bind fun _ _ => (declarations hr.declaration _).bind fun _ hbody => (expect _ _).bind fun _ _ => pure hbody

theorem function (hr : r.Spelled) : Makes (Grammar.function r) Function.Spelled :=
  (expect _ _).bind fun _ _ => (commaList (expectName _) _ _).bind fun _ hparams => (expect _ _).bind fun _ _ =>
    (expect _ _).bind fun _ _ => (atLoopDepth _ (block hr)).bind fun _ hbody =>
      pure (.mk hparams hbody)

theorem primary (hr : r.Spelled) : Makes (Grammar.primary r) Expr.Spelled := by
  refine current.bind fun t ht => ?_
  have hscanned {kind : TokenKind} (hkind : t.kind = kind) (hopen : kind ≠ .endOfInput) : t.Scanned :=
    ht (hkind ▸ hopen)
  split
  case h_1 | h_2 | h_3 => exact advance.bind fun _ _ => pure (.leaf trivial rfl)
  case h_4 hkind =>
    obtain ⟨value, hvalue⟩ := (hscanned hkind (by decide)).number hkind
    rw [hvalue]
    exact advance.bind fun _ _ => pure (.leaf trivial rfl)
  case h_5 hkind =>
    obtain ⟨text, htext, -, hquote⟩ := (hscanned hkind (by decide)).string hkind
    rw [htext]
    exact advance.bind fun _ _ => pure (.leaf hquote rfl)
  case h_6 => exact advance.bind fun _ _ => fresh.bind fun _ _ => pure (.leaf trivial rfl)
  case h_7 =>
    exact advance.bind fun _ _ => (expect _ _).bind fun _ _ => (expectName _).bind fun method hmethod =>
      fresh.bind fun _ _ => pure (.leaf hmethod rfl)
  case h_8 hkind =>
    refine advance.bind fun _ _ => (reference _).bind fun use huse => pure (.leaf ?_ rfl)
    show use.name.Spelled
    rw [huse]
    exact (hscanned hkind (by decide)).spelled_name hkind
  case h_9 =>
    exact advance.bind fun _ _ => hr.expression.bind fun inner hinner => (expect _ _).bind fun _ _ =>
      pure (.intro trivial (List.forall_mem_singleton.2 hinner))
  case h_10 =>
    exact advance.bind fun _ _ => (function hr).bind fun f hf =>
      pure (.intro trivial (List.forall_mem_singleton.2 (hf _)))
  case h_11 =>
    refine advance.bind fun _ _ => (commaList hr.expression _ _).bind fun elements helements =>
      (expect _ _).bind fun _ _ =>
      pure (.intro trivial ?_)
    rw [Node.children_list]
    exact List.forall_mem_map.2 helements
  case h_12 kind _ =>
    split
    · exact advance.bind fun _ _ => (report t _).bind fun _ _ => hr.expression.bind fun _ _ => throw _
    · exact fail t _

theorem suffix (hr : r.Spelled) {target : Expr} (htarget : target.Spelled) (t : Token) :
    Makes (Grammar.suffix r target t) Expr.Spelled := by
  unfold Grammar.suffix
  split
  · refine (commaList hr.expression _ _).bind fun arguments harguments => (expect _ _).bind fun _ _ =>
      pure (.intro trivial ?_)
    rw [Node.children_call]
    exact List.forall_mem_cons.2 ⟨htarget, List.forall_mem_map.2 harguments⟩
  · exact hr.expression.bind fun position hposition => (expect _ _).bind fun _ _ =>
      pure (.pair trivial rfl htarget hposition)
  · exact (expectName _).bind fun name hname => pure (.intro hname (List.forall_mem_singleton.2 htarget))

theorem suffixes (hr : r.Spelled) (bound : Nat) {target : Expr} (htarget : target.Spelled) :
    Makes (Grammar.suffixes r bound target) Expr.Spelled := by
  induction bound generalizing target with
  | zero => exact pure htarget
  | succ bound ih =>
    refine (acceptWhere _).bind fun o _ => ?_
    cases o with
    | none => exact pure htarget
    | some t => exact (suffix hr htarget t).bind fun target htarget => ih htarget

theorem call (hr : r.Spelled) : Makes (Grammar.call r) Expr.Spelled :=
  (primary hr).bind fun _ htarget => remaining.bind fun _ _ => suffixes hr _ htarget

theorem unary (hr : r.Spelled) : Makes (Grammar.unary r) Expr.Spelled := by
  have htoken : ∀ token, ∀ kind ∈ unaryKind token, token = kind.token ∧ token.isFixed := by
    intro token
    cases token <;> decide
  refine (acceptWhere _).bind fun o ho => ?_
  cases o with
  | none => exact call hr
  | some op =>
    obtain ⟨t, ht, hchoose⟩ := ho op rfl
    obtain ⟨kind, hkind, rfl⟩ := Option.map_eq_some_iff.1 hchoose
    have hspelling : t.lexeme = kind.token.spelling := by
      obtain ⟨htoken, hfixed⟩ := htoken t.kind kind hkind
      rw [ht.lexeme_eq hfixed, htoken]
    exact hr.unary.bind fun operand hoperand => pure (.intro hspelling (List.forall_mem_singleton.2 hoperand))

section Levels

variable {operand : Parser Expr}

theorem binary (operator : TokenKind → Option TokenKind) (hoperand : Makes operand Expr.Spelled)
    (hoperator : ∀ token, ∀ kind ∈ operator token, kind = token ∧ (BinaryKind.ofToken? token).isSome) :
    Makes (Parser.leftAssociative operator .binary operand) Expr.Spelled := by
  refine leftAssociative hoperand fun left right kind t ht hkind hleft hright => ?_
  obtain ⟨rfl, hop⟩ := hoperator t.kind kind hkind
  exact .pair ⟨hop, ht.lexeme_eq (TokenKind.isFixed_of_binary hop)⟩ rfl hleft hright

theorem logical (operator : TokenKind → Option LogicalKind) (hoperand : Makes operand Expr.Spelled)
    (hoperator : ∀ token, ∀ kind ∈ operator token, token = kind.token ∧ token.isFixed) :
    Makes (Parser.leftAssociative operator .logical operand) Expr.Spelled := by
  refine leftAssociative hoperand fun left right kind t ht hkind hleft hright => ?_
  obtain ⟨htoken, hfixed⟩ := hoperator t.kind kind hkind
  have hspelling : t.lexeme = kind.token.spelling := by rw [ht.lexeme_eq hfixed, htoken]
  exact .pair hspelling rfl hleft hright

end Levels

theorem disjunction (hr : r.Spelled) : Makes (Grammar.disjunction r) Expr.Spelled := by
  have hfactor := binary factorKind (unary hr) fun token => by cases token <;> decide
  have hterm := binary termKind hfactor fun token => by cases token <;> decide
  have hcomparison := binary comparisonKind hterm fun token => by cases token <;> decide
  have hequality := binary equalityKind hcomparison fun token => by cases token <;> decide
  have hconjunction := logical andKind hequality fun token => by cases token <;> decide
  exact logical orKind hconjunction fun token => by cases token <;> decide

theorem conditional (hr : r.Spelled) : Makes (Grammar.conditional r) Expr.Spelled := by
  refine (disjunction hr).bind fun condition hcondition => (accept .question).bind fun o _ => ?_
  cases o with
  | none => exact pure hcondition
  | some _ =>
    refine hr.expression.bind fun thenBranch hthen => (expect _ _).bind fun _ _ =>
      hr.conditional.bind fun elseBranch helse =>
      pure (.intro trivial ?_)
    exact List.forall_mem_cons.2 ⟨hcondition, List.forall_mem_cons.2 ⟨hthen, List.forall_mem_singleton.2 helse⟩⟩

theorem assignTo {target value : Expr} (htarget : target.Spelled) (equal : Token) (hvalue : value.Spelled) :
    Makes (Grammar.assignTo target equal value) Expr.Spelled := by
  unfold Grammar.assignTo
  split
  case h_1 use =>
    refine (reference use.name).bind fun use' huse => pure (.intro ?_ (List.forall_mem_singleton.2 hvalue))
    show use'.name.Spelled
    rw [huse]
    exact htarget.here
  case h_2 object name =>
    exact pure (.pair htarget.here rfl (htarget.child _ (List.mem_singleton_self _)) hvalue)
  case h_3 => exact (report _ _).bind fun _ _ => pure htarget

theorem expression (hr : r.Spelled) : Makes (Grammar.expression r) Expr.Spelled := by
  refine (conditional hr).bind fun target htarget => (accept .equal).bind fun o _ => ?_
  cases o with
  | none => exact pure htarget
  | some equal => exact hr.expression.bind fun value hvalue => assignTo htarget equal hvalue

/-! ## Statements -/

theorem present {α : Type} {p : Parser α} {post : α → Prop} (h : Makes p post) :
    Makes (some <$> p) fun o => ∀ a ∈ o, post a :=
  h.map fun a ha => by simpa using ha

theorem varDeclaration (hr : r.Spelled) : Makes (Grammar.varDeclaration r) Stmt.Spelled := by
  refine (expectName _).bind fun name _ => (accept .equal).bind fun o _ => ?_
  have hrest {initializer : Option Expr} (h : ∀ e ∈ initializer, e.Spelled) :
      Makes (Parser.expect .semicolon "';' after variable declaration" >>= fun _ =>
        Pure.pure (Stmt.var name initializer)) Stmt.Spelled := by
    refine (expect _ _).bind fun _ _ => pure (.intro trivial ?_)
    cases initializer with
    | none => exact List.forall_mem_nil _
    | some e => exact List.forall_mem_singleton.2 (h e rfl)
  cases o with
  | none => exact hrest (by simp)
  | some _ => exact (present hr.expression).bind fun _ h => hrest h

theorem functionDeclaration (hr : r.Spelled) : Makes (Grammar.functionDeclaration r) Stmt.Spelled :=
  (expectName _).bind fun _ _ => (function hr).bind fun _ hf =>
    pure (.intro trivial (List.forall_mem_singleton.2 (hf _)))

theorem methods (hr : r.Spelled) (bound : Nat) :
    Makes (Grammar.methods r bound) fun l => ∀ m ∈ l, m.function.Spelled := by
  induction bound with
  | zero => exact pure (List.forall_mem_nil _)
  | succ bound ih =>
    refine (sees _).bind fun _ _ => atEnd.bind fun _ _ => ?_
    split
    · exact pure (List.forall_mem_nil _)
    · exact (expectName _).bind fun _ _ => (function hr).bind fun f hf => ih.bind fun rest hrest =>
        pure (List.forall_mem_cons.2 ⟨hf, hrest⟩)

theorem parentClause : Makes Grammar.parentClause fun o => ∀ use ∈ o, use.name.Spelled := by
  refine (acceptWhere _).bind fun o _ => ?_
  cases o with
  | none => exact pure nofun
  | some _ =>
    refine (expectName _).bind fun name hname => (reference name).bind fun use huse => pure ?_
    rintro _ ⟨⟩
    exact huse ▸ hname

theorem classDeclaration (hr : r.Spelled) : Makes (Grammar.classDeclaration r) Stmt.Spelled := by
  refine (expectName _).bind fun name _ => parentClause.bind fun parent hparent => (expect _ _).bind fun _ _ =>
    remaining.bind fun _ _ => (methods hr _).bind fun body hbody => (expect _ _).bind fun _ _ =>
    pure (.intro trivial ?_)
  rw [Node.children_class, List.forall_mem_append, List.forall_mem_map, List.forall_mem_map]
  exact ⟨fun use huse => Expr.Spelled.leaf (hparent use (by simpa using huse)) rfl, fun m hm => hbody m hm _⟩

theorem expressionStatement (hr : r.Spelled) : Makes (Grammar.expressionStatement r) Stmt.Spelled :=
  (expression hr).bind fun _ hvalue => (expect _ _).bind fun _ _ =>
    pure (.intro trivial (List.forall_mem_singleton.2 hvalue))

theorem forInitializer (hr : r.Spelled) : Makes (Grammar.forInitializer r) fun o => ∀ s ∈ o, s.Spelled := by
  refine (accept _).bind fun o _ => ?_
  cases o with
  | some _ => exact pure nofun
  | none =>
    refine (accept _).bind fun o _ => ?_
    cases o with
    | some _ => exact present (varDeclaration hr)
    | none =>
      refine hr.expression.bind fun value hvalue => (expect _ _).bind fun _ _ => pure ?_
      rintro _ ⟨⟩
      exact .intro trivial (List.forall_mem_singleton.2 hvalue)

theorem unlessClosed (hr : r.Spelled) (closing : TokenKind) :
    Makes (Grammar.unlessClosed r closing) fun o => ∀ e ∈ o, e.Spelled := by
  refine (sees _).bind fun _ _ => ?_
  split
  · exact pure nofun
  · exact present hr.expression

theorem forStatement (hr : r.Spelled) : Makes (Grammar.forStatement r) Stmt.Spelled := by
  refine (expect _ _).bind fun _ _ => (forInitializer hr).bind fun initializer hinitializer =>
    (unlessClosed hr _).bind fun condition hcondition => (expect _ _).bind fun _ _ =>
    (unlessClosed hr _).bind fun increment hincrement => (expect _ _).bind fun _ _ =>
    (atLoopDepth _ hr.statement).bind fun body hbody => ?_
  have hcondition : (condition.getD (.literal (.bool true))).Spelled := by
    cases condition with
    | none => exact Expr.Spelled.leaf trivial rfl
    | some e => exact hcondition e rfl
  have hloop := Stmt.Spelled.loop hcondition hbody hincrement
  cases initializer with
  | none => exact pure hloop
  | some first =>
    refine pure (.intro trivial ?_)
    rw [Node.children_block]
    exact List.forall_mem_cons.2 ⟨hinitializer first rfl, List.forall_mem_singleton.2 hloop⟩

theorem ifStatement (hr : r.Spelled) : Makes (Grammar.ifStatement r) Stmt.Spelled := by
  refine (expect _ _).bind fun _ _ => hr.expression.bind fun condition hcondition => (expect _ _).bind fun _ _ =>
    hr.statement.bind fun thenBranch hthen => (accept _).bind fun o _ => ?_
  cases o with
  | none => exact pure (.intro trivial (List.forall_mem_cons.2 ⟨hcondition, List.forall_mem_singleton.2 hthen⟩))
  | some _ =>
    refine hr.statement.bind fun elseBranch helse => pure (.intro trivial ?_)
    exact List.forall_mem_cons.2 ⟨hcondition, List.forall_mem_cons.2 ⟨hthen, List.forall_mem_singleton.2 helse⟩⟩

theorem whileStatement (hr : r.Spelled) : Makes (Grammar.whileStatement r) Stmt.Spelled :=
  (expect _ _).bind fun _ _ => hr.expression.bind fun _ hcondition => (expect _ _).bind fun _ _ =>
    (atLoopDepth _ hr.statement).bind fun _ hbody => pure (.loop hcondition hbody nofun)

theorem loopControl (keyword : Token) (word : String) : Makes (Grammar.loopControl keyword word) fun _ => True := by
  refine insideLoop.bind fun inside _ => ?_
  split
  · exact (report _ _).bind fun _ _ => (expect _ _).bind fun _ _ => pure trivial
  · exact (expect _ _).bind fun _ _ => pure trivial

theorem statement (hr : r.Spelled) : Makes (Grammar.statement r) Stmt.Spelled := by
  refine current.bind fun t _ => ?_
  split
  case h_1 => exact advance.bind fun _ _ => forStatement hr
  case h_2 => exact advance.bind fun _ _ => ifStatement hr
  case h_3 => exact advance.bind fun _ _ => whileStatement hr
  case h_4 =>
    exact advance.bind fun _ _ => hr.expression.bind fun value hvalue => (expect _ _).bind fun _ _ =>
      pure (.intro trivial (List.forall_mem_singleton.2 hvalue))
  case h_5 =>
    refine advance.bind fun _ _ => (unlessClosed hr _).bind fun value hvalue => (expect _ _).bind fun _ _ =>
      pure (.intro trivial ?_)
    cases value with
    | none => exact List.forall_mem_nil _
    | some e => exact List.forall_mem_singleton.2 (hvalue e rfl)
  case h_6 | h_7 =>
    exact advance.bind fun _ _ => (loopControl _ _).bind fun _ _ => pure (.intro trivial (List.forall_mem_nil _))
  case h_8 =>
    refine advance.bind fun _ _ => (block hr).bind fun body hbody => pure (.intro trivial ?_)
    rw [Node.children_block]
    exact List.forall_mem_map.2 hbody
  case h_9 => exact advance.bind fun _ _ => pure (.intro trivial (List.forall_mem_nil _))
  case h_10 => exact expressionStatement hr

theorem seesFunctionDeclaration : Makes Grammar.seesFunctionDeclaration fun _ => True := by
  intro s hs
  unfold Grammar.seesFunctionDeclaration
  split <;> exact ⟨hs, trivial⟩

theorem item (hr : r.Spelled) : Makes (Grammar.item r) Stmt.Spelled := by
  refine (accept _).bind fun _ _ => ?_
  split
  · exact classDeclaration hr
  · refine seesFunctionDeclaration.bind fun _ _ => ?_
    split
    · exact advance.bind fun _ _ => functionDeclaration hr
    · refine (accept _).bind fun _ _ => ?_
      split
      · exact varDeclaration hr
      · exact statement hr

end Makes

/-- However many levels the rules have, they make trees that are spelled like tokens. -/
theorem spelled_rules (levels : Nat) : (rules levels).Spelled := by
  induction levels with
  | zero => exact ⟨.throw _, .throw _, .throw _, .throw _, .throw _⟩
  | succ levels ih => exact ⟨.expression ih, .conditional ih, .unary ih, .statement ih, .orSkip (.item ih)⟩

theorem Makes.program {r : Rules} (hr : r.Spelled) (bound : Nat) :
    Makes (Grammar.program r bound) fun l => ∀ s ∈ l, s.Spelled := by
  induction bound with
  | zero => exact pure (List.forall_mem_nil _)
  | succ bound ih =>
    refine atEnd.bind fun _ _ => ?_
    split
    · exact pure (List.forall_mem_nil _)
    · refine hr.declaration.bind fun first hfirst => ih.bind fun rest hrest => pure ?_
      rw [List.forall_mem_append]
      exact ⟨by simpa using hfirst, hrest⟩

/-- All statements that are read from a source are spelled like tokens. -/
theorem Parse.spelled_ofTokens (firstId : NodeId) (source : String) :
    ∀ s ∈ (Parse.ofTokens firstId (Scan.ofSource source).tokens).statements, s.Spelled := by
  have hscanned := scanned_tokens source
  unfold Parse.ofTokens
  generalize Parse.delimited (Scan.ofSource source).tokens = delimited at hscanned
  obtain ⟨body, endLine⟩ := delimited
  have hprogram := Makes.program (spelled_rules (body.length + 1)) body.length ⟨body, endLine, 0, firstId, []⟩ hscanned
  dsimp only
  split
  case h_1 hrun =>
    rw [hrun] at hprogram
    exact hprogram.2
  case h_2 => exact List.forall_mem_nil _

end TreeWalk
