import TreeWalk.Proofs.Parser.Acceptance

/-!
# Declarations of the grammar are accepted

What the grammar derives as a statement or a declaration is read without error, and by induction on
the number of tokens the rules accept the whole grammar.
-/

namespace TreeWalk

open TreeWalk.Parser TreeWalk.Grammar

section Lookahead

variable {α : Type} {margin : Nat} {inLoop : Bool} {p q : Nat → Nat → Parser α} {fits : List Token → Prop}
  {ts : List Token} {post : α → Prop}

theorem sees_then {kind : TokenKind} (hfits : ∀ rest, fits rest → Closes kind (ts ++ rest))
    (h : Accepts margin p inLoop fits ts post) :
    Accepts margin (fun n b => sees kind >>= fun found => if found then p n b else q n b) inLoop fits ts post := by
  refine h.congr fun first levels rounds s rest hready => ?_
  obtain ⟨t, ht, hkind⟩ := Option.map_eq_some_iff.1 (hfits rest hready.fits)
  simp [bind_eq_match, sees, hready.tokens, ht, hkind]

theorem sees_else {kind : TokenKind} {t : Token} (ht : t.kind ≠ kind)
    (h : Accepts margin q inLoop fits (t :: ts) post) :
    Accepts margin (fun n b => sees kind >>= fun found => if found then p n b else q n b) inLoop fits (t :: ts) post := by
  refine h.congr fun first levels rounds s rest hready => ?_
  simp [bind_eq_match, sees, hready.tokens, ht]

theorem some_accepts (h : Accepts margin p inLoop fits ts post) :
    Accepts margin (fun n b => some <$> p n b) inLoop fits ts (fun _ => True) := by
  simp only [map_eq_pure_bind]
  exact h.map _ fun _ _ => trivial

/-- A token of another kind comes next. -/
theorem accept_other {β : Type} {kind : TokenKind} {k : Option Token → Nat → Nat → Parser β} {t : Token} {post : β → Prop}
    (ht : t.kind ≠ kind) (h : Accepts margin (k none) inLoop fits (t :: ts) post) :
    Accepts margin (fun n b => accept kind >>= fun found => k found n b) inLoop fits (t :: ts) post := by
  have hother (rest : List Token) (hrest : rest.head? = some t) (u : Token) (hu : u ∈ rest.head?) : u.kind ≠ kind := by
    obtain rfl := Option.some.inj (hrest.symm.trans hu)
    exact ht
  exact (accept_none hother).skip h fun _ _ => rfl

/-- A name behind `fun` makes it a declaration. -/
theorem function_then {t name : Token} (ht : t.kind = .funKeyword) (hname : name.kind = .identifier)
    (h : Accepts margin p inLoop fits ([t] ++ ([name] ++ ts)) post) :
    Accepts margin (fun n b => seesFunctionDeclaration >>= fun found => if found then p n b else q n b) inLoop fits
      ([t] ++ ([name] ++ ts)) post := by
  refine h.congr fun first levels rounds s rest hready => ?_
  simp [bind_eq_match, seesFunctionDeclaration, hready.tokens, ht, hname]

/-- Without a name behind it `fun` begins an expression. -/
theorem function_else {t : Token} (hfun : t.kind = .funKeyword → ts.head?.map (·.kind) = some .leftParen)
    (h : Accepts margin q inLoop fits ([t] ++ ts) post) :
    Accepts margin (fun n b => seesFunctionDeclaration >>= fun found => if found then p n b else q n b) inLoop fits
      ([t] ++ ts) post := by
  refine h.congr fun first levels rounds s rest hready => ?_
  have htokens : s.tokens = t :: (ts ++ rest) := hready.tokens
  have hsees : seesFunctionDeclaration s = .ok false s := by
    unfold seesFunctionDeclaration
    rw [htokens]
    by_cases ht : t.kind = .funKeyword
    · obtain ⟨u, hu, hkind⟩ := Option.map_eq_some_iff.1 (hfun ht)
      obtain ⟨us, rfl⟩ := List.head?_eq_some_iff.1 hu
      simp [hkind]
    · cases ts ++ rest with
      | nil => rfl
      | cons u us => simp [ht]
  exact bind_ok hsees

end Lookahead

section Statements

variable {size : Nat} {ts : List Token} {inLoop beforeElse : Bool}

theorem unlessClosed_accepts (hk : Complete size) (closing : TokenKind) (hclosing : tightness closing = 0)
    (hstarts : closing ∉ expressionStarts) (h : Derives (.maybe (.symbol .expression)) ts) (hsize : ts.length < size) :
    Accepts 1 (fun n _ => unlessClosed (rules n) closing) false (Closes closing) ts (fun _ => True) := by
  rcases derives_maybe.1 h with rfl | h
  · exact sees_then (fun _ hrest => hrest) (.pure trivial)
  · have hvalue := some_accepts (hk.expression ts hsize h)
    obtain ⟨t, rest, rfl, ht, -⟩ := opens_expression h
    exact sees_else (fun hkind => hstarts (hkind ▸ ht)) (hvalue.mono (fun _ h => h) fun _ hrest => hrest.stops (by omega))

/-- A value and its semicolon. -/
theorem value_accepts (hk : Complete size) {value : List Token} {t : Token} (h : Derives (.symbol .expression) value)
    (ht : t.kind = .semicolon) (hsize : value.length < size) {β : Type} (what : String) (f : Expr → β) :
    Accepts 1 (fun n _ => do
      let e ← (rules n).expression
      let _ ← expect .semicolon what
      pure (f e)) false Anything (value ++ [t]) (fun _ => True) := by
  refine (hk.expression value hsize h).bind (fun e _ => ?_) (fun _ _ => stops_cons.2 (by simp [ht, tightness]))
    (Nat.le_add_right 1 _)
  exact (expect_accepts ht).map _ fun _ _ => trivial

theorem varDeclaration_accepts (hk : Complete size) (h : Derives (.symbol .varDeclaration) ts)
    (hsize : ts.length ≤ size) : ∃ t rest, ts = [t] ++ rest ∧ t.kind = .varKeyword ∧
      Accepts 1 (fun n _ => varDeclaration (rules n)) false Anything rest (fun _ => True) := by
  have h := derives_symbol.1 h
  simp only [production, derives_cons, derives_nil, derives_maybe, derives_token] at h
  obtain ⟨_, _, ⟨t, ht, rfl⟩, ⟨_, _, ⟨name, hname, rfl⟩, ⟨init, _, hinit, ⟨_, _, ⟨u, hu, rfl⟩, rfl, rfl⟩, rfl⟩, rfl⟩, rfl⟩ := h
  refine ⟨t, _, rfl, ht, (expectName_accepts hname).after fun name _ => ?_⟩
  have hclose (initializer : Option Expr) : Accepts 1 (fun _ _ => do
      let _ ← expect .semicolon "';' after variable declaration"
      pure (Stmt.var name initializer)) false Anything [u] (fun _ => True) :=
    (expect_accepts hu).map _ fun _ _ => trivial
  rcases hinit with rfl | ⟨_, _, ⟨v, hv, rfl⟩, ⟨value, _, hvalue, rfl, rfl⟩, rfl⟩
  · exact accept_other (by simp [hu]) (hclose none)
  · simp only [List.length_append, List.length_singleton, List.append_nil, List.append_assoc] at hsize ⊢
    refine (accept_accepts hv).known ?_ (Nat.le_add_right 1 _)
    exact (some_accepts (hk.expression value (by omega) hvalue)).bind (fun initializer _ => hclose initializer)
      (fun _ _ => stops_cons.2 (by simp [hu, tightness])) (Nat.le_add_right 1 _)

theorem forInitializer_accepts (hk : Complete size)
    (h : Derives (.choice [.token .semicolon, .symbol .varDeclaration, .symbol .expressionStatement]) ts)
    (hsize : ts.length ≤ size) :
    Accepts 1 (fun n _ => forInitializer (rules n)) false Anything ts (fun _ => True) := by
  simp only [derives_choice, List.mem_cons, List.not_mem_nil, or_false, exists_eq_or_imp, exists_eq_left,
    derives_token] at h
  rcases h with ⟨t, ht, rfl⟩ | h | h
  · rw [← List.append_nil [t]]
    exact (accept_accepts ht).known (.pure trivial) (Nat.zero_le _)
  · obtain ⟨t, rest, rfl, ht, hrest⟩ := varDeclaration_accepts hk h hsize
    refine accept_other (by simp [ht]) ?_
    exact (accept_accepts ht).known (some_accepts hrest) (Nat.le_add_right 1 _)
  · have h := derives_symbol.1 h
    simp only [production, derives_cons, derives_nil, derives_token] at h
    obtain ⟨value, _, hvalue, ⟨_, _, ⟨u, hu, rfl⟩, rfl, rfl⟩, rfl⟩ := h
    simp only [List.length_append, List.length_singleton, List.append_nil] at hsize ⊢
    have hread := value_accepts hk hvalue hu (by omega) "';' after loop initializer" fun value => some (Stmt.expression value)
    obtain ⟨t, rest, rfl, ht, -⟩ := opens_expression hvalue
    refine accept_other (fun hkind => ?_) (accept_other (fun hkind => ?_) hread)
    · exact absurd (hkind ▸ ht) (by decide)
    · exact absurd (hkind ▸ ht) (by decide)

/-- What may follow a statement. An `else` only does where no `if` is left without one. -/
def EndsStatement (beforeElse : Bool) (rest : List Token) : Prop := beforeElse = true ∨ ElseFree rest

theorem loopBody_accepts (hk : Complete size) (h : Derives (.symbol (.statement true beforeElse)) ts)
    (hsize : ts.length < size) :
    Accepts 1 (fun n _ => atLoopDepth (· + 1) (rules n).statement) false (EndsStatement beforeElse) ts (fun _ => True) :=
  atLoopDepth_accepts (hk.statement true beforeElse ts hsize h) fun _ _ => nofun

theorem forStatement_accepts (hk : Complete size) (h : Derives (.symbol (.forStatement beforeElse)) ts)
    (hsize : ts.length ≤ size) : ∃ t rest, ts = [t] ++ rest ∧ t.kind = .forKeyword ∧
      Accepts 1 (fun n _ => forStatement (rules n)) false (EndsStatement beforeElse) rest
        (fun _ => True) := by
  have h := derives_symbol.1 h
  simp only [production, derives_cons, derives_nil, derives_token] at h
  obtain ⟨_, _, ⟨t, ht, rfl⟩, ⟨_, _, ⟨u, hu, rfl⟩, ⟨init, _, hinit, ⟨cond, _, hcond, ⟨_, _, ⟨v, hv, rfl⟩,
    ⟨incr, _, hincr, ⟨_, _, ⟨w, hw, rfl⟩, ⟨body, _, hbody, rfl, rfl⟩, rfl⟩, rfl⟩, rfl⟩, rfl⟩, rfl⟩, rfl⟩, rfl⟩ := h
  simp only [List.length_append, List.length_singleton, List.append_nil] at hsize ⊢
  refine ⟨t, _, rfl, ht, (expect_accepts hu).after fun _ _ => ?_⟩
  refine (forInitializer_accepts hk hinit (by omega)).after fun initializer _ => ?_
  refine (unlessClosed_accepts hk .semicolon rfl (by decide) hcond (by omega)).bind (fun condition _ => ?_)
    (fun _ _ => closes_cons.2 hv) (Nat.le_add_right 1 _)
  refine (expect_accepts hv).after fun _ _ => ?_
  refine (unlessClosed_accepts hk .rightParen rfl (by decide) hincr (by omega)).bind (fun increment _ => ?_)
    (fun _ _ => closes_cons.2 hw) (Nat.le_add_right 1 _)
  refine (expect_accepts hw).after fun _ _ => ?_
  rw [← List.append_nil body]
  refine (loopBody_accepts hk hbody (by omega)).bind (fun body _ => ?_) (fun _ h => h) (Nat.le_add_right 1 _)
  cases initializer with
  | none => exact .pure trivial
  | some first => exact .pure trivial

theorem ifStatement_accepts (hk : Complete size) (h : Derives (.symbol (.ifStatement inLoop beforeElse)) ts)
    (hsize : ts.length ≤ size) : ∃ t rest, ts = [t] ++ rest ∧ t.kind = .ifKeyword ∧
      Accepts 1 (fun n _ => ifStatement (rules n)) inLoop (EndsStatement beforeElse) rest
        (fun _ => True) := by
  have h := derives_symbol.1 h
  simp only [production, derives_cons, derives_nil, derives_token] at h
  obtain ⟨_, _, ⟨t, ht, rfl⟩, ⟨_, _, ⟨u, hu, rfl⟩, ⟨cond, _, hcond, ⟨_, _, ⟨v, hv, rfl⟩,
    ⟨body, _, hbody, rfl, rfl⟩, rfl⟩, rfl⟩, rfl⟩, rfl⟩ := h
  simp only [List.length_append, List.length_singleton, List.append_nil] at hsize ⊢
  refine ⟨t, _, rfl, ht, (expect_accepts hu).after fun _ _ => ?_⟩
  refine (hk.expression cond (by omega) hcond).anywhere.bind (fun condition _ => ?_)
    (fun _ _ => stops_cons.2 (by simp [hv, tightness])) (Nat.le_add_right 1 _)
  refine (expect_accepts hv).after fun _ _ => ?_
  simp only [branches, derives_choice, List.mem_cons] at hbody
  obtain ⟨_, rfl | hφ, hbody⟩ := hbody
  · simp only [derives_cons, derives_nil, derives_token] at hbody
    obtain ⟨thenTokens, _, hthen, ⟨_, _, ⟨w, hw, rfl⟩, ⟨elseTokens, _, helse, rfl, rfl⟩, rfl⟩, rfl⟩ := hbody
    simp only [List.length_append, List.length_singleton, List.append_nil] at hsize ⊢
    refine (hk.statement inLoop true thenTokens (by omega) hthen).bind (fun thenBranch _ => ?_) (fun _ _ => .inl rfl)
      (Nat.le_add_right 1 _)
    refine (accept_accepts hw).known ?_ (Nat.le_add_right 1 _)
    exact (hk.statement inLoop beforeElse elseTokens (by omega) helse).map _ fun _ _ => trivial
  · cases beforeElse with
    | true => exact absurd hφ (by simp)
    | false =>
      obtain rfl : _ = Phrase.symbol (.statement inLoop false) := by simpa using hφ
      have helse (rest : List Token) (hrest : EndsStatement false rest) : ElseFree rest :=
        hrest.resolve_left (by rintro ⟨⟩)
      rw [← List.append_nil body]
      refine (hk.statement inLoop false body (by omega) hbody).bind (fun thenBranch _ => ?_) (fun _ h => h)
        (Nat.le_add_right 1 _)
      exact (accept_none fun rest hrest => helse rest hrest).skip (.pure trivial) fun _ h => h

theorem whileStatement_accepts (hk : Complete size) (h : Derives (.symbol (.whileStatement beforeElse)) ts)
    (hsize : ts.length ≤ size) : ∃ t rest, ts = [t] ++ rest ∧ t.kind = .whileKeyword ∧
      Accepts 1 (fun n _ => whileStatement (rules n)) false (EndsStatement beforeElse) rest
        (fun _ => True) := by
  have h := derives_symbol.1 h
  simp only [production, derives_cons, derives_nil, derives_token] at h
  obtain ⟨_, _, ⟨t, ht, rfl⟩, ⟨_, _, ⟨u, hu, rfl⟩, ⟨cond, _, hcond, ⟨_, _, ⟨v, hv, rfl⟩,
    ⟨body, _, hbody, rfl, rfl⟩, rfl⟩, rfl⟩, rfl⟩, rfl⟩ := h
  simp only [List.length_append, List.length_singleton, List.append_nil] at hsize ⊢
  refine ⟨t, _, rfl, ht, (expect_accepts hu).after fun _ _ => ?_⟩
  refine (hk.expression cond (by omega) hcond).bind (fun condition _ => ?_)
    (fun _ _ => stops_cons.2 (by simp [hv, tightness])) (Nat.le_add_right 1 _)
  refine (expect_accepts hv).after fun _ _ => ?_
  exact (loopBody_accepts hk hbody (by omega)).map _ fun _ _ => trivial

theorem loopControl_accepts (keyword : Token) (word : String) {t : Token} (ht : t.kind = .semicolon) :
    Accepts 1 (fun _ _ => loopControl keyword word) true Anything [t] (fun _ => True) := by
  have hexpect : Accepts 1 (fun _ _ => expect .semicolon "';' after loop control" >>= fun _ => pure ()) true Anything [t]
      (fun _ => True) := (expect_accepts ht).map _ fun _ _ => trivial
  refine hexpect.congr fun first levels rounds s rest hready => ?_
  show (if (!(s.loopDepth != 0)) = true then _ else _ : Parser Unit) s = _
  rw [if_neg (by simpa using hready.loopDepth rfl)]

/-- A `break` or `continue` statement. -/
theorem loopControl_reads {σ : Symbol} {kind : TokenKind} (hσ : production σ = .seq [.token kind, .token .semicolon])
    (word : String) (h : Derives (.symbol σ) ts) : ∃ t rest, ts = [t] ++ rest ∧ t.kind = kind ∧
      Accepts 1 (fun _ _ => loopControl t word) true Anything rest (fun _ => True) := by
  have h := derives_symbol.1 h
  simp only [hσ, derives_cons, derives_nil, derives_token] at h
  obtain ⟨_, _, ⟨t, ht, rfl⟩, ⟨_, _, ⟨u, hu, rfl⟩, rfl, rfl⟩, rfl⟩ := h
  exact ⟨t, [u], rfl, ht, loopControl_accepts t word hu⟩

theorem expressionStatement_accepts (hk : Complete size) (h : Derives (.symbol .expressionStatement) ts)
    (hsize : ts.length ≤ size) :
    Accepts 0 (fun n _ => statement (rules n)) false Anything ts (fun _ => True) := by
  have h := derives_symbol.1 h
  simp only [production, derives_cons, derives_nil, derives_token] at h
  obtain ⟨value, _, hvalue, ⟨_, _, ⟨u, hu, rfl⟩, rfl, rfl⟩, rfl⟩ := h
  simp only [List.length_append, List.append_nil] at hsize ⊢
  have hread : Accepts 0 (fun n _ => expressionStatement (rules n)) false Anything (value ++ [u]) (fun _ => True) := by
    refine (expression_accepts hk hvalue (by omega)).bind (fun e _ => ?_)
      (fun _ _ => stops_cons.2 (by simp [hu, tightness])) (Nat.zero_le _)
    exact (expect_accepts hu).map _ fun _ _ => trivial
  obtain ⟨t, rest, rfl, ht, -⟩ := opens_expression hvalue
  show Accepts 0 _ false Anything ([t] ++ (rest ++ [u])) _
  refine current_accepts ?_
  revert ht
  cases t.kind with
  | forKeyword | ifKeyword | whileKeyword | printKeyword | returnKeyword | breakKeyword | continueKeyword
  | leftBrace | semicolon => exact fun ht => absurd ht (by decide)
  | _ => exact fun _ => hread

theorem statement_accepts (hk : Complete size) (h : Derives (.symbol (.statement inLoop beforeElse)) ts)
    (hsize : ts.length ≤ size) :
    Accepts 0 (fun n _ => statement (rules n)) inLoop (EndsStatement beforeElse) ts (fun _ => True) := by
  have hanything {p : Nat → Nat → Parser Stmt} {rest : List Token}
      (h : Accepts 1 p false Anything rest (fun _ => True)) :
      Accepts 1 p inLoop (EndsStatement beforeElse) rest (fun _ => True) :=
    h.anywhere.always
  obtain ⟨φ, hφ, h⟩ := derives_choice.1 (derives_symbol.1 h)
  rcases List.mem_append.1 hφ with hφ | hφ
  · simp only [statements, List.mem_cons, List.not_mem_nil, or_false] at hφ
    rcases hφ with rfl | rfl | rfl | rfl | rfl | rfl | rfl | rfl
    · exact (expressionStatement_accepts hk h hsize).anywhere.always
    · obtain ⟨t, rest, rfl, ht, hrest⟩ := forStatement_accepts hk h hsize
      refine current_accepts ?_
      simp only [ht]
      exact advance_then hrest.anywhere
    · obtain ⟨t, rest, rfl, ht, hrest⟩ := ifStatement_accepts hk h hsize
      refine current_accepts ?_
      simp only [ht]
      exact advance_then hrest
    · have h := derives_symbol.1 h
      simp only [production, derives_cons, derives_nil, derives_token] at h
      obtain ⟨_, _, ⟨t, ht, rfl⟩, ⟨value, _, hvalue, ⟨_, _, ⟨u, hu, rfl⟩, rfl, rfl⟩, rfl⟩, rfl⟩ := h
      simp only [List.length_append, List.length_singleton, List.append_nil] at hsize ⊢
      refine current_accepts ?_
      simp only [ht]
      exact advance_then (hanything (value_accepts hk hvalue hu (by omega) _ _))
    · have h := derives_symbol.1 h
      simp only [production, derives_cons, derives_nil, derives_token] at h
      obtain ⟨_, _, ⟨t, ht, rfl⟩, ⟨value, _, hvalue, ⟨_, _, ⟨u, hu, rfl⟩, rfl, rfl⟩, rfl⟩, rfl⟩ := h
      simp only [List.length_append, List.length_singleton, List.append_nil] at hsize ⊢
      refine current_accepts ?_
      simp only [ht]
      refine advance_then (hanything ?_)
      refine (unlessClosed_accepts hk .semicolon rfl (by decide) hvalue (by omega)).bind (fun value _ => ?_)
        (fun _ _ => closes_cons.2 hu) (Nat.le_add_right 1 _)
      exact (expect_accepts hu).map _ fun _ _ => trivial
    · obtain ⟨t, rest, rfl, ht, hrest⟩ := whileStatement_accepts hk h hsize
      refine current_accepts ?_
      simp only [ht]
      exact advance_then hrest.anywhere
    · obtain ⟨t, rest, rfl, ht, hrest⟩ := block_accepts hk h hsize
      refine current_accepts ?_
      simp only [ht]
      exact advance_then ((hrest.map _ fun _ _ => trivial).always)
    · obtain ⟨t, ht, rfl⟩ := derives_token.1 h
      rw [← List.append_nil [t]]
      refine current_accepts ?_
      simp only [ht]
      exact advance_then (.pure trivial)
  · cases inLoop with
    | false => exact absurd hφ (by simp [loopControls])
    | true =>
      simp only [loopControls, if_true, List.mem_cons, List.not_mem_nil, or_false] at hφ
      rcases hφ with rfl | rfl
      · obtain ⟨t, rest, rfl, ht, hrest⟩ := loopControl_reads rfl "break" h
        refine current_accepts ?_
        simp only [ht]
        exact advance_then ((hrest.map _ fun _ _ => trivial).always)
      · obtain ⟨t, rest, rfl, ht, hrest⟩ := loopControl_reads rfl "continue" h
        refine current_accepts ?_
        simp only [ht]
        exact advance_then ((hrest.map _ fun _ _ => trivial).always)

end Statements

section Declarations

variable {size : Nat} {ts : List Token} {inLoop : Bool}

theorem functionDeclaration_accepts (hk : Complete size) (h : Derives (.symbol .functionDeclaration) ts)
    (hsize : ts.length ≤ size) : ∃ t name rest, ts = [t] ++ ([name] ++ rest) ∧ t.kind = .funKeyword ∧
      name.kind = .identifier ∧
      Accepts 1 (fun n _ => functionDeclaration (rules n)) false Anything ([name] ++ rest) (fun _ => True) := by
  have h := derives_symbol.1 h
  simp only [production, derives_cons, derives_nil, derives_token] at h
  obtain ⟨_, _, ⟨t, ht, rfl⟩, ⟨_, _, ⟨name, hname, rfl⟩, ⟨rest, _, hrest, rfl, rfl⟩, rfl⟩, rfl⟩ := h
  simp only [List.length_append, List.length_singleton, List.append_nil] at hsize ⊢
  refine ⟨t, name, rest, rfl, ht, hname, (expectName_accepts hname).after fun name _ => ?_⟩
  exact ((function_accepts hk hrest (by omega)).weaken (Nat.zero_le 1)).map _ fun _ _ => trivial

theorem parentClause_accepts (h : Derives (.maybe (.seq [.oneOf [.colon, .less], .token .identifier])) ts) :
    Accepts 1 (fun _ _ => parentClause) false (Closes .leftBrace) ts (fun _ => True) := by
  rcases derives_maybe.1 h with rfl | h
  · refine (acceptWhere_none fun rest hrest t ht => ?_).skip (.pure trivial) fun _ h => h
    have hkind : t.kind = .leftBrace := by simpa [Closes, Option.mem_def.1 ht] using hrest
    simp [hkind]
  · simp only [derives_cons, derives_nil, derives_oneOf, derives_token] at h
    obtain ⟨_, _, ⟨t, ht, rfl⟩, ⟨_, _, ⟨name, hname, rfl⟩, rfl, rfl⟩, rfl⟩ := h
    have hwanted : (t.kind == .colon || t.kind == .less) = true := by simpa using ht
    refine (acceptWhere_accepts (if_pos hwanted)).known ?_ (Nat.le_add_right 1 _)
    refine (expectName_accepts hname).bind (fun name _ => ?_) (fun _ _ => trivial) (Nat.le_add_right 1 _)
    exact ((reference_accepts name).map some fun _ _ => trivial).always

theorem method_accepts (hk : Complete size) (h : Derives (.symbol .method) ts) (hsize : ts.length ≤ size) :
    (∃ t rest, ts = t :: rest ∧ t.kind = .identifier) ∧
      Accepts 1 (fun n _ => do
        let name ← expectName "method name"
        let body ← function (rules n)
        pure (Method.mk name body)) false Anything ts (fun _ => True) := by
  have h := derives_symbol.1 h
  simp only [production, derives_cons, derives_nil, derives_token] at h
  obtain ⟨_, _, ⟨name, hname, rfl⟩, ⟨rest, _, hrest, rfl, rfl⟩, rfl⟩ := h
  simp only [List.length_append, List.append_nil] at hsize ⊢
  refine ⟨⟨name, rest, rfl, hname⟩, (expectName_accepts hname).after fun name _ => ?_⟩
  exact ((function_accepts hk hrest (by omega)).weaken (Nat.zero_le 1)).map _ fun _ _ => trivial

theorem methods_accepts (hk : Complete size) (pieces : List (List Token))
    (hpieces : ∀ piece ∈ pieces, Derives (.symbol .method) piece) (hsize : pieces.flatten.length ≤ size) :
    Accepts 1 (fun n b => methods (rules n) (b - 1)) false EndsBody pieces.flatten (fun _ => True) := by
  refine Collecting.accepts (fun n => collecting_methods (rules n)) (fun _ _ => trivial) pieces fun piece hpiece => ?_
  have hshort := (List.sublist_flatten_of_mem hpiece).length_le
  obtain ⟨⟨t, rest, rfl, ht⟩, haccepts⟩ := method_accepts hk (hpieces piece hpiece) (by omega)
  exact ⟨haccepts, by simp, fun _ => ⟨not_endsBody (by simp [ht]), trivial⟩⟩

theorem classDeclaration_accepts (hk : Complete size) (h : Derives (.symbol .classDeclaration) ts)
    (hsize : ts.length ≤ size) : ∃ t rest, ts = [t] ++ rest ∧ t.kind = .classKeyword ∧
      Accepts 1 (fun n _ => classDeclaration (rules n)) false Anything rest (fun _ => True) := by
  have h := derives_symbol.1 h
  simp only [production, derives_cons, derives_nil, derives_token] at h
  obtain ⟨_, _, ⟨t, ht, rfl⟩, ⟨_, _, ⟨name, hname, rfl⟩, ⟨parent, _, hparent, ⟨_, _, ⟨u, hu, rfl⟩,
    ⟨_, _, hmany, ⟨_, _, ⟨v, hv, rfl⟩, rfl, rfl⟩, rfl⟩, rfl⟩, rfl⟩, rfl⟩, rfl⟩ := h
  obtain ⟨pieces, -, hpieces, rfl⟩ := derives_many.1 hmany
  simp only [List.length_append, List.length_singleton, List.append_nil] at hsize ⊢
  refine ⟨t, _, rfl, ht, (expectName_accepts hname).after fun name _ => ?_⟩
  refine (parentClause_accepts hparent).bind (fun parent _ => ?_) (fun _ _ => closes_cons.2 hu) (Nat.le_add_right 1 _)
  refine (expect_accepts hu).after fun _ _ => ?_
  have hbody : Accepts 1 (fun n b => do
      let body ← methods (rules n) (b - 1)
      let _ ← expect .rightBrace "'\x7d' after class body"
      pure (Stmt.class name parent body)) false Anything (pieces.flatten ++ [v]) (fun _ => True) :=
    (methods_accepts hk pieces hpieces (by omega)).bind (fun body _ => (expect_accepts hv).map _ fun _ _ => trivial)
      (fun _ _ => endsBody_brace hv) (Nat.le_add_right 1 _)
  exact hbody.remaining

theorem item_accepts (hk : Complete size) (h : Derives (.symbol (.declaration inLoop)) ts) (hsize : ts.length ≤ size) :
    Accepts 0 (fun n _ => item (rules n)) inLoop ElseFree ts (fun _ => True) := by
  have h := derives_symbol.1 h
  simp only [production, derives_choice, List.mem_cons, List.not_mem_nil, or_false, exists_eq_or_imp,
    exists_eq_left] at h
  rcases h with h | h | h | h
  · obtain ⟨t, rest, rfl, ht, hrest⟩ := classDeclaration_accepts hk h hsize
    exact (accept_accepts ht).known hrest.anywhere.always (Nat.le_refl 1)
  · obtain ⟨t, name, rest, rfl, ht, hname, hrest⟩ := functionDeclaration_accepts hk h hsize
    refine accept_other (by simp [ht]) (function_then ht hname ?_)
    exact advance_then hrest.anywhere.always
  · obtain ⟨t, rest, rfl, ht, hrest⟩ := varDeclaration_accepts hk h hsize
    refine accept_other (by simp [ht]) (function_else (by simp [ht]) ?_)
    exact (accept_accepts ht).known hrest.anywhere.always (Nat.le_refl 1)
  · have hstatement := statement_accepts hk h hsize
    obtain ⟨t, rest, rfl, ht, hfun⟩ := opens_statement h
    refine accept_other (fun hkind => absurd (hkind ▸ ht) (by decide)) (function_else hfun ?_)
    refine accept_other (fun hkind => absurd (hkind ▸ ht) (by decide)) ?_
    exact hstatement.mono (fun _ h => h) fun _ h => .inr h

/-- A declaration that can be read is not skipped. -/
theorem orSkip_accepts {α : Type} {margin : Nat} {p : Nat → Nat → Parser α} {fits : List Token → Prop}
    {post : α → Prop} (h : Accepts margin p inLoop fits ts post) :
    Accepts margin (fun n b => orSkip (p n b)) inLoop fits ts (fun o => ∃ a, o = some a) := by
  intro first
  obtain ⟨a, next, ha, hreads⟩ := h first
  refine ⟨some a, next, ⟨a, rfl⟩, fun levels rounds s rest hready => ?_⟩
  simp [orSkip, hreads levels rounds s rest hready]

end Declarations

/-- A rule for one more level is the rule of the grammar around the others. -/
theorem level_accepts {α : Type} (field rule : Rules → Parser α) (hfield : ∀ n, field (rules (n + 1)) = rule (rules n))
    {inLoop : Bool} {fits : List Token → Prop} {ts : List Token} {post : α → Prop}
    (h : Accepts 0 (fun n _ => rule (rules n)) inLoop fits ts post) :
    Accepts 1 (fun n _ => field (rules n)) inLoop fits ts post := by
  intro first
  obtain ⟨a, next, ha, hreads⟩ := h first
  refine ⟨a, next, ha, fun levels rounds s rest hready => ?_⟩
  obtain ⟨n, rfl⟩ : ∃ n, levels = n + 1 := ⟨levels - 1, by have := hready.levels; omega⟩
  show field (rules (n + 1)) s = _
  rw [hfield]
  exact hreads n rounds s rest { hready with
    levels := Nat.le_of_succ_le_succ hready.levels
    rounds := Nat.le_of_succ_le hready.rounds }

/-- The rules accept whatever the grammar derives. -/
theorem complete (size : Nat) : Complete size := by
  induction size with
  | zero => exact ⟨nofun, nofun, nofun, fun _ _ => nofun, fun _ => nofun⟩
  | succ size ih =>
    refine ⟨fun ts hsize h => ?_, fun ts hsize h => ?_, fun ts hsize h => ?_, fun inLoop beforeElse ts hsize h => ?_,
      fun inLoop ts hsize h => ?_⟩ <;> have hsize := Nat.le_of_lt_succ hsize
    · exact level_accepts Rules.expression expression (fun _ => rfl) (expression_accepts ih h hsize)
    · exact level_accepts Rules.conditional conditional (fun _ => rfl) ((conditional_level ih).derived ts hsize h)
    · exact level_accepts Rules.unary unary (fun _ => rfl) ((unary_level ih).derived ts hsize h)
    · exact level_accepts Rules.statement statement (fun _ => rfl) (statement_accepts ih h hsize)
    · exact level_accepts Rules.declaration (fun r => orSkip (item r)) (fun _ => rfl)
        (orSkip_accepts (item_accepts ih h hsize))

end TreeWalk
