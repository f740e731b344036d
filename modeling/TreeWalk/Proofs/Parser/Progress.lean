import TreeWalk.Proofs.Parser.Levels
import TreeWalk.Proofs.Parser.Programs

/-!
# Reading makes progress

Whatever is read takes at least one token, and so does skipping over what cannot be read. Therefore no
loop of the parser needs more rounds than there are tokens left, and no rule more levels.
-/

namespace TreeWalk

open TreeWalk.Parser TreeWalk.Grammar

/-- Nothing is asked of the result. -/
abbrev Anyhow {α : Type} (_ : α) (_ : ParserState) : Prop := True

/-- Fewer tokens are left. -/
abbrev Shorter {α : Type} (s : ParserState) (_ : α) (s' : ParserState) : Prop :=
  s'.tokens.length < s.tokens.length

section Ends

variable {α β : Type} {s : ParserState} {post : α → ParserState → Prop} {p : Parser α} {f g : α → Parser β}

theorem Ends.anyhow {result : EStateM.Result GivenUp ParserState α} (h : Ends s post result) : Ends s Anyhow result :=
  h.mono fun _ _ _ _ => trivial

/-- The first part takes a token, and the second gives none back. -/
theorem Ends.shorter_bind (hp : Ends s (Shorter s) (p s))
    (hf : ∀ a s', s'.tokens.length < s.tokens.length → Ends s' Anyhow (f a s')) : Ends s (Shorter s) ((p >>= f) s) := by
  apply hp.bind
  intro a s' _ hshorter
  apply (hf a s' hshorter).mono
  intro b s'' hlater _
  exact Nat.lt_of_le_of_lt hlater.length_le hshorter

/-- Behind the next token fewer are left. -/
theorem Ends.shorter_next {result : EStateM.Result GivenUp ParserState α} {t : Token} {rest : List Token}
    (htokens : s.tokens = t :: rest) (h : Ends { s with tokens := rest } Anyhow result) :
    Ends { s with tokens := rest } (Shorter s) result := by
  apply h.mono
  intro a s' hlater _
  have := hlater.length_le
  rw [Shorter, htokens, List.length_cons]
  exact Nat.lt_succ_of_le this

/-- What is done the same behind every result is done the same. -/
theorem Ends.bind_congr (hp : Ends s post (p s)) (h : ∀ a s', Later s s' → post a s' → f a s' = g a s') :
    (p >>= f) s = (p >>= g) s := by
  rw [bind_eq_match, bind_eq_match]
  cases hs : p s with
  | ok a s' =>
    rw [hs] at hp
    exact h a s' hp.1 hp.2
  | error e s' => rfl

theorem acceptWhere_congr {choose : Token → Option α} {f g : Option α → Parser β} (hnone : f none s = g none s)
    (hsome : ∀ t rest a, s.tokens = t :: rest → f (some a) { s with tokens := rest } = g (some a) { s with tokens := rest }) :
    (acceptWhere choose >>= f) s = (acceptWhere choose >>= g) s := by
  rw [bind_eq_match, bind_eq_match, acceptWhere]
  rcases htokens : s.tokens with _ | ⟨t, rest⟩
  · exact hnone
  · cases hchoose : choose t with
    | none => simpa only [htokens, hchoose] using hnone
    | some a => simpa only [htokens, hchoose] using hsome t rest a htokens

theorem acceptWhere_anyhow (choose : Token → Option α) (s : ParserState) : Ends s Anyhow (acceptWhere choose s) := by
  unfold acceptWhere
  split
  · exact ⟨.refl s, trivial⟩
  case _ t rest htokens =>
    split
    · exact ⟨.refl s, trivial⟩
    · exact ⟨later_next htokens, trivial⟩

theorem report_later (token : Token) (cause : SyntaxCause) (s : ParserState) :
    Later s { s with errors := s.errors ++ [⟨token, cause⟩] } :=
  ⟨List.suffix_refl _, rfl, rfl, List.prefix_append _ _, Nat.le_refl _⟩

theorem report_anyhow (token : Token) (cause : SyntaxCause) (s : ParserState) : Ends s Anyhow (report token cause s) :=
  ⟨report_later token cause s, trivial⟩

end Ends

theorem expectName_shorter (what : String) (s : ParserState) : Ends s (Shorter s) (expectName what s) := by
  have hexpect : Ends s (Shorter s) (expect .identifier what s) := (expect_ends _ what s).mono fun _ _ _ h => h.2
  apply hexpect.shorter_bind
  intro t s' _
  exact .pure trivial

/-! ## Loops

A loop takes at least one token in each round, so more rounds than there are tokens left make no difference. -/

/-- A step and what the loop reads behind it. -/
theorem Collecting.round {α β : Type} {loop : Nat → Parser (List β)} {closes : List Token → Prop} {step : Parser α}
    {add : α → List β → List β} (h : Collecting loop closes step add) {s s₁ s₂ : ParserState}
    (hmore : ¬ closes s.tokens) {a : α} (hstep : step s = .ok a s₁) {bound : Nat} {rest : List β}
    (hrest : loop bound s₁ = .ok rest s₂) : loop (bound + 1) s = .ok (add a rest) s₂ := by
  rw [h.succ bound s hmore]
  exact (bind_ok hstep).trans (bind_ok hrest)

namespace Extending

variable {κ : Type} {n : Nat} {loop : Nat → Expr → Parser Expr} {choose : Token → Option κ}
  {step : Expr → κ → Parser Expr} {s : ParserState}

theorem anyhow (h : Extending loop choose step)
    (hstep : ∀ left k s, s.tokens.length < n → Ends s Anyhow (step left k s)) (bound : Nat) (left : Expr)
    (hn : s.tokens.length ≤ n) : Ends s Anyhow (loop bound left s) := by
  induction bound generalizing left s with
  | zero =>
    rw [h.zero]
    exact .pure trivial
  | succ bound ih =>
    rw [h.succ]
    apply ends_acceptWhere
    · intro _
      exact .pure trivial
    · intro t rest k htokens _
      rw [htokens] at hn
      apply (hstep left k { s with tokens := rest } hn).bind
      intro left' s' hlater _
      exact ih left' (Nat.le_trans hlater.length_le (Nat.le_of_succ_le hn))

/-- The loop ends in front of a token that it does not choose. -/
theorem stop (h : Extending loop choose step) (bound : Nat) (left : Expr) (hstop : ∀ t ∈ s.tokens.head?, choose t = none) :
    loop bound left s = .ok left s := by
  cases bound with
  | zero =>
    rw [h.zero]
    rfl
  | succ bound =>
    rw [h.succ]
    exact bind_ok (acceptWhere_skips hstop)

/-- Without a token there is no round. -/
theorem nil (h : Extending loop choose step) (bound : Nat) (left : Expr) (hnil : s.tokens = []) :
    loop bound left s = .ok left s := h.stop bound left (by simp [hnil])

theorem rounds (h : Extending loop choose step)
    (hstep : ∀ left k s, s.tokens.length < n → Ends s Anyhow (step left k s)) {bound bound' : Nat} (left : Expr)
    (hn : s.tokens.length ≤ n) (hbound : s.tokens.length ≤ bound) (hbound' : s.tokens.length ≤ bound') :
    loop bound left s = loop bound' left s := by
  induction bound generalizing bound' left s with
  | zero =>
    have hnil := List.length_eq_zero_iff.1 (Nat.le_zero.1 hbound)
    rw [h.nil 0 left hnil, h.nil bound' left hnil]
  | succ bound ih =>
    cases bound' with
    | zero =>
      have hnil := List.length_eq_zero_iff.1 (Nat.le_zero.1 hbound')
      rw [h.nil (bound + 1) left hnil, h.nil 0 left hnil]
    | succ bound' =>
      rw [h.succ, h.succ]
      apply acceptWhere_congr
      · rfl
      · intro t rest k htokens
        rw [htokens, List.length_cons] at hn hbound hbound'
        apply (hstep left k { s with tokens := rest } hn).bind_congr
        intro left' s' hlater _
        have hshort : s'.tokens.length ≤ rest.length := hlater.length_le
        exact ih left' (by omega) (by omega) (by omega)

end Extending

theorem Collecting.rounds {α β : Type} {n : Nat} {loop : Nat → Parser (List β)} {closes : List Token → Prop}
    {step : Parser α} {add : α → List β → List β} {s : ParserState} (h : Collecting loop closes step add)
    (hstep : ∀ s, ¬ closes s.tokens → s.tokens.length ≤ n → Ends s (Shorter s) (step s)) {bound bound' : Nat}
    (hn : s.tokens.length ≤ n) (hbound : s.tokens.length ≤ bound) (hbound' : s.tokens.length ≤ bound') :
    loop bound s = loop bound' s := by
  induction bound generalizing bound' s with
  | zero =>
    have hcloses : closes s.tokens := List.length_eq_zero_iff.1 (Nat.le_zero.1 hbound) ▸ h.nil
    rw [h.stop 0 s hcloses, h.stop bound' s hcloses]
  | succ bound ih =>
    by_cases hcloses : closes s.tokens
    · rw [h.stop _ s hcloses, h.stop _ s hcloses]
    · cases bound' with
      | zero => exact absurd (List.length_eq_zero_iff.1 (Nat.le_zero.1 hbound') ▸ h.nil) hcloses
      | succ bound' =>
        rw [h.succ _ s hcloses, h.succ _ s hcloses]
        apply (hstep s hcloses hn).bind_congr
        intro a s' _ hshorter
        have hrest : loop bound s' = loop bound' s' := ih (by omega) (by omega) (by omega)
        exact bind_congr_first hrest _

/-- The other items are only read behind a comma. -/
theorem commaRound_congr {α : Type} {item : Parser α} {others others' : Parser (List α)} {s : ParserState}
    (hitem : Ends s Anyhow (item s))
    (h : ∀ s', s'.tokens.length < s.tokens.length → others s' = others' s') :
    commaRound item others s = commaRound item others' s := by
  apply hitem.bind_congr
  intro first s₁ hlater _
  apply acceptWhere_congr
  · rfl
  · intro t rest _ htokens
    have hshort := hlater.length_le
    rw [htokens, List.length_cons] at hshort
    exact bind_congr_first (h { s₁ with tokens := rest } hshort) _

/-- A list takes a comma in each round. -/
theorem commaItems_rounds {α : Type} {n : Nat} {item : Parser α}
    (hitem : ∀ s, s.tokens.length ≤ n → Ends s Anyhow (item s)) (tooMany : Option SyntaxCause) {bound bound' : Nat}
    (count : Nat) {s : ParserState} (hn : s.tokens.length ≤ n) (hbound : s.tokens.length < bound)
    (hbound' : s.tokens.length < bound') :
    commaItems item tooMany bound count s = commaItems item tooMany bound' count s := by
  induction bound generalizing bound' count s with
  | zero => omega
  | succ bound ih =>
    obtain ⟨bound', rfl⟩ : ∃ b, bound' = b + 1 := ⟨bound' - 1, by omega⟩
    have hround (s₁ : ParserState) (hsame : s₁.tokens = s.tokens) :
        commaRound item (commaItems item tooMany bound (count + 1)) s₁ =
          commaRound item (commaItems item tooMany bound' (count + 1)) s₁ := by
      apply commaRound_congr (hitem s₁ (hsame ▸ hn))
      intro s₂ hshort
      rw [hsame] at hshort
      exact ih (count + 1) (by omega) (by omega) (by omega)
    cases tooMany with
    | none => exact hround s rfl
    | some cause =>
      by_cases hfull : (count == maxItems) = true
      · simp only [commaItems, hfull, if_true]
        exact hround { s with errors := s.errors ++ [⟨s.tokens.head?.getD (.endOfInput s.endLine), cause⟩] } rfl
      · simp only [commaItems, hfull]
        exact hround s rfl

/-! ## Expressions -/

theorem leftAssociative_shorter {κ : Type} {operator : TokenKind → Option κ}
    {build : Expr → Operator κ → Expr → Expr} {operand : Parser Expr} {n : Nat}
    (hoperand : ∀ s, s.tokens.length ≤ n → Ends s (Shorter s) (operand s)) {s : ParserState} (hn : s.tokens.length ≤ n) :
    Ends s (Shorter s) (leftAssociative operator build operand s) := by
  apply (hoperand s hn).shorter_bind
  intro first s' hshorter
  apply (extending_leftGrouped operator build operand).anyhow
  · intro left op s hs
    exact (hoperand s (Nat.le_of_lt hs)).anyhow.bind fun _ _ _ _ => .pure trivial
  · show s'.tokens.length ≤ n
    omega

section Rules

variable {r : Rules} {n : Nat} {s : ParserState}

theorem primary_shorter (hr : r.Sound n) (hn : s.tokens.length ≤ n) : Ends s (Shorter s) (primary r s) := by
  rw [primary, bind_current]
  rcases htokens : s.tokens with _ | ⟨t, rest⟩
  · exact Ends.fail _ _
  have hrest : rest.length < n := by rw [htokens] at hn; exact hn
  have hnext {f : Unit → Parser Expr} (h : Ends { s with tokens := rest } Anyhow (f () { s with tokens := rest })) :
      Ends s (Shorter s) ((advance >>= f) s) := ends_advance htokens (.shorter_next htokens h)
  simp only [List.head?_cons, Option.getD_some]
  cases t.kind with
  | falseKeyword | trueKeyword | nilKeyword | number | string => exact hnext (.pure trivial)
  | thisKeyword => exact hnext ((fresh_ends _).bind fun _ _ _ _ => .pure trivial)
  | parentKeyword =>
    apply hnext
    apply (expect_ends _ _ _).bind
    intro _ s₁ _ _
    apply (expectName_ends _ s₁).bind
    intro method s₂ _ _
    exact (fresh_ends s₂).bind fun _ _ _ _ => .pure trivial
  | identifier => exact hnext ((reference_ends _ _).bind fun _ _ _ _ => .pure trivial)
  | leftParen =>
    apply hnext
    apply (hr.expression _ hrest).bind
    intro inner s₁ _ _
    exact (expect_ends _ _ s₁).bind fun _ _ _ _ => .pure trivial
  | funKeyword => exact hnext (lambda_ends hr (Nat.le_of_lt hrest)).anyhow
  | leftBracket =>
    apply hnext
    apply (commaList_ends (fun s hs => hr.expression s (Nat.lt_of_le_of_lt hs hrest)) _ _ (Nat.le_refl _)).bind
    intro elements s₁ _ _
    exact (expect_ends _ _ s₁).bind fun _ _ _ _ => .pure trivial
  | bangEqual | equalEqual | greater | greaterEqual | less | lessEqual | plus | star | slash =>
    exact missingOperand_ends hr htokens hn
  | _ => exact Ends.fail _ _

theorem suffix_anyhow (hr : r.Sound n) (target : Expr) (t : Token) (hn : s.tokens.length < n) :
    Ends s Anyhow (suffix r target t s) := by
  unfold suffix
  cases t.kind with
  | leftParen =>
    apply (commaList_ends (fun s hs => hr.expression s (Nat.lt_of_le_of_lt hs hn)) _ _ (Nat.le_refl _)).bind
    intro arguments s₁ _ _
    exact (expect_ends _ _ s₁).bind fun _ _ _ _ => .pure trivial
  | leftBracket =>
    apply (hr.expression s hn).bind
    intro position s₁ _ _
    exact (expect_ends _ _ s₁).bind fun _ _ _ _ => .pure trivial
  | _ => exact (expectName_ends _ s).bind fun _ _ _ _ => .pure trivial

theorem call_shorter (hr : r.Sound n) (hn : s.tokens.length ≤ n) : Ends s (Shorter s) (call r s) := by
  apply (primary_shorter hr hn).shorter_bind
  intro target s' hshorter
  have hn' : s'.tokens.length ≤ n := by omega
  exact (extending_suffixes r).anyhow (fun target t _ => suffix_anyhow hr target t) s'.tokens.length target hn'

theorem unary_shorter (hr : r.Sound n) (hn : s.tokens.length ≤ n) : Ends s (Shorter s) (unary r s) := by
  apply ends_acceptWhere
  · intro _
    exact call_shorter hr hn
  · intro t rest op htokens _
    apply Ends.shorter_next htokens
    rw [htokens] at hn
    exact (hr.unary { s with tokens := rest } hn).bind fun _ _ _ _ => .pure trivial

theorem disjunction_shorter (hr : r.Sound n) (hn : s.tokens.length ≤ n) : Ends s (Shorter s) (disjunction r s) := by
  -- Each level of operators begins with an operand of the level below.
  have hfactor (s : ParserState) (hn : s.tokens.length ≤ n) : Ends s (Shorter s) (factor r s) :=
    leftAssociative_shorter (fun _ => unary_shorter hr) hn
  have hterm (s : ParserState) (hn : s.tokens.length ≤ n) : Ends s (Shorter s) (term r s) :=
    leftAssociative_shorter hfactor hn
  have hcomparison (s : ParserState) (hn : s.tokens.length ≤ n) : Ends s (Shorter s) (comparison r s) :=
    leftAssociative_shorter hterm hn
  have hequality (s : ParserState) (hn : s.tokens.length ≤ n) : Ends s (Shorter s) (equality r s) :=
    leftAssociative_shorter hcomparison hn
  have hconjunction (s : ParserState) (hn : s.tokens.length ≤ n) : Ends s (Shorter s) (conjunction r s) :=
    leftAssociative_shorter hequality hn
  exact leftAssociative_shorter hconjunction hn

theorem conditional_shorter (hr : r.Sound n) (hn : s.tokens.length ≤ n) : Ends s (Shorter s) (conditional r s) := by
  apply (disjunction_shorter hr hn).shorter_bind
  intro condition s₁ hshorter
  apply ends_accept
  · intro _
    exact .pure trivial
  · intro t rest htokens _
    rw [htokens, List.length_cons] at hshorter
    apply (hr.expression { s₁ with tokens := rest } (by simp only; omega)).bind
    intro thenBranch s₂ hlater₂ _
    apply (expect_ends _ _ s₂).bind
    intro _ s₃ hlater₃ _
    have := (hlater₂.trans hlater₃).length_le
    exact (hr.conditional s₃ (by simp only at this; omega)).bind fun _ _ _ _ => .pure trivial

theorem assignTo_anyhow (target : Expr) (equal : Token) (value : Expr) : Ends s Anyhow (assignTo target equal value s) := by
  cases target with
  | «variable» use => exact (reference_ends _ s).bind fun _ _ _ _ => .pure trivial
  | get object name => exact .pure trivial
  | _ => exact (report_anyhow equal _ s).bind fun _ _ _ _ => .pure trivial

theorem expression_shorter (hr : r.Sound n) (hn : s.tokens.length ≤ n) : Ends s (Shorter s) (expression r s) := by
  apply (conditional_shorter hr hn).shorter_bind
  intro target s₁ hshorter
  apply ends_accept
  · intro _
    exact .pure trivial
  · intro t rest htokens _
    rw [htokens, List.length_cons] at hshorter
    apply (hr.expression { s₁ with tokens := rest } (by simp only; omega)).bind
    intro value s₂ _ _
    exact assignTo_anyhow target t value

/-! ## Statements and declarations -/

theorem expressionStatement_shorter (hr : r.Sound n) (hn : s.tokens.length ≤ n) :
    Ends s (Shorter s) (expressionStatement r s) := by
  apply (expression_shorter hr hn).shorter_bind
  intro value s₁ _
  exact (expect_ends _ _ s₁).bind fun _ _ _ _ => .pure trivial

theorem loopControl_anyhow (keyword : Token) (word : String) : Ends s Anyhow (loopControl keyword word s) := by
  have hend (s : ParserState) : Ends s Anyhow ((expect .semicolon "';' after loop control" >>= fun _ => pure ()) s) :=
    (expect_ends _ _ s).bind fun _ _ _ _ => .pure trivial
  show Ends s _ ((if (!(s.loopDepth != 0)) = true then _ else _ : Parser Unit) s)
  split
  · exact (report_anyhow keyword _ s).bind fun _ s' _ _ => hend s'
  · exact hend s

theorem statement_shorter (hr : r.Sound n) (hn : s.tokens.length ≤ n) : Ends s (Shorter s) (statement r s) := by
  rw [statement, bind_current]
  rcases htokens : s.tokens with _ | ⟨t, rest⟩
  · exact expressionStatement_shorter hr hn
  have hrest : rest.length < n := by rw [htokens] at hn; exact hn
  have hnext {f : Unit → Parser Stmt} (h : Ends { s with tokens := rest } Anyhow (f () { s with tokens := rest })) :
      Ends s (Shorter s) ((advance >>= f) s) := ends_advance htokens (.shorter_next htokens h)
  simp only [List.head?_cons, Option.getD_some]
  cases t.kind with
  | forKeyword => exact hnext (forStatement_ends hr hrest).anyhow
  | ifKeyword => exact hnext (ifStatement_ends hr hrest).anyhow
  | whileKeyword => exact hnext (whileStatement_ends hr hrest).anyhow
  | printKeyword =>
    apply hnext
    apply (hr.expression _ hrest).bind
    intro value s₁ _ _
    exact (expect_ends _ _ s₁).bind fun _ _ _ _ => .pure trivial
  | returnKeyword =>
    apply hnext
    apply (unlessClosed_ends hr _ hrest).bind
    intro value s₁ _ _
    exact (expect_ends _ _ s₁).bind fun _ _ _ _ => .pure trivial
  | breakKeyword | continueKeyword => exact hnext ((loopControl_anyhow t _).bind fun _ _ _ _ => .pure trivial)
  | leftBrace => exact hnext ((block_ends hr hrest).bind fun _ _ _ _ => .pure trivial)
  | semicolon => exact hnext (.pure trivial)
  | _ => exact expressionStatement_shorter hr hn

theorem item_shorter (hr : r.Sound n) (hn : s.tokens.length ≤ n) : Ends s (Shorter s) (item r s) := by
  have hrest {t : Token} {rest : List Token} (htokens : s.tokens = t :: rest) : rest.length < n := by
    rw [htokens] at hn; exact hn
  apply ends_accept
  · intro _
    have hother : Ends s (Shorter s)
        ((accept .varKeyword >>= fun found => if found.isSome = true then varDeclaration r else statement r) s) := by
      apply ends_accept
      · intro _
        exact statement_shorter hr hn
      · intro t rest htokens _
        exact .shorter_next htokens (varDeclaration_ends hr (hrest htokens)).anyhow
    refine ends_seesFunctionDeclaration hother fun t rest htokens _ => ?_
    exact ends_advance htokens (.shorter_next htokens (functionDeclaration_ends hr (hrest htokens)).anyhow)
  · intro t rest htokens _
    exact .shorter_next htokens (classDeclaration_ends hr (hrest htokens)).anyhow

end Rules

/-! ## Skipping -/

/-- Reading resumes at the end of the tokens, behind a semicolon or in front of what starts a statement,
with the last token that was skipped in front of it. -/
theorem resume_lands (previous : Token) (ts : List Token) :
    ∃ skipped last, previous :: ts = skipped ++ last :: resume previous ts ∧
      (resume previous ts = [] ∨ last.kind = .semicolon ∨ ∃ t ∈ (resume previous ts).head?, t.kind.startsStatement) := by
  induction ts generalizing previous with
  | nil => exact ⟨[], previous, rfl, .inl rfl⟩
  | cons t rest ih =>
    unfold resume
    split
    case isTrue hstop =>
      refine ⟨[], previous, rfl, .inr ?_⟩
      rcases Bool.or_eq_true_iff.1 hstop with hsemicolon | hstarts
      · left
        exact beq_iff_eq.1 hsemicolon
      · right
        exact ⟨t, rfl, hstarts⟩
    case isFalse =>
      obtain ⟨skipped, last, hall, hlands⟩ := ih t
      exact ⟨previous :: skipped, last, by rw [hall, List.cons_append], hlands⟩

/-- Reading from the first state was given up, and it goes on at the second: errors are on record, and it goes on at
the end of the tokens, behind a semicolon or in front of what starts a statement. -/
structure Resumed (s s' : ParserState) : Prop where
  errors : s.errors.length < s'.errors.length
  lands : ∃ skipped last, s.tokens = skipped ++ last :: s'.tokens ∧
    (s'.tokens = [] ∨ last.kind = .semicolon ∨ ∃ t ∈ s'.tokens.head?, t.kind.startsStatement)

/-- Where reading was given up, errors are on record, and what is left of the statement is skipped. -/
theorem resumed_synchronize {s s' : ParserState} (h : Later s s') (herrors : s.errors.length < s'.errors.length)
    (hmore : s.tokens ≠ []) : Resumed s (synchronize s') := by
  obtain ⟨taken, htaken⟩ := h.tokens
  obtain ⟨tokens, endLine, loopDepth, nextId, errors⟩ := s'
  refine ⟨Nat.lt_of_lt_of_le herrors (later_synchronize _).errors_le, ?_⟩
  cases tokens with
  | nil =>
    -- There is no token left to skip: all of them have been taken before.
    rw [List.append_nil] at htaken
    refine ⟨taken.dropLast, taken.getLast (htaken ▸ hmore), ?_, .inl rfl⟩
    exact htaken.symm.trans (List.dropLast_append_getLast _).symm
  | cons t rest =>
    obtain ⟨skipped, last, hskipped, hlands⟩ := resume_lands t rest
    refine ⟨taken ++ skipped, last, ?_, hlands⟩
    rw [← htaken, List.append_assoc]
    exact congrArg (taken ++ ·) hskipped

/-- A declaration takes at least one token, if there is one, and it is read or skipped. -/
theorem declaration_progress {r : Rules} {n : Nat} {s : ParserState} (hr : r.Sound n) (hn : s.tokens.length ≤ n)
    (hmore : s.tokens ≠ []) :
    ∃ o s', orSkip (item r) s = .ok o s' ∧ Later s s' ∧ Shorter s o s' ∧ (o = none → Resumed s s') := by
  have hitem := item_shorter hr hn
  unfold orSkip
  cases h : item r s with
  | ok statement s' =>
    rw [h] at hitem
    exact ⟨some statement, s', rfl, hitem.1, hitem.2, nofun⟩
  | error e s' =>
    rw [h] at hitem
    obtain ⟨hlater, rfl, herrors⟩ := hitem
    have hresumed := resumed_synchronize hlater herrors hmore
    obtain ⟨skipped, last, hskipped, -⟩ := hresumed.lands
    refine ⟨none, synchronize s', rfl, hlater.trans (later_synchronize s'), ?_, fun _ => hresumed⟩
    rw [Shorter, hskipped]
    simp only [List.length_append, List.length_cons]
    omega

/-! ## Programs -/

namespace Parse

/-- The state before the first token. -/
def start (firstId : NodeId) (tokens : List Token) : ParserState :=
  ⟨(delimited tokens).1, (delimited tokens).2, 0, firstId, []⟩

theorem ofTokens_of_ok {firstId : NodeId} {tokens : List Token} {statements : List Stmt} {s : ParserState}
    (h : program (rules ((delimited tokens).1.length + 1)) (delimited tokens).1.length (start firstId tokens) =
      .ok statements s) : ofTokens firstId tokens = ⟨statements, s.errors, s.nextId⟩ := by
  rw [start] at h
  unfold ofTokens
  dsimp only
  rw [h]

end Parse

/-- The rules for so many levels read or skip a declaration in fewer tokens. -/
theorem rules_declaration {levels : Nat} {s : ParserState} (hlevels : s.tokens.length < levels) (hmore : s.tokens ≠ []) :
    ∃ o s', (rules levels).declaration s = .ok o s' ∧ Later s s' ∧ Shorter s o s' ∧ (o = none → Resumed s s') := by
  obtain ⟨inner, rfl⟩ : ∃ inner, levels = inner + 1 := ⟨levels - 1, by omega⟩
  exact declaration_progress (sound_rules inner) (Nat.le_of_lt_succ hlevels) hmore

theorem rules_declaration_shorter {levels : Nat} {s : ParserState} (hlevels : s.tokens.length < levels)
    (hmore : s.tokens ≠ []) : Ends s (Shorter s) ((rules levels).declaration s) := by
  obtain ⟨o, s', hread, hlater, hshorter, -⟩ := rules_declaration hlevels hmore
  rw [hread]
  exact ⟨hlater, hshorter⟩

/-- A program is read to the last token. -/
theorem program_finishes (levels rounds : Nat) {s : ParserState} (hlevels : s.tokens.length < levels)
    (hrounds : s.tokens.length ≤ rounds) :
    ∃ statements s', program (rules levels) rounds s = .ok statements s' ∧ Later s s' ∧ s'.tokens = [] := by
  have hloop := collecting_program (rules levels)
  induction rounds generalizing s with
  | zero =>
    have hnil := List.length_eq_zero_iff.1 (Nat.le_zero.1 hrounds)
    exact ⟨[], s, hloop.stop 0 s hnil, .refl s, hnil⟩
  | succ rounds ih =>
    by_cases hnil : s.tokens = []
    · exact ⟨[], s, hloop.stop _ s hnil, .refl s, hnil⟩
    · obtain ⟨o, s₁, hread, hlater, hshorter, -⟩ := rules_declaration hlevels hnil
      obtain ⟨statements, s₂, hrest, hlater', hend⟩ := ih (s := s₁) (by omega) (by omega)
      exact ⟨o.toList ++ statements, s₂, hloop.round hnil hread hrest, hlater.trans hlater', hend⟩

/-- More levels, more rounds and other errors before make no difference to the reading of a program. -/
theorem program_agrees (levels : Nat) (es : List SyntaxError) {levels' rounds rounds' : Nat} {s : ParserState}
    (hlevels : s.tokens.length < levels) (hlevels' : levels ≤ levels') (hrounds : s.tokens.length ≤ rounds)
    (hrounds' : s.tokens.length ≤ rounds') :
    program (rules levels') rounds' (s.behind es) = outcomeBehind es (program (rules levels) rounds s) := by
  obtain ⟨statements, s', hread, -, -⟩ := program_finishes levels rounds' hlevels hrounds'
  have hsame : program (rules levels) rounds s = program (rules levels) rounds' s :=
    (collecting_program (rules levels)).rounds
      (fun s hmore hs => rules_declaration_shorter (Nat.lt_of_le_of_lt hs hlevels) hmore) (Nat.le_refl _) hrounds hrounds'
  rcases program_deepens (rules_deepen hlevels') rounds' s with ⟨s'', hdeep⟩ | hagrees
  · rw [hread] at hdeep
    cases hdeep
  · rw [hagrees es, hsame]

end TreeWalk
