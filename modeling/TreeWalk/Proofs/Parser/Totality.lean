import Mathlib.Data.List.TakeWhile
import TreeWalk.Proofs.Parser.Progress

/-!
# The parser is total

Seen from the whole token list, a state of the parser stands at an index. Every function of the parser,
called anywhere, ends at an index of the list that is not below the one where it began. Every declaration
ends further on, so the whole list is read, whatever its tokens are.
-/

namespace TreeWalk

open TreeWalk.Parser TreeWalk.Grammar

/-! ## The index of a state -/

namespace Parse

/-- The token list that is gone through. One that does not end with the token that closes the input gets it, on the
line of its last token. -/
def closed (tokens : List Token) : List Token :=
  if tokens.getLast?.any (·.kind == .endOfInput) then tokens
  else tokens ++ [.endOfInput ((tokens.getLast?.map (·.line)).getD 1)]

end Parse

/-- The state stands at the index of the list: from there on come the tokens to be read and one that closes the
input. -/
structure ParserState.At (tokens : List Token) (index : Nat) (s : ParserState) : Prop where
  valid : index < tokens.length
  unread : ∃ ending rest, tokens.drop index = s.tokens ++ ending :: rest ∧ ending.kind = .endOfInput ∧
    ending.line = s.endLine
  inside : ∀ t ∈ s.tokens, t.kind ≠ .endOfInput

namespace ParserState.At

variable {tokens : List Token} {index : Nat} {s s' : ParserState}

/-- The token at the index is the next one, or closes the input. -/
theorem current (h : s.At tokens index) :
    ∃ t, tokens[index]? = some t ∧ (t ∈ s.tokens.head? ∨ s.tokens = [] ∧ t.kind = .endOfInput ∧ t.line = s.endLine) := by
  obtain ⟨ending, rest, hdrop, hkind, hline⟩ := h.unread
  have hhead : tokens[index]? = (s.tokens ++ ending :: rest).head? := by rw [← hdrop, List.head?_drop]
  rcases htokens : s.tokens with _ | ⟨t, ts⟩
  · rw [htokens] at hhead
    exact ⟨ending, hhead, .inr ⟨rfl, hkind, hline⟩⟩
  · rw [htokens] at hhead
    exact ⟨t, hhead, .inl rfl⟩

/-- There is a token to be read where the input is not closed. -/
theorem more (h : s.At tokens index) (hopen : ∀ t ∈ tokens[index]?, t.kind ≠ .endOfInput) : s.tokens ≠ [] := by
  obtain ⟨t, ht, hnext | ⟨-, hkind, -⟩⟩ := h.current
  · exact fun hnil => by simp [hnil] at hnext
  · exact absurd hkind (hopen t ht)

/-- A later state stands further on by as many tokens as have been taken. -/
theorem later (h : s.At tokens index) (hlater : Later s s') :
    ∃ index', index' + s'.tokens.length = index + s.tokens.length ∧ s'.At tokens index' := by
  obtain ⟨ending, rest, hdrop, hkind, hline⟩ := h.unread
  obtain ⟨taken, htaken⟩ := hlater.tokens
  have hrest : tokens.drop (index + taken.length) = s'.tokens ++ ending :: rest := by
    rw [← List.drop_drop, hdrop, ← htaken, List.append_assoc, List.drop_left]
  refine ⟨index + taken.length, ?_, ?_, ?_, ?_⟩
  · rw [← htaken, List.length_append]
    omega
  · have hlength := congrArg List.length hrest
    simp only [List.length_drop, List.length_append, List.length_cons] at hlength
    omega
  · exact ⟨ending, rest, hrest, hkind, hline.trans hlater.endLine.symm⟩
  · exact fun t ht => h.inside t (hlater.tokens.subset ht)

end ParserState.At

theorem Parse.start_at (firstId : NodeId) (tokens : List Token) : (start firstId tokens).At (closed tokens) 0 := by
  have hsplit : tokens = (delimited tokens).1 ++ tokens.dropWhile (fun t => !(t.kind == .endOfInput)) :=
    (List.takeWhile_append_dropWhile).symm
  have hinside : ∀ t ∈ (delimited tokens).1, t.kind ≠ .endOfInput := by
    intro t ht
    simpa using List.mem_takeWhile_imp ht
  have hfind : tokens.find? (fun t => t.kind == .endOfInput) =
      (tokens.dropWhile (fun t => !(t.kind == .endOfInput))).head? :=
    List.find?_eq_head?_dropWhile_not _ _
  have hunread : ∃ ending rest, closed tokens = (delimited tokens).1 ++ ending :: rest ∧ ending.kind = .endOfInput ∧
      ending.line = (delimited tokens).2 := by
    cases hrest : tokens.dropWhile (fun t => !(t.kind == .endOfInput)) with
    | nil =>
      -- No token closes the input, so one is put behind the last.
      rw [hrest, List.append_nil] at hsplit
      rw [hrest] at hfind
      have hopen : ¬ tokens.getLast?.any (·.kind == .endOfInput) = true := by
        cases hlast : tokens.getLast? with
        | none => simp
        | some t => simpa using List.find?_eq_none.1 hfind t (List.mem_of_getLast? hlast)
      refine ⟨_, [], by rw [closed, if_neg hopen, ← hsplit], rfl, ?_⟩
      simp only [delimited, hfind]
      rfl
    | cons ending rest =>
      rw [hrest] at hsplit hfind
      have hkind : ending.kind = .endOfInput := by simpa using List.find?_some hfind
      have hline : ending.line = (delimited tokens).2 := by simp only [delimited, hfind, List.head?_cons]
      unfold closed
      split
      · exact ⟨ending, rest, hsplit, hkind, hline⟩
      · refine ⟨ending, rest ++ [.endOfInput ((tokens.getLast?.map (·.line)).getD 1)], ?_, hkind, hline⟩
        rw [← List.cons_append, ← List.append_assoc, ← hsplit]
  refine ⟨?_, hunread, hinside⟩
  obtain ⟨ending, rest, hclosed, -, -⟩ := hunread
  rw [hclosed, List.length_append, List.length_cons]
  omega

/-! ## The functions of the parser -/

/-- The functions of which the parser consists, but for its loops. -/
inductive Routine (r : Rules) : {α : Type} → Parser α → Prop
  | current : Routine r current
  | remaining : Routine r remaining
  | atEnd : Routine r atEnd
  | sees (kind : TokenKind) : Routine r (sees kind)
  | seesFunctionDeclaration : Routine r seesFunctionDeclaration
  | advance : Routine r advance
  | acceptWhere {α : Type} (choose : Token → Option α) : Routine r (acceptWhere choose)
  | accept (kind : TokenKind) : Routine r (accept kind)
  | report (token : Token) (cause : SyntaxCause) : Routine r (report token cause)
  | fail {α : Type} (token : Token) (cause : SyntaxCause) : Routine r (fail token cause : Parser α)
  | expect (kind : TokenKind) (what : String) : Routine r (expect kind what)
  | expectName (what : String) : Routine r (expectName what)
  | fresh : Routine r fresh
  | reference (name : Name) : Routine r (reference name)
  | insideLoop : Routine r insideLoop
  | parameters : Routine r (commaList (Parser.expectName "parameter name") (some .tooManyParameters) .rightParen)
  | arguments : Routine r (commaList r.expression (some .tooManyArguments) .rightParen)
  | elements : Routine r (commaList r.expression none .rightBracket)
  | block : Routine r (block r)
  | functionBody : Routine r (atLoopDepth (fun _ => 0) (Grammar.block r))
  | function : Routine r (function r)
  | primary : Routine r (primary r)
  | suffix (target : Expr) (t : Token) : Routine r (suffix r target t)
  | call : Routine r (call r)
  | unary : Routine r (unary r)
  | factor : Routine r (factor r)
  | term : Routine r (term r)
  | comparison : Routine r (comparison r)
  | equality : Routine r (equality r)
  | conjunction : Routine r (conjunction r)
  | disjunction : Routine r (disjunction r)
  | conditional : Routine r (conditional r)
  | assignTo (target : Expr) (equal : Token) (value : Expr) : Routine r (assignTo target equal value)
  | expression : Routine r (expression r)
  | varDeclaration : Routine r (varDeclaration r)
  | functionDeclaration : Routine r (functionDeclaration r)
  | parentClause : Routine r parentClause
  | classDeclaration : Routine r (classDeclaration r)
  | expressionStatement : Routine r (expressionStatement r)
  | forInitializer : Routine r (forInitializer r)
  | unlessClosed (closing : TokenKind) : Routine r (unlessClosed r closing)
  | loopBody : Routine r (atLoopDepth (· + 1) r.statement)
  | forStatement : Routine r (forStatement r)
  | ifStatement : Routine r (ifStatement r)
  | whileStatement : Routine r (whileStatement r)
  | loopControl (keyword : Token) (word : String) : Routine r (loopControl keyword word)
  | statement : Routine r (statement r)
  | item : Routine r (item r)
  | declaration : Routine r (orSkip (Grammar.item r))

/-- The loops of the parser, as functions of the number of rounds that they are allowed. -/
inductive Loop (r : Rules) : {α : Type} → (Nat → Parser α) → Prop
  | program : Loop r (program r)
  | block : Loop r (declarations r.declaration)
  | methods : Loop r (methods r)
  | suffixes (target : Expr) : Loop r (fun rounds => suffixes r rounds target)
  | factor (left : Expr) : Loop r (fun rounds => leftGrouped factorKind .binary (unary r) rounds left)
  | term (left : Expr) : Loop r (fun rounds => leftGrouped termKind .binary (Grammar.factor r) rounds left)
  | comparison (left : Expr) : Loop r (fun rounds => leftGrouped comparisonKind .binary (Grammar.term r) rounds left)
  | equality (left : Expr) : Loop r (fun rounds => leftGrouped equalityKind .binary (Grammar.comparison r) rounds left)
  | conjunction (left : Expr) : Loop r (fun rounds => leftGrouped andKind .logical (Grammar.equality r) rounds left)
  | disjunction (left : Expr) : Loop r (fun rounds => leftGrouped orKind .logical (Grammar.conjunction r) rounds left)
  | parameters (count : Nat) : Loop r (fun rounds =>
    commaItems (expectName "parameter name") (some .tooManyParameters) (rounds + 1) count)
  | arguments (count : Nat) : Loop r (fun rounds =>
    commaItems r.expression (some .tooManyArguments) (rounds + 1) count)
  | elements (count : Nat) : Loop r (fun rounds => commaItems r.expression none (rounds + 1) count)

section Rules

variable {α : Type} {r : Rules} {n : Nat} {s : ParserState}

theorem Routine.ends {p : Parser α} (h : Routine r p) (hr : r.Sound n) (hn : s.tokens.length < n) :
    Ends s Anyhow (p s) := by
  have hle := Nat.le_of_lt hn
  have hexpression {s' : ParserState} (h : s'.tokens.length ≤ s.tokens.length) :=
    hr.expression s' (Nat.lt_of_le_of_lt h hn)
  cases h with
  | current | remaining | atEnd | sees | insideLoop => exact ⟨.refl s, trivial⟩
  | seesFunctionDeclaration =>
    obtain ⟨sees, hsees, -⟩ := seesFunctionDeclaration_eq s
    rw [hsees]
    exact ⟨.refl s, trivial⟩
  | advance => exact ⟨⟨List.tail_suffix _, rfl, rfl, List.prefix_refl _, Nat.le_refl _⟩, trivial⟩
  | acceptWhere choose => exact acceptWhere_anyhow choose s
  | accept kind => exact acceptWhere_anyhow _ s
  | report token cause => exact report_anyhow token cause s
  | fail token cause => exact Ends.fail token cause
  | expect kind what => exact (expect_ends kind what s).anyhow
  | expectName what => exact (expectName_ends what s).anyhow
  | fresh => exact (fresh_ends s).anyhow
  | reference name => exact (reference_ends name s).anyhow
  | parameters => exact (commaList_ends (fun s _ => declaredName_ends _ s) _ _ hle).anyhow
  | arguments => exact (commaList_ends (fun s => hexpression) _ _ (Nat.le_refl _)).anyhow
  | elements => exact (commaList_ends (fun s => hexpression) _ _ (Nat.le_refl _)).anyhow
  | block => exact (block_ends hr hn).anyhow
  | functionBody => exact (atLoopDepth_ends (block_ends (s := { s with loopDepth := 0 }) hr hn)).anyhow
  | function => exact (function_ends hr .function hle).anyhow
  | primary => exact (primary_shorter hr hle).anyhow
  | suffix target t => exact suffix_anyhow hr target t hn
  | call => exact (call_shorter hr hle).anyhow
  | unary => exact (unary_shorter hr hle).anyhow
  | factor => exact (factor_ends hr hle).anyhow
  | term => exact (term_ends hr hle).anyhow
  | comparison => exact (comparison_ends hr hle).anyhow
  | equality => exact (equality_ends hr hle).anyhow
  | conjunction => exact (conjunction_ends hr hle).anyhow
  | disjunction => exact (disjunction_ends hr hle).anyhow
  | conditional => exact (conditional_ends hr hle).anyhow
  | assignTo target equal value => exact assignTo_anyhow target equal value
  | expression => exact (expression_ends hr hle).anyhow
  | varDeclaration => exact (varDeclaration_ends hr hn).anyhow
  | functionDeclaration => exact (functionDeclaration_ends hr hn).anyhow
  | parentClause => exact (parentClause_ends s).anyhow
  | classDeclaration => exact (classDeclaration_ends hr hn).anyhow
  | expressionStatement => exact (expressionStatement_ends hr hle).anyhow
  | forInitializer => exact (forInitializer_ends hr hn).anyhow
  | unlessClosed closing => exact (unlessClosed_ends hr closing hn).anyhow
  | loopBody => exact (loopBody_ends hr hn).anyhow
  | forStatement => exact (forStatement_ends hr hn).anyhow
  | ifStatement => exact (ifStatement_ends hr hn).anyhow
  | whileStatement => exact (whileStatement_ends hr hn).anyhow
  | loopControl keyword word => exact loopControl_anyhow keyword word
  | statement => exact (statement_ends hr hle).anyhow
  | item => exact (item_ends hr hle).anyhow
  | declaration => exact (declaration_ends hr hle).anyhow

/-- So many rounds are enough for the loop: it gets on, and more rounds would make no difference. -/
structure Suffices (loop : Nat → Parser α) (rounds : Nat) (s : ParserState) : Prop where
  ends : Ends s Anyhow (loop rounds s)
  more : ∀ more, rounds ≤ more → loop more s = loop rounds s

theorem Extending.suffices {κ : Type} {loop : Nat → Expr → Parser Expr} {choose : Token → Option κ}
    {step : Expr → κ → Parser Expr} (h : Extending loop choose step)
    (hstep : ∀ left k s, s.tokens.length < n → Ends s Anyhow (step left k s)) (left : Expr)
    (hn : s.tokens.length ≤ n) {rounds : Nat} (hrounds : s.tokens.length ≤ rounds) :
    Suffices (fun rounds => loop rounds left) rounds s where
  ends := h.anyhow hstep rounds left hn
  more _ hmore := h.rounds hstep left hn (Nat.le_trans hrounds hmore) hrounds

theorem leftGrouped_suffices {κ : Type} (operator : TokenKind → Option κ) (build : Expr → Operator κ → Expr → Expr)
    {operand : Parser Expr} (hoperand : ∀ s, s.tokens.length ≤ n → Ends s Anyhow (operand s)) (left : Expr)
    (hn : s.tokens.length ≤ n) {rounds : Nat} (hrounds : s.tokens.length ≤ rounds) :
    Suffices (fun rounds => leftGrouped operator build operand rounds left) rounds s := by
  apply (extending_leftGrouped operator build operand).suffices _ left hn hrounds
  intro left op s hs
  exact (hoperand s (Nat.le_of_lt hs)).bind fun _ _ _ _ => .pure trivial

theorem commaItems_suffices {item : Parser α} {φ : Phrase} {nodes : α → List Node}
    (hitem : ∀ s, s.tokens.length ≤ n → Ends s (fun a s' => Yields φ (nodes a) s s') (item s))
    (tooMany : Option SyntaxCause) (count : Nat) (hn : s.tokens.length ≤ n) {rounds : Nat}
    (hrounds : s.tokens.length ≤ rounds) :
    Suffices (fun rounds => commaItems item tooMany (rounds + 1) count) rounds s where
  ends := by
    have hroom : ∀ m ∈ (none : Option Nat), tooMany.isSome ∧ count + m = maxItems := nofun
    exact (commaItems_ends hitem (Nat.lt_succ_of_le hrounds) hn hroom).anyhow
  more more hmore := commaItems_rounds (fun s hs => (hitem s hs).anyhow) tooMany count hn (by omega) (by omega)

/-- The loops need no more rounds than there are tokens left. -/
theorem Loop.suffices {levels : Nat} {loop : Nat → Parser α} (h : Loop (rules levels) loop)
    (hlevels : s.tokens.length < levels) {rounds : Nat} (hrounds : s.tokens.length ≤ rounds) :
    Suffices loop rounds s := by
  have hr := sound_rules levels
  have hle := Nat.le_of_lt hlevels
  have hdeclaration (s' : ParserState) (hmore : s'.tokens ≠ []) (h : s'.tokens.length ≤ s.tokens.length) :=
    rules_declaration_shorter (Nat.lt_of_le_of_lt h hlevels) hmore
  have hexpression (s' : ParserState) (h : s'.tokens.length ≤ s.tokens.length) :=
    hr.expression s' (Nat.lt_of_le_of_lt h hlevels)
  have hnil {s' : ParserState} (h : ¬ EndsBody s'.tokens) : s'.tokens ≠ [] := fun hnil => h (by rw [hnil]; rfl)
  cases h with
  | program =>
    refine ⟨(program_ends hr rounds hlevels).anyhow, fun _ hmore => ?_⟩
    exact (collecting_program _).rounds hdeclaration (Nat.le_refl _) (Nat.le_trans hrounds hmore) hrounds
  | block =>
    refine ⟨(declarations_ends hr rounds hlevels).anyhow, fun more hmore => ?_⟩
    exact (collecting_declarations _).rounds (fun s' h => hdeclaration s' (hnil h)) (Nat.le_refl _)
      (Nat.le_trans hrounds hmore) hrounds
  | methods =>
    refine ⟨(methods_ends hr rounds hlevels).anyhow, fun more hmore => ?_⟩
    apply (collecting_methods _).rounds _ (Nat.le_refl _) (Nat.le_trans hrounds hmore) hrounds
    intro s' _ hs'
    apply (expectName_shorter _ s').shorter_bind
    intro name s'' hshorter
    exact (function_ends hr .function (by omega)).bind fun _ _ _ _ => .pure trivial
  | suffixes target => exact (extending_suffixes _).suffices (fun target t _ => suffix_anyhow hr target t) target hle hrounds
  | factor left => exact leftGrouped_suffices _ _ (fun _ hs => (unary_ends hr hs).anyhow) left hle hrounds
  | term left => exact leftGrouped_suffices _ _ (fun _ hs => (factor_ends hr hs).anyhow) left hle hrounds
  | comparison left => exact leftGrouped_suffices _ _ (fun _ hs => (term_ends hr hs).anyhow) left hle hrounds
  | equality left => exact leftGrouped_suffices _ _ (fun _ hs => (comparison_ends hr hs).anyhow) left hle hrounds
  | conjunction left => exact leftGrouped_suffices _ _ (fun _ hs => (equality_ends hr hs).anyhow) left hle hrounds
  | disjunction left => exact leftGrouped_suffices _ _ (fun _ hs => (conjunction_ends hr hs).anyhow) left hle hrounds
  | parameters count =>
    exact commaItems_suffices (fun s _ => declaredName_ends _ s) _ count (Nat.le_refl _) hrounds
  | arguments count => exact commaItems_suffices hexpression _ count (Nat.le_refl _) hrounds
  | elements count => exact commaItems_suffices hexpression _ count (Nat.le_refl _) hrounds

end Rules

/-! ## The whole list -/

/-- What began at the index ends at one that is not below it, with the same number of loops around it. When it gives
up, an error has been added. -/
def Advances {α : Type} (tokens : List Token) (index : Nat) (s : ParserState) :
    EStateM.Result GivenUp ParserState α → Prop
  | .ok _ s' => (∃ index' ≥ index, s'.At tokens index') ∧ s'.loopDepth = s.loopDepth
  | .error e s' => (∃ index' ≥ index, s'.At tokens index') ∧ s'.loopDepth = s.loopDepth ∧ e = .reported ∧
    s.errors.length < s'.errors.length

theorem Ends.advances {α : Type} {tokens : List Token} {index : Nat} {s : ParserState} {post : α → ParserState → Prop}
    {result : EStateM.Result GivenUp ParserState α} (h : Ends s post result) (hs : s.At tokens index) :
    Advances tokens index s result := by
  have hlater {s' : ParserState} (h : Later s s') : ∃ index' ≥ index, s'.At tokens index' := by
    obtain ⟨index', hsum, hat⟩ := hs.later h
    have := h.length_le
    exact ⟨index', by omega, hat⟩
  cases result with
  | ok a s' => exact ⟨hlater h.1, h.1.loopDepth⟩
  | error e s' => exact ⟨hlater h.1, h.1.loopDepth, h.2⟩

/-- Reading goes on at the index after it was given up: at the end of the input, behind a semicolon or in front of
what starts a statement. -/
def Boundary (tokens : List Token) (index : Nat) : Prop :=
  (∃ t, tokens[index]? = some t ∧ t.kind = .endOfInput) ∨ (∃ t, tokens[index - 1]? = some t ∧ t.kind = .semicolon) ∨
    ∃ t, tokens[index]? = some t ∧ t.kind.startsStatement

theorem Resumed.boundary {tokens : List Token} {index index' : Nat} {s s' : ParserState} (h : Resumed s s')
    (hs : s.At tokens index) (hs' : s'.At tokens index') (hsum : index' + s'.tokens.length = index + s.tokens.length) :
    Boundary tokens index' := by
  obtain ⟨skipped, last, hskipped, hend | hsemicolon | ⟨t, ht, hstarts⟩⟩ := h.lands
  · left
    obtain ⟨t, hcurrent, hnext | ⟨-, hkind, -⟩⟩ := hs'.current
    · simp [hend] at hnext
    · exact ⟨t, hcurrent, hkind⟩
  · right; left
    obtain ⟨ending, rest, hdrop, -, -⟩ := hs.unread
    refine ⟨last, ?_, hsemicolon⟩
    have hlast : (tokens.drop index)[skipped.length]? = some last := by
      rw [hdrop, hskipped, List.append_assoc, List.getElem?_append_right (Nat.le_refl _), Nat.sub_self]
      rfl
    rw [hskipped, List.length_append, List.length_cons] at hsum
    rw [List.getElem?_drop] at hlast
    have hindex : index' - 1 = index + skipped.length := by omega
    rw [hindex]
    exact hlast
  · right; right
    obtain ⟨u, hcurrent, hnext | ⟨hnil, -, -⟩⟩ := hs'.current
    · exact ⟨u, hcurrent, Option.mem_unique ht hnext ▸ hstarts⟩
    · simp [hnil] at ht

namespace Parse

/-- What is known of the reading of a token list. -/
structure Total (firstId : NodeId) (tokens : List Token) : Prop where
  /-- Reading begins at the first index. -/
  start : (start firstId tokens).At (closed tokens) 0
  /-- Every function, called at an index of the list, ends at one that is not below it. -/
  routine : ∀ (levels index : Nat) (s : ParserState), s.At (closed tokens) index → s.tokens.length < levels →
    ∀ {α : Type} (p : Parser α), Routine (Grammar.rules levels) p → Advances (closed tokens) index s (p s)
  /-- Every loop does so too, and as many rounds as there are tokens left are enough for it. -/
  loop : ∀ (levels rounds index : Nat) (s : ParserState), s.At (closed tokens) index → s.tokens.length < levels →
    s.tokens.length ≤ rounds → ∀ {α : Type} (loop : Nat → Parser α), Loop (Grammar.rules levels) loop →
      Advances (closed tokens) index s (loop rounds s) ∧ ∀ more ≥ rounds, loop more s = loop rounds s
  /-- The token with which no expression begins is given back, so that the index is the one before. -/
  givenBack : ∀ (r : Rules) (index : Nat) (s : ParserState), s.At (closed tokens) index →
    (∀ t ∈ (closed tokens)[index]?, t.kind ∉ callStarts ∧ Grammar.lacksLeftOperand t.kind = false) →
      ∃ s' token, Grammar.primary r s = .error .reported s' ∧ s'.At (closed tokens) index ∧
        s'.errors = s.errors ++ [⟨token, .expectedExpression⟩]
  /-- A declaration that begins before the end of input ends further on, with the same number of loops around it.
  When it gives no statement, an error has been added, and reading goes on where a statement may begin. -/
  declaration : ∀ (levels index : Nat) (s : ParserState), s.At (closed tokens) index → s.tokens.length < levels →
    (∀ t ∈ (closed tokens)[index]?, t.kind ≠ .endOfInput) →
      ∃ o s' index', (Grammar.rules levels).declaration s = .ok o s' ∧ index < index' ∧ s'.At (closed tokens) index' ∧
        s'.loopDepth = s.loopDepth ∧ (o = none → s.errors.length < s'.errors.length ∧ Boundary (closed tokens) index')
  /-- The list is read to its end, and no levels or rounds are missing. -/
  finishes : ∃ statements s index, s.At (closed tokens) index ∧
    (∃ t, (closed tokens)[index]? = some t ∧ t.kind = .endOfInput) ∧
    (∀ levels rounds, (delimited tokens).1.length < levels → (delimited tokens).1.length ≤ rounds →
      Grammar.program (Grammar.rules levels) rounds (Parse.start firstId tokens) = .ok statements s) ∧
    ofTokens firstId tokens = ⟨statements, s.errors, s.nextId⟩

/-- Where no expression begins, nothing is taken. -/
theorem primary_givesBack (r : Rules) {s : ParserState} {t : Token}
    (ht : s.tokens.head?.getD (.endOfInput s.endLine) = t) (hstart : t.kind ∉ callStarts)
    (hoperand : lacksLeftOperand t.kind = false) :
    primary r s = .error .reported { s with errors := s.errors ++ [⟨t, .expectedExpression⟩] } := by
  rw [primary, bind_current, ht]
  cases hkind : t.kind with
  | falseKeyword | trueKeyword | nilKeyword | number | string | thisKeyword | parentKeyword | identifier | leftParen
  | funKeyword | leftBracket => simp [hkind, callStarts, atoms] at hstart
  | bangEqual | equalEqual | greater | greaterEqual | less | lessEqual | plus | star | slash =>
    simp [hkind, lacksLeftOperand] at hoperand
  | _ => rfl

/-- The parser reads every token list to its end, and makes progress on the way. -/
theorem reads_every_list (firstId : NodeId) (tokens : List Token) : Total firstId tokens where
  start := start_at firstId tokens
  routine levels index s hat hlevels _ p hp := (hp.ends (sound_rules levels) hlevels).advances hat
  loop levels rounds index s hat hlevels hrounds _ loop hloop := by
    have hsuffices := hloop.suffices hlevels hrounds
    exact ⟨hsuffices.ends.advances hat, hsuffices.more⟩
  givenBack r index s hat hstart := by
    obtain ⟨t, hcurrent, hnext⟩ := hat.current
    obtain ⟨hstarts, hoperand⟩ := hstart t hcurrent
    have hkind : (s.tokens.head?.getD (.endOfInput s.endLine)).kind = t.kind := by
      rcases hnext with hnext | ⟨hnil, hkind, -⟩
      · rw [Option.mem_def.1 hnext]
        rfl
      · rw [hnil, hkind]
        rfl
    refine ⟨_, _, primary_givesBack r rfl (hkind ▸ hstarts) (hkind ▸ hoperand), ?_, rfl⟩
    exact ⟨hat.valid, hat.unread, hat.inside⟩
  declaration levels index s hat hlevels hopen := by
    obtain ⟨o, s', hread, hlater, hshorter, hresumed⟩ := rules_declaration hlevels (hat.more hopen)
    obtain ⟨index', hsum, hat'⟩ := hat.later hlater
    refine ⟨o, s', index', hread, by omega, hat', hlater.loopDepth, fun hnone => ?_⟩
    have h := hresumed hnone
    exact ⟨h.errors, h.boundary hat hat' hsum⟩
  finishes := by
    have hstart := start_at firstId tokens
    let length := (delimited tokens).1.length
    obtain ⟨statements, s, hread, hlater, hend⟩ :=
      program_finishes (length + 1) length (s := start firstId tokens) (Nat.lt_succ_self _) (Nat.le_refl _)
    obtain ⟨index, -, hat⟩ := hstart.later hlater
    refine ⟨statements, s, index, hat, ?_, fun levels rounds hlevels hrounds => ?_, ?_⟩
    · obtain ⟨t, hcurrent, hnext | ⟨-, hkind, -⟩⟩ := hat.current
      · simp [hend] at hnext
      · exact ⟨t, hcurrent, hkind⟩
    · have hagrees := program_agrees (length + 1) [] (s := start firstId tokens) (Nat.lt_succ_self _)
        hlevels (Nat.le_refl length) hrounds
      rw [hread] at hagrees
      exact hagrees
    · exact ofTokens_of_ok hread

end Parse

end TreeWalk
