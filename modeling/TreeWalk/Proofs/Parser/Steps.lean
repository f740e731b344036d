import TreeWalk.Proofs.Parser.Levels
import TreeWalk.Proofs.Parser.Loops
import TreeWalk.Proofs.Parser.Outcome

/-!
# Single tokens and lists

What the parsers yield from which the rules of the grammar are put together.
-/

namespace TreeWalk

open TreeWalk.Parser

section Steps

variable {α β : Type} {s s' : ParserState} {post : β → ParserState → Prop} {f : α → Parser β}

/-! ## Single tokens -/

theorem acceptWhere_takes {choose : Token → Option α} {t : Token} {rest : List Token} {a : α}
    (htokens : s.tokens = t :: rest) (hchoose : choose t = some a) :
    acceptWhere choose s = .ok (some a) { s with tokens := rest } := by
  simp [acceptWhere, htokens, hchoose]

theorem acceptWhere_skips {choose : Token → Option α} (h : ∀ t ∈ s.tokens.head?, choose t = none) :
    acceptWhere choose s = .ok none s := by
  unfold acceptWhere
  rcases htokens : s.tokens with _ | ⟨t, rest⟩
  · rfl
  · have ht : choose t = none := h t (by simp [htokens])
    simp [ht]

theorem later_next {t : Token} {rest : List Token} (h : s.tokens = t :: rest) :
    Later s { s with tokens := rest } :=
  ⟨h ▸ List.suffix_cons t rest, rfl, rfl, List.prefix_refl _, Nat.le_refl _⟩

theorem Yields.token {kind : TokenKind} {t : Token} {rest : List Token} (h : s.tokens = t :: rest)
    (hkind : t.kind = kind) : Yields (.token kind) [] s { s with tokens := rest } :=
  .ofLater (later_next h) fun _ => spans_token.2 ⟨t, hkind, h⟩

theorem Yields.oneOf {kinds : List TokenKind} {t : Token} {rest : List Token} (h : s.tokens = t :: rest)
    (hkind : t.kind ∈ kinds) : Yields (.oneOf kinds) [] s { s with tokens := rest } :=
  .ofLater (later_next h) fun _ => spans_oneOf.2 ⟨t, hkind, h⟩

theorem Ends.behind {result : EStateM.Result GivenUp ParserState β} (h : Later s s')
    (hends : Ends s' post result) : Ends s post result := by
  cases result with
  | ok b s'' => exact ⟨h.trans hends.1, hends.2⟩
  | error e s'' => exact ⟨h.trans hends.1, hends.2.1, Nat.lt_of_le_of_lt h.errors_le hends.2.2⟩

theorem ends_advance {f : Unit → Parser β} {t : Token} {rest : List Token} (h : s.tokens = t :: rest)
    (hf : Ends { s with tokens := rest } post (f () { s with tokens := rest })) :
    Ends s post ((advance >>= f) s) := by
  show Ends s post (f () { s with tokens := s.tokens.tail })
  rw [h]
  exact hf.behind (later_next h)

theorem bind_current (f : Token → Parser β) (s : ParserState) :
    (current >>= f) s = f (s.tokens.head?.getD (.endOfInput s.endLine)) s := rfl

theorem ends_acceptWhere {choose : Token → Option α} {f : Option α → Parser β}
    (hnone : (∀ t ∈ s.tokens.head?, choose t = none) → Ends s post (f none s))
    (hsome : ∀ t rest a, s.tokens = t :: rest → choose t = some a →
      Ends { s with tokens := rest } post (f (some a) { s with tokens := rest })) :
    Ends s post ((acceptWhere choose >>= f) s) := by
  rw [bind_eq_match, acceptWhere]
  rcases htokens : s.tokens with _ | ⟨t, rest⟩
  · exact hnone (by simp [htokens])
  · cases hchoose : choose t with
    | none => simpa only [htokens, hchoose] using hnone (by simp [htokens, hchoose])
    | some a =>
      simpa only [htokens, hchoose] using (hsome t rest a htokens hchoose).behind (later_next htokens)

theorem ends_accept {kind : TokenKind} {f : Option Token → Parser β}
    (hnone : (∀ t ∈ s.tokens.head?, t.kind ≠ kind) → Ends s post (f none s))
    (hsome : ∀ t rest, s.tokens = t :: rest → t.kind = kind →
      Ends { s with tokens := rest } post (f (some t) { s with tokens := rest })) :
    Ends s post ((accept kind >>= f) s) := by
  refine ends_acceptWhere (fun h => hnone fun t ht => ?_) fun t rest a htokens hchoose => ?_
  · simpa using h t ht
  · simp only [Option.ite_none_right_eq_some, beq_iff_eq, Option.some.injEq] at hchoose
    obtain ⟨hkind, rfl⟩ := hchoose
    exact hsome t rest htokens hkind

/-- What a loop collects, when it takes rounds from states with fewer than `n` tokens. It stops where the tokens close
it, or after its last round. -/
theorem Collecting.ends {loop : Nat → Parser (List β)} {closes : List Token → Prop} {step : Parser α}
    {add : α → List β → List β} (h : Collecting loop closes step add) (hzero : ∀ s, loop 0 s = .ok [] s) {n : Nat}
    {one : ParserState → α → ParserState → Prop} (all : Nat → ParserState → List β → ParserState → Prop)
    (hstop : ∀ bound s, bound = 0 ∨ closes s.tokens → all bound s [] s)
    (hstep : ∀ s, s.tokens.length < n → Ends s (one s) (step s))
    (hadd : ∀ {bound s s₁ s₂ a rest}, Later s s₁ → Later s₁ s₂ → one s a s₁ → all bound s₁ rest s₂ →
      all (bound + 1) s (add a rest) s₂)
    (bound : Nat) (hn : s.tokens.length < n) : Ends s (all bound s) (loop bound s) := by
  induction bound generalizing s with
  | zero =>
    rw [hzero]
    exact .pure (hstop 0 s (.inl rfl))
  | succ bound ih =>
    by_cases hcloses : closes s.tokens
    · rw [h.stop _ s hcloses]
      exact .pure (hstop _ s (.inr hcloses))
    · rw [h.succ bound s hcloses]
      refine (hstep s hn).bind fun a s₁ hlater hone => ?_
      refine (ih (Nat.lt_of_le_of_lt hlater.length_le hn)).bind fun rest s₂ hlater' hall => ?_
      exact .pure (hadd hlater hlater' hone hall)

/-- A token of the kind has been read. -/
def ReadsToken (kind : TokenKind) (s s' : ParserState) : Prop :=
  Yields (.token kind) [] s s' ∧ s'.tokens.length < s.tokens.length

theorem expect_ends (kind : TokenKind) (what : String) (s : ParserState) :
    Ends s (fun _ s' => ReadsToken kind s s') (expect kind what s) := by
  refine ends_accept (fun _ => ?_) fun t rest htokens hkind => ?_
  · exact Ends.fail _ _
  · exact .pure ⟨.token htokens hkind, by simp [htokens]⟩

/-- A name is no keyword if the tokens are told apart well. -/
theorem expectName_ends (what : String) (s : ParserState) :
    Ends s (fun name s' => Yields (.token .identifier) [] s s' ∧
      (Worded s.tokens → TokenKind.ofWord name.text = .identifier)) (expectName what s) := by
  unfold expectName expect
  rw [bind_assoc]
  refine ends_accept (fun _ => ?_) fun t rest htokens hkind => ?_
  · exact Ends.fail _ _
  · exact .pure ⟨.token htokens hkind, fun h => h t (by simp [htokens]) hkind⟩

/-- A name that is declared, as that of a variable. -/
theorem declaredName_ends (what : String) (s : ParserState) :
    Ends s (fun name s' => Yields (.token .identifier) [.stmt (.var name none)] s s') (expectName what s) := by
  refine (expectName_ends what s).mono fun name s' _ ⟨hname, hword⟩ => ?_
  exact (hname.plain (.stmt (.var name none)) rfl (by simp [Node.children, Node.parts]) trivial
    (fun _ => trivial) hword)

/-- A new id, as that of a node that has no other. -/
theorem fresh_ends (s : ParserState) :
    Ends s (fun id s' => Yields (.seq []) [.expr (.this id 0)] s s') (fresh s) := by
  have hlater : Later s { s with nextId := s.nextId + 1 } :=
    ⟨List.suffix_refl _, rfl, rfl, List.prefix_refl _, Nat.le_succ _⟩
  have hevery {P : Node → Prop} (id : NodeId) (hP : P (.expr (.this id 0))) :
      (Node.expr (.this id 0)).Every P := .intro hP (by simp [Node.children, Node.parts])
  refine ⟨hlater, ⟨hlater, ?_, ?_, fun _ => ?_, fun _ => ?_, fun _ => .nil⟩⟩
  · simp [Fresh, Expr.references]
  all_goals simpa using hevery _ trivial

theorem reference_ends (name : Name) (s : ParserState) :
    Ends s (fun use s' => use.name = name ∧ Yields (.seq []) [.expr (.this use.id 0)] s s')
      (reference name s) :=
  (fresh_ends s).bind fun _ _ _ h => .pure ⟨rfl, h⟩

end Steps

/-! ## Lists -/

section Lists

variable {α : Type} {item : Parser α} {φ : Phrase} {nodes : α → List Node} {n : Nat}

/-- After a possible complaint that there are too many, an item is read and those behind it. -/
theorem commaItems_rounds_ends
    (hitem : ∀ s, s.tokens.length ≤ n → Ends s (fun a s' => Yields φ (nodes a) s s') (item s))
    {tooMany : Option SyntaxCause} {room : Option Nat} {bound count : Nat} {s s₁ : ParserState}
    (ih : ∀ {s : ParserState} {count : Nat} {room : Option Nat}, s.tokens.length < bound → s.tokens.length ≤ n →
      (∀ m ∈ room, tooMany.isSome ∧ count + m = maxItems) →
      Ends s (fun l s' => Yields (.items room φ) (l.flatMap nodes) s s' ∧ (s'.errors = s.errors → room ≠ some 0))
        (commaItems item tooMany bound count s))
    (hbound : s.tokens.length < bound + 1) (hn : s.tokens.length ≤ n)
    (hroom : ∀ m ∈ room, tooMany.isSome ∧ count + m = maxItems) (hlater : Later s s₁)
    (htokens : s₁.tokens = s.tokens) (hfull : s₁.errors = s.errors → room ≠ some 0) :
    Ends s₁ (fun l s' => Yields (.items room φ) (l.flatMap nodes) s s' ∧ (s'.errors = s.errors → room ≠ some 0))
      (commaRound item (commaItems item tooMany bound (count + 1)) s₁) := by
  refine (hitem s₁ (htokens ▸ hn)).bind fun first s₂ _ hfirst => ?_
  have hroom' (s' : ParserState) (h : Later s₁ s') (hclean : s'.errors = s.errors) : room ≠ some 0 :=
    hfull (hlater.clean h hclean).1
  refine ends_accept (fun _ => ?_) fun t rest hnext hkind => ?_
  · refine .pure ⟨?_, hroom' s₂ hfirst.toLater⟩
    simpa [Phrase.items] using
      (hfirst.behind hlater htokens).cons (Yields.single (.ofLater (.refl s₂) fun _ => .done))
  · have hshorter := hfirst.length_le
    rw [hnext, List.length_cons, htokens] at hshorter
    -- When there is no room left, an error is on record and the number of items no longer matters.
    let room' := if room = some 0 then none else room.map (· - 1)
    have hnextRoom : ∀ m ∈ room', tooMany.isSome ∧ count + 1 + m = maxItems := by
      intro m hm
      by_cases hzero : room = some 0
      · simp [room', hzero] at hm
      · simp only [room', hzero, if_false, Option.mem_def, Option.map_eq_some_iff] at hm
        obtain ⟨k, rfl, rfl⟩ := hm
        have hk : k ≠ 0 := fun h => hzero (h ▸ rfl)
        exact ⟨(hroom k rfl).1, by have := (hroom k rfl).2; omega⟩
    refine (ih (s := { s₂ with tokens := rest }) (by simp only; omega) (by simp only; omega)
      hnextRoom).bind fun l s₃ _ hrest => .pure ?_
    obtain ⟨hl, hlroom⟩ := hrest
    refine ⟨?_, hroom' s₃ (hfirst.trans ((later_next hnext).trans hl.toLater))⟩
    have hall := (hfirst.behind hlater htokens).cons ((Yields.token hnext hkind).cons hl.single)
    refine hall.imp_of_clean fun hclean hspans => ?_
    have hzero := hroom' s₃ (hfirst.trans ((later_next hnext).trans hl.toLater)) hclean
    have hlater' := hlater.trans (hfirst.trans (later_next hnext))
    have hnonzero := hlroom (hlater'.clean hl.toLater hclean).2
    simp only [room', hzero, if_false] at hspans hnonzero
    exact hspans.items_cons hnonzero

/-- One item after the other, as long as there is room for them. -/
theorem commaItems_ends
    (hitem : ∀ s, s.tokens.length ≤ n → Ends s (fun a s' => Yields φ (nodes a) s s') (item s))
    {tooMany : Option SyntaxCause} {room : Option Nat} {bound count : Nat} {s : ParserState}
    (hbound : s.tokens.length < bound) (hn : s.tokens.length ≤ n)
    (hroom : ∀ m ∈ room, tooMany.isSome ∧ count + m = maxItems) :
    Ends s (fun l s' => Yields (.items room φ) (l.flatMap nodes) s s' ∧
      (s'.errors = s.errors → room ≠ some 0)) (commaItems item tooMany bound count s) := by
  induction bound generalizing s count room with
  | zero => omega
  | succ bound ih =>
    have hrounds {s₁ : ParserState} (hlater : Later s s₁) := commaItems_rounds_ends hitem ih hbound hn hroom hlater
    unfold commaItems
    cases tooMany with
    | none => exact hrounds (.refl s) rfl fun _ h => by simpa using (hroom 0 h).1
    | some cause =>
      by_cases hcount : count = maxItems
      · simp only [hcount, beq_self_eq_true, if_true]
        have hreport (t : Token) : Later s { s with errors := s.errors ++ [⟨t, cause⟩] } :=
          ⟨List.suffix_refl _, rfl, rfl, List.prefix_append _ _, Nat.le_refl _⟩
        exact (hcount ▸ hrounds (hreport _) rfl fun h => absurd (congrArg List.length h) (by simp)).behind
          (hreport _)
      · simp only [beq_iff_eq, hcount, if_false]
        exact hrounds (.refl s) rfl fun _ h => hcount (hroom 0 h).2

theorem commaList_ends
    (hitem : ∀ s, s.tokens.length ≤ n → Ends s (fun a s' => Yields φ (nodes a) s s') (item s))
    (tooMany : Option SyntaxCause) (closing : TokenKind) {s : ParserState} (hn : s.tokens.length ≤ n) :
    Ends s (fun l s' => Yields (.maybe (.items (tooMany.map fun _ => maxItems) φ)) (l.flatMap nodes) s s')
      (commaList item tooMany closing s) := by
  show Ends s _ (ite (s.tokens.head?.any (·.kind == closing) = true) (pure [])
    (remaining >>= fun left => commaItems item tooMany (left + 1) 0) s)
  split
  · exact .pure .absent
  · refine (commaItems_ends hitem (Nat.lt_succ_self _) hn fun m hm => ?_).mono fun l s' _ h => h.1.present
    obtain ⟨cause, rfl, rfl⟩ := Option.map_eq_some_iff.1 hm
    exact ⟨rfl, Nat.zero_add _⟩

end Lists

end TreeWalk
