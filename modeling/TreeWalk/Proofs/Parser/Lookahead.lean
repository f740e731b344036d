import TreeWalk.Proofs.Parser.Language

/-!
# First tokens

With which tokens the derivations of a symbol begin, as far as the parser decides by it.
-/

namespace TreeWalk

/-- The tokens begin with one of the kinds, and a `fun` among them with its parameters. -/
def Opens (kinds : List TokenKind) (ts : List Token) : Prop :=
  ∃ t rest, ts = t :: rest ∧ t.kind ∈ kinds ∧ (t.kind = .funKeyword → rest.head?.map (·.kind) = some .leftParen)

/-- What calls begin with. -/
def callStarts : List TokenKind := [.parentKeyword, .leftParen, .funKeyword, .leftBracket] ++ atoms

/-- What expressions begin with. -/
def expressionStarts : List TokenKind := [.bang, .minus] ++ callStarts

/-- What statements begin with. -/
def statementStarts : List TokenKind :=
  [.forKeyword, .ifKeyword, .whileKeyword, .printKeyword, .returnKeyword, .breakKeyword, .continueKeyword,
    .leftBrace, .semicolon] ++ expressionStarts

namespace Opens

variable {kinds kinds' : List TokenKind} {xs ys : List Token}

theorem append (h : Opens kinds xs) (ys : List Token) : Opens kinds (xs ++ ys) := by
  obtain ⟨t, rest, rfl, hkind, hfun⟩ := h
  refine ⟨t, rest ++ ys, rfl, hkind, fun h => ?_⟩
  cases rest with
  | nil => simpa using hfun h
  | cons u rest => exact hfun h

theorem mono (h : Opens kinds xs) (hkinds : kinds ⊆ kinds') : Opens kinds' xs := by
  obtain ⟨t, rest, hts, hkind, hfun⟩ := h
  exact ⟨t, rest, hts, hkinds hkind, hfun⟩

theorem cons {t : Token} {rest : List Token} (hkind : t.kind ∈ kinds) (hfun : t.kind ≠ .funKeyword) :
    Opens kinds (t :: rest) := ⟨t, rest, rfl, hkind, fun h => absurd h hfun⟩

end Opens

section Starts

variable {ts : List Token}

theorem opens_primary (h : Derives (.symbol .primary) ts) : Opens callStarts ts := by
  have h := derives_symbol.1 h
  simp only [production, derives_choice, List.mem_cons, List.not_mem_nil, or_false, exists_eq_or_imp,
    exists_eq_left, derives_oneOf, derives_cons, derives_token] at h
  rcases h with ⟨t, ht, rfl⟩ | ⟨_, ys, ⟨t, ht, rfl⟩, -, rfl⟩ | ⟨_, ys, ⟨t, ht, rfl⟩, -, rfl⟩ |
    ⟨_, _, ⟨t, ht, rfl⟩, ⟨fs, _, hf, -, rfl⟩, rfl⟩ | ⟨_, ys, ⟨t, ht, rfl⟩, -, rfl⟩
  · exact .cons (List.mem_append_right _ ht) fun h => by simp [h, atoms] at ht
  · exact .cons (by simp [ht, callStarts]) (by simp [ht])
  · exact .cons (by simp [ht, callStarts]) (by simp [ht])
  · have hf := derives_symbol.1 hf
    simp only [production, derives_cons, derives_token] at hf
    obtain ⟨_, us, ⟨u, hu, rfl⟩, -, rfl⟩ := hf
    exact ⟨t, _, rfl, by simp [ht, callStarts], fun _ => by simp [hu]⟩
  · exact .cons (by simp [ht, callStarts]) (by simp [ht])

theorem opens_call (h : Derives (.symbol .call) ts) : Opens callStarts ts := by
  obtain ⟨xs, ys, hprimary, -, rfl⟩ := derives_cons.1 (derives_symbol.1 h)
  exact (opens_primary hprimary).append ys

theorem opens_unary (h : Derives (.symbol .unary) ts) : Opens expressionStarts ts := by
  have h := derives_symbol.1 h
  simp only [production, derives_choice, List.mem_cons, List.not_mem_nil, or_false, exists_eq_or_imp,
    exists_eq_left, derives_oneOf, derives_cons] at h
  rcases h with ⟨_, ys, ⟨t, ht, rfl⟩, -, rfl⟩ | h
  · refine .cons (List.mem_append_left _ (by simpa using ht)) fun h => ?_
    rcases ht with ht | ht <;> simp [h] at ht
  · exact (opens_call h).mono (List.subset_append_right _ _)

theorem opens_chain {kinds operators : List TokenKind} {σ : Symbol} (τ : Symbol)
    (hσ : production σ = .chain operators (.symbol τ)) (hτ : ∀ {ts}, Derives (.symbol τ) ts → Opens kinds ts)
    (h : Derives (.symbol σ) ts) : Opens kinds ts := by
  obtain ⟨xs, ys, hfirst, -, rfl⟩ := derives_cons.1 (hσ ▸ derives_symbol.1 h)
  exact (hτ hfirst).append ys

theorem opens_disjunction (h : Derives (.symbol .disjunction) ts) : Opens expressionStarts ts := by
  refine opens_chain .conjunction rfl (fun h => ?_) h
  refine opens_chain .equality rfl (fun h => ?_) h
  refine opens_chain .comparison rfl (fun h => ?_) h
  refine opens_chain .term rfl (fun h => ?_) h
  refine opens_chain .factor rfl (fun h => ?_) h
  exact opens_chain .unary rfl opens_unary h

theorem opens_expression (h : Derives (.symbol .expression) ts) : Opens expressionStarts ts := by
  have h := derives_symbol.1 (derives_symbol.1 h)
  simp only [production, derives_choice, List.mem_cons, List.not_mem_nil, or_false, exists_eq_or_imp,
    exists_eq_left] at h
  rcases h with h | h
  · obtain ⟨xs, ys, htarget, hrest, rfl⟩ := derives_cons.1 h
    rcases derives_maybe.1 htarget with rfl | htarget
    · obtain ⟨_, zs, hname, -, rfl⟩ := derives_cons.1 hrest
      obtain ⟨t, ht, rfl⟩ := derives_token.1 hname
      exact .cons (by simp [ht, expressionStarts, callStarts, atoms]) (by simp [ht])
    · obtain ⟨us, vs, hcall, -, rfl⟩ := derives_cons.1 htarget
      exact (((opens_call hcall).append vs).append ys).mono (List.subset_append_right _ _)
  · obtain ⟨xs, ys, hfirst, -, rfl⟩ := derives_cons.1 (derives_symbol.1 h)
    exact (opens_disjunction hfirst).append ys

/-- A symbol whose production begins with a keyword. -/
theorem opens_keyword {σ : Symbol} {kind : TokenKind} {φs : List Phrase}
    (hσ : production σ = .seq (.token kind :: φs)) (hkind : kind ∈ statementStarts) (hfun : kind ≠ .funKeyword)
    (h : Derives (.symbol σ) ts) : Opens statementStarts ts := by
  obtain ⟨_, ys, hfirst, -, rfl⟩ := derives_cons.1 (hσ ▸ derives_symbol.1 h)
  obtain ⟨t, rfl, rfl⟩ := derives_token.1 hfirst
  exact .cons hkind hfun

theorem opens_statement {inLoop beforeElse : Bool} (h : Derives (.symbol (.statement inLoop beforeElse)) ts) :
    Opens statementStarts ts := by
  obtain ⟨φ, hφ, h⟩ := derives_choice.1 (derives_symbol.1 h)
  rcases List.mem_append.1 hφ with hφ | hφ
  · simp only [statements, List.mem_cons, List.not_mem_nil, or_false] at hφ
    rcases hφ with rfl | rfl | rfl | rfl | rfl | rfl | rfl | rfl
    · obtain ⟨xs, ys, hvalue, -, rfl⟩ := derives_cons.1 (derives_symbol.1 h)
      exact ((opens_expression hvalue).append ys).mono (List.subset_append_right _ _)
    · exact opens_keyword rfl (by simp [statementStarts]) (by simp) h
    · exact opens_keyword rfl (by simp [statementStarts]) (by simp) h
    · exact opens_keyword rfl (by simp [statementStarts]) (by simp) h
    · exact opens_keyword rfl (by simp [statementStarts]) (by simp) h
    · exact opens_keyword rfl (by simp [statementStarts]) (by simp) h
    · exact opens_keyword rfl (by simp [statementStarts]) (by simp) h
    · obtain ⟨t, ht, rfl⟩ := derives_token.1 h
      exact .cons (by simp [ht, statementStarts]) (by simp [ht])
  · unfold loopControls at hφ
    split at hφ
    · simp only [List.mem_cons, List.not_mem_nil, or_false] at hφ
      rcases hφ with rfl | rfl
      · exact opens_keyword rfl (by simp [statementStarts]) (by simp) h
      · exact opens_keyword rfl (by simp [statementStarts]) (by simp) h
    · simp at hφ

/-- Nothing that ends a block or a branch begins a declaration. -/
theorem starts_declaration {inLoop : Bool} (h : Derives (.symbol (.declaration inLoop)) ts) :
    ∃ t rest, ts = t :: rest ∧ t.kind ≠ .rightBrace ∧ t.kind ≠ .elseKeyword := by
  have h := derives_symbol.1 h
  simp only [production, derives_choice, List.mem_cons, List.not_mem_nil, or_false, exists_eq_or_imp,
    exists_eq_left] at h
  rcases h with h | h | h | h
  · obtain ⟨_, ys, hfirst, -, rfl⟩ := derives_cons.1 (derives_symbol.1 h)
    obtain ⟨t, ht, rfl⟩ := derives_token.1 hfirst
    exact ⟨t, ys, rfl, by simp [ht], by simp [ht]⟩
  · obtain ⟨_, ys, hfirst, -, rfl⟩ := derives_cons.1 (derives_symbol.1 h)
    obtain ⟨t, ht, rfl⟩ := derives_token.1 hfirst
    exact ⟨t, ys, rfl, by simp [ht], by simp [ht]⟩
  · obtain ⟨_, ys, hfirst, -, rfl⟩ := derives_cons.1 (derives_symbol.1 h)
    obtain ⟨t, ht, rfl⟩ := derives_token.1 hfirst
    exact ⟨t, ys, rfl, by simp [ht], by simp [ht]⟩
  · obtain ⟨t, rest, rfl, ht, -⟩ := opens_statement h
    refine ⟨t, rest, rfl, fun hkind => ?_, fun hkind => ?_⟩ <;>
      simp [hkind, statementStarts, expressionStarts, callStarts, atoms] at ht

end Starts

end TreeWalk
