import TreeWalk.Syntax.Grammar

/-!
# Loops of the parser

The parser has two kinds of loops. Some extend an expression, each time behind a token that they choose. Others
collect what stands in a row, until they see what closes it.
-/

namespace TreeWalk

open TreeWalk.Parser TreeWalk.Grammar

/-- The loop extends an expression by steps, each behind a token that it chooses. -/
structure Extending {κ : Type} (loop : Nat → Expr → Parser Expr) (choose : Token → Option κ)
    (step : Expr → κ → Parser Expr) : Prop where
  zero : ∀ left, loop 0 left = pure left
  succ : ∀ bound left, loop (bound + 1) left =
    acceptWhere choose >>= fun found => found.elim (pure left) fun k => step left k >>= loop bound

/-- The loop collects what its step reads, until the tokens close it. -/
structure Collecting {α β : Type} (loop : Nat → Parser (List β)) (closes : List Token → Prop) (step : Parser α)
    (add : α → List β → List β) : Prop where
  nil : closes []
  stop : ∀ bound s, closes s.tokens → loop bound s = .ok [] s
  succ : ∀ bound s, ¬ closes s.tokens →
    loop (bound + 1) s = (step >>= fun a => loop bound >>= fun rest => pure (add a rest)) s

/-! ## The loops of the grammar -/

/-- A brace that closes a body follows, or nothing. -/
def EndsBody (rest : List Token) : Prop :=
  (rest.head?.any (·.kind == .rightBrace) || rest.isEmpty) = true

theorem extending_leftGrouped {κ : Type} (operator : TokenKind → Option κ) (build : Expr → Operator κ → Expr → Expr)
    (operand : Parser Expr) :
    Extending (leftGrouped operator build operand) (fun t => (operator t.kind).map (⟨·, t.lexeme, t.line⟩))
      (fun left op => operand >>= fun right => pure (build left op right)) where
  zero _ := rfl
  succ bound left := by
    apply bind_congr
    intro found
    cases found with
    | none => rfl
    | some op => simp

theorem extending_suffixes (r : Rules) :
    Extending (fun bound target => suffixes r bound target) (fun t => if opensSuffix t.kind then some t else none)
      (suffix r) where
  zero _ := rfl
  succ bound target := by
    apply bind_congr
    intro found
    cases found <;> rfl

theorem collecting_declarations (declaration : Parser (Option Stmt)) :
    Collecting (declarations declaration) EndsBody declaration (fun o rest => o.toList ++ rest) where
  nil := rfl
  stop bound s hcloses := by
    cases bound with
    | zero => rfl
    | succ bound =>
      show (ite ((s.tokens.head?.any (·.kind == .rightBrace) || s.tokens.isEmpty) = true) _ _ : Parser _) s = _
      rw [if_pos (show (_ || _) = true from hcloses)]
      rfl
  succ bound s hcloses := by
    show (ite ((s.tokens.head?.any (·.kind == .rightBrace) || s.tokens.isEmpty) = true) _ _ : Parser _) s = _
    rw [if_neg (show ¬ (_ || _) = true from hcloses)]

theorem collecting_methods (r : Rules) :
    Collecting (methods r) EndsBody (expectName "method name" >>= fun name => function r >>= fun body =>
      pure (Method.mk name body)) List.cons where
  nil := rfl
  stop bound s hcloses := by
    cases bound with
    | zero => rfl
    | succ bound =>
      show (ite ((s.tokens.head?.any (·.kind == .rightBrace) || s.tokens.isEmpty) = true) _ _ : Parser _) s = _
      rw [if_pos (show (_ || _) = true from hcloses)]
      rfl
  succ bound s hcloses := by
    show (ite ((s.tokens.head?.any (·.kind == .rightBrace) || s.tokens.isEmpty) = true) _ _ : Parser _) s = _
    rw [if_neg (show ¬ (_ || _) = true from hcloses)]
    simp only [bind_assoc, pure_bind]

theorem collecting_program (r : Rules) :
    Collecting (program r) (· = []) r.declaration (fun o rest => o.toList ++ rest) where
  nil := rfl
  stop bound s hcloses := by
    cases bound with
    | zero => rfl
    | succ bound =>
      show (ite (s.tokens.isEmpty = true) _ _ : Parser _) s = _
      rw [if_pos (List.isEmpty_iff.2 hcloses)]
      rfl
  succ bound s hcloses := by
    show (ite (s.tokens.isEmpty = true) _ _ : Parser _) s = _
    rw [if_neg (mt List.isEmpty_iff.1 hcloses)]

end TreeWalk
