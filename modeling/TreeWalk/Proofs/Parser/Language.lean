import TreeWalk.Syntax.Parser

/-!
# The language

The grammar as data, with one production per symbol, and the token lists it derives. The conditions
that go with the grammar are part of it: the number of arguments and parameters is limited, `break`
and `continue` stand in a loop of the same function, and an `else` belongs to the nearest `if`.
-/

namespace TreeWalk

inductive Symbol where
  | program
  | declaration (inLoop : Bool)
  | classDeclaration | functionDeclaration | method | function | varDeclaration
  /-- In front of an `else` no statement ends with an `if` that has none. -/
  | statement (inLoop beforeElse : Bool)
  | expressionStatement | printStatement | returnStatement | breakStatement | continueStatement
  | forStatement (beforeElse : Bool)
  | ifStatement (inLoop beforeElse : Bool)
  | whileStatement (beforeElse : Bool)
  | block (inLoop : Bool)
  | expression | assignment | conditional
  | disjunction | conjunction | equality | comparison | term | factor
  | unary | call | primary

/-- The right-hand side of a production. -/
inductive Phrase where
  | token (kind : TokenKind)
  | symbol (symbol : Symbol)
  | seq (parts : List Phrase)
  | choice (options : List Phrase)
  /-- Repetition, at most so many times. -/
  | many (most : Option Nat) (item : Phrase)

namespace Phrase

def oneOf (kinds : List TokenKind) : Phrase := choice (kinds.map token)

def maybe (φ : Phrase) : Phrase := choice [seq [], φ]

/-- One or more items between commas. -/
def items (most : Option Nat) (item : Phrase) : Phrase :=
  seq [item, many (most.map (· - 1)) (seq [token .comma, item])]

/-- Operands with operators between them. -/
def chain (operators : List TokenKind) (operand : Phrase) : Phrase :=
  seq [operand, many none (seq [oneOf operators, operand])]

end Phrase

/-- Tokens that are expressions on their own. -/
def atoms : List TokenKind :=
  [.number, .string, .trueKeyword, .falseKeyword, .nilKeyword, .thisKeyword, .identifier]

open Phrase in
/-- Arguments, a property name or a subscript. -/
def suffixPhrase : Phrase :=
  choice [seq [token .leftParen, maybe (items (some 255) (symbol .expression)), token .rightParen],
    seq [token .dot, token .identifier],
    seq [token .leftBracket, symbol .expression, token .rightBracket]]

open Phrase in
/-- The branches of an `if`. -/
def branches (inLoop beforeElse : Bool) : Phrase :=
  choice (seq [symbol (.statement inLoop true), token .elseKeyword, symbol (.statement inLoop beforeElse)] ::
    if beforeElse then [] else [symbol (.statement inLoop false)])

open Phrase in
/-- The statements that may stand outside of loops too. -/
def statements (inLoop beforeElse : Bool) : List Phrase :=
  [symbol .expressionStatement, symbol (.forStatement beforeElse), symbol (.ifStatement inLoop beforeElse),
    symbol .printStatement, symbol .returnStatement, symbol (.whileStatement beforeElse),
    symbol (.block inLoop), token .semicolon]

open Phrase in
/-- The statements that need a loop around them. -/
def loopControls (inLoop : Bool) : List Phrase :=
  if inLoop then [symbol .breakStatement, symbol .continueStatement] else []

open Phrase in
/-- The grammar. -/
def production : Symbol → Phrase
  | .program => many none (symbol (.declaration false))
  | .declaration inLoop =>
    choice [symbol .classDeclaration, symbol .functionDeclaration, symbol .varDeclaration,
      symbol (.statement inLoop false)]
  | .classDeclaration =>
    seq [token .classKeyword, token .identifier,
      maybe (seq [oneOf [.colon, .less], token .identifier]),
      token .leftBrace, many none (symbol .method), token .rightBrace]
  | .functionDeclaration => seq [token .funKeyword, token .identifier, symbol .function]
  | .method => seq [token .identifier, symbol .function]
  | .function =>
    seq [token .leftParen, maybe (items (some 255) (token .identifier)),
      token .rightParen, symbol (.block false)]
  | .varDeclaration =>
    seq [token .varKeyword, token .identifier, maybe (seq [token .equal, symbol .expression]),
      token .semicolon]
  | .statement inLoop beforeElse => choice (statements inLoop beforeElse ++ loopControls inLoop)
  | .expressionStatement => seq [symbol .expression, token .semicolon]
  | .printStatement => seq [token .printKeyword, symbol .expression, token .semicolon]
  | .returnStatement => seq [token .returnKeyword, maybe (symbol .expression), token .semicolon]
  | .breakStatement => seq [token .breakKeyword, token .semicolon]
  | .continueStatement => seq [token .continueKeyword, token .semicolon]
  | .forStatement beforeElse =>
    seq [token .forKeyword, token .leftParen,
      choice [token .semicolon, symbol .varDeclaration, symbol .expressionStatement],
      maybe (symbol .expression), token .semicolon, maybe (symbol .expression), token .rightParen,
      symbol (.statement true beforeElse)]
  | .ifStatement inLoop beforeElse =>
    seq [token .ifKeyword, token .leftParen, symbol .expression, token .rightParen,
      branches inLoop beforeElse]
  | .whileStatement beforeElse =>
    seq [token .whileKeyword, token .leftParen, symbol .expression, token .rightParen,
      symbol (.statement true beforeElse)]
  | .block inLoop =>
    seq [token .leftBrace, many none (symbol (.declaration inLoop)), token .rightBrace]
  | .expression => symbol .assignment
  | .assignment =>
    choice [seq [maybe (seq [symbol .call, token .dot]), token .identifier, token .equal,
        symbol .assignment],
      symbol .conditional]
  | .conditional =>
    seq [symbol .disjunction,
      maybe (seq [token .question, symbol .expression, token .colon, symbol .conditional])]
  | .disjunction => chain [.orKeyword] (symbol .conjunction)
  | .conjunction => chain [.andKeyword] (symbol .equality)
  | .equality => chain [.bangEqual, .equalEqual] (symbol .comparison)
  | .comparison => chain [.greater, .greaterEqual, .less, .lessEqual] (symbol .term)
  | .term => chain [.minus, .plus] (symbol .factor)
  | .factor => chain [.slash, .star] (symbol .unary)
  | .unary => choice [seq [oneOf [.bang, .minus], symbol .unary], symbol .call]
  | .call => seq [symbol .primary, many none suffixPhrase]
  | .primary =>
    choice [oneOf atoms,
      seq [token .parentKeyword, token .dot, token .identifier],
      seq [token .leftParen, symbol .expression, token .rightParen],
      seq [token .funKeyword, symbol .function],
      seq [token .leftBracket, maybe (items none (symbol .expression)), token .rightBracket]]

/-- The token lists that a phrase derives. -/
inductive Derives : Phrase → List Token → Prop where
  | token (t : Token) : Derives (.token t.kind) [t]
  | symbol {σ : Symbol} {ts : List Token} (h : Derives (production σ) ts) : Derives (.symbol σ) ts
  | nil : Derives (.seq []) []
  | cons {φ : Phrase} {φs : List Phrase} {xs ys : List Token} (h : Derives φ xs)
    (hs : Derives (.seq φs) ys) : Derives (.seq (φ :: φs)) (xs ++ ys)
  | choice {φ : Phrase} {φs : List Phrase} {ts : List Token} (hφ : φ ∈ φs) (h : Derives φ ts) :
    Derives (.choice φs) ts
  | many {most : Option Nat} {φ : Phrase} (pieces : List (List Token))
    (hmost : ∀ n ∈ most, pieces.length ≤ n) (h : ∀ piece ∈ pieces, Derives φ piece) :
    Derives (.many most φ) pieces.flatten

/-! ## Derivations of each kind of phrase -/

section Derivations

variable {φ : Phrase} {φs : List Phrase} {ts : List Token}

@[simp] theorem derives_token {kind : TokenKind} :
    Derives (.token kind) ts ↔ ∃ t, t.kind = kind ∧ ts = [t] := by
  constructor
  · rintro ⟨t⟩
    exact ⟨t, rfl, rfl⟩
  · rintro ⟨t, rfl, rfl⟩
    exact .token t

theorem derives_symbol {σ : Symbol} : Derives (.symbol σ) ts ↔ Derives (production σ) ts :=
  ⟨fun | .symbol h => h, .symbol⟩

@[simp] theorem derives_nil : Derives (.seq []) ts ↔ ts = [] :=
  ⟨fun | .nil => rfl, fun h => h ▸ .nil⟩

@[simp] theorem derives_cons :
    Derives (.seq (φ :: φs)) ts ↔ ∃ xs ys, Derives φ xs ∧ Derives (.seq φs) ys ∧ ts = xs ++ ys := by
  constructor
  · rintro (_ | _ | _ | ⟨h, hs⟩)
    exact ⟨_, _, h, hs, rfl⟩
  · rintro ⟨xs, ys, h, hs, rfl⟩
    exact .cons h hs

@[simp] theorem derives_choice : Derives (.choice φs) ts ↔ ∃ φ ∈ φs, Derives φ ts :=
  ⟨fun | .choice hφ h => ⟨_, hφ, h⟩, fun ⟨_, hφ, h⟩ => .choice hφ h⟩

theorem derives_many {most : Option Nat} : Derives (.many most φ) ts ↔
    ∃ pieces : List (List Token), (∀ n ∈ most, pieces.length ≤ n) ∧ (∀ piece ∈ pieces, Derives φ piece) ∧
      ts = pieces.flatten :=
  ⟨fun | .many pieces hmost h => ⟨pieces, hmost, h, rfl⟩, fun ⟨pieces, hmost, h, hts⟩ =>
    hts ▸ .many pieces hmost h⟩

/-- A part and what is repeated behind it. -/
theorem derives_repeated {ψ : Phrase} (h : Derives (.seq [ψ, .many none φ]) ts) :
    ∃ (first : List Token) (pieces : List (List Token)), Derives ψ first ∧ (∀ piece ∈ pieces, Derives φ piece) ∧
      ts = first ++ pieces.flatten := by
  simp only [derives_cons, derives_nil] at h
  obtain ⟨first, _, hfirst, ⟨_, _, hmany, rfl, rfl⟩, rfl⟩ := h
  obtain ⟨pieces, -, hpieces, rfl⟩ := derives_many.1 hmany
  exact ⟨first, pieces, hfirst, hpieces, by simp⟩

@[simp] theorem derives_maybe : Derives (.maybe φ) ts ↔ ts = [] ∨ Derives φ ts := by
  simp [Phrase.maybe]

@[simp] theorem derives_oneOf {kinds : List TokenKind} :
    Derives (.oneOf kinds) ts ↔ ∃ t, t.kind ∈ kinds ∧ ts = [t] := by
  simp only [Phrase.oneOf, derives_choice, List.mem_map]
  constructor
  · rintro ⟨_, ⟨_, hk, rfl⟩, h⟩
    obtain ⟨t, rfl, rfl⟩ := derives_token.1 h
    exact ⟨t, hk, rfl⟩
  · rintro ⟨t, ht, rfl⟩
    exact ⟨_, ⟨t.kind, ht, rfl⟩, .token t⟩

end Derivations

/-- From the first list to the second a phrase is read. -/
def Spans (φ : Phrase) (before after : List Token) : Prop := ∃ ts, Derives φ ts ∧ before = ts ++ after

section Spans

variable {φ : Phrase} {φs : List Phrase} {xs ys zs : List Token}

theorem spans_token {kind : TokenKind} : Spans (.token kind) xs ys ↔ ∃ t, t.kind = kind ∧ xs = t :: ys := by
  simp only [Spans, derives_token]
  constructor
  · rintro ⟨_, ⟨t, ht, rfl⟩, rfl⟩
    exact ⟨t, ht, rfl⟩
  · rintro ⟨t, ht, rfl⟩
    exact ⟨_, ⟨t, ht, rfl⟩, rfl⟩

theorem spans_oneOf {kinds : List TokenKind} : Spans (.oneOf kinds) xs ys ↔ ∃ t, t.kind ∈ kinds ∧ xs = t :: ys := by
  simp only [Spans, derives_oneOf]
  constructor
  · rintro ⟨_, ⟨t, ht, rfl⟩, rfl⟩
    exact ⟨t, ht, rfl⟩
  · rintro ⟨t, ht, rfl⟩
    exact ⟨_, ⟨t, ht, rfl⟩, rfl⟩

theorem Spans.symbol {σ : Symbol} (h : Spans (production σ) xs ys) : Spans (.symbol σ) xs ys :=
  h.imp fun _ ⟨hd, hts⟩ => ⟨.symbol hd, hts⟩

theorem Spans.of_symbol {σ : Symbol} (h : Spans (.symbol σ) xs ys) : Spans (production σ) xs ys :=
  h.imp fun _ ⟨hd, hts⟩ => ⟨derives_symbol.1 hd, hts⟩

theorem Spans.nil : Spans (.seq []) xs xs := ⟨[], .nil, rfl⟩

theorem Spans.cons (h : Spans φ xs ys) (hs : Spans (.seq φs) ys zs) : Spans (.seq (φ :: φs)) xs zs := by
  obtain ⟨ts, hd, rfl⟩ := h
  obtain ⟨us, hds, rfl⟩ := hs
  exact ⟨ts ++ us, .cons hd hds, (List.append_assoc ..).symm⟩

theorem spans_nil : Spans (.seq []) xs ys ↔ xs = ys := by
  simp [Spans]

theorem spans_cons : Spans (.seq (φ :: φs)) xs zs ↔ ∃ ys, Spans φ xs ys ∧ Spans (.seq φs) ys zs := by
  constructor
  · rintro ⟨_, hd, rfl⟩
    obtain ⟨ts, us, hts, hus, rfl⟩ := derives_cons.1 hd
    exact ⟨us ++ zs, ⟨ts, hts, List.append_assoc ..⟩, us, hus, rfl⟩
  · rintro ⟨ys, h, hs⟩
    exact h.cons hs

theorem spans_pair {ψ : Phrase} : Spans (.seq [φ, ψ]) xs zs ↔ ∃ ys, Spans φ xs ys ∧ Spans ψ ys zs := by
  simp [spans_cons, spans_nil]

theorem Spans.single (h : Spans φ xs ys) : Spans (.seq [φ]) xs ys := h.cons .nil

theorem Spans.choice (h : Spans φ xs ys) (hφ : φ ∈ φs) : Spans (.choice φs) xs ys :=
  h.imp fun _ ⟨hd, hts⟩ => ⟨.choice hφ hd, hts⟩

theorem Spans.absent : Spans (.maybe φ) xs xs := Spans.nil.choice (by simp)

theorem Spans.present (h : Spans φ xs ys) : Spans (.maybe φ) xs ys := h.choice (by simp)

theorem Spans.done {most : Option Nat} : Spans (.many most φ) xs xs :=
  ⟨[], .many [] (by simp) (by simp), rfl⟩

theorem Spans.more {most : Option Nat} (h : Spans φ xs ys) (hs : Spans (.many most φ) ys zs) :
    Spans (.many (most.map (· + 1)) φ) xs zs := by
  obtain ⟨ts, hd, rfl⟩ := h
  obtain ⟨us, hds, rfl⟩ := hs
  obtain ⟨pieces, hmost, hpieces, rfl⟩ := derives_many.1 hds
  refine ⟨(ts :: pieces).flatten, .many _ ?_ ?_, by simp⟩
  · intro n hn
    obtain ⟨m, hm, rfl⟩ := Option.map_eq_some_iff.1 hn
    simpa using hmost m hm
  · simpa using ⟨hd, hpieces⟩

theorem Spans.items_cons {room : Option Nat}
    (h : Spans (.seq [φ, .token .comma, .items (room.map (· - 1)) φ]) xs ys)
    (hroom : room.map (· - 1) ≠ some 0) : Spans (.items room φ) xs ys := by
  obtain ⟨us, hfirst, h⟩ := spans_cons.1 h
  obtain ⟨vs, hcomma, h⟩ := spans_cons.1 h
  obtain ⟨_, hrest, h⟩ := spans_cons.1 h
  obtain rfl := spans_nil.1 h
  obtain ⟨ws, hnext, h⟩ := spans_cons.1 hrest
  obtain ⟨_, hmany, h⟩ := spans_cons.1 h
  obtain rfl := spans_nil.1 h
  have hcount : ((room.map (· - 1)).map (· - 1)).map (· + 1) = room.map (· - 1) := by
    cases room with
    | none => rfl
    | some m =>
      simp only [Option.map_some, ne_eq, Option.some.injEq] at hroom ⊢
      omega
  refine hfirst.cons (Spans.single ?_)
  exact hcount ▸ (hcomma.cons hnext.single).more hmany

theorem Spans.many_snoc (hs : Spans (.many none φ) xs ys) (h : Spans φ ys zs) : Spans (.many none φ) xs zs := by
  obtain ⟨_, hd, rfl⟩ := hs
  obtain ⟨pieces, -, hpieces, rfl⟩ := derives_many.1 hd
  obtain ⟨ts, hts, rfl⟩ := h
  refine ⟨(pieces ++ [ts]).flatten, .many _ (by simp) ?_, by simp⟩
  simpa [or_imp, forall_and] using ⟨hpieces, hts⟩

/-- What may be repeated behind the first part may be added once more at the end. -/
theorem Spans.snoc {ψ : Phrase} (h : Spans (.seq [ψ, .many none φ]) xs ys) (hφ : Spans φ ys zs) :
    Spans (.seq [ψ, .many none φ]) xs zs := by
  obtain ⟨us, hfirst, h⟩ := spans_cons.1 h
  obtain ⟨_, hmany, h⟩ := spans_cons.1 h
  obtain rfl := spans_nil.1 h
  exact hfirst.cons (hmany.many_snoc hφ).single

end Spans

end TreeWalk
