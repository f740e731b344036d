import TreeWalk.Proofs.Parser.Acceptance
import TreeWalk.Proofs.Scan.Partition
import TreeWalk.Proofs.Syntax.Nodes
import TreeWalk.Proofs.Syntax.Relabeling

/-!
# Expressions as tokens

The tokens of an expression in their order, and the expressions that can be told from them: those in which
no operand is looser than its operator allows, unless it stands in parentheses.
-/

namespace TreeWalk

open TreeWalk.Parser

/-! ## Tokens without their places -/

namespace TokenKind

/-- How an operator, a punctuation mark or a keyword is written. The first spelling stands for all. -/
def spelling (kind : TokenKind) : String :=
  let spellings := (operators.map fun (text, kind) => (String.ofList text, kind)) ++ keywords
  ((spellings.find? (·.2 == kind)).map (·.1)).getD ""

/-- Whether all tokens of the kind are written in the same way. -/
def isFixed : TokenKind → Bool
  | identifier | string | number | parentKeyword | endOfInput => false
  | _ => true

end TokenKind

namespace Token

/-- What a token says. Neither its line nor the spelling of a number is part of it. -/
def word (t : Token) : Token := { t with lexeme := if t.kind = .number then "" else t.lexeme, line := 0 }

/-- The token of a kind that is written in one way only. -/
def fixed (kind : TokenKind) : Token := ⟨kind, kind.spelling, none, 0⟩

/-- The token might have been scanned. -/
def Scanned (t : Token) : Prop := Spells t.kind t.lexeme.toList t.literal

section Words

variable {t : Token} {kind : TokenKind}

@[simp] theorem word_kind : t.word.kind = t.kind := rfl

@[simp] theorem word_literal : t.word.literal = t.literal := rfl

@[simp] theorem fixed_kind : (fixed kind).kind = kind := rfl

theorem word_lexeme (h : t.kind ≠ .number) : t.word.lexeme = t.lexeme := if_neg h

/-- There is nothing else to forget about a word. -/
theorem word_of_settled (hline : t.line = 0) (hlexeme : t.kind = .number → t.lexeme = "") : t.word = t := by
  obtain ⟨kind, lexeme, literal, line⟩ := t
  obtain rfl : line = 0 := hline
  by_cases hkind : kind = .number
  · obtain rfl : lexeme = "" := hlexeme hkind
    simp [word]
  · simp [word, hkind]

theorem word_fixed (h : kind ≠ .number) : (fixed kind).word = fixed kind := word_of_settled rfl fun hkind => absurd hkind h

end Words

namespace Scanned

variable {t : Token}

/-- Only numbers and strings stand for a literal. -/
theorem literal_eq_none (h : t.Scanned) (hnumber : t.kind ≠ .number) (hstring : t.kind ≠ .string) : t.literal = none := by
  have hliteral := Scan.literal?_of_spells h
  rw [Scan.literal?_eq_none ⟨hnumber, hstring⟩] at hliteral
  exact hliteral.symm

theorem word_eq (h : t.Scanned) (hnumber : t.kind ≠ .number) (hstring : t.kind ≠ .string) :
    t.word = ⟨t.kind, t.lexeme, none, 0⟩ := by
  rw [word, if_neg hnumber, h.literal_eq_none hnumber hstring]

/-- The characters of the token spell it. -/
theorem spells (h : t.Scanned) : ∃ text, t.lexeme = String.ofList text ∧ Spells t.kind text t.literal :=
  ⟨t.lexeme.toList, String.ofList_toList.symm, h⟩

theorem lexeme_eq (h : t.Scanned) (hfixed : t.kind.isFixed) : t.lexeme = t.kind.spelling := by
  have hoperators : ∀ p ∈ operators, p.2.spelling = String.ofList p.1 := by decide
  have hkeywords : ∀ p ∈ TokenKind.keywords, p.2.isFixed → p.2.spelling = p.1 := by decide
  obtain ⟨text, hlexeme, h⟩ := h.spells
  rw [hlexeme]
  generalize t.kind = kind at h hfixed
  generalize t.literal = literal at h
  cases h with
  | operator h => exact (hoperators _ h).symm
  | keyword h => rw [String.ofList_toList, hkeywords _ h hfixed]
  | _ => cases hfixed

/-- Tokens of a kind that is written in one way say the same. -/
theorem word_fixed (h : t.Scanned) {kind : TokenKind} (hkind : t.kind = kind) (hfixed : kind.isFixed) :
    t.word = fixed kind := by
  subst hkind
  have hnumber : t.kind ≠ .number := fun hkind => by simp [hkind, TokenKind.isFixed] at hfixed
  have hstring : t.kind ≠ .string := fun hkind => by simp [hkind, TokenKind.isFixed] at hfixed
  rw [h.word_eq hnumber hstring, h.lexeme_eq hfixed, fixed]

theorem number (h : t.Scanned) (hkind : t.kind = .number) : ∃ value, t.literal = some (.number value) := by
  obtain ⟨text, -, h⟩ := h.spells
  rw [hkind] at h
  generalize t.literal = literal at h ⊢
  cases h with
  | operator h => simp [operators] at h
  | keyword h => simp [TokenKind.keywords] at h
  | whole h | decimal h h' => exact ⟨_, rfl⟩

theorem string (h : t.Scanned) (hkind : t.kind = .string) :
    ∃ text : String, t.literal = some (.text text) ∧ t.lexeme = String.ofList ('"' :: text.toList ++ ['"']) ∧
      '"' ∉ text.toList := by
  obtain ⟨text, hlexeme, h⟩ := h.spells
  rw [hkind] at h
  rw [hlexeme]
  generalize t.literal = literal at h ⊢
  cases h with
  | operator h => simp [operators] at h
  | keyword h => simp [TokenKind.keywords] at h
  | @string inside h => exact ⟨String.ofList inside, rfl, by simp, by simpa using h⟩

end Scanned

end Token

theorem scanned_tokens (source : String) : ∀ t ∈ (Parse.delimited (Scan.ofSource source).tokens).1, t.Scanned := by
  intro t ht
  obtain ⟨tokens, last, htokens, -, hspells⟩ := Scan.tokens_ofSegments 1 (partition_ofText source.toList).spelled
  have hopen := List.mem_takeWhile_imp ht
  have hmem : t ∈ tokens ++ [.endOfInput last] := htokens ▸ (List.takeWhile_sublist _).subset ht
  rcases List.mem_append.1 hmem with hmem | hmem
  · exact hspells t hmem
  · obtain rfl := List.mem_singleton.1 hmem
    exact absurd hopen (by simp [Token.endOfInput])

/-! ## The tokens of an expression -/

def UnaryKind.token : UnaryKind → TokenKind
  | not => .bang
  | negate => .minus

def LogicalKind.token : LogicalKind → TokenKind
  | and => .andKeyword
  | or => .orKeyword

def Name.token (name : Name) : Token := ⟨.identifier, name.text, none, 0⟩

def Operator.token {κ : Type} (op : Operator κ) (kind : TokenKind) : Token := ⟨kind, op.spelling, none, 0⟩

def Literal.token : Literal → Token
  | nil => .fixed .nilKeyword
  | bool true => .fixed .trueKeyword
  | bool false => .fixed .falseKeyword
  | number value => ⟨.number, "", some (.number value), 0⟩
  | text value => ⟨.string, String.ofList ('"' :: value.toList ++ ['"']), some (.text value), 0⟩

def commaSeparated (pieces : List (List Token)) : List Token := [Token.fixed .comma].intercalate pieces

mutual

/-- The tokens of an expression from left to right. Functions are left out. -/
def Expr.flatten : Expr → List Token
  | .literal value => [value.token]
  | .variable use => [use.name.token]
  | .assign target value => target.name.token :: .fixed .equal :: value.flatten
  | .group inner => .fixed .leftParen :: (inner.flatten ++ [.fixed .rightParen])
  | .unary op operand => op.token op.kind.token :: operand.flatten
  | .binary left op right => left.flatten ++ op.token op.kind :: right.flatten
  | .logical left op right => left.flatten ++ op.token op.kind.token :: right.flatten
  | .conditional condition thenBranch elseBranch =>
    condition.flatten ++ .fixed .question :: (thenBranch.flatten ++ .fixed .colon :: elseBranch.flatten)
  | .call callee _ arguments =>
    callee.flatten ++ .fixed .leftParen :: (commaSeparated (Expr.flattenAll arguments) ++ [.fixed .rightParen])
  | .get object name => object.flatten ++ [.fixed .dot, name.token]
  | .set object name value => object.flatten ++ .fixed .dot :: name.token :: .fixed .equal :: value.flatten
  | .this _ _ => [.fixed .thisKeyword]
  | .parent _ keyword method => [⟨.parentKeyword, keyword.text, none, 0⟩, .fixed .dot, method.token]
  | .lambda _ => []
  | .list _ elements =>
    .fixed .leftBracket :: (commaSeparated (Expr.flattenAll elements) ++ [.fixed .rightBracket])
  | .index object _ position =>
    object.flatten ++ .fixed .leftBracket :: (position.flatten ++ [.fixed .rightBracket])

def Expr.flattenAll : List Expr → List (List Token)
  | [] => []
  | e :: rest => e.flatten :: Expr.flattenAll rest

end

@[simp] theorem commaSeparated_nil : commaSeparated [] = [] := rfl

@[simp] theorem commaSeparated_singleton (piece : List Token) : commaSeparated [piece] = piece :=
  List.intercalate_singleton

@[simp] theorem commaSeparated_cons_cons (piece next : List Token) (pieces : List (List Token)) :
    commaSeparated (piece :: next :: pieces) = piece ++ .fixed .comma :: commaSeparated (next :: pieces) := by
  simp [commaSeparated, List.intercalate]

theorem map_commaSeparated (pieces : List (List Token)) :
    (commaSeparated pieces).map Token.word = commaSeparated (pieces.map (List.map Token.word)) := by
  induction pieces with
  | nil => rfl
  | cons piece pieces ih =>
    cases pieces with
    | nil => simp
    | cons next pieces =>
      simp only [commaSeparated_cons_cons, List.map_append, List.map_cons, ih]
      rfl

theorem flattenAll_eq (es : List Expr) : Expr.flattenAll es = es.map Expr.flatten := by
  induction es with
  | nil => rfl
  | cons e rest ih => rw [Expr.flattenAll, ih, List.map_cons]

/-- No function stands in the expression. -/
def Expr.Functionless (e : Expr) : Prop := (Node.expr e).Every fun n => ∀ f, n ≠ .expr (.lambda f)

theorem Expr.Functionless.child {e part : Expr} (h : e.Functionless) (hpart : Node.expr part ∈ (Node.expr e).children) :
    part.Functionless := Node.Every.child h _ hpart

theorem Expr.not_functionless (f : Function) : ¬ (Expr.lambda f).Functionless := fun h => h.here f rfl

/-! ## Precedence -/

namespace Expr

/-- How tightly the parts of an expression are bound: assignments are the loosest, and what can be called is the
tightest. -/
def level : Expr → Nat
  | assign _ _ | set _ _ _ => 1
  | conditional _ _ _ => 2
  | logical _ op _ => tightness op.kind.token
  | binary _ op _ => tightness op.kind
  | unary _ _ => 9
  | _ => 10

/-- No operand is looser than the grammar allows at its place. Assignment, conditional and prefix operators nest to the
right, for only the last of their operands may be as loose as they are. The operators between two operands nest to
the left. -/
inductive Shaped : Expr → Prop where
  | literal (value : Literal) : Shaped (literal value)
  | «variable» (use : Reference) : Shaped («variable» use)
  | this (id : NodeId) (line : Nat) : Shaped (this id line)
  | parent (id : NodeId) (keyword method : Name) : Shaped (parent id keyword method)
  | group {inner : Expr} (hinner : inner.Shaped) : Shaped (group inner)
  | list {line : Nat} {elements : List Expr} (helements : ∀ e ∈ elements, e.Shaped) : Shaped (list line elements)
  | call {callee : Expr} {line : Nat} {arguments : List Expr} (hcallee : callee.Shaped) (hlevel : 10 ≤ callee.level)
    (harguments : ∀ e ∈ arguments, e.Shaped) (hcount : arguments.length ≤ maxItems) : Shaped (call callee line arguments)
  | get {object : Expr} {name : Name} (hobject : object.Shaped) (hlevel : 10 ≤ object.level) : Shaped (get object name)
  | index {object position : Expr} {line : Nat} (hobject : object.Shaped) (hlevel : 10 ≤ object.level)
    (hposition : position.Shaped) : Shaped (index object line position)
  | unary {op : Operator UnaryKind} {operand : Expr} (hoperand : operand.Shaped) (hlevel : 9 ≤ operand.level) :
    Shaped (unary op operand)
  | binary {left right : Expr} {op : Operator TokenKind} (hop : (BinaryKind.ofToken? op.kind).isSome)
    (hleft : left.Shaped) (hright : right.Shaped) (hleftLevel : tightness op.kind ≤ left.level)
    (hrightLevel : tightness op.kind < right.level) : Shaped (binary left op right)
  | logical {left right : Expr} {op : Operator LogicalKind} (hleft : left.Shaped) (hright : right.Shaped)
    (hleftLevel : tightness op.kind.token ≤ left.level) (hrightLevel : tightness op.kind.token < right.level) :
    Shaped (logical left op right)
  | conditional {condition thenBranch elseBranch : Expr} (hcondition : condition.Shaped) (hthen : thenBranch.Shaped)
    (helse : elseBranch.Shaped) (hconditionLevel : 2 < condition.level) (helseLevel : 2 ≤ elseBranch.level) :
    Shaped (conditional condition thenBranch elseBranch)
  | assign {target : Reference} {value : Expr} (hvalue : value.Shaped) : Shaped (assign target value)
  | set {object value : Expr} {name : Name} (hobject : object.Shaped) (hlevel : 10 ≤ object.level)
    (hvalue : value.Shaped) : Shaped (set object name value)

end Expr

theorem tightness_binary {kind : TokenKind} (h : (BinaryKind.ofToken? kind).isSome) :
    5 ≤ tightness kind ∧ tightness kind ≤ 8 := by
  revert h
  cases kind <;> decide

theorem tightness_logical (kind : LogicalKind) : 3 ≤ tightness kind.token ∧ tightness kind.token ≤ 4 := by
  cases kind <;> decide

/-! ## First tokens -/

/-- Lines and numbers do not matter for how tokens begin. -/
theorem opens_words {kinds : List TokenKind} {ts : List Token} (h : Opens kinds (ts.map Token.word)) : Opens kinds ts := by
  obtain ⟨word, words, hmap, hkind, hfun⟩ := h
  obtain ⟨t, rest, rfl, rfl, rfl⟩ := List.map_eq_cons_iff.1 hmap
  refine ⟨t, rest, rfl, hkind, fun h => ?_⟩
  simpa [Function.comp_def] using hfun h

namespace Expr.Shaped

variable {e : Expr}

/-- What can be called begins like a call, and everything else like an expression. -/
theorem opens (h : e.Shaped) : Opens expressionStarts e.flatten ∧ (10 ≤ e.level → Opens callStarts e.flatten) := by
  have hcall {ts : List Token} {level : Nat} (h : Opens callStarts ts) :
      Opens expressionStarts ts ∧ (10 ≤ level → Opens callStarts ts) :=
    ⟨h.mono (List.subset_append_right _ _), fun _ => h⟩
  have hatom {t : Token} {rest : List Token} {level : Nat} (hkind : t.kind ∈ callStarts) (hfun : t.kind ≠ .funKeyword) :
      Opens expressionStarts (t :: rest) ∧ (10 ≤ level → Opens callStarts (t :: rest)) := hcall (.cons hkind hfun)
  have hloose {ts : List Token} {level : Nat} (h : Opens expressionStarts ts) (hlevel : level < 10) :
      Opens expressionStarts ts ∧ (10 ≤ level → Opens callStarts ts) :=
    ⟨h, fun hle => absurd hle (Nat.not_le.2 hlevel)⟩
  induction h with
  | literal value =>
    rcases value with _ | (_ | _) | _ | _ <;>
      exact hatom (by simp [Literal.token, callStarts, atoms]) (by simp [Literal.token])
  | «variable» use => exact hatom (by simp [Name.token, callStarts, atoms]) (by simp [Name.token])
  | this | parent | group | list => exact hatom (by simp [callStarts, atoms]) (by simp)
  | call _ hlevel _ _ ih | get _ hlevel ih | index _ hlevel _ ih => exact hcall ((ih.2 hlevel).append _)
  | @unary op operand =>
    apply hloose _ (show 9 < 10 by decide)
    apply Opens.cons <;> cases op.kind <;> simp [Operator.token, UnaryKind.token, expressionStarts]
  | binary hop _ _ _ _ ih => exact hloose (ih.1.append _) (Nat.lt_of_le_of_lt (tightness_binary hop).2 (by decide))
  | @logical left right op _ _ _ _ ih =>
    exact hloose (ih.1.append _) (Nat.lt_of_le_of_lt (tightness_logical op.kind).2 (by decide))
  | conditional _ _ _ _ _ ih => exact hloose (ih.1.append _) (show 2 < 10 by decide)
  | @assign target value =>
    have hname : Opens expressionStarts (Expr.assign target value).flatten :=
      .cons (by simp [Name.token, expressionStarts, callStarts, atoms]) (by simp [Name.token])
    exact hloose hname (show 1 < 10 by decide)
  | set _ _ _ ih => exact hloose (ih.1.append _) (show 1 < 10 by decide)

theorem level_bounds (h : e.Shaped) : 1 ≤ e.level ∧ e.level ≤ 10 := by
  cases h with
  | binary hop _ _ _ _ =>
    have := tightness_binary hop
    simp only [level]
    omega
  | @logical left right op _ _ _ _ =>
    have := tightness_logical op.kind
    simp only [level]
    omega
  | _ => simp [level]

/-- The tokens of an expression are words. -/
theorem map_word_flatten (h : e.Shaped) : e.flatten.map Token.word = e.flatten := by
  have hall {es : List Expr} (hes : ∀ e ∈ es, e.flatten.map Token.word = e.flatten) :
      (commaSeparated (Expr.flattenAll es)).map Token.word = commaSeparated (Expr.flattenAll es) := by
    rw [map_commaSeparated, flattenAll_eq, List.map_map]
    exact congrArg commaSeparated (List.map_congr_left hes)
  have hname (name : Name) : name.token.word = name.token := Token.word_of_settled rfl nofun
  have hfixed {kind : TokenKind} (hkind : kind ≠ .number) := Token.word_fixed hkind
  have hoperator {κ : Type} (op : Operator κ) {kind : TokenKind} (hkind : kind ≠ .number) :
      (op.token kind).word = op.token kind := Token.word_of_settled rfl fun h => absurd h hkind
  induction h with
  | literal value => rcases value with _ | (_ | _) | _ | _ <;> rfl
  | «variable» | this => simp [flatten, hname, hfixed]
  | parent id keyword method =>
    have hkeyword : Token.word ⟨.parentKeyword, keyword.text, none, 0⟩ = ⟨.parentKeyword, keyword.text, none, 0⟩ :=
      Token.word_of_settled rfl nofun
    simp [flatten, hname, hfixed, hkeyword]
  | group _ ih => simp [flatten, hfixed, ih]
  | list _ ih => simp [flatten, hfixed, hall ih]
  | call _ _ _ _ ih ihs => simp [flatten, hfixed, ih, hall ihs]
  | get _ _ ih => simp [flatten, hfixed, hname, ih]
  | index _ _ _ ih ih' => simp [flatten, hfixed, ih, ih']
  | @unary op operand _ _ ih =>
    have hkind : op.kind.token ≠ .number := by cases op.kind <;> decide
    simp [flatten, hoperator op hkind, ih]
  | @binary left right op hop _ _ _ _ ih ih' =>
    have hkind : op.kind ≠ .number := fun hkind => by simp [hkind, BinaryKind.ofToken?] at hop
    simp [flatten, hoperator op hkind, ih, ih']
  | @logical left right op _ _ _ _ ih ih' =>
    have hkind : op.kind.token ≠ .number := by cases op.kind <;> decide
    simp [flatten, hoperator op hkind, ih, ih']
  | conditional _ _ _ _ _ ih ih' ih'' => simp [flatten, hfixed, ih, ih', ih'']
  | assign _ ih => simp [flatten, hfixed, hname, ih]
  | set _ _ _ ih ih' => simp [flatten, hfixed, hname, ih, ih']

end Expr.Shaped

end TreeWalk
