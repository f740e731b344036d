import TreeWalk.Scan

/-!
# How segments are spelled

Which texts are lexemes, comments and faulty pieces, told without reading them from left to right. A text
is partitioned by maximal munch if each segment is the longest one with which the text behind the earlier
ones begins.
-/

namespace TreeWalk

/-! ## Characters -/

def Blank (c : Char) : Prop := c = ' ' ∨ c = '\t' ∨ c = '\r' ∨ c = '\n'

def Digit (c : Char) : Prop := '0' ≤ c ∧ c ≤ '9'

/-- Names have no letters but those of ASCII, and the underscore counts as one. -/
def Letter (c : Char) : Prop := ('a' ≤ c ∧ c ≤ 'z') ∨ ('A' ≤ c ∧ c ≤ 'Z') ∨ c = '_'

/-- One or more digits. -/
structure Digits (text : List Char) : Prop where
  nonempty : text ≠ []
  digits : ∀ c ∈ text, Digit c

/-- A letter, and behind it letters and digits. -/
structure Word (text : List Char) : Prop where
  first : ∃ c ∈ text.head?, Letter c
  rest : ∀ c ∈ text, Letter c ∨ Digit c

/-! ## Lexemes -/

/-- Operators and punctuation. -/
def operators : List (List Char × TokenKind) :=
  [(['('], .leftParen), ([')'], .rightParen), (['\x7b'], .leftBrace), (['\x7d'], .rightBrace),
   (['['], .leftBracket), ([']'], .rightBracket), ([','], .comma), (['?'], .question), ([':'], .colon),
   (['.'], .dot), (['-'], .minus), (['+'], .plus), ([';'], .semicolon), (['/'], .slash), (['*'], .star),
   (['!'], .bang), (['!', '='], .bangEqual), (['='], .equal), (['=', '='], .equalEqual),
   (['>'], .greater), (['>', '='], .greaterEqual), (['<'], .less), (['<', '='], .lessEqual)]

/-- The lexemes of a kind of token, with the literal that they stand for. -/
inductive Spells : TokenKind → List Char → Option TokenLiteral → Prop where
  | operator {text : List Char} {kind : TokenKind} (h : (text, kind) ∈ operators) : Spells kind text none
  | keyword {word : String} {kind : TokenKind} (h : (word, kind) ∈ TokenKind.keywords) : Spells kind word.toList none
  | identifier {text : List Char} (h : Word text) (hfree : ∀ kind, (String.ofList text, kind) ∉ TokenKind.keywords) :
    Spells .identifier text none
  | whole {digits : List Char} (h : Digits digits) :
    Spells .number digits (some (.number (Number.ofDigits digits [])))
  | decimal {whole fraction : List Char} (h : Digits whole) (h' : Digits fraction) :
    Spells .number (whole ++ '.' :: fraction) (some (.number (Number.ofDigits whole fraction)))
  | string {inside : List Char} (h : '"' ∉ inside) :
    Spells .string ('"' :: inside ++ ['"']) (some (.text (String.ofList inside)))

/-! ## Comments -/

/-- What follows the opening of a block comment up to the `*/` that closes it. A `/*` on the way opens
another comment, which is closed first. -/
inductive ClosesComment : List Char → Prop where
  | close : ClosesComment ['*', '/']
  | nested {inner rest : List Char} (hinner : ClosesComment inner) (hrest : ClosesComment rest) :
    ClosesComment ('/' :: '*' :: inner ++ rest)
  | plain {c next : Char} {rest : List Char} (hrest : ClosesComment (next :: rest)) (hopen : ¬ (c = '/' ∧ next = '*'))
    (hclose : ¬ (c = '*' ∧ next = '/')) : ClosesComment (c :: next :: rest)

/-! ## Segments -/

/-- A character with which nothing else begins. -/
structure Unexpected (c : Char) : Prop where
  blank : ¬ Blank c
  letter : ¬ Letter c
  digit : ¬ Digit c
  quote : c ≠ '"'
  operator : ∀ text kind, (text, kind) ∈ operators → text.head? ≠ some c

/-- The segments that there are. -/
inductive Segment.Spelled : Segment → Prop where
  | blank {c : Char} (h : Blank c) : Spelled (.blank c)
  | lineComment (text : List Char) (h : '\n' ∉ text) : Spelled (.lineComment ('/' :: '/' :: text))
  | blockComment {text : List Char} (h : ClosesComment text) : Spelled (.blockComment ('/' :: '*' :: text))
  | lexeme {kind : TokenKind} {text : List Char} {literal : Option TokenLiteral} (h : Spells kind text literal) :
    Spelled (.lexeme kind text)
  | unexpected {c : Char} (h : Unexpected c) : Spelled (.fault (.unexpectedCharacter c) [c])
  | malformed {digits : List Char} (h : Digits digits) :
    Spelled (.fault (.malformedNumber (String.ofList (digits ++ ['.']))) (digits ++ ['.']))
  | openString (text : List Char) (h : '"' ∉ text) : Spelled (.fault .unterminatedString ('"' :: text))
  | openComment (text : List Char) (h : ∀ body rest, text = body ++ rest → ¬ ClosesComment body) :
    Spelled (.fault .unterminatedBlockComment ('/' :: '*' :: text))

/-- In front of the rest of a text, the segment could not be longer, also not as one of another kind. -/
def Segment.Longest (s : Segment) (rest : List Char) : Prop :=
  ∀ other : Segment, other.Spelled → ∀ more after, rest = more ++ after → other.text = s.text ++ more → more = []

/-- The text is cut into the longest segments. -/
inductive Partition : List Char → List Segment → Prop where
  | nil : Partition [] []
  | cons {s : Segment} {rest : List Char} {segments : List Segment} (hspelled : s.Spelled) (hlongest : s.Longest rest)
    (hs : Partition rest segments) : Partition (s.text ++ rest) (s :: segments)

theorem Partition.text_eq {text : List Char} {segments : List Segment} (h : Partition text segments) :
    text = segments.flatMap Segment.text := by
  induction h with
  | nil => rfl
  | cons _ _ _ ih => rw [List.flatMap_cons, ih]

/-- What may come behind a segment of a partition. -/
def Segment.Precedes (s : Segment) (rest : List Char) : Prop :=
  match s with
  | .lineComment _ => ∀ c ∈ rest.head?, c = '\n'
  | .fault (.malformedNumber _) _ => ∀ c ∈ rest.head?, ¬ Digit c
  | .fault .unterminatedString _ | .fault .unterminatedBlockComment _ => rest = []
  | _ => True

end TreeWalk
