import TreeWalk.Token

/-!
# Segments of a source text

A source text falls into consecutive segments: blanks, comments, lexemes and faulty pieces. Every
segment is as long as it can be, and together they are the whole text.
-/

namespace TreeWalk

/-- Why a piece of the source is no token. -/
inductive LexicalCause where
  | unterminatedBlockComment
  | unexpectedCharacter (c : Char)
  | unterminatedString
  /-- Digits and a point without a digit behind it. -/
  | malformedNumber (text : String)
  deriving DecidableEq

def LexicalCause.message : LexicalCause → String
  | unterminatedBlockComment => "Unterminated block comment"
  | unexpectedCharacter c => "Unexpected character '" ++ c.toString ++ "'"
  | unterminatedString => "Unterminated string"
  | malformedNumber text => "Number value format is incorrect: '" ++ text ++ "'"

inductive Segment where
  | blank (c : Char)
  | lineComment (text : List Char)
  | blockComment (text : List Char)
  | lexeme (kind : TokenKind) (text : List Char)
  | fault (cause : LexicalCause) (text : List Char)

namespace Segment

/-- The characters of the source that the segment covers. -/
def text : Segment → List Char
  | blank c => [c]
  | lineComment text | blockComment text | lexeme _ text | fault _ text => text

/-! ## Character classes -/

def isBlank (c : Char) : Bool := c == ' ' || c == '\t' || c == '\r' || c == '\n'

/-- Names are made of ASCII letters, digits and underscores. -/
def startsName (c : Char) : Bool := c.isAlpha || c == '_'

def continuesName (c : Char) : Bool := c.isAlphanum || c == '_'

/-- Characters that are a token on their own, whatever follows. -/
def punctuation? : Char → Option TokenKind
  | '(' => some .leftParen
  | ')' => some .rightParen
  | '{' => some .leftBrace
  | '}' => some .rightBrace
  | '[' => some .leftBracket
  | ']' => some .rightBracket
  | ',' => some .comma
  | '?' => some .question
  | ':' => some .colon
  | '.' => some .dot
  | '-' => some .minus
  | '+' => some .plus
  | ';' => some .semicolon
  | '*' => some .star
  | _ => none

/-- Characters that form another token with `=` behind them: the kind alone and the kind with it. -/
def comparison? : Char → Option (TokenKind × TokenKind)
  | '!' => some (.bang, .bangEqual)
  | '=' => some (.equal, .equalEqual)
  | '<' => some (.less, .lessEqual)
  | '>' => some (.greater, .greaterEqual)
  | _ => none

/-! ## Splitting off the first segment

Each function gets what follows the character that decides the kind of segment, and returns the
segment together with the rest of the text. -/

/-- The rest of a block comment inside `depth` further ones: its characters up to the `*/` that
closes the outermost, and what follows. Without that `*/` the text ends inside the comment. -/
def splitComment : Nat → List Char → List Char × Option (List Char)
  | _, [] => ([], none)
  | depth, '/' :: '*' :: rest =>
    let (inside, after) := splitComment (depth + 1) rest
    ('/' :: '*' :: inside, after)
  | 0, '*' :: '/' :: rest => (['*', '/'], some rest)
  | depth + 1, '*' :: '/' :: rest =>
    let (inside, after) := splitComment depth rest
    ('*' :: '/' :: inside, after)
  | depth, c :: rest =>
    let (inside, after) := splitComment depth rest
    (c :: inside, after)

/-- A division, a comment up to the end of the line, or a block comment. -/
def afterSlash : List Char → Segment × List Char
  | '/' :: rest => (lineComment ('/' :: '/' :: rest.takeWhile (· != '\n')), rest.dropWhile (· != '\n'))
  | '*' :: rest =>
    match splitComment 0 rest with
    | (inside, some after) => (blockComment ('/' :: '*' :: inside), after)
    | (inside, none) => (fault .unterminatedBlockComment ('/' :: '*' :: inside), [])
  | rest => (lexeme .slash ['/'], rest)

/-- A string literal: everything up to the next quote, over line ends too. -/
def afterQuote (rest : List Char) : Segment × List Char :=
  let inside := rest.takeWhile (· != '"')
  match rest.dropWhile (· != '"') with
  | [] => (fault .unterminatedString ('"' :: inside), [])
  | quote :: after => (lexeme .string ('"' :: inside ++ [quote]), after)

/-- A number literal: digits, and perhaps a point with more digits behind it. -/
def afterDigit (first : Char) (rest : List Char) : Segment × List Char :=
  let whole := first :: rest.takeWhile Char.isDigit
  match rest.dropWhile Char.isDigit with
  | '.' :: digit :: after =>
    if digit.isDigit then
      (lexeme .number (whole ++ '.' :: digit :: after.takeWhile Char.isDigit),
        after.dropWhile Char.isDigit)
    else
      let text := whole ++ ['.']
      (fault (.malformedNumber (String.ofList text)) text, digit :: after)
  | ['.'] =>
    let text := whole ++ ['.']
    (fault (.malformedNumber (String.ofList text)) text, [])
  | after => (lexeme .number whole, after)

/-- A keyword or an identifier. -/
def afterLetter (first : Char) (rest : List Char) : Segment × List Char :=
  let word := first :: rest.takeWhile continuesName
  (lexeme (.ofWord (String.ofList word)) word, rest.dropWhile continuesName)

/-- The segment that starts with `c`, and the text behind it. -/
def split (c : Char) (rest : List Char) : Segment × List Char :=
  if isBlank c then (blank c, rest)
  else match punctuation? c with
  | some kind => (lexeme kind [c], rest)
  | none =>
    match comparison? c with
    | some (alone, withEqual) =>
      match rest with
      | '=' :: after => (lexeme withEqual [c, '='], after)
      | _ => (lexeme alone [c], rest)
    | none =>
      if c == '/' then afterSlash rest
      else if c == '"' then afterQuote rest
      else if c.isDigit then afterDigit c rest
      else if startsName c then afterLetter c rest
      else (fault (.unexpectedCharacter c) [c], rest)

/-! ## All segments -/

/-- The first `limit` segments of a text. -/
def take : Nat → List Char → List Segment
  | 0, _ => []
  | _, [] => []
  | limit + 1, c :: rest =>
    let (segment, after) := split c rest
    segment :: take limit after

/-- The segments of a text. No segment is empty, so there are at most as many as characters. -/
def ofText (text : List Char) : List Segment := take text.length text

end Segment

end TreeWalk
