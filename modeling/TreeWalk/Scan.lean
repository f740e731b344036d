import TreeWalk.Segment

/-!
# Tokens of a source text

Scanning reads the segments of a text in order and notes for each token and each fault the line on
which it ends.
-/

namespace TreeWalk

structure LexicalError where
  line : Nat
  cause : LexicalCause
  deriving DecidableEq

def LexicalError.message (e : LexicalError) : String :=
  "line " ++ toString e.line ++ ": " ++ e.cause.message

/-- What scanning finds: the tokens, closed by one at the end of input, and the faults. -/
structure Scan where
  tokens : List Token
  errors : List LexicalError

namespace Scan

/-- The value of a literal is determined by its lexeme: the number its digits denote, or the
characters between the quotes. -/
def literal? (kind : TokenKind) (lexeme : List Char) : Option TokenLiteral :=
  match kind with
  | .number =>
    some (.number (Number.ofDigits (lexeme.takeWhile (· != '.')) ((lexeme.dropWhile (· != '.')).drop 1)))
  | .string => some (.text (String.ofList (lexeme.drop 1).dropLast))
  | _ => none

def newlines (text : List Char) : Nat := text.count '\n'

/-- Reads segments that start on the given line. -/
def ofSegments : Nat → List Segment → Scan
  | line, [] => ⟨[.endOfInput line], []⟩
  | line, segment :: rest =>
    let line := line + newlines segment.text
    let after := ofSegments line rest
    match segment with
    | .lexeme kind text =>
      { after with tokens := ⟨kind, String.ofList text, literal? kind text, line⟩ :: after.tokens }
    | .fault cause _ => { after with errors := ⟨line, cause⟩ :: after.errors }
    | _ => after

def ofSource (source : String) : Scan := ofSegments 1 (Segment.ofText source.toList)

end Scan

end TreeWalk
