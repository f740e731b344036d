import TreeWalk.Fault
import TreeWalk.Scan
import TreeWalk.Scope.Resolution
import TreeWalk.Syntax.Grammar

/-!
# Events

What a session notes down about its stages, for those who want to follow them.
-/

namespace TreeWalk

inductive Event where
  | scanned (tokens errors : Nat)
  | parsed (statements errors : Nat)
  /-- The statements are handed on. -/
  | received (statements : Nat)
  | located (name : String) (distance : Nat)
  | violated (line : Nat) (cause : ScopeCause)
  | resolved (references errors : Nat)
  | failed (fault : Fault)
  | opened (file : String)
  deriving DecidableEq

namespace Event

inductive Level where
  | debug | trace
  deriving DecidableEq

/-- Single references are of less interest than all else. -/
def level : Event → Level
  | located .. => .trace
  | _ => .debug

def Level.text : Level → String
  | debug => "DEBUG"
  | trace => "TRACE"

def text : Event → String
  | scanned tokens errors =>
    "scanned " ++ toString tokens ++ " tokens with " ++ toString errors ++ " errors"
  | parsed statements errors =>
    "parsed " ++ toString statements ++ " statements with " ++ toString errors ++ " errors"
  | received statements => "parsed " ++ toString statements ++ " statements"
  | located name distance => "'" ++ name ++ "' resolved at distance " ++ toString distance
  | violated line cause => "resolve error at line " ++ toString line ++ ": " ++ cause.message
  | resolved references errors =>
    "resolved " ++ toString references ++ " local references, " ++ toString errors ++ " errors"
  | failed fault => "runtime error: " ++ fault.message
  | opened file => "running " ++ file

/-- The event as a line of a log. -/
def line (e : Event) : String := e.level.text ++ " " ++ e.text

end Event

def Scan.event (s : Scan) : Event := .scanned s.tokens.length s.errors.length

def Parse.event (p : Parse) : Event := .parsed p.statements.length p.errors.length

def Finding.event : Finding → Event
  | .distance _ name d => .located name d
  | .violation e => .violated e.place.line e.cause

/-- The findings one by one and a summary. -/
def Resolution.events (r : Resolution) : List Event :=
  r.findings.map Finding.event ++ [.resolved r.distances.size r.errors.length]

end TreeWalk
