import TreeWalk.Session

/-!
# The command line

A command runs one script file or holds a conversation.
-/

namespace TreeWalk

inductive Command where
  | file (path : String)
  | repl
  deriving DecidableEq

inductive UsageError where
  | missingCommand
  | unknownCommand (name : String)
  | missingPath
  | unexpected (argument : String)
  deriving DecidableEq

def UsageError.message : UsageError → String
  | missingCommand => "the subcommand is required but not provided"
  | unknownCommand name => "unrecognized subcommand '" ++ name ++ "'"
  | missingPath => "the argument '<PATH>' is required but not provided"
  | unexpected argument => "unexpected argument '" ++ argument ++ "'"

namespace CommandLine

/-- How a long option is named in an error: by its name behind two dashes. A name that begins with
two dashes itself gets no more of them, and an empty name or a single letter outside ASCII gets one
dash like a short option. -/
def longOption : (name : List Char) → String
  | '-' :: '-' :: rest => String.ofList ('-' :: '-' :: rest)
  | [] => "-"
  | [letter] => if letter.toNat < 128 then "--" ++ letter.toString else "-" ++ letter.toString
  | name => "--" ++ String.ofList name

/-- How an option is named in an error: without its value if it is a long one, and by its first
letter if it is a cluster of short ones. A dash alone is no option. -/
def option? (argument : String) : Option String :=
  match argument.toList with
  | '-' :: '-' :: rest => some (longOption (rest.takeWhile (· != '=')))
  | '-' :: letter :: _ => some (String.ofList ['-', letter])
  | _ => none

/-- The arguments that are no options, which must be at most `room`. There is no option, and behind
`--` none is looked for. -/
def operands : (room : Nat) → (optionsEnded : Bool) → List String → Except UsageError (List String)
  | _, _, [] => .ok []
  | room, ended, argument :: rest =>
    if !ended && argument == "--" then operands room true rest
    else
      match if ended then none else option? argument with
      | some name => .error (.unexpected name)
      | none =>
        match room with
        | 0 => .error (.unexpected argument)
        | room + 1 => (operands room ended rest).map (argument :: ·)

/-- The command of a name, with its own arguments. -/
def command (name : String) (arguments : List String) : Except UsageError Command :=
  if name == "file" then
    match operands 1 false arguments with
    | .error e => .error e
    | .ok (path :: _) => .ok (.file path)
    | .ok [] => .error .missingPath
  else if name == "repl" then (operands 0 false arguments).map fun _ => .repl
  else .error (.unknownCommand name)

/-- Reads the arguments. A `--` in front of the command's name only says that the name is none of an
option; the command has options again. -/
def parse : List String → Except UsageError Command
  | [] => .error .missingCommand
  | "--" :: [] => .error .missingCommand
  | "--" :: name :: rest => command name rest
  | argument :: rest =>
    match option? argument with
    | some name => .error (.unexpected name)
    | none => command argument rest

end CommandLine

/-- What a process leaves behind. -/
structure Outcome where
  code : Nat
  output : List UInt8
  diagnostics : List UInt8
  deriving DecidableEq

namespace Outcome

/-- Ends with one line of diagnostics. -/
def failure (code : Nat) (message : String) : Outcome := ⟨code, [], Lines.encode (message ++ "\n")⟩

def usage (e : UsageError) : Outcome := failure 1 e.message

/-- The outcome of a turn: what it wrote after `before`, with the error that ended it. -/
def ofTurn (before : Session) : EStateM.Result Halt Session Unit → Outcome
  | .ok () after => written after 0 []
  | .error (.error e) after => ended after e
  | .error (.crashed _) after => ended after (.internal "Interpreter thread panicked")
  | .error .unfinished after => written after 1 (Lines.encode "The program does not end\n")
where
  ended (after : Session) (e : SessionError) : Outcome :=
    written after e.exitCode (Lines.encode (e.message ++ "\n"))
  written (after : Session) (code : Nat) (error : List UInt8) : Outcome :=
    ⟨code, after.machine.output.bytesFrom before.machine.output.entries.size,
      after.reports.bytesFrom before.reports.entries.size ++ error⟩

end Outcome

namespace Command

/-- The session in which a command runs. Conversations echo. -/
def session (clock : Nat → Float) : Command → Session
  | .file _ => .start (.initial false none clock) none
  | .repl => .start (.initial true none clock) none

/-- Runs a command on all of its input. A script has no content if it cannot be read. -/
def run (steps : Nat) (clock : Nat → Float) (content : Option (List UInt8)) (input : List UInt8)
    (c : Command) : Outcome :=
  let start := c.session clock
  .ofTurn start <|
    match c with
    | .file path =>
      Session.runScript steps path content
        { start with machine := { start.machine with input } }
    | .repl => Session.converse steps input start

end Command

/-- Whether a script may read input: only if it names the function that does. -/
def Script.mayRead (content : List UInt8) : Bool :=
  match Lines.decode? content with
  | none => false
  | some source => (Scan.ofSource source).tokens.any (·.lexeme == "input")

end TreeWalk
