import TreeWalk.Evaluation
import TreeWalk.Session.Error
import TreeWalk.Session.Event
import TreeWalk.Session.Script
import TreeWalk.Text.Whitespace

/-!
# Sessions

A session runs one program after the other on the same machine. A program that fails in an early
stage is reported and not run.
-/

namespace TreeWalk

/-- A machine on which nothing has run, with the standard functions at top level. -/
def Machine.initial (echo : Bool) (limit : Option Nat) (clock : Nat → Float) : Machine :=
  { heap := Native.register Native.standard .initial
    distances := ∅
    output := .empty limit
    echo
    depth := 0
    input := []
    clock
    readings := 0 }

structure Session where
  machine : Machine
  /-- Where errors are reported. -/
  reports : Transcript
  /-- The next node id to give away. Ids are never used twice in a session. -/
  nextId : NodeId
  events : Array Event

/-- Why a turn of a session ends early. -/
inductive Halt where
  | error (error : SessionError)
  /-- The process breaks down in the middle of a program. -/
  | crashed (crash : Crash)
  /-- A program has not ended within the steps it was given. -/
  | unfinished

abbrev Turn := EStateM Halt Session

namespace Session

def start (machine : Machine) (reportLimit : Option Nat) : Session :=
  ⟨machine, .empty reportLimit, 0, #[]⟩

/-- Goes on with a machine on which nothing has run. -/
def restart (s : Session) (limit : Option Nat) : Session :=
  { s with machine := .initial s.machine.echo limit s.machine.clock }

def note (events : List Event) : Turn Unit :=
  modify fun s => { s with events := s.events ++ events }

def fail (error : SessionError) : Turn Unit := throw (.error error)

/-- Reports a text, which fails when the sink is full. -/
def report (text : String) : Turn Unit := fun s =>
  let (accepted, reports) := s.reports.writeText .report text
  let s := { s with reports }
  if accepted then .ok () s else .error (.error .inputOutput) s

/-- Reports errors of one stage, each on a line. -/
def reportAll (stage : String) : List String → Turn Unit
  | [] => pure ()
  | message :: rest => do
    report (stage ++ " error: " ++ message ++ "\n")
    reportAll stage rest

/-- Runs the statements of a program that has passed all earlier stages. -/
def execute (steps : Nat) (program : List Stmt) : Turn Unit := fun s =>
  match Evaluation.program steps program s.machine with
  | .ok () machine => .ok () { s with machine }
  | .error (.fault fault) machine =>
    .error (.error (.runtime fault)) { s with machine, events := s.events.push (.failed fault) }
  | .error (.crash crash) machine => .error (.crashed crash) { s with machine }
  | .error .unfinished machine => .error .unfinished { s with machine }

/-- Reads a program, giving away new node ids. -/
def parse (tokens : List Token) : Turn Parse := fun s =>
  let parse := Parse.ofTokens s.nextId tokens
  .ok parse { s with nextId := parse.nextId }

/-- Resolves a program that runs with the names now at top level. -/
def resolve (program : List Stmt) : Turn Resolution := fun s =>
  .ok (Resolution.ofProgram (Resolution.knownGlobals s.machine.heap.globals.names) program) s

def addDistances (r : Resolution) : Turn Unit :=
  modify fun s =>
    { s with machine := { s.machine with distances := r.addDistances s.machine.distances } }

/-- Runs a program. The first stage that finds errors reports them and ends the turn. -/
def run (steps : Nat) (source : String) : Turn Unit := do
  let scan := Scan.ofSource source
  note [scan.event]
  if !scan.errors.isEmpty then
    reportAll "Lexical" (scan.errors.map LexicalError.message)
    fail (.lexical scan.errors.length)
  let parsed ← parse scan.tokens
  note [parsed.event, .received parsed.statements.length]
  if !parsed.errors.isEmpty then
    reportAll "Syntax" (parsed.errors.map SyntaxError.message)
    fail (.syntactic parsed.errors.length)
  let resolution ← resolve parsed.statements
  note resolution.events
  if !resolution.errors.isEmpty then
    reportAll "Semantic" (resolution.errors.map ScopeError.message)
    fail (.scoping resolution.errors.length)
  addDistances resolution
  execute steps parsed.statements

/-! ## Conversations -/

/-- Asks for a line. -/
def prompt : Turn Unit := fun s =>
  let (accepted, output) := s.machine.output.writeText .prompt "> "
  let s := { s with machine := { s.machine with output } }
  if accepted then .ok () s else .error (.error (.internal "Failed write prompt")) s

/-- Runs a line as a program of its own. Programs that fail do not end the conversation. -/
def answer (steps : Nat) (line : List UInt8) : Turn Unit := fun s =>
  match Lines.decode? line with
  | none => .error (.error (.internal "Failed read line")) s
  | some text =>
    match run steps (trimmed text) s with
    | .error (.error (.runtime fault)) s => report ("Runtime error: " ++ fault.message ++ "\n") s
    | .error (.error (.lexical _)) s => .ok () s
    | .error (.error (.syntactic _)) s => .ok () s
    | .error (.error (.scoping _)) s => .ok () s
    | result => result

def farewell : Turn Unit := report "\nExited plox repl\n"

def converseLines (steps : Nat) : List (List UInt8) → Turn Unit
  | [] => do
    prompt
    farewell
  | line :: rest => do
    prompt
    answer steps line
    converseLines steps rest

/-- Runs every line of the input, with a prompt in front of each and at the end. -/
def converse (steps : Nat) (input : List UInt8) : Turn Unit :=
  converseLines steps (Lines.all input)

/-! ## Scripts -/

/-- Runs a script whose name has the right extension. -/
def runContent (steps : Nat) (content : Option (List UInt8)) : Turn Unit :=
  match content.bind Lines.decode? with
  | none => fail .inputOutput
  | some source => run steps source

/-- Runs a script file. It has no content if it cannot be read. -/
def runScript (steps : Nat) (path : String) (content : Option (List UInt8)) : Turn Unit := do
  let extension := Script.extension? path
  if (extension.map Script.extensions.contains).getD false then
    note [.opened path]
    runContent steps content
  else fail (.unsupportedExtension (extension.getD ""))

end Session

end TreeWalk
