import Std.Time.DateTime.Timestamp
import TreeWalk.CommandLine

/-!
# The program

Connects the command line to files, standard streams and the clock.
-/

namespace TreeWalk

namespace Console

/-- More steps than fit into any run. -/
def steps : Nat := Nat.pow 2 62

/-- The clock of a run that starts now. Its readings are a microsecond apart. -/
def clockFromNow : IO (Nat → Float) := do
  let now ← Std.Time.Timestamp.now
  let start := Float.ofInt now.toNanosecondsSinceUnixEpoch.val / 1000000000
  pure fun reading => start + .ofNat reading / 1000000

def readContent? (path : String) : IO (Option (List UInt8)) := do
  try
    let content ← IO.FS.readBinFile path
    pure (some content.toList)
  catch _ => pure none

partial def readAll (stream : IO.FS.Stream) (before : ByteArray) : IO ByteArray := do
  let bytes ← stream.read 65536
  if bytes.isEmpty then pure before else readAll stream (before ++ bytes)

/-- The bytes up to and including the next newline. -/
partial def readLine (stream : IO.FS.Stream) (before : ByteArray) : IO ByteArray := do
  let bytes ← stream.read 1
  if bytes.isEmpty then pure before
  else if bytes.toList == [Lines.newline] then pure (before ++ bytes)
  else readLine stream (before ++ bytes)

/-- Writes what a run leaves behind and gives its exit code. -/
def finish (outcome : Outcome) : IO UInt32 := do
  let output ← IO.getStdout
  output.write ⟨outcome.output.toArray⟩
  output.flush
  (← IO.getStderr).write ⟨outcome.diagnostics.toArray⟩
  pure outcome.code.toUInt32

/-- Takes a turn and goes on if it succeeds. -/
def proceed (s : Session) (turn : Turn Unit) (next : Session → IO UInt32) : IO UInt32 := do
  let result := turn s
  let code ← finish (.ofTurn s result)
  match result with
  | .ok () s => next s
  | .error _ _ => pure code

/-- Answers the lines of a stream one by one. -/
partial def converse (stream : IO.FS.Stream) (s : Session) : IO UInt32 :=
  proceed s Session.prompt fun s => do
    let line ← readLine stream .empty
    if line.isEmpty then proceed s Session.farewell fun _ => pure 0
    else
      let clock ← clockFromNow
      let s := { s with machine := { s.machine with clock } }
      proceed s (Session.answer steps line.toList) (converse stream)

end Console

end TreeWalk

open TreeWalk Console in
def main (arguments : List String) : IO UInt32 := do
  let clock ← clockFromNow
  match CommandLine.parse arguments with
  | .error e => finish (.usage e)
  | .ok (.file path) => do
    let content ← readContent? path
    let input ←
      if content.any Script.mayRead then readAll (← IO.getStdin) .empty else pure .empty
    finish ((Command.file path).run steps clock content input.toList)
  | .ok .repl => converse (← IO.getStdin) (Command.repl.session clock)
