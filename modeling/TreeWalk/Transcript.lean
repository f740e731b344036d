import TreeWalk.Text.Lines

/-!
# Transcripts

What has been written to a sink, entry by entry. A sink may have room for a limited number of bytes
only. A write that does not fit is cut off where the room ends, and it fails.
-/

namespace TreeWalk

/-- Why something was written. -/
inductive Origin where
  | printed
  /-- The value of an expression statement in a session that echoes. -/
  | echoed
  | prompt
  | report
  deriving DecidableEq

structure Entry where
  origin : Origin
  bytes : List UInt8
  deriving DecidableEq

structure Transcript where
  entries : Array Entry
  /-- How many more bytes the sink takes, if it is limited. -/
  room : Option Nat
  deriving DecidableEq

namespace Transcript

/-- Nothing written yet, to a sink that takes so many bytes in total. -/
def empty (limit : Option Nat) : Transcript := ⟨#[], limit⟩

/-- Writes what fits, and says whether that was all. -/
def write (t : Transcript) (origin : Origin) (bytes : List UInt8) : Bool × Transcript :=
  match t.room with
  | none => (true, { t with entries := t.entries.push ⟨origin, bytes⟩ })
  | some room =>
    (bytes.length ≤ room,
      ⟨t.entries.push ⟨origin, bytes.take room⟩, some (room - bytes.length)⟩)

def writeText (t : Transcript) (origin : Origin) (text : String) : Bool × Transcript :=
  t.write origin (Lines.encode text)

/-- Everything written from the given entry on. -/
def bytesFrom (t : Transcript) (start : Nat) : List UInt8 :=
  (t.entries.toList.drop start).flatMap (·.bytes)

def bytes (t : Transcript) : List UInt8 := t.bytesFrom 0

theorem bytes_write_of_unlimited {t : Transcript} (h : t.room = none) (origin : Origin)
    (bytes : List UInt8) : (t.write origin bytes).2.bytes = t.bytes ++ bytes := by
  simp [write, h, Transcript.bytes, bytesFrom]

theorem bytes_write_of_limited {t : Transcript} {room : Nat} (h : t.room = some room)
    (origin : Origin) (bytes : List UInt8) :
    (t.write origin bytes).2.bytes = t.bytes ++ bytes.take room := by
  simp [write, h, Transcript.bytes, bytesFrom]

end Transcript

end TreeWalk
