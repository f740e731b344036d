/-!
# Lines of input

Input arrives as bytes. It is read line by line, and a line is text only if its bytes are UTF-8.
-/

namespace TreeWalk

namespace Lines

def newline : UInt8 := 10

/-- The bytes up to and including the first newline, and the bytes behind it. -/
def split : List UInt8 → List UInt8 × List UInt8
  | [] => ([], [])
  | byte :: rest =>
    if byte == newline then ([byte], rest)
    else
      let (line, after) := split rest
      (byte :: line, after)

/-- All lines, each with the newline that ends it. The last one may have none. -/
def all : List UInt8 → List (List UInt8)
  | [] => []
  | byte :: rest =>
    if byte == newline then [byte] :: all rest
    else
      match all rest with
      | [] => [[byte]]
      | line :: lines => (byte :: line) :: lines

theorem flatten_all (bytes : List UInt8) : (all bytes).flatten = bytes := by
  induction bytes with
  | nil => rfl
  | cons byte rest ih =>
    unfold all
    by_cases h : byte == newline
    · simp [h, ih]
    · simp only [h]
      cases hl : all rest <;> simp_all

theorem all_eq_split_cons {bytes : List UInt8} (h : bytes ≠ []) :
    all bytes = (split bytes).1 :: all (split bytes).2 := by
  induction bytes with
  | nil => exact absurd rfl h
  | cons byte rest ih =>
    by_cases hb : byte == newline
    · simp [all, split, hb]
    · cases rest with
      | nil => simp [all, split, hb]
      | cons next after =>
        rw [all, split, if_neg hb, if_neg hb, ih (by simp)]

/-- The text that the bytes encode, if they are UTF-8. -/
def decode? (bytes : List UInt8) : Option String := String.fromUTF8? ⟨bytes.toArray⟩

def encode (text : String) : List UInt8 := text.toUTF8.data.toList

/-- A line without the newlines and carriage returns at its end. -/
def withoutEnding (line : String) : String :=
  String.ofList (line.toList.reverse.dropWhile (fun c => c == '\n' || c == '\r')).reverse

end Lines

end TreeWalk
